import RaftNode.Proofs.LogOperations
/-!
# What the log writes

The operations of a log write entries and snapshots and nothing else. What these writes leave alone is left alone by
every operation on every log, also by one that ends early.
-/
namespace RaftNode

/-- Whatever becomes of the write, `I` stays. -/
def Write.Preserves (w : Write) (I : Persisted → Prop) : Prop :=
  ∀ p q, I p → w.Interrupted p q → I q

theorem Write.interrupted_change (w : Write) (p : Persisted) : w.Interrupted p (w.change p) :=
  Or.inr ⟨w, .whole w, rfl⟩

/-- Entries come and go, and snapshots that `G` allows are installed, without an effect on `I`. -/
structure Persisted.Steady (I : Persisted → Prop) (G : Snapshot → Prop) : Prop where
  append : ∀ es, (Write.append es).Preserves I
  truncate : ∀ i, (Write.truncate i).Preserves I
  install : ∀ snap, G snap → (Write.install snap).Preserves I

open Persisted (Steady)

/-- The log never touches term and vote. -/
theorem Persisted.steady_hard (H : HardState) : Steady (fun p => p.hard = H) fun _ => True where
  append es := by
    rintro p _ rfl (rfl | ⟨_, ⟨⟩ | ⟨-⟩, rfl⟩) <;> rfl
  truncate i := by
    rintro p _ rfl (rfl | ⟨_, ⟨⟩, rfl⟩) <;> rfl
  install snap _ := by
    rintro p _ rfl (rfl | ⟨_, ⟨⟩, rfl⟩) <;> rfl

theorem Persisted.steady_true : Steady (fun _ => True) fun _ => True where
  append _ _ _ _ _ := trivial
  truncate _ _ _ _ _ := trivial
  install _ _ _ _ _ _ := trivial

/-- Whatever is said of every snapshot that is installed holds of the one that is kept. -/
theorem Persisted.steady_snapshot (P : Snapshot → Prop) :
    Steady (fun p => ∀ snap, p.snapshot = some snap → P snap) P where
  append es := by
    rintro p _ hp (rfl | ⟨_, ⟨⟩ | ⟨-⟩, rfl⟩) <;> exact hp
  truncate i := by
    rintro p _ hp (rfl | ⟨_, ⟨⟩, rfl⟩) <;> exact hp
  install snap hsnap := by
    rintro p _ hp (rfl | ⟨_, ⟨⟩, rfl⟩)
    · exact hp
    · exact fun _ h => Option.some.inj h ▸ hsnap

/-- A snapshot stays until another one is installed. -/
theorem Persisted.steady_same (snap : Snapshot) :
    Steady (fun p => p.snapshot = some snap) fun s => s = snap where
  append es := by
    rintro p _ hp (rfl | ⟨_, ⟨⟩ | ⟨-⟩, rfl⟩) <;> exact hp
  truncate i := by
    rintro p _ hp (rfl | ⟨_, ⟨⟩, rfl⟩) <;> exact hp
  install s hs := by
    rintro p _ hp (rfl | ⟨_, ⟨⟩, rfl⟩)
    · exact hp
    · exact congrArg some hs

theorem Write.preserves_snapshot (P : Snapshot → Prop) (hard : HardState) :
    (Write.hard hard).Preserves fun p => ∀ snap, p.snapshot = some snap → P snap := by
  rintro p _ hp (rfl | ⟨_, ⟨⟩, rfl⟩) <;> exact hp

namespace Log

open RaftNode.Action (wp)

variable {σ : Type} [LogStore σ] [LawfulStore σ] {l : Log σ} {I : Persisted → Prop} {α β : Type}

/-- However the step ends, `I` holds of what is stored; and a step that ends early halts the node. -/
def Maintains (I : Persisted → Prop) (step : LogAction σ α) (l : Log σ) : Prop :=
  wp step (fun _ l' => I (kept l'.store)) (fun f l' => f.halts = true ∧ I (kept l'.store)) l

theorem Maintains.ok {step : LogAction σ α} (h : Maintains I step l) {a : α} {l' : Log σ}
    (hr : step l = .ok a l') : I (kept l'.store) := by
  unfold Maintains at h
  exact Action.wp_ok h hr

theorem Maintains.error {step : LogAction σ α} (h : Maintains I step l) {f : Fault NodeError}
    {l' : Log σ} (hr : step l = .error f l') : f.halts = true ∧ I (kept l'.store) :=
  Action.wp_error h hr

theorem Maintains.bind {step : LogAction σ α} {f : α → LogAction σ β} (hs : Maintains I step l)
    (hf : ∀ a l', I (kept l'.store) → Maintains I (f a) l') : Maintains I (step >>= f) l :=
  Action.wp_seq hs hf

theorem Maintains.write {w : Write} (hw : w.Preserves I) (h : I (kept l.store)) :
    Maintains I (onStore w.perform) l :=
  wp_write w (fun _ hs => hw _ _ h (hs ▸ w.interrupted_change _)) fun _ _ hf hs => ⟨hf, hw _ _ h hs⟩

theorem Maintains.appendAsLeader {term : Term} {command : Bytes}
    (happend : (Write.append [⟨l.lastIndex + 1, term, command⟩]).Preserves I) (h : I (kept l.store)) :
    Maintains I (appendAsLeader term command) l := by
  simp only [Maintains, Log.appendAsLeader, Action.wp_bind, Action.wp_get, Action.wp_add,
    Action.wp_modify, Action.wp_pure]
  split
  · exact Maintains.write happend h
  · exact ⟨rfl, h⟩

theorem Maintains.setCommitIndex (h : I (kept l.store)) (i : Index) :
    Maintains I (setCommitIndex i) l := by
  simp only [Maintains, Log.setCommitIndex, Action.wp_bind, Action.wp_get, Action.wp_require]
  split
  · rw [Action.wp_ite]
    split <;> exact h
  · exact ⟨rfl, h⟩

theorem Maintains.nextCommitted (h : I (kept l.store)) : Maintains I nextCommitted l := by
  simp only [Maintains, Log.nextCommitted, Action.wp_bind, Action.wp_get, Action.wp_ite]
  split
  · exact h
  · simp only [Action.wp_add]
    split
    · split <;> exact h
    · exact ⟨rfl, h⟩

theorem Maintains.truncateFrom {i : Index} (hcut : (Write.truncate i).Preserves I) (h : I (kept l.store)) :
    Maintains I (truncateFrom i) l := by
  simp only [Maintains, Log.truncateFrom, Action.wp_bind, Action.wp_get, Action.wp_ite]
  split
  · exact ⟨rfl, h⟩
  · refine Action.wp_imp (Maintains.write hcut h) fun _ l' h' => ?_
    simp only [Action.wp_sub]
    split
    · simp only [Action.wp_add]
      split
      · exact h'
      · exact ⟨rfl, h'⟩
    · exact ⟨rfl, h'⟩

/-- What is left of a batch is a part of it. -/
theorem wp_dropKnown_maintains (hcut : ∀ i, (Write.truncate i).Preserves I) (h : I (kept l.store))
    (batch : List Entry) : wp (dropKnown batch) (fun fresh l' => fresh ⊆ batch ∧ I (kept l'.store))
      (fun f l' => f.halts = true ∧ I (kept l'.store)) l := by
  induction batch with
  | nil => exact ⟨List.Subset.refl _, h⟩
  | cons e rest ih =>
    simp only [Log.dropKnown, Action.wp_bind, Action.wp_get]
    split
    · rw [Action.wp_ite]
      split
      · exact Action.wp_imp ih fun _ _ h' => ⟨List.subset_cons_of_subset e h'.1, h'.2⟩
      · exact Action.wp_seq (Maintains.truncateFrom (hcut e.index) h) fun _ _ h' => ⟨List.Subset.refl _, h'⟩
    · exact ⟨List.Subset.refl _, h⟩

theorem Maintains.merge {batch : List Entry} (hcut : ∀ i, (Write.truncate i).Preserves I)
    (happend : ∀ es, es ⊆ batch → (Write.append es).Preserves I) (h : I (kept l.store))
    (lastNew leaderCommit : Index) : Maintains I (merge batch lastNew leaderCommit) l := by
  have hcommit : ∀ l' : Log σ, I (kept l'.store) → Maintains I (do
      if (← get).commitIndex < min leaderCommit lastNew then
        Log.setCommitIndex (min leaderCommit lastNew)
      pure lastNew) l' := by
    intro l' h'
    simp only [Maintains, Action.wp_bind, Action.wp_get, Action.wp_pure, Action.wp_ite]
    split
    · exact Maintains.setCommitIndex h' _
    · exact h'
  refine Action.wp_seq (wp_dropKnown_maintains hcut h batch) ?_
  rintro fresh l₁ ⟨hfresh, h₁⟩
  rw [Action.wp_ite]
  split
  · refine (Maintains.write (happend fresh hfresh) h₁).bind fun _ l₂ h₂ => ?_
    exact hcommit { l₂ with entries := l₂.entries ++ fresh } h₂
  · exact hcommit l₁ h₁

/-- A request that does not fit the log is refused, which is no reason to halt. -/
theorem wp_reconcile_maintains {batch : List Entry} (hcut : ∀ i, (Write.truncate i).Preserves I)
    (happend : ∀ es, es ⊆ batch → (Write.append es).Preserves I) (h : I (kept l.store))
    (prevIndex : Index) (prevTerm : Term) (leaderCommit : Index) :
    wp (reconcile prevIndex prevTerm batch leaderCommit) (fun _ l' => I (kept l'.store))
      (fun f l' => (f.halts = true ∧ I (kept l'.store)) ∨
        l' = l ∧ ∃ i hint, f = .error (.logConflict i hint)) l := by
  have hmerge : ∀ part, part ⊆ batch → ∀ lastNew, wp (Log.merge part lastNew leaderCommit)
      (fun _ l' => I (kept l'.store)) (fun f l' => (f.halts = true ∧ I (kept l'.store)) ∨
        l' = l ∧ ∃ i hint, f = .error (.logConflict i hint)) l := fun part hpart lastNew =>
    Action.wp_mono (Maintains.merge hcut (fun es hes => happend es fun _ he => hpart (hes he)) h lastNew leaderCommit)
      (fun _ _ h' => h') fun _ _ => Or.inl
  apply wp_reconcile_cases
  case hfull => exact fun _ => Or.inl ⟨rfl, h⟩
  case hcovered => exact fun _ => hmerge _ (List.drop_subset _ _) _
  case habsent => exact fun _ _ => Or.inr ⟨rfl, _, _, rfl⟩
  case hmatches => exact fun _ => hmerge _ (List.Subset.refl _) _
  case hdiffers => exact fun _ _ _ _ => Or.inr ⟨rfl, _, _, rfl⟩
  case hunhinted => exact fun _ _ _ _ => Or.inl ⟨rfl, h⟩

theorem Maintains.install {snap : Snapshot} (hcut : ∀ i, (Write.truncate i).Preserves I)
    (hinstall : (Write.install snap).Preserves I) (h : I (kept l.store)) : Maintains I (install snap) l := by
  have hkeep : ∀ l' : Log σ, I (kept l'.store) → Maintains I (onStore (LogStore.install snap)) l' :=
    fun l' h' => Maintains.write hinstall h'
  simp only [Maintains, Log.install, Action.wp_bind, Action.wp_get, Action.wp_ite, Action.wp_modify,
    Action.wp_pure]
  split
  · exact h
  · split
    · refine Action.wp_imp (hkeep l h) fun _ l' h' => ?_
      simp only [Action.wp_sub]
      split
      · exact h'
      · exact ⟨rfl, h'⟩
    · simp only [Action.wp_add]
      split
      · refine Action.wp_imp (Maintains.write (hcut _) h) fun _ l' h' => ?_
        exact hkeep l' h'
      · exact ⟨rfl, h⟩

theorem Maintains.compact {snap : Snapshot} (hinstall : (Write.install snap).Preserves I)
    (h : I (kept l.store)) : Maintains I (compact snap) l := by
  simp only [Maintains, Log.compact, Action.wp_bind, Action.wp_get, Action.wp_require,
    Action.wp_ite, Action.wp_pure, Action.wp_modify]
  split
  · split
    · exact h
    · refine Action.wp_imp (Maintains.write hinstall h) fun _ l' h' => ?_
      split
      · exact h'
      · exact ⟨rfl, h'⟩
  · exact ⟨rfl, h⟩

omit [LawfulStore σ] in
theorem wp_install_refused (l : Log σ) (snap : Snapshot) :
    wp (install snap) (fun b l' => b = false → l' = l) (fun _ _ => True) l := by
  rw [install, Action.wp_bind, Action.wp_get, Action.wp_ite]
  split
  · exact fun _ => rfl
  · split <;> simp

omit [LogStore σ] [LawfulStore σ] in
theorem wp_nextCommitted_reads (l : Log σ) :
    wp nextCommitted (fun o l' => o = none → l' = l) (fun _ l' => l' = l) l := by
  simp only [nextCommitted, Action.wp_bind, Action.wp_get, Action.wp_ite]
  split
  · exact fun _ => rfl
  · simp only [Action.wp_add]
    split
    · split
      · exact fun _ => rfl
      · rintro ⟨⟩
    · trivial

/-- To open a log drops entries at most, and it recovers the term, vote and snapshot that were stored. -/
theorem wp_boot_maintains (hcut : ∀ i, (Write.truncate i).Preserves I) {s : σ} (h : I (kept s)) :
    wp boot (fun r t => r.log.store = t ∧ I (kept t) ∧ r.hard = (kept s).hard ∧
      r.snapshot = (kept s).snapshot) (fun _ t => I (kept t)) s := by
  simp only [boot, Action.wp_bind, Action.wp_within]
  refine Action.wp_mono (LawfulStore.load s) ?_ fun _ t hp => ?_
  · rintro p t ⟨rfl, ht⟩
    have hI' : I (kept t) := ht ▸ h
    split
    · rename_i stale _
      rw [Action.wp_bind, Action.wp_within]
      refine Action.wp_mono (LawfulStore.perform (.truncate stale.index) t) ?_ fun _ t' hi => ?_
      · intro _ t' ht'
        exact ⟨rfl, hcut _ _ _ hI' (ht' ▸ Write.interrupted_change _ _), rfl, rfl⟩
      · exact hcut _ _ _ hI' hi
    · exact ⟨rfl, hI', rfl, rfl⟩
  · exact hp ▸ h

end Log

end RaftNode
