import RaftNode.Proofs.LogOperations
/-!
# Stores that work

Over a store whose accesses succeed, an operation of a log comes to its end. What could stop it is a number that
leaves the 64 bits, and what is known of its log rules out the rest.
-/
namespace RaftNode

open RaftNode.Action (wp)

/-- Every access to a store with `R` succeeds and leaves `R`. -/
structure Serves {σ : Type} [LogStore σ] [LawfulStore σ] (R : σ → Prop) (s : σ) : Prop where
  perform : ∀ w : Write, wp w.perform (fun _ t => R t) (fun _ _ => False) s
  load : wp LogStore.load (fun _ t => R t) (fun _ _ => False) s
  loadSnapshot : LogStore.loadSnapshot s = .ok (kept s).snapshot

variable {σ : Type} [LogStore σ] [LawfulStore σ] {α β : Type} {X : Prop}

/-- Every access succeeds, now and ever after. -/
def Reliable (s : σ) : Prop := ∃ R : σ → Prop, R s ∧ ∀ t, R t → Serves R t

namespace Reliable

theorem serves {s : σ} (h : Reliable s) : Serves Reliable s := by
  obtain ⟨R, hs, hR⟩ := h
  exact {
    perform := fun w => Action.wp_imp ((hR s hs).perform w) fun _ _ ht => ⟨R, ht, hR⟩
    load := Action.wp_imp (hR s hs).load fun _ _ ht => ⟨R, ht, hR⟩
    loadSnapshot := (hR s hs).loadSnapshot }

theorem perform {s : σ} (h : Reliable s) (w : Write) :
    wp w.perform (fun _ t => Reliable t ∧ kept t = w.change (kept s)) (fun _ _ => False) s :=
  Action.wp_mono (Action.wp_and (h.serves.perform w) (LawfulStore.perform w s)) (fun _ _ ht => ht)
    fun _ _ ht => ht.1

theorem load {s : σ} (h : Reliable s) : wp LogStore.load
    (fun p t => Reliable t ∧ p = kept s ∧ kept t = kept s) (fun _ _ => False) s :=
  Action.wp_mono (Action.wp_and h.serves.load (LawfulStore.load s)) (fun _ _ ht => ht)
    fun _ _ ht => ht.1

end Reliable

theorem reliable_memory {s : MemoryStore} (hs : s.failWrites = false) : Reliable s := by
  refine ⟨fun t => t.failWrites = false, hs, fun t ht => ⟨fun w => ?_, ht, rfl⟩⟩
  rw [MemoryStore.perform_eq]
  simp only [MemoryStore.write, wp, ht]
  rfl

theorem reliable_recorded {s : Recorded σ} (hs : Reliable s.inner) (hb : s.budget = none)
    (hh : s.hideSnapshot = false) : Reliable s := by
  refine ⟨fun t => Reliable t.inner ∧ t.budget = none ∧ t.hideSnapshot = false, ⟨hs, hb, hh⟩, ?_⟩
  rintro t ⟨ht, hb, hh⟩
  refine ⟨fun w => ?_, ?_, ?_⟩
  · have hpass : wp (Recorded.pass w w.perform)
        (fun _ u => Reliable u.inner ∧ u.budget = none ∧ u.hideSnapshot = false)
        (fun _ _ => False) t := by
      simp only [Recorded.pass, Action.wp_bind, Action.wp_get, hb, Action.wp_modify,
        Recorded.onInner, Action.wp_within]
      exact Action.wp_imp (ht.perform w) fun _ _ hu => ⟨hu.1, rfl, hh⟩
    cases w <;> exact hpass
  · simp only [LogStore.load, Recorded.onInner, Action.wp_within]
    exact Action.wp_imp ht.load fun _ _ hu => ⟨hu.1, hb, hh⟩
  · simp only [LogStore.loadSnapshot, hh]
    exact ht.serves.loadSnapshot

/-- An event goes on after the fault, or it is cut short because `X` and not by an error. -/
def Fault.Mild (X : Prop) (f : Fault NodeError) : Prop := f.halts = false ∨ f = .abort ∧ X

theorem mild_abort (h : X) : Fault.Mild X .abort := Or.inr ⟨rfl, h⟩

namespace Log

variable {l l' : Log σ} {F G P : List Entry}

/-- Over a reliable store the operation ends well, or no worse than mildly, and the store stays reliable. -/
def Completes (X : Prop) (op : LogAction σ α) (l : Log σ) : Prop :=
  wp op (fun _ l' => Reliable l'.store) (fun f _ => f.Mild X) l

theorem Completes.ok {op : LogAction σ α} (h : Completes X op l) {a : α} (hr : op l = .ok a l') :
    Reliable l'.store := by
  have hok := Action.wp_ok h hr
  exact hok

theorem Completes.error {op : LogAction σ α} (h : Completes X op l) {f : Fault NodeError}
    (hr : op l = .error f l') : f.Mild X :=
  Action.wp_error h hr

theorem completes_write (hl : Reliable l.store) (w : Write) {Q : Unit → Log σ → Prop}
    {E : Fault NodeError → Log σ → Prop}
    (hQ : ∀ s, Reliable s → kept s = w.change (kept l.store) → Q () { l with store := s }) :
    wp (onStore w.perform) Q E l := by
  rw [onStore, Action.wp_within]
  exact Action.wp_mono (hl.perform w) (fun _ s hs => hQ s hs.1 hs.2) fun _ _ => False.elim

theorem completes_saveHard (hl : Reliable l.store) (hard : HardState) :
    Completes X (saveHard hard) l :=
  completes_write hl (.hard hard) fun _ hs _ => hs

theorem Shows.completes_appendAsLeader (h : l.Shows F) (hl : Reliable l.store)
    (hX : wordLimit ≤ F.length + 1 → X) (term : Term) (command : Bytes) :
    Completes X (appendAsLeader term command) l := by
  simp only [Completes, appendAsLeader, Action.wp_bind, Action.wp_get, Action.wp_add,
    Action.wp_modify, Action.wp_pure, h.lastIndex]
  split
  · exact completes_write hl (.append _) fun s hs _ => hs
  · exact mild_abort (hX (by lia))

/-- Only a committed index is refused. -/
theorem Shows.completes_truncateFrom (h : l.Shows F) (hl : Reliable l.store)
    (hX : wordLimit ≤ F.length + 1 → X) {i : Index} (hi : i ≤ F.length) (hc : l.commitIndex < i) :
    Completes X (truncateFrom i) l := by
  simp only [Completes, truncateFrom, Action.wp_bind, Action.wp_get, Action.wp_ite,
    Action.wp_sub, Action.wp_add, Action.wp_modify, h.lastIndex, if_pos hi]
  rw [if_neg (by lia)]
  refine completes_write hl (.truncate i) fun s hs _ => ?_
  split
  · exact hs
  · exact mild_abort (hX (by lia))

/-- What is committed is shared with the leader, so no entry of the leader's disagrees with it. -/
theorem Shows.completes_dropKnown (h : l.Shows F) (hl : Reliable l.store)
    (hX : wordLimit ≤ F.length + 1 → X) (hG : Numbered G) (hFG : Agrees F G)
    (hcommit : F.take l.commitIndex <+: G) {batch : List Entry} (hF : P <+: F)
    (hB : P ++ batch <+: G) : Completes X (dropKnown batch) l := by
  induction batch generalizing P with
  | nil => exact hl
  | cons e rest ih =>
    have hnext : P ++ [e] <+: G := (List.prefix_append _ rest).trans (by simpa using hB)
    have hi : e.index = P.length + 1 := hG.isPrefix hnext P.length e (by simp)
    have hlen : (P ++ [e]).length = P.length + 1 := by simp
    simp only [Completes, dropKnown, Action.wp_bind, Action.wp_get]
    split
    · rename_i term ht
      rw [hi, h.termAt?_eq_some] at ht
      obtain ⟨-, hle, rfl⟩ := ht
      simp only [Action.wp_ite, Action.wp_bind, Action.wp_pure]
      split
      · rename_i heq
        have hPF : P ++ [e] <+: F := hFG.isPrefix hnext (hlen.trans_le hle) (by simpa using heq)
        exact ih hPF (by simpa using hB)
      · rename_i hne
        -- a committed entry would be the one of the batch
        have hfree : l.commitIndex < P.length + 1 := by
          by_contra hle'
          have hshared := (List.take_prefix_take_left (not_lt.mp hle')).trans hcommit
          have hsame := List.prefix_iff_eq_take.mp hshared
          rw [List.length_take_of_le hle, ← hlen, take_length_of_isPrefix hnext, hlen] at hsame
          exact hne (by rw [hsame, endTerm_concat])
        rw [hi]
        exact h.completes_truncateFrom hl hX hle hfree
    · exact hl

theorem Shows.completes_merge (h : l.Shows F) (hl : Reliable l.store)
    (hX : wordLimit ≤ F.length + 1 → X) (hG : Numbered G) (hFG : Agrees F G)
    (hcommit : F.take l.commitIndex <+: G) {batch : List Entry} (hs : l.snapshotIndex ≤ P.length)
    (hF : P <+: F) (hB : P ++ batch <+: G) {i : Index} (hi : i ≤ (P ++ batch).length)
    (leaderCommit : Index) : Completes X (merge batch i leaderCommit) l := by
  have hadvance : ∀ {l' : Log σ} {F' : List Entry}, l'.Shows F' → Reliable l'.store →
      i ≤ F'.length → Completes X (do
        if (← get).commitIndex < min leaderCommit i then setCommitIndex (min leaderCommit i)
        pure i) l' := fun h' hl' hi' =>
    Action.wp_mono (h'.wp_advance hi' leaderCommit) (fun _ _ hq => hq.2 ▸ hl') fun _ _ => False.elim
  refine Action.wp_seq (Action.wp_mono (Action.wp_and (h.wp_dropKnown hG hFG hs hF hB)
    (h.completes_dropKnown hl hX hG hFG hcommit hF hB)) (fun _ _ hq => hq) fun _ _ hf => hf.2) ?_
  rintro fresh l' ⟨⟨-, ⟨rfl, hl', hp⟩ | ⟨known, rfl, hne, hl', -⟩⟩, hr⟩
  · exact hadvance hl' hr (hi.trans hp.length_le)
  · have hnonempty : (!fresh.isEmpty) = true := by simpa using hne
    rw [← List.append_assoc] at hB hi
    rw [if_pos hnonempty, Action.wp_bind]
    refine completes_write hr (.append fresh) fun s hs e => ?_
    rw [Action.wp_bind, Action.wp_modify]
    exact hadvance (hl'.append (hG.isPrefix hB) e) hs hi

theorem Shows.completes_reconcile (h : l.Shows F) (hl : Reliable l.store)
    (hX : wordLimit ≤ F.length + 1 → X) (hG : Numbered G) (hFG : Agrees F G)
    (hcommit : F.take l.commitIndex <+: G) {batch : List Entry} (hB : P ++ batch <+: G)
    (hX' : wordLimit ≤ P.length + batch.length → X) (leaderCommit : Index) :
    Completes X (reconcile P.length (endTerm P) batch leaderCommit) l := by
  have hPG : P <+: G := (List.prefix_append _ _).trans hB
  apply wp_reconcile_cases
  case hfull => exact fun hfull => mild_abort (hX' hfull)
  case hcovered =>
    intro hbelow
    have hcovered : l.snapshotIndex ≤ l.commitIndex := h.applied.trans h.committed
    have hshared : F.take l.snapshotIndex <+: G :=
      (List.take_prefix_take_left hcovered).trans hcommit
    have hlen : (F.take l.snapshotIndex).length = l.snapshotIndex := by simp [h.covered_le]
    obtain ⟨hrest, hback⟩ := skip_covered hshared hB (by lia)
    rw [hlen] at hrest hback
    have hi := hback.length_le
    rw [List.length_append] at hi
    exact h.completes_merge hl hX hG hFG hcommit hlen.ge (List.take_prefix _ _) hrest hi leaderCommit
  case habsent => exact fun _ _ => Or.inl rfl
  case hmatches =>
    intro hterm
    obtain ⟨hs, hle, heq⟩ := h.termAt?_eq_some.mp hterm
    exact h.completes_merge hl hX hG hFG hcommit (by lia) (hFG.isPrefix hPG hle heq) hB
      (by simp) leaderCommit
  case hdiffers => exact fun _ _ _ _ => Or.inl rfl
  case hunhinted =>
    intro term hterm _ hfull
    obtain ⟨hs, hle, -⟩ := h.termAt?_eq_some.mp hterm
    exact mild_abort (hX (by lia))

theorem Shows.completes_install (h : l.Shows F) (hl : Reliable l.store) {snap : Snapshot}
    (hX : wordLimit ≤ snap.index + 1 → X) : Completes X (install snap) l := by
  have happlied := h.applied
  simp only [Completes, install, Action.wp_bind, Action.wp_get, Action.wp_ite, Action.wp_modify,
    Action.wp_pure]
  split
  · exact hl
  · split
    · refine completes_write hl (.install snap) fun s hs _ => ?_
      rw [Action.wp_sub, if_pos (by lia)]
      exact hs
    · rw [Action.wp_add]
      split
      · refine completes_write hl (.truncate _) fun s hs _ => ?_
        exact completes_write hs (.install snap) fun s' hs' _ => hs'
      · exact mild_abort (hX (by lia))

theorem Shows.completes_compact (h : l.Shows F) (hl : Reliable l.store) {snap : Snapshot}
    (hi : snap.index ≤ l.lastApplied) : Completes X (compact snap) l := by
  have hF : snap.index ≤ F.length := hi.trans (h.committed.trans h.held)
  simp only [Completes, compact, Action.wp_bind, Action.wp_get, Action.wp_require, if_pos hi,
    Action.wp_ite, Action.wp_pure, Action.wp_modify]
  split
  · exact hl
  · refine completes_write hl (.install snap) fun s hs _ => ?_
    rw [if_pos (by rw [h.entries_eq, List.length_drop]; lia)]
    exact hs

theorem Shows.completes_nextCommitted (h : l.Shows F) (hl : Reliable l.store)
    (hX : wordLimit ≤ F.length + 1 → X) :
    Completes X (nextCommitted : LogAction σ (Option Entry)) l := by
  have hheld := h.held
  simp only [Completes, nextCommitted, Action.wp_bind, Action.wp_get, Action.wp_ite,
    Action.wp_add]
  split
  · exact hl
  · split
    · split <;> exact hl
    · exact mild_abort (hX (by lia))

/-- A member always gets back what it has stored. -/
theorem completes_boot {s : σ} (hs : Reliable s) (h : (kept s).StandsFor F) (hF : Ascending F) :
    wp (boot : Action NodeError σ (Recovered σ)) (fun _ _ => True) (fun _ _ => False) s := by
  simp only [boot, Action.wp_bind, Action.wp_within]
  refine Action.wp_imp hs.load ?_
  rintro p t ⟨-, rfl, -⟩
  rw [h.takeWhile_eq hF]
  simp only [List.drop_length, List.head?_nil, Action.wp_pure, Action.wp_bind, Action.wp_get]

end Log

end RaftNode
