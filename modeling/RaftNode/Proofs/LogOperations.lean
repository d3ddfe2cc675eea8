import RaftNode.Proofs.FullLog
/-!
# Log operations on full logs

One statement for each operation of a log: what it does to the full log, and which full log the store stands for
if it ends early. A follower's operations are compared with the log `G` of the leader it follows.
-/
namespace RaftNode

/-- A node that meets such a fault goes no further. -/
def Fault.halts : Fault NodeError → Bool
  | .error e => e.isFatal
  | .abort => true

theorem StoreError.halts (f : Fault StoreError) : (f.map StoreError.toNodeError).halts = true := by
  rcases f with e | _
  · cases e <;> rfl
  · rfl

namespace Log

open RaftNode.Action (wp)

variable {σ : Type} [LogStore σ] [LawfulStore σ] {l : Log σ} {F G P : List Entry}

/-- How an operation leaves the store when it ends early. -/
structure Left (l : Log σ) (P : List Entry → Prop) (f : Fault NodeError) (l' : Log σ) : Prop where
  halts : f.halts = true
  hard : (kept l'.store).hard = (kept l.store).hard
  covered : (kept l'.store).covered ≤ l.commitIndex
  stands : ∃ F, P F ∧ (kept l'.store).StandsFor F

theorem Left.same {R : List Entry → Prop} {f : Fault NodeError} {l' : Log σ} (h : l.Shows F)
    (hF : R F) (hf : f.halts = true) (hs : kept l'.store = kept l.store) : Left l R f l' :=
  ⟨hf, by rw [hs], by rw [hs]; exact h.covered_le_commit, F, hF, by rw [hs]; exact h.stored⟩

/-- An append that ended early. -/
theorem Left.append {R : List Entry → Prop} {f : Fault NodeError} {l' : Log σ} (h : l.Shows F)
    (hG : Numbered (F ++ G)) (hF : ∀ H, H <+: G → R (F ++ H)) (hf : f.halts = true)
    (hs : (Write.append G).Interrupted (kept l.store) (kept l'.store)) : Left l R f l' := by
  rcases hs with e | ⟨_, ⟨⟩ | ⟨hH⟩, e⟩
  · exact .same h (by simpa using hF [] (List.nil_prefix)) hf e
  · exact ⟨hf, by rw [e]; rfl, by rw [e]; exact h.covered_le_commit, _,
      hF G (List.prefix_refl G), by rw [e]; exact h.stored.append hG⟩
  · refine ⟨hf, by rw [e]; rfl, by rw [e]; exact h.covered_le_commit, _, hF _ hH, ?_⟩
    rw [e]
    exact h.stored.append (hG.isPrefix ((List.prefix_append_right_inj F).mpr hH))

theorem wp_write (w : Write) {Q : Unit → Log σ → Prop} {E : Fault NodeError → Log σ → Prop}
    (hok : ∀ s, kept s = w.change (kept l.store) → Q () { l with store := s })
    (herr : ∀ f s, f.halts = true → w.Interrupted (kept l.store) (kept s) →
      E f { l with store := s }) :
    wp (onStore w.perform) Q E l := by
  rw [onStore, Action.wp_within]
  exact Action.wp_mono (LawfulStore.perform w l.store) (fun _ s hs => hok s hs)
    fun f s hs => herr _ s (StoreError.halts f) hs

theorem Shows.withStore (h : l.Shows F) {s : σ} (hs : kept s = kept l.store) :
    Shows { l with store := s } F :=
  ⟨by rw [hs]; exact h.stored, by rw [hs]; exact h.snapshotIndex, by rw [hs]; exact h.snapshotTerm,
    by rw [hs]; exact h.entries, h.applied, h.committed, h.held⟩

/-! ## Term and vote -/

theorem Shows.wp_saveHard (h : l.Shows F) (hs : HardState) :
    wp (saveHard hs)
      (fun _ l' => l'.Shows F ∧ l'.commitIndex = l.commitIndex ∧ (kept l'.store).hard = hs)
      (fun f l' => f.halts = true ∧ (kept l'.store = kept l.store ∨
        kept l'.store = (Write.hard hs).change (kept l.store))) l := by
  refine wp_write (.hard hs) (fun s e => ⟨?_, rfl, by rw [e]; rfl⟩) fun f s hf hi => ⟨hf, ?_⟩
  · exact ⟨by rw [e]; exact h.stored.hard hs, by rw [e]; exact h.snapshotIndex,
      by rw [e]; exact h.snapshotTerm, by rw [e]; exact h.entries, h.applied, h.committed, h.held⟩
  · rcases hi with e | ⟨_, ⟨⟩, e⟩
    · exact Or.inl e
    · exact Or.inr e

/-! ## Growing -/

/-- How a log goes on when an operation leaves the positions of commit and hard state alone. -/
structure Continues (l l' : Log σ) : Prop where
  hard : (kept l'.store).hard = (kept l.store).hard
  commit : l'.commitIndex = l.commitIndex
  applied : l'.lastApplied = l.lastApplied
  snapshot : l'.snapshotIndex = l.snapshotIndex

theorem Continues.refl (l : Log σ) : Continues l l := ⟨rfl, rfl, rfl, rfl⟩

theorem Left.mono {l₀ : Log σ} {R S : List Entry → Prop} {f : Fault NodeError} {l' : Log σ}
    (h : Left l R f l') (hl : Continues l₀ l) (hRS : ∀ F, R F → S F) : Left l₀ S f l' := by
  obtain ⟨hf, hh, hc, F, hF, hs⟩ := h
  exact ⟨hf, hh.trans hl.hard, hl.commit ▸ hc, F, hRS F hF, hs⟩

/-- Entries that reach the store and then the log. -/
theorem Shows.append (h : l.Shows F) (hG : Numbered (F ++ G)) {s : σ}
    (e : kept s = (Write.append G).change (kept l.store)) :
    Shows { l with store := s, entries := l.entries ++ G } (F ++ G) where
  stored := by rw [e]; exact h.stored.append hG
  snapshotIndex := by rw [e]; exact h.snapshotIndex
  snapshotTerm := by rw [e]; exact h.snapshotTerm
  entries := by rw [e]; exact congrArg (· ++ G) h.entries
  applied := h.applied
  committed := h.committed
  held := h.held.trans (by simp)

theorem Shows.wp_appendAsLeader (h : l.Shows F) (term : Term) (command : Bytes) :
    wp (appendAsLeader term command)
      (fun i l' => i = F.length + 1 ∧ Continues l l' ∧ l'.Shows (F ++ [⟨i, term, command⟩]))
      (Left l fun F' => F' = F ∨ F' = F ++ [⟨F.length + 1, term, command⟩]) l := by
  have hnew := h.numbered.concat term command
  simp only [appendAsLeader, Action.wp_bind, Action.wp_get, Action.wp_add, Action.wp_modify,
    Action.wp_pure, h.lastIndex]
  split
  · refine wp_write (.append _) (fun s e => ⟨trivial, ⟨by rw [e]; rfl, rfl, rfl, rfl⟩, ?_⟩)
      fun f s hf hi => .append h hnew (fun H hH => ?_) hf hi
    · exact h.append hnew e
    · rcases List.prefix_cons_iff.mp hH with rfl | ⟨_, rfl, hnil⟩
      · exact Or.inl (List.append_nil F)
      · exact Or.inr (by rw [List.prefix_nil.mp hnil])
  · exact .same h (Or.inl rfl) rfl rfl

theorem Shows.wp_setCommitIndex (h : l.Shows F) {i : Index} (hi : i ≤ F.length)
    {Q : Unit → Log σ → Prop} {E : Fault NodeError → Log σ → Prop}
    (hQ : Q () { l with commitIndex := max l.commitIndex i }) : wp (setCommitIndex i) Q E l := by
  simp only [setCommitIndex, Action.wp_bind, Action.wp_get, Action.wp_require, Action.wp_ite,
    Action.wp_set, Action.wp_pure, h.lastIndex, if_pos hi]
  split
  · rw [max_eq_right (by lia)] at hQ
    rwa [min_eq_left hi]
  · rwa [max_eq_left (by lia)] at hQ

theorem Shows.raise (h : l.Shows F) {i : Index} (hi : i ≤ F.length) :
    Shows { l with commitIndex := max l.commitIndex i } F :=
  { h with committed := h.committed.trans (le_max_left _ _), held := max_le h.held hi }

/-! ## Following a leader -/

theorem Shows.wp_truncateFrom (h : l.Shows F) {i : Index} (hi : i ≤ F.length) :
    wp (truncateFrom i) (fun _ l' => Continues l l' ∧ l'.Shows (F.take (i - 1)))
      (Left l fun F' => F' = F ∨ F' = F.take (i - 1)) l := by
  simp only [truncateFrom, Action.wp_bind, Action.wp_get, Action.wp_ite, Action.wp_fail,
    Action.wp_sub, Action.wp_add, Action.wp_modify, h.lastIndex, if_pos hi]
  split
  · exact .same h (Or.inl rfl) rfl rfl
  · have hs : (kept l.store).covered < i := by
      have := h.applied
      have := h.committed
      rw [← h.snapshotIndex]
      lia
    have cut : ∀ s : σ, kept s = (Write.truncate i).change (kept l.store) →
        (kept s).StandsFor (F.take (i - 1)) := fun s e => by rw [e]; exact h.stored.truncate hs
    refine wp_write (.truncate i) (fun s e => ?_) ?_
    swap
    · rintro f s hf (e | ⟨_, ⟨⟩, e⟩)
      · exact .same h (Or.inl rfl) hf e
      · exact ⟨hf, by rw [e]; rfl, by rw [e]; exact h.covered_le_commit, _, Or.inr rfl, cut s e⟩
    have stored := cut s e
    split
    · refine ⟨⟨by rw [e]; rfl, rfl, rfl, rfl⟩, stored, by rw [e]; exact h.snapshotIndex,
        by rw [e]; exact h.snapshotTerm, ?_, h.applied, h.committed, ?_⟩
      · have hc : (kept s).covered = l.snapshotIndex := by rw [e]; exact h.snapshotIndex.symm
        dsimp only
        rw [stored.entries, hc, h.entries_eq, List.drop_take]
        congr 1
        lia
      · rw [List.length_take]
        dsimp only
        lia
    · exact ⟨rfl, by rw [e]; rfl, by rw [e]; exact h.covered_le_commit, _, Or.inr rfl, stored⟩

/-- The log is cut where it begins to differ from the leader's. -/
theorem Shows.wp_cut (h : l.Shows F) (hF : P <+: F) (hG : P <+: G) (hlt : P.length < F.length)
    (hne : F.take (P.length + 1) ≠ G.take (P.length + 1)) :
    wp (truncateFrom (P.length + 1))
      (fun _ l' => Continues l l' ∧ l'.Shows P ∧ Follows G F P) (Left l (Follows G F)) l := by
  have hcut : Follows G F P := .cut hF hG fun _ => hne
  have hP : F.take (P.length + 1 - 1) = P := by
    rw [Nat.add_sub_cancel, take_length_of_isPrefix hF]
  have htruncate := h.wp_truncateFrom (i := P.length + 1) hlt
  rw [hP] at htruncate
  refine Action.wp_mono htruncate ?_ ?_
  · rintro - l' ⟨hc, hl'⟩
    exact ⟨hc, hl', hcut⟩
  · intro f l' hleft
    refine hleft.mono (.refl l) ?_
    rintro F' (rfl | rfl)
    · exact .refl G _
    · exact hcut

/-- What is left of a batch begins where the log ends, or where it was cut because it disagreed. -/
theorem Shows.wp_dropKnown (h : l.Shows F) (hG : Numbered G) (hFG : Agrees F G)
    {batch : List Entry} (hs : l.snapshotIndex ≤ P.length) (hF : P <+: F)
    (hB : P ++ batch <+: G) :
    wp (dropKnown batch)
      (fun fresh l' => Continues l l' ∧
        (fresh = [] ∧ l'.Shows F ∧ P ++ batch <+: F ∨
          ∃ known, batch = known ++ fresh ∧ fresh ≠ [] ∧ l'.Shows (P ++ known) ∧
            Follows G F (P ++ known)))
      (Left l (Follows G F)) l := by
  induction batch generalizing P with
  | nil => exact ⟨.refl l, Or.inl ⟨rfl, h, by simpa using hF⟩⟩
  | cons e rest ih =>
    have hPG : P <+: G := (List.prefix_append _ _).trans hB
    have hnext : P ++ [e] <+: G := (List.prefix_append _ rest).trans (by simpa using hB)
    have hi : e.index = P.length + 1 := hG.isPrefix hnext P.length e (by simp)
    have hlen : (P ++ [e]).length = P.length + 1 := by simp
    simp only [dropKnown, Action.wp_bind, Action.wp_get]
    split
    · rename_i term ht
      rw [hi, h.termAt?_eq_some] at ht
      obtain ⟨-, hle, rfl⟩ := ht
      simp only [Action.wp_ite, Action.wp_bind, Action.wp_pure]
      split
      · -- the log has the entry, so it has all that the leader has up to there
        rename_i heq
        have hPF : P ++ [e] <+: F := hFG.isPrefix hnext (hlen.trans_le hle) (by simpa using heq)
        refine Action.wp_imp (ih (P := P ++ [e]) (by lia) hPF (by simpa using hB)) ?_
        rintro fresh l' ⟨hc, ⟨rfl, hl', hp⟩ | ⟨known, rfl, hne, hl', hf⟩⟩
        · exact ⟨hc, Or.inl ⟨rfl, hl', by simpa using hp⟩⟩
        · exact ⟨hc, Or.inr ⟨e :: known, rfl, hne, by simpa using hl', by simpa using hf⟩⟩
      · rename_i hne
        have hdiffer : F.take (P.length + 1) ≠ G.take (P.length + 1) := by
          intro hsame
          rw [hsame, ← hlen, take_length_of_isPrefix hnext] at hne
          exact hne (endTerm_concat P e)
        rw [hi]
        refine Action.wp_imp (h.wp_cut hF hPG hle hdiffer) ?_
        rintro - l' ⟨hc, hl', hcut⟩
        exact ⟨hc, Or.inr ⟨[], rfl, by simp, by simpa using hl', by simpa using hcut⟩⟩
    · rename_i hnone
      rw [hi, h.termAt?] at hnone
      have hend : F = P := by
        have := hF.length_le
        refine (hF.eq_of_length ?_).symm
        split at hnone
        · cases hnone
        · lia
      subst hend
      exact ⟨.refl l, Or.inr ⟨[], rfl, by simp, by simpa using h, by simpa using .refl G F⟩⟩

/-- The part of `reconcile` behind its consistency check. -/
def merge (batch : List Entry) (lastNew leaderCommit : Index) : LogAction σ Index := do
  let fresh ← dropKnown batch
  if !fresh.isEmpty then
    onStore (LogStore.append fresh)
    modify fun l => { l with entries := l.entries ++ fresh }
  let target := min leaderCommit lastNew
  if (← get).commitIndex < target then setCommitIndex target
  pure lastNew

omit [LawfulStore σ] in
theorem reconcile_eq (prevIndex : Index) (prevTerm : Term) (batch : List Entry)
    (leaderCommit : Index) : (reconcile prevIndex prevTerm batch leaderCommit : LogAction σ Index) = (do
      let lastNew ← Action.add prevIndex batch.length
      let l ← get
      let batch ←
        if prevIndex < l.snapshotIndex then pure (batch.drop (l.snapshotIndex - prevIndex))
        else
          match l.termAt? prevIndex with
          | none => Action.fail (.logConflict prevIndex l.lastIndex)
          | some term =>
            if term = prevTerm then pure batch
            else do
              let _ ← Action.add l.snapshotIndex 1
              Action.fail (.logConflict prevIndex (l.firstOfRun term prevIndex - 1))
      merge batch lastNew leaderCommit) := rfl

omit [LawfulStore σ] in
/-- The ways through an append. -/
theorem wp_reconcile_cases {prevIndex : Index} {prevTerm : Term} {batch : List Entry} {leaderCommit : Index}
    {Q : Index → Log σ → Prop} {E : Fault NodeError → Log σ → Prop}
    (hfull : wordLimit ≤ prevIndex + batch.length → E .abort l)
    (hcovered : prevIndex < l.snapshotIndex →
      wp (merge (batch.drop (l.snapshotIndex - prevIndex)) (prevIndex + batch.length) leaderCommit) Q E l)
    (habsent : l.snapshotIndex ≤ prevIndex → l.termAt? prevIndex = none →
      E (.error (.logConflict prevIndex l.lastIndex)) l)
    (hmatches : l.termAt? prevIndex = some prevTerm → wp (merge batch (prevIndex + batch.length) leaderCommit) Q E l)
    (hdiffers : ∀ term, l.termAt? prevIndex = some term → term ≠ prevTerm → l.snapshotIndex + 1 < wordLimit →
      E (.error (.logConflict prevIndex (l.firstOfRun term prevIndex - 1))) l)
    (hunhinted : ∀ term, l.termAt? prevIndex = some term → term ≠ prevTerm → wordLimit ≤ l.snapshotIndex + 1 →
      E .abort l) : wp (reconcile prevIndex prevTerm batch leaderCommit) Q E l := by
  rw [reconcile_eq]
  simp only [Action.wp_bind, Action.wp_get, Action.wp_add, Action.wp_ite, Action.wp_pure]
  split
  swap
  · rename_i hsum
    exact hfull (not_lt.mp hsum)
  split
  · rename_i hlow
    exact hcovered hlow
  · rename_i hlow
    split
    · rename_i hnone
      exact habsent (not_lt.mp hlow) hnone
    · rename_i term hterm
      simp only [Action.wp_ite, Action.wp_bind, Action.wp_pure, Action.wp_add, Action.wp_fail]
      split
      · rename_i hsame
        exact hmatches (hsame ▸ hterm)
      · rename_i hother
        split
        · rename_i hroom
          exact hdiffers term hterm hother hroom
        · rename_i hsum
          exact hunhinted term hterm hother (not_lt.mp hsum)

/-- The commit index follows the leader's through what is shared. -/
theorem Shows.wp_advance (h : l.Shows F) {i : Index} (hi : i ≤ F.length) (leaderCommit : Index) :
    wp (do
        if (← get).commitIndex < min leaderCommit i then setCommitIndex (min leaderCommit i)
        pure i : LogAction σ Index)
      (fun j l' => j = i ∧ l' = { l with commitIndex := max l.commitIndex (min leaderCommit i) })
      (fun _ _ => False) l := by
  simp only [Action.wp_bind, Action.wp_get, Action.wp_ite, Action.wp_pure]
  split
  · exact h.wp_setCommitIndex (by lia) ⟨trivial, rfl⟩
  · refine ⟨trivial, ?_⟩
    rw [max_eq_left (by lia)]

theorem Shows.wp_merge (h : l.Shows F) (hG : Numbered G) (hFG : Agrees F G)
    {batch : List Entry} (hs : l.snapshotIndex ≤ P.length) (hF : P <+: F)
    (hB : P ++ batch <+: G) {i : Index} (hi : i ≤ (P ++ batch).length) (leaderCommit : Index) :
    wp (merge batch i leaderCommit)
      (fun j l' => j = i ∧ (kept l'.store).hard = (kept l.store).hard ∧
        l'.commitIndex = max l.commitIndex (min leaderCommit i) ∧
        ∃ F', l'.Shows F' ∧ P ++ batch <+: F' ∧ Follows G F F')
      (Left l (Follows G F)) l := by
  rw [merge, Action.wp_bind]
  refine Action.wp_imp (h.wp_dropKnown hG hFG hs hF hB) ?_
  rintro fresh l' ⟨hc, ⟨rfl, hl', hp⟩ | ⟨known, rfl, hne, hl', hf⟩⟩
  · refine Action.wp_mono (hl'.wp_advance (hi.trans hp.length_le) leaderCommit) ?_
      fun _ _ => False.elim
    rintro j l'' ⟨rfl, rfl⟩
    exact ⟨rfl, hc.hard, by rw [hc.commit], F, hl'.raise (by have := hp.length_le; lia), hp, .refl G F⟩
  · have hnonempty : (!fresh.isEmpty) = true := by simpa using hne
    rw [← List.append_assoc] at hB hi ⊢
    rw [if_pos hnonempty, Action.wp_bind]
    refine wp_write (.append fresh) (fun s e => ?_) fun f s hfault hi =>
      (Left.append hl' (hG.isPrefix hB) (fun H hH => ?_) hfault hi).mono hc fun _ h => h
    swap
    · exact hf.trans (.extend (List.prefix_append _ _)
        (((List.prefix_append_right_inj _).mpr hH).trans hB))
    have hnew := hl'.append (hG.isPrefix hB) e
    rw [Action.wp_bind, Action.wp_modify]
    refine Action.wp_mono (hnew.wp_advance hi leaderCommit) ?_ fun _ _ => False.elim
    rintro j l'' ⟨rfl, rfl⟩
    refine ⟨rfl, (congrArg Persisted.hard e).trans hc.hard, by rw [← hc.commit], _,
      hnew.raise (by lia), List.prefix_refl _, ?_⟩
    exact hf.trans (.extend (List.prefix_append _ _) hB)

/-- Entries that a shared beginning `P'` covers can be left out of a batch. -/
theorem skip_covered {P' batch : List Entry} (hP' : P' <+: G) (hB : P ++ batch <+: G)
    (hlt : P.length < P'.length) : P' ++ batch.drop (P'.length - P.length) <+: G ∧
      P ++ batch <+: P' ++ batch.drop (P'.length - P.length) := by
  rcases le_total P'.length (P ++ batch).length with hle | hle
  · have hp := List.prefix_of_prefix_length_le hP' hB hle
    have heq : P' ++ batch.drop (P'.length - P.length) = P ++ batch := by
      conv_rhs => rw [← List.take_append_drop P'.length (P ++ batch), take_length_of_isPrefix hp,
        List.drop_append, List.drop_eq_nil_of_le hlt.le, List.nil_append]
    rw [heq]
    exact ⟨hB, List.prefix_refl _⟩
  · rw [List.drop_eq_nil_of_le (by simp at hle; omega), List.append_nil]
    exact ⟨hP', List.prefix_of_prefix_length_le hB hP' hle⟩

omit [LogStore σ] [LawfulStore σ] in
theorem firstOfRun_le (l : Log σ) (t : Term) (i : Index) : l.firstOfRun t i ≤ i := by
  induction i with
  | zero => exact le_rfl
  | succ i ih =>
    rw [firstOfRun]
    split
    · exact ih.trans (Nat.le_succ i)
    · exact le_rfl

/-- An append that the leader with log `G` sent. The check at its beginning compares one term only; that the logs
agree as far as that is the caller's knowledge. -/
theorem Shows.wp_reconcile (h : l.Shows F) (hG : Numbered G) (hFG : Agrees F G)
    (hcommit : F.take l.commitIndex <+: G) {batch : List Entry} (hB : P ++ batch <+: G)
    (leaderCommit : Index) :
    wp (reconcile P.length (endTerm P) batch leaderCommit)
      (fun i l' => i = P.length + batch.length ∧ (kept l'.store).hard = (kept l.store).hard ∧
        l'.commitIndex = max l.commitIndex (min leaderCommit i) ∧
        ∃ F', l'.Shows F' ∧ P ++ batch <+: F' ∧ Follows G F F')
      (fun f l' => (∃ i hint, f = .error (.logConflict i hint) ∧ hint ≤ P.length ∧ l' = l) ∨
        Left l (Follows G F) f l')
      l := by
  have hPG : P <+: G := (List.prefix_append _ _).trans hB
  have hfault : ∀ f, f.halts = true → Left l (Follows G F) f l :=
    fun f hf => .same h (.refl G F) hf rfl
  apply wp_reconcile_cases
  case hfull => exact fun _ => Or.inr (hfault _ rfl)
  case hcovered =>
    intro hbelow
    have hcovered : l.snapshotIndex ≤ l.commitIndex := h.applied.trans h.committed
    have hshared : F.take l.snapshotIndex <+: G :=
      (List.take_prefix_take_left hcovered).trans hcommit
    have hlen : (F.take l.snapshotIndex).length = l.snapshotIndex := by simp [h.covered_le]
    obtain ⟨hrest, hback⟩ := skip_covered hshared hB (by lia)
    rw [hlen] at hrest hback
    have hi := hback.length_le
    rw [List.length_append] at hi
    refine Action.wp_mono (h.wp_merge hG hFG hlen.ge (List.take_prefix _ _) hrest hi
      leaderCommit) ?_ fun _ _ => Or.inr
    rintro i l' ⟨rfl, hh, hl', F', hF', hp, hf⟩
    exact ⟨rfl, hh, hl', F', hF', hback.trans hp, hf⟩
  case habsent =>
    intro habove hnone
    refine Or.inl ⟨_, _, rfl, ?_, rfl⟩
    rw [h.termAt?] at hnone
    rw [h.lastIndex]
    split at hnone
    · cases hnone
    · lia
  case hmatches =>
    intro hterm
    obtain ⟨hs, hle, heq⟩ := h.termAt?_eq_some.mp hterm
    have hPF := hFG.isPrefix hPG hle heq
    refine Action.wp_mono (h.wp_merge hG hFG (by lia) hPF hB (by simp) leaderCommit)
      ?_ fun _ _ => Or.inr
    rintro i l' ⟨rfl, hrest⟩
    exact ⟨rfl, hrest⟩
  case hdiffers =>
    exact fun _ _ _ _ => Or.inl ⟨_, _, rfl, (Nat.sub_le _ 1).trans (firstOfRun_le l _ _), rfl⟩
  case hunhinted => exact fun _ _ _ _ => Or.inr (hfault _ rfl)

/-! ## Snapshots -/

/-- How an install leaves the store when it ends early with the snapshot already kept. -/
structure LeftBehind (l : Log σ) (snap : Snapshot) (P : List Entry → Prop) (f : Fault NodeError)
    (l' : Log σ) : Prop where
  halts : f.halts = true
  hard : (kept l'.store).hard = (kept l.store).hard
  covered : (kept l'.store).covered = snap.index
  stands : ∃ F, P F ∧ (kept l'.store).StandsFor F

theorem LeftBehind.mono {snap : Snapshot} {R S : List Entry → Prop} {f : Fault NodeError}
    {l' : Log σ} (h : LeftBehind l snap R f l') (hRS : ∀ F, R F → S F) :
    LeftBehind l snap S f l' := by
  obtain ⟨hf, hh, hc, F, hF, hs⟩ := h
  exact ⟨hf, hh, hc, F, hRS F hF, hs⟩

theorem Shows.behind {s : σ} {snap : Snapshot} (h : (kept s).StandsFor F)
    (hs : (kept s).snapshot = some snap) {es : List Entry} (he : es = F.drop snap.index)
    {commit applied : Index} (ha : snap.index ≤ applied) (hac : applied ≤ commit)
    (hc : commit ≤ F.length) :
    Shows ⟨s, es, snap.index, snap.term, commit, applied⟩ F := by
  have hcov : (kept s).covered = snap.index := by simp [Persisted.covered, hs]
  exact ⟨h, hcov.symm, by simp [Persisted.coveredTerm, hs], by rw [h.entries, hcov]; exact he, ha,
    hac, hc⟩

/-- A snapshot that the log agrees with. -/
theorem Shows.wp_keepInstall (h : l.Shows F) {snap : Snapshot} (hi : l.snapshotIndex ≤ snap.index)
    (hF : snap.index ≤ F.length) (ht : snap.term = endTerm (F.take snap.index))
    {Q : Unit → Log σ → Prop} {E : Fault NodeError → Log σ → Prop}
    (hQ : ∀ s, (kept s).hard = (kept l.store).hard → (kept s).StandsFor F →
      (kept s).snapshot = some snap → Q () { l with store := s })
    (hE : ∀ f l', Left l (· = F) f l' ∨ LeftBehind l snap (· = F) f l' → E f l') :
    wp (onStore (LogStore.install snap)) Q E l := by
  have stored := h.stored.install (by rwa [← h.snapshotIndex]) hF ht
  refine wp_write (.install snap) (fun s e => ?_) ?_
  · exact hQ s (by rw [e]; rfl) (by rw [e]; exact stored) (by rw [e]; rfl)
  · rintro f s hf (e | ⟨_, ⟨⟩, e⟩)
    · exact hE _ _ (Or.inl (.same h rfl hf e))
    · exact hE _ _ (Or.inr ⟨hf, by rw [e]; rfl, by rw [e]; rfl, F, rfl, by rw [e]; exact stored⟩)

/-- The entries from the end of a snapshot on go, then the snapshot replaces the rest. -/
theorem Shows.wp_replaceInstall (h : l.Shows F) {C : List Entry} (hC : Numbered C)
    {snap : Snapshot} (hi : snap.index = C.length) (ht : snap.term = endTerm C)
    (hs : l.snapshotIndex ≤ snap.index) {Q : Unit → Log σ → Prop} {R : List Entry → Prop}
    (hRF : R F) (hRcut : R (F.take snap.index))
    (hQ : ∀ s, (kept s).hard = (kept l.store).hard → (kept s).StandsFor C →
      (kept s).snapshot = some snap → Q () { l with store := s }) :
    wp (do
        onStore (LogStore.truncate (← Action.add snap.index 1))
        onStore (LogStore.install snap)) Q
      (fun f l' => Left l R f l' ∨ LeftBehind l snap (· = C) f l') l := by
  simp only [Action.wp_bind, Action.wp_add]
  split
  swap
  · exact Or.inl (.same h hRF rfl rfl)
  have cut : ((Write.truncate (snap.index + 1)).change (kept l.store)).StandsFor
      (F.take snap.index) := h.stored.truncate (by rw [← h.snapshotIndex]; lia)
  refine wp_write (.truncate (snap.index + 1)) (fun s e => ?_) ?_
  swap
  · rintro f s hf (e | ⟨_, ⟨⟩, e⟩)
    · exact Or.inl (.same h hRF hf e)
    · exact Or.inl ⟨hf, by rw [e]; rfl, by rw [e]; exact h.covered_le_commit, _, hRcut,
        by rw [e]; exact cut⟩
  have hcov : (kept s).covered ≤ l.commitIndex := by rw [e]; exact h.covered_le_commit
  rw [← e] at cut
  have stored := cut.replace hC (List.length_take_le _ _) hi ht
  refine wp_write (.install snap) (fun s' e' => ?_) ?_
  · exact hQ s' (by rw [e', e]; rfl) (by rw [e']; exact stored) (by rw [e']; rfl)
  · rintro f s' hf (e' | ⟨_, ⟨⟩, e'⟩)
    · exact Or.inl ⟨hf, by rw [e', e]; rfl, by rw [e']; exact hcov, _, hRcut,
        by rw [e']; exact cut⟩
    · exact Or.inr ⟨hf, by rw [e', e]; rfl, by rw [e']; rfl, C, rfl, by rw [e']; exact stored⟩

/-- A log without the last entry that a snapshot covers shares less with the leader than that. -/
theorem Shows.shared_lt (h : l.Shows F) {C : List Entry} (hC : C <+: G)
    (hs : l.snapshotIndex ≤ C.length) (hterm : l.termAt? C.length ≠ some (endTerm C))
    (hF : P <+: F) (hG : P <+: G) : P.length < C.length := by
  by_contra hle
  have hCP := List.prefix_of_prefix_length_le hC hG (by omega)
  have hCF := hCP.trans hF
  apply hterm
  rw [h.termAt?_eq_some, take_length_of_isPrefix hCF]
  exact ⟨hs, hCF.length_le, rfl⟩

/-- A snapshot of the leader's log up to `C`. What is committed here is shared with the leader, so the log is
given up only where it ends, or differs from the leader's, before the snapshot does. -/
theorem Shows.wp_install (h : l.Shows F) {C : List Entry} (hG : Numbered G) (hFG : Agrees F G)
    (hcommit : F.take l.commitIndex <+: G) (hC : C <+: G) {snap : Snapshot}
    (hi : snap.index = C.length) (ht : snap.term = endTerm C) :
    wp (install snap)
      (fun _ l' => (kept l'.store).hard = (kept l.store).hard ∧
        l'.commitIndex = max l.commitIndex snap.index ∧
        ∃ F', l'.Shows F' ∧ C <+: F' ∧ Follows G F F')
      (fun f l' => Left l (Follows G F) f l' ∨
        LeftBehind l snap (fun F' => C <+: F' ∧ Follows G F F') f l') l := by
  have hlen : (F.take l.commitIndex).length = l.commitIndex := by simp [h.held]
  have happlied := h.applied
  have hcommitted := h.committed
  have hheld := h.held
  simp only [install, Action.wp_bind, Action.wp_get, Action.wp_ite, Action.wp_pure]
  split
  · rename_i hle
    have hCF := (List.prefix_of_prefix_length_le hC hcommit (by lia)).trans (List.take_prefix _ F)
    exact ⟨trivial, by lia, F, h, hCF, .refl G F⟩
  split
  · rename_i hterm
    obtain ⟨hs, hF, hend⟩ := h.termAt?_eq_some.mp hterm
    have hCF : C <+: F := hFG.isPrefix hC (hi ▸ hF) (by rw [← hi, hend, ht])
    refine h.wp_keepInstall hs hF hend.symm (fun s hhard stored hsnap => ?_) ?_
    swap
    · rintro f l' (hleft | hleft)
      · exact Or.inl (hleft.mono (.refl l) (by rintro _ rfl; exact .refl G _))
      · exact Or.inr (hleft.mono (by rintro _ rfl; exact ⟨hCF, .refl G _⟩))
    simp only [Action.wp_sub, Action.wp_modify, if_pos hs]
    refine ⟨hhard, trivial, F, .behind stored hsnap ?_ le_rfl (le_max_right _ _)
      (max_le hheld hF), hCF, .refl G F⟩
    rw [h.entries_eq, List.drop_drop]
    congr 1
    lia
  · rename_i hterm
    rw [hi, ht] at hterm
    have hless : ∀ P, P <+: F → P <+: G → P.length < C.length := fun P hPF hPG =>
      h.shared_lt hC (by lia) hterm hPF hPG
    have hcut : Follows G F (F.take snap.index) :=
      .shorten fun P hPF hPG => (hless P hPF hPG).le.trans_eq hi.symm
    have hnew : Follows G F C := .replace hC fun P hPF hPG => (hless P hPF hPG).le
    have hlt := hless _ (List.take_prefix _ _) hcommit
    rw [← Action.wp_bind, ← Action.wp_bind, bind_assoc]
    refine Action.wp_mono (h.wp_replaceInstall (hG.isPrefix hC) hi ht (by lia) (.refl G F) hcut
      fun s hhard stored hsnap => ?_) (fun _ _ h => h) fun f l' => Or.imp_right fun hleft =>
        hleft.mono (by rintro _ rfl; exact ⟨List.prefix_refl _, hnew⟩)
    refine ⟨hhard, rfl, C, .behind stored hsnap ?_ le_rfl (le_max_right _ _)
      (max_le (by lia) hi.le), List.prefix_refl C, hnew⟩
    exact (List.drop_eq_nil_of_le hi.ge).symm

/-- A snapshot of what is applied. -/
theorem Shows.wp_compact (h : l.Shows F) {snap : Snapshot} (hi : snap.index ≤ l.lastApplied)
    (ht : snap.term = endTerm (F.take snap.index)) :
    wp (compact snap)
      (fun _ l' => (kept l'.store).hard = (kept l.store).hard ∧
        l'.commitIndex = l.commitIndex ∧ l'.Shows F)
      (Left l (· = F)) l := by
  have hF : snap.index ≤ F.length := hi.trans (h.committed.trans h.held)
  simp only [compact, Action.wp_bind, Action.wp_get, Action.wp_require, if_pos hi, Action.wp_ite,
    Action.wp_pure]
  split
  · exact ⟨trivial, trivial, h⟩
  · refine h.wp_keepInstall (by lia) hF ht (fun s hhard stored hsnap => ?_) ?_
    swap
    · rintro f l' (hleft | ⟨hf, hh, hcov, hstands⟩)
      · exact hleft
      · exact ⟨hf, hh, by rw [hcov]; exact hi.trans h.committed, hstands⟩
    simp only [Action.wp_modify]
    rw [if_pos (by rw [h.entries_eq, List.length_drop]; lia)]
    refine ⟨hhard, trivial, .behind stored hsnap ?_ hi h.committed h.held⟩
    rw [h.entries_eq, List.drop_drop]
    congr 1
    lia

theorem Shows.wp_nextCommitted (h : l.Shows F) :
    wp (nextCommitted : LogAction σ (Option Entry))
      (fun _ l' => l'.store = l.store ∧ l'.commitIndex = l.commitIndex ∧ l'.Shows F)
      (Left l (· = F)) l := by
  simp only [nextCommitted, Action.wp_bind, Action.wp_get, Action.wp_ite, Action.wp_pure,
    Action.wp_add]
  split
  · exact ⟨trivial, trivial, h⟩
  · split
    · split
      · exact ⟨rfl, rfl, h⟩
      · rename_i e he
        obtain ⟨-, he⟩ := h.entry?_eq_some.mp he
        have hidx := h.numbered _ _ he
        have happlied := h.applied
        exact ⟨rfl, rfl,
          { h with applied := by dsimp only; lia, committed := by dsimp only; lia }⟩
    · exact .same h rfl rfl rfl

/-! ## Opening -/

/-- A log opens on what is stored and changes nothing. -/
theorem wp_boot {s : σ} (h : (kept s).StandsFor F) (hF : Ascending F) :
    wp (boot : Action NodeError σ (Recovered σ))
      (fun r t => kept t = kept s ∧ r.log.store = t ∧ r.log.Shows F ∧
        r.log.commitIndex = (kept s).covered ∧ r.hard = (kept s).hard)
      (fun _ t => kept t = kept s) s := by
  simp only [boot, Action.wp_bind, Action.wp_within]
  refine Action.wp_imp (LawfulStore.load s) ?_
  rintro p t ⟨rfl, ht⟩
  simp only [h.takeWhile_eq hF, List.drop_length, List.head?_nil, Action.wp_pure, Action.wp_bind,
    Action.wp_get]
  exact ⟨ht, trivial, ⟨by rw [ht]; exact h, by rw [ht]; rfl, by rw [ht]; rfl, by rw [ht], le_rfl,
    le_rfl, h.covered_le⟩, rfl, trivial⟩

end Log

end RaftNode
