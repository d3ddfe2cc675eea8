import RaftNode.Proofs.Formats
import RaftNode.Proofs.Leading
import RaftNode.Proofs.Rejection
/-!
# Sums of one operation

Where an operation of a log, or of a leader's view of its peers, adds to an index, and what it takes for the sum to
leave the 64 bits. Entries may be numbered in any way; then an operation can also stop because the log ends before an
index that it is asked for, and that is no sum.
-/
namespace RaftNode

open RaftNode.Action (wp)

/-- An access that fails returns an error. -/
def NeverAborts (σ : Type) [LogStore σ] : Prop :=
  ∀ (w : Write) (s : σ), wp w.perform (fun _ _ => True) (fun f _ => f ≠ .abort) s

theorem neverAborts_of_failStop {σ : Type} [LogStore σ] [LawfulStore σ] [FailStop σ] : NeverAborts σ := fun w s =>
  Action.wp_mono (FailStop.perform w s) (fun _ _ _ => trivial) fun _ _ h => h.1

namespace Log

variable {σ : Type} {l l' l'' : Log σ} {batch : List Entry} {b b' : Nat}

/-! ## The numbers of a log -/

/-- Every number that the log keeps is below `b`. -/
structure Below (l : Log σ) (b : Nat) : Prop where
  snapshot : l.snapshotIndex < b
  applied : l.lastApplied < b
  commit : l.commitIndex < b
  entries : ∀ e ∈ l.entries, e.index < b

theorem Below.mono (h : l.Below b) (hb : b ≤ b') : l.Below b' where
  snapshot := h.snapshot.trans_le hb
  applied := h.applied.trans_le hb
  commit := h.commit.trans_le hb
  entries e he := (h.entries e he).trans_le hb

theorem Below.withStore (h : l.Below b) (s : σ) : Below { l with store := s } b :=
  ⟨h.snapshot, h.applied, h.commit, h.entries⟩

theorem Below.lastIndex (h : l.Below b) : l.lastIndex < b := by
  unfold Log.lastIndex
  cases hlast : l.entries.getLast? with
  | none => exact h.snapshot
  | some e => exact h.entries e (List.mem_of_getLast? hlast)

theorem Below.append (h : l.Below b) {fresh : List Entry} (hfresh : ∀ e ∈ fresh, e.index < b) (s : σ) :
    Below { l with store := s, entries := l.entries ++ fresh } b :=
  ⟨h.snapshot, h.applied, h.commit, List.forall_mem_append.mpr ⟨h.entries, hfresh⟩⟩

/-- The entries are numbered one by one. -/
def InSequence (l : Log σ) : Prop := NumberedFrom l.snapshotIndex l.entries

/-- Nothing has come into the log, and no gaps. -/
structure Narrows (l l' : Log σ) : Prop where
  below : ∀ b, l.Below b → l'.Below b
  sequence : l.InSequence → l'.InSequence

theorem Narrows.refl (l : Log σ) : Narrows l l := ⟨fun _ h => h, fun h => h⟩

theorem Narrows.withStore (l : Log σ) (s : σ) : Narrows l { l with store := s } :=
  ⟨fun _ h => h.withStore s, fun h => h⟩

/-- Entries of a batch may have come in. -/
def Draws (batch : List Entry) (l l' : Log σ) : Prop :=
  ∀ b, (∀ e ∈ batch, e.index < b) → l.Below b → l'.Below b

theorem Draws.trans (h : Draws batch l l') (h' : Draws batch l' l'') : Draws batch l l'' :=
  fun b hbatch hl => h' b hbatch (h b hbatch hl)

theorem Draws.withStore (batch : List Entry) (l : Log σ) (s : σ) : Draws batch l { l with store := s } :=
  fun _ _ hl => hl.withStore s

theorem Draws.mono {batch' : List Entry} (h : Draws batch' l l') (hsub : ∀ e ∈ batch', e ∈ batch) :
    Draws batch l l' := fun b hbatch => h b fun e he => hbatch e (hsub e he)

/-- The log ends before an index that it is asked for: one of a batch, though it has a term there, or the one to commit.
-/
inductive EndsBefore (l : Log σ) (batch : List Entry) (target : Index) : Prop
  | cut {e : Entry} (he : e ∈ batch) (hterm : (l.termAt? e.index).isSome) (hlast : l.lastIndex < e.index)
  | commit (hlast : l.lastIndex < target)

theorem EndsBefore.mono {batch' : List Entry} {target : Index} (h : EndsBefore l batch' target)
    (hsub : ∀ e ∈ batch', e ∈ batch) : EndsBefore l batch target := by
  cases h with
  | cut he hterm hlast => exact .cut (hsub _ he) hterm hlast
  | commit hlast => exact .commit hlast

/-- With entries numbered one by one there is a term at no index behind the last. -/
theorem InSequence.le_lastIndex (h : l.InSequence) {i : Index} (hi : (l.termAt? i).isSome) : i ≤ l.lastIndex :=
  ((termAt?_isSome_of_numbered h).mp hi).2

/-! ## Operations of a log -/

variable [LogStore σ] (hσ : NeverAborts σ)

include hσ

theorem wp_write_never (w : Write) (l : Log σ) : wp (onStore w.perform) (fun _ l' => ∃ s, l' = { l with store := s })
    (fun f l' => f ≠ .abort ∧ ∃ s, l' = { l with store := s }) l := by
  rw [onStore, Action.wp_within]
  refine Action.wp_mono (hσ w l.store) (fun _ s _ => ⟨s, rfl⟩) ?_
  intro f s hf
  refine ⟨?_, s, rfl⟩
  cases f with
  | error e => rintro ⟨⟩
  | abort => exact absurd rfl hf

theorem wp_saveHard_never (hard : HardState) (l : Log σ) :
    wp (saveHard hard) (fun _ l' => ∃ s, l' = { l with store := s })
      (fun f l' => f ≠ .abort ∧ ∃ s, l' = { l with store := s }) l :=
  wp_write_never hσ (.hard hard) l

theorem wp_appendAsLeader_sums (term : Term) (command : Bytes) (l : Log σ) :
    wp (appendAsLeader term command)
      (fun _ l' => l.lastIndex + 1 < wordLimit ∧ ∃ s, l' =
        { l with store := s, entries := l.entries ++ [⟨l.lastIndex + 1, term, command⟩] })
      (fun f l' => (f = .abort → wordLimit ≤ l.lastIndex + 1) ∧ ∃ s, l' = { l with store := s }) l := by
  simp only [appendAsLeader, Action.wp_bind, Action.wp_get, Action.wp_add, Action.wp_modify, Action.wp_pure]
  split
  · rename_i hroom
    refine Action.wp_mono (wp_write_never hσ (.append [⟨l.lastIndex + 1, term, command⟩]) l) ?_ ?_
    · rintro - _ ⟨s, rfl⟩
      exact ⟨hroom, s, rfl⟩
    · rintro f l' ⟨hf, hs⟩
      exact ⟨fun h => absurd h hf, hs⟩
  · rename_i hfull
    exact ⟨fun _ => not_lt.mp hfull, l.store, rfl⟩

omit hσ in
theorem append_overflows (term : Term) (command : Bytes) (h : wordLimit ≤ l.lastIndex + 1) :
    appendAsLeader term command l = .error .abort l := by
  refine Action.eq_error_of_wp ?_
  simp only [appendAsLeader, Action.wp_bind, Action.wp_get, Action.wp_add]
  rw [if_neg (not_lt.mpr h)]
  exact ⟨trivial, trivial⟩

omit hσ [LogStore σ] in
theorem wp_setCommitIndex_sums (i : Index) (l : Log σ) :
    wp (setCommitIndex i) (fun _ l' => l.Narrows l') (fun f l' => l' = l ∧ (f = .abort → l.lastIndex < i)) l := by
  simp only [setCommitIndex, Action.wp_bind, Action.wp_get, Action.wp_require]
  split
  · rw [Action.wp_ite]
    split
    · refine ⟨fun b hl => ?_, fun h => h⟩
      exact ⟨hl.snapshot, hl.applied, (min_le_right _ _).trans_lt hl.lastIndex, hl.entries⟩
    · exact .refl l
  · rename_i hless
    exact ⟨trivial, fun _ => not_le.mp hless⟩

/-- The sum that counts the entries which go is never greater than the last index. -/
theorem wp_truncateFrom_sums (i : Index) (hlast : l.lastIndex < wordLimit) :
    wp (truncateFrom i) (fun _ l' => ∃ s k, l' = { l with store := s, entries := l.entries.take k })
      (fun f l' => (f = .abort → l.lastIndex < i) ∧ ∃ s, l' = { l with store := s }) l := by
  simp only [truncateFrom, Action.wp_bind, Action.wp_get, Action.wp_ite, Action.wp_modify, Action.wp_sub,
    Action.wp_add]
  split
  · exact ⟨by rintro ⟨⟩, l.store, rfl⟩
  rename_i hcommit
  refine Action.wp_mono (wp_write_never hσ (.truncate i) l) ?_ ?_
  · rintro - _ ⟨s, rfl⟩
    split
    · rename_i hle
      split
      · exact ⟨s, _, rfl⟩
      · rename_i hfull
        have hrest : l.lastIndex - i + 1 < wordLimit := by lia
        exact absurd hrest hfull
    · rename_i hless
      exact ⟨fun _ => not_le.mp hless, s, rfl⟩
  · rintro f l' ⟨hf, hs⟩
    exact ⟨fun h => absurd h hf, hs⟩

theorem wp_dropKnown_sums (hlast : l.lastIndex < wordLimit) (batch : List Entry) :
    wp (dropKnown batch) (fun fresh l' => (∀ e ∈ fresh, e ∈ batch) ∧
        ∃ s k, l' = { l with store := s, entries := l.entries.take k })
      (fun f l' => (f = .abort → ∀ target, l'.EndsBefore batch target) ∧ ∃ s, l' = { l with store := s }) l := by
  induction batch with
  | nil => exact ⟨fun _ he => he, l.store, l.entries.length, by rw [List.take_length]⟩
  | cons e rest ih =>
    rw [dropKnown, Action.wp_bind, Action.wp_get]
    split
    · rename_i term hterm
      rw [Action.wp_ite]
      split
      · refine Action.wp_mono ih ?_ ?_
        · rintro fresh l' ⟨hfresh, hl'⟩
          exact ⟨fun a ha => List.mem_cons_of_mem e (hfresh a ha), hl'⟩
        · rintro f l' ⟨hf, hl'⟩
          exact ⟨fun h target => (hf h target).mono fun a => List.mem_cons_of_mem e, hl'⟩
      · rw [Action.wp_bind]
        refine Action.wp_mono (wp_truncateFrom_sums hσ e.index hlast) (fun _ l' hl' => ⟨fun a ha => ha, hl'⟩) ?_
        rintro f _ ⟨hf, s, rfl⟩
        have hknown : (l.termAt? e.index).isSome := by rw [hterm]; rfl
        exact ⟨fun h target => .cut List.mem_cons_self hknown (hf h), s, rfl⟩
    · exact ⟨fun a ha => ha, l.store, l.entries.length, by rw [List.take_length]⟩

theorem wp_merge_sums (hlast : l.lastIndex < wordLimit) (batch : List Entry) (lastNew leaderCommit : Index) :
    wp (merge batch lastNew leaderCommit) (fun _ l' => Draws batch l l')
      (fun f l' => Draws batch l l' ∧ (f = .abort → l'.EndsBefore batch (min leaderCommit lastNew))) l := by
  have hadvance : ∀ l', Draws batch l l' → wp (do
      if (← get).commitIndex < min leaderCommit lastNew then setCommitIndex (min leaderCommit lastNew)
      pure lastNew : LogAction σ Index) (fun _ l'' => Draws batch l l'')
      (fun f l'' => Draws batch l l'' ∧ (f = .abort → l''.EndsBefore batch (min leaderCommit lastNew))) l' := by
    intro l' hdraws
    simp only [Action.wp_bind, Action.wp_get, Action.wp_ite, Action.wp_pure]
    split
    · refine Action.wp_mono (wp_setCommitIndex_sums _ l') (fun _ l'' h => hdraws.trans fun b _ => h.below b) ?_
      rintro f _ ⟨rfl, hf⟩
      exact ⟨hdraws, fun h => .commit (hf h)⟩
    · exact hdraws
  have hcut : ∀ s k, Draws batch l { l with store := s, entries := l.entries.take k } := fun s k b _ hl =>
    ⟨hl.snapshot, hl.applied, hl.commit, fun e he => hl.entries e (List.mem_of_mem_take he)⟩
  rw [merge, Action.wp_bind]
  refine Action.wp_mono (wp_dropKnown_sums hσ hlast batch) ?_ ?_
  · rintro fresh _ ⟨hfresh, s, k, rfl⟩
    rw [Action.wp_ite]
    split
    · rw [Action.wp_bind]
      refine Action.wp_mono (wp_write_never hσ (.append fresh) _) ?_ ?_
      · rintro - _ ⟨s', rfl⟩
        rw [Action.wp_bind, Action.wp_modify]
        refine hadvance _ ((hcut s k).trans fun b hbatch hl => ?_)
        exact hl.append (fun e he => hbatch e (hfresh e he)) s'
      · rintro f _ ⟨hf, s', rfl⟩
        exact ⟨hcut s' k, fun h => absurd h hf⟩
    · exact hadvance _ (hcut s k)
  · rintro f _ ⟨hf, s, rfl⟩
    exact ⟨.withStore batch l s, fun h => hf h _⟩

/-- The two sums of an append: where the batch ends, and where a hint is looked for. -/
inductive ReconcileOverflows (l : Log σ) (prevIndex : Index) (prevTerm : Term) (count : Nat) : Prop
  | batch (hfull : wordLimit ≤ prevIndex + count)
  | hint {term : Term} (hterm : l.termAt? prevIndex = some term) (hne : term ≠ prevTerm)
      (hfull : wordLimit ≤ l.snapshotIndex + 1)

theorem wp_reconcile_sums (hlast : l.lastIndex < wordLimit) (prevIndex : Index) (prevTerm : Term)
    (batch : List Entry) (leaderCommit : Index) :
    wp (reconcile prevIndex prevTerm batch leaderCommit) (fun _ l' => Draws batch l l')
      (fun f l' => Draws batch l l' ∧ (f = .abort → l.ReconcileOverflows prevIndex prevTerm batch.length ∨
        l'.EndsBefore batch (min leaderCommit (prevIndex + batch.length)))) l := by
  have hmerge : ∀ batch', (∀ e ∈ batch', e ∈ batch) →
      wp (merge batch' (prevIndex + batch.length) leaderCommit) (fun _ l' => Draws batch l l')
        (fun f l' => Draws batch l l' ∧ (f = .abort → l.ReconcileOverflows prevIndex prevTerm batch.length ∨
          l'.EndsBefore batch (min leaderCommit (prevIndex + batch.length)))) l := fun batch' hsub =>
    Action.wp_mono (wp_merge_sums hσ hlast batch' _ leaderCommit) (fun _ _ h => h.mono hsub)
      fun _ _ h => ⟨h.1.mono hsub, fun hf => Or.inr ((h.2 hf).mono hsub)⟩
  have hsame : Draws batch l l := fun _ _ hl => hl
  apply wp_reconcile_cases
  case hfull => exact fun hfull => ⟨hsame, fun _ => Or.inl (.batch hfull)⟩
  case hcovered => exact fun _ => hmerge _ fun e he => List.mem_of_mem_drop he
  case habsent => exact fun _ _ => ⟨hsame, by rintro ⟨⟩⟩
  case hmatches => exact fun _ => hmerge _ fun e he => he
  case hdiffers => exact fun _ _ _ _ => ⟨hsame, by rintro ⟨⟩⟩
  case hunhinted => exact fun term hterm hne hfull => ⟨hsame, fun _ => Or.inl (.hint hterm hne hfull)⟩

omit hσ in
/-- Neither sum is kept from failing. -/
theorem reconcile_overflows {prevIndex : Index} {prevTerm : Term}
    (h : l.ReconcileOverflows prevIndex prevTerm batch.length) (leaderCommit : Index) :
    reconcile prevIndex prevTerm batch leaderCommit l = .error .abort l := by
  refine Action.eq_error_of_wp ?_
  rw [reconcile_eq]
  simp only [Action.wp_bind, Action.wp_get, Action.wp_add, Action.wp_ite, Action.wp_pure]
  split
  swap
  · exact ⟨trivial, trivial⟩
  rename_i hroom
  cases h with
  | batch hfull => exact absurd hroom (not_lt.mpr hfull)
  | hint hterm hne hfull =>
    rw [if_neg (not_lt.mpr (snapshotIndex_le_of_termAt? hterm)), hterm]
    simp only [Action.wp_ite, Action.wp_bind, Action.wp_pure, Action.wp_add, Action.wp_fail]
    rw [if_neg hne, if_neg (not_lt.mpr hfull)]
    exact ⟨trivial, trivial⟩

/-! ## Entries in sequence -/

/-- What is left of a batch fits behind the log, and together they reach as far as the batch. -/
theorem wp_dropKnown_sequence (hlast : l.lastIndex < wordLimit) (hl : l.InSequence) {p : Index}
    (hlow : l.snapshotIndex ≤ p) (hp : p ≤ l.lastIndex) (hb : NumberedFrom p batch) :
    wp (dropKnown batch)
      (fun fresh l' => l'.InSequence ∧ NumberedFrom l'.lastIndex fresh ∧
        p + batch.length ≤ l'.lastIndex + fresh.length)
      (fun f l' => l'.InSequence ∧ f ≠ .abort) l := by
  have hend := lastIndex_of_numbered hl
  induction batch generalizing p with
  | nil => exact ⟨hl, .nil _, hp⟩
  | cons e rest ih =>
    rw [dropKnown, Action.wp_bind, Action.wp_get, hb.head]
    split
    · rename_i term hterm
      have hknown : p + 1 ≤ l.lastIndex := hl.le_lastIndex (by rw [hterm]; rfl)
      rw [Action.wp_ite]
      split
      · refine Action.wp_imp (ih (by lia) hknown hb.tail) ?_
        rintro fresh l' ⟨hl', hfresh, hreach⟩
        rw [List.length_cons, ← Nat.add_assoc, Nat.add_right_comm]
        exact ⟨hl', hfresh, hreach⟩
      · rw [Action.wp_bind]
        refine Action.wp_mono (Action.wp_and (wp_truncateFrom_memory p l) (wp_truncateFrom_sums hσ (p + 1) hlast)) ?_ ?_
        · rintro - _ ⟨⟨-, s, rfl⟩, -⟩
          have hl' := hl.take (p - l.snapshotIndex)
          have hend' : lastIndex { l with store := s, entries := l.entries.take (p - l.snapshotIndex) } = p := by
            rw [lastIndex_of_numbered hl', List.length_take]
            dsimp only
            lia
          refine ⟨hl', ?_, ?_⟩
          · rw [hend']
            exact hb
          · rw [hend']
        · rintro f _ ⟨⟨-, s, rfl⟩, habort, -⟩
          exact ⟨hl, fun hf => not_le.mpr (habort hf) hknown⟩
    · rename_i hnone
      have hp' : l.lastIndex = p := by
        by_contra hne
        obtain ⟨t, ht⟩ := exists_termAt? hl (i := p + 1) (by lia) (by lia)
        rw [hnone] at ht
        cases ht
      exact ⟨hl, hp' ▸ hb, by rw [hp']⟩

theorem wp_merge_sequence (hlast : l.lastIndex < wordLimit) (hl : l.InSequence) {p : Index}
    (hlow : l.snapshotIndex ≤ p) (hp : p ≤ l.lastIndex) (hb : NumberedFrom p batch) {lastNew : Index}
    (hreach : lastNew ≤ p + batch.length) (leaderCommit : Index) :
    wp (merge batch lastNew leaderCommit) (fun _ l' => l'.InSequence) (fun f l' => l'.InSequence ∧ f ≠ .abort) l := by
  rw [merge, Action.wp_bind]
  refine Action.wp_imp (wp_dropKnown_sequence hσ hlast hl hlow hp hb) ?_
  rintro fresh l₁ ⟨hl₁, hfresh, hreach₁⟩
  rw [Action.wp_ite]
  split
  · rw [Action.wp_bind]
    refine Action.wp_mono (wp_write_never hσ (.append fresh) l₁) ?_ ?_
    · rintro - _ ⟨s, rfl⟩
      rw [Action.wp_bind, Action.wp_modify]
      have hend := lastIndex_of_numbered hl₁
      have hl₂ : InSequence { l₁ with store := s, entries := l₁.entries ++ fresh } := hl₁.append (hend ▸ hfresh)
      have hend₂ := lastIndex_of_numbered hl₂
      refine wp_raise ?_ hl₂
      rw [hend₂, List.length_append]
      dsimp only
      lia
    · rintro f _ ⟨hf, s, rfl⟩
      exact ⟨hl₁, hf⟩
  · rename_i hnil
    obtain rfl : fresh = [] := by simpa using hnil
    exact wp_raise (hreach.trans hreach₁) hl₁

theorem wp_reconcile_sequence (hlast : l.lastIndex < wordLimit) (hl : l.InSequence) {prevIndex : Index}
    (hb : NumberedFrom prevIndex batch) (prevTerm : Term) (leaderCommit : Index) :
    wp (reconcile prevIndex prevTerm batch leaderCommit) (fun _ l' => l'.InSequence)
      (fun f l' => l'.InSequence ∧ (f = .abort → l.ReconcileOverflows prevIndex prevTerm batch.length)) l := by
  have hmerge : ∀ {p batch'}, l.snapshotIndex ≤ p → p ≤ l.lastIndex → NumberedFrom p batch' →
      prevIndex + batch.length ≤ p + batch'.length →
      wp (merge batch' (prevIndex + batch.length) leaderCommit) (fun _ l' => l'.InSequence)
        (fun f l' => l'.InSequence ∧ (f = .abort → l.ReconcileOverflows prevIndex prevTerm batch.length)) l := by
    intro p batch' hlow hp hb' hreach
    exact Action.wp_mono (wp_merge_sequence hσ hlast hl hlow hp hb' hreach leaderCommit) (fun _ _ h => h)
      fun _ _ h => ⟨h.1, fun hf => absurd hf h.2⟩
  apply wp_reconcile_cases
  case hfull => exact fun hfull => ⟨hl, fun _ => .batch hfull⟩
  case hcovered =>
    intro hcovered
    have hend := lastIndex_of_numbered hl
    refine hmerge le_rfl (by lia) (numbered_uncovered hb hcovered) ?_
    rw [List.length_drop]
    lia
  case habsent => exact fun _ _ => ⟨hl, by rintro ⟨⟩⟩
  case hmatches =>
    intro hterm
    obtain ⟨hlow, hp⟩ := within_of_termAt? hl hterm
    exact hmerge hlow hp hb le_rfl
  case hdiffers => exact fun _ _ _ _ => ⟨hl, by rintro ⟨⟩⟩
  case hunhinted => exact fun term hterm hne hfull => ⟨hl, fun _ => .hint hterm hne hfull⟩

/-! ## Installing, applying and compacting -/

/-- The sum of an install: the index behind a snapshot that takes the place of all entries. -/
structure InstallOverflows (l : Log σ) (index : Index) (term : Term) : Prop where
  ahead : l.lastApplied < index
  differs : l.termAt? index ≠ some term
  full : wordLimit ≤ index + 1

omit hσ in
theorem wp_install_numbers (snap : Snapshot) (l : Log σ) :
    wp (install snap)
      (fun _ l' => (∀ b, snap.index < b → l.Below b → l'.Below b) ∧ (l.InSequence → l'.InSequence))
      (fun _ l' => l.Narrows l') l := by
  refine Action.wp_mono (wp_install_memory snap l) ?_ ?_
  · rintro taken l' ⟨hfalse, htrue⟩
    cases taken with
    | false =>
      obtain ⟨-, rfl⟩ := hfalse rfl
      exact ⟨fun _ _ hl => hl, fun hl => hl⟩
    | true =>
      obtain ⟨-, s, rfl⟩ := htrue rfl
      refine ⟨fun b hb hl => ⟨hb, hb, max_lt hl.commit hb, fun e he => ?_⟩, fun hl => ?_⟩
      · unfold installed at he
        dsimp only at he
        split at he
        · exact hl.entries e (List.mem_of_mem_drop he)
        · cases he
      · unfold InSequence installed
        dsimp only
        split
        · rename_i hterm
          exact numbered_drop hl (snapshotIndex_le_of_termAt? hterm)
        · exact .nil _
  · rintro f _ ⟨-, s, rfl⟩
    exact .withStore l s

theorem wp_install_sums (snap : Snapshot) (l : Log σ) : wp (install snap) (fun _ _ => True)
    (fun f _ => f = .abort → l.InstallOverflows snap.index snap.term) l := by
  have hnever : ∀ (w : Write) (l' : Log σ) {Q : Unit → Log σ → Prop}, (∀ s, Q () { l' with store := s }) →
      wp (onStore w.perform) Q (fun f _ => f = .abort → l.InstallOverflows snap.index snap.term) l' :=
    fun w l' Q hQ => Action.wp_mono (wp_write_never hσ w l') (by rintro - _ ⟨s, rfl⟩; exact hQ s)
      fun _ _ h hf => absurd hf h.1
  simp only [install, Action.wp_bind, Action.wp_get, Action.wp_ite, Action.wp_modify, Action.wp_pure, Action.wp_add,
    Action.wp_sub]
  split
  · trivial
  rename_i hnew
  split
  · rename_i hterm
    rw [if_pos (snapshotIndex_le_of_termAt? hterm)]
    exact hnever (.install snap) l fun _ => trivial
  · rename_i hterm
    split
    · exact hnever (.truncate (snap.index + 1)) l fun _ => hnever (.install snap) _ fun _ => trivial
    · rename_i hfull
      exact fun _ => ⟨not_le.mp hnew, hterm, not_lt.mp hfull⟩

omit hσ in
theorem install_overflows {snap : Snapshot} (h : l.InstallOverflows snap.index snap.term) :
    install snap l = .error .abort l := by
  refine Action.eq_error_of_wp ?_
  simp only [install, Action.wp_bind, Action.wp_get, Action.wp_ite, Action.wp_add]
  rw [if_neg (not_le.mpr h.ahead), if_neg h.differs, if_neg (not_lt.mpr h.full)]
  exact ⟨trivial, trivial⟩

omit hσ [LogStore σ] in
theorem wp_nextCommitted_narrows (l : Log σ) :
    wp nextCommitted (fun _ l' => l.Narrows l') (fun _ l' => l' = l) l := by
  refine Action.wp_mono (wp_nextCommitted_memory l) ?_ fun _ _ h => h.2
  rintro (_ | e) l' ⟨hsome, hnone⟩
  · obtain rfl := hnone rfl
    exact .refl l'
  · obtain ⟨-, he, rfl⟩ := hsome e rfl
    obtain ⟨-, he⟩ := getElem?_of_entry? he
    refine ⟨fun b hl => ?_, fun hl => hl⟩
    exact ⟨hl.snapshot, hl.entries e (List.mem_of_getElem? he), hl.commit, hl.entries⟩

omit hσ in
theorem wp_compact_narrows (snap : Snapshot) (l : Log σ) :
    wp (compact snap) (fun _ l' => l.Narrows l') (fun _ l' => l.Narrows l') l := by
  simp only [compact, Action.wp_bind, Action.wp_get, Action.wp_require, Action.wp_ite, Action.wp_pure,
    Action.wp_modify]
  split
  · rename_i happlied
    split
    · exact .refl l
    · rename_i hnew
      refine wp_onStore (fun _ s => ?_) fun _ s _ => .withStore l s
      split
      · refine ⟨fun b hl => ?_, fun hl => numbered_drop hl (not_le.mp hnew).le⟩
        exact ⟨happlied.trans_lt hl.applied, hl.applied, hl.commit, fun e he =>
          hl.entries e (List.mem_of_mem_drop he)⟩
      · exact .withStore l s
  · exact .refl l

end Log

/-- There is an index behind the highest that the peer is known to store. -/
structure Progress.Fits (p : Progress) : Prop where
  next : p.nextIndex < wordLimit
  behind : p.matchIndex + 1 < wordLimit

namespace Replication

variable {τ : Type} {s : τ} {r : Replication} {peer : NodeId} {p : Progress} {index : Index} {sent : AppendSent}
  {hint : Option Index} {now : Nat}

/-! ## Operations of a leader's view -/

def Fits (r : Replication) : Prop := ∀ p ∈ r.peers, p.2.Fits

theorem Fits.find? (h : r.Fits) (hp : r.find? peer = some p) : p.Fits := h (peer, p) (mem_of_find? hp)

theorem Fits.update (h : r.Fits) (peer : NodeId) {f : Progress → Progress} (hf : ∀ p, p.Fits → (f p).Fits) :
    (r.update peer f).Fits := by
  intro q hq
  obtain ⟨p, hp, rfl⟩ := List.mem_map.mp hq
  split
  · exact hf p.2 (h p hp)
  · exact h p hp

theorem wp_start_sums (peers : List NodeId) (last now : Nat) :
    wp (start peers last now) (fun r t => t = s ∧ r.Fits ∧ ∀ p ∈ r.peers, p.2.matchIndex = 0)
      (fun _ t => t = s ∧ wordLimit ≤ last + 1) s := by
  simp only [start, Action.wp_ite, Action.wp_bind, Action.wp_add, Action.wp_pure]
  split
  · exact ⟨trivial, by rintro p ⟨⟩, by rintro p ⟨⟩⟩
  · split
    · rename_i hroom
      refine ⟨trivial, fun p hp => ?_, fun p hp => ?_⟩
      · obtain ⟨_, -, rfl⟩ := List.mem_map.mp hp
        exact ⟨hroom, show 0 + 1 < wordLimit by decide⟩
      · obtain ⟨_, -, rfl⟩ := List.mem_map.mp hp
        rfl
    · rename_i hfull
      exact ⟨trivial, not_lt.mp hfull⟩

/-- What the peer was known to store before leaves room, so only what it confirms now can be too much. -/
theorem wp_confirm_sums (h : r.Fits) : wp (r.confirm peer index now) (fun r' t => t = s ∧ r'.Fits)
    (fun _ t => t = s ∧ (r.find? peer).isSome ∧ wordLimit ≤ index + 1) s := by
  unfold confirm
  split
  · exact ⟨rfl, h⟩
  · rename_i p hp
    have hbehind := (h.find? hp).behind
    rw [Action.wp_bind, Action.wp_add]
    split
    · rename_i hroom
      exact ⟨rfl, h.update peer fun _ _ => ⟨hroom, hroom⟩⟩
    · exact ⟨rfl, by rw [hp]; rfl, by lia⟩

theorem wp_onAppendSuccess_sums (h : r.Fits) : wp (r.onAppendSuccess peer sent now) (fun r' t => t = s ∧ r'.Fits)
    (fun _ t => t = s ∧ (r.find? peer).isSome ∧ wordLimit ≤ sent.prevIndex + sent.count + 1) s := by
  rw [onAppendSuccess, Action.wp_ite]
  split
  · exact ⟨rfl, h⟩
  rename_i hknown
  rw [lastSent, Action.wp_bind, Action.wp_add]
  split
  · exact wp_confirm_sums h
  · exact ⟨rfl, by simpa [Option.isSome_iff_ne_none] using hknown, by lia⟩

theorem wp_onAppendReject_sums (h : r.Fits) (hprev : sent.prevIndex < wordLimit) :
    wp (r.onAppendReject peer sent hint now) (fun r' t => t = s ∧ r'.Fits)
      (fun _ t => t = s ∧ (r.find? peer).isSome ∧ ∃ i, hint = some i ∧ wordLimit ≤ i + 1) s := by
  unfold onAppendReject
  split
  · exact ⟨rfl, h⟩
  rename_i p hp
  have hbehind := (h.find? hp).behind
  have hback : ∀ proposed, proposed < wordLimit → wp (do
        let least ← Action.add p.matchIndex 1
        pure (r.update peer fun p => { p with
          nextIndex := max proposed (max least 1), inFlightSince := none, lastContact := now }) :
          Action NodeError τ Replication)
      (fun r' t => t = s ∧ r'.Fits)
      (fun _ t => t = s ∧ (r.find? peer).isSome ∧ ∃ i, hint = some i ∧ wordLimit ≤ i + 1) s := by
    intro proposed hproposed
    rw [Action.wp_bind, Action.wp_add, if_pos hbehind]
    exact ⟨rfl, h.update peer fun q hq => ⟨by dsimp only; lia, hq.behind⟩⟩
  cases hint with
  | none => exact hback _ hprev
  | some i =>
    rw [Action.wp_bind, Action.wp_add]
    split
    · rename_i hroom
      exact hback _ hroom
    · rename_i hfull
      exact ⟨rfl, by rw [hp]; rfl, i, rfl, not_lt.mp hfull⟩

theorem confirm_overflows (hp : (r.find? peer).isSome) (h : wordLimit ≤ index + 1) :
    (r.confirm peer index now : Action NodeError τ Replication) s = .error .abort s := by
  obtain ⟨p, hp⟩ := Option.isSome_iff_exists.mp hp
  refine Action.eq_error_of_wp ?_
  rw [confirm, hp, Action.wp_bind, Action.wp_add, if_neg (by lia)]
  exact ⟨rfl, rfl⟩

theorem onAppendSuccess_overflows (hp : (r.find? peer).isSome) (h : wordLimit ≤ sent.prevIndex + sent.count + 1) :
    (r.onAppendSuccess peer sent now : Action NodeError τ Replication) s = .error .abort s := by
  refine Action.eq_error_of_wp ?_
  rw [onAppendSuccess, Action.wp_ite, if_neg (by simp [Option.isSome_iff_ne_none.mp hp]), lastSent, Action.wp_bind,
    Action.wp_add]
  split
  · rw [wp, confirm_overflows hp h]
    exact ⟨rfl, rfl⟩
  · exact ⟨rfl, rfl⟩

theorem onAppendReject_overflows {i : Index} (hp : (r.find? peer).isSome) (h : wordLimit ≤ i + 1) :
    (r.onAppendReject peer sent (some i) now : Action NodeError τ Replication) s = .error .abort s := by
  obtain ⟨p, hp⟩ := Option.isSome_iff_exists.mp hp
  refine Action.eq_error_of_wp ?_
  rw [onAppendReject, hp, Action.wp_bind, Action.wp_add, if_neg (not_lt.mpr h)]
  exact ⟨rfl, rfl⟩

/-- A leader that knows of nothing beyond its own log counts nothing beyond it. -/
theorem majorityMatch_le {last : Index} (h : ∀ p ∈ r.peers, p.2.matchIndex ≤ last) : r.majorityMatch last ≤ last := by
  by_contra hlt
  have hcount := r.majorityMatch_counted last
  rw [List.countP_eq_zero.mpr] at hcount
  · exact absurd hcount (Nat.not_succ_le_zero _)
  · intro m hm
    rcases List.mem_cons.mp hm with rfl | hm
    · simpa using hlt
    · obtain ⟨p, hp, rfl⟩ := List.mem_map.mp hm
      have := h p hp
      simp only [decide_eq_true_eq]
      lia

end Replication

end RaftNode
