import RaftNode.Log
import RaftNode.Proofs.Durable
import Mathlib.Data.List.Infix
import Mathlib.Data.List.TakeWhile
/-!
# Full logs

Compaction takes the beginning of a log away. Statements about logs are made about the full log, which has every
entry from the first on; a log or a store shows the part of it behind the snapshot, and the snapshot stands for
the rest.
-/
namespace RaftNode

/-! ## Lists of entries -/

/-- The term of the last entry, 0 when there is none. -/
def endTerm (F : List Entry) : Term := (F.getLast?.map Entry.term).getD 0

/-- The entry at position `k` has index `k + 1`. -/
def Numbered (F : List Entry) : Prop := ∀ k e, F[k]? = some e → e.index = k + 1

def Ascending (F : List Entry) : Prop := F.Pairwise fun a b => a.term ≤ b.term

variable {F G P : List Entry} {e : Entry} {i j k s : Nat} {t : Term}

@[simp] theorem endTerm_nil : endTerm [] = 0 := rfl

@[simp] theorem endTerm_concat (F : List Entry) (e : Entry) : endTerm (F ++ [e]) = e.term := by
  simp [endTerm]

theorem endTerm_take_succ (he : F[k]? = some e) : endTerm (F.take (k + 1)) = e.term := by
  rw [List.take_add_one, he]
  exact endTerm_concat _ e

theorem take_of_isPrefix (h : P <+: F) (hi : i ≤ P.length) : F.take i = P.take i := by
  obtain ⟨rest, rfl⟩ := h
  rw [List.take_append_of_le_length hi]

theorem take_length_of_isPrefix (h : P <+: F) : F.take P.length = P :=
  (List.prefix_iff_eq_take.mp h).symm

theorem Numbered.isPrefix (h : Numbered F) (hp : P <+: F) : Numbered P := by
  intro k e he
  obtain ⟨rest, rfl⟩ := hp
  exact h k e (by rw [List.getElem?_append_left (List.getElem?_eq_some_iff.mp he).1]; exact he)

theorem Numbered.concat (h : Numbered F) (t : Term) (c : Bytes) :
    Numbered (F ++ [⟨F.length + 1, t, c⟩]) := by
  intro k e he
  rcases Nat.lt_trichotomy k F.length with hk | hk | hk
  · rw [List.getElem?_append_left hk] at he
    exact h k e he
  · subst hk
    simp at he
    simp [← he]
  · rw [List.getElem?_eq_none (by simp; omega)] at he
    cases he

theorem Numbered.mem_drop (h : Numbered F) (he : e ∈ F.drop s) : s < e.index := by
  obtain ⟨k, hk⟩ := List.mem_iff_getElem?.mp he
  rw [List.getElem?_drop] at hk
  have := h _ _ hk
  omega

theorem Numbered.mem_take (h : Numbered F) (he : e ∈ F.take i) : e.index ≤ i := by
  obtain ⟨k, hk⟩ := List.mem_iff_getElem?.mp he
  obtain ⟨hlt, -⟩ := List.getElem?_eq_some_iff.mp hk
  rw [List.length_take] at hlt
  rw [List.getElem?_take_of_lt (by omega)] at hk
  have := h _ _ hk
  lia

/-- What a store drops at an index and above. -/
theorem Numbered.filter_below (h : Numbered F) :
    (F.drop s).filter (fun e => e.index < i) = (F.take (i - 1)).drop s := by
  have split : F.drop s = (F.take (i - 1)).drop s ++ F.drop (max s (i - 1)) := by
    rcases le_total s (i - 1) with hs | hs
    · rw [max_eq_right hs]
      rcases le_total F.length s with hl | hl
      · rw [List.drop_eq_nil_of_le hl, List.drop_eq_nil_of_le (by simp; omega),
          List.drop_eq_nil_of_le (by omega), List.nil_append]
      · rw [← List.drop_append_of_le_length (by simp; omega), List.take_append_drop]
    · have hnil : (F.take (i - 1)).drop s = [] := List.drop_eq_nil_of_le (by simp; omega)
      rw [max_eq_left hs, hnil, List.nil_append]
  rw [split, List.filter_append, List.filter_eq_self.mpr, List.filter_eq_nil_iff.mpr,
    List.append_nil]
  · intro e he
    have := h.mem_drop he
    simp; lia
  · intro e he
    have hle := h.mem_take (List.mem_of_mem_drop he)
    have hpos := (h.isPrefix (List.take_prefix _ _)).mem_drop he
    simp; lia

/-- What a snapshot leaves of the entries behind an older one. -/
theorem Numbered.filter_above (h : Numbered F) (hs : s ≤ i) :
    (F.drop s).filter (fun e => i < e.index) = F.drop i := by
  have split : F.drop s = (F.drop s).take (i - s) ++ F.drop i := by
    conv_lhs => rw [← List.take_append_drop (i - s) (F.drop s), List.drop_drop]
    rw [show s + (i - s) = i by omega]
  rw [split, List.filter_append, List.filter_eq_nil_iff.mpr, List.filter_eq_self.mpr,
    List.nil_append]
  · intro e he
    have := h.mem_drop he
    simp; lia
  · intro e he
    rw [← List.drop_take] at he
    have := h.mem_take (List.mem_of_mem_drop he)
    simp; lia

theorem Ascending.isPrefix (h : Ascending F) (hp : P <+: F) : Ascending P := h.sublist hp.sublist

theorem Ascending.le_endTerm (h : Ascending F) (he : e ∈ F) : e.term ≤ endTerm F := by
  rcases List.eq_nil_or_concat' F with rfl | ⟨init, last, rfl⟩
  · cases he
  · rw [endTerm_concat]
    rcases List.mem_append.mp he with he | he
    · exact (List.pairwise_append.mp h).2.2 e he last (by simp)
    · rw [List.mem_singleton.mp he]

theorem endTerm_le (h : ∀ e ∈ F, e.term ≤ t) : endTerm F ≤ t := by
  rcases List.eq_nil_or_concat' F with rfl | ⟨init, last, rfl⟩
  · exact Nat.zero_le _
  · rw [endTerm_concat]
    exact h last (by simp)

theorem Ascending.endTerm_mono (h : Ascending F) (hp : P <+: F) : endTerm P ≤ endTerm F :=
  endTerm_le fun _ he => h.le_endTerm (hp.mem he)

theorem Ascending.concat (h : Ascending F) (ht : ∀ a ∈ F, a.term ≤ e.term) :
    Ascending (F ++ [e]) := by
  refine List.pairwise_append.mpr ⟨h, List.pairwise_singleton _ _, ?_⟩
  intro a ha b hb
  rw [List.mem_singleton.mp hb]
  exact ht a ha

/-! ## Two logs -/

/-- The same term at the same position only after the same beginning. -/
def Agrees (F G : List Entry) : Prop :=
  ∀ i, i ≤ F.length → i ≤ G.length → endTerm (F.take i) = endTerm (G.take i) → F.take i = G.take i

/-- The term at its end shows that a log has a beginning of the leader's. -/
theorem Agrees.isPrefix (h : Agrees F G) (hG : P <+: G) (hle : P.length ≤ F.length)
    (ht : endTerm (F.take P.length) = endTerm P) : P <+: F := by
  have hP := take_length_of_isPrefix hG
  have hsame := h P.length hle hG.length_le (by rw [ht, hP])
  rw [← hP, ← hsame]
  exact List.take_prefix _ F

/-- What may become of a log `F` under a leader with log `G`: what they share is never given up. -/
structure Follows (G F F' : List Entry) : Prop where
  source : F' <+: F ∨ F' <+: G
  shared : ∀ P, P <+: F → P <+: G → P <+: F'

theorem Follows.refl (G F : List Entry) : Follows G F F :=
  ⟨Or.inl (List.prefix_refl F), fun _ h _ => h⟩

theorem Follows.trans {G F F' F'' : List Entry} (h : Follows G F F') (k : Follows G F' F'') :
    Follows G F F'' where
  source := by
    rcases k.source with k | k
    · exact h.source.imp k.trans k.trans
    · exact Or.inr k
  shared P hF hG := k.shared P (h.shared P hF hG) hG

/-- To cut a log where it begins to differ from the leader's. -/
theorem Follows.cut {F G P : List Entry} (hF : P <+: F) (hG : P <+: G)
    (hne : P.length < F.length → F.take (P.length + 1) ≠ G.take (P.length + 1)) :
    Follows G F P where
  source := Or.inl hF
  shared Q hQF hQG := by
    refine List.prefix_of_prefix_length_le hQG hG ?_
    by_contra hlt
    have hl := hQF.length_le
    apply hne (by omega)
    rw [take_of_isPrefix hQF (by omega), take_of_isPrefix hQG (by omega)]

/-- To keep as much of a log as is shared at most. -/
theorem Follows.shorten {F G : List Entry} (hi : ∀ P, P <+: F → P <+: G → P.length ≤ i) :
    Follows G F (F.take i) where
  source := Or.inl (List.take_prefix i F)
  shared P hF hG := List.prefix_take_iff.mpr ⟨hF, hi P hF hG⟩

/-- To take a beginning of the leader's log that has all that is shared. -/
theorem Follows.replace {F G C : List Entry} (hC : C <+: G)
    (hi : ∀ P, P <+: F → P <+: G → P.length ≤ C.length) : Follows G F C where
  source := Or.inr hC
  shared P hF hG := List.prefix_of_prefix_length_le hG hC (hi P hF hG)

/-- To go on with the leader's entries after a log that is wholly shared. -/
theorem Follows.extend {F G F' : List Entry} (hF : F <+: F') (hG : F' <+: G) : Follows G F F' :=
  ⟨Or.inr hG, fun _ h _ => h.trans hF⟩

/-! ## What a store stands for -/

namespace Persisted

/-- The last index that the snapshot covers. -/
def covered (p : Persisted) : Index := (p.snapshot.map Snapshot.index).getD 0

def coveredTerm (p : Persisted) : Term := (p.snapshot.map Snapshot.term).getD 0

structure StandsFor (p : Persisted) (F : List Entry) : Prop where
  numbered : Numbered F
  covered_le : p.covered ≤ F.length
  coveredTerm : p.coveredTerm = endTerm (F.take p.covered)
  entries : p.entries = F.drop p.covered

variable {p : Persisted}

theorem StandsFor.hard (h : p.StandsFor F) (hs : HardState) :
    ((Write.hard hs).change p).StandsFor F :=
  ⟨h.numbered, h.covered_le, h.coveredTerm, h.entries⟩

theorem StandsFor.append (h : p.StandsFor F) (hG : Numbered (F ++ G)) :
    ((Write.append G).change p).StandsFor (F ++ G) where
  numbered := hG
  covered_le := h.covered_le.trans (by simp)
  coveredTerm := by
    rw [List.take_append_of_le_length (by exact h.covered_le)]
    exact h.coveredTerm
  entries := by
    rw [List.drop_append_of_le_length (by exact h.covered_le)]
    exact congrArg (· ++ G) h.entries

theorem StandsFor.truncate (h : p.StandsFor F) (hi : p.covered < i) :
    ((Write.truncate i).change p).StandsFor (F.take (i - 1)) where
  numbered := h.numbered.isPrefix (List.take_prefix _ _)
  covered_le := by
    have := h.covered_le
    change p.covered ≤ _
    rw [List.length_take]
    lia
  coveredTerm := by
    rw [List.take_take, Nat.min_eq_left (by change p.covered ≤ _; lia)]
    exact h.coveredTerm
  entries := by
    change p.entries.filter _ = _
    rw [h.entries, h.numbered.filter_below]
    rfl

/-- A snapshot of the log's own beginning. -/
theorem StandsFor.install (h : p.StandsFor F) {snap : Snapshot} (hi : p.covered ≤ snap.index)
    (hF : snap.index ≤ F.length) (ht : snap.term = endTerm (F.take snap.index)) :
    ((Write.install snap).change p).StandsFor F where
  numbered := h.numbered
  covered_le := hF
  coveredTerm := ht
  entries := by
    change p.entries.filter _ = _
    rw [h.entries, h.numbered.filter_above hi]
    rfl

/-- A snapshot of another log, once nothing is left behind it. -/
theorem StandsFor.replace (h : p.StandsFor F) (hG : Numbered G) {snap : Snapshot}
    (hF : F.length ≤ snap.index) (hi : snap.index = G.length) (ht : snap.term = endTerm G) :
    ((Write.install snap).change p).StandsFor G where
  numbered := hG
  covered_le := hi.le
  coveredTerm := by
    change snap.term = endTerm (G.take snap.index)
    rw [List.take_of_length_le hi.ge, ht]
  entries := by
    change p.entries.filter _ = _
    have := h.covered_le
    rw [h.entries, h.numbered.filter_above (by lia), List.drop_eq_nil_of_le hF]
    exact (List.drop_eq_nil_of_le hi.ge).symm

/-- Terms ascend, so nothing behind the snapshot is older than it. -/
theorem StandsFor.takeWhile_eq (h : p.StandsFor F) (hF : Ascending F) :
    (p.entries.takeWhile fun e => decide ((p.snapshot.map Snapshot.term).getD 0 ≤ e.term)) =
      p.entries := by
  rw [List.takeWhile_eq_self_iff, h.entries]
  intro e he
  refine decide_eq_true (h.coveredTerm.trans_le (endTerm_le fun a ha => ?_))
  rw [← List.take_append_drop p.covered F] at hF
  exact (List.pairwise_append.mp hF).2.2 a ha e he

end Persisted

/-! ## What a log shows -/

namespace Log

variable {σ : Type} [LogStore σ] [LawfulStore σ]

structure Shows (l : Log σ) (F : List Entry) : Prop where
  stored : (kept l.store).StandsFor F
  snapshotIndex : l.snapshotIndex = (kept l.store).covered
  snapshotTerm : l.snapshotTerm = (kept l.store).coveredTerm
  entries : l.entries = (kept l.store).entries
  applied : l.snapshotIndex ≤ l.lastApplied
  committed : l.lastApplied ≤ l.commitIndex
  held : l.commitIndex ≤ F.length

variable {l : Log σ}

theorem Shows.numbered (h : l.Shows F) : Numbered F := h.stored.numbered

theorem Shows.entries_eq (h : l.Shows F) : l.entries = F.drop l.snapshotIndex := by
  rw [h.entries, h.stored.entries, h.snapshotIndex]

theorem Shows.snapshotTerm_eq (h : l.Shows F) :
    l.snapshotTerm = endTerm (F.take l.snapshotIndex) := by
  rw [h.snapshotTerm, h.stored.coveredTerm, h.snapshotIndex]

theorem Shows.covered_le (h : l.Shows F) : l.snapshotIndex ≤ F.length :=
  h.applied.trans (h.committed.trans h.held)

theorem Shows.covered_le_commit (h : l.Shows F) : (kept l.store).covered ≤ l.commitIndex := by
  rw [← h.snapshotIndex]
  exact h.applied.trans h.committed

theorem Shows.lastIndex (h : l.Shows F) : l.lastIndex = F.length := by
  have hle := h.covered_le
  rw [Log.lastIndex, h.entries_eq, List.getLast?_drop]
  split
  · simp; lia
  · rcases List.eq_nil_or_concat' F with rfl | ⟨init, e, rfl⟩
    · simp at *
    · have := h.numbered init.length e (by simp)
      simp [this]

theorem Shows.lastTerm (h : l.Shows F) : l.lastTerm = endTerm F := by
  have hle := h.covered_le
  rw [Log.lastTerm, h.entries_eq, List.getLast?_drop, h.snapshotTerm_eq]
  split
  · simp; rw [List.take_of_length_le (by lia)]
  · rcases List.eq_nil_or_concat' F with rfl | ⟨init, e, rfl⟩
    · simp at *
    · simp

theorem Shows.entry? (h : l.Shows F) (i : Index) :
    l.entry? i = if i ≤ l.snapshotIndex then none else F[i - 1]? := by
  rw [Log.entry?, h.entries_eq, List.getElem?_drop]
  split
  · rfl
  · congr 1; lia

theorem Shows.entry?_eq_some (h : l.Shows F) {i : Index} {e : Entry} :
    l.entry? i = some e ↔ l.snapshotIndex < i ∧ F[i - 1]? = some e := by
  rw [h.entry?]
  split <;> simp <;> lia

/-- The term at an index is that of the last entry up to there. -/
theorem Shows.termAt? (h : l.Shows F) (i : Index) :
    l.termAt? i = if l.snapshotIndex ≤ i ∧ i ≤ F.length
      then some (endTerm (F.take i)) else none := by
  have hle := h.covered_le
  rw [Log.termAt?, h.entry?, h.snapshotTerm_eq]
  by_cases hi : i = l.snapshotIndex
  · subst hi
    simp [hle]
  · rw [if_neg hi]
    split
    · rw [if_neg (by lia)]
      rfl
    · cases i with
      | zero => lia
      | succ k =>
        rw [Nat.succ_sub_one]
        cases hk : F[k]? with
        | none =>
          have := List.getElem?_eq_none_iff.mp hk
          rw [if_neg (by lia)]
          rfl
        | some e =>
          have := (List.getElem?_eq_some_iff.mp hk).1
          rw [if_pos (by lia), endTerm_take_succ hk, Option.map_some]

theorem Shows.termAt?_eq_some (h : l.Shows F) {i : Index} {t : Term} : l.termAt? i = some t ↔
    l.snapshotIndex ≤ i ∧ i ≤ F.length ∧ endTerm (F.take i) = t := by
  rw [h.termAt?]
  split <;> simp <;> lia

theorem Shows.entriesFrom (h : l.Shows F) {i : Index} (hi : l.snapshotIndex < i) (most : Nat) :
    l.entriesFrom i most = (F.drop (i - 1)).take most := by
  rw [Log.entriesFrom, if_neg (by lia), h.entries_eq, List.drop_drop]
  congr 2
  lia

theorem Shows.isUpToDate (h : l.Shows F) (t : Term) (i : Index) : l.isUpToDate t i = true ↔
    endTerm F < t ∨ t = endTerm F ∧ F.length ≤ i := by
  simp [Log.isUpToDate, h.lastTerm, h.lastIndex]

end Log

end RaftNode
