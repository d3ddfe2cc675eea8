import RaftNode.Proofs.Replay
/-!
# Snapshots and redelivery

A machine is restored from a snapshot, and the commands come again from some point on that the snapshot covers. What
the snapshot covers is passed over, so the machine ends where one delivery of everything would have brought it.
-/
namespace RaftNode

/-- A machine that takes each index once. -/
class GuardedMachine (μ : Type) [StateMachine μ] extends CountingMachine μ where
  passedOver : ∀ {m : μ} {i : Index} (command : Bytes), i ≤ position m →
    StateMachine.apply m i command = (.ok [], m)

instance : GuardedMachine Journal where
  passedOver {m i} command hi := by
    have hcounted : i ≤ m.lastIndex := hi
    simp only [StateMachine.apply, Journal.apply, if_pos hcounted]

instance : GuardedMachine KeyValue where
  passedOver {m i} command hi := by
    have hcounted : i ≤ m.lastApplied := hi
    simp only [StateMachine.apply, KeyValue.apply, if_pos hcounted]
    rfl

namespace StateMachine

variable {μ : Type} [StateMachine μ]

/-! ## Delivery -/

/-- Commands delivered in order, each at its index: the outputs, and the machine afterwards. -/
def deliver (m : μ) : List (Index × Bytes) → List Output × μ
  | [] => ([], m)
  | (i, command) :: rest =>
    let (out, m) := apply m i command
    let (outs, m) := deliver m rest
    (out :: outs, m)

theorem deliver_cons (m : μ) (p : Index × Bytes) (ps : List (Index × Bytes)) :
    deliver m (p :: ps) = ((apply m p.1 p.2).1 :: (deliver (apply m p.1 p.2).2 ps).1,
      (deliver (apply m p.1 p.2).2 ps).2) := rfl

/-- A node delivers the commands of its log, without the empty ones. -/
theorem applyAll_eq_deliver (m : μ) (F : List Entry) :
    applyAll m F =
      deliver m ((F.filter fun e => !e.isNoop).map fun e => (e.index, e.command)) := by
  induction F generalizing m with
  | nil => rfl
  | cons e F ih =>
    rw [applyAll]
    by_cases hnoop : e.isNoop = true
    · rw [if_pos hnoop, List.filter_cons_of_neg (by simp [hnoop])]
      exact ih m
    · rw [if_neg hnoop, List.filter_cons_of_pos (by simpa using hnoop), List.map_cons,
        deliver_cons, ← ih]

theorem deliver_append (m : μ) (ps qs : List (Index × Bytes)) :
    deliver m (ps ++ qs) =
      ((deliver m ps).1 ++ (deliver (deliver m ps).2 qs).1, (deliver (deliver m ps).2 qs).2) := by
  induction ps generalizing m with
  | nil => rfl
  | cons p ps ih =>
    rw [List.cons_append, deliver_cons, deliver_cons, ih]
    rfl

theorem drop_deliver (m : μ) (ps : List (Index × Bytes)) (k : Nat) :
    (deliver m ps).1.drop k = (deliver (deliver m (ps.take k)).2 (ps.drop k)).1 := by
  induction ps generalizing m k with
  | nil =>
    rw [List.take_nil, List.drop_nil]
    exact List.drop_nil
  | cons p ps ih =>
    cases k with
    | zero => rfl
    | succ k => exact ih _ k

theorem fit_deliver [LawfulMachine μ] {m : μ} {ps : List (Index × Bytes)} (hm : Fit m)
    (hps : ∀ p ∈ ps, p.1 < wordLimit) : Fit (deliver m ps).2 := by
  induction ps generalizing m with
  | nil => exact hm
  | cons p ps ih =>
    have hp : p.1 < wordLimit := hps p List.mem_cons_self
    exact ih (LawfulMachine.apply p.2 hm hp) fun q hq => hps q (List.mem_cons_of_mem p hq)

/-- The machine has counted to the last index. -/
theorem le_position_deliver [CountingMachine μ] {m : μ} {ps : List (Index × Bytes)}
    (hps : ps.Pairwise fun p q => p.1 < q.1) (hm : ∀ p ∈ ps, position m < p.1) :
    position m ≤ position (deliver m ps).2 ∧ ∀ p ∈ ps, p.1 ≤ position (deliver m ps).2 := by
  induction ps generalizing m with
  | nil => exact ⟨le_rfl, fun p hp => absurd hp List.not_mem_nil⟩
  | cons p ps ih =>
    obtain ⟨hp, hrest⟩ := List.pairwise_cons.mp hps
    have hless : position m < p.1 := hm p List.mem_cons_self
    have hnext : position (apply m p.1 p.2).2 = p.1 := (CountingMachine.apply m p.2 hless).2
    have habove : ∀ q ∈ ps, position (apply m p.1 p.2).2 < q.1 := by
      rw [hnext]
      exact hp
    obtain ⟨hgrows, hcounted⟩ := ih hrest habove
    rw [hnext] at hgrows
    refine ⟨hless.le.trans hgrows, fun q hq => ?_⟩
    rcases List.mem_cons.mp hq with rfl | hq
    · exact hgrows
    · exact hcounted q hq

theorem deliver_passedOver [GuardedMachine μ] {m : μ} {ps : List (Index × Bytes)}
    (hps : ∀ p ∈ ps, p.1 ≤ position m) : deliver m ps = (ps.map fun _ => .ok [], m) := by
  induction ps with
  | nil => rfl
  | cons p ps ih =>
    rw [deliver_cons, GuardedMachine.passedOver p.2 (hps p List.mem_cons_self),
      ih fun q hq => hps q (List.mem_cons_of_mem p hq)]
    rfl

/-! ## From a snapshot on -/

/-- `m` is restored, over whatever `old` holds, from the snapshot of the machine that took the first `k` commands; with
the commands from the `j`-th on it becomes the machine that took all of them, and those that the snapshot covers are
answered by nothing. -/
structure Resumes (fresh old : μ) (ps : List (Index × Bytes)) (j k : Nat) (m : μ) : Prop where
  restored : restore old (snapshot (deliver fresh (ps.take k)).2) = .ok m
  machine : (deliver m (ps.drop j)).2 = (deliver fresh ps).2
  outputs : (deliver m (ps.drop j)).1 =
    ((ps.take k).drop j).map (fun _ => .ok []) ++ (deliver fresh ps).1.drop k

theorem resumes [LawfulMachine μ] [GuardedMachine μ] {fresh : μ} (old : μ)
    {ps : List (Index × Bytes)} {j k : Nat} (hfresh : Fit fresh)
    (hps : ps.Pairwise fun p q => p.1 < q.1)
    (hbound : ∀ p ∈ ps, position fresh < p.1 ∧ p.1 < wordLimit) (hjk : j ≤ k) :
    Resumes fresh old ps j k (deliver fresh (ps.take k)).2 := by
  have htake : ∀ p ∈ ps.take k, p ∈ ps := fun p hp => List.mem_of_mem_take hp
  have hfit : Fit (deliver fresh (ps.take k)).2 :=
    fit_deliver hfresh fun p hp => (hbound p (htake p hp)).2
  -- the snapshot covers the first `k` commands, so those among them that come again are passed over
  have hcovered : ∀ p ∈ (ps.take k).drop j, p.1 ≤ position (deliver fresh (ps.take k)).2 :=
    fun p hp => (le_position_deliver (hps.sublist (List.take_sublist k ps))
      fun q hq => (hbound q (htake q hq)).1).2 p (List.mem_of_mem_drop hp)
  have hsplit : ps.drop j = (ps.take k).drop j ++ ps.drop k := by
    rw [List.drop_take, ← Nat.add_sub_cancel' hjk, ← List.drop_drop, Nat.add_sub_cancel_left,
      List.take_append_drop]
  have hagain : deliver (deliver fresh (ps.take k)).2 (ps.drop j) =
      (((ps.take k).drop j).map (fun _ => .ok []) ++ (deliver fresh ps).1.drop k,
        (deliver fresh ps).2) := by
    have hwhole : (deliver (deliver fresh (ps.take k)).2 (ps.drop k)).2 = (deliver fresh ps).2 := by
      rw [← List.take_append_drop k ps, deliver_append, List.take_append_drop]
    rw [hsplit, deliver_append, deliver_passedOver hcovered, drop_deliver, ← hwhole]
  exact ⟨LawfulMachine.restore old hfit, by rw [hagain], by rw [hagain]⟩

/-! ## The two machines -/

/-- A restart from a snapshot cannot be told from an uninterrupted delivery, whatever is delivered again of what the
snapshot covers, and whatever texts the machines hold; the members of a table may be written in any order. -/
theorem redelivered_from_snapshot (ps : List (Index × Bytes)) (j k : Nat)
    (hincreasing : ps.Pairwise fun p q => p.1 < q.1) (hbound : ∀ p ∈ ps, 0 < p.1 ∧ p.1 < wordLimit)
    (hjk : j ≤ k) :
    (∀ old : KeyValue, ∃ m, Resumes {} old ps j k m) ∧
    (∀ old : Journal, ∃ m, Resumes {} old ps j k m) ∧
    (∀ (old m : KeyValue) (members : Table), Fit m → members.Perm m.table →
      restore old (snapshot { m with table := members }) = .ok m) ∧
    ∀ old m : Journal, Fit m → restore old (snapshot m) = .ok m := by
  have hempty : Fit ({} : KeyValue) := ⟨List.Pairwise.nil, Nat.two_pow_pos 64⟩
  have hblank : Fit ({} : Journal) := Nat.two_pow_pos 64
  refine ⟨fun old => ⟨_, resumes old hempty hincreasing hbound hjk⟩,
    fun old => ⟨_, resumes old hblank hincreasing hbound hjk⟩, ?_, ?_⟩
  · intro old m members hm hperm
    exact hm.restore_perm hperm old
  · intro old m hm
    exact LawfulMachine.restore old hm

/-- Two keys are written, one of them with a text that JSON escapes; the second `DELETE a` fails, and so do the bytes
that are no text. -/
def mixedCommands : List (Index × Bytes) := [
  (2, Bytes.ofString "SET a \"\\\n\t\u0000"),
  (3, Bytes.ofString "SET  b"),
  (5, Bytes.ofString "DELETE a"),
  (6, Bytes.ofString "DELETE a"),
  (9, [0xff]),
  (10, Bytes.ofString "SET c d e")]

theorem mixedCommands_redelivered :
    (mixedCommands.Pairwise fun p q => p.1 < q.1) ∧
    (∀ p ∈ mixedCommands, 0 < p.1 ∧ p.1 < wordLimit) ∧
    (∃ m, Resumes {} (⟨[("z", "")], 77⟩ : KeyValue) mixedCommands 0 4 m) ∧
    (∃ m, Resumes {} (⟨77, ["z"]⟩ : Journal) mixedCommands 1 5 m) ∧
    (deliver ({} : KeyValue) mixedCommands).1 =
      [.ok [], .ok [], .ok [], .error "NOT_FOUND", .error "command is not UTF-8", .ok []] ∧
    (deliver ({} : KeyValue) mixedCommands).2 = ⟨[("", "b"), ("c", "d e")], 10⟩ := by
  have hincreasing : mixedCommands.Pairwise fun p q => p.1 < q.1 := by decide
  have hbound : ∀ p ∈ mixedCommands, 0 < p.1 ∧ p.1 < wordLimit := by decide
  refine ⟨hincreasing, hbound, ?_, ?_, by decide +kernel, by decide +kernel⟩
  · exact (redelivered_from_snapshot mixedCommands 0 4 hincreasing hbound (by decide)).1 _
  · exact (redelivered_from_snapshot mixedCommands 1 5 hincreasing hbound (by decide)).2.1 _

end StateMachine

end RaftNode
