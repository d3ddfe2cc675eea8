import RaftNode.Store.Recorded
import RaftNode.Proofs.Canvass
/-!
# What a node shows and what it has stored

A node shows the term and the vote that it has stored, and shows itself as leader only in a term in which a majority
voted for it. One thing breaks this: when term and vote cannot be written, the node shows them already, and it shows
them in the role that it had in the term before.
-/
namespace RaftNode

open RaftNode.Action (wp)
open RaftNode.Node (Adopts Fails Outruns Occasion)

variable {σ μ : Type} [LogStore σ] [LawfulStore σ] {n n' : Node σ μ} {o : Occasion} {f : Fault NodeError}
  {heard : Term → NodeId → Prop}

namespace Node

/-- Term and vote are stored as shown, and there is a majority of votes behind a leader in the term that it shows. -/
structure Vouched (heard : Term → NodeId → Prop) (n : Node σ μ) : Prop where
  stored : (kept n.log.store).hard = ⟨n.status.term, n.status.vote⟩
  elected : n.status.role = .leader → ∃ votes, Collected heard n.id n.status.term votes ∧
    majority (n.peers.length + 1) ≤ votes.length

theorem Pledged.vouched (hn : n.Pledged) (hc : n.Canvassed heard) : n.Vouched heard := by
  refine ⟨hn.hard, fun hrole => ?_⟩
  change n.role.kind = .leader at hrole
  cases hr : n.role with
  | leader r => exact hc.leader hr
  | follower leader | candidate votes =>
    rw [hr] at hrole
    cases hrole

/-- What is adopted differs from what was there. -/
theorem Pledged.ne_of_adopts (hn : n.Pledged) {hard : HardState} (h : Adopts o n hard) :
    (kept n.log.store).hard ≠ hard := by
  rw [hn.hard]
  intro heq
  have hterm := congrArg HardState.term heq
  have hvote := congrArg HardState.vote heq
  cases h with
  | enter hnew => exact absurd hterm (ne_of_lt hnew)
  | vote _ _ hfree => exact absurd (hfree.symm.trans hvote) (Option.some_ne_none _).symm
  | stand => exact absurd hterm (ne_of_lt (Nat.lt_succ_self _))

/-- A write of term and vote that has changed nothing leaves a node that shows what is not stored. -/
theorem Pledged.not_vouched (hn : n.Pledged) (h : Outruns o n f n')
    (hsame : (kept n'.log.store).hard = (kept n.log.store).hard) : ¬ n'.Vouched heard := by
  obtain ⟨hard, log, hadopts, -, rfl⟩ := h
  intro hv
  exact hn.ne_of_adopts hadopts (hsame.symm.trans hv.stored)

end Node

namespace Protocol.OpenRun

variable [StateMachine μ] {r : OpenRun σ μ} {t : ℕ} {i : NodeId}

/-- A vote of `v` for term `T` has come in at member `i` before moment `t`, or comes in now. -/
def HeardNow (r : OpenRun σ μ) (i : NodeId) (t : ℕ) (o : Occasion) (T : Term) (v : NodeId) : Prop :=
  r.Heard i t T v ∨ o.Grants T v

/-- After any event, whatever writes have failed, a node shows what it has stored and what it was elected to, unless
the write that failed is that of a term and vote. In that case it was so until this write, and if the write has
changed nothing, it is no longer so. -/
theorem vouched_or_outruns (r : OpenRun σ μ) (hn : (r.state t).node? i = some n) (o : Occasion) (m : Moment) :
    (∀ n', o.run m n = .ok () n' → n'.Vouched (r.HeardNow i t o)) ∧
      ∀ f n', o.run m n = .error f n' → n'.Vouched (r.HeardNow i t o) ∨
        ∃ n₁, Node.Steps o n n₁ ∧ n₁.Vouched (r.HeardNow i t o) ∧ Outruns o n₁ f n' ∧
          ((kept n'.log.store).hard = (kept n₁.log.store).hard → ¬ n'.Vouched (r.HeardNow i t o)) := by
  have hp : n.Pledged := (r.pledged_node hn).2
  have hc : n.Canvassed (r.HeardNow i t o) := (r.canvassed hn).mono fun _ _ => Or.inl
  have hsteps : ∀ {n₁ : Node σ μ}, Node.Steps o n n₁ → n₁.Pledged ∧ n₁.Canvassed (r.HeardNow i t o) :=
    fun hs => ⟨(hp.steps hs).1, hc.steps (fun _ _ => Or.inr) hs⟩
  have hrun := Node.goes_run (n := n) o m
  refine ⟨fun n' hok => ?_, fun f n' herror => ?_⟩
  · obtain ⟨hp', hc'⟩ := hsteps (Action.wp_ok hrun hok).1
    exact hp'.vouched hc'
  · obtain ⟨n₁, hs, hfails⟩ := Action.wp_error hrun herror
    obtain ⟨hp₁, hc₁⟩ := hsteps hs
    obtain ⟨log, rfl, hhard⟩ | hout := hp₁.fails_cases hfails
    · exact Or.inl (Node.Pledged.vouched ⟨hhard, hp₁.self⟩ hc₁)
    · exact Or.inr ⟨n₁, hs, hp₁.vouched hc₁, hout, hp₁.not_vouched hout⟩

/-! ## A term that is shown and not stored -/

/-- Member 1 is elected in term 1, and its store takes two writes. -/
def exhausted : OpenRun (Recorded MemoryStore) Journal :=
  .play { life := fun _ => .down { inner := {}, budget := some 2 } }
    [.boot 1 [2, 3] {} {} ⟨0, 0⟩, .act 1 .stand ⟨0, 0⟩, .answer 1 (.vote 2 1 ⟨1, true⟩) ⟨0, 0⟩]
    (fun _ => ⟨_, rfl⟩) (by simp [Possible])

/-- The leader of term 1, and the same node when the write of term 5 has failed. -/
def elected (term : Term) (vote : Option NodeId) : Node (Recorded MemoryStore) Journal where
  id := 1
  peers := [2, 3]
  config := {}
  term := term
  vote := vote
  log := {
    store := {
      inner := { kept := { hard := ⟨1, some 1⟩, entries := [⟨1, 1, []⟩] } },
      writes := [.hard ⟨1, some 1⟩, .append [⟨1, 1, []⟩]], budget := some 0 },
    entries := [⟨1, 1, []⟩] }
  role := .leader { peers := [(2, ⟨1, 0, some 0, 0⟩), (3, ⟨1, 0, some 0, 0⟩)] }
  machine := {}
  electionDeadline := 300
  appliedSinceSnapshot := 0

theorem exhausted_elected : (exhausted.state 3).node? 1 = some (elected 1 (some 1)) := by cbv

/-- A candidate of term 5 asks for the vote. -/
def overtaking : Occasion := .request (.vote ⟨5, 3, 9, 9⟩)

theorem vouched_or_outruns_exhausted : (exhausted.state 3).node? 1 = some (elected 1 (some 1)) ∧
    ∃ n', (Occasion.act .heartbeat).run ⟨1, 0⟩ (elected 1 (some 1)) = .ok () n' ∧
      n'.Vouched (exhausted.HeardNow 1 3 (.act .heartbeat)) := by
  obtain ⟨n', hok⟩ : ∃ n', (Occasion.act .heartbeat).run ⟨1, 0⟩ (elected 1 (some 1)) = .ok () n' := ⟨_, rfl⟩
  exact ⟨exhausted_elected, n', hok, (exhausted.vouched_or_outruns exhausted_elected _ _).1 n' hok⟩

/-- The request fails at the write, and the node shows itself as leader of term 5, which nobody has voted for and its
store does not have. -/
theorem leader_of_unstored_term : (exhausted.state 3).node? 1 = some (elected 1 (some 1)) ∧
    (∃ f, overtaking.run ⟨1, 0⟩ (elected 1 (some 1)) = .error f (elected 5 none)) ∧
    (elected 5 none).status.role = .leader ∧ (elected 5 none).status.term = 5 ∧
    (kept (elected 5 none).log.store).hard = ⟨1, some 1⟩ ∧
    ¬ (elected 5 none).Vouched (exhausted.HeardNow 1 3 overtaking) :=
  ⟨exhausted_elected, ⟨_, rfl⟩, rfl, rfl, rfl, fun hv => absurd hv.stored (by decide)⟩

end Protocol.OpenRun

end RaftNode
