import RaftNode.Machine.Journal
import RaftNode.Proofs.Steps
import RaftNode.Store.Recorded
/-!
# The term as a barrier

A request of an older term and a response to a message of another term leave no trace at a node, unless the response
tells a newer term. So a sequence of events goes as it would go without them.
-/
namespace RaftNode

open RaftNode.Action (wp)
open RaftNode.Node (Occasion)

variable {σ μ : Type}

/-- The term of the message that is responded to. -/
def Response.sentTerm : Response → Term
  | .vote _ sentTerm _ => sentTerm
  | .append _ sent _ => sent.term
  | .install _ sentTerm _ _ => sentTerm
  | .unreachable _ sentTerm => sentTerm

/-- The term that the peer tells, if it has answered at all. -/
def Response.toldTerm? : Response → Option Term
  | .vote _ _ r => some r.term
  | .append _ _ r => some r.term
  | .install _ _ _ r => some r.term
  | .unreachable _ _ => none

/-- The reply that tells a term and takes on nothing. -/
def Request.refusal (term : Term) : Request → Reply
  | .vote _ => .vote ⟨term, false⟩
  | .append _ => .append ⟨term, false, none⟩
  | .install _ => .install ⟨term⟩

namespace Node

/-- What a node returns for an event. -/
inductive Yield where
  | reply (r : Reply)
  | messages (qs : List Outbound)
  | index (i : Index)
  | applied (as : List Applied)
  | snapshot (point : Option SnapshotPoint)

namespace Occasion

/-- At a node in term `term`, the event comes too late. -/
def Stale (term : Term) : Occasion → Prop
  | .act _ => False
  | .request q => q.term < term
  | .response r => r.sentTerm ≠ term ∧ ∀ told ∈ r.toldTerm?, told ≤ term

instance (term : Term) : (o : Occasion) → Decidable (o.Stale term)
  | .act _ => isFalse not_false
  | .request q => inferInstanceAs (Decidable (q.term < term))
  | .response r => inferInstanceAs (Decidable (r.sentTerm ≠ term ∧ ∀ told ∈ r.toldTerm?, told ≤ term))

/-- What a node in term `term` returns for an event that comes too late. -/
def dismissal (term : Term) : Occasion → Yield
  | .request q => .reply (q.refusal term)
  | .act _ | .response _ => .messages []

variable [LogStore σ] [StateMachine μ]

def handle (m : Moment) : Occasion → NodeAction σ μ Yield
  | .act .stand => .messages <$> startElection m
  | .act .heartbeat => .messages <$> heartbeat m
  | .act .replicate => .messages <$> replicate m
  | .act (.propose command) => .index <$> propose command
  | .act .apply => .applied <$> applyCommitted
  | .act .snapshot => .snapshot <$> takeSnapshot
  | .request q => .reply <$> onRequest m q
  | .response r => .messages <$> onResponse m r

/-- It is what happens to the node, and what the node returns besides. -/
theorem run_eq_handle (m : Moment) (o : Occasion) :
    (o.run m : NodeAction σ μ Unit) = (fun _ => ()) <$> o.handle m := by
  cases o with
  | act c => cases c <;> simp only [run, handle, Protocol.Command.run, Functor.map_map]
  | request q => simp only [run, handle, Functor.map_map]
  | response r => simp only [run, handle, Functor.map_map]

end Occasion

/-! ## One event -/

/-- The event comes to its end with `a`, and nothing has changed. -/
def Ignores {α : Type} (n : Node σ μ) (a : α) (x : NodeAction σ μ α) : Prop := x n = .ok a n

variable {n : Node σ μ} {m : Moment} {peer : NodeId} {sentTerm : Term}

theorem ignores_of_wp {α : Type} {a : α} {x : NodeAction σ μ α}
    (h : wp x (fun b n' => b = a ∧ n' = n) (fun _ _ => False) n) : n.Ignores a x := by
  obtain ⟨_, _, hx, rfl, rfl⟩ := Action.wp_exists h
  exact hx

theorem Ignores.map {α β : Type} {a : α} {x : NodeAction σ μ α} (h : n.Ignores a x) (f : α → β) :
    n.Ignores (f a) (f <$> x) := by
  unfold Ignores at *
  simp only [Functor.map, EStateM.map, h]

variable [LogStore σ]

theorem ignores_onVoteRequest {q : VoteRequest} (h : q.term < n.term) :
    n.Ignores ⟨n.term, false⟩ (onVoteRequest m q) := by
  refine ignores_of_wp ?_
  rw [onVoteRequest_eq, Action.wp_bind, Action.wp_get, Action.wp_ite, if_pos h]
  exact ⟨rfl, rfl⟩

theorem ignores_onAppendRequest {q : AppendRequest} (h : q.term < n.term) :
    n.Ignores ⟨n.term, false, none⟩ (onAppendRequest m q) := by
  refine ignores_of_wp ?_
  rw [onAppendRequest, Action.wp_bind, Action.wp_get, Action.wp_ite, if_pos h]
  exact ⟨rfl, rfl⟩

theorem ignores_onInstallRequest [StateMachine μ] {q : InstallRequest} (h : q.term < n.term) :
    n.Ignores ⟨n.term⟩ (onInstallRequest m q) := by
  refine ignores_of_wp ?_
  rw [onInstallRequest, Action.wp_bind, Action.wp_get, Action.wp_ite, if_pos h]
  exact ⟨rfl, rfl⟩

theorem ignores_onVoteReply {r : VoteReply} (hsent : sentTerm ≠ n.term) (htold : r.term ≤ n.term) :
    n.Ignores [] (onVoteReply m peer sentTerm r) := by
  refine ignores_of_wp ?_
  rw [onVoteReply, Action.wp_bind, Action.wp_get, Action.wp_ite, if_neg (not_lt.mpr htold), Action.wp_ite,
    if_pos (by simp [hsent])]
  exact ⟨rfl, rfl⟩

theorem ignores_onAppendReply {sent : AppendSent} {r : AppendReply} (hsent : sent.term ≠ n.term)
    (htold : r.term ≤ n.term) : n.Ignores [] (onAppendReply m peer sent r) := by
  refine ignores_of_wp ?_
  rw [onAppendReply, Action.wp_bind, Action.wp_get, Action.wp_ite, if_neg (not_lt.mpr htold), Action.wp_ite,
    if_pos hsent]
  exact ⟨rfl, rfl⟩

theorem ignores_onInstallReply {index : Index} {r : InstallReply} (hsent : sentTerm ≠ n.term)
    (htold : r.term ≤ n.term) : n.Ignores [] (onInstallReply m peer sentTerm index r) := by
  refine ignores_of_wp ?_
  rw [onInstallReply, Action.wp_bind, Action.wp_get, Action.wp_ite, if_neg (not_lt.mpr htold), Action.wp_ite,
    if_pos hsent]
  exact ⟨rfl, rfl⟩

omit [LogStore σ] in
theorem ignores_onUnreachable (hsent : sentTerm ≠ n.term) : n.Ignores () (onUnreachable peer sentTerm) := by
  refine ignores_of_wp ?_
  rw [onUnreachable, Action.wp_bind, Action.wp_get, Action.wp_ite, if_neg hsent]
  exact ⟨rfl, rfl⟩

variable [StateMachine μ]

theorem ignores_stale {o : Occasion} (h : o.Stale n.term) : n.Ignores (o.dismissal n.term) (o.handle m) := by
  cases o with
  | act c => exact h.elim
  | request q =>
    cases q with
    | vote q => exact ((ignores_onVoteRequest h).map Reply.vote).map Yield.reply
    | append q => exact ((ignores_onAppendRequest h).map Reply.append).map Yield.reply
    | install q => exact ((ignores_onInstallRequest h).map Reply.install).map Yield.reply
  | response r =>
    obtain ⟨hsent, htold⟩ := h
    cases r with
    | vote peer sentTerm r => exact (ignores_onVoteReply hsent (htold _ rfl)).map Yield.messages
    | append peer sent r => exact (ignores_onAppendReply hsent (htold _ rfl)).map Yield.messages
    | install peer sentTerm index r => exact (ignores_onInstallReply hsent (htold _ rfl)).map Yield.messages
    | unreachable peer sentTerm => exact ((ignores_onUnreachable hsent).map fun _ => []).map Yield.messages

/-! ## Sequences of events -/

/-- An event as it was handled: the moment, whether it came too late, and how it ended. -/
structure Handled (σ μ : Type) where
  moment : Moment
  occasion : Occasion
  stale : Bool
  ending : EStateM.Result (Fault NodeError) (Node σ μ) Yield

/-- The events in turn, each at the node that the one before has left, however it ended. -/
def handled (n : Node σ μ) : List (Moment × Occasion) → List (Handled σ μ)
  | [] => []
  | (m, o) :: rest =>
    ⟨m, o, decide (o.Stale n.term), o.handle m n⟩ :: handled ((o.handle m).after n) rest

/-- The node that they leave. -/
def left (n : Node σ μ) (events : List (Moment × Occasion)) : Node σ μ :=
  events.foldl (fun n e => (e.2.handle e.1).after n) n

/-- The events that do not come too late. -/
def timely (n : Node σ μ) : List (Moment × Occasion) → List (Moment × Occasion)
  | [] => []
  | (m, o) :: rest =>
    let others := timely ((o.handle m).after n) rest
    if o.Stale n.term then others else (m, o) :: others

/-- An event that comes too late changes nothing at all; it sends nothing, and a request is refused in the present term.
Without such events, every other event ends as before, with the same node, store included, and the node that is left is
the same. -/
theorem stale_events_invisible (n : Node σ μ) (events : List (Moment × Occasion)) :
    (∀ (m : Moment) (o : Occasion), o.Stale n.term → o.handle m n = .ok (o.dismissal n.term) n) ∧
      handled n (timely n events) = (handled n events).filter (fun e => !e.stale) ∧
      left n (timely n events) = left n events := by
  refine ⟨fun m o h => ignores_stale h, ?_⟩
  induction events generalizing n with
  | nil => exact ⟨rfl, rfl⟩
  | cons e rest ih =>
    obtain ⟨m, o⟩ := e
    by_cases h : o.Stale n.term
    · have hafter : (o.handle m).after n = n := by rw [Action.after, ignores_stale h]
      have htimely : timely n ((m, o) :: rest) = timely n rest := by
        rw [timely, hafter]
        exact if_pos h
      have hhandled : handled n ((m, o) :: rest) = ⟨m, o, true, o.handle m n⟩ :: handled n rest := by
        rw [handled, hafter, decide_eq_true h]
      have hleft : left n ((m, o) :: rest) = left n rest := by
        rw [left, List.foldl_cons]
        exact congrArg (fun n' => left n' rest) hafter
      rw [htimely, hhandled, hleft]
      exact ih n
    · obtain ⟨ihHandled, ihLeft⟩ := ih ((o.handle m).after n)
      have htimely : timely n ((m, o) :: rest) = (m, o) :: timely ((o.handle m).after n) rest := by
        rw [timely]
        exact if_neg h
      rw [htimely]
      constructor
      · rw [handled, handled, ihHandled, decide_eq_false h]
        rfl
      · exact ihLeft

/-- A follower in term 3. Its store notes what is written. -/
def veteran : Node (Recorded MemoryStore) Journal where
  id := 1
  peers := [2, 3]
  config := {}
  term := 3
  vote := none
  log := { store := { inner := { kept := { hard := ⟨3, none⟩ } } } }
  role := .follower none
  machine := {}
  electionDeadline := 300
  appliedSinceSnapshot := 0

def lateAppend : Moment × Occasion := ({}, .request (.append ⟨2, 2, 0, 0, [⟨1, 2, [97]⟩], 1⟩))

def freshAppend : Moment × Occasion := ({}, .request (.append ⟨3, 3, 0, 0, [⟨1, 3, [98]⟩], 0⟩))

def lateVote : Moment × Occasion := ({}, .response (.vote 2 2 ⟨2, true⟩))

/-- The leaders of terms 2 and 3 write to the same follower, and it gets a vote that it asked for in term 2. -/
theorem stale_events_invisible_veteran : lateAppend.2.Stale veteran.term ∧
    lateAppend.2.handle {} veteran = .ok (.reply (.append ⟨3, false, none⟩)) veteran ∧
    veteran.timely [lateAppend, freshAppend, lateVote] = [freshAppend] ∧
    veteran.handled [freshAppend] =
      (veteran.handled [lateAppend, freshAppend, lateVote]).filter (fun e => !e.stale) ∧
    (veteran.left [lateAppend, freshAppend, lateVote]).log.store.writes = [.append [⟨1, 3, [98]⟩]] := by
  obtain ⟨hignored, hhandled, hleft⟩ := stale_events_invisible veteran [lateAppend, freshAppend, lateVote]
  have htimely : veteran.timely [lateAppend, freshAppend, lateVote] = [freshAppend] := rfl
  have hlate : lateAppend.2.Stale veteran.term := by decide
  rw [htimely] at hhandled hleft
  refine ⟨hlate, hignored {} _ hlate, htimely, hhandled, ?_⟩
  rw [← hleft]
  rfl

end Node

end RaftNode
