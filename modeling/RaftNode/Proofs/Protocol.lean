import RaftNode.World
import RaftNode.Proofs.LogOperations
import Mathlib.Data.Finset.Basic
import Mathlib.Logic.Function.Basic
/-!
# Runs of a cluster

Every request and response that was ever produced may arrive at any time, any number of times or never. A member
may crash between events, and within one after any of its writes, since which writes succeed may change at any
time. A fault that halts a node brings it down with what its store then holds.
-/
namespace RaftNode.Protocol

structure State (σ μ : Type) where
  life : NodeId → Life σ μ
  /-- Requests and their senders. -/
  sent : List (NodeId × Outbound) := []
  /-- Responses and the nodes they are for. -/
  answers : List (NodeId × Response) := []

def State.node? {σ μ : Type} (s : State σ μ) (i : NodeId) : Option (Node σ μ) :=
  match s.life i with
  | .up n => some n
  | .down _ => none

theorem State.node?_eq_some {σ μ : Type} {s : State σ μ} {i : NodeId} {n : Node σ μ} :
    s.node? i = some n ↔ s.life i = .up n := by
  unfold State.node?
  split
  · rename_i n' hlife
    rw [hlife]
    exact ⟨fun h => congrArg Life.up (Option.some.inj h), fun h => congrArg some (Life.up.inj h)⟩
  · rename_i store hlife
    rw [hlife]
    simp

def storeOf {σ μ : Type} : Life σ μ → σ
  | .up n => n.log.store
  | .down store => store

def withStore {σ μ : Type} (store : σ) : Life σ μ → Life σ μ
  | .up n => .up { n with log := { n.log with store } }
  | .down _ => .down store

/-- What a node does of its own accord. -/
inductive Command where
  | stand
  | heartbeat
  | replicate
  | propose (command : Bytes)
  | apply
  | snapshot

inductive Event (σ μ : Type) where
  /-- A member boots from its store. -/
  | boot (i : NodeId) (peers : List NodeId) (machine : μ) (config : Config) (m : Moment)
  | crash (i : NodeId)
  /-- Something happens to a store that changes which accesses will succeed, but not what it keeps: a store with
  a budget of `n` writes, for one, lets the next event crash after any of them. -/
  | disturb (i : NodeId) (store : σ)
  | act (i : NodeId) (c : Command) (m : Moment)
  | deliver (sender : NodeId) (message : Outbound) (m : Moment)
  | answer (i : NodeId) (r : Response) (m : Moment)
  /-- The sender is told that its message got no answer, true or not. -/
  | giveUp (sender : NodeId) (message : Outbound) (m : Moment)
  | idle

variable {σ μ : Type} [LogStore σ] [StateMachine μ]

def Command.run (m : Moment) : Command → NodeAction σ μ (List Outbound)
  | .stand => Node.startElection m
  | .heartbeat => Node.heartbeat m
  | .replicate => Node.replicate m
  | .propose command => (fun _ => []) <$> Node.propose command
  | .apply => (fun _ => []) <$> Node.applyCommitted
  | .snapshot => (fun _ => []) <$> Node.takeSnapshot

/-- One step of one member, and what it returns. A member that is down does nothing. -/
def perform {α : Type} (s : State σ μ) (i : NodeId) (x : NodeAction σ μ α) :
    Option α × State σ μ :=
  match s.life i with
  | .down _ => (none, s)
  | .up n =>
    match x n with
    | .ok a n => (some a, { s with life := Function.update s.life i (.up n) })
    | .error f n =>
      let life := if f.halts then .down n.log.store else .up n
      (none, { s with life := Function.update s.life i life })

section

omit [LogStore σ] [StateMachine μ]

variable {α : Type} {s : State σ μ} {i : NodeId} {n n' : Node σ μ} {x : NodeAction σ μ α}

theorem perform_down {store : σ} (hl : s.life i = .down store) : perform s i x = (none, s) := by
  rw [perform, hl]

theorem perform_ok {a : α} (hl : s.life i = .up n) (hx : x n = .ok a n') :
    perform s i x = (some a, { s with life := Function.update s.life i (.up n') }) := by
  simp only [perform, hl, hx]

theorem perform_error {f : Fault NodeError} (hl : s.life i = .up n) (hx : x n = .error f n') :
    perform s i x = (none, { s with
      life := Function.update s.life i (if f.halts then .down n'.log.store else .up n') }) := by
  simp only [perform, hl, hx]

/-- A fault that the member does not outlive leaves its store. -/
theorem perform_halt {f : Fault NodeError} (hl : s.life i = .up n) (hx : x n = .error f n') (hf : f.halts = true) :
    (perform s i x).2.life i = .down n'.log.store := by
  rw [perform_error hl hx, if_pos hf]
  exact Function.update_self i _ _

end

def send (s : State σ μ) (i : NodeId) (x : NodeAction σ μ (List Outbound)) : State σ μ :=
  let after := perform s i x
  { after.2 with sent := after.2.sent ++ (after.1.getD []).map fun m => (i, m) }

omit [LogStore σ] [StateMachine μ] in
/-- What is on its way after a step was so before, or is what the step returned. -/
theorem mem_sent_send {s : State σ μ} {i : NodeId} {x : NodeAction σ μ (List Outbound)}
    {p : NodeId × Outbound} (hp : p ∈ (send s i x).sent) :
    p ∈ (perform s i x).2.sent ∨ ∃ qs, (perform s i x).1 = some qs ∧ p.1 = i ∧ p.2 ∈ qs := by
  refine (List.mem_append.mp hp).imp_right fun hp => ?_
  obtain ⟨q, hq, rfl⟩ := List.mem_map.mp hp
  cases hres : (perform s i x).1 with
  | none =>
    rw [hres] at hq
    cases hq
  | some qs =>
    rw [hres] at hq
    exact ⟨qs, rfl, rfl, hq⟩

def next (s : State σ μ) : Event σ μ → State σ μ
  | .boot i peers machine config m =>
    match Node.boot i peers machine config m (storeOf (s.life i)) with
    | .ok n _ => { s with life := Function.update s.life i (.up n) }
    | .error _ store => { s with life := Function.update s.life i (.down store) }
  | .crash i => { s with life := Function.update s.life i (.down (storeOf (s.life i))) }
  | .disturb i store =>
    { s with life := Function.update s.life i (withStore store (s.life i)) }
  | .act i c m => send s i (c.run m)
  | .deliver sender message m =>
    let after := perform s message.target (Node.onRequest m message.request)
    { after.2 with
      answers := after.2.answers ++ ((after.1.bind message.response?).map (sender, ·)).toList }
  | .answer i r m => send s i (Node.onResponse m r)
  | .giveUp sender message m => send s sender (Node.onResponse m message.lost)
  | .idle => s

variable [LawfulStore σ]

def Enabled (members : Finset NodeId) (s : State σ μ) : Event σ μ → Prop
  | .boot i peers _ _ _ => i ∈ members ∧ peers.Nodup ∧ peers.toFinset = members.erase i
  | .disturb i store => kept store = kept (storeOf (s.life i))
  | .deliver sender message _ => (sender, message) ∈ s.sent
  | .answer i r _ => (i, r) ∈ s.answers
  | .giveUp sender message _ => (sender, message) ∈ s.sent
  | .crash _ | .act .. | .idle => True

/-- Nobody has started, and nothing is stored. -/
structure Initial (s : State σ μ) : Prop where
  down : ∀ i, ∃ store, s.life i = .down store ∧ kept store = {}
  sent : s.sent = []
  answers : s.answers = []

structure Run (members : Finset NodeId) (σ μ : Type) [LogStore σ] [LawfulStore σ]
    [StateMachine μ] where
  state : ℕ → State σ μ
  event : ℕ → Event σ μ
  start : Initial (state 0)
  valid : ∀ t, Enabled members (state t) (event t) ∧ state (t + 1) = next (state t) (event t)

/-- Each event in turn finds what it needs. -/
def Playable (members : Finset NodeId) : State σ μ → List (Event σ μ) → Prop
  | _, [] => True
  | s, e :: es => Enabled members s e ∧ Playable members (next s e) es

instance (members : Finset NodeId) (s : State σ μ) (e : Event σ μ) :
    Decidable (Enabled members s e) :=
  match e with
  | .boot _ _ _ _ _ => inferInstanceAs (Decidable (_ ∧ _ ∧ _))
  | .disturb _ _ => inferInstanceAs (Decidable (_ = _))
  | .deliver sender message _ => inferInstanceAs (Decidable ((sender, message) ∈ s.sent))
  | .answer i r _ => inferInstanceAs (Decidable ((i, r) ∈ s.answers))
  | .giveUp sender message _ => inferInstanceAs (Decidable ((sender, message) ∈ s.sent))
  | .crash _ | .act .. | .idle => isTrue trivial

instance decidablePlayable (members : Finset NodeId) :
    ∀ (s : State σ μ) es, Decidable (Playable members s es)
  | _, [] => isTrue trivial
  | s, e :: es => @instDecidableAnd _ _ _ (decidablePlayable members (next s e) es)

omit [LawfulStore σ] in
theorem foldl_take_succ (s : State σ μ) (es : List (Event σ μ)) (t : ℕ) :
    (es.take (t + 1)).foldl next s = next ((es.take t).foldl next s) (es.getD t .idle) := by
  induction es generalizing s t with
  | nil => simp [next]
  | cons e es ih =>
    cases t with
    | zero => rfl
    | succ t => exact ih (next s e) t

theorem Playable.valid {members : Finset NodeId} {s : State σ μ} {es : List (Event σ μ)}
    (h : Playable members s es) (t : ℕ) :
    Enabled members ((es.take t).foldl next s) (es.getD t .idle) ∧
      (es.take (t + 1)).foldl next s = next ((es.take t).foldl next s) (es.getD t .idle) := by
  refine ⟨?_, foldl_take_succ s es t⟩
  induction es generalizing s t with
  | nil => trivial
  | cons e es ih =>
    cases t with
    | zero => exact h.1
    | succ t => exact ih h.2 t

/-- The run that goes through some events and then rests. -/
def Run.play {members : Finset NodeId} {s : State σ μ} {es : List (Event σ μ)} (hs : Initial s)
    (h : Playable members s es) : Run members σ μ where
  state t := (es.take t).foldl next s
  event t := es.getD t .idle
  start := hs
  valid := h.valid

def Run.node? {members : Finset NodeId} (r : Run members σ μ) (t : ℕ) (i : NodeId) :
    Option (Node σ μ) :=
  (r.state t).node? i

end RaftNode.Protocol
