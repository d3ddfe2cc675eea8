import RaftNode.Network
import RaftNode.Node
/-!
# Nodes and a message queue

Members of a cluster, the messages they sent that are not delivered yet, and the links between them. Messages
can be delivered in any order, more than once or never, and their replies can be lost. A member is up with a
node, or down with what its store holds.
-/
namespace RaftNode

inductive Life (σ μ : Type) where
  | up (n : Node σ μ)
  | down (store : σ)

structure Member (σ μ : Type) where
  id : NodeId
  peers : List NodeId
  config : Config
  /-- The machine of a node that boots. -/
  fresh : μ
  life : Life σ μ

namespace Member

variable {σ μ : Type}

def store (p : Member σ μ) : σ :=
  match p.life with
  | .up n => n.log.store
  | .down s => s

/-- Changes what the store holds behind the node's back. -/
def setStore (p : Member σ μ) (s : σ) : Member σ μ :=
  match p.life with
  | .up n => { p with life := .up { n with log := { n.log with store := s } } }
  | .down _ => { p with life := .down s }

def node? (p : Member σ μ) : Option (Node σ μ) :=
  match p.life with
  | .up n => some n
  | .down _ => none

def halt (p : Member σ μ) : Member σ μ := { p with life := .down p.store }

def boot [LogStore σ] [StateMachine μ] (p : Member σ μ) (m : Moment) :
    Except (Fault NodeError) Unit × Member σ μ :=
  match Node.boot p.id p.peers p.fresh p.config m p.store with
  | .ok n _ => (.ok (), { p with life := .up n })
  | .error e s => (.error e, { p with life := .down s })

end Member

structure World (σ μ : Type) where
  members : List (Member σ μ) := []
  now : Nat := 0
  /-- Senders and messages, the oldest first. -/
  queue : List (NodeId × Outbound) := []
  network : Network := {}

inductive Arrival where
  | unreachable
  | answered (r : Reply)
  | failed (e : NodeError)

structure Delivery where
  sender : NodeId
  target : NodeId
  arrival : Arrival
  lost : Bool
  outcome : Option (Except NodeError (List Outbound))

namespace World

variable {σ μ : Type}

def moment (w : World σ μ) : Moment := ⟨w.now, 0⟩

def member? (w : World σ μ) (id : NodeId) : Option (Member σ μ) := w.members.find? fun p => p.id = id

def setMember (w : World σ μ) (p : Member σ μ) : World σ μ :=
  { w with members := w.members.map fun q => if q.id = p.id then p else q }

def act (w : World σ μ) (id : NodeId) (step : NodeAction σ μ α) :
    Except Absence (Except (Fault NodeError) α × World σ μ) :=
  match w.member? id with
  | none => .error .unknown
  | some p =>
    match p.life with
    | .down _ => .error .down
    | .up n =>
      match step n with
      | .ok a n => .ok (.ok a, w.setMember { p with life := .up n })
      | .error e n => .ok (.error e, w.setMember { p with life := .up n })

def enqueue (w : World σ μ) (sender : NodeId) (messages : List Outbound) : World σ μ :=
  { w with queue := w.queue ++ messages.map fun m => (sender, m) }

def actAndSend (w : World σ μ) (id : NodeId) (step : NodeAction σ μ (List Outbound)) :
    Except Absence (Except (Fault NodeError) (List Outbound) × World σ μ) := do
  let (result, w) ← w.act id step
  match result with
  | .ok messages => .ok (result, w.enqueue id messages)
  | .error _ => .ok (result, w)

variable [LogStore σ] [StateMachine μ]

def boot (w : World σ μ) (id : NodeId) : Except Absence (Except (Fault NodeError) Unit × World σ μ) :=
  match w.member? id with
  | none => .error .unknown
  | some p =>
    let (result, p) := p.boot w.moment
    .ok (result, w.setMember p)

/-- The request reaches its target, unless that is unknown, down or cut off. -/
def arrive (w : World σ μ) (sender : NodeId) (message : Outbound) :
    Except (Fault NodeError) (Arrival × World σ μ) :=
  if !w.network.connected sender message.target then .ok (.unreachable, w)
  else
    match w.act message.target (Node.onRequest w.moment message.request) with
    | .error _ => .ok (.unreachable, w)
    | .ok (.ok reply, w) => .ok (.answered reply, w)
    | .ok (.error (.error e), w) => .ok (.failed e, w)
    | .ok (.error .abort, _) => .error .abort

/-- Hands a message over and tells its sender, if that is up, how it went. -/
def deliver (w : World σ μ) (sender : NodeId) (message : Outbound) (loseReply : Bool) :
    Except (Fault NodeError) (Delivery × World σ μ) := do
  let (arrival, w) ← w.arrive sender message
  let answer := match arrival with
    | .answered reply => if loseReply then none else message.response? reply
    | _ => none
  let d : Delivery := { sender, target := message.target, arrival, lost := false, outcome := none }
  match w.actAndSend sender (Node.onResponse w.moment (answer.getD message.lost)) with
  | .error _ => .ok (d, w)
  | .ok (.error .abort, _) => .error .abort
  | .ok (.ok messages, w) =>
    let lost := match arrival with
      | .answered _ => loseReply
      | _ => false
    .ok ({ d with lost, outcome := answer.map fun _ => .ok messages }, w)
  | .ok (.error (.error e), w) => .ok ({ d with outcome := some (.error e) }, w)

/-- Delivers the message at a position of the queue, which stays there too if it is duplicated; `none` when
there is no such message. -/
def deliverAt (w : World σ μ) (i : Nat) (loseReply duplicate : Bool) :
    Except (Fault NodeError) (Option (Delivery × World σ μ)) :=
  match w.queue[i]? with
  | none => .ok none
  | some (sender, message) =>
    let w := if duplicate then w else { w with queue := w.queue.eraseIdx i }
    (w.deliver sender message loseReply).map some

/-- Delivers the oldest message so many times, as long as there is one. -/
def deliverAll : Nat → World σ μ → Except (Fault NodeError) (List Delivery × World σ μ)
  | 0, w => .ok ([], w)
  | most + 1, w => do
    match ← w.deliverAt 0 false false with
    | none => .ok ([], w)
    | some (d, w) =>
      let (ds, w) ← deliverAll most w
      .ok (d :: ds, w)

end World

end RaftNode
