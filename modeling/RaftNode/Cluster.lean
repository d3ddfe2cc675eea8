import RaftNode.Http
import RaftNode.Network
import RaftNode.Server
/-!
# Loops over one network

The members of a cluster, each with its loop, over a network that takes no time. Time passes only from one timer
to the next: at each instant everything that can happen does, in the order in which it became possible. Some
peers have no loop; their requests lie in an inbox until someone answers for them.
-/
namespace RaftNode

inductive HostState (σ μ : Type) where
  /-- A loop runs here or ended here. -/
  | up (s : Server σ μ)
  /-- Nothing runs; the last machine can still be looked at. -/
  | down (store : σ) (machine : μ)

structure Host (σ μ : Type) where
  id : NodeId
  peers : List NodeId
  config : Config
  /-- The machine of a node that boots. -/
  fresh : μ
  state : HostState σ μ
  /-- Tells the present loop from those before it. -/
  generation : Nat := 0

namespace Host

variable {σ μ : Type}

def server? (h : Host σ μ) : Option (Server σ μ) :=
  match h.state with
  | .up s => some s
  | .down _ _ => none

def store (h : Host σ μ) : σ :=
  match h.state with
  | .up s => s.node.log.store
  | .down s _ => s

def machine (h : Host σ μ) : μ :=
  match h.state with
  | .up s => s.node.machine
  | .down _ m => m

/-- Changes what the store holds behind the node's back. -/
def setStore (h : Host σ μ) (store : σ) : Host σ μ :=
  match h.state with
  | .up s => { h with state := .up { s with node := { s.node with log := { s.node.log with store } } } }
  | .down _ m => { h with state := .down store m }

end Host

inductive Asker where
  /-- A loop, for a message its node sent. -/
  | loop (id : NodeId) (generation : Nat) (message : Outbound)
  /-- A client on the network, under the name of a node. -/
  | caller (source target : NodeId)
  /-- A client that talks to a loop itself. -/
  | client

/-- A question without an answer so far. After its deadline nobody waits for one. -/
structure Question where
  ticket : Ticket
  asker : Asker
  deadline : Option Nat

inductive Outcome where
  | call (r : Except CallError Reply)
  | answer (a : Answer)

/-- An event on its way to a loop of a generation. -/
structure Job where
  host : NodeId
  generation : Nat
  event : Event

/-- Requests for a peer without a loop, the oldest first. -/
structure Inbox where
  owner : NodeId
  requests : List (Ticket × Request) := []

structure Cluster (σ μ : Type) where
  hosts : List (Host σ μ)
  inboxes : List Inbox := []
  now : Nat := 0
  network : Network := {}
  jobs : List Job := []
  questions : List Question := []
  outcomes : List (Ticket × Outcome) := []
  nextTicket : Ticket := 0

namespace Cluster

variable {σ μ : Type}

def moment (c : Cluster σ μ) : Moment := ⟨c.now, 0⟩

def host? (c : Cluster σ μ) (id : NodeId) : Option (Host σ μ) := c.hosts.find? fun h => h.id = id

def setHost (c : Cluster σ μ) (h : Host σ μ) : Cluster σ μ :=
  { c with hosts := c.hosts.map fun g => if g.id = h.id then h else g }

def inbox? (c : Cluster σ μ) (id : NodeId) : Option Inbox := c.inboxes.find? fun b => b.owner = id

def setInbox (c : Cluster σ μ) (b : Inbox) : Cluster σ μ :=
  { c with inboxes := c.inboxes.map fun a => if a.owner = b.owner then b else a }

/-- The published status of every member, `none` for one that is down. -/
def statuses (c : Cluster σ μ) : List (NodeId × Option Status) :=
  c.hosts.map fun h => (h.id, h.server?.map Server.published)

def outcome? (c : Cluster σ μ) (t : Ticket) : Option Outcome :=
  (c.outcomes.find? fun o => o.1 = t).map fun o => o.2

def forget (c : Cluster σ μ) (t : Ticket) : Cluster σ μ :=
  { c with outcomes := c.outcomes.filter fun o => o.1 ≠ t }

def post (c : Cluster σ μ) (host : NodeId) (generation : Nat) (e : Event) : Cluster σ μ :=
  { c with jobs := c.jobs ++ [⟨host, generation, e⟩] }

def record (c : Cluster σ μ) (t : Ticket) (o : Outcome) : Cluster σ μ :=
  { c with outcomes := c.outcomes ++ [(t, o)] }

/-! ## Questions and answers -/

def conclude (c : Cluster σ μ) (q : Question) (r : Except CallError Reply) : Cluster σ μ :=
  match q.asker with
  | .loop id generation message =>
    let response := match r with
      | .ok reply => (message.response? reply).getD message.lost
      | .error _ => message.lost
    c.post id generation (.response response)
  | _ => c.record q.ticket (.call r)

/-- What a reply is worth to a caller at the other end of a link. It is lost if the link broke meanwhile. -/
def received (c : Cluster σ μ) (source target : NodeId) (r : Except NodeError Reply) :
    Except CallError Reply :=
  if !c.network.connected target source then .error (.connectionFailed target)
  else
    match r with
    | .ok reply => .ok reply
    | .error .stopped => .error (.connectionFailed target)
    | .error e => .error (.remote target e.message)

def resolve (c : Cluster σ μ) (t : Ticket) (a : Answer) : Cluster σ μ :=
  match c.questions.find? fun q => q.ticket = t with
  | none => c
  | some q =>
    let c := { c with questions := c.questions.filter fun q => q.ticket ≠ t }
    match q.asker, a with
    | .loop id _ message, .reply r => c.conclude q (c.received id message.target r)
    | .caller source target, .reply r => c.conclude q (c.received source target r)
    | _, _ => c.record t (.answer a)

def giveUp (c : Cluster σ μ) (q : Question) : Cluster σ μ :=
  match q.asker with
  | .loop _ _ message => c.conclude q (.error (.timeout message.target))
  | .caller _ target => c.conclude q (.error (.timeout target))
  | .client => c.record q.ticket (.answer (.output (.error .quorumUnreachable)))

def send (c : Cluster σ μ) (asker : Asker) (source target : NodeId) (timeout : Nat) (request : Request) :
    Ticket × Cluster σ μ :=
  let q : Question := { ticket := c.nextTicket, asker, deadline := some (c.now + timeout) }
  let c := { c with nextTicket := c.nextTicket + 1 }
  let waiting := { c with questions := c.questions ++ [q] }
  let c :=
    if !c.network.connected source target then c.conclude q (.error (.connectionFailed target))
    else
      match c.inbox? target, c.host? target with
      | some b, _ => waiting.setInbox { b with requests := b.requests ++ [(q.ticket, request)] }
      | none, some h =>
        match h.state with
        | .up _ => waiting.post target h.generation (.request q.ticket request)
        | .down _ _ => c.conclude q (.error (.unknownNode target))
      | none, none => c.conclude q (.error (.unknownNode target))
  (q.ticket, c)

def carryOut (id : NodeId) (generation timeout : Nat) (c : Cluster σ μ) : Effect → Cluster σ μ
  | .send m => (c.send (.loop id generation m) id m.target timeout m.request).2
  | .answer t a => c.resolve t a

/-! ## Time -/

variable [LogStore σ] [StateMachine μ]

def feed (c : Cluster σ μ) (h : Host σ μ) (s : Server σ μ) (e : Event) : Cluster σ μ :=
  let s := s.receive c.moment e
  s.effects.foldl (carryOut h.id h.generation h.config.rpcTimeout)
    (c.setHost { h with state := .up { s with effects := [] } })

/-- An event arrives, or finds its loop gone. -/
def work (c : Cluster σ μ) (j : Job) : Cluster σ μ :=
  let refused := j.event.refusal.foldl (carryOut j.host j.generation 0) c
  match c.host? j.host with
  | none => refused
  | some h =>
    match h.state with
    | .up s => if h.generation = j.generation then c.feed h s j.event else refused
    | .down _ _ => refused

omit [LogStore σ] [StateMachine μ] in
def expire (c : Cluster σ μ) : Cluster σ μ :=
  let isOver (q : Question) : Bool := q.deadline.any fun d => d ≤ c.now
  (c.questions.filter isOver).foldl giveUp { c with questions := c.questions.filter fun q => !isOver q }

omit [LogStore σ] [StateMachine μ] in
def dueTimer? (c : Cluster σ μ) : Option Job :=
  c.hosts.findSome? fun h => do
    let s ← h.server?
    let t ← s.nextTimer
    if t ≤ c.now then some ⟨h.id, h.generation, s.timerEvent⟩ else none

/-- Lets everything happen that can happen now, in at most so many steps. A loop whose timer is due looks at it
before anything that is still on its way. -/
def settleWithin : Nat → Cluster σ μ → Cluster σ μ
  | 0, c => c
  | fuel + 1, c =>
    match c.dueTimer?, c.jobs with
    | some j, _ => settleWithin fuel (c.work j)
    | none, j :: rest => settleWithin fuel ({ c with jobs := rest }.work j)
    | none, [] => c

/-- More steps than one instant ever takes. -/
def stepsOfInstant : Nat := 100000

def settle (c : Cluster σ μ) : Cluster σ μ := settleWithin stepsOfInstant c.expire

omit [LogStore σ] [StateMachine μ] in
def nextInstant? (c : Cluster σ μ) : Option Nat :=
  (c.hosts.filterMap (fun h => h.server?.bind Server.nextTimer) ++ c.questions.filterMap Question.deadline).min?

/-- Lets time pass from `t` on, until a condition holds or `limit` is reached. -/
def passFrom (t limit : Nat) (stop : Cluster σ μ → Bool) (c : Cluster σ μ) : Cluster σ μ :=
  if stop c then c
  else
    let next := max (t + 1) (c.nextInstant?.getD (limit + 1))
    if next ≤ limit then passFrom next limit stop { c with now := next }.settle
    else { c with now := max t limit }
termination_by limit - t

def passUntil (limit : Nat) (stop : Cluster σ μ → Bool) (c : Cluster σ μ) : Cluster σ μ :=
  passFrom c.now limit stop c

def sleep (ms : Nat) (c : Cluster σ μ) : Cluster σ μ := c.passUntil (c.now + ms) fun _ => false

/-! ## What clients and operators do -/

def call (c : Cluster σ μ) (source target : NodeId) (timeout : Nat) (request : Request) :
    Ticket × Cluster σ μ :=
  let (t, c) := c.send (.caller source target) source target timeout request
  (t, c.settle)

/-- A question to a loop; the client waits for so long, or for ever. -/
def ask (c : Cluster σ μ) (id : NodeId) (timeout : Option Nat) (event : Ticket → Event) :
    Except Absence (Ticket × Cluster σ μ) :=
  match c.host? id with
  | none => .error .unknown
  | some h =>
    match h.state with
    | .down _ _ => .error .down
    | .up s =>
      let t := c.nextTicket
      let q : Question := { ticket := t, asker := .client, deadline := timeout.map fun ms => c.now + ms }
      let c := { c with nextTicket := t + 1 }
      -- one who does not wait is gone before the loop looks at the question
      let c := if s.running && timeout = some 0 then c.giveUp q else { c with questions := c.questions ++ [q] }
      .ok (t, (c.feed h s (event t)).settle)

/-- Waits for the outcome of a question, which is then forgotten. -/
def await (c : Cluster σ μ) (t : Ticket) : Option Outcome × Cluster σ μ :=
  let deadline := (c.questions.find? fun q => q.ticket = t).bind Question.deadline
  let c := c.passUntil (deadline.getD c.now) fun c => (c.outcome? t).isSome
  (c.outcome? t, c.forget t)

/-- Waits until a member shows a status with a property, or its loop has ended. -/
def awaitStatus (c : Cluster σ μ) (id : NodeId) (timeout : Nat) (p : Status → Bool) :
    Option Status × Cluster σ μ :=
  let shown (c : Cluster σ μ) : Option (Server σ μ) := (c.host? id).bind Host.server?
  let c := c.passUntil (c.now + timeout) fun c =>
    match shown c with
    | some s => p s.published || !s.running
    | none => true
  (((shown c).map Server.published).filter p, c)

def shutdown (c : Cluster σ μ) (id : NodeId) : Except Absence (Cluster σ μ) :=
  match c.host? id with
  | none => .error .unknown
  | some h =>
    match h.state with
    | .down _ _ => .error .down
    | .up s => .ok (c.feed h s .shutdown).settle

/-- Ends a loop, if there is one, and takes its node off the network. -/
def crash (c : Cluster σ μ) (id : NodeId) : Cluster σ μ :=
  match c.shutdown id with
  | .error _ => c
  | .ok c =>
    match c.host? id with
    | none => c
    | some h => (c.setHost { h with state := .down h.store h.machine }).settle

def boot (c : Cluster σ μ) (h : Host σ μ) : Except (Fault NodeError) Unit × Cluster σ μ :=
  match Node.boot h.id h.peers h.fresh h.config c.moment h.store with
  | .ok n _ =>
    let h := { h with state := .up (Server.start n c.now), generation := h.generation + 1 }
    (.ok (), (c.setHost h).settle)
  | .error e s => (.error e, c.setHost { h with state := .down s h.fresh })

def restart (c : Cluster σ μ) (id : NodeId) :
    Except Absence (Except (Fault NodeError) Unit × Cluster σ μ) :=
  let c := c.crash id
  match c.host? id with
  | none => .error .unknown
  | some h => .ok (c.boot h)

/-- Answers the oldest request in an inbox. `answer` chooses by the request. -/
def replyFrom (c : Cluster σ μ) (id : NodeId) (answer : Request → Except NodeError Reply) :
    Except Absence (Option Request × Cluster σ μ) :=
  match c.inbox? id with
  | none => .error .unknown
  | some b =>
    match b.requests with
    | [] => .ok (none, c)
    | (t, q) :: rest => .ok (some q, ((c.setInbox { b with requests := rest }).resolve t (.reply (answer q))).settle)

def http (c : Cluster σ μ) (id : NodeId) (r : HttpRequest) : Except Absence (HttpResponse × Cluster σ μ) := do
  match c.host? id |>.map Host.server? with
  | none => .error .unknown
  | some none => .error .down
  | some (some s) =>
    match r.action with
    | .refuse code => .ok (.refused code, c)
    | .showStatus => .ok (.json (Wire.toJson s.published), c)
    | .probeStatus => .ok (.empty, c)
    | .ask q =>
      let (t, c) ← c.ask id none fun t => .request t q
      let (o, c) := c.await t
      match o with
      | some (.answer (.reply a)) => .ok (.ofReply a, c)
      | _ => .ok (.ofReply (.error .stopped), c)

end Cluster

end RaftNode
