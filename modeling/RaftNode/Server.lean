import RaftNode.Node
/-!
# The processing loop

One loop owns the node and takes its events in turn: requests and responses of peers, commands of clients and the
two timers. After each event it applies what is newly committed and settles the proposals that waited for it. A
fatal error ends the loop.
-/
namespace RaftNode

/-- Names a question to the loop and the answer to it. -/
abbrev Ticket := Nat

inductive Event where
  | request (ticket : Ticket) (q : Request)
  | response (r : Response)
  /-- Answered with the index of the new entry. -/
  | propose (ticket : Ticket) (command : Bytes)
  /-- Answered with the output of the command, once it is applied. -/
  | proposeAndWait (ticket : Ticket) (command : Bytes)
  | takeSnapshot (ticket : Ticket)
  | heartbeat
  | electionTimeout
  | shutdown
  deriving DecidableEq, Repr

inductive Answer where
  | reply (r : Except NodeError Reply)
  | index (r : Except NodeError Index)
  | output (r : Except NodeError Bytes)
  | snapshot (r : Except NodeError (Option SnapshotPoint))
  deriving Inhabited

/-- What the loop does to the world outside. -/
inductive Effect where
  | send (message : Outbound)
  | answer (ticket : Ticket) (a : Answer)

/-- The answer to an event that no loop takes. -/
def Event.refusal : Event → List Effect
  | .request t _ => [.answer t (.reply (.error .stopped))]
  | .propose t _ => [.answer t (.index (.error .stopped))]
  | .proposeAndWait t _ => [.answer t (.output (.error .stopped))]
  | .takeSnapshot t => [.answer t (.snapshot (.error .stopped))]
  | _ => []

/-- A proposal whose caller waits until its entry is applied. -/
structure Waiter where
  index : Index
  term : Term
  ticket : Ticket
  deriving DecidableEq, Repr

structure Server (σ μ : Type) where
  node : Node σ μ
  /-- In the order of their indexes. -/
  waiters : List Waiter := []
  running : Bool := true
  /-- What others last saw of the node. -/
  published : Status
  /-- When the next heartbeat is due, if the node leads then. -/
  nextBeat : Nat
  /-- What is still to be done outside, the oldest first. -/
  effects : List Effect := []

abbrev ServerAction (σ μ α : Type) := Action NodeError (Server σ μ) α

namespace Server

variable {σ μ : Type}

/-- A loop over a booted node. A heartbeat without an interval cannot be timed, and the loop ends at once. -/
def start (n : Node σ μ) (now : Nat) : Server σ μ :=
  { node := n, running := 0 < n.config.heartbeat, published := n.status, nextBeat := now }

def emit (effects : List Effect) (s : Server σ μ) : Server σ μ := { s with effects := s.effects ++ effects }

def onNode (step : NodeAction σ μ α) : ServerAction σ μ α :=
  Action.within Server.node (fun n s => { s with node := n }) (fun e => e) step

def send (messages : List Outbound) : ServerAction σ μ Unit :=
  modify (emit (messages.map .send))

def answer (ticket : Ticket) (a : Answer) : ServerAction σ μ Unit :=
  modify (emit [.answer ticket a])

/-- Runs a step for a caller and answers with its result. The loop learns of fatal errors only. -/
def respond (ticket : Ticket) (wrap : Except NodeError α → Answer) (step : ServerAction σ μ α) :
    ServerAction σ μ Unit := fun s =>
  match step s with
  | .ok a s => .ok () (s.emit [.answer ticket (wrap (.ok a))])
  | .error (.error e) s =>
    let s := s.emit [.answer ticket (wrap (.error e))]
    if e.isFatal then .error (.error e) s else .ok () s
  | .error .abort s => .error .abort (s.emit [.answer ticket (wrap (.error .stopped))])

/-- Adds a waiter in its place. One that waited for the same index before is told that nobody will answer it. -/
def wait (w : Waiter) : ServerAction σ μ Unit := do
  let s ← get
  let replaced := s.waiters.filter fun v => v.index = w.index
  let before := s.waiters.filter fun v => v.index < w.index
  let after := s.waiters.filter fun v => w.index < v.index
  let refused := replaced.map fun v => Effect.answer v.ticket (.output (.error .stopped))
  set ({ s with waiters := before ++ w :: after }.emit refused)

def failWaiters (reason : Waiter → NodeError) (s : Server σ μ) : Server σ μ :=
  let failed := s.waiters.map fun w => Effect.answer w.ticket (.output (.error (reason w)))
  { s with waiters := [] }.emit failed

variable [LogStore σ] [StateMachine μ]

/-- Appends a command and sends it to the peers that owe no answer. -/
def propose (m : Moment) (command : Bytes) : ServerAction σ μ Index := do
  let index ← onNode (Node.propose command)
  send (← onNode (Node.replicate m))
  pure index

/-- Like `respond`, but a command that was appended is answered later. -/
def proposeAndWait (m : Moment) (ticket : Ticket) (command : Bytes) : ServerAction σ μ Unit := fun s =>
  match propose m command s with
  | .ok index s => wait { index, term := s.node.term, ticket } s
  | .error (.error e) s =>
    let s := s.emit [.answer ticket (.output (.error e))]
    if e.isFatal then .error (.error e) s else .ok () s
  | .error .abort s => .error .abort (s.emit [.answer ticket (.output (.error .stopped))])

/-- When the heartbeat after one at `now` is due. One that came late puts off those after it. -/
def beatAfter (due now interval : Nat) : Nat := if due + 5 < now then now + interval else due + interval

def handle (m : Moment) : Event → ServerAction σ μ Unit
  | .request ticket q => respond ticket .reply (onNode (Node.onRequest m q))
  | .response r => do send (← onNode (Node.onResponse m r))
  | .propose ticket command => respond ticket .index (propose m command)
  | .proposeAndWait ticket command => proposeAndWait m ticket command
  | .takeSnapshot ticket => respond ticket .snapshot (onNode Node.takeSnapshot)
  | .heartbeat => do
    modify fun s => { s with nextBeat := beatAfter s.nextBeat m.now s.node.config.heartbeat }
    send (← onNode (Node.heartbeat m))
  | .electionTimeout => do send (← onNode (Node.startElection m))
  | .shutdown => pure ()

/-- Answers the caller that waits for an applied entry, if there is one. An entry of another term took the place
of the one proposed. -/
def conclude (a : Applied) : ServerAction σ μ Unit := do
  let s ← get
  match s.waiters.find? fun w => w.index = a.index with
  | none => pure ()
  | some w =>
    set { s with waiters := s.waiters.filter fun v => v.index ≠ a.index }
    answer w.ticket (.output
      (if w.term = a.term then a.output.mapError .machine else .error (.leadershipLost a.index)))

/-- Applies what is newly committed. A node that does not lead has nothing to tell the callers who still wait. -/
def settle : ServerAction σ μ Unit := do
  (← onNode Node.applyCommitted).forM conclude
  if !(← get).node.isLeader then modify (failWaiters fun w => .leadershipLost w.index)

/-! ## The loop -/

omit [LogStore σ] [StateMachine μ] in
def publish (s : Server σ μ) : Server σ μ := { s with published := s.node.status }

omit [LogStore σ] [StateMachine μ] in
/-- Ends the loop, after a fatal error or on request. -/
def halt (cause : Option NodeError) (s : Server σ μ) : Server σ μ :=
  let s := s.failWaiters fun _ => cause.getD .stopped
  { s with running := false,
           published := { s.node.status with running := false, halted := cause.map NodeError.message } }

omit [LogStore σ] [StateMachine μ] in
/-- Ends the loop without a word; what was last published stays. -/
def abandon (s : Server σ μ) : Server σ μ := { s.failWaiters fun _ => .stopped with running := false }

def turn (m : Moment) (e : Event) (s : Server σ μ) : Server σ μ :=
  if e = .shutdown then s.halt none
  else
    match (do handle m e; settle : ServerAction σ μ Unit) s with
    | .ok _ s => s.publish
    | .error (.error e) s => if e.isFatal then s.halt (some e) else s.publish
    | .error .abort s => s.abandon

/-- An event reaches the loop, or finds that it has ended. -/
def receive (m : Moment) (e : Event) (s : Server σ μ) : Server σ μ :=
  if s.running then s.turn m e else s.emit e.refusal

omit [LogStore σ] [StateMachine μ] in
def nextTimer (s : Server σ μ) : Option Nat :=
  if s.running then some (if s.node.isLeader then s.nextBeat else s.node.electionDeadline) else none

omit [LogStore σ] [StateMachine μ] in
def timerEvent (s : Server σ μ) : Event := if s.node.isLeader then .heartbeat else .electionTimeout

end Server

end RaftNode
