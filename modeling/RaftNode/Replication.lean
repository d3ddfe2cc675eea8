import RaftNode.Log
import RaftNode.Message
/-!
# A leader's view of its peers

For each peer: what to send next, what it is known to store, and since when a request is unanswered. The commit
index follows from what a majority stores. Times are milliseconds.
-/
namespace RaftNode

structure Progress where
  nextIndex : Index
  /-- The highest index known to be stored on the peer. -/
  matchIndex : Index := 0
  /-- When the unanswered request was sent, if there is one. -/
  inFlightSince : Option Nat := none
  /-- When the peer last answered at all. -/
  lastContact : Nat
  deriving DecidableEq, Repr

/-- Whether a request to the peer is unanswered and not yet presumed lost. -/
def Progress.isWaiting (p : Progress) (now lostAfter : Nat) : Bool :=
  match p.inFlightSince with
  | some sent => now - sent < lostAfter
  | none => false

structure Replication where
  /-- Each peer occurs once. -/
  peers : List (NodeId × Progress) := []
  quorumLost : Bool := false
  deriving DecidableEq, Repr

namespace Replication

/-- The view at the start of a leader's term: every peer is presumed to lack nothing. -/
def start (peers : List NodeId) (lastIndex : Index) (now : Nat) : Action NodeError τ Replication := do
  if peers.isEmpty then pure {}
  else
    let nextIndex ← Action.add lastIndex 1
    pure { peers := peers.eraseDups.map fun p => (p, { nextIndex, lastContact := now }) }

def find? (r : Replication) (peer : NodeId) : Option Progress := r.peers.lookup peer

/-- Changes what is known of one peer; an unknown peer is left unknown. -/
def update (r : Replication) (peer : NodeId) (f : Progress → Progress) : Replication :=
  { r with peers := r.peers.map fun q => if q.1 = peer then (q.1, f q.2) else q }

/-- The next request for a peer at `nextIndex`: entries that follow what it is presumed to store, or the
snapshot if they are compacted away. -/
def requestAt [LogStore σ] (nextIndex : Index) (l : Log σ) (term : Term) (leader : NodeId) (most : Nat) :
    Except NodeError Request :=
  if nextIndex ≤ l.snapshotIndex then
    match l.loadSnapshot with
    | .error e => .error e
    | .ok none => .error (.snapshotCorruption (s!"snapshot at index {l.snapshotIndex} is missing from storage"))
    | .ok (some s) => .ok (.install { term, leader, index := s.index, snapshotTerm := s.term, data := s.data })
  else
    let prevIndex := nextIndex - 1
    match l.termAt? prevIndex with
    | none => .error (.durability (s!"no term for index {prevIndex}"))
    | some prevTerm =>
      .ok (.append { term, leader, prevIndex, prevTerm, entries := l.entriesFrom nextIndex most,
                     commit := l.commitIndex })

/-- The next request for a peer, unless it is unknown or still owes an answer. -/
def nextRequest [LogStore σ] (r : Replication) (peer : NodeId) (l : Log σ) (term : Term) (leader : NodeId)
    (most now lostAfter : Nat) : Except NodeError (Option (Outbound × Replication)) :=
  match r.find? peer with
  | none => .ok none
  | some p =>
    if p.isWaiting now lostAfter then .ok none
    else
      match requestAt p.nextIndex l term leader most with
      | .error e => .error e
      | .ok request =>
        .ok (some (⟨peer, request⟩, r.update peer fun p => { p with inFlightSince := some now }))

def confirm (r : Replication) (peer : NodeId) (index : Index) (now : Nat) : Action NodeError τ Replication := do
  match r.find? peer with
  | none => pure r
  | some p =>
    let matchIndex := max p.matchIndex index
    let nextIndex ← Action.add matchIndex 1
    pure (r.update peer fun _ => { nextIndex, matchIndex, inFlightSince := none, lastContact := now })

def lastSent (sent : AppendSent) : Action NodeError τ Index := Action.add sent.prevIndex sent.count

/-- The peer stored everything the append carried. -/
def onAppendSuccess (r : Replication) (peer : NodeId) (sent : AppendSent) (now : Nat) :
    Action NodeError τ Replication := do
  if (r.find? peer).isNone then pure r else r.confirm peer (← lastSent sent) now

/-- The peer's log disagrees before what the append carried: go back to its hint, or else by one. -/
def onAppendReject (r : Replication) (peer : NodeId) (sent : AppendSent) (hint : Option Index) (now : Nat) :
    Action NodeError τ Replication := do
  match r.find? peer with
  | none => pure r
  | some p =>
    let proposed ← match hint with
      | some h => Action.add h 1
      | none => pure sent.prevIndex
    let least ← Action.add p.matchIndex 1
    pure (r.update peer fun p =>
      { p with nextIndex := max proposed (max least 1), inFlightSince := none, lastContact := now })

/-- The peer stored a snapshot up to an index. -/
def onInstalled (r : Replication) (peer : NodeId) (index : Index) (now : Nat) :
    Action NodeError τ Replication := r.confirm peer index now

/-- A request got no answer; the next round may send another. -/
def onUnreachable (r : Replication) (peer : NodeId) : Replication :=
  r.update peer fun p => { p with inFlightSince := none }

/-- The highest index that a majority of the cluster stores, the leader included. -/
def majorityMatch (r : Replication) (leaderLast : Index) : Index :=
  let matched := (leaderLast :: r.peers.map fun p => p.2.matchIndex).mergeSort fun a b => b ≤ a
  matched.getD (majority matched.length - 1) 0

/-- Whether a majority, the leader included, has answered within a window. -/
def quorumActive (r : Replication) (now window : Nat) : Bool :=
  let recent := r.peers.countP fun p => now - p.2.lastContact ≤ window
  majority (r.peers.length + 1) ≤ recent + 1

/-- Notes whether the quorum is lost; the error is raised only when it is lost anew. -/
def checkQuorum (r : Replication) (now window : Nat) : Except NodeError Unit × Replication :=
  let active := r.quorumActive now window
  let result := if !active && !r.quorumLost then .error .quorumUnreachable else .ok ()
  (result, { r with quorumLost := !active })

end Replication

end RaftNode
