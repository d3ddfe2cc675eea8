import RaftNode.Entry
/-!
# Messages between nodes

Each request has its own reply. What a leader remembers of an append it sent is enough to tell which entries
the reply acknowledges.
-/
namespace RaftNode

structure VoteRequest where
  term : Term
  candidate : NodeId
  lastIndex : Index
  lastTerm : Term
  deriving DecidableEq, Repr

structure VoteReply where
  term : Term
  granted : Bool
  deriving DecidableEq, Repr

structure AppendRequest where
  term : Term
  leader : NodeId
  prevIndex : Index
  prevTerm : Term
  entries : List Entry
  commit : Index
  deriving DecidableEq, Repr

structure AppendReply where
  term : Term
  success : Bool
  /-- After a refusal, the highest index at which the follower may agree with the leader. -/
  matchHint : Option Index := none
  deriving DecidableEq, Repr

structure InstallRequest where
  term : Term
  leader : NodeId
  index : Index
  snapshotTerm : Term
  data : Bytes
  deriving DecidableEq, Repr

structure InstallReply where
  term : Term
  deriving DecidableEq, Repr

inductive Request where
  | vote (r : VoteRequest)
  | append (r : AppendRequest)
  | install (r : InstallRequest)
  deriving DecidableEq, Repr

def Request.term : Request → Term
  | .vote r => r.term
  | .append r => r.term
  | .install r => r.term

inductive Reply where
  | vote (r : VoteReply)
  | append (r : AppendReply)
  | install (r : InstallReply)
  deriving DecidableEq, Repr

structure Outbound where
  target : NodeId
  request : Request
  deriving DecidableEq, Repr

/-- The entries an append carried: those after `prevIndex`, `count` of them. -/
structure AppendSent where
  term : Term
  prevIndex : Index
  count : Nat
  deriving DecidableEq, Repr

def AppendRequest.sent (r : AppendRequest) : AppendSent := ⟨r.term, r.prevIndex, r.entries.length⟩

/-- What a node can be told about a message it sent. -/
inductive Response where
  | vote (peer : NodeId) (sentTerm : Term) (reply : VoteReply)
  | append (peer : NodeId) (sent : AppendSent) (reply : AppendReply)
  | install (peer : NodeId) (sentTerm : Term) (index : Index) (reply : InstallReply)
  | unreachable (peer : NodeId) (sentTerm : Term)
  deriving DecidableEq, Repr

/-- What the sender learns when a reply to its message arrives; a reply of another kind tells nothing. -/
def Outbound.response? (m : Outbound) : Reply → Option Response
  | .vote r => match m.request with
    | .vote q => some (.vote m.target q.term r)
    | _ => none
  | .append r => match m.request with
    | .append q => some (.append m.target q.sent r)
    | _ => none
  | .install r => match m.request with
    | .install q => some (.install m.target q.term q.index r)
    | _ => none

/-- What the sender learns when its message gets no reply. -/
def Outbound.lost (m : Outbound) : Response := .unreachable m.target m.request.term

end RaftNode
