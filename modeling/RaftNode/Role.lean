import RaftNode.Entry
/-!
# Roles and reports

A follower never becomes leader without standing as candidate, and a leader leaves office only by stepping
down to follower. A node reports its role among the other things that it shows of itself.
-/
namespace RaftNode

inductive RoleKind where
  | follower
  | candidate
  | leader
  deriving DecidableEq, Repr

namespace RoleKind

def all : List RoleKind := [.follower, .candidate, .leader]

/-- The name used in reports and records. -/
def name : RoleKind → String
  | .follower => "Follower"
  | .candidate => "Candidate"
  | .leader => "Leader"

/-- The name used in running text. -/
def word : RoleKind → String
  | .follower => "follower"
  | .candidate => "candidate"
  | .leader => "leader"

def ofName? (s : String) : Option RoleKind := all.find? fun k => k.name = s

/-- The transition table. -/
def mayBecome : RoleKind → RoleKind → Bool
  | _, .follower => true
  | .follower, .candidate => true
  | .candidate, .candidate => true
  | .candidate, .leader => true
  | _, _ => false

end RoleKind

/-- What a node shows of itself. -/
structure Status where
  id : NodeId
  role : RoleKind
  term : Term
  vote : Option NodeId
  leader : Option NodeId
  commitIndex : Index
  lastApplied : Index
  lastIndex : Index
  snapshotIndex : Index
  running : Bool
  /-- The fatal error that stopped the node. -/
  halted : Option String
  deriving DecidableEq, Repr

end RaftNode
