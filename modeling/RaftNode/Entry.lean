import RaftNode.Bytes
/-!
# What a node keeps

A log is a run of entries behind a snapshot. The term and the vote are kept apart from it.
-/
namespace RaftNode

abbrev NodeId := Nat
abbrev Term := Nat
/-- Positions in the log; the first entry has index 1 and 0 means "before the log". -/
abbrev Index := Nat

structure Entry where
  index : Index
  term : Term
  command : Bytes
  deriving DecidableEq, Repr, Inhabited

/-- The entry that opens a leader's term carries no command. -/
def Entry.isNoop (e : Entry) : Bool := e.command.isEmpty

/-- The state of the machine after the entry at `index`, which has term `term`. -/
structure Snapshot where
  index : Index
  term : Term
  data : Bytes
  deriving DecidableEq, Repr, Inhabited

structure SnapshotPoint where
  index : Index
  term : Term
  deriving DecidableEq, Repr

def Snapshot.point (s : Snapshot) : SnapshotPoint := ⟨s.index, s.term⟩

/-- The newest term the node knows and the candidate it voted for in it. -/
structure HardState where
  term : Term := 0
  vote : Option NodeId := none
  deriving DecidableEq, Repr, Inhabited

structure Persisted where
  hard : HardState := {}
  snapshot : Option Snapshot := none
  entries : List Entry := []
  deriving DecidableEq, Repr, Inhabited

/-- The least number of members that any two such groups share one of. -/
def majority (members : Nat) : Nat := members / 2 + 1

end RaftNode
