import RaftNode.Bytes
/-!
# Protocol settings
-/
namespace RaftNode

/-- When something happens, and the draw it makes if it starts a new election timeout. -/
structure Moment where
  now : Nat := 0
  draw : Nat := 0
  deriving DecidableEq, Repr

/-- Times in milliseconds. -/
structure Config where
  heartbeat : Nat := 150
  electionMin : Nat := 300
  electionMax : Nat := 500
  /-- Applied entries between automatic snapshots; none are taken at 0. -/
  snapshotThreshold : Nat := 1000
  maxEntries : Nat := 64
  rpcTimeout : Nat := 250
  deriving DecidableEq, Repr

namespace Config

/-- A timeout between the two bounds, or the lower one if they leave no choice. -/
def electionTimeout (c : Config) (draw : Nat) : Nat :=
  if c.electionMax ≤ c.electionMin then c.electionMin
  else c.electionMin + draw % (c.electionMax - c.electionMin + 1)

def deadline (c : Config) (m : Moment) : Nat := m.now + c.electionTimeout m.draw

end Config

end RaftNode
