import RaftNode.Entry
/-!
# Links between nodes

Every node can reach every other until it is isolated or a partition blocks the link. A link has a direction.
-/
namespace RaftNode

structure Network where
  /-- Nodes that are cut off from all others. -/
  isolated : List NodeId := []
  /-- Links that carry nothing, from the first to the second. -/
  blocked : List (NodeId × NodeId) := []
  deriving DecidableEq, Repr

namespace Network

def connected (n : Network) (a b : NodeId) : Bool :=
  !n.isolated.contains a && !n.isolated.contains b && !n.blocked.contains (a, b)

def isolate (n : Network) (a : NodeId) : Network := { n with isolated := a :: n.isolated }

def partition (n : Network) (as bs : List NodeId) : Network :=
  { n with blocked := (as.flatMap fun a => bs.flatMap fun b => [(a, b), (b, a)]) ++ n.blocked }

def heal (n : Network) (a : NodeId) : Network where
  isolated := n.isolated.filter fun b => b ≠ a
  blocked := n.blocked.filter fun l => l.1 ≠ a && l.2 ≠ a

end Network

inductive Absence where
  | unknown
  | down
  deriving DecidableEq, Repr

end RaftNode
