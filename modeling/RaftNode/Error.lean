import RaftNode.Entry
/-!
# Errors

An operation that fails says why. Some causes are ordinary answers of the protocol; the fatal ones stop the
node, because going on could acknowledge what is not stored. Apart from both stands an abort: arithmetic left
the 64-bit range or an assertion did not hold.
-/
namespace RaftNode

inductive StoreError where
  | io (reason : String)
  | corruption (reason : String)
  | snapshotCorruption (reason : String)
  deriving DecidableEq, Repr

def StoreError.name : StoreError → String
  | .io _ => "Io"
  | .corruption _ => "Corruption"
  | .snapshotCorruption _ => "SnapshotCorruption"

def StoreError.message : StoreError → String
  | .io reason => "I/O error: " ++ reason
  | .corruption reason => "data corruption: " ++ reason
  | .snapshotCorruption reason => "snapshot corruption: " ++ reason

inductive NodeError where
  | staleTerm (received current : Term)
  | logConflict (index matchHint : Index)
  | durability (reason : String)
  | quorumUnreachable
  | snapshotCorruption (reason : String)
  | committedConflict (index commitIndex : Index)
  | notLeader (hint : Option NodeId)
  | emptyCommand
  | leadershipLost (index : Index)
  | machine (reason : String)
  | identity (reason : String)
  | stopped
  deriving DecidableEq, Repr, Inhabited

namespace NodeError

def name : NodeError → String
  | staleTerm .. => "StaleTerm"
  | logConflict .. => "LogConflict"
  | durability _ => "DurabilityFailure"
  | quorumUnreachable => "QuorumUnreachable"
  | snapshotCorruption _ => "SnapshotCorruption"
  | committedConflict .. => "CommittedEntryConflict"
  | notLeader _ => "NotLeader"
  | emptyCommand => "EmptyCommand"
  | leadershipLost _ => "LeadershipLost"
  | machine _ => "StateMachine"
  | identity _ => "Identity"
  | stopped => "NodeStopped"

def message : NodeError → String
  | staleTerm received current => s!"stale term {received} (current term is {current})"
  | logConflict index matchHint => s!"log conflict at index {index}; follower matches up to {matchHint}"
  | durability reason => "durability failure: " ++ reason
  | quorumUnreachable => "quorum unreachable"
  | snapshotCorruption reason => "snapshot corruption: " ++ reason
  | committedConflict index commitIndex =>
    s!"refusing to truncate committed entry {index} (commit index {commitIndex})"
  | notLeader _ => "not the leader"
  | emptyCommand => "empty command"
  | leadershipLost index => s!"leadership lost before entry {index} was applied"
  | machine reason => "state machine error: " ++ reason
  | identity reason => "identity error: " ++ reason
  | stopped => "node stopped"

/-- Fatal errors stop the node. -/
def isFatal : NodeError → Bool
  | durability _ | snapshotCorruption _ | committedConflict .. | identity _ => true
  | _ => false

end NodeError

/-- A damaged snapshot stays one; every other failure of the store is a failure to keep data. -/
def StoreError.toNodeError : StoreError → NodeError
  | .snapshotCorruption reason => .snapshotCorruption reason
  | e => .durability e.message

inductive CallError where
  | connectionFailed (node : NodeId)
  | timeout (node : NodeId)
  | unknownNode (node : NodeId)
  | remote (node : NodeId) (reason : String)
  deriving DecidableEq, Repr

namespace CallError

def name : CallError → String
  | connectionFailed _ => "ConnectionFailed"
  | timeout _ => "Timeout"
  | unknownNode _ => "NodeNotFound"
  | remote .. => "Remote"

def message : CallError → String
  | connectionFailed node => s!"connection to node {node} failed"
  | timeout node => s!"request to node {node} timed out"
  | unknownNode node => s!"node {node} is not part of the cluster"
  | remote node reason => s!"node {node} failed the request: {reason}"

end CallError

/-- How an operation ends early: with an error it reports, or by abort. -/
inductive Fault (ε : Type) where
  | error (e : ε)
  | abort
  deriving DecidableEq, Repr

def Fault.map (f : ε → ε') : Fault ε → Fault ε'
  | .error e => .error (f e)
  | .abort => .abort

/-- A step on a state: it leaves a state also when it ends early. -/
abbrev Action (ε σ α : Type) := EStateM (Fault ε) σ α

namespace Action

def fail (e : ε) : Action ε σ α := throw (.error e)

def abort : Action ε σ α := throw .abort

/-- An assertion: abort unless the condition holds. -/
def require (p : Prop) [Decidable p] : Action ε σ Unit := if p then pure () else abort

/-- A sum that must fit in 64 bits. -/
def add (a b : Nat) : Action ε σ Nat := if a + b < wordLimit then pure (a + b) else abort

def sub (a b : Nat) : Action ε σ Nat := if b ≤ a then pure (a - b) else abort

def within (get : σ → τ) (set : τ → σ → σ) (onError : ε → ε') (step : Action ε τ α) : Action ε' σ α :=
  fun s =>
    match step (get s) with
    | .ok a t => .ok a (set t s)
    | .error e t => .error (e.map onError) (set t s)

end Action

end RaftNode
