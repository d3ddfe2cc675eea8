import RaftNode.Machine.KeyValue
import RaftNode.Machine.Journal
/-!
# A machine of either kind
-/
namespace RaftNode

inductive AnyMachine where
  | keyValue (m : KeyValue)
  | journal (m : Journal)
  deriving DecidableEq, Repr

instance : StateMachine AnyMachine where
  validate
    | .keyValue m => StateMachine.validate m
    | .journal m => StateMachine.validate m
  apply
    | .keyValue m, index, command =>
      let (out, m) := StateMachine.apply m index command
      (out, .keyValue m)
    | .journal m, index, command =>
      let (out, m) := StateMachine.apply m index command
      (out, .journal m)
  snapshot
    | .keyValue m => StateMachine.snapshot m
    | .journal m => StateMachine.snapshot m
  restore
    | .keyValue m, data => (StateMachine.restore m data).map .keyValue
    | .journal m, data => (StateMachine.restore m data).map .journal

end RaftNode
