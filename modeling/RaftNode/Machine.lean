import RaftNode.Entry
/-!
# State machines

The application that a cluster coordinates. Commands reach it in index order; an entry may be delivered again,
and applying an index a second time must change nothing.
-/
namespace RaftNode

/-- Output of a command, or the text of the error it ended with. -/
abbrev Output := Except String Bytes

class StateMachine (μ : Type) where
  /-- A command that is refused here is never put into a log. -/
  validate : μ → Bytes → Except String Unit
  apply : μ → Index → Bytes → Output × μ
  snapshot : μ → Bytes
  /-- The machine a snapshot describes, whatever the present one holds. -/
  restore : μ → Bytes → Except String μ

namespace StateMachine

variable {μ : Type} [StateMachine μ]

/-- Entries applied in order: the machine afterwards and the outputs, the latest last. Entries without a
command are passed over. -/
def applyAll (m : μ) : List Entry → List Output × μ
  | [] => ([], m)
  | e :: rest =>
    if e.isNoop then applyAll m rest
    else
      let (out, m) := StateMachine.apply m e.index e.command
      let (outs, m) := applyAll m rest
      (out :: outs, m)

end StateMachine

end RaftNode
