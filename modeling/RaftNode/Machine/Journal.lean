import RaftNode.Machine
import RaftNode.Wire
/-!
# Journal machine

It takes every command and keeps the texts of those applied, in order.
-/
namespace RaftNode

structure Journal where
  lastIndex : Index := 0
  applied : List String := []
  deriving DecidableEq, Repr

def Journal.apply (m : Journal) (index : Index) (command : Bytes) : Journal :=
  if index ≤ m.lastIndex then m
  else { lastIndex := index, applied := m.applied ++ [Utf8.decodeLossy command] }

open Json in
instance : Wire Journal where
  toJson m := record [("last_index", .natural m.lastIndex), ("applied", list (m.applied.map .string))]
  ofJson v := do
    let applied : Decoder (List String) := decodeList decodeString
    let fs ← fields [.of "last_index" decodeWord, .of "applied" applied] v
    return { lastIndex := ← fs.need "last_index" decodeWord, applied := ← fs.need "applied" applied }

instance : StateMachine Journal where
  validate _ _ := .ok ()
  apply m index command := (.ok [], m.apply index command)
  snapshot := Wire.encode
  restore _ data :=
    match Wire.decode data with
    | .ok m => .ok m
    | .error e => .error ("test state machine restore failed: " ++ e.message)

end RaftNode
