import RaftNode.Machine
import RaftNode.Wire
/-!
# Key-value machine

Commands are texts: `SET key value`, where the value may hold spaces, and `DELETE key`, which fails when the
key is absent. Reads bypass the log.
-/
namespace RaftNode

/-- A table of texts, sorted by key, each key once. -/
abbrev Table := List (String × String)

namespace Table

def insert (key value : String) : Table → Table
  | [] => [(key, value)]
  | (k, v) :: rest =>
    if key = k then (key, value) :: rest
    else if key < k then (key, value) :: (k, v) :: rest
    else (k, v) :: insert key value rest

def erase (key : String) (t : Table) : Table := t.filter fun m => m.1 ≠ key

def find? (t : Table) (key : String) : Option String := List.lookup key t

/-- The table in which the last of several members with one key stands. -/
def ofMembers (ms : List (String × String)) : Table := ms.foldl (fun t m => insert m.1 m.2 t) []

end Table

namespace KeyValue

inductive Command where
  | set (key value : String)
  | delete (key : String)
  deriving DecidableEq, Repr

inductive CommandError where
  | notText
  | unknown (text : String)
  | notFound
  deriving DecidableEq, Repr

def CommandError.message : CommandError → String
  | .notText => "command is not UTF-8"
  | .unknown text => "unknown command: " ++ text
  | .notFound => "NOT_FOUND"

/-- The characters before the first space, and those after it if there is one. -/
def word (cs : List Char) : List Char × Option (List Char) :=
  match cs.dropWhile (· ≠ ' ') with
  | [] => (cs, none)
  | _ :: rest => (cs.takeWhile (· ≠ ' '), some rest)

/-- The command a text spells; its first word is the verb. -/
def Command.ofText? (cs : List Char) : Option Command :=
  match word cs with
  | (verb, some rest) =>
    match word rest with
    | (key, some value) =>
      if verb = ['S', 'E', 'T'] then some (.set (String.ofList key) (String.ofList value)) else none
    | (key, none) =>
      if verb = ['D', 'E', 'L', 'E', 'T', 'E'] then some (.delete (String.ofList key)) else none
  | (_, none) => none

def Command.parse (command : Bytes) : Except CommandError Command :=
  match Utf8.decode? command with
  | none => .error .notText
  | some text =>
    match Command.ofText? text.toList with
    | some c => .ok c
    | none => .error (.unknown text)

end KeyValue

/-- The table, and the highest index applied to it. -/
structure KeyValue where
  table : Table := []
  lastApplied : Index := 0
  deriving DecidableEq, Repr

namespace KeyValue

def get? (m : KeyValue) (key : String) : Option String := m.table.find? key

/-- The effect of a command on the table. -/
def Command.run (c : Command) (t : Table) : Except CommandError Bytes × Table :=
  match c with
  | .set key value => (.ok [], t.insert key value)
  | .delete key => if (t.find? key).isSome then (.ok [], t.erase key) else (.error .notFound, t)

/-- An index at or below the highest one applied is passed over; any other counts as applied whatever its
command does. -/
def apply (m : KeyValue) (index : Index) (command : Bytes) : Except CommandError Bytes × KeyValue :=
  if index ≤ m.lastApplied then (.ok [], m)
  else
    match Command.parse command with
    | .error e => (.error e, { m with lastApplied := index })
    | .ok c =>
      let (out, table) := c.run m.table
      (out, { table, lastApplied := index })

end KeyValue

open Json in
instance : Wire KeyValue where
  toJson m := record [("data", record (m.table.map fun (k, v) => (k, .string v))),
    ("last_applied_index", .natural m.lastApplied)]
  ofJson v := do
    let data : Decoder (List (String × String)) := decodeMembers decodeString
    let fs ← fields [.of "data" data, .of "last_applied_index" decodeWord] v
    return { table := Table.ofMembers (← fs.need "data" data),
             lastApplied := ← fs.need "last_applied_index" decodeWord }

instance : StateMachine KeyValue where
  validate _ command := (KeyValue.Command.parse command).mapError KeyValue.CommandError.message
    |>.map fun _ => ()
  apply m index command :=
    let (out, m) := m.apply index command
    (out.mapError KeyValue.CommandError.message, m)
  snapshot := Wire.encode
  restore _ data :=
    match Wire.decode data with
    | .ok m => .ok m
    | .error e => .error ("snapshot deserialization failed: " ++ e.message)

end RaftNode
