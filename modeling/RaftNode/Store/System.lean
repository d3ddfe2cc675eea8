import RaftNode.Store.Record
import RaftNode.Time
/-!
# Identity and lifecycle of a data folder

The file `system` binds a folder to the node that first opened it, counts its openings, and tells whether the
last run ended cleanly.
-/
namespace RaftNode

inductive Lifecycle where
  | running
  | stopped
  deriving DecidableEq, Repr

def Lifecycle.name : Lifecycle → String
  | .running => "Running"
  | .stopped => "Stopped"

def Lifecycle.ofName? (s : String) : Option Lifecycle := [.running, .stopped].find? fun l => l.name = s

structure SystemRecord where
  node : NodeId
  lifecycle : Lifecycle
  bootCount : Nat
  /-- An RFC 3339 time. -/
  lastStartedAt : String
  deriving DecidableEq, Repr

open Json in
def decodeTime : Decoder String := fun v => do
  let s ← decodeString v
  if Time.isValid s then .ok s else .error .mismatch

open Json in
instance : Wire SystemRecord where
  toJson r := record [("node_id", .natural r.node), ("lifecycle", .string r.lifecycle.name),
    ("boot_count", .natural r.bootCount), ("last_started_at", .string r.lastStartedAt)]
  ofJson v := do
    let lifecycle : Decoder Lifecycle := decodeName Lifecycle.ofName?
    let fs ← fields [.of "node_id" decodeWord, .of "lifecycle" lifecycle, .of "boot_count" decodeWord,
      .of "last_started_at" decodeTime] v
    return { node := ← fs.need "node_id" decodeWord, lifecycle := ← fs.need "lifecycle" lifecycle,
             bootCount := ← fs.need "boot_count" decodeWord,
             lastStartedAt := ← fs.need "last_started_at" decodeTime }

/-- What a node that opened its folder knows of it. -/
structure SystemStore where
  record : SystemRecord
  /-- Whether the run before did not end cleanly. -/
  crashed : Bool
  deriving DecidableEq, Repr

namespace SystemStore

abbrev SystemAction (α : Type) := Action NodeError Disk α

def save (s : SystemStore) : SystemAction Unit :=
  Action.within id (fun d _ => d) (fun e => (StoreError.io e.message).toNodeError)
    (Disk.replace "system" (Record.line s.record))

/-- The record of a clean end, still to be saved. -/
def stopped (s : SystemStore) : SystemStore := { s with record := { s.record with lifecycle := .stopped } }

/-- Opens a folder for a node at a time. `path` names the folder in the error that another node owns it. -/
def boot (path : String) (node : NodeId) (now : String) : SystemAction SystemStore := do
  match (Record.read? "system" (← get) : Except RecordError (Option SystemRecord)) with
  | .error e => Action.fail (.durability ("system record: " ++ e.message))
  | .ok none => start 1 false
  | .ok (some prev) =>
    if prev.node = node then
      start (← Action.add prev.bootCount 1) (prev.lifecycle = .running)
    else
      Action.fail (.identity ("data directory " ++ path ++ " belongs to node " ++ toString prev.node ++
        ", not " ++ toString node))
where
  start (bootCount : Nat) (crashed : Bool) : SystemAction SystemStore := do
    let s : SystemStore := ⟨{ node, lifecycle := .running, bootCount, lastStartedAt := now }, crashed⟩
    s.save
    pure s

end SystemStore

end RaftNode
