import RaftNode.Folder
import RaftNode.Utf8
/-!
# Operations on the files of one folder

Each operation on a file is a step that power loss can precede; a write can also stop after any of its bytes.
`fuse` counts the steps and bytes left until then. A rename happens as a whole. Replacing a file through a
temporary one therefore leaves either the old content or the new.
-/
namespace RaftNode

structure Disk where
  folder : Folder := []
  /-- Steps and bytes until power is lost, if it will be. -/
  fuse : Option Nat := none
  /-- What asking the system to keep the folder itself ends with. -/
  syncFault : Option OsError := none
  deriving Repr, Inhabited

abbrev DiskAction (α : Type) := Action OsError Disk α

namespace Disk

/-- Up to `n` steps; how many of them happened. -/
def burn (n : Nat) : DiskAction Nat := fun d =>
  match d.fuse with
  | none => .ok n d
  | some left => .ok (min n left) { d with fuse := some (left - n) }

/-- One step of changing the folder, or nothing if power is lost before it. -/
def step (change : Folder → Folder) : DiskAction Unit := do
  if (← burn 1) = 1 then modify fun d => { d with folder := change d.folder }
  else Action.fail .powerLost

/-- The content of a file; `none` when the name is free. -/
def read? (name : String) (d : Disk) : Except OsError (Option Bytes) :=
  match d.folder.find? name with
  | none => .ok none
  | some (.file content) => .ok (some content)
  | some (.folder _) => .error .isDirectory

def readText? (name : String) (d : Disk) : Except OsError (Option Bytes) := do
  match ← d.read? name with
  | none => .ok none
  | some content => if (Utf8.decode? content).isSome then .ok (some content) else .error .notText

/-- Empties a file, which is made if the name is free. -/
def create (name : String) : DiskAction Unit := do
  match (← get).folder.find? name with
  | some (.folder _) => Action.fail .isDirectory
  | _ => step (·.put name (.file []))

def ensure (name : String) : DiskAction Unit := do
  match (← get).folder.find? name with
  | some (.folder _) => Action.fail .isDirectory
  | some (.file _) => pure ()
  | none => step (·.put name (.file []))

def extend (name : String) (bytes : Bytes) : DiskAction Unit := do
  let written ← burn bytes.length
  modify fun d =>
    match d.folder.find? name with
    | some (.file content) => { d with folder := d.folder.put name (.file (content ++ bytes.take written)) }
    | _ => d
  if written = bytes.length then pure () else Action.fail .powerLost

/-- Gives a file another name, over whatever file had it. -/
def rename (source target : String) : DiskAction Unit := do
  let folder := (← get).folder
  match folder.find? source, folder.find? target with
  | some (.file _), some (.folder _) => Action.fail .isDirectory
  | some node, _ => step fun f => (f.erase source).put target node
  | none, _ => Action.fail .notFound

/-- Asks that the names in the folder be kept. -/
def sync : DiskAction Unit := do
  match (← get).syncFault with
  | some e => Action.fail e
  | none => pure ()

def temporary (name : String) : String := name ++ ".tmp"

def replace (name : String) (content : Bytes) : DiskAction Unit := do
  create (temporary name)
  extend (temporary name) content
  rename (temporary name) name
  sync

end Disk

namespace Folder

/-- A step on the files of the opened folder at a path, and the root afterwards. The empty path cannot be asked
to be kept. -/
def runAt (path : String) (step : Action ε Disk α) (f : Folder) : Except (Fault ε) α × Folder :=
  let place := f.home path
  let inner := (f.enter place).toOption.getD []
  let syncFault := if path.isEmpty then some OsError.notFound else none
  match step { folder := inner, syncFault } with
  | .ok a d => (.ok a, f.replaceAt place d.folder)
  | .error e d => (.error e, f.replaceAt place d.folder)

end Folder

end RaftNode
