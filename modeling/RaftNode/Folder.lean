import RaftNode.Error
import RaftNode.Path
/-!
# Folders

A folder maps names to files and folders. A path is followed part by part from a root folder, and every part
but the last must be a folder. The faults are those an operating system reports.
-/
namespace RaftNode

inductive FileNode where
  | file (content : Bytes)
  | folder (members : List (String × FileNode))
  deriving Repr, Inhabited

/-- Each name occurs once. -/
abbrev Folder := List (String × FileNode)

/-- The names that lead from the root to a file or folder. -/
abbrev Place := List String

namespace Folder

def find? (f : Folder) (name : String) : Option FileNode := List.lookup name f

def put (name : String) (node : FileNode) : Folder → Folder
  | [] => [(name, node)]
  | (n, old) :: rest => if n = name then (n, node) :: rest else (n, old) :: put name node rest

def erase (f : Folder) (name : String) : Folder := f.filter fun m => m.1 ≠ name

/-! ## Places -/

/-- The folder at a place; `notDirectory` when there is a file at it or on the way. -/
def enter : Place → Folder → Except OsError Folder
  | [], f => .ok f
  | name :: place, f =>
    match f.find? name with
    | some (.folder inner) => enter place inner
    | some (.file _) => .error .notDirectory
    | none => .error .notFound

/-- The root with the folder at a place replaced; nothing changes if there is none. -/
def replaceAt (f : Folder) : Place → Folder → Folder
  | [], inner => inner
  | name :: place, inner =>
    match f.find? name with
    | some (.folder g) => f.put name (.folder (replaceAt g place inner))
    | _ => f

def nodeAt (place : Place) (f : Folder) : Except OsError FileNode :=
  match place.getLast? with
  | none => .ok (.folder f)
  | some name => do
    let inner ← f.enter place.dropLast
    match inner.find? name with
    | some node => .ok node
    | none => .error .notFound

/-! ## Paths -/

def member? (f : Folder) (name : String) : Except OsError (Option FileNode) :=
  if Path.nameLimit < name.utf8ByteSize then .error .nameTooLong else .ok (f.find? name)

/-- The place that the parts of a path lead to from a place. The root is its own parent. -/
def walk (f : Folder) (here : Place) : List String → Except OsError Place
  | [] => .ok here
  | part :: rest => do
    let inner ← f.enter here
    if Path.stays part then walk f here rest
    else if part = ".." then walk f here.dropLast rest
    else
      match ← inner.member? part with
      | some _ => walk f (here ++ [part]) rest
      | none => .error .notFound

def locate (path : String) (f : Folder) : Except OsError Place := do walk f [] (← Path.parts path)

/-- The place of an opened folder. The empty path stands for the root. -/
def home (path : String) (f : Folder) : Place := (f.locate path).toOption.getD []

def node? (path : String) (f : Folder) : Except OsError FileNode := do nodeAt (← f.locate path) f

def contentAt (path : String) (f : Folder) : Except OsError Bytes := do
  match ← f.node? path with
  | .file content => .ok content
  | .folder _ => .error .isDirectory

/-- The place of the folder that the last part of a path is in, and that part, which must be a name. -/
def split (path : String) (f : Folder) : Except OsError (Place × String) := do
  let parts ← Path.parts path
  match parts.getLast? with
  | some name =>
    let place ← f.walk [] parts.dropLast
    if Path.isName name then .ok (place, name) else .error .isDirectory
  | none => .error .notFound

/-- The root with a file written at a path, whose parent must exist. -/
def writeAt (path : String) (content : Bytes) (f : Folder) : Except OsError Folder := do
  let (place, name) ← f.split path
  let inner ← f.enter place
  match ← inner.member? name with
  | some (.folder _) => .error .isDirectory
  | _ => .ok (f.replaceAt place (inner.put name (.file content)))

def removeAt (path : String) (f : Folder) : Except OsError Folder := do
  let (place, name) ← f.split path
  let inner ← f.enter place
  match ← inner.member? name with
  | some (.file _) => .ok (f.replaceAt place (inner.erase name))
  | some (.folder _) => .error .isDirectory
  | none => .error .notFound

/-! ## Making folders -/

/-- The root with a new folder, whose parent must exist. Slashes at the end of its path do not count. -/
def make (parts : List String) (f : Folder) : Except OsError Folder :=
  match parts.reverse.dropWhile (· = "") with
  | [] => .error .exists_
  | part :: above => do
    let place ← f.walk [] above.reverse
    let inner ← f.enter place
    if Path.isName part then
      match ← inner.member? part with
      | some _ => .error .exists_
      | none => .ok (f.replaceAt place (inner.put part (.folder [])))
    else .error .exists_

/-- A result that stands unless there is a folder all the same. -/
def orFolder (parts : List String) (f : Folder) (e : OsError) : Except OsError Folder :=
  match f.walk [] parts >>= fun place => f.enter place with
  | .ok _ => .ok f
  | .error _ => .error e

/-- The root with a folder, made if it is missing, and so are its parents. -/
def makeAll (parts : List String) (f : Folder) : Except OsError Folder :=
  if h : parts = [] then .ok f
  else
    match f.make parts with
    | .ok f => .ok f
    | .error .notFound => do
      have := Path.length_parent_lt h
      let f ← makeAll (Path.parent parts) f
      match f.make parts with
      | .ok f => .ok f
      | .error e => f.orFolder parts e
    | .error e => f.orFolder parts e
termination_by parts.length

/-- The root with a folder at a path, made together with its parents where they are missing. -/
def openAt (path : String) (f : Folder) : Except OsError Folder :=
  if path.isEmpty then .ok f else do makeAll (← Path.parts path) f

end Folder

end RaftNode
