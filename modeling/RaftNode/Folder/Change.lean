import RaftNode.Folder
/-!
# Changes of a folder

What has to be done to the files of one folder to make it another. A file that only grew is extended, and what
it held before is not touched.
-/
namespace RaftNode

inductive Change where
  /-- The file gets a new content as a whole. -/
  | replace (name : String) (content : Bytes)
  | extend (name : String) (more : Bytes)
  | remove (name : String)
  deriving DecidableEq, Repr

namespace Change

/-- What happens to a file that holds `old` and is to hold `new`. -/
def ofContent (name : String) (old new : Bytes) : List Change :=
  if old = new then []
  else if old.isEmpty then [.replace name new]
  else
    match old.isPrefixOf? new with
    | some more => [.extend name more]
    | none => [.replace name new]

/-- The changes of the files with given names, in the order of the names. -/
def between (names : List String) (old new : Folder) : List Change :=
  names.flatMap fun name =>
    match old.find? name, new.find? name with
    | some (.file a), some (.file b) => ofContent name a b
    | _, some (.file b) => [.replace name b]
    | some (.file _), none => [.remove name]
    | _, _ => []

end Change

end RaftNode
