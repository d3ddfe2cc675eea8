/-!
# TOML values

A document is a table. Which later lines may still extend a table depends on what made it, so each remembers
that.
-/
namespace RaftNode

inductive TableOrigin where
  /-- Braces; it is complete. -/
  | inline
  /-- Its own header. -/
  | header
  /-- The header of a table further inside. -/
  | passage
  /-- A dotted key. -/
  | dotted
  deriving DecidableEq, Repr

/-- Whether the table was never defined as a whole. -/
def TableOrigin.isOpen (o : TableOrigin) : Bool := o = .passage || o = .dotted

inductive Toml where
  | string (s : String)
  | integer (n : Int)
  /-- A float, a truth value or a time. Their values are of no use to anyone here. -/
  | other
  | array (items : List Toml)
  | table (origin : TableOrigin) (members : List (String × Toml))
  /-- An array of tables with headers, the latest first. -/
  | tables (latest : List (String × Toml)) (before : List (List (String × Toml)))
  deriving Repr, Inhabited

namespace Toml

abbrev Members := List (String × Toml)

def find? (key : String) (ms : Members) : Option Toml := (ms.find? fun m => m.1 = key).map fun m => m.2

def put (key : String) (v : Toml) : Members → Members
  | [] => [(key, v)]
  | m :: ms => if m.1 = key then (key, v) :: ms else m :: put key v ms

/-- Changes the table at the end of a path. Tables on the way that are missing are made. An array of tables
stands for its latest table. `change` also learns whether a dotted key made the table. -/
def descend (made : TableOrigin) (change : Bool → Members → Option Members) :
    List String → Bool → Members → Option Members
  | [], isDotted, ms => change isDotted ms
  | key :: path, _, ms =>
    match find? key ms with
    | none => do return put key (.table made (← descend made change path (made = .dotted) [])) ms
    | some (.table origin inner) =>
      if origin = .inline || (made = .dotted && !origin.isOpen) then none
      else do return put key (.table origin (← descend made change path (origin = .dotted) inner)) ms
    | some (.tables latest before) => do
      return put key (.tables (← descend made change path false latest) before) ms
    | some _ => none

/-- Adds a value under a key that nothing has yet. -/
def addNew (key : String) (v : Toml) (ms : Members) : Option Members :=
  if (find? key ms).isSome then none else some (put key v ms)

/-- Adds a value under a dotted key. Only a table that such keys made can take it. -/
def addPair (path : List String) (key : String) (v : Toml) (ms : Members) : Option Members :=
  descend .dotted (fun isDotted ms => if path.isEmpty || isDotted then addNew key v ms else none) path false ms

/-- A key before the equals sign: its parts before the last, the last, and the value. -/
abbrev Pair := List String × String × Toml

def addPairs (ps : List Pair) (ms : Members) : Option Members :=
  ps.foldlM (fun ms (path, key, v) => addPair path key v ms) ms

structure Block where
  path : List String
  key : String
  /-- Whether the header is that of an array of tables. -/
  isItem : Bool
  pairs : List Pair

/-- The table of a block. One that a header further inside made is defined now, and keeps what it has. -/
def Block.addTo (b : Block) (root : Members) : Option Members :=
  descend .passage (fun _ ms =>
    match find? b.key ms, b.isItem with
    | none, false => do return put b.key (.table .header (← addPairs b.pairs [])) ms
    | some (.table .passage inner), false => do
      return put b.key (.table .header (← addPairs b.pairs inner)) ms
    | none, true => do return put b.key (.tables (← addPairs b.pairs []) []) ms
    | some (.tables latest before), true => do
      return put b.key (.tables (← addPairs b.pairs []) (latest :: before)) ms
    | _, _ => none) b.path false root

def document (top : List Pair) (blocks : List Block) : Option Members := do
  blocks.foldlM (fun root b => b.addTo root) (← addPairs top [])

end Toml

end RaftNode
