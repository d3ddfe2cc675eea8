import RaftNode.Toml.Text
import RaftNode.Toml.Tree
/-!
# Reading TOML

A text is read to blocks of pairs first; then the blocks build the document, which fails if two of them
define the same thing.
-/
namespace RaftNode.Toml

abbrev Reader (α : Type) := List Char → Option (α × List Char)

def scalar? (cs : List Char) : Option (Toml × List Char) :=
  match cs with
  | '"' :: _ | '\'' :: _ => (string? cs).map fun r => (.string r.1, r.2)
  | 't' :: 'r' :: 'u' :: 'e' :: rest | 'f' :: 'a' :: 'l' :: 's' :: 'e' :: rest => some (.other, rest)
  | _ =>
    match moment? cs, float? cs with
    | some rest, _ | none, some rest => some (.other, rest)
    | none, none => (integer? cs).map fun r => (.integer r.1, r.2)

def pair? (value : Reader Toml) (cs : List Char) : Option (Pair × List Char) := do
  let ((path, key), cs) ← key? (depthLimit - 1) cs
  let (v, cs) ← value (skipBlanks (← after? '=' cs))
  return ((path, key, v), skipBlanks cs)

/-- The rest of an array, at most so many items. A comma may follow the last. -/
def arrayRest? (value : Reader Toml) : Nat → Reader (List Toml)
  | 0, _ => none
  | fuel + 1, cs =>
    match skipLines false cs with
    | ']' :: rest => some ([], rest)
    | cs => do
      let (v, cs) ← value cs
      match skipLines false cs with
      | ',' :: rest =>
        let (vs, rest) ← arrayRest? value fuel rest
        return (v :: vs, rest)
      | ']' :: rest => return ([v], rest)
      | _ => none

/-- The rest of a table in braces after its first pair or comma. -/
def inlineRest? (value : Reader Toml) : Nat → Reader (List Pair)
  | 0, _ => none
  | fuel + 1, cs => do
    let (p, cs) ← pair? value cs
    match cs with
    | ',' :: rest =>
      let (ps, rest) ← inlineRest? value fuel rest
      return (p :: ps, rest)
    | '}' :: rest => return ([p], rest)
    | _ => none

/-- A value whose parts nest at most so deep, in a text of a given size. -/
def value? (size : Nat) : Nat → Reader Toml
  | 0, cs => scalar? cs
  | depth + 1, cs =>
    match cs with
    | '[' :: rest => (arrayRest? (value? size depth) size rest).map fun r => (.array r.1, r.2)
    | '{' :: rest =>
      match skipBlanks rest with
      | '}' :: rest => some (.table .inline [], rest)
      | rest => do
        let (ps, rest) ← inlineRest? (value? size depth) size rest
        return (.table .inline (← addPairs ps []), rest)
    | _ => scalar? cs

/-- The pairs of lines up to the next header, in a text of a given size. -/
def pairs? (size : Nat) : Nat → Reader (List Pair)
  | 0, _ => none
  | fuel + 1, cs =>
    match skipLines false cs with
    | [] => some ([], [])
    | '[' :: rest => some ([], '[' :: rest)
    | cs => do
      let (p, cs) ← pair? (value? size (depthLimit - 1)) cs
      let (ps, rest) ← pairs? size fuel (← lineEnd? cs)
      return (p :: ps, rest)

def block? (size : Nat) (cs : List Char) : Option (Block × List Char) := do
  let (isItem, inside) ← match cs with
    | '[' :: '[' :: rest => some (true, rest)
    | '[' :: rest => some (false, rest)
    | _ => none
  let ((path, key), cs) ← key? (depthLimit - 1) inside
  let cs ← after? ']' cs
  let cs ← lineEnd? (← if isItem then after? ']' cs else some cs)
  let (pairs, rest) ← pairs? size size cs
  return ({ path, key, isItem, pairs }, rest)

def blocks? (size : Nat) : Nat → List Char → Option (List Block)
  | _, [] => some []
  | 0, _ => none
  | fuel + 1, cs => do
    let (b, rest) ← block? size cs
    let bs ← blocks? size fuel rest
    return b :: bs

/-- The members of the table that a text is. A byte order mark may open it. -/
def read (text : String) : Option Members := do
  let cs := match text.toList with
    | '\uFEFF' :: rest => rest
    | cs => cs
  let size := cs.length + 1
  let (top, rest) ← pairs? size size cs
  document top (← blocks? size size rest)

end RaftNode.Toml
