import RaftNode.Utf8
/-!
# JSON values and their compact text

A value read from a text keeps how far the text could be read: a container that is not `closed`, and a
`broken` value, stand where the text stopped making sense. Nothing follows that place in reading order, so a
decoder that walks the value in reading order meets the first fault of the text first.
-/
namespace RaftNode

inductive Json where
  | null
  | bool (b : Bool)
  /-- A natural number below `wordLimit`. -/
  | natural (n : Nat)
  /-- Any other number: a sign, a fraction, an exponent, or too large. -/
  | number
  /-- A number beyond the range of double-precision numbers. -/
  | hugeNumber
  | string (s : String)
  /-- A string whose escapes or bytes do not make up a text. -/
  | badString
  | array (items : List Json) (closed : Bool)
  /-- Members in order of their text; a name is `none` when it does not make up a text. -/
  | object (members : List (Option String × Json)) (closed : Bool)
  | broken
  deriving Repr, Inhabited

namespace Json

/-- An object that a program writes: its names are texts and it is complete. -/
def record (members : List (String × Json)) : Json :=
  .object (members.map fun m => (some m.1, m.2)) true

def list (items : List Json) : Json := .array items true

def bytes (bs : Bytes) : Json := list (bs.map fun b => .natural b.toNat)

def optional (f : α → Json) : Option α → Json
  | none => .null
  | some a => f a

def escapeChar (c : Char) : Bytes :=
  if c = '"' then [0x5C, 0x22]
  else if c = '\\' then [0x5C, 0x5C]
  else if c = '\x08' then [0x5C, 0x62]
  else if c = '\x0c' then [0x5C, 0x66]
  else if c = '\n' then [0x5C, 0x6E]
  else if c = '\r' then [0x5C, 0x72]
  else if c = '\t' then [0x5C, 0x74]
  else if c.toNat < 0x20 then [0x5C, 0x75] ++ Bytes.hexDigits 4 c.toNat
  else String.utf8EncodeChar c

def quote (s : String) : Bytes := 0x22 :: s.toList.flatMap escapeChar ++ [0x22]

mutual

/-- The text of a value, without blanks. Only values that a program builds have one of their own; for
the rest it is `null`. -/
def render : Json → Bytes
  | .null | .number | .hugeNumber | .badString | .broken => [0x6E, 0x75, 0x6C, 0x6C]
  | .bool true => [0x74, 0x72, 0x75, 0x65]
  | .bool false => [0x66, 0x61, 0x6C, 0x73, 0x65]
  | .natural n => Bytes.decimal n
  | .string s => quote s
  | .array items _ => 0x5B :: renderItems items ++ [0x5D]
  | .object members _ => 0x7B :: renderMembers members ++ [0x7D]

def renderItems : List Json → Bytes
  | [] => []
  | [item] => render item
  | item :: rest => render item ++ 0x2C :: renderItems rest

def renderMembers : List (Option String × Json) → Bytes
  | [] => []
  | [(name, value)] => quote (name.getD "") ++ 0x3A :: render value
  | (name, value) :: rest => quote (name.getD "") ++ 0x3A :: render value ++ 0x2C :: renderMembers rest

end

end Json

end RaftNode
