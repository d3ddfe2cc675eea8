import RaftNode.Json.Number
/-!
# JSON tokens

One pass over the bytes. A quoted text and a run of word characters are each collected whole and then
classified; what no rule allows becomes `bad`, and nothing after a `bad` is ever looked at.
-/
namespace RaftNode.Json

inductive Token where
  | openArray
  | closeArray
  | openObject
  | closeObject
  | comma
  | colon
  | scalar (value : Json)
  /-- A quoted text, `none` if its escapes or bytes do not make up a text. -/
  | text (content : Option String)
  | bad
  deriving Repr, Inhabited

namespace Token

def escape? (b : UInt8) : Option UInt8 :=
  if b = 0x22 || b = 0x5C || b = 0x2F then some b
  else if b = 0x62 then some 0x08
  else if b = 0x66 then some 0x0C
  else if b = 0x6E then some 0x0A
  else if b = 0x72 then some 0x0D
  else if b = 0x74 then some 0x09
  else none

def hex4? : Bytes → Option (Nat × Bytes)
  | a :: b :: c :: d :: rest => do
    let a ← Bytes.hexValue? a
    let b ← Bytes.hexValue? b
    let c ← Bytes.hexValue? c
    let d ← Bytes.hexValue? d
    some (((a * 16 + b) * 16 + c) * 16 + d, rest)
  | _ => none

inductive Piece where
  | byte (b : UInt8)
  | unit (n : Nat)
  deriving DecidableEq, Repr

/-- The pieces of the content of a quoted text, if every escape in it is one of the known ones. -/
def pieces? : Nat → Bytes → Option (List Piece)
  | 0, _ => some []
  | fuel + 1, bs =>
    match bs with
    | [] => some []
    | b :: rest =>
      if b = 0x5C then
        match rest with
        | [] => none
        | e :: rest =>
          if e = 0x75 then
            match hex4? rest with
            | some (n, rest) => (pieces? fuel rest).map (.unit n :: ·)
            | none => none
          else
            match escape? e with
            | some c => (pieces? fuel rest).map (.byte c :: ·)
            | none => none
      else (pieces? fuel rest).map (.byte b :: ·)

/-- The bytes of a text given in pieces: two surrogate units in a row make one character, and a surrogate
alone makes none. -/
def assemble? : List Piece → Option Bytes
  | [] => some []
  | .byte b :: rest => (assemble? rest).map (b :: ·)
  | .unit n :: .unit m :: rest =>
    if 0xD800 ≤ n && n ≤ 0xDBFF then
      if 0xDC00 ≤ m && m ≤ 0xDFFF then
        (assemble? rest).map
          (String.utf8EncodeChar (Char.ofNat (0x10000 + (n - 0xD800) * 0x400 + (m - 0xDC00))) ++ ·)
      else none
    else if 0xDC00 ≤ n && n ≤ 0xDFFF then none
    else (assemble? (.unit m :: rest)).map (String.utf8EncodeChar (Char.ofNat n) ++ ·)
  | .unit n :: rest =>
    if 0xD800 ≤ n && n ≤ 0xDFFF then none
    else (assemble? rest).map (String.utf8EncodeChar (Char.ofNat n) ++ ·)

/-- The token of a quoted text, from what stands between its quotes. -/
def ofQuoted (raw : Bytes) : Token :=
  match pieces? raw.length raw with
  | none => .bad
  | some ps => .text ((assemble? ps).bind Utf8.decode?)

def literals : List (Bytes × Json) :=
  [([0x6E, 0x75, 0x6C, 0x6C], .null), ([0x74, 0x72, 0x75, 0x65], .bool true),
    ([0x66, 0x61, 0x6C, 0x73, 0x65], .bool false)]

/-- The tokens of a run of word characters: a literal or number, then `bad` if anything is left. -/
def ofWord (word : Bytes) : List Token :=
  match literals.find? fun l => l.1.isPrefixOf word with
  | some (spelling, value) =>
    if spelling.length = word.length then [.scalar value] else [.scalar value, .bad]
  | none =>
    match Number.read? word with
    | some (value, []) => [.scalar value]
    | some (value, _) => [.scalar value, .bad]
    | none => [.bad]

/-- What the pass over the bytes is in the middle of; collected bytes stand in reverse. -/
inductive Mode where
  | between
  | word (seen : Bytes)
  | quoted (seen : Bytes)
  | escaped (seen : Bytes)

def isSpace (b : UInt8) : Bool := b = 0x20 || b = 0x0A || b = 0x0D || b = 0x09

def isWord (b : UInt8) : Bool := Bytes.isDigit b || Bytes.isLetter b || b = 0x2B || b = 0x2D || b = 0x2E

/-- The token of a single character outside texts and words, and what it opens. -/
def single (b : UInt8) : List Token × Mode :=
  if isSpace b then ([], .between)
  else if b = 0x22 then ([], .quoted [])
  else if isWord b then ([], .word [b])
  else if b = 0x5B then ([.openArray], .between)
  else if b = 0x5D then ([.closeArray], .between)
  else if b = 0x7B then ([.openObject], .between)
  else if b = 0x7D then ([.closeObject], .between)
  else if b = 0x2C then ([.comma], .between)
  else if b = 0x3A then ([.colon], .between)
  else ([.bad], .between)

def scan : Mode → Bytes → List Token
  | .between, [] => []
  | .word seen, [] => ofWord seen.reverse
  | .quoted _, [] | .escaped _, [] => [.bad]
  | .between, b :: rest => (single b).1 ++ scan (single b).2 rest
  | .word seen, b :: rest =>
    if isWord b then scan (.word (b :: seen)) rest
    else ofWord seen.reverse ++ (single b).1 ++ scan (single b).2 rest
  | .quoted seen, b :: rest =>
    if b = 0x22 then ofQuoted seen.reverse :: scan .between rest
    else if b = 0x5C then scan (.escaped (b :: seen)) rest
    else if b < 0x20 then [.bad]
    else scan (.quoted (b :: seen)) rest
  | .escaped seen, b :: rest => scan (.quoted (b :: seen)) rest

end Token

end RaftNode.Json
