import RaftNode.Bytes
/-!
# UTF-8

Strict reading accepts exactly the well-formed texts. Lossy reading puts one replacement character for each
maximal ill-formed run: the longest opening of a character that some continuation could have completed, or
else one byte.
-/
namespace RaftNode.Utf8

/-- The character whose encoding opens the bytes, and the bytes after it. -/
def next? (bs : Bytes) : Option (Char × Bytes) :=
  ((bs.take 4).toByteArray.utf8DecodeChar? 0).map fun c => (c, bs.drop c.utf8Size)

def isTail (b : UInt8) : Bool := 0x80 ≤ b && b ≤ 0xBF

/-- Whether `b` may follow the first byte `a` of a longer character. -/
def mayFollow (a b : UInt8) : Bool :=
  if a = 0xE0 then 0xA0 ≤ b && b ≤ 0xBF
  else if a = 0xED then 0x80 ≤ b && b ≤ 0x9F
  else if a = 0xF0 then 0x90 ≤ b && b ≤ 0xBF
  else if a = 0xF4 then 0x80 ≤ b && b ≤ 0x8F
  else 0xC2 ≤ a && a ≤ 0xF3 && isTail b

/-- The length of the ill-formed run that opens the bytes, when no character does. -/
def brokenLength : Bytes → Nat
  | a :: b :: c :: _ =>
    if 0xE0 ≤ a && mayFollow a b then (if 0xF0 ≤ a && isTail c then 3 else 2) else 1
  | [a, b] => if 0xE0 ≤ a && mayFollow a b then 2 else 1
  | _ => 1

/-- The text the bytes encode, with `onBroken` in place of each ill-formed run; `none` as replacement
refuses the whole. -/
def decodeWith (onBroken : Option Char) : Nat → Bytes → Option (List Char)
  | 0, bs => if bs.isEmpty then some [] else none
  | fuel + 1, bs =>
    if bs.isEmpty then some []
    else
      match next? bs with
      | some (c, rest) => (decodeWith onBroken fuel rest).map (c :: ·)
      | none =>
        match onBroken with
        | some c => (decodeWith onBroken fuel (bs.drop (brokenLength bs))).map (c :: ·)
        | none => none

def decode? (bs : Bytes) : Option String := (decodeWith none bs.length bs).map String.ofList

/-- The text the bytes encode, with U+FFFD for each ill-formed run. -/
def decodeLossy (bs : Bytes) : String :=
  String.ofList ((decodeWith (some (Char.ofNat 0xFFFD)) bs.length bs).getD [])

/-- Blank characters, by the Unicode property White_Space. -/
def isBlank (c : Char) : Bool :=
  let n := c.toNat
  (0x09 ≤ n && n ≤ 0x0D) || n = 0x20 || n = 0x85 || n = 0xA0 || n = 0x1680
    || (0x2000 ≤ n && n ≤ 0x200A) || n = 0x2028 || n = 0x2029 || n = 0x202F || n = 0x205F || n = 0x3000

def trim (s : String) : String :=
  String.ofList (((s.toList.dropWhile isBlank).reverse.dropWhile isBlank).reverse)

end RaftNode.Utf8
