/-!
# Bytes and the numbers written in them

Files, messages and commands are byte strings. A number is written in decimal without leading zeros and
read back by the strict rule of each reader; all positions and terms fit in 64 bits.
-/
namespace RaftNode

abbrev Bytes := List UInt8

/-- Numbers on disk and on the wire are below this bound. -/
def wordLimit : Nat := UInt64.size

namespace Bytes

def ofString (s : String) : Bytes := s.toList.flatMap String.utf8EncodeChar

def ofChar (c : Char) : UInt8 := UInt8.ofNat c.toNat

def isDigit (b : UInt8) : Bool := 0x30 ≤ b && b ≤ 0x39

def isLetter (b : UInt8) : Bool := (0x41 ≤ b && b ≤ 0x5A) || (0x61 ≤ b && b ≤ 0x7A)

def hexValue? (b : UInt8) : Option Nat :=
  if isDigit b then some (b.toNat - 0x30)
  else if 0x41 ≤ b && b ≤ 0x46 then some (b.toNat - 0x37)
  else if 0x61 ≤ b && b ≤ 0x66 then some (b.toNat - 0x57)
  else none

/-- The lower-case hexadecimal digit of a value below 16. -/
def hexDigit (n : Nat) : UInt8 :=
  if n < 10 then UInt8.ofNat (0x30 + n) else UInt8.ofNat (0x57 + n)

/-- The last `width` hexadecimal digits of a number. -/
def hexDigits : Nat → Nat → Bytes
  | 0, _ => []
  | width + 1, n => hexDigits width (n / 16) ++ [hexDigit (n % 16)]

/-- The decimal digits of a number, the first one not zero unless it is the only one. -/
def decimal (n : Nat) : Bytes :=
  if n < 10 then [UInt8.ofNat (0x30 + n)] else decimal (n / 10) ++ [UInt8.ofNat (0x30 + n % 10)]
termination_by n
decreasing_by omega

def digitsValue (ds : Bytes) : Nat := ds.foldl (fun n d => 10 * n + (d.toNat - 0x30)) 0

def toHex (bs : Bytes) : String :=
  String.ofList ((bs.flatMap fun b => hexDigits 2 b.toNat).map fun b => Char.ofNat b.toNat)

/-- The bytes that pairs of hexadecimal digits stand for; a digit without a partner is dropped. -/
def ofHex : List Char → Bytes
  | a :: b :: rest =>
    let digit (c : Char) := (hexValue? (ofChar c)).getD 0
    UInt8.ofNat (16 * digit a + digit b) :: ofHex rest
  | _ => []

/-- The order of byte strings, which for UTF-8 is also the order of code points. -/
def le : Bytes → Bytes → Bool
  | [], _ => true
  | _ :: _, [] => false
  | a :: as, b :: bs => if a == b then le as bs else a < b

/-- The parts of a text before and after its last occurrence of a byte. -/
def splitLast? (sep : UInt8) : Bytes → Option (Bytes × Bytes)
  | [] => none
  | b :: bs =>
    match splitLast? sep bs with
    | some (front, back) => some (b :: front, back)
    | none => if b = sep then some ([], bs) else none

/-- The lines of a text that are ended by a line feed, and the unended rest. -/
def splitLines : Bytes → List Bytes × Bytes
  | [] => ([], [])
  | b :: bs =>
    if b = 0x0A then
      let (lines, rest) := splitLines bs
      ([] :: lines, rest)
    else
      match splitLines bs with
      | ([], rest) => ([], b :: rest)
      | (line :: lines, rest) => ((b :: line) :: lines, rest)

end Bytes

/-! ## Digits

Numbers in the text of settings and addresses, in any base up to sixteen.
-/

namespace Digits

/-- The value of a digit; letters of either case count from ten. -/
def value? (c : Char) : Option Nat :=
  if c.isDigit then some (c.toNat - '0'.toNat)
  else if 'a' ≤ c && c ≤ 'f' then some (c.toNat - 'a'.toNat + 10)
  else if 'A' ≤ c && c ≤ 'F' then some (c.toNat - 'A'.toNat + 10)
  else none

def isIn (base : Nat) (c : Char) : Bool := (value? c).any fun k => k < base

def number? (base : Nat) (digits : List Char) : Option Nat :=
  digits.foldlM (fun n d => do
    let k ← value? d
    if k < base then some (base * n + k) else none) 0

/-- A number in a base, without leading zeros and with lower-case letters. -/
def write (base n : Nat) : String := String.ofList (Nat.toDigits base n)

end Digits

/-! ## Numbers of arguments -/

inductive NumberFault where
  | empty
  | invalidDigit
  | tooLarge
  deriving DecidableEq, Repr

def NumberFault.message : NumberFault → String
  | .empty => "cannot parse integer from empty string"
  | .invalidDigit => "invalid digit found in string"
  | .tooLarge => "number too large to fit in target type"

/-- A 64-bit number in decimal, with an optional plus sign. The first fault from the left counts. -/
def parseWord (text : String) : Except NumberFault Nat :=
  match text.toList with
  | [] => .error .empty
  | ['+'] | ['-'] => .error .invalidDigit
  | '+' :: digits => go 0 digits
  | digits => go 0 digits
where
  go (n : Nat) : List Char → Except NumberFault Nat
    | [] => .ok n
    | c :: rest =>
      if c.isDigit then
        let m := 10 * n + (c.toNat - '0'.toNat)
        if wordLimit ≤ m then
          -- a later character that is no digit is never reached
          .error .tooLarge
        else go m rest
      else .error .invalidDigit

end RaftNode
