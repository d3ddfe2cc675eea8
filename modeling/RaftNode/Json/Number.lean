import RaftNode.Json.Tree
/-!
# Numbers in JSON

A number with a sign, a fraction or an exponent, or one that does not fit in 64 bits, has no use here beyond
whether it is in range. Its digits are taken into a 64-bit number as long as they fit and the others only move
the decimal point. The number is out of range if the product of that number and the power of ten, each rounded
to double precision before, is.
-/
namespace RaftNode

/-! ## Double precision -/

namespace Double

/-- The nearest number of 53 significant bits; halfway between two of them, the one with an even significand. -/
def round (n : Nat) : Nat :=
  let unit := Nat.pow 2 (n.log2 - 52)
  let low := n / unit
  let rest := n % unit
  if unit < 2 * rest || (2 * rest = unit && low % 2 = 1) then (low + 1) * unit else low * unit

/-- Halfway between the largest finite number and the one that would follow it. A number from here on has no finite
double-precision number near it. -/
def overflow : Nat := Nat.pow 2 1024 - Nat.pow 2 970

end Double

/-! ## Reading -/

namespace Json.Number

/-- Digits taken onto a number as long as it fits in 64 bits: the number, and how many were taken onto it and
before. -/
def take (n count : Nat) : Bytes → Nat × Nat
  | [] => (n, count)
  | d :: rest =>
    let m := 10 * n + (d.toNat - 0x30)
    if m < wordLimit then take m (count + 1) rest else (n, count)

/-- Powers of ten above this one are out of range by themselves. -/
def largestPower : Int := 308

/-- Whether a 64-bit number times a power of ten is out of range. -/
def isHuge (n : Nat) (power : Int) : Bool :=
  if n = 0 || power < 0 then false
  else largestPower < power || Double.overflow ≤ Double.round n * Double.round (Nat.pow 10 power.toNat)

/-- The value of the digits of an exponent, below 2^31. -/
def exponentValue? (ds : Bytes) : Option Nat :=
  ds.foldl (fun n d => do
    let m := 10 * (← n) + (d.toNat - 0x30)
    if m < Nat.pow 2 31 then some m else none) (some 0)

structure Parts where
  negative : Bool
  whole : Bytes
  fraction : Bytes
  /-- The sign and the digits of the exponent. -/
  exponent : Option (Bool × Bytes)

def Parts.isHuge (p : Parts) : Bool :=
  let (n, used) := take 0 0 p.whole
  let (n, places) := take n 0 p.fraction
  let power : Int := (p.whole.length - used : Nat) - (places : Int)
  match p.exponent with
  | none => Number.isHuge n power
  | some (negative, ds) =>
    match exponentValue? ds with
    | some e => Number.isHuge n (if negative then power - e else power + e)
    | none => n ≠ 0 && !negative

def Parts.value (p : Parts) : Json :=
  let (n, used) := take 0 0 p.whole
  if !p.negative && p.fraction.isEmpty && p.exponent.isNone && used = p.whole.length then .natural n
  else if p.isHuge then .hugeNumber
  else .number

def digits (bs : Bytes) : Bytes × Bytes := (bs.takeWhile Bytes.isDigit, bs.dropWhile Bytes.isDigit)

/-- The optional fraction: its digits and what follows; `none` when a point has no digit after it. -/
def fraction? : Bytes → Option (Bytes × Bytes)
  | 0x2E :: rest =>
    match digits rest with
    | ([], _) => none
    | (ds, rest) => some (ds, rest)
  | rest => some ([], rest)

/-- The optional exponent and what follows; `none` when its mark has no digit after it. -/
def exponent? : Bytes → Option (Option (Bool × Bytes) × Bytes)
  | e :: rest =>
    if e = 0x65 || e = 0x45 then
      let (negative, rest) := match rest with
        | 0x2D :: rest => (true, rest)
        | 0x2B :: rest => (false, rest)
        | rest => (false, rest)
      match digits rest with
      | ([], _) => none
      | (ds, rest) => some (some (negative, ds), rest)
    else some (none, e :: rest)
  | [] => some (none, [])

def read? (bs : Bytes) : Option (Json × Bytes) :=
  let (negative, bs) := match bs with
    | 0x2D :: rest => (true, rest)
    | rest => (false, rest)
  match digits bs with
  | ([], _) => none
  | (whole, rest) =>
    if whole.head? = some 0x30 && whole.length ≠ 1 then none
    else do
      let (fraction, rest) ← fraction? rest
      let (exponent, rest) ← exponent? rest
      some (Parts.value { negative, whole, fraction, exponent }, rest)

end Json.Number

end RaftNode
