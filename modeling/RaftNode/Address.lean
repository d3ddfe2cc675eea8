import RaftNode.Bytes
import RaftNode.OsError
/-!
# Socket addresses

An IP address and a port, as operators write them. The text of an address is unique: IPv6 addresses are
written with the longest run of zero groups left out.
-/
namespace RaftNode

inductive Address where
  | v4 (octets : List UInt8) (port : UInt16)
  /-- Eight groups, and the number of the interface they belong to or zero. -/
  | v6 (groups : List UInt16) (scope : UInt32) (port : UInt16)
  deriving DecidableEq, Repr

namespace Address

/-! ## Reading -/

def after? (c : Char) : List Char → Option (List Char)
  | d :: rest => if d = c then some rest else none
  | [] => none

/-- A number below a limit, of at most so many digits. Leading zeros may be forbidden. -/
def number? (base limit : Nat) (most : Option Nat) (mayPad : Bool) (cs : List Char) :
    Option (Nat × List Char) := do
  let (ds, rest) := cs.span (Digits.isIn base)
  let n ← Digits.number? base ds
  let isPadded := 1 < ds.length && ds.head? = some '0'
  if ds.isEmpty || most.any (fun m => m < ds.length) || (isPadded && !mayPad) || limit ≤ n then none
  else some (n, rest)

/-- So many octets with points between them. -/
def octets? : Nat → List Char → Option (List UInt8 × List Char)
  | 0, cs => some ([], cs)
  | count + 1, cs => do
    let (n, cs) ← number? 10 256 (some 3) false cs
    let (ns, cs) ← if count = 0 then some ([], cs) else (after? '.' cs).bind (octets? count)
    return (UInt8.ofNat n :: ns, cs)

/-- Two groups for each four octets. -/
def groupsOfOctets : List UInt8 → List UInt16
  | a :: b :: rest => UInt16.ofNat (256 * a.toNat + b.toNat) :: groupsOfOctets rest
  | _ => []

/-- Up to so many groups with colons between them, the last two perhaps as octets: the groups, whether they end
with octets, and the rest. -/
def groups (isFirst : Bool) : Nat → List Char → List UInt16 × Bool × List Char
  | 0, cs => ([], false, cs)
  | left + 1, cs =>
    match if isFirst then some cs else after? ':' cs with
    | none => ([], false, cs)
    | some inner =>
      match if 1 ≤ left then octets? 4 inner else none with
      | some (octets, rest) => (groupsOfOctets octets, true, rest)
      | none =>
        match number? 16 65536 (some 4) true inner with
        | none => ([], false, cs)
        | some (n, rest) =>
          let (more, endsWithOctets, rest) := groups false left rest
          (UInt16.ofNat n :: more, endsWithOctets, rest)

/-- The eight groups of an address. Two colons stand for one or more groups of zero. -/
def v6? (cs : List Char) : Option (List UInt16 × List Char) :=
  match groups true 8 cs with
  | (head, endsWithOctets, rest) =>
    if head.length = 8 then some (head, rest)
    else if endsWithOctets then none
    else do
      let rest ← after? ':' (← after? ':' rest)
      let (tail, _, rest) := groups true (7 - head.length) rest
      return (head ++ List.replicate (8 - head.length - tail.length) 0 ++ tail, rest)

def port? (cs : List Char) : Option (UInt16 × List Char) := do
  let (n, rest) ← number? 10 65536 none true (← after? ':' cs)
  return (UInt16.ofNat n, rest)

/-- The interface number in an IPv6 address, zero if there is none. -/
def scope (cs : List Char) : UInt32 × List Char :=
  match (after? '%' cs).bind (number? 10 UInt32.size none true) with
  | some (n, rest) => (UInt32.ofNat n, rest)
  | none => (0, cs)

def parse? (text : String) : Option Address :=
  let whole {α : Type} : Option (α × List Char) → Option α
    | some (a, []) => some a
    | _ => none
  match text.toList with
  | '[' :: cs => do
    let (groups, cs) ← v6? cs
    let (scope, cs) := scope cs
    let port ← whole (port? (← after? ']' cs))
    return .v6 groups scope port
  | cs => do
    let (octets, cs) ← octets? 4 cs
    let port ← whole (port? cs)
    return .v4 octets port

/-! ## Writing -/

def writeOctets (octets : List UInt8) : String := ".".intercalate (octets.map fun o => toString o.toNat)

def writeGroups (groups : List UInt16) : String :=
  ":".intercalate (groups.map fun g => Digits.write 16 g.toNat)

def zerosAhead (groups : List UInt16) : Nat := (groups.takeWhile (· = 0)).length

/-- Where the first of the longest runs of zeros starts, and its length. -/
def longestZeros : List UInt16 → Nat × Nat
  | [] => (0, 0)
  | g :: rest =>
    let here := zerosAhead (g :: rest)
    let (start, length) := longestZeros rest
    if length ≤ here then (0, here) else (start + 1, length)

def writeV6 (groups : List UInt16) : String :=
  match groups with
  | [0, 0, 0, 0, 0, 0xFFFF, a, b] =>
    "::ffff:" ++ writeOctets ([a, b].flatMap fun g => [UInt8.ofNat (g.toNat / 256), UInt8.ofNat (g.toNat % 256)])
  | _ =>
    let (start, length) := longestZeros groups
    if 1 < length then writeGroups (groups.take start) ++ "::" ++ writeGroups (groups.drop (start + length))
    else writeGroups groups

def toText : Address → String
  | .v4 octets port => writeOctets octets ++ ":" ++ toString port.toNat
  | .v6 groups scope port =>
    let interface := if scope = 0 then "" else "%" ++ toString scope.toNat
    "[" ++ writeV6 groups ++ interface ++ "]:" ++ toString port.toNat

def port : Address → UInt16
  | .v4 _ port | .v6 _ _ port => port

/-- Why a machine whose interfaces are all down does not let an operator listen on the address. Low ports are
reserved; port zero stands for any free one. Without an interface every IPv4 address counts as a broadcast
address, on which one may listen. Of the other IPv6 addresses only the unspecified one is there. An address
that is valid on one link needs its interface; the first one is that of the machine itself. -/
def fault? (a : Address) : Option OsError :=
  let reserved := 0 < a.port && a.port < 1024
  match a with
  | .v4 .. | .v6 [0, 0, 0, 0, 0, 0xFFFF, _, _] .. | .v6 [0, 0, 0, 0, 0, 0, 0, 0] .. =>
    if reserved then some .notPermitted else none
  | .v6 groups scope _ =>
    let opening := groups.headD 0
    if 0xFF00 ≤ opening then some .invalidArgument
    else if reserved then some .notPermitted
    else if 0xFE80 ≤ opening && opening < 0xFEC0 then
      if scope = 0 then some .invalidArgument
      else if scope = 1 then some .addressNotAvailable
      else some .noSuchDevice
    else some .addressNotAvailable

end Address

end RaftNode
