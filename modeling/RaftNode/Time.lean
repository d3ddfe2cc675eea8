import RaftNode.Utf8
/-!
# RFC 3339 times

Times are kept as the text they were written in; only their form and range are checked. Blanks may stand before
a field. A year without a sign has at most four digits, the other fields one or two, and a second may carry a
fraction. The offset is `Z`, `UTC`, or a sign with hours and minutes. The range is that of the years, and a
clock at offset zero must be in it too.
-/
namespace RaftNode.Time

def daysInMonth (year month : Nat) : Nat :=
  if month = 2 then (if year % 4 = 0 && (year % 100 ≠ 0 || year % 400 = 0) then 29 else 28)
  else if month = 4 || month = 6 || month = 9 || month = 11 then 30
  else 31

def skipBlanks (cs : List Char) : List Char := cs.dropWhile Utf8.isBlank

def number? (most : Nat) (cs : List Char) : Option (Nat × List Char) :=
  let cs := skipBlanks cs
  let ds := (cs.take most).takeWhile Char.isDigit
  if ds.isEmpty then none
  else some (ds.foldl (fun n d => 10 * n + (d.toNat - '0'.toNat)) 0, cs.drop ds.length)

/-- A year. With a sign it may have any number of digits. -/
def year? (cs : List Char) : Option (Int × List Char) :=
  match skipBlanks cs with
  | '+' :: c :: rest => if c.isDigit then positive rest.length.succ (c :: rest) else none
  | '-' :: c :: rest =>
    if c.isDigit then (positive rest.length.succ (c :: rest)).map fun (n, cs) => (-n, cs) else none
  | cs => positive 4 cs
where
  positive (most : Nat) (cs : List Char) : Option (Int × List Char) := do
    let (n, cs) ← number? most cs
    return ((n : Int), cs)

def mark? (c : Char) (cs : List Char) : Option (List Char) :=
  match skipBlanks cs with
  | d :: rest => if d = c then some rest else none
  | [] => none

/-- What follows an optional fraction: a point and digits. -/
def fraction? : List Char → Option (List Char)
  | '.' :: rest => if (rest.takeWhile Char.isDigit).isEmpty then none else some (rest.dropWhile Char.isDigit)
  | rest => some rest

/-- The minutes that an offset of less than a day puts a clock ahead, and what follows it. -/
def offset? : List Char → Option (Int × List Char)
  | 'Z' :: rest | 'z' :: rest => some (0, rest)
  | sign :: a :: b :: rest =>
    if [sign, a, b].map Char.toUpper = ['U', 'T', 'C'] then some (0, rest)
    else if sign ≠ '+' && sign ≠ '-' && sign.toNat ≠ 0x2212 then none
    else if !a.isDigit || !b.isDigit then none
    else
      let hours := digit a b
      match rest.dropWhile fun c => c = ':' || Utf8.isBlank c with
      | c :: d :: rest =>
        if hours < 24 && c.isDigit && d.isDigit && digit c d < 60 then
          let ahead : Int := 60 * hours + digit c d
          some (if sign = '+' then ahead else -ahead, rest)
        else none
      | _ => none
  | _ => none
where
  digit (a b : Char) : Nat := 10 * (a.toNat - '0'.toNat) + (b.toNat - '0'.toNat)

def timeOfDay? (cs : List Char) : Option (Nat × List Char) := do
  let (hour, cs) ← number? 2 cs
  let cs ← mark? ':' cs
  let (minute, cs) ← number? 2 cs
  let cs ← mark? ':' cs
  let (second, cs) ← number? 2 cs
  -- a leap second counts as the sixtieth
  if hour < 24 && minute < 60 && second ≤ 60 then return (60 * hour + minute, ← fraction? cs) else none

structure Date where
  year : Int
  month : Nat
  day : Nat
  deriving DecidableEq, Repr

/-- The first day that a clock at offset zero can show. -/
def firstDay : Date := ⟨-262143, 1, 1⟩

/-- The last day that a clock at offset zero can show. -/
def lastDay : Date := ⟨262142, 12, 31⟩

def date? (cs : List Char) : Option (Date × List Char) := do
  let (year, cs) ← year? cs
  let cs ← mark? '-' cs
  let (month, cs) ← number? 2 cs
  let cs ← mark? '-' cs
  let (day, cs) ← number? 2 cs
  if firstDay.year ≤ year && year ≤ lastDay.year && 1 ≤ month && month ≤ 12 && 1 ≤ day &&
      day ≤ daysInMonth year.natAbs month then
    some (⟨year, month, day⟩, cs)
  else none

/-- Whether a clock at offset zero can show a time. -/
def isInRange (d : Date) (minute : Nat) (ahead : Int) : Bool :=
  let minute : Int := minute - ahead
  !(d = firstDay && minute < 0) && !(d = lastDay && 24 * 60 ≤ minute)

def isValid (text : String) : Bool :=
  match date? text.toList with
  | some (d, t :: cs) =>
    if t = 'T' || t = 't' || t = ' ' then
      match (do
        let (minute, cs) ← timeOfDay? cs
        let (ahead, cs) ← offset? (skipBlanks cs)
        return (isInRange d minute ahead, cs) : Option (Bool × List Char)) with
      | some (inRange, rest) => inRange && (skipBlanks rest).isEmpty
      | none => false
    else false
  | _ => false

end RaftNode.Time
