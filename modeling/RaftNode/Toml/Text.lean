import RaftNode.Bytes
import RaftNode.Time
/-!
# The words of TOML

Each reader takes the text from where it stands and returns what it read and the rest, or `none` where the text
does not fit.
-/
namespace RaftNode.Toml

def isBlank (c : Char) : Bool := c = ' ' || c = '\t'

def skipBlanks (cs : List Char) : List Char := cs.dropWhile isBlank

/-- Whether a character may stand in a line at all. -/
def isPrintable (c : Char) : Bool := c = '\t' || (' ' ≤ c && c.val ≠ 0x7F)

/-- What follows the end of a line, after blanks and a comment. The end of the text ends a line too. -/
def lineEnd? (cs : List Char) : Option (List Char) :=
  let cs := skipBlanks cs
  let cs := match cs with
    | '#' :: rest => rest.dropWhile isPrintable
    | cs => cs
  match cs with
  | [] => some []
  | '\n' :: rest | '\r' :: '\n' :: rest => some rest
  | _ => none

/-- What follows blanks, comments and line ends. A comment goes on to the end of its line. -/
def skipLines (inComment : Bool) : List Char → List Char
  | [] => []
  | '\r' :: '\n' :: rest | '\n' :: rest => skipLines false rest
  | c :: rest =>
    if (inComment && isPrintable c) || isBlank c then skipLines inComment rest
    else if !inComment && c = '#' then skipLines true rest
    else c :: rest

/-! ## Strings -/

/-- The character of a code point in hexadecimal digits. -/
def codePoint? (digits : List Char) : Option Char := do
  let n ← Digits.number? 16 digits
  if n.isValidChar then some (Char.ofNat n) else none

def escape? : Char → Option Char
  | 'b' => some '\x08'
  | 't' => some '\t'
  | 'n' => some '\n'
  | 'f' => some '\x0c'
  | 'r' => some '\r'
  | '"' => some '"'
  | '\\' => some '\\'
  | _ => none

def before (c : Option Char) (r : Option (List Char × List Char)) : Option (List Char × List Char) := do
  let c ← c
  let (s, rest) ← r
  return (c :: s, rest)

def basic : List Char → Option (List Char × List Char)
  | '"' :: rest => some ([], rest)
  | '\\' :: 'u' :: a :: b :: c :: d :: rest => before (codePoint? [a, b, c, d]) (basic rest)
  | '\\' :: 'U' :: a :: b :: c :: d :: e :: f :: g :: h :: rest =>
    before (codePoint? [a, b, c, d, e, f, g, h]) (basic rest)
  | '\\' :: c :: rest => before (escape? c) (basic rest)
  | c :: rest => if isPrintable c then before (some c) (basic rest) else none
  | [] => none

def literal : List Char → Option (List Char × List Char)
  | '\'' :: rest => some ([], rest)
  | c :: rest => if isPrintable c then before (some c) (literal rest) else none
  | [] => none

/-- Whether a backslash before this text is the last thing in its line. -/
def opensLineEnd (cs : List Char) : Bool :=
  match skipBlanks cs with
  | '\n' :: _ | '\r' :: '\n' :: _ => true
  | _ => false

/-- The rest of a string of many lines in quotation marks. Up to two of them may stand before the closing three.
While `skipping`, blanks and line ends are left out. -/
def multiBasic (skipping : Bool) : List Char → Option (List Char × List Char)
  | '"' :: '"' :: '"' :: '"' :: '"' :: rest => some (['"', '"'], rest)
  | '"' :: '"' :: '"' :: '"' :: rest => some (['"'], rest)
  | '"' :: '"' :: '"' :: rest => some ([], rest)
  | '\\' :: 'u' :: a :: b :: c :: d :: rest => before (codePoint? [a, b, c, d]) (multiBasic false rest)
  | '\\' :: 'U' :: a :: b :: c :: d :: e :: f :: g :: h :: rest =>
    before (codePoint? [a, b, c, d, e, f, g, h]) (multiBasic false rest)
  | '\\' :: c :: rest =>
    if opensLineEnd (c :: rest) then multiBasic true (c :: rest)
    else before (escape? c) (multiBasic false rest)
  | '\r' :: '\n' :: rest | '\n' :: rest =>
    if skipping then multiBasic true rest else before (some '\n') (multiBasic false rest)
  | c :: rest =>
    if skipping && isBlank c then multiBasic true rest
    else if isPrintable c then before (some c) (multiBasic false rest)
    else none
  | [] => none

/-- The rest of a string of many lines in apostrophes. -/
def multiLiteral : List Char → Option (List Char × List Char)
  | '\'' :: '\'' :: '\'' :: '\'' :: '\'' :: rest => some (['\'', '\''], rest)
  | '\'' :: '\'' :: '\'' :: '\'' :: rest => some (['\''], rest)
  | '\'' :: '\'' :: '\'' :: rest => some ([], rest)
  | '\r' :: '\n' :: rest | '\n' :: rest => before (some '\n') (multiLiteral rest)
  | c :: rest => if isPrintable c then before (some c) (multiLiteral rest) else none
  | [] => none

/-- A line end that opens a string of many lines is not part of it. -/
def dropLineEnd : List Char → List Char
  | '\n' :: rest | '\r' :: '\n' :: rest => rest
  | cs => cs

def string? : List Char → Option (String × List Char)
  | '"' :: '"' :: '"' :: rest => (multiBasic false (dropLineEnd rest)).map fun r => (String.ofList r.1, r.2)
  | '"' :: rest => (basic rest).map fun r => (String.ofList r.1, r.2)
  | '\'' :: '\'' :: '\'' :: rest => (multiLiteral (dropLineEnd rest)).map fun r => (String.ofList r.1, r.2)
  | '\'' :: rest => (literal rest).map fun r => (String.ofList r.1, r.2)
  | _ => none

/-! ## Keys -/

def isBare (c : Char) : Bool := c.isAlphanum || c = '_' || c = '-'

def keyPart? : List Char → Option (String × List Char)
  | '"' :: rest => (basic rest).map fun r => (String.ofList r.1, r.2)
  | '\'' :: rest => (literal rest).map fun r => (String.ofList r.1, r.2)
  | cs =>
    let (word, rest) := cs.span isBare
    if word.isEmpty then none else some (String.ofList word, rest)

/-- A key of at most so many parts, with blanks around each: the parts before the last, and the last. -/
def key? : Nat → List Char → Option ((List String × String) × List Char)
  | 0, _ => none
  | most + 1, cs => do
    let (part, cs) ← keyPart? (skipBlanks cs)
    match skipBlanks cs with
    | '.' :: rest =>
      let ((path, key), rest) ← key? most rest
      return ((part :: path, key), rest)
    | rest => return (([], part), rest)

/-- Keys and values nest less deep than this. -/
def depthLimit : Nat := 80

/-! ## Numbers -/

/-- The digits of a number in a base, single underscores between them. -/
def digits? (base : Nat) (cs : List Char) : Option (List Char × List Char) :=
  match cs with
  | d :: rest => if Digits.isIn base d then some (go d rest) else none
  | [] => none
where
  /-- The digits from `d` on. -/
  go (d : Char) : List Char → List Char × List Char
    | '_' :: c :: rest =>
      if Digits.isIn base c then
        let (ds, rest) := go c rest
        (d :: ds, rest)
      else ([d], '_' :: c :: rest)
    | c :: rest =>
      if Digits.isIn base c then
        let (ds, rest) := go c rest
        (d :: ds, rest)
      else ([d], c :: rest)
    | [] => ([d], [])

/-- Decimal digits, the first of which is zero only if it is the only one. -/
def wholeDigits? (cs : List Char) : Option (List Char × List Char) := do
  let (ds, rest) ← digits? 10 cs
  match ds with
  | '0' :: _ :: _ => none
  | _ => return (ds, rest)

def sign : List Char → Bool × List Char
  | '-' :: rest => (true, rest)
  | '+' :: rest => (false, rest)
  | rest => (false, rest)

def integer? (cs : List Char) : Option (Int × List Char) := do
  let fits (negative : Bool) (n : Nat) : Option Int :=
    if negative then (if n ≤ Nat.pow 2 63 then some (-n) else none)
    else if n < Nat.pow 2 63 then some n else none
  -- a number of more digits than bits does not fit
  let number (base : Nat) (ds : List Char) : Option Nat :=
    if 64 < (ds.dropWhile (· = '0')).length then none else Digits.number? base ds
  let based (base : Nat) (cs : List Char) : Option (Int × List Char) := do
    let (ds, rest) ← digits? base cs
    return (← fits false (← number base ds), rest)
  match cs with
  | '0' :: 'x' :: rest => based 16 rest
  | '0' :: 'o' :: rest => based 8 rest
  | '0' :: 'b' :: rest => based 2 rest
  | cs =>
    let (negative, cs) := sign cs
    let (ds, rest) ← wholeDigits? cs
    return (← fits negative (← number 10 ds), rest)

/-- Whether a decimal number, given by its digits and a power of ten, is too large for a float of 64 bits. -/
def isHuge (digits : List Char) (e : Int) : Bool :=
  let digits := digits.dropWhile (· = '0')
  let size := digits.length + e
  if digits.isEmpty || size < 309 then false
  else if 309 < size then true
  else
    let n := (Digits.number? 10 digits).getD 0
    Nat.pow 2 1024 - Nat.pow 2 970 ≤ (if 0 ≤ e then n * Nat.pow 10 e.toNat else n / Nat.pow 10 (-e).toNat)

/-- What follows a float. Only a negative one may be too large. -/
def float? (cs : List Char) : Option (List Char) :=
  let (negative, cs) := sign cs
  match cs with
  | 'i' :: 'n' :: 'f' :: rest | 'n' :: 'a' :: 'n' :: rest => some rest
  | cs => do
    let (whole, rest) ← wholeDigits? cs
    let (part, afterPart) ← match rest with
      | '.' :: rest => digits? 10 rest
      | 'e' :: _ | 'E' :: _ => some ([], rest)
      | _ => none
    let (exponent, afterExponent) ← match afterPart with
      | 'e' :: rest | 'E' :: rest => do
        let (below, rest) := sign rest
        let (ds, rest) ← digits? 10 rest
        let n ← Digits.number? 10 ds
        some (if below then -(n : Int) else n, rest)
      | rest => some ((0 : Int), rest)
    if !negative && isHuge (whole ++ part) (exponent - part.length) then none else some afterExponent

/-! ## Times -/

/-- So many digits, for a number between two bounds. -/
def field? (size low high : Nat) (cs : List Char) : Option (Nat × List Char) := do
  let ds := cs.take size
  if ds.length = size && ds.all Char.isDigit then
    let n ← Digits.number? 10 ds
    if low ≤ n && n ≤ high then some (n, cs.drop size) else none
  else none

def after? (c : Char) : List Char → Option (List Char)
  | d :: rest => if d = c then some rest else none
  | [] => none

def date? (cs : List Char) : Option (List Char) := do
  let (year, cs) ← field? 4 0 9999 cs
  let (month, cs) ← field? 2 1 12 (← after? '-' cs)
  let (day, cs) ← field? 2 1 31 (← after? '-' cs)
  if day ≤ Time.daysInMonth year month then some cs else none

def timeOfDay? (cs : List Char) : Option (List Char) := do
  let (_, cs) ← field? 2 0 23 cs
  let (_, cs) ← field? 2 0 59 (← after? ':' cs)
  let (_, cs) ← field? 2 0 60 (← after? ':' cs)
  match cs with
  | '.' :: d :: rest => if d.isDigit then some (rest.dropWhile Char.isDigit) else some cs
  | _ => some cs

def offset? : List Char → Option (List Char)
  | 'Z' :: rest | 'z' :: rest => some rest
  | '+' :: rest | '-' :: rest => do
    let (_, rest) ← field? 2 0 23 rest
    let (_, rest) ← field? 2 0 59 (← after? ':' rest)
    return rest
  | _ => none

/-- What follows a date, a time of day, or both with or without an offset. -/
def moment? (cs : List Char) : Option (List Char) :=
  match date? cs with
  | none => timeOfDay? cs
  | some afterDate =>
    let time := match afterDate with
      | 'T' :: rest | 't' :: rest | ' ' :: rest => timeOfDay? rest
      | _ => none
    match time with
    | none => some afterDate
    | some afterTime => some ((offset? afterTime).getD afterTime)

end RaftNode.Toml
