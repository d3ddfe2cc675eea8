/-!
# Media types

Just enough of them to tell whether a body is declared to be JSON.
-/
namespace RaftNode.MediaType

/-- Characters of names and of values without quotes. -/
def isTokenChar (c : Char) : Bool := c.isAlphanum || "!#$%&'*+-.^_\x60|~".contains c

/-- Where a reader of parameters stands, the semicolon before the first one behind it. -/
inductive Place where
  /-- Before a name. Here the text may end. -/
  | gap
  | name
  /-- After the equals sign. -/
  | opening
  | value
  /-- After the first quotation mark, which a second one cannot close. -/
  | quoteOpening
  | quoted
  | afterQuote
  deriving DecidableEq, Repr

namespace Place

def next (p : Place) (c : Char) : Option Place :=
  match p with
  | .gap => if c = ' ' then some .gap else if isTokenChar c then some .name else none
  | .name => if c = '=' then some .opening else if isTokenChar c then some .name else none
  | .opening => if c = '"' then some .quoteOpening else if isTokenChar c then some .value else none
  | .value => if c = ';' then some .gap else if isTokenChar c then some .value else none
  | .quoteOpening => if isQuotable c then some .quoted else none
  | .quoted => if c = '"' then some .afterQuote else if isQuotable c then some .quoted else none
  | .afterQuote => if c = ';' then some .gap else if c = ' ' then some .afterQuote else none
where
  isQuotable (c : Char) : Bool := ' ' ≤ c && c.val < 0x7F

def mayEnd : Place → Bool
  | .gap | .opening | .value | .afterQuote => true
  | _ => false

end Place

def paramsAreValid (text : List Char) : Bool :=
  (text.foldl (fun p c => p.bind fun p => p.next c) (some Place.gap)).any Place.mayEnd

/-- A subtype and its suffix, which follows the last plus sign unless that comes first. -/
def splitSuffix (subtype : List Char) : List Char × Option (List Char) :=
  let suffix := (subtype.reverse.takeWhile (· ≠ '+')).reverse
  let size := subtype.length - suffix.length
  if size ≤ 1 then (subtype, none) else (subtype.take (size - 1), some suffix)

/-- Whether a content type is `application/json` or has the suffix `json`, with any parameters. -/
def isJson (contentType : String) : Bool :=
  let (top, rest) := contentType.toList.span isTokenChar
  match rest with
  | '/' :: rest =>
    let (sub, rest) := rest.span isTokenChar
    let (name, suffix) := splitSuffix sub
    let is (text : List Char) (word : String) : Bool := (String.ofList text).toLower = word
    let paramsOk := match rest with
      | [] => true
      | ';' :: rest => paramsAreValid rest
      | _ => false
    is top "application" && (is name "json" || suffix.any fun s => is s "json") && paramsOk
  | _ => false

end RaftNode.MediaType
