import RaftNode.Json.Token
/-!
# Reading JSON

Tokens drive a machine with a stack of the containers still open. It never fails: where a token does not fit,
every open container ends unclosed.
-/
namespace RaftNode.Json

/-- A container still open, its finished parts in reverse. -/
inductive Frame where
  | items (done : List Json)
  /-- The members before the one named, whose value is being read. -/
  | members (done : List (Option String × Json)) (name : Option String)

/-- Where the machine stands: what may come next, inside which open containers. -/
inductive Place where
  | value (outer : List Frame)
  /-- A value, or the end of the array just opened. -/
  | firstItem (outer : List Frame)
  | afterItem (done : List Json) (outer : List Frame)
  /-- A name, or the end of the object just opened. -/
  | firstName (outer : List Frame)
  | nextName (done : List (Option String × Json)) (outer : List Frame)
  | colon (done : List (Option String × Json)) (name : Option String) (outer : List Frame)
  | afterMember (done : List (Option String × Json)) (outer : List Frame)
  | complete (v : Json)

namespace Place

/-- The place after a whole value. -/
def put (v : Json) : List Frame → Place
  | [] => .complete v
  | .items done :: outer => .afterItem (v :: done) outer
  | .members done name :: outer => .afterMember ((name, v) :: done) outer

/-- The place after a token that opens a value; `none` if the token opens none. -/
def opening (outer : List Frame) : Token → Option Place
  | .openArray => some (.firstItem outer)
  | .openObject => some (.firstName outer)
  | .scalar v => some (put v outer)
  | .text (some s) => some (put (.string s) outer)
  | .text none => some (put .badString outer)
  | _ => none

def step : Place → Token → Option Place
  | .value outer, t => opening outer t
  | .firstItem outer, .closeArray => some (put (.array [] true) outer)
  | .firstItem outer, t => opening (.items [] :: outer) t
  | .afterItem done outer, .comma => some (.value (.items done :: outer))
  | .afterItem done outer, .closeArray => some (put (.array done.reverse true) outer)
  | .firstName outer, .closeObject => some (put (.object [] true) outer)
  | .firstName outer, .text name => some (.colon [] name outer)
  | .nextName done outer, .text name => some (.colon done name outer)
  | .colon done name outer, .colon => some (.value (.members done name :: outer))
  | .afterMember done outer, .comma => some (.nextName done outer)
  | .afterMember done outer, .closeObject => some (put (.object done.reverse true) outer)
  | _, _ => none

/-- The value that open containers make up around a last part. -/
def close (part : Json) : List Frame → Json
  | [] => part
  | .items done :: outer => close (.array (part :: done).reverse false) outer
  | .members done name :: outer => close (.object ((name, part) :: done).reverse false) outer

/-- The value of a text that ends, or stops making sense, at this place. -/
def abandon : Place → Json
  | .value outer => close .broken outer
  | .firstItem outer => close (.array [] false) outer
  | .afterItem done outer => close (.array done.reverse false) outer
  | .firstName outer => close (.object [] false) outer
  | .nextName done outer => close (.object done.reverse false) outer
  | .colon done name outer => close (.object ((name, .broken) :: done).reverse false) outer
  | .afterMember done outer => close (.object done.reverse false) outer
  | .complete v => v

def run : Place → List Token → Json × List Token
  | .complete v, ts => (v, ts)
  | p, [] => (p.abandon, [])
  | p, t :: ts =>
    match p.step t with
    | some p => run p ts
    | none => (p.abandon, t :: ts)

end Place

/-- The value that a text opens with, and whether anything but blanks follows it. -/
def read (text : Bytes) : Json × Bool :=
  let (v, rest) := (Place.value []).run (Token.scan .between text)
  (v, !rest.isEmpty)

end RaftNode.Json
