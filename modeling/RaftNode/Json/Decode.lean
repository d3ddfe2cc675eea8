import RaftNode.Json.Reader
/-!
# Decoding JSON

A decoder walks a value in reading order and reports the first fault it meets: text that makes no sense is
`malformed`, a value that is not of the wanted shape is a `mismatch`.

A record may be written as an object or as an array of its fields in order. In an object the order of names is
free, unknown names are passed over and a known name may stand once.
-/
namespace RaftNode.Json

inductive DecodeError where
  | malformed
  | mismatch
  deriving DecidableEq, Repr

def DecodeError.message : DecodeError → String
  | .malformed => "not a JSON text"
  | .mismatch => "not of the expected shape"

abbrev Decoder (α : Type) := Json → Except DecodeError α

/-- The fault of a value that is not of the wanted kind: it is read whole before it is refused. -/
def unwanted : Json → DecodeError
  | .hugeNumber | .badString | .broken => .malformed
  | _ => .mismatch

def decodeWord : Decoder Nat
  | .natural n => .ok n
  | v => .error (unwanted v)

def decodeByte : Decoder UInt8
  | .natural n => if n < 256 then .ok (UInt8.ofNat n) else .error .mismatch
  | v => .error (unwanted v)

def decodeBool : Decoder Bool
  | .bool b => .ok b
  | v => .error (unwanted v)

def decodeString : Decoder String
  | .string s => .ok s
  | v => .error (unwanted v)

def decodeOptional (f : Decoder α) : Decoder (Option α)
  | .null => .ok none
  | v => (f v).map some

/-- All items, then the end of the array. -/
def decodeItems (f : Decoder α) : List Json → Except DecodeError (List α)
  | [] => .ok []
  | v :: rest => do
    let a ← f v
    let as ← decodeItems f rest
    .ok (a :: as)

def decodeList (f : Decoder α) : Decoder (List α)
  | .array items closed => do
    let as ← decodeItems f items
    if closed then .ok as else .error .malformed
  | v => .error (unwanted v)

def decodeBytes : Decoder Bytes := decodeList decodeByte

/-- The members of an object whose values all decode, in reading order. -/
def decodeMembers (f : Decoder α) : Decoder (List (String × α))
  | .object members closed => do
    let ms ← go members
    if closed then .ok ms else .error .malformed
  | v => .error (unwanted v)
where
  go : List (Option String × Json) → Except DecodeError (List (String × α))
    | [] => .ok []
    | (name, v) :: rest =>
      match name with
      | none => .error .malformed
      | some name => do
        let a ← f v
        let as ← go rest
        .ok ((name, a) :: as)

/-- A name out of a fixed set, as a text or as the only name of an object with value null. -/
def decodeName (ofName? : String → Option α) : Decoder α
  | .string s => match ofName? s with
    | some a => .ok a
    | none => .error .mismatch
  | .object ((name, v) :: rest) closed =>
    match name with
    | none => .error .malformed
    | some s => match ofName? s with
      | none => .error .mismatch
      | some a => match v with
        | .null => if rest.isEmpty && closed then .ok a else .error .malformed
        | v => .error (unwanted v)
  | .object [] _ => .error .malformed
  | .array .. | .null | .bool _ | .natural _ | .number | .hugeNumber | .badString | .broken => .error .malformed

/-- A field of a record: its name, a check of its value, and whether an array may leave it out. -/
structure Field where
  name : String
  check : Decoder Unit
  mayLack : Bool := false

def Field.of (name : String) (f : Decoder α) : Field := ⟨name, fun v => (f v).map fun _ => (), false⟩

abbrev Fields := List (String × Json)

def Fields.find? (fs : Fields) (name : String) : Option Json := fs.lookup name

/-- The fields among the members of an object, each checked where it stands. -/
def fieldsOfMembers (shape : List Field) : Fields → List (Option String × Json) → Except DecodeError Fields
  | seen, [] => .ok seen
  | seen, (name, v) :: rest =>
    match name with
    | none => .error .malformed
    | some name =>
      match shape.find? fun f => f.name = name with
      | none => fieldsOfMembers shape seen rest
      | some f =>
        if (seen.find? name).isSome then .error .mismatch
        else do
          f.check v
          fieldsOfMembers shape (seen ++ [(name, v)]) rest

/-- The fields given by the items of an array, in order of declaration. -/
def fieldsOfItems : List Field → List Json → Bool → Except DecodeError Fields
  | [], [], true => .ok []
  | [], _, _ => .error .malformed
  | _ :: _, [], false => .error .malformed
  | f :: shape, [], true => if f.mayLack then fieldsOfItems shape [] true else .error .mismatch
  | f :: shape, v :: rest, closed => do
    f.check v
    let fs ← fieldsOfItems shape rest closed
    .ok ((f.name, v) :: fs)

def fields (shape : List Field) : Json → Except DecodeError Fields
  | .object members closed => do
    let fs ← fieldsOfMembers shape [] members
    if closed then .ok fs else .error .malformed
  | .array items closed => fieldsOfItems shape items closed
  | v => .error (unwanted v)

def Fields.need (fs : Fields) (name : String) (f : Decoder α) : Except DecodeError α :=
  match fs.find? name with
  | some v => f v
  | none => .error .mismatch

def Fields.may (fs : Fields) (name : String) (f : Decoder α) : Except DecodeError (Option α) :=
  match fs.find? name with
  | some v => decodeOptional f v
  | none => .ok none

/-- The value a text encodes. Blanks may stand around it and nothing else. -/
def decode (f : Decoder α) (text : Bytes) : Except DecodeError α := do
  let (v, more) := read text
  let a ← f v
  if more then .error .malformed else .ok a

end RaftNode.Json
