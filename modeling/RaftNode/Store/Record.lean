import RaftNode.Disk
import RaftNode.Wire
/-!
# Record lines

A record is the compact JSON text of a value, one space, and the CRC-32 of the text in eight hexadecimal
digits. Reading checks the sum before the text.
-/
namespace RaftNode

/-! ## CRC-32

The reflected CRC of polynomial 0x04C11DB7, started from all ones and complemented at the end.
-/

/-- One bit of division by the reflected polynomial. -/
def crcBit (r : UInt32) : UInt32 := if r &&& 1 = 1 then (r >>> 1) ^^^ 0xEDB88320 else r >>> 1

def crcByte (r : UInt32) (b : UInt8) : UInt32 :=
  crcBit (crcBit (crcBit (crcBit (crcBit (crcBit (crcBit (crcBit (r ^^^ b.toUInt32))))))))

def crc32 (bs : Bytes) : UInt32 := bs.foldl crcByte 0xFFFFFFFF ^^^ 0xFFFFFFFF

/-! ## Records -/

inductive RecordError where
  | unreadable (e : OsError)
  | missingChecksum
  | badChecksum
  | checksumMismatch (stored computed : Nat)
  | invalid (e : Json.DecodeError)
  deriving DecidableEq, Repr

def hex8 (n : Nat) : String :=
  String.ofList ((Bytes.hexDigits 8 n).map fun b => Char.ofNat b.toNat)

def RecordError.message : RecordError → String
  | .unreadable e => e.message
  | .missingChecksum => "missing checksum"
  | .badChecksum => "invalid checksum format"
  | .checksumMismatch stored computed =>
    "checksum mismatch: stored " ++ hex8 stored ++ ", computed " ++ hex8 computed
  | .invalid e => "invalid record: " ++ e.message

namespace Record

/-- The line of a text, without a line feed. -/
def withChecksum (text : Bytes) : Bytes := text ++ 0x20 :: Bytes.hexDigits 8 (crc32 text).toNat

def encode [Wire α] (a : α) : Bytes := withChecksum (Wire.encode a)

def line [Wire α] (a : α) : Bytes := encode a ++ [0x0A]

/-- A 32-bit number in hexadecimal digits of either case, with an optional plus sign. -/
def checksum? (digits : Bytes) : Option Nat :=
  match digits with
  | 0x2B :: rest => go rest
  | _ => go digits
where
  go (ds : Bytes) : Option Nat :=
    if ds.isEmpty then none
    else ds.foldl (fun n d => do
      let m := 16 * (← n) + (← Bytes.hexValue? d)
      if m < UInt32.size then some m else none) (some 0)

def verify (line : Bytes) : Except RecordError Bytes :=
  match Bytes.splitLast? 0x20 line with
  | none => .error .missingChecksum
  | some (text, digits) =>
    match checksum? digits with
    | none => .error .badChecksum
    | some stored =>
      let computed := (crc32 text).toNat
      if stored = computed then .ok text else .error (.checksumMismatch stored computed)

def decode [Wire α] (line : Bytes) : Except RecordError α := do
  let text ← verify line
  (Wire.decode text).mapError .invalid

def isBlank (text : Bytes) : Bool :=
  match Utf8.decode? text with
  | some s => (Utf8.trim s).isEmpty
  | none => false

/-- The record that is alone in a file; `none` when the file is missing or blank. -/
def read? [Wire α] (name : String) (d : Disk) : Except RecordError (Option α) := do
  match ← (d.readText? name).mapError .unreadable with
  | none => .ok none
  | some content =>
    let text := Utf8.trim ((Utf8.decode? content).getD "")
    if text.isEmpty then .ok none else (decode (Bytes.ofString text)).map some

end Record

end RaftNode
