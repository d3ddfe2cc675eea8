import RaftNode.Json.Decode
import RaftNode.Message
import RaftNode.Role
/-!
# The JSON form of records and messages

Fields are written in the order of declaration and bytes as arrays of numbers. Reading takes fields in any
order, and an optional field may be missing.
-/
namespace RaftNode

open Json

class Wire (α : Type) where
  toJson : α → Json
  ofJson : Decoder α

namespace Wire

def encode [Wire α] (a : α) : Bytes := render (toJson a)

def decode [Wire α] (text : Bytes) : Except DecodeError α := Json.decode ofJson text

/-- The value a text opens with, whatever follows it. -/
def decodeAhead [Wire α] (text : Bytes) : Except DecodeError α := ofJson (Json.read text).1

end Wire

instance : Wire Entry where
  toJson e := record [("index", .natural e.index), ("term", .natural e.term), ("command", bytes e.command)]
  ofJson v := do
    let fs ← fields [.of "index" decodeWord, .of "term" decodeWord, .of "command" decodeBytes] v
    return { index := ← fs.need "index" decodeWord, term := ← fs.need "term" decodeWord,
             command := ← fs.need "command" decodeBytes }

instance : Wire HardState where
  toJson h := record [("current_term", .natural h.term), ("voted_for", optional .natural h.vote)]
  ofJson v := do
    let fs ← fields [.of "current_term" decodeWord, .of "voted_for" (decodeOptional decodeWord)] v
    return { term := ← fs.need "current_term" decodeWord, vote := ← fs.may "voted_for" decodeWord }

instance : Wire SnapshotPoint where
  toJson p := record [("last_included_index", .natural p.index), ("last_included_term", .natural p.term)]
  ofJson v := do
    let fs ← fields [.of "last_included_index" decodeWord, .of "last_included_term" decodeWord] v
    return { index := ← fs.need "last_included_index" decodeWord,
             term := ← fs.need "last_included_term" decodeWord }

instance : Wire Snapshot where
  toJson s := record [("metadata", Wire.toJson s.point), ("data", bytes s.data)]
  ofJson v := do
    let point : Decoder SnapshotPoint := Wire.ofJson
    let fs ← fields [.of "metadata" point, .of "data" decodeBytes] v
    let p ← fs.need "metadata" point
    return { index := p.index, term := p.term, data := ← fs.need "data" decodeBytes }

instance : Wire VoteRequest where
  toJson r := record [("term", .natural r.term), ("candidate_id", .natural r.candidate),
    ("last_log_index", .natural r.lastIndex), ("last_log_term", .natural r.lastTerm)]
  ofJson v := do
    let fs ← fields [.of "term" decodeWord, .of "candidate_id" decodeWord, .of "last_log_index" decodeWord,
      .of "last_log_term" decodeWord] v
    return { term := ← fs.need "term" decodeWord, candidate := ← fs.need "candidate_id" decodeWord,
             lastIndex := ← fs.need "last_log_index" decodeWord,
             lastTerm := ← fs.need "last_log_term" decodeWord }

instance : Wire VoteReply where
  toJson r := record [("term", .natural r.term), ("vote_granted", .bool r.granted)]
  ofJson v := do
    let fs ← fields [.of "term" decodeWord, .of "vote_granted" decodeBool] v
    return { term := ← fs.need "term" decodeWord, granted := ← fs.need "vote_granted" decodeBool }

instance : Wire AppendRequest where
  toJson r := record [("term", .natural r.term), ("leader_id", .natural r.leader),
    ("prev_log_index", .natural r.prevIndex), ("prev_log_term", .natural r.prevTerm),
    ("entries", list (r.entries.map Wire.toJson)), ("leader_commit", .natural r.commit)]
  ofJson v := do
    let entries : Decoder (List Entry) := decodeList Wire.ofJson
    let fs ← fields [.of "term" decodeWord, .of "leader_id" decodeWord, .of "prev_log_index" decodeWord,
      .of "prev_log_term" decodeWord, .of "entries" entries, .of "leader_commit" decodeWord] v
    return { term := ← fs.need "term" decodeWord, leader := ← fs.need "leader_id" decodeWord,
             prevIndex := ← fs.need "prev_log_index" decodeWord,
             prevTerm := ← fs.need "prev_log_term" decodeWord,
             entries := ← fs.need "entries" entries, commit := ← fs.need "leader_commit" decodeWord }

instance : Wire AppendReply where
  toJson r :=
    let hint := match r.matchHint with
      | some i => [("match_hint", Json.natural i)]
      | none => []
    record ([("term", .natural r.term), ("success", .bool r.success)] ++ hint)
  ofJson v := do
    let hint : Field := { Field.of "match_hint" (decodeOptional decodeWord) with mayLack := true }
    let fs ← fields [.of "term" decodeWord, .of "success" decodeBool, hint] v
    return { term := ← fs.need "term" decodeWord, success := ← fs.need "success" decodeBool,
             matchHint := ← fs.may "match_hint" decodeWord }

instance : Wire InstallRequest where
  toJson r := record [("term", .natural r.term), ("leader_id", .natural r.leader),
    ("last_included_index", .natural r.index), ("last_included_term", .natural r.snapshotTerm),
    ("data", bytes r.data)]
  ofJson v := do
    let fs ← fields [.of "term" decodeWord, .of "leader_id" decodeWord, .of "last_included_index" decodeWord,
      .of "last_included_term" decodeWord, .of "data" decodeBytes] v
    return { term := ← fs.need "term" decodeWord, leader := ← fs.need "leader_id" decodeWord,
             index := ← fs.need "last_included_index" decodeWord,
             snapshotTerm := ← fs.need "last_included_term" decodeWord,
             data := ← fs.need "data" decodeBytes }

instance : Wire InstallReply where
  toJson r := record [("term", .natural r.term)]
  ofJson v := do
    let fs ← fields [.of "term" decodeWord] v
    return { term := ← fs.need "term" decodeWord }

instance : Wire RoleKind where
  toJson k := .string k.name
  ofJson := decodeName RoleKind.ofName?

instance : Wire Status where
  toJson s := record [("id", .natural s.id), ("role", Wire.toJson s.role), ("term", .natural s.term),
    ("voted_for", optional .natural s.vote), ("leader", optional .natural s.leader),
    ("commit_index", .natural s.commitIndex), ("last_applied", .natural s.lastApplied),
    ("last_log_index", .natural s.lastIndex), ("snapshot_index", .natural s.snapshotIndex),
    ("running", .bool s.running), ("halted", optional .string s.halted)]
  ofJson v := do
    let role : Decoder RoleKind := Wire.ofJson
    let fs ← fields [.of "id" decodeWord, .of "role" role, .of "term" decodeWord,
      .of "voted_for" (decodeOptional decodeWord), .of "leader" (decodeOptional decodeWord),
      .of "commit_index" decodeWord, .of "last_applied" decodeWord, .of "last_log_index" decodeWord,
      .of "snapshot_index" decodeWord, .of "running" decodeBool, .of "halted" (decodeOptional decodeString)] v
    return { id := ← fs.need "id" decodeWord, role := ← fs.need "role" role,
             term := ← fs.need "term" decodeWord, vote := ← fs.may "voted_for" decodeWord,
             leader := ← fs.may "leader" decodeWord, commitIndex := ← fs.need "commit_index" decodeWord,
             lastApplied := ← fs.need "last_applied" decodeWord,
             lastIndex := ← fs.need "last_log_index" decodeWord,
             snapshotIndex := ← fs.need "snapshot_index" decodeWord,
             running := ← fs.need "running" decodeBool, halted := ← fs.may "halted" decodeString }

end RaftNode
