import RaftNode.Store.System
import RaftNode.Proofs.Solid
import RaftNode.Proofs.Timestamps
/-!
# Records and messages read back

Whatever a node stores or sends is read back as the value that was written, at the full width of its numbers, for any
bytes, and with or without what is optional. What is stored is one line, with one space in it.
-/
namespace RaftNode

open Json

open Bytes (Solid)
open LawfulWire (Fits)

/-! ## Messages -/

instance : LawfulWire VoteRequest where
  Fits q := q.term < wordLimit ∧ q.candidate < wordLimit ∧ q.lastIndex < wordLimit ∧
    q.lastTerm < wordLimit
  plain {q} hq := by
    refine plain_record ?_
    rintro _ (_ | ⟨_, _ | ⟨_, _ | ⟨_, _ | ⟨_, ⟨⟩⟩⟩⟩⟩)
    · exact hq.1
    · exact hq.2.1
    · exact hq.2.2.1
    · exact hq.2.2.2
  ofJson _ := rfl
  opens _ := ⟨_, rfl⟩

instance : LawfulWire VoteReply where
  Fits r := r.term < wordLimit
  plain {r} hr := by
    refine plain_record ?_
    rintro _ (_ | ⟨_, _ | ⟨_, ⟨⟩⟩⟩)
    · exact hr
    · trivial
  ofJson _ := rfl
  opens _ := ⟨_, rfl⟩

instance : LawfulWire AppendRequest where
  Fits q := (q.term < wordLimit ∧ q.leader < wordLimit ∧ q.prevIndex < wordLimit ∧
    q.prevTerm < wordLimit ∧ q.commit < wordLimit) ∧ ∀ e ∈ q.entries, Fits e
  plain {q} hq := by
    obtain ⟨⟨hterm, hleader, hprev, hprevTerm, hcommit⟩, hentries⟩ := hq
    refine plain_record ?_
    rintro _ (_ | ⟨_, _ | ⟨_, _ | ⟨_, _ | ⟨_, _ | ⟨_, _ | ⟨_, ⟨⟩⟩⟩⟩⟩⟩⟩)
    · exact hterm
    · exact hleader
    · exact hprev
    · exact hprevTerm
    · refine plain_list fun v hv => ?_
      obtain ⟨e, he, rfl⟩ := List.mem_map.mp hv
      exact LawfulWire.plain (hentries e he)
    · exact hcommit
  ofJson {q} hq := by
    let fs : Fields := [("term", .natural q.term), ("leader_id", .natural q.leader),
      ("prev_log_index", .natural q.prevIndex), ("prev_log_term", .natural q.prevTerm),
      ("entries", list (q.entries.map Wire.toJson)), ("leader_commit", .natural q.commit)]
    have hentries : decodeList Wire.ofJson (list (q.entries.map Wire.toJson)) = .ok q.entries :=
      decodeList_map fun e he => LawfulWire.ofJson (hq.2 e he)
    have hfields : fields [.of "term" decodeWord, .of "leader_id" decodeWord,
        .of "prev_log_index" decodeWord, .of "prev_log_term" decodeWord,
        .of "entries" (decodeList (Wire.ofJson : Decoder Entry)), .of "leader_commit" decodeWord]
        (Wire.toJson q) = .ok fs := by
      refine fields_record (by simp) ?_
      rintro _ (_ | ⟨_, _ | ⟨_, _ | ⟨_, _ | ⟨_, _ | ⟨_, _ | ⟨_, ⟨⟩⟩⟩⟩⟩⟩⟩)
      · exact ⟨_, rfl, check_of (a := q.term) rfl _⟩
      · exact ⟨_, rfl, check_of (a := q.leader) rfl _⟩
      · exact ⟨_, rfl, check_of (a := q.prevIndex) rfl _⟩
      · exact ⟨_, rfl, check_of (a := q.prevTerm) rfl _⟩
      · exact ⟨_, rfl, check_of hentries _⟩
      · exact ⟨_, rfl, check_of (a := q.commit) rfl _⟩
    have hneed : fs.need "entries" (decodeList (Wire.ofJson : Decoder Entry)) = .ok q.entries :=
      Fields.need_eq rfl hentries
    change (do
      let fs ← fields _ (Wire.toJson q)
      let term ← fs.need "term" decodeWord
      let leader ← fs.need "leader_id" decodeWord
      let prevIndex ← fs.need "prev_log_index" decodeWord
      let prevTerm ← fs.need "prev_log_term" decodeWord
      let entries ← fs.need "entries" (decodeList (Wire.ofJson : Decoder Entry))
      let commit ← fs.need "leader_commit" decodeWord
      return (⟨term, leader, prevIndex, prevTerm, entries, commit⟩ : AppendRequest)) = .ok q
    rw [hfields]
    simp only [bind, Except.bind, hneed]
    rfl
  opens _ := ⟨_, rfl⟩

instance : LawfulWire AppendReply where
  Fits r := r.term < wordLimit ∧ ∀ i ∈ r.matchHint, i < wordLimit
  plain {r} hr := by
    obtain ⟨term, success, _ | hint⟩ := r
    · refine plain_record ?_
      rintro _ (_ | ⟨_, _ | ⟨_, ⟨⟩⟩⟩)
      · exact hr.1
      · trivial
    · refine plain_record ?_
      rintro _ (_ | ⟨_, _ | ⟨_, _ | ⟨_, ⟨⟩⟩⟩⟩)
      · exact hr.1
      · trivial
      · exact hr.2 hint rfl
  ofJson {r} _ := by
    obtain ⟨term, success, _ | hint⟩ := r
    · rfl
    · rfl
  opens _ := ⟨_, rfl⟩

instance : LawfulWire InstallRequest where
  Fits q := q.term < wordLimit ∧ q.leader < wordLimit ∧ q.index < wordLimit ∧
    q.snapshotTerm < wordLimit
  plain {q} hq := by
    refine plain_record ?_
    rintro _ (_ | ⟨_, _ | ⟨_, _ | ⟨_, _ | ⟨_, _ | ⟨_, ⟨⟩⟩⟩⟩⟩⟩)
    · exact hq.1
    · exact hq.2.1
    · exact hq.2.2.1
    · exact hq.2.2.2
    · exact plain_bytes q.data
  ofJson {q} _ := by
    let fs : Fields := [("term", .natural q.term), ("leader_id", .natural q.leader),
      ("last_included_index", .natural q.index), ("last_included_term", .natural q.snapshotTerm),
      ("data", bytes q.data)]
    have hfields : fields [.of "term" decodeWord, .of "leader_id" decodeWord,
        .of "last_included_index" decodeWord, .of "last_included_term" decodeWord,
        .of "data" decodeBytes] (Wire.toJson q) = .ok fs := by
      refine fields_record (by simp) ?_
      rintro _ (_ | ⟨_, _ | ⟨_, _ | ⟨_, _ | ⟨_, _ | ⟨_, ⟨⟩⟩⟩⟩⟩⟩)
      · exact ⟨_, rfl, check_of (a := q.term) rfl _⟩
      · exact ⟨_, rfl, check_of (a := q.leader) rfl _⟩
      · exact ⟨_, rfl, check_of (a := q.index) rfl _⟩
      · exact ⟨_, rfl, check_of (a := q.snapshotTerm) rfl _⟩
      · exact ⟨_, rfl, check_of (decodeBytes_bytes q.data) _⟩
    have hdata : fs.need "data" decodeBytes = .ok q.data :=
      Fields.need_eq rfl (decodeBytes_bytes q.data)
    simp only [Wire.ofJson, hfields, bind, Except.bind, hdata]
    rfl
  opens _ := ⟨_, rfl⟩

instance : LawfulWire InstallReply where
  Fits r := r.term < wordLimit
  plain {r} hr := by
    refine plain_record ?_
    rintro _ (_ | ⟨_, ⟨⟩⟩)
    exact hr
  ofJson _ := rfl
  opens _ := ⟨_, rfl⟩

/-! ## The record of a data folder -/

theorem decodeTime_text (s : Time.Stamp) : decodeTime (.string s.text) = .ok s.text := by
  simp only [decodeTime, decodeString, bind, Except.bind, Time.isValid_text, if_true]

theorem decodeName_lifecycle (l : Lifecycle) :
    decodeName Lifecycle.ofName? (.string l.name) = .ok l := by
  cases l <;> rfl

instance : LawfulWire SystemRecord where
  Fits r := r.node < wordLimit ∧ r.bootCount < wordLimit ∧ ∃ s : Time.Stamp, r.lastStartedAt = s.text
  plain {r} hr := by
    refine plain_record ?_
    rintro _ (_ | ⟨_, _ | ⟨_, _ | ⟨_, _ | ⟨_, ⟨⟩⟩⟩⟩⟩)
    · exact hr.1
    · trivial
    · exact hr.2.1
    · trivial
  ofJson {r} hr := by
    let fs : Fields := [("node_id", .natural r.node), ("lifecycle", .string r.lifecycle.name),
      ("boot_count", .natural r.bootCount), ("last_started_at", .string r.lastStartedAt)]
    have hlifecycle := decodeName_lifecycle r.lifecycle
    have htime : decodeTime (.string r.lastStartedAt) = .ok r.lastStartedAt := by
      obtain ⟨-, -, s, hs⟩ := hr
      rw [hs, decodeTime_text]
    have hfields : fields [.of "node_id" decodeWord, .of "lifecycle" (decodeName Lifecycle.ofName?),
        .of "boot_count" decodeWord, .of "last_started_at" decodeTime] (Wire.toJson r) = .ok fs := by
      refine fields_record (by simp) ?_
      rintro _ (_ | ⟨_, _ | ⟨_, _ | ⟨_, _ | ⟨_, ⟨⟩⟩⟩⟩⟩)
      · exact ⟨_, rfl, check_of (a := r.node) rfl _⟩
      · exact ⟨_, rfl, check_of hlifecycle _⟩
      · exact ⟨_, rfl, check_of (a := r.bootCount) rfl _⟩
      · exact ⟨_, rfl, check_of htime _⟩
    have hneed : fs.need "lifecycle" (decodeName Lifecycle.ofName?) = .ok r.lifecycle :=
      Fields.need_eq rfl hlifecycle
    have hneed' : fs.need "last_started_at" decodeTime = .ok r.lastStartedAt :=
      Fields.need_eq rfl htime
    simp only [Wire.ofJson, hfields, bind, Except.bind, hneed, hneed']
    rfl
  opens _ := ⟨_, rfl⟩

/-- A text of visible characters is written without escapes that are blanks. -/
theorem solid_quote {s : String} (h : ∀ c ∈ s.toList, Time.Visible c) : Solid (quote s) := by
  have hmark : Solid [0x22] := Bytes.solid_of_all rfl
  have hchar : ∀ c, Time.Visible c → Solid (escapeChar c) := by
    intro c hc
    have hplain : Solid (String.utf8EncodeChar c) := by
      obtain ⟨hlow, hhigh⟩ := hc
      rw [utf8EncodeChar_small (by omega)]
      intro b hb
      rw [List.mem_singleton.mp hb, UInt8.toNat_ofNat_of_lt' (hhigh.trans (by decide))]
      exact ⟨hlow, hhigh⟩
    unfold escapeChar
    split_ifs
    all_goals first
      | exact Bytes.solid_of_all rfl
      | exact (Bytes.solid_of_all rfl).append (Bytes.solid_hexDigits 4 _)
      | exact hplain
  have htext : Solid (s.toList.flatMap escapeChar) := by
    intro b hb
    obtain ⟨c, hc, hbc⟩ := List.mem_flatMap.mp hb
    exact hchar c (h c hc) b hbc
  exact (hmark.append htext).append hmark

theorem SystemRecord.solid {r : SystemRecord} (hr : Fits r) : Solid (Wire.encode r) := by
  obtain ⟨-, -, s, hs⟩ := hr
  apply solid_record
  rintro _ (_ | ⟨_, _ | ⟨_, _ | ⟨_, _ | ⟨_, ⟨⟩⟩⟩⟩⟩)
  · show Solid (quote "node_id") ∧ Solid (Bytes.decimal r.node)
    exact ⟨Bytes.solid_of_all rfl, Bytes.solid_decimal r.node⟩
  · show Solid (quote "lifecycle") ∧ Solid (quote r.lifecycle.name)
    refine ⟨Bytes.solid_of_all rfl, ?_⟩
    cases r.lifecycle with
    | running => exact Bytes.solid_of_all rfl
    | stopped => exact Bytes.solid_of_all rfl
  · show Solid (quote "boot_count") ∧ Solid (Bytes.decimal r.bootCount)
    exact ⟨Bytes.solid_of_all rfl, Bytes.solid_decimal r.bootCount⟩
  · show Solid (quote "last_started_at") ∧ Solid (quote r.lastStartedAt)
    rw [hs]
    exact ⟨Bytes.solid_of_all rfl, solid_quote s.visible⟩

/-! ## Round trips -/

/-- A value that its text gives back, where the text stands alone and where it is what a body opens with. -/
structure Wire.RoundTrips {α : Type} [Wire α] (a : α) : Prop where
  decode : Wire.decode (Wire.encode a) = .ok a
  decodeAhead : Wire.decodeAhead (Wire.encode a) = .ok a

theorem Wire.roundTrips {α : Type} [Wire α] [LawfulWire α] {a : α} (ha : Fits a) : RoundTrips a where
  decode := Wire.decode_encode ha
  decodeAhead := by
    rw [Wire.decodeAhead, Wire.encode, read_render (LawfulWire.plain ha)]
    exact LawfulWire.ofJson ha

namespace Record

/-- A value whose record is one line with one space, the one before the checksum, and that is read back from the line
and from the file that holds it. -/
structure RoundTrips {α : Type} [Wire α] (a : α) : Prop where
  line : ∃ sum : Bytes, encode a = Wire.encode a ++ 0x20 :: sum ∧ sum.length = 8 ∧
    ∀ b ∈ Wire.encode a ++ sum, b ≠ 0x20 ∧ b ≠ 0x0A
  decode : Record.decode (encode a) = .ok a
  read : ∀ (name : String) (d : Disk), d.folder.find? name = some (.file (encode a ++ [0x0A])) →
    read? name d = .ok (some a)

theorem roundTrips {α : Type} [Wire α] [LawfulWire α] {a : α} (ha : Fits a)
    (hsolid : Solid (Wire.encode a)) : RoundTrips a where
  line := by
    refine ⟨Bytes.hexDigits 8 (crc32 (Wire.encode a)).toNat, rfl, rfl, fun b hb => ?_⟩
    obtain ⟨hlow, -⟩ := (hsolid.append (Bytes.solid_hexDigits 8 _)) b hb
    constructor
    · rintro rfl
      exact absurd hlow (by decide)
    · rintro rfl
      exact absurd hlow (by decide)
  decode := decode_encode ha
  read _ _ hfile := read?_line ha hfile

end Record

/-- Every record and every message is read back as it was written, whatever it holds. -/
theorem formats_round_trip :
    (∀ e : Entry, Fits e → Wire.RoundTrips e ∧ Record.RoundTrips e) ∧
    (∀ h : HardState, Fits h → Wire.RoundTrips h ∧ Record.RoundTrips h) ∧
    (∀ s : Snapshot, Fits s → Wire.RoundTrips s ∧ Record.RoundTrips s) ∧
    (∀ r : SystemRecord, Fits r → Wire.RoundTrips r ∧ Record.RoundTrips r) ∧
    (∀ q : VoteRequest, Fits q → Wire.RoundTrips q) ∧
    (∀ r : VoteReply, Fits r → Wire.RoundTrips r) ∧
    (∀ q : AppendRequest, Fits q → Wire.RoundTrips q) ∧
    (∀ r : AppendReply, Fits r → Wire.RoundTrips r) ∧
    (∀ q : InstallRequest, Fits q → Wire.RoundTrips q) ∧
    ∀ r : InstallReply, Fits r → Wire.RoundTrips r :=
  ⟨fun e he => ⟨Wire.roundTrips he, Record.roundTrips he (SolidWire.solid e)⟩,
    fun h hh => ⟨Wire.roundTrips hh, Record.roundTrips hh (SolidWire.solid h)⟩,
    fun s hs => ⟨Wire.roundTrips hs, Record.roundTrips hs (SolidWire.solid s)⟩,
    fun _ hr => ⟨Wire.roundTrips hr, Record.roundTrips hr (SystemRecord.solid hr)⟩,
    fun _ => Wire.roundTrips, fun _ => Wire.roundTrips, fun _ => Wire.roundTrips,
    fun _ => Wire.roundTrips, fun _ => Wire.roundTrips, fun _ => Wire.roundTrips⟩

/-- A leap second on a leap day, with a fraction and an offset. -/
def leapSecond : Time.Stamp where
  date := ⟨2024, 2, 29⟩
  mark := 'T'
  hour := 23
  minute := 59
  second := 60
  fraction := ['5']
  offset := .shift true 1 30
  year_range := by decide
  month_range := by decide
  day_range := by decide
  mark_case := Or.inl rfl
  hour_lt := by decide
  minute_lt := by decide
  second_le := le_rfl
  fraction_digits := List.forall_mem_singleton.mpr rfl
  offset_proper := show 1 < 24 ∧ 30 < 60 by decide
  inRange := by decide

theorem formats_round_trip_samples :
    Wire.RoundTrips (⟨3198, 7, [0, 255]⟩ : Entry) ∧
    Record.encode (⟨3198, 7, [0, 255]⟩ : Entry) =
      Bytes.ofString "\x7b\"index\":3198,\"term\":7,\"command\":[0,255]\x7d 000c14b4" ∧
    Record.RoundTrips (⟨3198, 7, [0, 255]⟩ : Entry) ∧
    Record.RoundTrips (⟨2 ^ 64 - 1, some 0⟩ : HardState) ∧
    Record.RoundTrips (⟨2 ^ 64 - 1, 0, [0x0A, 0x20, 0x22]⟩ : Snapshot) ∧
    leapSecond.text = "2024-02-29T23:59:60.5-01:30" ∧
    Record.RoundTrips (⟨1, .stopped, 2 ^ 64 - 1, leapSecond.text⟩ : SystemRecord) ∧
    Wire.RoundTrips (⟨2 ^ 64 - 1, 3, 0, 0⟩ : VoteRequest) ∧
    Wire.RoundTrips (⟨2, true⟩ : VoteReply) ∧
    Wire.RoundTrips (⟨2, 1, 0, 0, [⟨1, 2, []⟩, ⟨2, 2, [0x20]⟩], 2 ^ 64 - 1⟩ : AppendRequest) ∧
    Wire.RoundTrips (⟨2, false, none⟩ : AppendReply) ∧
    Wire.RoundTrips (⟨2, false, some 0⟩ : AppendReply) ∧
    Wire.RoundTrips (⟨2, 1, 9, 1, [1, 2, 3]⟩ : InstallRequest) ∧
    Wire.RoundTrips (⟨2⟩ : InstallReply) := by
  obtain ⟨hentry, hhard, hsnapshot, hsystem, hvote, hvoted, happend, happended, hinstall, hinstalled⟩ :=
    formats_round_trip
  have hsmall : Fits (⟨3198, 7, [0, 255]⟩ : Entry) := ⟨by decide, by decide⟩
  have hterm : 2 < wordLimit := by decide
  refine ⟨(hentry _ hsmall).1, by decide +kernel, (hentry _ hsmall).2, ?_, ?_, rfl, ?_, ?_, ?_, ?_, ?_, ?_, ?_, ?_⟩
  · exact (hhard _ ⟨by decide, by decide⟩).2
  · exact (hsnapshot _ ⟨by decide, by decide⟩).2
  · exact (hsystem _ ⟨by decide, by decide, leapSecond, rfl⟩).2
  · exact hvote _ ⟨by decide, by decide, by decide, by decide⟩
  · exact hvoted _ hterm
  · refine happend _ ⟨by decide, fun e he => ?_⟩
    rcases List.mem_cons.mp he with rfl | he
    · exact ⟨by decide, by decide⟩
    · rw [List.mem_singleton.mp he]
      exact ⟨by decide, by decide⟩
  · exact happended _ ⟨by decide, by decide⟩
  · exact happended _ ⟨by decide, by decide⟩
  · exact hinstall _ ⟨by decide, by decide, by decide, by decide⟩
  · exact hinstalled _ hterm

end RaftNode
