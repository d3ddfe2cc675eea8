import RaftNode.Store.File
import RaftNode.Proofs.Reading
/-!
# Records on disk

A record gives back the value it was written for. It has no line feed, so a file of records is read back line by line.
-/
namespace RaftNode

open Json

/-! ## Bytes that a record is made of -/

/-- A text without control characters. -/
def Written (bs : Bytes) : Prop :=
  ∃ cs : List Char, bs = cs.flatMap String.utf8EncodeChar ∧ ∀ c ∈ cs, 0x20 ≤ c.toNat

theorem Written.append {bs bs' : Bytes} (h : Written bs) (h' : Written bs') :
    Written (bs ++ bs') := by
  obtain ⟨cs, rfl, hcs⟩ := h
  obtain ⟨cs', rfl, hcs'⟩ := h'
  refine ⟨cs ++ cs', List.flatMap_append.symm, fun c hc => ?_⟩
  exact (List.mem_append.mp hc).elim (hcs c) (hcs' c)

theorem written_char {c : Char} (hc : 0x20 ≤ c.toNat) : Written (String.utf8EncodeChar c) :=
  ⟨[c], by simp, by simpa using hc⟩

/-- A byte of ASCII is the encoding of a character. -/
theorem utf8EncodeChar_ascii {b : UInt8} (hb : b.toNat < 0x80) :
    (Char.ofNat b.toNat).toNat = b.toNat ∧ String.utf8EncodeChar (Char.ofNat b.toNat) = [b] := by
  have hvalue : (Char.ofNat b.toNat).toNat = b.toNat := by
    rw [Char.ofNat, dif_pos (Or.inl (by omega))]
    rfl
  refine ⟨hvalue, ?_⟩
  unfold String.utf8EncodeChar
  rw [show (Char.ofNat b.toNat).val.toNat = b.toNat from hvalue]
  simp [show b.toNat ≤ 0x7F by omega]

theorem flatMap_ascii {bs : Bytes} (h : ∀ b ∈ bs, b.toNat < 0x80) :
    (bs.map fun b => Char.ofNat b.toNat).flatMap String.utf8EncodeChar = bs := by
  induction bs with
  | nil => rfl
  | cons b bs ih =>
    obtain ⟨hb, hbs⟩ := List.forall_mem_cons.mp h
    rw [List.map_cons, List.flatMap_cons, (utf8EncodeChar_ascii hb).2, ih hbs, List.singleton_append]

/-- Bytes of printable ASCII. -/
theorem written_of_ascii {bs : Bytes} (h : ∀ b ∈ bs, 0x20 ≤ b.toNat ∧ b.toNat < 0x80) :
    Written bs := by
  refine ⟨_, (flatMap_ascii fun b hb => (h b hb).2).symm, fun c hc => ?_⟩
  obtain ⟨b, hb, rfl⟩ := List.mem_map.mp hc
  rw [(utf8EncodeChar_ascii (h b hb).2).1]
  exact (h b hb).1

/-- The same for given bytes, one after another. -/
theorem written_of_all {bs : Bytes}
    (h : (bs.all fun b => decide (0x20 ≤ b.toNat) && decide (b.toNat < 0x80)) = true) :
    Written bs := by
  refine written_of_ascii fun b hb => ?_
  have hbyte := List.all_eq_true.mp h b hb
  rw [Bool.and_eq_true, decide_eq_true_eq, decide_eq_true_eq] at hbyte
  exact hbyte

/-- The first character of a text that opens with a brace. -/
theorem Written.opens {bs rest : Bytes} (h : Written bs) (hbs : bs = 0x7B :: rest) :
    ∃ cs : List Char, bs = ('{' :: cs).flatMap String.utf8EncodeChar ∧ ∀ c ∈ cs, 0x20 ≤ c.toNat := by
  obtain ⟨cs, rfl, hcs⟩ := h
  cases cs with
  | nil => cases hbs
  | cons c cs =>
    rw [List.flatMap_cons] at hbs
    have hc : c = '{' := by
      rcases utf8EncodeChar_cases c with ⟨hascii, he⟩ | hbeyond
      · rw [he, List.singleton_append] at hbs
        have hvalue := congrArg UInt8.toNat (List.cons.inj hbs).1
        rw [UInt8.toNat_ofNat_of_lt' (hascii.trans (by decide))] at hvalue
        exact Char.toNat_inj.mp hvalue
      · obtain ⟨b, tail, hb⟩ := List.exists_cons_of_ne_nil (String.utf8EncodeChar_ne_nil (c := c))
        rw [hb, List.cons_append] at hbs
        have := hbeyond b (hb ▸ List.mem_cons_self)
        rw [(List.cons.inj hbs).1] at this
        exact absurd this (by decide)
    exact ⟨cs, by rw [hc], fun a ha => hcs a (List.mem_cons_of_mem c ha)⟩

/-- No byte of such a text is one of a control character. -/
theorem Written.printable {bs : Bytes} (h : Written bs) : ∀ b ∈ bs, 0x20 ≤ b.toNat := by
  obtain ⟨cs, rfl, hcs⟩ := h
  intro b hb
  obtain ⟨c, hc, hbc⟩ := List.mem_flatMap.mp hb
  have hlow := hcs c hc
  rcases utf8EncodeChar_cases c with ⟨hascii, he⟩ | hbeyond
  · rw [he, List.mem_singleton] at hbc
    rw [hbc, UInt8.toNat_ofNat_of_lt' (hascii.trans (by decide))]
    exact hlow
  · have := hbeyond b hbc
    omega

namespace Bytes

theorem mem_hexDigits {width n : Nat} {b : UInt8} (hb : b ∈ hexDigits width n) :
    ∃ d < 16, b = hexDigit d := by
  induction width generalizing n with
  | zero => cases hb
  | succ width ih =>
    rcases List.mem_append.mp hb with hb | hb
    · exact ih hb
    · exact ⟨n % 16, Nat.mod_lt n (by omega), List.mem_singleton.mp hb⟩

theorem hexDigits_ascii {width n : Nat} :
    ∀ b ∈ hexDigits width n, 0x20 ≤ b.toNat ∧ b.toNat < 0x80 := by
  intro b hb
  obtain ⟨d, hd, rfl⟩ := mem_hexDigits hb
  interval_cases d <;> decide

end Bytes

theorem written_escapeChar (c : Char) : Written (escapeChar c) := by
  unfold escapeChar
  split_ifs with h₁ h₂ h₃ h₄ h₅ h₆ h₇ h₈
  all_goals try exact written_of_all rfl
  · exact (written_of_all rfl).append (written_of_ascii Bytes.hexDigits_ascii)
  · exact written_char (by omega)

theorem written_quote (s : String) : Written (quote s) := by
  have hmark : Written [0x22] := written_of_all rfl
  have htext : ∀ cs : List Char, Written (cs.flatMap escapeChar) := by
    intro cs
    induction cs with
    | nil => exact ⟨[], rfl, by simp⟩
    | cons c cs ih => exact (written_escapeChar c).append ih
  exact (hmark.append (htext s.toList)).append hmark

mutual

theorem written_render (v : Json) : Written (render v) := by
  have hmark : ∀ b : UInt8, 0x20 ≤ b.toNat ∧ b.toNat < 0x80 → Written [b] := fun b hb =>
    written_of_ascii (by simpa using hb)
  match v with
  | .null | .number | .hugeNumber | .badString | .broken | .bool true | .bool false =>
    rw [render]
    exact written_of_all rfl
  | .natural n =>
    rw [render]
    refine written_of_ascii fun b hb => ?_
    have hdigit := Bytes.isDigit_decimal n b hb
    simp only [Bytes.isDigit, Bool.and_eq_true, decide_eq_true_eq, UInt8.le_iff_toNat_le] at hdigit
    exact ⟨le_trans (by decide) hdigit.1, hdigit.2.trans_lt (by decide)⟩
  | .string s => exact written_quote s
  | .array items closed =>
    rw [render]
    exact ((hmark 0x5B (by decide)).append (written_renderItems items)).append (hmark 0x5D (by decide))
  | .object members closed =>
    rw [render]
    exact ((hmark 0x7B (by decide)).append (written_renderMembers members)).append
      (hmark 0x7D (by decide))

theorem written_renderItems (items : List Json) : Written (renderItems items) := by
  have hcomma : Written [0x2C] := written_of_all rfl
  match items with
  | [] => exact ⟨[], rfl, by simp⟩
  | [v] => exact written_render v
  | v :: w :: rest =>
    exact (written_render v).append (hcomma.append (written_renderItems (w :: rest)))

theorem written_renderMembers (members : List (Option String × Json)) :
    Written (renderMembers members) := by
  have hcomma : Written [0x2C] := written_of_all rfl
  have hcolon : Written [0x3A] := written_of_all rfl
  match members with
  | [] => exact ⟨[], rfl, by simp⟩
  | [(name, v)] => exact (written_quote _).append (hcolon.append (written_render v))
  | (name, v) :: m :: rest =>
    have h := ((written_quote (name.getD "")).append (hcolon.append (written_render v))).append
      (hcomma.append (written_renderMembers (m :: rest)))
    simpa [renderMembers] using h

end

/-! ## Checksums -/

namespace Bytes

theorem splitLast?_none {sep : UInt8} {bs : Bytes} (h : sep ∉ bs) : splitLast? sep bs = none := by
  induction bs with
  | nil => rfl
  | cons b bs ih =>
    rw [splitLast?, ih fun hmem => h (List.mem_cons_of_mem b hmem)]
    refine if_neg ?_
    rintro rfl
    exact h List.mem_cons_self

theorem splitLast?_append {sep : UInt8} (front : Bytes) {back : Bytes} (h : sep ∉ back) :
    splitLast? sep (front ++ sep :: back) = some (front, back) := by
  induction front with
  | nil => rw [List.nil_append, splitLast?, splitLast?_none h, if_pos rfl]
  | cons b front ih => rw [List.cons_append, splitLast?, ih]

end Bytes

namespace Record

theorem checksum?_fold {width n : Nat} (hsize : n < UInt32.size) (hn : n < 16 ^ width) :
    (Bytes.hexDigits width n).foldl (fun n d => do
      let m := 16 * (← n) + (← Bytes.hexValue? d)
      if m < UInt32.size then some m else none) (some 0) = some n := by
  induction width generalizing n with
  | zero =>
    rw [show n = 0 by simpa using hn]
    rfl
  | succ width ih =>
    have hless : n / 16 < 16 ^ width := by
      rw [Nat.div_lt_iff_lt_mul (by omega)]
      rwa [pow_succ] at hn
    have hvalue : 16 * (n / 16) + n % 16 = n := Nat.div_add_mod n 16
    rw [Bytes.hexDigits, List.foldl_append, ih (by omega) hless]
    simp [Bytes.hexValue?_hexDigit (Nat.mod_lt n (by omega : 0 < 16)), hvalue, hsize]

theorem checksum?_hexDigits {n : Nat} (hn : n < UInt32.size) :
    checksum? (Bytes.hexDigits 8 n) = some n := by
  have hne : (Bytes.hexDigits 8 n).isEmpty = false := by
    simp [Bytes.hexDigits]
  have hgo : checksum?.go (Bytes.hexDigits 8 n) = some n := by
    rw [checksum?.go, hne]
    exact checksum?_fold hn hn
  unfold checksum?
  split
  · rename_i rest hplus
    have hmem : (0x2B : UInt8) ∈ Bytes.hexDigits 8 n := hplus ▸ List.mem_cons_self
    obtain ⟨d, hd, hsign⟩ := Bytes.mem_hexDigits hmem
    interval_cases d <;> cases hsign
  · exact hgo

theorem verify_withChecksum (text : Bytes) : verify (withChecksum text) = .ok text := by
  have hspace : (0x20 : UInt8) ∉ Bytes.hexDigits 8 (crc32 text).toNat := by
    intro hmem
    obtain ⟨d, hd, hsign⟩ := Bytes.mem_hexDigits hmem
    interval_cases d <;> cases hsign
  rw [verify, withChecksum, Bytes.splitLast?_append text hspace]
  simp [checksum?_hexDigits (crc32 text).toNat_lt]

end Record

/-! ## Values -/

/-- A value that its text gives back. -/
class LawfulWire (α : Type) [Wire α] where
  /-- A value that a program can hold. -/
  Fits : α → Prop
  plain : ∀ {a : α}, Fits a → Plain (Wire.toJson a)
  ofJson : ∀ {a : α}, Fits a → Wire.ofJson (Wire.toJson a) = .ok a
  /-- The text is that of an object. -/
  opens : ∀ a : α, ∃ rest, Wire.encode a = 0x7B :: rest

theorem Wire.decode_encode {α : Type} [Wire α] [LawfulWire α] {a : α} (ha : LawfulWire.Fits a) :
    Wire.decode (Wire.encode a) = .ok a := by
  rw [Wire.decode, Wire.encode, decode_render _ (LawfulWire.plain ha), LawfulWire.ofJson ha]

theorem plain_bytes (bs : Bytes) : Plain (bytes bs) := by
  refine plain_list fun v hv => ?_
  obtain ⟨b, -, rfl⟩ := List.mem_map.mp hv
  exact b.toNat_lt.trans (by decide)

theorem decodeBytes_bytes (bs : Bytes) : decodeBytes (bytes bs) = .ok bs := by
  refine decodeList_map (f := decodeByte) (g := fun b => .natural b.toNat) fun b _ => ?_
  rw [decodeByte, if_pos b.toNat_lt, UInt8.ofNat_toNat]

instance : LawfulWire Entry where
  Fits e := e.index < wordLimit ∧ e.term < wordLimit
  plain {e} he := by
    refine plain_record ?_
    rintro _ (_ | ⟨_, _ | ⟨_, _ | ⟨_, ⟨⟩⟩⟩⟩)
    · exact he.1
    · exact he.2
    · exact plain_bytes e.command
  ofJson {e} _ := by
    let fs : Fields :=
      [("index", .natural e.index), ("term", .natural e.term), ("command", bytes e.command)]
    have hfields : fields [.of "index" decodeWord, .of "term" decodeWord, .of "command" decodeBytes]
        (Wire.toJson e) = .ok fs := by
      refine fields_record (by simp) ?_
      rintro _ (_ | ⟨_, _ | ⟨_, _ | ⟨_, ⟨⟩⟩⟩⟩)
      · exact ⟨_, rfl, check_of (a := e.index) rfl _⟩
      · exact ⟨_, rfl, check_of (a := e.term) rfl _⟩
      · exact ⟨_, rfl, check_of (decodeBytes_bytes e.command) _⟩
    have hindex : fs.need "index" decodeWord = .ok e.index := Fields.need_eq rfl rfl
    have hterm : fs.need "term" decodeWord = .ok e.term := Fields.need_eq rfl rfl
    have hcommand : fs.need "command" decodeBytes = .ok e.command :=
      Fields.need_eq rfl (decodeBytes_bytes e.command)
    simp only [Wire.ofJson, hfields, bind, Except.bind, hindex, hterm, hcommand]
    rfl
  opens _ := ⟨_, rfl⟩

instance : LawfulWire SnapshotPoint where
  Fits p := p.index < wordLimit ∧ p.term < wordLimit
  plain {p} hp := by
    refine plain_record ?_
    rintro _ (_ | ⟨_, _ | ⟨_, ⟨⟩⟩⟩)
    · exact hp.1
    · exact hp.2
  ofJson {p} _ := by
    let fs : Fields :=
      [("last_included_index", .natural p.index), ("last_included_term", .natural p.term)]
    have hfields : fields [.of "last_included_index" decodeWord, .of "last_included_term" decodeWord]
        (Wire.toJson p) = .ok fs := by
      refine fields_record (by simp) ?_
      rintro _ (_ | ⟨_, _ | ⟨_, ⟨⟩⟩⟩)
      · exact ⟨_, rfl, check_of (a := p.index) rfl _⟩
      · exact ⟨_, rfl, check_of (a := p.term) rfl _⟩
    have hindex : fs.need "last_included_index" decodeWord = .ok p.index := Fields.need_eq rfl rfl
    have hterm : fs.need "last_included_term" decodeWord = .ok p.term := Fields.need_eq rfl rfl
    simp only [Wire.ofJson, hfields, bind, Except.bind, hindex, hterm]
    rfl
  opens _ := ⟨_, rfl⟩

instance : LawfulWire Snapshot where
  Fits snap := LawfulWire.Fits snap.point
  plain {snap} hsnap := by
    refine plain_record ?_
    rintro _ (_ | ⟨_, _ | ⟨_, ⟨⟩⟩⟩)
    · exact LawfulWire.plain hsnap
    · exact plain_bytes snap.data
  ofJson {snap} hsnap := by
    let fs : Fields := [("metadata", Wire.toJson snap.point), ("data", bytes snap.data)]
    have hpoint : Wire.ofJson (Wire.toJson snap.point) = .ok snap.point := LawfulWire.ofJson hsnap
    have hfields : fields [.of "metadata" (Wire.ofJson : Decoder SnapshotPoint),
        .of "data" decodeBytes] (Wire.toJson snap) = .ok fs := by
      refine fields_record (by simp) ?_
      rintro _ (_ | ⟨_, _ | ⟨_, ⟨⟩⟩⟩)
      · exact ⟨_, rfl, check_of hpoint _⟩
      · exact ⟨_, rfl, check_of (decodeBytes_bytes snap.data) _⟩
    have hmetadata : fs.need "metadata" Wire.ofJson = .ok snap.point := Fields.need_eq rfl hpoint
    have hdata : fs.need "data" decodeBytes = .ok snap.data :=
      Fields.need_eq rfl (decodeBytes_bytes snap.data)
    change (do
      let fs ← fields [.of "metadata" (Wire.ofJson : Decoder SnapshotPoint), .of "data" decodeBytes]
        (Wire.toJson snap)
      let p ← fs.need "metadata" (Wire.ofJson : Decoder SnapshotPoint)
      return (⟨p.index, p.term, ← fs.need "data" decodeBytes⟩ : Snapshot)) = .ok snap
    simp only [hfields, bind, Except.bind, hmetadata, hdata]
    rfl
  opens _ := ⟨_, rfl⟩

instance : LawfulWire HardState where
  Fits h := h.term < wordLimit ∧ ∀ v ∈ h.vote, v < wordLimit
  plain {h} hh := by
    refine plain_record ?_
    rintro _ (_ | ⟨_, _ | ⟨_, ⟨⟩⟩⟩)
    · exact hh.1
    · cases hvote : h.vote with
      | none => trivial
      | some v => exact hh.2 v hvote
  ofJson {h} _ := by
    let fs : Fields := [("current_term", .natural h.term), ("voted_for", optional .natural h.vote)]
    have hvote : decodeOptional decodeWord (optional .natural h.vote) = .ok h.vote := by
      cases h.vote <;> rfl
    have hfields : fields [.of "current_term" decodeWord, .of "voted_for" (decodeOptional decodeWord)]
        (Wire.toJson h) = .ok fs := by
      refine fields_record (by simp) ?_
      rintro _ (_ | ⟨_, _ | ⟨_, ⟨⟩⟩⟩)
      · exact ⟨_, rfl, check_of (a := h.term) rfl _⟩
      · exact ⟨_, rfl, check_of hvote _⟩
    have hterm : fs.need "current_term" decodeWord = .ok h.term := Fields.need_eq rfl rfl
    have hmay : fs.may "voted_for" decodeWord = .ok h.vote := hvote
    simp only [Wire.ofJson, hfields, bind, Except.bind, hterm, hmay]
    rfl
  opens _ := ⟨_, rfl⟩

/-! ## Records -/

namespace Record

variable {α : Type} [Wire α] [LawfulWire α] {a : α}

theorem decode_encode (ha : LawfulWire.Fits a) : decode (encode a) = .ok a := by
  rw [decode, encode, verify_withChecksum]
  simp only [bind, Except.bind, Wire.decode_encode ha]
  rfl

/-- A record opens with a brace and ends with a digit, and no character in it is a control character. -/
theorem encode_chars (a : α) : ∃ (cs : List Char) (last : Char),
    encode a = ('{' :: cs).flatMap String.utf8EncodeChar ∧ (∀ c ∈ cs, 0x20 ≤ c.toNat) ∧
      cs.getLast? = some last ∧ Utf8.isBlank last = false := by
  obtain ⟨rest, hrest⟩ := LawfulWire.opens a
  obtain ⟨cs, hcs, hprint⟩ := (written_render (Wire.toJson a)).opens hrest
  generalize hn : (crc32 (Wire.encode a)).toNat = n
  let sum : Bytes := 0x20 :: Bytes.hexDigits 8 n
  have hsum : ∀ b ∈ sum, 0x20 ≤ b.toNat ∧ b.toNat < 0x80 := by
    intro b hb
    rcases List.mem_cons.mp hb with rfl | hb
    · decide
    · exact Bytes.hexDigits_ascii b hb
  have hlast : sum.getLast? = some (Bytes.hexDigit (n % 16)) := by
    change (0x20 :: (Bytes.hexDigits 7 (n / 16) ++ [Bytes.hexDigit (n % 16)])).getLast? = _
    rw [← List.cons_append, List.getLast?_concat]
  refine ⟨cs ++ sum.map fun b => Char.ofNat b.toNat, Char.ofNat (Bytes.hexDigit (n % 16)).toNat,
    ?_, fun c hc => ?_, ?_, ?_⟩
  · rw [← List.cons_append, List.flatMap_append, flatMap_ascii fun b hb => (hsum b hb).2, ← hcs,
      encode, withChecksum, hn]
    rfl
  · rcases List.mem_append.mp hc with hc | hc
    · exact hprint c hc
    · obtain ⟨b, hb, rfl⟩ := List.mem_map.mp hc
      rw [(utf8EncodeChar_ascii (hsum b hb).2).1]
      exact (hsum b hb).1
  · rw [List.getLast?_append, List.getLast?_map, hlast]
    rfl
  · have hdigit : n % 16 < 16 := Nat.mod_lt n (by omega)
    generalize n % 16 = d at hdigit
    interval_cases d <;> decide

/-- What blanks stand behind a text that has none at its ends. -/
theorem trim_chars {c last : Char} {cs blanks : List Char} (hc : Utf8.isBlank c = false)
    (hlast : cs.getLast? = some last) (hblank : Utf8.isBlank last = false)
    (hblanks : ∀ b ∈ blanks, Utf8.isBlank b = true) :
    Utf8.trim (String.ofList (c :: cs ++ blanks)) = String.ofList (c :: cs) := by
  obtain ⟨front, rfl⟩ := List.getLast?_eq_some_iff.mp hlast
  have hfirst : (c :: (front ++ [last]) ++ blanks).dropWhile Utf8.isBlank =
      c :: (front ++ [last]) ++ blanks := by
    rw [List.cons_append, List.dropWhile_cons_of_neg (by simp [hc])]
  have hend : (blanks.reverse ++ (last :: (c :: front).reverse)).dropWhile Utf8.isBlank =
      last :: (c :: front).reverse := by
    rw [List.dropWhile_append, List.dropWhile_eq_nil_iff.mpr (by simpa using hblanks)]
    simp [hblank]
  rw [Utf8.trim, String.toList_ofList, hfirst, List.reverse_append, ← List.cons_append,
    List.reverse_append, List.reverse_singleton, List.singleton_append, hend, List.reverse_cons,
    List.reverse_reverse]

/-- A record is on one line. -/
theorem encode_line (a : α) : (0x0A : UInt8) ∉ encode a := by
  obtain ⟨cs, last, he, hprint, -, -⟩ := encode_chars a
  intro hmem
  have hwritten : Written (encode a) := ⟨'{' :: cs, he, by simpa using hprint⟩
  exact absurd (hwritten.printable _ hmem) (by decide)

theorem isBlank_encode (a : α) : isBlank (encode a) = false := by
  obtain ⟨cs, last, he, -, hlast, hblank⟩ := encode_chars a
  have htrim : Utf8.trim (String.ofList ('{' :: cs ++ [])) = String.ofList ('{' :: cs) :=
    trim_chars (by decide) hlast hblank (by simp)
  rw [List.append_nil] at htrim
  rw [isBlank, he, Utf8.decode?_encode]
  dsimp only
  rw [htrim]
  simp

/-- A file with a record in it is a text, and between its blanks stands the record. -/
theorem decode?_line (a : α) : ∃ s, Utf8.decode? (line a) = some s ∧
    (Utf8.trim s).isEmpty = false ∧ Bytes.ofString (Utf8.trim s) = encode a := by
  obtain ⟨cs, last, he, -, hlast, hblank⟩ := encode_chars a
  have hline : line a = ('{' :: cs ++ ['\n']).flatMap String.utf8EncodeChar := by
    rw [line, he, List.flatMap_append]
    rfl
  have htrim : Utf8.trim (String.ofList ('{' :: cs ++ ['\n'])) = String.ofList ('{' :: cs) :=
    trim_chars (by decide) hlast hblank (by simp; decide)
  refine ⟨_, by rw [hline, Utf8.decode?_encode], ?_, ?_⟩
  · rw [htrim]
    simp
  · rw [htrim, Bytes.ofString, String.toList_ofList, he]

theorem read?_line {name : String} {d : Disk} (ha : LawfulWire.Fits a)
    (hfile : d.folder.find? name = some (.file (line a))) : read? name d = .ok (some a) := by
  obtain ⟨s, hs, htext, hencode⟩ := decode?_line a
  have hread : d.readText? name = .ok (some (line a)) := by
    simp [Disk.readText?, Disk.read?, hfile, hs, bind, Except.bind]
  simp only [read?, hread, bind, Except.bind, Except.mapError, hs, Option.getD_some, htext, hencode,
    decode_encode ha]
  rfl

omit [LawfulWire α] in
/-- Only the file of that name is read. -/
theorem read?_congr {name : String} {d d' : Disk}
    (h : d'.folder.find? name = d.folder.find? name) :
    (read? name d' : Except RecordError (Option α)) = read? name d := by
  rw [read?, read?, Disk.readText?, Disk.readText?, Disk.read?, Disk.read?, h]

end Record

/-! ## Files of records -/

namespace Bytes

theorem splitLines_line {line : Bytes} (h : (0x0A : UInt8) ∉ line) (rest : Bytes) :
    splitLines (line ++ 0x0A :: rest) = (line :: (splitLines rest).1, (splitLines rest).2) := by
  induction line with
  | nil => rfl
  | cons b line ih =>
    have hb : b ≠ 0x0A := by
      rintro rfl
      exact h List.mem_cons_self
    rw [List.cons_append, splitLines, if_neg hb, ih fun hmem => h (List.mem_cons_of_mem b hmem)]

end Bytes

namespace FileStore

theorem splitLines_logText (es : List Entry) :
    Bytes.splitLines (logText es) = (es.map Record.encode, []) := by
  induction es with
  | nil => rfl
  | cons e es ih =>
    have hline : logText (e :: es) = Record.encode e ++ 0x0A :: logText es := by
      simp [logText, Record.line]
    rw [hline, Bytes.splitLines_line (Record.encode_line e), ih]
    rfl

theorem entriesOfLines_encode {es : List Entry} (hes : ∀ e ∈ es, LawfulWire.Fits e) (n : Nat) :
    entriesOfLines n (es.map Record.encode) = .ok (es, false) := by
  induction es generalizing n with
  | nil => rfl
  | cons e es ih =>
    obtain ⟨he, hrest⟩ := List.forall_mem_cons.mp hes
    rw [List.map_cons, entriesOfLines, Record.isBlank_encode]
    simp [Record.decode_encode he, ih hrest, Except.map]

theorem decode?_logText (es : List Entry) : (Utf8.decode? (logText es)).isSome = true := by
  have hchars : ∃ cs : List Char, logText es = cs.flatMap String.utf8EncodeChar := by
    induction es with
    | nil => exact ⟨[], rfl⟩
    | cons e es ih =>
      obtain ⟨cs, hcs⟩ := ih
      obtain ⟨cs', -, he, -⟩ := Record.encode_chars e
      refine ⟨('{' :: cs' ++ ['\n']) ++ cs, ?_⟩
      rw [List.flatMap_append, List.flatMap_append, ← he, ← hcs]
      rfl
  obtain ⟨cs, hcs⟩ := hchars
  rw [hcs, Utf8.decode?_encode]
  rfl

end FileStore

end RaftNode
