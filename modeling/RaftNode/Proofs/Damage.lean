import RaftNode.Proofs.Checksums
import RaftNode.Proofs.TornAppend
/-!
# Damaged files

One byte of a file is replaced by another. The file is then refused, or what is read from it is what was written, save
that the log may lose entries at its end. The byte can stand for anything: it can end a line or join two, be a blank
that is trimmed or a sign that is read over.
-/
namespace RaftNode

open Json

/-! ## What stands behind a text -/

namespace Json.Token

theorem ofWord_ne_nil (word : Bytes) : ofWord word ≠ [] := by
  unfold ofWord
  split
  · split <;> simp
  · split <;> simp

theorem scan_word_ne_nil (seen bs : Bytes) : scan (.word seen) bs ≠ [] := by
  induction bs generalizing seen with
  | nil => exact ofWord_ne_nil _
  | cons b bs ih =>
    rw [scan]
    split
    · exact ih _
    · simp [ofWord_ne_nil]

theorem scan_quoted_ne_nil (seen bs : Bytes) : scan (.quoted seen) bs ≠ [] ∧ scan (.escaped seen) bs ≠ [] := by
  induction bs generalizing seen with
  | nil => exact ⟨by simp [scan], by simp [scan]⟩
  | cons b bs ih =>
    constructor
    · rw [scan]
      split
      · simp
      split
      · exact (ih _).2
      split
      · simp
      · exact (ih _).1
    · rw [scan]
      exact (ih _).1

/-- A byte that is no blank opens something or is a token of its own. -/
theorem single_cases (b : UInt8) : isSpace b = true ∧ single b = ([], .between) ∨ single b = ([], .quoted []) ∨
    single b = ([], .word [b]) ∨ ∃ t, single b = ([t], .between) := by
  unfold single
  split
  · exact Or.inl ⟨‹_›, rfl⟩
  split
  · exact Or.inr (Or.inl rfl)
  split
  · exact Or.inr (Or.inr (Or.inl rfl))
  · refine Or.inr (Or.inr (Or.inr ?_))
    repeat' split
    all_goals exact ⟨_, rfl⟩

/-- Only blanks have no token. -/
theorem blank_of_scan {bs : Bytes} (h : scan .between bs = []) : ∀ b ∈ bs, isSpace b = true := by
  induction bs with
  | nil => exact List.forall_mem_nil _
  | cons b bs ih =>
    rw [scan] at h
    rcases single_cases b with ⟨hspace, hb⟩ | hb | hb | ⟨t, hb⟩
    · rw [hb] at h
      exact List.forall_mem_cons.mpr ⟨hspace, ih h⟩
    · rw [hb] at h
      exact absurd h (scan_quoted_ne_nil _ _).1
    · rw [hb] at h
      exact absurd h (scan_word_ne_nil _ _)
    · rw [hb] at h
      cases h

theorem isSpace_le {b : UInt8} (hb : isSpace b = true) : b.toNat ≤ 0x20 := by
  simp only [isSpace, Bool.or_eq_true, decide_eq_true_eq] at hb
  rcases hb with ((rfl | rfl) | rfl) | rfl <;> decide

/-- What a quote opens is one token. -/
theorem scan_quote_mark (rest : Bytes) :
    (∃ ts, scan .between (0x22 :: rest) = .bad :: ts) ∨
      ∃ text ts, scan .between (0x22 :: rest) = .text text :: ts := by
  have hopen : scan .between (0x22 :: rest) = scan (.quoted []) rest := rfl
  have hquoted (seen bs : Bytes) :
      ((∃ ts, scan (.quoted seen) bs = .bad :: ts) ∨ ∃ text ts, scan (.quoted seen) bs = .text text :: ts) ∧
        ((∃ ts, scan (.escaped seen) bs = .bad :: ts) ∨ ∃ text ts, scan (.escaped seen) bs = .text text :: ts) := by
    induction bs generalizing seen with
    | nil => exact ⟨Or.inl ⟨[], rfl⟩, Or.inl ⟨[], rfl⟩⟩
    | cons b bs ih =>
      refine ⟨?_, (ih _).1⟩
      rw [scan]
      split
      · unfold ofQuoted
        split
        · exact Or.inl ⟨_, rfl⟩
        · exact Or.inr ⟨_, _, rfl⟩
      split
      · exact (ih _).2
      split
      · exact Or.inl ⟨_, rfl⟩
      · exact (ih _).1
  rw [hopen]
  exact (hquoted [] rest).1

end Json.Token

/-- A text that opens with a quote holds neither an array nor an object. -/
theorem read_quote_mark (rest : Bytes) :
    (Json.read (0x22 :: rest)).1 = .broken ∨ (Json.read (0x22 :: rest)).1 = .badString ∨
      ∃ s, (Json.read (0x22 :: rest)).1 = .string s := by
  rw [Json.read]
  rcases Token.scan_quote_mark rest with ⟨ts, h⟩ | ⟨_ | s, ts, h⟩
  · rw [h]
    exact Or.inl rfl
  · rw [h]
    exact Or.inr (Or.inl (by simp [Place.run, Place.step, Place.opening, Place.put]))
  · rw [h]
    exact Or.inr (Or.inr ⟨s, by simp [Place.run, Place.step, Place.opening, Place.put]⟩)

variable {α : Type} [Wire α] {a b : α} {more : Bytes}

/-- Without its brace, the text of a record is none. -/
theorem decode_quote_mark [SolidWire α] (rest : Bytes) (h : Wire.decode (0x22 :: rest) = .ok b) : False := by
  obtain ⟨a, hvalue, -⟩ := exists_of_bind (x := Wire.ofJson (Json.read (0x22 :: rest)).1) h
  rcases read_quote_mark rest with hv | hv | ⟨s, hv⟩
  all_goals
    rw [hv] at hvalue
    obtain ⟨items, closed, ⟨⟩⟩ | ⟨members, closed, ⟨⟩⟩ := SolidWire.container hvalue

/-- Behind the text of a record and a blank, only blanks may stand. -/
theorem decode_behind [LawfulWire α] (ha : LawfulWire.Fits a)
    (h : Wire.decode (Wire.encode a ++ 0x20 :: more) = .ok b) : b = a ∧ ∀ c ∈ more, Token.isSpace c = true := by
  have hrun := Place.run_render (Wire.toJson a) (LawfulWire.plain ha) (Place.opens_value [])
    (Place.ends_cons (b := 0x20) rfl more)
  have hread : Json.read (Wire.encode a ++ 0x20 :: more) =
      (Wire.toJson a, !(Token.scan .between (0x20 :: more)).isEmpty) := by
    rw [Json.read, Wire.encode, hrun, Place.put, Place.run]
  rw [Wire.decode, decode, hread] at h
  obtain ⟨a', hvalue, hend⟩ := exists_of_bind h
  rw [LawfulWire.ofJson ha] at hvalue
  cases hvalue
  split at hend
  · cases hend
  · rename_i hblank
    cases hend
    refine ⟨rfl, ?_⟩
    have hscan : Token.scan .between (0x20 :: more) = [] := by simpa using hblank
    exact Token.blank_of_scan hscan

/-! ## Damaged records -/

theorem Damaged.singleton {c : UInt8} {bs : Bytes} (h : Damaged [c] bs) : ∃ c', c' ≠ c ∧ bs = [c'] := by
  obtain ⟨front, x, y, back, hne, hbs, rfl⟩ := h
  cases front with
  | nil =>
    obtain ⟨rfl, rfl⟩ := List.cons.inj hbs
    exact ⟨y, hne.symm, rfl⟩
  | cons z front => simp at hbs

theorem Bytes.exists_last {sep : UInt8} {bs : Bytes} (h : sep ∈ bs) :
    ∃ front back, bs = front ++ sep :: back ∧ sep ∉ back := by
  obtain ⟨back, front, hbs, hback⟩ := List.eq_append_cons_of_mem (List.mem_reverse.mpr h)
  refine ⟨front.reverse, back.reverse, ?_, by simpa using hback⟩
  have hreverse := congrArg List.reverse hbs
  simpa using hreverse

namespace Record

variable {line text tail : Bytes}

omit [Wire α] in
theorem verify_eq_ok {back text' : Bytes} (hback : (0x20 : UInt8) ∉ back)
    (h : verify (text ++ 0x20 :: back) = .ok text') :
    text' = text ∧ checksum? back = some (crc32 text).toNat := by
  rw [verify, Bytes.splitLast?_append text hback] at h
  dsimp only at h
  split at h
  · cases h
  · rename_i stored hstored
    split at h
    · rename_i heq
      cases h
      exact ⟨rfl, heq ▸ hstored⟩
    · cases h

theorem decode_eq_ok {back : Bytes} (hback : (0x20 : UInt8) ∉ back) (h : decode (text ++ 0x20 :: back) = .ok b) :
    Wire.decode text = .ok b ∧ checksum? back = some (crc32 text).toNat := by
  obtain ⟨text', hverify, hdecode⟩ := exists_of_bind h
  obtain ⟨rfl, hsum⟩ := verify_eq_ok hback hverify
  refine ⟨?_, hsum⟩
  cases hd : (Wire.decode text' : Except DecodeError α) with
  | error e =>
    rw [hd] at hdecode
    cases hdecode
  | ok b' =>
    rw [hd] at hdecode
    cases hdecode
    rfl

theorem not_decode_of_no_blank (hline : (0x20 : UInt8) ∉ line) : decode line ≠ .ok b := by
  intro h
  obtain ⟨text, hverify, -⟩ := exists_of_bind h
  rw [verify, Bytes.splitLast?_none hline] at hverify
  cases hverify

/-- Whatever stands behind the text of a record, no other record is read. -/
theorem eq_of_decode_behind [LawfulWire α] (ha : LawfulWire.Fits a)
    (h : decode (Wire.encode a ++ 0x20 :: tail) = .ok b) : b = a := by
  by_cases hblank : (0x20 : UInt8) ∈ tail
  · obtain ⟨front, back, rfl, hback⟩ := Bytes.exists_last hblank
    have hsplit :
        Wire.encode a ++ 0x20 :: (front ++ 0x20 :: back) = (Wire.encode a ++ 0x20 :: front) ++ 0x20 :: back := by
      simp
    rw [hsplit] at h
    exact (decode_behind ha (decode_eq_ok hback h).1).1
  · have htext := (decode_eq_ok hblank h).1
    rw [Wire.decode_encode ha] at htext
    exact (Except.ok.inj htext).symm

/-- Of a damaged record, nothing else is read. -/
theorem eq_of_decode_damaged [LawfulWire α] [SolidWire α] (ha : LawfulWire.Fits a)
    (hline : Damaged (encode a) line) (h : decode line = .ok b) :
    b = a := by
  have hsum : (0x20 : UInt8) ∉ Bytes.hexDigits 8 (crc32 (Wire.encode a)).toNat :=
    (Bytes.solid_hexDigits 8 _).not_mem (by decide)
  rcases Damaged.append_cases hline with ⟨text, htext, rfl⟩ | ⟨behind, hbehind, rfl⟩
  · -- another text has another checksum
    have hstored := (decode_eq_ok hsum h).2
    rw [checksum?_hexDigits (crc32 _).toNat_lt] at hstored
    have hsame := UInt32.toNat_inj.mp (Option.some.inj hstored)
    exact absurd hsame.symm (crc32_ne_of_damaged htext)
  · rw [← List.singleton_append] at hbehind
    rcases Damaged.append_cases hbehind with ⟨blank, hblank, rfl⟩ | ⟨tail, -, rfl⟩
    · obtain ⟨c, hc, rfl⟩ := hblank.singleton
      have hnone : (0x20 : UInt8) ∉ Wire.encode a ++ ([c] ++ Bytes.hexDigits 8 (crc32 (Wire.encode a)).toNat) := by
        simp only [List.mem_append, List.mem_singleton, not_or]
        exact ⟨(SolidWire.solid a).not_mem (by decide), hc.symm, hsum⟩
      exact absurd h (not_decode_of_no_blank hnone)
    · exact eq_of_decode_behind ha h

/-- Two records on one line are none. -/
theorem not_decode_joined [LawfulWire α] (ha : LawfulWire.Fits a) (f : α) (c : UInt8) :
    decode (encode a ++ c :: encode f) ≠ .ok b := by
  intro h
  let digits := Bytes.hexDigits 8 (crc32 (Wire.encode a)).toNat
  have hsplit : encode a ++ c :: encode f = (Wire.encode a ++ 0x20 :: (digits ++ c :: Wire.encode f)) ++
      0x20 :: Bytes.hexDigits 8 (crc32 (Wire.encode f)).toNat := by
    simp [encode, withChecksum, digits]
  rw [hsplit] at h
  have hsum := (Bytes.solid_hexDigits 8 (crc32 (Wire.encode f)).toNat).not_mem (b := 0x20) (by decide)
  have hblank := (decode_behind ha (decode_eq_ok hsum h).1).2
  have hne : digits ≠ [] := by simp [digits, Bytes.hexDigits]
  obtain ⟨d, hd⟩ := List.exists_mem_of_ne_nil digits hne
  have hlow := Token.isSpace_le (hblank d (List.mem_append_left _ hd))
  have hhigh := (Bytes.solid_hexDigits 8 _ d hd).1
  omega

/-! ## Blanks around a record -/

/-- Printable characters are no blanks. -/
theorem isBlank_printable {c : Char} (hlow : 0x20 < c.toNat) (hhigh : c.toNat < 0x7F) : Utf8.isBlank c = false := by
  simp only [Utf8.isBlank, Bool.or_eq_false_iff, Bool.and_eq_false_iff, decide_eq_false_iff_not]
  omega

/-- A line with a printable byte in it is not passed over. -/
theorem isBlank_of_solid {c : UInt8} (hc : c ∈ line) (hlow : 0x20 < c.toNat) (hhigh : c.toNat < 0x7F) :
    isBlank line = false := by
  unfold isBlank
  split
  · rename_i s hs
    rw [Utf8.decode?_eq_some hs] at hc
    obtain ⟨x, hx, hcx⟩ := List.mem_flatMap.mp hc
    have hvalue : x.toNat = c.toNat := by
      rcases utf8EncodeChar_cases x with ⟨hascii, he⟩ | hbeyond
      · rw [he, List.mem_singleton] at hcx
        rw [hcx, UInt8.toNat_ofNat_of_lt' (hascii.trans (by decide))]
      · have := hbeyond c hcx
        omega
    have hprint := isBlank_printable (hvalue.symm ▸ hlow) (hvalue.symm ▸ hhigh)
    by_contra hempty
    have hall : ∀ y ∈ s.toList.dropWhile Utf8.isBlank, Utf8.isBlank y = true := by
      simpa [Utf8.trim] using hempty
    rw [← List.takeWhile_append_dropWhile (p := Utf8.isBlank) (l := s.toList)] at hx
    rcases List.mem_append.mp hx with hx | hx
    · simp [List.mem_takeWhile_imp hx] at hprint
    · simp [hall x hx] at hprint
  · rfl

/-- A byte that is trimmed. -/
def Blank (c : UInt8) : Prop := Utf8.isBlank (Char.ofNat c.toNat) = true

theorem blank_feed : ∀ c ∈ ([0x0A] : Bytes), Blank c := by simp [Blank, Utf8.isBlank]

theorem trim_blanks {blanks cs : List Char} (hblanks : ∀ x ∈ blanks, Utf8.isBlank x = true) :
    Utf8.trim (String.ofList (blanks ++ cs)) = Utf8.trim (String.ofList cs) := by
  have hdrop : (blanks ++ cs).dropWhile Utf8.isBlank = cs.dropWhile Utf8.isBlank :=
    List.dropWhile_append_of_pos hblanks
  rw [Utf8.trim, Utf8.trim, String.toList_ofList, String.toList_ofList, hdrop]

/-- Nothing is trimmed from it. -/
def Trimmed (core : Bytes) : Prop :=
  ∃ first mid last, core = first :: (mid ++ [last]) ∧ ¬ Blank first ∧ ¬ Blank last

/-- What stands between the blanks of a file is read. -/
theorem exists_of_read? {name : String} {d : Disk} {content front core back : Bytes} {o : Option α}
    (h : read? name d = .ok o) (hfile : d.folder.find? name = some (.file content))
    (hascii : ∀ c ∈ content, c.toNat < 0x80) (hcore : Trimmed core) (hcontent : content = front ++ (core ++ back))
    (hfront : ∀ c ∈ front, Blank c) (hback : ∀ c ∈ back, Blank c) : ∃ b, decode core = .ok b ∧ o = some b := by
  have hdecode := Utf8.decode?_ascii hascii
  have hread : d.readText? name = .ok (some content) := by
    simp [Disk.readText?, Disk.read?, hfile, hdecode, bind, Except.bind]
  let char (c : UInt8) : Char := Char.ofNat c.toNat
  have hblanks {bs : Bytes} (hbs : ∀ c ∈ bs, Blank c) : ∀ x ∈ bs.map char, Utf8.isBlank x = true := by
    intro x hx
    obtain ⟨c, hc, rfl⟩ := List.mem_map.mp hx
    exact hbs c hc
  have htrim : Utf8.trim (String.ofList (content.map char)) = String.ofList (core.map char) := by
    obtain ⟨first, mid, last, rfl, hfirst, hlast⟩ := hcore
    have hend : ((mid ++ [last]).map char).getLast? = some (char last) := by simp
    rw [hcontent, List.map_append, trim_blanks (hblanks hfront), List.map_append]
    exact trim_chars (Bool.eq_false_iff.mpr hfirst) hend (Bool.eq_false_iff.mpr hlast) (hblanks hback)
  have htext : Bytes.ofString (String.ofList (core.map char)) = core := by
    rw [Bytes.ofString, String.toList_ofList]
    apply flatMap_ascii
    intro c hc
    apply hascii c
    rw [hcontent]
    exact List.mem_append_right _ (List.mem_append_left _ hc)
  have hsome : (String.ofList (core.map char)).isEmpty = false := by
    obtain ⟨first, mid, last, rfl, -⟩ := hcore
    simp
  simp only [read?, hread, bind, Except.bind, Except.mapError, hdecode, Option.getD_some] at h
  change (if (Utf8.trim (String.ofList (content.map char))).isEmpty = true then _ else _) = _ at h
  rw [htrim, hsome, htext, if_neg Bool.false_ne_true] at h
  cases hd : (decode core : Except RecordError α) with
  | error e =>
    rw [hd] at h
    cases h
  | ok b =>
    rw [hd] at h
    exact ⟨b, rfl, (Except.ok.inj h).symm⟩

/-! ## Files of one record -/

/-- A byte beyond ASCII is alone, so the file is no text. -/
theorem ascii_of_damaged {bs bs' : Bytes} {s : String} (hbs : ∀ c ∈ bs, c.toNat < 0x80) (h : Damaged bs bs')
    (htext : Utf8.decode? bs' = some s) : ∀ c ∈ bs', c.toNat < 0x80 := by
  obtain ⟨front, x, y, back, -, rfl, rfl⟩ := h
  have hcount := Utf8.countP_beyond s.toList
  rw [← Utf8.decode?_eq_some htext] at hcount
  have hnone {part : Bytes} (hpart : ∀ c ∈ part, c.toNat < 0x80) :
      part.countP (fun c => 0x80 ≤ c.toNat) = 0 := by
    apply List.countP_eq_zero.mpr
    intro c hc
    simpa using hpart c hc
  have hfront : ∀ c ∈ front, c.toNat < 0x80 := fun c hc => hbs c (List.mem_append_left _ hc)
  have hback : ∀ c ∈ back, c.toNat < 0x80 := fun c hc => hbs c (List.mem_append_right _ (List.mem_cons_of_mem x hc))
  rw [List.countP_append, List.countP_cons, hnone hfront, hnone hback] at hcount
  have hy : y.toNat < 0x80 := by
    by_contra hbeyond
    exact hcount (by simp [Nat.not_lt.mp hbeyond])
  exact List.forall_mem_append.mpr ⟨hfront, List.forall_mem_cons.mpr ⟨hy, hback⟩⟩

theorem not_blank_of_solid {c : UInt8} (hc : 0x20 < c.toNat ∧ c.toNat < 0x7F) : ¬ Blank c := by
  have hvalue : (Char.ofNat c.toNat).toNat = c.toNat := (utf8EncodeChar_ascii (by omega)).1
  have hprint := isBlank_printable (c := Char.ofNat c.toNat) (by omega) (by omega)
  rw [Blank, hprint]
  exact Bool.false_ne_true

/-- A record is made of its brace, what follows it, and its last digit. -/
theorem encode_ends [SolidWire α] (a : α) : ∃ rest sum next last,
    encode a = [0x7B] ++ ((0x22 :: rest ++ 0x20 :: (sum ++ [next])) ++ [last]) ∧
      Wire.encode a = 0x7B :: 0x22 :: rest ∧ Bytes.Solid (sum ++ [next] ++ [last]) := by
  obtain ⟨rest, hrest⟩ := SolidWire.named a
  generalize hn : (crc32 (Wire.encode a)).toNat = n
  have hdigits : Bytes.hexDigits 8 n =
      Bytes.hexDigits 6 (n / 16 / 16) ++ [Bytes.hexDigit (n / 16 % 16)] ++ [Bytes.hexDigit (n % 16)] := rfl
  refine ⟨rest, Bytes.hexDigits 6 (n / 16 / 16), Bytes.hexDigit (n / 16 % 16), Bytes.hexDigit (n % 16), ?_, hrest,
    hdigits ▸ Bytes.solid_hexDigits 8 n⟩
  rw [encode, withChecksum, hn, hdigits, hrest]
  simp

/-- Only a text is read from a file. -/
theorem ascii_of_read? [SolidWire α] {name : String} {d : Disk} {content : Bytes} {o : Option α}
    (h : read? name d = .ok o) (hfile : d.folder.find? name = some (.file content))
    (hdamaged : Damaged (Record.line a) content) : ∀ c ∈ content, c.toNat < 0x80 := by
  cases htext : Utf8.decode? content with
  | none =>
    have hread : d.readText? name = .error .notText := by
      simp [Disk.readText?, Disk.read?, hfile, htext, bind, Except.bind]
    rw [read?, hread] at h
    cases h
  | some s => exact ascii_of_damaged (List.forall_mem_append.mpr ⟨encode_ascii a, by simp⟩) hdamaged htext

section

variable [SolidWire α] {name : String} {d : Disk} {content behind front : Bytes} {o : Option α} {c last : UInt8}
  (h : read? name d = .ok o) (hfile : d.folder.find? name = some (.file content))
  (hascii : ∀ b ∈ content, b.toNat < 0x80)

include h hfile hascii

/-- A blank in place of the brace is trimmed, and what is left is no record. -/
theorem not_read?_braceless (hcontent : content = c :: behind ++ [0x0A]) (he : encode a = 0x7B :: behind)
    (hc : Blank c) : False := by
  obtain ⟨rest, sum, next, last, hends, -, hsolid⟩ := encode_ends a
  obtain ⟨-, rfl⟩ := List.cons.inj (he.symm.trans hends)
  have htrimmed : Trimmed ((0x22 :: rest ++ 0x20 :: (sum ++ [next])) ++ [last]) :=
    ⟨0x22, rest ++ 0x20 :: (sum ++ [next]), last, rfl, not_blank_of_solid (by decide),
      not_blank_of_solid (hsolid last (by simp))⟩
  have hparts : content = [c] ++ (((0x22 :: rest ++ 0x20 :: (sum ++ [next])) ++ [last]) ++ [0x0A]) := hcontent
  obtain ⟨b, hb, -⟩ := exists_of_read? h hfile hascii htrimmed hparts (by simpa using hc) blank_feed
  have hsplit : (0x22 :: rest ++ 0x20 :: (sum ++ [next])) ++ [last] =
      (0x22 :: rest) ++ 0x20 :: (sum ++ [next] ++ [last]) := by simp
  rw [hsplit] at hb
  exact decode_quote_mark rest (decode_eq_ok (hsolid.not_mem (by decide)) hb).1

/-- A blank in place of the last digit is trimmed with the line feed, and the other digits still agree. -/
theorem eq_of_read?_digitless [LawfulWire α] (ha : LawfulWire.Fits a) (hcontent : content = front ++ [c] ++ [0x0A])
    (he : encode a = front ++ [last]) (hc : Blank c) : o = some a := by
  obtain ⟨rest, sum, next, digit, hends, htext, hsolid⟩ := encode_ends a
  have hfront : front = Wire.encode a ++ 0x20 :: (sum ++ [next]) := by
    have hlines := he.symm.trans hends
    rw [← List.append_assoc] at hlines
    rw [(List.append_inj' hlines rfl).1, htext]
    rfl
  have htrimmed : Trimmed (Wire.encode a ++ 0x20 :: (sum ++ [next])) :=
    ⟨0x7B, 0x22 :: rest ++ 0x20 :: sum, next, by simp [htext], not_blank_of_solid (by decide),
      not_blank_of_solid (hsolid next (by simp))⟩
  have hparts : content = [] ++ ((Wire.encode a ++ 0x20 :: (sum ++ [next])) ++ [c, 0x0A]) := by
    rw [hcontent, hfront]
    simp
  have hback : ∀ b ∈ [c, 0x0A], Blank b := by simpa using ⟨hc, rfl⟩
  obtain ⟨b, hb, rfl⟩ := exists_of_read? h hfile hascii htrimmed hparts (List.forall_mem_nil _) hback
  rw [eq_of_decode_behind ha hb]

/-- Another byte in place of the line feed is trimmed, or it is one digit too many. -/
theorem eq_of_read?_feedless [LawfulWire α] (ha : LawfulWire.Fits a) (hcontent : content = encode a ++ [c]) :
    o = some a := by
  obtain ⟨rest, sum, next, last, hends, -, hsolid⟩ := encode_ends a
  have hbrace : ¬ Blank 0x7B := not_blank_of_solid (by decide)
  by_cases hc : Blank c
  · have htrimmed : Trimmed (encode a) := ⟨0x7B, _, last, hends, hbrace, not_blank_of_solid (hsolid last (by simp))⟩
    obtain ⟨b, hb, rfl⟩ := exists_of_read? h hfile hascii htrimmed hcontent (List.forall_mem_nil _) (by simpa using hc)
    rw [decode_encode ha] at hb
    rw [Except.ok.inj hb]
  · have htrimmed : Trimmed (encode a ++ [c]) := by
      refine ⟨0x7B, (0x22 :: rest ++ 0x20 :: (sum ++ [next])) ++ [last], c, ?_, hbrace, hc⟩
      rw [hends]
      rfl
    have hparts : content = [] ++ ((encode a ++ [c]) ++ []) := by simp [hcontent]
    obtain ⟨b, hb, rfl⟩ := exists_of_read? h hfile hascii htrimmed hparts (List.forall_mem_nil _)
      (List.forall_mem_nil _)
    rw [encode, withChecksum, List.append_assoc] at hb
    rw [eq_of_decode_behind ha hb]

end

/-- Of a damaged file, nothing else is read. -/
theorem eq_of_read?_damaged [LawfulWire α] [SolidWire α] (ha : LawfulWire.Fits a) {name : String} {d : Disk}
    {content : Bytes} (hfile : d.folder.find? name = some (.file content)) (hdamaged : Damaged (Record.line a) content)
    {o : Option α} (h : read? name d = .ok o) : o = some a := by
  have hascii := ascii_of_read? h hfile hdamaged
  rcases Damaged.append_cases hdamaged with ⟨record, hrecord, rfl⟩ | ⟨feed, hfeed, rfl⟩
  · have hwhole (htrimmed : Trimmed record) : o = some a := by
      obtain ⟨b, hb, rfl⟩ := exists_of_read? h hfile hascii htrimmed (List.nil_append _).symm (List.forall_mem_nil _)
        blank_feed
      rw [eq_of_decode_damaged ha hrecord hb]
    obtain ⟨rest, sum, next, last, hends, -, hsolid⟩ := encode_ends a
    have hbrace : ¬ Blank 0x7B := not_blank_of_solid (by decide)
    have hlast : ¬ Blank last := not_blank_of_solid (hsolid last (by simp))
    rw [hends] at hrecord
    rcases Damaged.append_cases hrecord with ⟨brace, hdamagedBrace, rfl⟩ | ⟨behind, hbehind, rfl⟩
    · obtain ⟨c, -, rfl⟩ := hdamagedBrace.singleton
      by_cases hc : Blank c
      · exact (not_read?_braceless h hfile hascii rfl hends hc).elim
      · exact hwhole ⟨c, _, last, rfl, hc, hlast⟩
    rcases Damaged.append_cases hbehind with ⟨mid, -, rfl⟩ | ⟨digit, hdigit, rfl⟩
    · exact hwhole ⟨0x7B, mid, last, rfl, hbrace, hlast⟩
    · obtain ⟨c, -, rfl⟩ := hdigit.singleton
      by_cases hc : Blank c
      · rw [← List.append_assoc] at hends hfile hascii
        exact eq_of_read?_digitless h hfile hascii ha rfl hends hc
      · exact hwhole ⟨0x7B, _, c, rfl, hbrace, hc⟩
  · obtain ⟨c, -, rfl⟩ := hfeed.singleton
    exact eq_of_read?_feedless h hfile hascii ha rfl

/-! ## Lines that a line feed cuts in two -/

variable {front back : Bytes} {x : UInt8}

theorem encode_opens [SolidWire α] (a : α) : ∃ rest, encode a = 0x7B :: 0x22 :: rest := by
  obtain ⟨rest, sum, next, last, he, -⟩ := encode_ends a
  exact ⟨_, he⟩

theorem isBlank_damaged [SolidWire α] (h : Damaged (encode a) line) : isBlank line = false := by
  obtain ⟨front, x, y, back, -, he, rfl⟩ := h
  obtain ⟨rest, hopen⟩ := encode_opens a
  rw [hopen] at he
  cases front with
  | nil =>
    obtain ⟨-, hback⟩ := List.cons.inj he
    exact isBlank_of_solid (c := 0x22) (by simp [← hback]) (by decide) (by decide)
  | cons z front =>
    obtain ⟨rfl, -⟩ := List.cons.inj he
    exact isBlank_of_solid List.mem_cons_self (by decide) (by decide)

/-- A record without its first byte is none. -/
theorem not_decode_headless [SolidWire α] (hcut : encode a = x :: back) : decode back ≠ .ok b := by
  intro h
  obtain ⟨rest, sum, next, last, he, -, hsolid⟩ := encode_ends a
  rw [he] at hcut
  obtain ⟨-, rfl⟩ := List.cons.inj hcut
  have hsplit : (0x22 :: rest ++ 0x20 :: (sum ++ [next])) ++ [last] =
      (0x22 :: rest) ++ 0x20 :: (sum ++ [next] ++ [last]) := by simp
  rw [hsplit] at h
  exact decode_quote_mark rest (decode_eq_ok (hsolid.not_mem (by decide)) h).1

/-- If the front of a record that is cut is read, the cut is in the checksum. -/
theorem eq_of_decode_front [LawfulWire α] [SolidWire α] (ha : LawfulWire.Fits a) (hcut : encode a = front ++ x :: back)
    (h : decode front = .ok b) : b = a ∧ (0x20 : UInt8) ∉ back := by
  have htext : (0x20 : UInt8) ∉ Wire.encode a := (SolidWire.solid a).not_mem (by decide)
  have hsum : (0x20 : UInt8) ∉ Bytes.hexDigits 8 (crc32 (Wire.encode a)).toNat :=
    (Bytes.solid_hexDigits 8 _).not_mem (by decide)
  have hblank : (0x20 : UInt8) ∈ front := by
    by_contra hnone
    exact not_decode_of_no_blank hnone h
  rcases List.append_eq_append_iff.mp hcut with ⟨part, rfl, hback⟩ | ⟨part, htext', -⟩
  · cases part with
    | nil =>
      rw [List.append_nil] at hblank
      exact absurd hblank htext
    | cons y part =>
      obtain ⟨rfl, hdigits⟩ := List.cons.inj hback
      refine ⟨eq_of_decode_behind ha h, ?_⟩
      intro hmem
      apply hsum
      rw [hdigits]
      exact List.mem_append_right _ (List.mem_cons_of_mem x hmem)
  · rw [htext'] at htext
    exact absurd (List.mem_append_left _ hblank) htext

end Record

/-! ## Damaged log files -/

namespace FileStore

variable {F es : List Entry} {line content : Bytes} {lines : List Bytes} {n : Nat} {torn : Bool}

/-- What is read from lines, by what the first line is. -/
theorem entriesOfLines_cases (h : entriesOfLines n (line :: lines) = .ok (es, torn)) :
    (Record.isBlank line = true ∧ entriesOfLines (n + 1) lines = .ok (es, torn)) ∨
      (∃ e rest torn', Record.decode line = .ok e ∧ entriesOfLines (n + 1) lines = .ok (rest, torn') ∧ es = e :: rest) ∨
      ((∀ e : Entry, Record.decode line ≠ .ok e) ∧ lines = [] ∧ es = []) := by
  rw [entriesOfLines] at h
  split at h
  · exact Or.inl ⟨‹_›, h⟩
  split at h
  · rename_i e hdecode
    cases hrest : entriesOfLines (n + 1) lines with
    | error f =>
      rw [hrest] at h
      cases h
    | ok r =>
      rw [hrest] at h
      cases h
      exact Or.inr (Or.inl ⟨e, r.1, r.2, hdecode, rfl, rfl⟩)
  · rename_i f hdecode
    split at h
    · rename_i hlast
      cases h
      refine Or.inr (Or.inr ⟨?_, by simpa using hlast, rfl⟩)
      intro e he
      rw [hdecode] at he
      cases he
    · cases h

/-- A line that is neither blank nor a record can only be the last one. -/
theorem entriesOfLines_broken (hblank : Record.isBlank line = false) (hbroken : ∀ e : Entry, Record.decode line ≠ .ok e)
    (h : entriesOfLines n (line :: lines) = .ok (es, torn)) : lines = [] ∧ es = [] := by
  rcases entriesOfLines_cases h with ⟨hb, -⟩ | ⟨e, -, -, he, -⟩ | ⟨-, hlines, hes⟩
  · rw [hblank] at hb
    cases hb
  · exact absurd he (hbroken e)
  · exact ⟨hlines, hes⟩

/-- All but the first line is as it was written. -/
theorem entriesOfLines_first (hF : ∀ e ∈ F, LawfulWire.Fits e) {f : Entry} (hblank : Record.isBlank line = false)
    (hline : ∀ e : Entry, Record.decode line = .ok e → e = f)
    (h : entriesOfLines n (line :: F.map Record.encode) = .ok (es, torn)) : es = f :: F ∨ F = [] ∧ es = [] := by
  rcases entriesOfLines_cases h with ⟨hb, -⟩ | ⟨e, rest, torn', he, hrest, rfl⟩ | ⟨-, hlines, hes⟩
  · rw [hblank] at hb
    cases hb
  · rw [entriesOfLines_encode hF] at hrest
    cases hrest
    rw [hline e he]
    exact Or.inl rfl
  · exact Or.inr ⟨List.map_eq_nil_iff.mp hlines, hes⟩

/-- A line feed in a record leaves the record or the end of the log. -/
theorem entriesOfLines_cut {f : Entry} (hf : LawfulWire.Fits f) (hF : ∀ e ∈ F, LawfulWire.Fits e) {front back : Bytes}
    {x : UInt8} (hcut : Record.encode f = front ++ x :: back)
    (h : entriesOfLines n (front :: back :: F.map Record.encode) = .ok (es, torn)) :
    es = f :: F ∨ F = [] ∧ es = [] := by
  obtain ⟨rest, hopen⟩ := Record.encode_opens f
  cases front with
  | nil =>
    -- the brace is lost, and what is left of the record can only be the last line
    obtain ⟨-, hback⟩ := List.cons.inj (hopen.symm.trans hcut)
    have hblank : Record.isBlank back = false :=
      Record.isBlank_of_solid (c := 0x22) (by simp [← hback]) (by decide) (by decide)
    rcases entriesOfLines_cases h with ⟨-, hnext⟩ | ⟨e, -, -, he, -⟩ | ⟨-, hlines, -⟩
    · obtain ⟨hlines, rfl⟩ := entriesOfLines_broken hblank (fun e => Record.not_decode_headless hcut) hnext
      exact Or.inr ⟨List.map_eq_nil_iff.mp hlines, rfl⟩
    · exact absurd he (Record.not_decode_of_no_blank (by simp))
    · cases hlines
  | cons z front =>
    obtain ⟨rfl, -⟩ := List.cons.inj (hopen.symm.trans hcut)
    have hblank : Record.isBlank (0x7B :: front) = false :=
      Record.isBlank_of_solid List.mem_cons_self (by decide) (by decide)
    rcases entriesOfLines_cases h with ⟨hb, -⟩ | ⟨e, found, torn', he, hnext, rfl⟩ | ⟨-, hlines, -⟩
    · rw [hblank] at hb
      cases hb
    · obtain ⟨rfl, hnone⟩ := Record.eq_of_decode_front hf hcut he
      rcases entriesOfLines_cases hnext with ⟨-, hlast⟩ | ⟨e', -, -, he', -⟩ | ⟨-, hlines, rfl⟩
      · rw [entriesOfLines_encode hF] at hlast
        cases hlast
        exact Or.inl rfl
      · exact absurd he' (Record.not_decode_of_no_blank hnone)
      · rw [List.map_eq_nil_iff.mp hlines]
        exact Or.inl rfl
    · cases hlines

/-- Two lines joined can only be the last. -/
theorem entriesOfLines_joined {f : Entry} (hf : LawfulWire.Fits f) {c : UInt8} (hc : c ≠ 0x0A)
    (h : entriesOfLines n (Bytes.splitLines (Record.encode f ++ c :: logText F)).1 = .ok (es, torn)) :
    F.length ≤ 1 ∧ es = [] := by
  cases F with
  | nil =>
    have hline : (0x0A : UInt8) ∉ Record.encode f ++ c :: logText [] := by
      simp [logText, Record.encode_line f, hc.symm]
    rw [splitLines_unended hline] at h
    cases h
    exact ⟨Nat.zero_le 1, rfl⟩
  | cons g F =>
    have hline : (0x0A : UInt8) ∉ Record.encode f ++ c :: Record.encode g := by
      simp [Record.encode_line f, Record.encode_line g, hc.symm]
    have hsplit : Record.encode f ++ c :: logText (g :: F) =
        (Record.encode f ++ c :: Record.encode g) ++ 0x0A :: logText F := by
      simp [logText, Record.line]
    obtain ⟨rest, hopen⟩ := Record.encode_opens f
    have hblank : Record.isBlank (Record.encode f ++ c :: Record.encode g) = false :=
      Record.isBlank_of_solid (c := 0x7B) (by simp [hopen]) (by decide) (by decide)
    rw [hsplit, Bytes.splitLines_line hline, splitLines_logText] at h
    obtain ⟨hlines, rfl⟩ := entriesOfLines_broken hblank (fun e => Record.not_decode_joined hf g c) h
    rw [List.map_eq_nil_iff.mp hlines]
    exact ⟨le_rfl, rfl⟩

/-- A damaged line is read as it was, or it is dropped with what follows it. -/
theorem entriesOfLines_damaged_line {f : Entry} (hf : LawfulWire.Fits f) (hF : ∀ e ∈ F, LawfulWire.Fits e)
    (hline : Damaged (Record.line f) line)
    (h : entriesOfLines n (Bytes.splitLines (line ++ logText F)).1 = .ok (es, torn)) :
    es = f :: F ∨ F.length ≤ 1 ∧ es = [] := by
  rcases Damaged.append_cases hline with ⟨record, hrecord, rfl⟩ | ⟨feed, hfeed, rfl⟩
  · have hdropped : es = f :: F ∨ F = [] ∧ es = [] := by
      rw [List.append_assoc, List.singleton_append] at h
      by_cases hcut : (0x0A : UInt8) ∈ record
      · have hwhole : (0x0A : UInt8) ∉ Record.encode f := Record.encode_line f
        obtain ⟨front, x, y, back, -, he, rfl⟩ := hrecord
        rw [he] at hwhole
        simp only [List.mem_append, List.mem_cons, not_or] at hwhole
        obtain ⟨hfront, -, hback⟩ := hwhole
        obtain rfl : y = 0x0A := by
          simp only [List.mem_append, List.mem_cons] at hcut
          rcases hcut with hcut | rfl | hcut
          · exact absurd hcut hfront
          · rfl
          · exact absurd hcut hback
        rw [List.append_assoc, List.cons_append, Bytes.splitLines_line hfront, Bytes.splitLines_line hback,
          splitLines_logText] at h
        exact entriesOfLines_cut hf hF he h
      · rw [Bytes.splitLines_line hcut, splitLines_logText] at h
        exact entriesOfLines_first hF (Record.isBlank_damaged hrecord)
          (fun e he => Record.eq_of_decode_damaged hf hrecord he) h
    rcases hdropped with rfl | ⟨rfl, rfl⟩
    · exact Or.inl rfl
    · exact Or.inr ⟨Nat.zero_le 1, rfl⟩
  · obtain ⟨c, hc, rfl⟩ := hfeed.singleton
    rw [List.append_assoc, List.singleton_append] at h
    exact Or.inr (entriesOfLines_joined hf hc h)

/-- Of a damaged log file, a beginning is read that lacks two entries at most. -/
theorem entriesOfLines_damaged (hF : ∀ e ∈ F, LawfulWire.Fits e) (hdamaged : Damaged (logText F) content)
    (h : entriesOfLines n (Bytes.splitLines content).1 = .ok (es, torn)) : es <+: F ∧ F.length ≤ es.length + 2 := by
  induction F generalizing content n es torn with
  | nil =>
    obtain ⟨front, x, y, back, -, hnil, -⟩ := hdamaged
    simp [logText] at hnil
  | cons f F ih =>
    obtain ⟨hf, hrest⟩ := List.forall_mem_cons.mp hF
    have htext : logText (f :: F) = Record.line f ++ logText F := rfl
    rw [htext] at hdamaged
    rcases Damaged.append_cases hdamaged with ⟨line, hline, rfl⟩ | ⟨rest, hbehind, rfl⟩
    · rcases entriesOfLines_damaged_line hf hrest hline h with rfl | ⟨hshort, rfl⟩
      · exact ⟨List.prefix_rfl, by omega⟩
      · exact ⟨List.nil_prefix, by simpa using hshort⟩
    · rw [Record.line, List.append_assoc, List.singleton_append, Bytes.splitLines_line (Record.encode_line f)] at h
      rcases entriesOfLines_cases h with ⟨hb, -⟩ | ⟨e, found, torn', he, hnext, rfl⟩ | ⟨hbroken, -⟩
      · rw [Record.isBlank_encode] at hb
        cases hb
      · rw [Record.decode_encode hf] at he
        cases he
        obtain ⟨hbegins, hlength⟩ := ih hrest hbehind hnext
        exact ⟨(List.prefix_cons_inj f).mpr hbegins, by simp only [List.length_cons]; omega⟩
      · exact absurd (Record.decode_encode hf) (hbroken f)

/-! ## Damaged directories -/

variable {s t : FileStore} {p q : Persisted} {content' : Bytes}

/-- If no other term, vote or snapshot is read, what is loaded is a matter of the log file. -/
theorem exists_of_load (h : load s = .ok q t)
    (hhard : ∀ o : Option HardState, Record.read? "hard_state" s.disk = .ok o → o.getD {} = p.hard)
    (hsnapshot : ∀ o, s.loadSnapshot = .ok o → o = p.snapshot) :
    ∃ F torn, HoldsLog s F torn ∧ q = persisted p.hard p.snapshot F := by
  obtain ⟨F, torn, hq, -, ⟨o, hread, ho⟩, hsnap, hholds, -⟩ := Action.wp_ok (wp_load_holds s) h
  refine ⟨F, torn, hholds, ?_⟩
  rw [hq, ← hsnapshot _ hsnap, ← hhard o hread, ho]

/-- Nothing else is read from files that are as they were written. -/
theorem Files.eq_of_read (h : Files s p) (name : String) (content : Bytes) :
    (name ≠ "hard_state" → ∀ o : Option HardState,
        Record.read? "hard_state" (s.withFile name content).disk = .ok o → o.getD {} = p.hard) ∧
      (name ≠ "snapshot" → ∀ o, (s.withFile name content).loadSnapshot = .ok o → o = p.snapshot) := by
  constructor
  · intro hname o ho
    obtain ⟨o', hread, ho'⟩ := h.read_hard
    rw [Record.read?_congr (withFile_find?_of_ne s content hname.symm), hread] at ho
    rw [← Except.ok.inj ho, ho']
  · intro hname o ho
    rw [loadSnapshot_congr (withFile_find?_of_ne s content hname.symm), h.loadSnapshot] at ho
    exact (Except.ok.inj ho).symm

theorem Files.load_damaged_log (h : Files s p) (hfile : s.disk.folder.find? "log" = some (.file content))
    (hdamaged : Damaged content content') (hload : load (s.withFile "log" content') = .ok q t) :
    q.hard = p.hard ∧ q.snapshot = p.snapshot ∧ q.entries <+: (loaded p).entries ∧
      (loaded p).entries.length ≤ q.entries.length + 2 := by
  obtain ⟨hhard, hsnapshot⟩ := h.eq_of_read "log" content'
  obtain ⟨F, torn, hholds, rfl⟩ := exists_of_load hload (hhard (by decide)) (hsnapshot (by decide))
  have htext : content = logText p.entries := by
    rw [← h.logContent_eq, logContent, hfile]
  obtain ⟨-, -, hnone⟩ | ⟨found, hfound, -, ⟨cut, hlines, -⟩, -⟩ := hholds
  · rw [withFile_find?] at hnone
    cases hnone
  · rw [withFile_find?] at hfound
    cases hfound
    obtain ⟨⟨rest, hrest⟩, hlength⟩ := entriesOfLines_damaged h.logFits (htext ▸ hdamaged) hlines
    have hentries : (loaded p).entries = (persisted p.hard p.snapshot F).entries ++
        rest.filter fun e => (p.snapshot.map Snapshot.index).getD 0 < e.index := by
      rw [loaded, persisted, ← hrest, List.filter_append]
      rfl
    refine ⟨rfl, rfl, ⟨_, hentries.symm⟩, ?_⟩
    have hfew := List.length_filter_le (fun e => decide ((p.snapshot.map Snapshot.index).getD 0 < e.index)) rest
    rw [← hrest, List.length_append] at hlength
    rw [hentries, List.length_append]
    omega

theorem Files.load_damaged_hard (h : Files s p) (hfile : s.disk.folder.find? "hard_state" = some (.file content))
    (hdamaged : Damaged content content') (hload : load (s.withFile "hard_state" content') = .ok q t) :
    q = loaded p := by
  obtain ⟨-, hsnapshot⟩ := h.eq_of_read "hard_state" content'
  obtain ⟨o, ho, hwritten⟩ := h.hardFile
  cases o with
  | none =>
    rw [hfile] at hwritten
    cases hwritten
  | some hard =>
    obtain rfl : hard = p.hard := ho
    rw [hfile] at hwritten
    cases hwritten
    have hhard (o : Option HardState)
        (hread : Record.read? "hard_state" (s.withFile "hard_state" content').disk = .ok o) : o.getD {} = p.hard := by
      rw [Record.eq_of_read?_damaged h.hardFits (withFile_find? _ _ _) hdamaged hread]
      rfl
    obtain ⟨F, torn, hholds, rfl⟩ := exists_of_load hload hhard (hsnapshot (by decide))
    have hsame := hholds.congr (withFile_find?_of_ne s content' (by decide)).symm
    rw [(h.eq_of_holdsLog hsame).1]
    rfl

theorem Files.load_damaged_snapshot (h : Files s p) (hfile : s.disk.folder.find? "snapshot" = some (.file content))
    (hdamaged : Damaged content content') {o : Option Snapshot}
    (hload : (s.withFile "snapshot" content').loadSnapshot = .ok o) : o = p.snapshot := by
  have hwritten := h.snapshotFile
  cases hsnap : p.snapshot with
  | none =>
    rw [hfile, hsnap] at hwritten
    cases hwritten
  | some snap =>
    rw [hfile, hsnap] at hwritten
    cases hwritten
    rw [FileStore.loadSnapshot] at hload
    cases hread : (Record.read? "snapshot" (s.withFile "snapshot" content').disk :
        Except RecordError (Option Snapshot)) with
    | error e =>
      rw [hread] at hload
      cases hload
    | ok o' =>
      rw [hread] at hload
      cases hload
      exact Record.eq_of_read?_damaged (h.snapshotFits snap hsnap) (withFile_find? _ _ _) hdamaged hread

/-- A damaged byte never becomes other data. What a load returns from a damaged log file is a beginning of the log that
lacks two entries at most; from a damaged file of another kind it returns what was written. Or it fails. -/
theorem damage_never_misleads (h : Filled s p) (hdamaged : Damaged content content') :
    (∀ q t, load s = .ok q t → q = loaded p) ∧
      (s.disk.folder.find? "log" = some (.file content) → ∀ q t, load (s.withFile "log" content') = .ok q t →
        q.hard = p.hard ∧ q.snapshot = p.snapshot ∧ q.entries <+: (loaded p).entries ∧
          (loaded p).entries.length ≤ q.entries.length + 2) ∧
      (s.disk.folder.find? "hard_state" = some (.file content) → ∀ q t,
        load (s.withFile "hard_state" content') = .ok q t → q = loaded p) ∧
      (s.disk.folder.find? "snapshot" = some (.file content) →
        (∀ o, loadSnapshot (s.withFile "snapshot" content') = .ok o → o = p.snapshot) ∧
          ∀ q t, load (s.withFile "snapshot" content') = .ok q t → q = loaded p) := by
  have hfiles := h.files
  refine ⟨?_, ?_, ?_, ?_⟩
  · intro q t hload
    exact (Action.wp_ok hfiles.wp_load hload).1
  · intro hfile q t hload
    exact hfiles.load_damaged_log hfile hdamaged hload
  · intro hfile q t hload
    exact hfiles.load_damaged_hard hfile hdamaged hload
  · intro hfile
    have hsnapshot : ∀ o, loadSnapshot (s.withFile "snapshot" content') = .ok o → o = p.snapshot := fun o ho =>
      hfiles.load_damaged_snapshot hfile hdamaged ho
    refine ⟨hsnapshot, ?_⟩
    intro q t hload
    obtain ⟨hhard, -⟩ := hfiles.eq_of_read "snapshot" content'
    obtain ⟨F, torn, hholds, rfl⟩ := exists_of_load hload (hhard (by decide)) hsnapshot
    have hsame := hholds.congr (withFile_find?_of_ne s content' (by decide)).symm
    rw [(hfiles.eq_of_holdsLog hsame).1]
    rfl

/-- The line feed behind the last record is damaged, and that record is dropped. -/
theorem damage_never_misleads_feed :
    ∃ s content content', Filled s ⟨{}, none, [firstEntry, secondEntry]⟩ ∧ Damaged content content' ∧
      s.disk.folder.find? "log" = some (.file content) ∧
      ∃ q t, load (s.withFile "log" content') = .ok q t ∧ q.entries = [firstEntry] ∧
        q.entries <+: [firstEntry, secondEntry] := by
  have hfits : ∀ e ∈ [firstEntry, secondEntry], LawfulWire.Fits e := by
    simp only [LawfulWire.Fits]
    decide
  have hfirst : ∀ e ∈ [firstEntry], LawfulWire.Fits e := fun e he => hfits e (by simp_all)
  obtain ⟨_, s, happend, hs⟩ := Action.wp_exists (fresh_empty.files.wp_append hfits)
  have hfilled : Filled s ⟨{}, none, [firstEntry, secondEntry]⟩ :=
    .write (.fresh fresh_empty) (w := .append [firstEntry, secondEntry]) hfits happend
  have hfile := hs.find?_log (List.cons_ne_nil _ _)
  let rest := Record.encode secondEntry ++ [0x58]
  have hascii : ∀ b ∈ rest, b.toNat < 0x80 := List.forall_mem_append.mpr ⟨Record.encode_ascii secondEntry, by simp⟩
  have hfeed : (0x0A : UInt8) ∉ rest := by simp [rest, Record.encode_line secondEntry]
  have hdamaged : Damaged (logText [firstEntry, secondEntry]) (logText [firstEntry] ++ rest) :=
    ⟨logText [firstEntry] ++ Record.encode secondEntry, 0x0A, 0x58, [], by decide, by simp [logText, Record.line],
      by simp [rest]⟩
  have hnum : NumberedFrom 0 [firstEntry] := .singleton 1 [97]
  obtain ⟨q, t, hload, rfl, -⟩ := Action.wp_exists
    (hs.wp_load_trimmed hfirst (adjacent_of_numbered hnum) hnum hascii hfeed)
  obtain ⟨-, hlog, -⟩ := damage_never_misleads hfilled hdamaged
  exact ⟨s, _, _, hfilled, hdamaged, hfile, _, t, hload, rfl, (hlog hfile _ t hload).2.2.1⟩

end FileStore

end RaftNode
