import RaftNode.Proofs.Records
/-!
# Records without blanks

The text of a record consists of printable ASCII, and the only blank in its line is the one before the checksum. A file
of records is a text wherever it is cut, and each of its bytes is a character.
-/
namespace RaftNode

open Json

/-! ## Texts of ASCII -/

theorem two_le_length_utf8EncodeChar {c : Char} (hc : 0x80 ≤ c.toNat) :
    2 ≤ (String.utf8EncodeChar c).length := by
  have hbeyond : ¬ c.val ≤ UInt32.ofNatLT 127 (by decide) := by
    intro hle
    have hvalue : c.toNat ≤ 127 := UInt32.le_iff_toNat_le.mp hle
    omega
  rw [String.length_utf8EncodeChar, Char.utf8Size, if_neg hbeyond]
  split
  · omega
  · split <;> omega

theorem utf8EncodeChar_small {c : Char} (hc : c.toNat < 0x80) :
    String.utf8EncodeChar c = [UInt8.ofNat c.toNat] := by
  have hvalue : c.val.toNat = c.toNat := rfl
  unfold String.utf8EncodeChar
  simp only [hvalue]
  rw [if_pos (by omega)]

namespace Utf8

/-- The characters of a text of ASCII are its bytes. -/
theorem decode?_ascii {bs : Bytes} (h : ∀ b ∈ bs, b.toNat < 0x80) :
    decode? bs = some (String.ofList (bs.map fun b => Char.ofNat b.toNat)) := by
  conv_lhs => rw [← flatMap_ascii h]
  exact decode?_encode _

theorem next?_eq_some {bs rest : Bytes} {c : Char} (h : next? bs = some (c, rest)) :
    bs = String.utf8EncodeChar c ++ rest := by
  obtain ⟨a, ha, hpair⟩ := Option.map_eq_some_iff.mp h
  obtain ⟨rfl, rfl⟩ := Prod.mk.inj hpair
  have hbytes := congrArg (fun x : ByteArray => x.data.toList) (ByteArray.eq_of_utf8DecodeChar?_eq_some ha)
  simp only [ByteArray.toList_data_append, List.data_toByteArray] at hbytes
  have hopens : String.utf8EncodeChar a <+: bs.take 4 := ⟨_, hbytes.symm⟩
  obtain ⟨tail, rfl⟩ := hopens.trans (List.take_prefix 4 bs)
  rw [List.drop_left' (String.length_utf8EncodeChar a)]

theorem decodeWith_eq_some {fuel : Nat} {bs : Bytes} {cs : List Char} (h : decodeWith none fuel bs = some cs) :
    bs = cs.flatMap String.utf8EncodeChar := by
  induction fuel generalizing bs cs with
  | zero =>
    unfold decodeWith at h
    split at h
    · cases h
      simpa using ‹bs.isEmpty = true›
    · cases h
  | succ fuel ih =>
    unfold decodeWith at h
    split at h
    · cases h
      simpa using ‹bs.isEmpty = true›
    split at h
    · rename_i c rest hnext
      obtain ⟨cs', hrest, rfl⟩ := Option.map_eq_some_iff.mp h
      rw [next?_eq_some hnext, ih hrest]
      rfl
    · cases h

/-- A text consists of the bytes of its characters. -/
theorem decode?_eq_some {bs : Bytes} {s : String} (h : decode? bs = some s) :
    bs = s.toList.flatMap String.utf8EncodeChar := by
  obtain ⟨cs, hcs, rfl⟩ := Option.map_eq_some_iff.mp h
  rw [String.toList_ofList]
  exact decodeWith_eq_some hcs

/-- In a text there is never just one byte beyond ASCII. -/
theorem countP_beyond (cs : List Char) :
    (cs.flatMap String.utf8EncodeChar).countP (fun b => 0x80 ≤ b.toNat) ≠ 1 := by
  induction cs with
  | nil => decide
  | cons c cs ih =>
    rw [List.flatMap_cons, List.countP_append]
    by_cases hascii : c.toNat < 0x80
    · have hbyte : ¬ 0x80 ≤ (UInt8.ofNat c.toNat).toNat := by
        rw [UInt8.toNat_ofNat_of_lt' (hascii.trans (by decide))]
        omega
      rw [utf8EncodeChar_small hascii, List.countP_singleton, if_neg (by simpa using hbyte)]
      omega
    · have hlong := two_le_length_utf8EncodeChar (Nat.not_lt.mp hascii)
      rcases utf8EncodeChar_cases c with ⟨hsmall, -⟩ | hbeyond
      · exact absurd hsmall hascii
      have hall : (String.utf8EncodeChar c).countP (fun b => 0x80 ≤ b.toNat) =
          (String.utf8EncodeChar c).length :=
        List.countP_eq_length.mpr fun b hb => decide_eq_true (hbeyond b hb)
      omega

end Utf8

/-! ## Bytes that are no blanks -/

namespace Bytes

/-- Printable ASCII without blanks. -/
def Solid (bs : Bytes) : Prop := ∀ b ∈ bs, 0x20 < b.toNat ∧ b.toNat < 0x7F

theorem Solid.append {bs bs' : Bytes} (h : Solid bs) (h' : Solid bs') : Solid (bs ++ bs') :=
  List.forall_mem_append.mpr ⟨h, h'⟩

theorem Solid.ascii {bs : Bytes} (h : Solid bs) : ∀ b ∈ bs, b.toNat < 0x80 := by
  intro b hb
  have := (h b hb).2
  omega

theorem Solid.not_mem {bs : Bytes} (h : Solid bs) {b : UInt8} (hb : b.toNat ≤ 0x20) : b ∉ bs := by
  intro hmem
  have := (h b hmem).1
  omega

/-- The same for given bytes, one after another. -/
theorem solid_of_all {bs : Bytes}
    (h : (bs.all fun b => decide (0x20 < b.toNat) && decide (b.toNat < 0x7F)) = true) : Solid bs := by
  intro b hb
  have hbyte := List.all_eq_true.mp h b hb
  rwa [Bool.and_eq_true, decide_eq_true_eq, decide_eq_true_eq] at hbyte

theorem solid_decimal (n : Nat) : Solid (Bytes.decimal n) := by
  intro b hb
  have hdigit := isDigit_decimal n b hb
  simp only [isDigit, Bool.and_eq_true, decide_eq_true_eq, UInt8.le_iff_toNat_le] at hdigit
  exact ⟨lt_of_lt_of_le (by decide) hdigit.1, hdigit.2.trans_lt (by decide)⟩

theorem solid_hexDigits (width n : Nat) : Solid (hexDigits width n) := by
  intro b hb
  obtain ⟨d, hd, rfl⟩ := mem_hexDigits hb
  interval_cases d <;> decide

end Bytes

open Bytes (Solid)

theorem solid_list {items : List Json} (h : ∀ v ∈ items, Solid (render v)) : Solid (render (list items)) := by
  have hopen : Solid [0x5B] := Bytes.solid_of_all rfl
  have hcomma : Solid [0x2C] := Bytes.solid_of_all rfl
  have hclose : Solid [0x5D] := Bytes.solid_of_all rfl
  have hitems : Solid (renderItems items) := by
    induction items with
    | nil => exact List.forall_mem_nil _
    | cons v rest ih =>
      obtain ⟨hv, hrest⟩ := List.forall_mem_cons.mp h
      cases rest with
      | nil => exact hv
      | cons w rest => exact hv.append (hcomma.append (ih hrest))
  exact (hopen.append hitems).append hclose

theorem solid_bytes (bs : Bytes) : Solid (render (bytes bs)) := by
  apply solid_list
  intro v hv
  obtain ⟨b, -, rfl⟩ := List.mem_map.mp hv
  exact Bytes.solid_decimal b.toNat

theorem solid_record {members : List (String × Json)}
    (h : ∀ m ∈ members, Solid (quote m.1) ∧ Solid (render m.2)) : Solid (render (record members)) := by
  have hopen : Solid [0x7B] := Bytes.solid_of_all rfl
  have hcolon : Solid [0x3A] := Bytes.solid_of_all rfl
  have hcomma : Solid [0x2C] := Bytes.solid_of_all rfl
  have hclose : Solid [0x7D] := Bytes.solid_of_all rfl
  have hmembers : Solid (renderMembers (members.map fun m => (some m.1, m.2))) := by
    induction members with
    | nil => exact List.forall_mem_nil _
    | cons m rest ih =>
      obtain ⟨⟨hname, hv⟩, hrest⟩ := List.forall_mem_cons.mp h
      have hfirst := hname.append (hcolon.append hv)
      cases rest with
      | nil => exact hfirst
      | cons m' rest =>
        have hmore := hfirst.append (hcomma.append (ih hrest))
        simpa [renderMembers] using hmore
  exact (hopen.append hmembers).append hclose

/-- A record whose text has no blanks. It opens with a name, and nothing but an object or an array is read as one. -/
class SolidWire (α : Type) [Wire α] : Prop where
  solid : ∀ a : α, Solid (Wire.encode a)
  named : ∀ a : α, ∃ rest, Wire.encode a = 0x7B :: 0x22 :: rest
  container : ∀ {v : Json} {a : α}, Wire.ofJson v = .ok a →
    (∃ items closed, v = .array items closed) ∨ ∃ members closed, v = .object members closed

instance : SolidWire Entry where
  solid e := by
    apply solid_record
    rintro _ (_ | ⟨_, _ | ⟨_, _ | ⟨_, ⟨⟩⟩⟩⟩)
    · show Solid (quote "index") ∧ Solid (Bytes.decimal e.index)
      exact ⟨Bytes.solid_of_all rfl, Bytes.solid_decimal e.index⟩
    · show Solid (quote "term") ∧ Solid (Bytes.decimal e.term)
      exact ⟨Bytes.solid_of_all rfl, Bytes.solid_decimal e.term⟩
    · show Solid (quote "command") ∧ Solid (render (bytes e.command))
      exact ⟨Bytes.solid_of_all rfl, solid_bytes e.command⟩
  named _ := ⟨_, rfl⟩
  container {v _} h := by
    cases v with
    | array items closed => exact Or.inl ⟨items, closed, rfl⟩
    | object members closed => exact Or.inr ⟨members, closed, rfl⟩
    | _ => cases h

instance : SolidWire HardState where
  solid h := by
    apply solid_record
    rintro _ (_ | ⟨_, _ | ⟨_, ⟨⟩⟩⟩)
    · show Solid (quote "current_term") ∧ Solid (Bytes.decimal h.term)
      exact ⟨Bytes.solid_of_all rfl, Bytes.solid_decimal h.term⟩
    · show Solid (quote "voted_for") ∧ Solid (render (optional natural h.vote))
      refine ⟨Bytes.solid_of_all rfl, ?_⟩
      cases h.vote with
      | none => exact Bytes.solid_of_all rfl
      | some v => exact Bytes.solid_decimal v
  named _ := ⟨_, rfl⟩
  container {v _} h := by
    cases v with
    | array items closed => exact Or.inl ⟨items, closed, rfl⟩
    | object members closed => exact Or.inr ⟨members, closed, rfl⟩
    | _ => cases h

theorem solid_point (p : SnapshotPoint) : Solid (render (Wire.toJson p)) := by
  apply solid_record
  rintro _ (_ | ⟨_, _ | ⟨_, ⟨⟩⟩⟩)
  · show Solid (quote "last_included_index") ∧ Solid (Bytes.decimal p.index)
    exact ⟨Bytes.solid_of_all rfl, Bytes.solid_decimal p.index⟩
  · show Solid (quote "last_included_term") ∧ Solid (Bytes.decimal p.term)
    exact ⟨Bytes.solid_of_all rfl, Bytes.solid_decimal p.term⟩

instance : SolidWire Snapshot where
  solid snap := by
    apply solid_record
    rintro _ (_ | ⟨_, _ | ⟨_, ⟨⟩⟩⟩)
    · show Solid (quote "metadata") ∧ Solid (render (Wire.toJson snap.point))
      exact ⟨Bytes.solid_of_all rfl, solid_point snap.point⟩
    · show Solid (quote "data") ∧ Solid (render (bytes snap.data))
      exact ⟨Bytes.solid_of_all rfl, solid_bytes snap.data⟩
  named _ := ⟨_, rfl⟩
  container {v _} h := by
    cases v with
    | array items closed => exact Or.inl ⟨items, closed, rfl⟩
    | object members closed => exact Or.inr ⟨members, closed, rfl⟩
    | _ => cases h

theorem Record.encode_ascii {α : Type} [Wire α] [SolidWire α] (a : α) : ∀ b ∈ encode a, b.toNat < 0x80 := by
  intro b hb
  rcases List.mem_append.mp hb with htext | hsum
  · exact (SolidWire.solid a).ascii b htext
  · rcases List.mem_cons.mp hsum with rfl | hdigit
    · decide
    · exact (Bytes.solid_hexDigits 8 _).ascii b hdigit

end RaftNode
