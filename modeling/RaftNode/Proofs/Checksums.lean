import RaftNode.Store.Record
import Mathlib.Logic.Function.Basic
/-!
# What a checksum shows

Division by the polynomial loses nothing: each step can be undone, and so can the step for a byte that is known. Two
texts that differ in one byte therefore have different checksums, however long they are.
-/
namespace RaftNode

/-- One byte is replaced by another. -/
def Damaged (bs bs' : Bytes) : Prop :=
  ∃ front b b' back, b ≠ b' ∧ bs = front ++ b :: back ∧ bs' = front ++ b' :: back

/-- The damage is on one side of any cut. -/
theorem Damaged.append_cases {left right bs' : Bytes} (h : Damaged (left ++ right) bs') :
    (∃ left', Damaged left left' ∧ bs' = left' ++ right) ∨
      ∃ right', Damaged right right' ∧ bs' = left ++ right' := by
  obtain ⟨front, b, b', back, hne, hbs, rfl⟩ := h
  rcases List.append_eq_append_iff.mp hbs with ⟨rest, rfl, hright⟩ | ⟨rest, hleft, hback⟩
  · exact Or.inr ⟨rest ++ b' :: back, ⟨rest, b, b', back, hne, hright, rfl⟩, by simp⟩
  · cases rest with
    | nil =>
      have hright : right = b :: back := by simpa using hback.symm
      have hfront : left = front := by simpa using hleft
      exact Or.inr ⟨b' :: back, ⟨[], b, b', back, hne, hright, rfl⟩, by rw [hfront]⟩
    | cons c rest =>
      obtain ⟨rfl, rfl⟩ := List.cons.inj hback
      exact Or.inl ⟨front ++ b' :: rest, ⟨front, b, b', rest, hne, hleft, rfl⟩, by simp⟩

/-- The lowest bit is what a step looks at. -/
theorem and_one_eq_one (r : UInt32) : r &&& 1 = 1 ↔ r.toBitVec.getLsbD 0 = true := by
  have hmask : r.toBitVec &&& 1#32 = BitVec.setWidth 32 (BitVec.ofBool (r.toBitVec.getLsbD 0)) :=
    BitVec.and_one_eq_setWidth_ofBool_getLsbD
  rw [← UInt32.toBitVec_inj, UInt32.toBitVec_and]
  change r.toBitVec &&& 1#32 = 1#32 ↔ _
  rw [hmask]
  cases r.toBitVec.getLsbD 0 <;> decide

/-- The highest bit that a step leaves tells whether the polynomial was added. -/
theorem crcBit_top (r : UInt32) : (crcBit r).toBitVec.getLsbD 31 = r.toBitVec.getLsbD 0 := by
  unfold crcBit
  split
  · rename_i h
    rw [(and_one_eq_one r).mp h]
    simp
  · rename_i h
    rw [Bool.eq_false_iff.mpr (mt (and_one_eq_one r).mpr h)]
    simp

theorem crcBit_injective : Function.Injective crcBit := by
  intro r r' h
  have hlow : r.toBitVec.getLsbD 0 = r'.toBitVec.getLsbD 0 := by
    rw [← crcBit_top, ← crcBit_top, h]
  have hsame : r &&& 1 = 1 ↔ r' &&& 1 = 1 := by
    rw [and_one_eq_one, and_one_eq_one, hlow]
  have hshift : r >>> 1 = r' >>> 1 := by
    unfold crcBit at h
    by_cases hr : r &&& 1 = 1
    · rw [if_pos hr, if_pos (hsame.mp hr)] at h
      exact (UInt32.xor_left_inj _).mp h
    · rwa [if_neg hr, if_neg (mt hsame.mpr hr)] at h
  apply UInt32.toBitVec_inj.mp
  apply BitVec.eq_of_getLsbD_eq
  intro i hi
  cases i with
  | zero => exact hlow
  | succ i =>
    have hbit := congrArg (fun x : UInt32 => x.toBitVec.getLsbD i) hshift
    simpa [Nat.add_comm 1 i] using hbit

/-- What the step for a byte leaves tells what the byte was added to. -/
theorem crcByte_eq {r r' : UInt32} {b b' : UInt8} (h : crcByte r b = crcByte r' b') :
    r ^^^ b.toUInt32 = r' ^^^ b'.toUInt32 := by
  iterate 8 apply crcBit_injective
  exact h

theorem foldl_crcByte_injective (bs : Bytes) : Function.Injective fun r => bs.foldl crcByte r := by
  induction bs with
  | nil => exact fun _ _ h => h
  | cons b bs ih =>
    intro r r' h
    exact (UInt32.xor_left_inj _).mp (crcByte_eq (ih h))

/-- A damaged text has another checksum. -/
theorem crc32_ne_of_damaged {bs bs' : Bytes} (h : Damaged bs bs') : crc32 bs' ≠ crc32 bs := by
  obtain ⟨front, b, b', back, hne, rfl, rfl⟩ := h
  intro heq
  unfold crc32 at heq
  have hfold := (UInt32.xor_left_inj _).mp heq
  rw [List.foldl_append, List.foldl_append, List.foldl_cons, List.foldl_cons] at hfold
  have hbyte := crcByte_eq (foldl_crcByte_injective back hfold)
  exact hne (UInt8.toUInt32_inj.mp ((UInt32.xor_right_inj _).mp hbyte)).symm

/-- The check value of the CRC: that of the digits one to nine. -/
example : crc32 (Bytes.ofString "123456789") = 0xCBF43926 := by decide +kernel

end RaftNode
