import RaftNode.Json.Token
import Mathlib.Data.List.TakeWhile
import Mathlib.Tactic.IntervalCases
/-!
# Numbers and texts as they are written

What a program writes for a number or a text is read back as that number or text.
-/
namespace RaftNode

/-! ## UTF-8 -/

namespace Utf8

theorem next?_encode (c : Char) (rest : Bytes) :
    next? (String.utf8EncodeChar c ++ rest) = some (c, rest) := by
  have hlen : (String.utf8EncodeChar c).length = c.utf8Size := String.length_utf8EncodeChar c
  have htake : (String.utf8EncodeChar c ++ rest).take 4 =
      String.utf8EncodeChar c ++ rest.take (4 - c.utf8Size) := by
    rw [List.take_append, List.take_of_length_le (hlen.trans_le c.utf8Size_le_four), hlen]
  rw [next?, htake, List.toByteArray_append, ByteArray.utf8DecodeChar?_utf8EncodeChar_append,
    Option.map_some, List.drop_append_of_le_length hlen.ge, List.drop_of_length_le hlen.le,
    List.nil_append]

theorem decodeWith_encode (onBroken : Option Char) (cs : List Char) {fuel : Nat}
    (hfuel : (cs.flatMap String.utf8EncodeChar).length ≤ fuel) :
    decodeWith onBroken fuel (cs.flatMap String.utf8EncodeChar) = some cs := by
  induction cs generalizing fuel with
  | nil => cases fuel <;> rfl
  | cons c rest ih =>
    have hpos : 0 < (String.utf8EncodeChar c).length :=
      List.length_pos_iff.mpr String.utf8EncodeChar_ne_nil
    rw [List.flatMap_cons] at hfuel ⊢
    rw [List.length_append] at hfuel
    cases fuel with
    | zero => omega
    | succ fuel =>
      have hne : (String.utf8EncodeChar c ++ rest.flatMap String.utf8EncodeChar).isEmpty = false :=
        List.isEmpty_eq_false_iff.mpr (List.append_ne_nil_of_left_ne_nil String.utf8EncodeChar_ne_nil _)
      simp only [decodeWith, hne, next?_encode, Bool.false_eq_true, if_false]
      rw [ih (by omega), Option.map_some]

theorem decode?_encode (cs : List Char) :
    decode? (cs.flatMap String.utf8EncodeChar) = some (String.ofList cs) := by
  rw [decode?, decodeWith_encode none cs le_rfl, Option.map_some]

end Utf8

/-- The encoding of a character beyond ASCII has no byte of ASCII. -/
theorem utf8EncodeChar_cases (c : Char) :
    c.toNat < 0x80 ∧ String.utf8EncodeChar c = [UInt8.ofNat c.toNat] ∨
      ∀ b ∈ String.utf8EncodeChar c, 0x80 ≤ b.toNat := by
  have hv : c.val.toNat = c.toNat := rfl
  unfold String.utf8EncodeChar
  simp only [hv]
  split
  · exact Or.inl ⟨by omega, rfl⟩
  · right
    split
    · simp; omega
    · split <;> (simp; omega)

/-! ## Decimal and hexadecimal numbers -/

namespace Bytes

theorem isDigit_digit {d : Nat} (hd : d < 10) : isDigit (UInt8.ofNat (0x30 + d)) = true := by
  interval_cases d <;> rfl

theorem digit_value {d : Nat} (hd : d < 10) : (UInt8.ofNat (0x30 + d)).toNat - 0x30 = d := by
  interval_cases d <;> rfl

theorem decimal_ne_nil (n : Nat) : decimal n ≠ [] := by
  rw [decimal]
  split <;> simp

theorem isDigit_decimal (n : Nat) : ∀ b ∈ decimal n, isDigit b = true := by
  induction n using decimal.induct with
  | case1 n hn =>
    rw [decimal, if_pos hn]
    simpa using isDigit_digit hn
  | case2 n hn ih =>
    rw [decimal, if_neg hn]
    intro b hb
    rcases List.mem_append.mp hb with hb | hb
    · exact ih b hb
    · rw [List.mem_singleton.mp hb]
      exact isDigit_digit (Nat.mod_lt n (by omega))

theorem head?_decimal {n : Nat} (hn : 0 < n) : (decimal n).head? ≠ some 0x30 := by
  induction n using decimal.induct with
  | case1 n hlt =>
    rw [decimal, if_pos hlt]
    interval_cases n <;> decide
  | case2 n hge ih =>
    rw [decimal, if_neg hge, List.head?_append, List.head?_eq_some_head (decimal_ne_nil _),
      Option.some_or, ← List.head?_eq_some_head]
    exact ih (by omega)

theorem hexValue?_hexDigit {n : Nat} (hn : n < 16) : hexValue? (hexDigit n) = some n := by
  interval_cases n <;> rfl

end Bytes

namespace Json

open Bytes (decimal)

theorem Number.take_digit {n d : Nat} (hd : d < 10) (hn : 10 * n + d < wordLimit) (count : Nat)
    (rest : Bytes) : Number.take n count (UInt8.ofNat (0x30 + d) :: rest) =
      Number.take (10 * n + d) (count + 1) rest := by
  simp only [Number.take, Bytes.digit_value hd, if_pos hn]

theorem Number.take_decimal {n : Nat} (hn : n < wordLimit) (rest : Bytes) :
    Number.take 0 0 (decimal n ++ rest) = Number.take n (decimal n).length rest := by
  induction n using Bytes.decimal.induct generalizing rest with
  | case1 n hlt =>
    rw [decimal, if_pos hlt, List.singleton_append, Number.take_digit hlt (by omega)]
    simp
  | case2 n hge ih =>
    have hvalue : 10 * (n / 10) + n % 10 = n := Nat.div_add_mod n 10
    rw [decimal, if_neg hge, List.append_assoc, ih (by omega), List.singleton_append,
      Number.take_digit (Nat.mod_lt n (by omega)) (by omega), hvalue, List.length_append]
    rfl

theorem Number.read?_decimal {n : Nat} (hn : n < wordLimit) :
    Number.read? (decimal n) = some (.natural n, []) := by
  have hall := Bytes.isDigit_decimal n
  have hdigits : Number.digits (decimal n) = (decimal n, []) := by
    rw [Number.digits, List.takeWhile_eq_self_iff.mpr hall, List.dropWhile_eq_nil_iff.mpr hall]
  have hlead : ¬ ((decimal n).head? = some 0x30 ∧ (decimal n).length ≠ 1) := by
    rintro ⟨hhead, hlen⟩
    rcases Nat.eq_zero_or_pos n with rfl | hpos
    · exact hlen (by rw [decimal]; rfl)
    · exact Bytes.head?_decimal hpos hhead
  have htake : Number.take 0 0 (decimal n) = (n, (decimal n).length) := by
    simpa [Number.take] using Number.take_decimal hn []
  obtain ⟨b, rest, hb⟩ := List.exists_cons_of_ne_nil (Bytes.decimal_ne_nil n)
  have hfirst : Bytes.isDigit b = true := hall b (by rw [hb]; exact List.mem_cons_self)
  have hsign : b ≠ 0x2D := by
    rintro rfl
    cases hfirst
  rw [hb] at hdigits hlead htake ⊢
  have hlead' : b = 0x30 → rest = [] := by
    rintro rfl
    simpa using hlead
  simpa [Number.read?, hsign, hdigits, Number.fraction?, Number.exponent?, Number.Parts.value, htake]

/-! ## Quoted texts -/

/-- A character is written with an escape of its own, by its number, or as it is. -/
theorem escapeChar_cases (c : Char) :
    (∃ e b, escapeChar c = [0x5C, e] ∧ e ≠ 0x75 ∧ Token.escape? e = some b ∧
      String.utf8EncodeChar c = [b]) ∨
    (c.toNat < 0x20 ∧ escapeChar c = 0x5C :: 0x75 :: Bytes.hexDigits 4 c.toNat) ∨
    (escapeChar c = String.utf8EncodeChar c ∧
      ∀ b ∈ String.utf8EncodeChar c, b ≠ 0x22 ∧ b ≠ 0x5C ∧ ¬ b < 0x20) := by
  by_cases hown : c ∈ ['"', '\\', '\x08', '\x0c', '\n', '\r', '\t']
  · left
    simp only [List.mem_cons, List.not_mem_nil, or_false] at hown
    rcases hown with rfl | rfl | rfl | rfl | rfl | rfl | rfl <;>
      exact ⟨_, _, rfl, by decide, rfl, by decide⟩
  right
  simp only [List.mem_cons, List.not_mem_nil, or_false, not_or] at hown
  obtain ⟨hquote, hslash, hb, hf, hn, hr, ht⟩ := hown
  unfold escapeChar
  rw [if_neg hquote, if_neg hslash, if_neg hb, if_neg hf, if_neg hn, if_neg hr, if_neg ht]
  split
  · exact Or.inl ⟨‹_›, rfl⟩
  · rename_i hprint
    refine Or.inr ⟨rfl, fun b hmem => ?_⟩
    have hne : ∀ d : Char, c ≠ d → c.toNat ≠ d.toNat := fun d hcd h => hcd (Char.toNat_inj.mp h)
    have hnumber : b.toNat ≠ 0x22 ∧ b.toNat ≠ 0x5C ∧ 0x20 ≤ b.toNat := by
      rcases utf8EncodeChar_cases c with ⟨hascii, he⟩ | hbeyond
      · rw [he, List.mem_singleton] at hmem
        have hvalue : b.toNat = c.toNat := by
          rw [hmem]
          exact UInt8.toNat_ofNat_of_lt' (hascii.trans (by decide))
        exact hvalue ▸ ⟨hne '"' hquote, hne '\\' hslash, by omega⟩
      · have := hbeyond b hmem
        omega
    refine ⟨?_, ?_, ?_⟩
    · rintro rfl
      exact hnumber.1 rfl
    · rintro rfl
      exact hnumber.2.1 rfl
    · rw [UInt8.lt_iff_toNat_lt]
      exact Nat.not_lt.mpr hnumber.2.2

namespace Token

theorem hex4?_hexDigits {n : Nat} (hn : n < 0x10000) (rest : Bytes) :
    hex4? (Bytes.hexDigits 4 n ++ rest) = some (n, rest) := by
  simp only [Bytes.hexDigits, List.nil_append, List.cons_append, hex4?,
    Bytes.hexValue?_hexDigit (Nat.mod_lt _ (by omega : 0 < 16)), Option.bind_eq_bind, Option.bind_some]
  congr 2
  omega

theorem pieces?_plain {bs : Bytes} (hbs : ∀ b ∈ bs, b ≠ 0x5C) (fuel : Nat) (rest : Bytes) :
    pieces? (bs.length + fuel) (bs ++ rest) = (pieces? fuel rest).map (bs.map .byte ++ ·) := by
  induction bs with
  | nil => simp
  | cons b bs ih =>
    have hb := hbs b List.mem_cons_self
    rw [List.length_cons, Nat.add_right_comm]
    simp only [List.cons_append, pieces?, if_neg hb,
      ih fun a ha => hbs a (List.mem_cons_of_mem b ha), Option.map_map]
    rfl

theorem assemble?_bytes (bs : Bytes) (ps : List Piece) :
    assemble? (bs.map .byte ++ ps) = (assemble? ps).map (bs ++ ·) := by
  induction bs with
  | nil => simp
  | cons b bs ih =>
    rw [List.map_cons, List.cons_append, assemble?, ih, Option.map_map]
    rfl

/-- A number that is no surrogate stands for a character by itself. -/
theorem assemble?_unit {n : Nat} (hn : n < 0xD800) (ps : List Piece) :
    assemble? (.unit n :: ps) =
      (assemble? ps).map (String.utf8EncodeChar (Char.ofNat n) ++ ·) := by
  have hlow : ¬ (0xD800 ≤ n) := by omega
  have hhigh : ¬ (0xDC00 ≤ n) := by omega
  match ps with
  | [] | .byte b :: ps | .unit m :: ps => simp [assemble?, hlow, hhigh]

theorem pieces?_escape (cs : List Char) : ∃ ps,
    (∀ fuel, (cs.flatMap escapeChar).length ≤ fuel → pieces? fuel (cs.flatMap escapeChar) = some ps) ∧
      assemble? ps = some (cs.flatMap String.utf8EncodeChar) := by
  induction cs with
  | nil => exact ⟨[], fun fuel _ => by cases fuel <;> rfl, rfl⟩
  | cons c cs ih =>
    obtain ⟨ps, hps, hbytes⟩ := ih
    simp only [List.flatMap_cons, List.length_append]
    rcases escapeChar_cases c with ⟨e, b, he, hne, hb, hc⟩ | ⟨hcontrol, he⟩ | ⟨he, hplain⟩
    · refine ⟨.byte b :: ps, fun fuel hfuel => ?_, by rw [assemble?, hbytes, hc]; rfl⟩
      rw [he] at hfuel ⊢
      simp only [List.length_cons, List.length_nil] at hfuel
      obtain ⟨k, rfl⟩ := Nat.exists_eq_add_of_le' (show 1 ≤ fuel by omega)
      simp [pieces?, hne, hb, hps k (by omega)]
    · refine ⟨.unit c.toNat :: ps, fun fuel hfuel => ?_, ?_⟩
      · rw [he] at hfuel ⊢
        simp only [List.length_cons] at hfuel
        obtain ⟨k, rfl⟩ := Nat.exists_eq_add_of_le' (show 1 ≤ fuel by omega)
        simp [pieces?, hex4?_hexDigits (show c.toNat < 0x10000 by omega), hps k (by omega)]
      · rw [assemble?_unit (by omega), hbytes, Char.ofNat_toNat]
        rfl
    · refine ⟨(String.utf8EncodeChar c).map .byte ++ ps, fun fuel hfuel => ?_, ?_⟩
      · rw [he] at hfuel ⊢
        obtain ⟨k, rfl⟩ := Nat.exists_eq_add_of_le (show (String.utf8EncodeChar c).length ≤ fuel by omega)
        rw [pieces?_plain (fun b hb => (hplain b hb).2.1), hps k (by omega)]
        rfl
      · rw [assemble?_bytes, hbytes]
        rfl

theorem ofQuoted_escape (cs : List Char) :
    ofQuoted (cs.flatMap escapeChar) = .text (some (String.ofList cs)) := by
  obtain ⟨ps, hps, hbytes⟩ := pieces?_escape cs
  rw [ofQuoted, hps _ le_rfl]
  simp only [hbytes, Option.bind_some, Utf8.decode?_encode]

end Token

end Json

end RaftNode
