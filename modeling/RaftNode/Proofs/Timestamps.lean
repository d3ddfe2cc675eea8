import RaftNode.Proofs.Solid
import RaftNode.Time
/-!
# Times in RFC 3339 form

The texts of the grammar of RFC 3339, and of years that it leaves out but a clock can show, are times of the right form
and range. They have no blanks.
-/
namespace RaftNode.Time

/-! ## Numbers of a fixed width -/

def digits : Nat → Nat → List Char
  | 0, _ => []
  | width + 1, n => digits width (n / 10) ++ [Nat.digitChar (n % 10)]

theorem length_digits (width n : Nat) : (digits width n).length = width := by
  induction width generalizing n with
  | zero => rfl
  | succ width ih => rw [digits, List.length_append, ih, List.length_singleton]

theorem isDigit_digits {width n : Nat} : ∀ c ∈ digits width n, c.isDigit = true := by
  induction width generalizing n with
  | zero => exact List.forall_mem_nil _
  | succ width ih =>
    have hlast : (Nat.digitChar (n % 10)).isDigit = true := by
      rw [Nat.isDigit_digitChar, decide_eq_true_iff]
      exact Nat.mod_lt n (by omega)
    intro c hc
    rcases List.mem_append.mp hc with hc | hc
    · exact ih c hc
    · rwa [List.mem_singleton.mp hc]

theorem value_digits {width n : Nat} (hn : n < 10 ^ width) :
    (digits width n).foldl (fun n d => 10 * n + (d.toNat - '0'.toNat)) 0 = n := by
  induction width generalizing n with
  | zero =>
    rw [pow_zero] at hn
    exact (Nat.lt_one_iff.mp hn).symm
  | succ width ih =>
    have hless : n / 10 < 10 ^ width := by
      rw [Nat.div_lt_iff_lt_mul (by omega)]
      rwa [pow_succ] at hn
    have hdigit : (Nat.digitChar (n % 10)).toNat - '0'.toNat = n % 10 :=
      Nat.toNat_digitChar_sub_48_of_lt_ten (Nat.mod_lt n (by omega))
    rw [digits, List.foldl_append, ih hless, List.foldl_cons, List.foldl_nil, hdigit]
    omega

theorem isBlank_of_isDigit {c : Char} (hc : c.isDigit = true) : Utf8.isBlank c = false := by
  have hrange : 48 ≤ c.toNat ∧ c.toNat ≤ 57 := Char.isDigit_iff_toNat.mp hc
  simp only [Utf8.isBlank, Bool.or_eq_false_iff, Bool.and_eq_false_iff, decide_eq_false_iff_not]
  omega

theorem skipBlanks_cons {c : Char} (hc : Utf8.isBlank c = false) (cs : List Char) :
    skipBlanks (c :: cs) = c :: cs := by
  rw [skipBlanks, List.dropWhile_cons_of_neg (by simp [hc])]

theorem skipBlanks_digits {width : Nat} (hwidth : 0 < width) (n : Nat) (rest : List Char) :
    skipBlanks (digits width n ++ rest) = digits width n ++ rest := by
  obtain ⟨d, ds, hds⟩ := List.exists_cons_of_length_pos ((length_digits width n).symm ▸ hwidth)
  have hd : d.isDigit = true := isDigit_digits d (hds ▸ List.mem_cons_self)
  rw [hds, List.cons_append, skipBlanks_cons (isBlank_of_isDigit hd)]

/-- A number is read up to its last digit, if it is as wide as may be or another character follows. -/
theorem number?_digits {most width n : Nat} {rest : List Char} (hwidth : 0 < width)
    (hn : n < 10 ^ width)
    (hend : width = most ∨ width ≤ most ∧ ∀ c ∈ rest.head?, c.isDigit = false) :
    number? most (digits width n ++ rest) = some (n, rest) := by
  have hlength := length_digits width n
  have hread : ((digits width n ++ rest).take most).takeWhile Char.isDigit = digits width n := by
    rw [List.take_append, hlength, List.take_of_length_le (by omega),
      List.takeWhile_append_of_pos isDigit_digits]
    suffices h : (rest.take (most - width)).takeWhile Char.isDigit = [] by
      rw [h, List.append_nil]
    obtain rfl | ⟨-, hother⟩ := hend
    · rw [Nat.sub_self]
      rfl
    · cases rest with
      | nil => rw [List.take_nil]; rfl
      | cons c rest =>
        have hc : c.isDigit = false := hother c rfl
        cases most - width with
        | zero => rfl
        | succ k => rw [List.take_succ_cons, List.takeWhile_cons_of_neg (by simp [hc])]
  have hsome : (digits width n).isEmpty = false := by
    rw [List.isEmpty_eq_false_iff, ← List.length_pos_iff, hlength]
    exact hwidth
  simp only [number?, skipBlanks_digits hwidth, hread, hsome, value_digits hn]
  rw [List.drop_left]
  rfl

theorem mark?_cons {c : Char} (hc : Utf8.isBlank c = false) (cs : List Char) :
    mark? c (c :: cs) = some cs := by
  rw [mark?, skipBlanks_cons hc]
  exact if_pos rfl

/-! ## Stamps -/

/-- What a clock is ahead of one at offset zero, or behind it. -/
inductive Offset where
  | zulu (mark : Char)
  | shift (behind : Bool) (hours minutes : Nat)

namespace Offset

def Proper : Offset → Prop
  | zulu mark => mark = 'Z' ∨ mark = 'z'
  | shift _ hours minutes => hours < 24 ∧ minutes < 60

/-- The minutes ahead. -/
def ahead : Offset → Int
  | zulu _ => 0
  | shift behind hours minutes =>
    let minutes : Int := 60 * hours + minutes
    if behind then -minutes else minutes

def text : Offset → List Char
  | zulu mark => [mark]
  | shift behind hours minutes =>
    (if behind then '-' else '+') :: digits 2 hours ++ ':' :: digits 2 minutes

end Offset

/-- Four digits, or a sign and as many as there must be. -/
def yearText (year : Int) : List Char :=
  let n := year.natAbs
  let width := if n < 10000 then 4 else if n < 100000 then 5 else 6
  if year < 0 then '-' :: digits width n
  else if 10000 ≤ year then '+' :: digits width n
  else digits width n

/-- A time that RFC 3339 can write, or one in a year beyond four digits. The marks between date and time and at the end
are of either case. -/
structure Stamp where
  date : Date
  mark : Char
  hour : Nat
  minute : Nat
  second : Nat
  fraction : List Char
  offset : Offset
  year_range : firstDay.year ≤ date.year ∧ date.year ≤ lastDay.year
  month_range : 1 ≤ date.month ∧ date.month ≤ 12
  day_range : 1 ≤ date.day ∧ date.day ≤ daysInMonth date.year.natAbs date.month
  mark_case : mark = 'T' ∨ mark = 't'
  hour_lt : hour < 24
  minute_lt : minute < 60
  second_le : second ≤ 60
  fraction_digits : ∀ c ∈ fraction, c.isDigit = true
  offset_proper : offset.Proper
  /-- A clock at offset zero can show it. -/
  inRange : isInRange date (60 * hour + minute) offset.ahead = true

namespace Stamp

def dateText (s : Stamp) : List Char :=
  yearText s.date.year ++ '-' :: digits 2 s.date.month ++ '-' :: digits 2 s.date.day

def fractionText (s : Stamp) : List Char := if s.fraction = [] then [] else '.' :: s.fraction

def timeText (s : Stamp) : List Char :=
  digits 2 s.hour ++ ':' :: digits 2 s.minute ++ ':' :: digits 2 s.second ++ s.fractionText

def text (s : Stamp) : String :=
  String.ofList (s.dateText ++ s.mark :: (s.timeText ++ s.offset.text))

end Stamp

/-! ## What is read of a stamp -/

theorem number?_pair {n : Nat} (hn : n < 100) (rest : List Char) :
    number? 2 (digits 2 n ++ rest) = some (n, rest) :=
  number?_digits (by omega) hn (Or.inl rfl)

theorem positive_digits {width most n : Nat} {rest : List Char} (hwidth : 0 < width)
    (hn : n < 10 ^ width) (hmost : width ≤ most) :
    year?.positive most (digits width n ++ '-' :: rest) = some ((n : Int), '-' :: rest) := by
  have hread : number? most (digits width n ++ '-' :: rest) = some (n, '-' :: rest) :=
    number?_digits hwidth hn (Or.inr ⟨hmost, by simp⟩)
  simp only [year?.positive, hread]
  rfl

/-- A number opens with a digit. -/
theorem exists_digits_cons {width : Nat} (hwidth : 0 < width) (n : Nat) :
    ∃ d ds, digits width n = d :: ds ∧ d.isDigit = true ∧ ds.length + 1 = width := by
  have hlength := length_digits width n
  obtain ⟨d, ds, hds⟩ := List.exists_cons_of_length_pos (hlength.symm ▸ hwidth)
  refine ⟨d, ds, hds, isDigit_digits d (hds ▸ List.mem_cons_self), ?_⟩
  rw [hds, List.length_cons] at hlength
  exact hlength

theorem year?_yearText {year : Int} (hyear : firstDay.year ≤ year ∧ year ≤ lastDay.year)
    (rest : List Char) : year? (yearText year ++ '-' :: rest) = some (year, '-' :: rest) := by
  obtain ⟨hfirst, hlast⟩ : -262143 ≤ year ∧ year ≤ 262142 := hyear
  obtain ⟨width, hwidth, hn, hpos⟩ : ∃ width,
      (if year.natAbs < 10000 then 4 else if year.natAbs < 100000 then 5 else 6) = width ∧
        year.natAbs < 10 ^ width ∧ 0 < width := by
    refine ⟨_, rfl, ?_, ?_⟩
    · split
      · assumption
      · split <;> omega
    · split
      · omega
      · split <;> omega
  obtain ⟨d, ds, hds, hd, hlength⟩ := exists_digits_cons hpos year.natAbs
  have hsigned : ∀ most, width ≤ most →
      year?.positive most (d :: (ds ++ '-' :: rest)) = some ((year.natAbs : Int), '-' :: rest) := by
    intro most hmost
    have hread : year?.positive most (digits width year.natAbs ++ '-' :: rest) = _ :=
      positive_digits hpos hn hmost
    rwa [hds, List.cons_append] at hread
  have hlong : width ≤ (ds ++ '-' :: rest).length.succ := by
    rw [List.length_append]
    omega
  unfold yearText
  simp only [hwidth, hds]
  by_cases hneg : year < 0
  · rw [if_pos hneg]
    simp only [List.cons_append, year?]
    rw [skipBlanks_cons (by decide)]
    simp only [hd, if_true, hsigned _ hlong, Option.map_some]
    rw [show (-(year.natAbs : Int)) = year by omega]
  · have hsame : (year.natAbs : Int) = year := by omega
    rw [if_neg hneg]
    by_cases hbig : 10000 ≤ year
    · rw [if_pos hbig]
      simp only [List.cons_append, year?]
      rw [skipBlanks_cons (by decide)]
      simp only [hd, if_true, hsigned _ hlong, hsame]
    · rw [if_neg hbig]
      have hfour : width ≤ 4 := by
        rw [← hwidth, if_pos (by omega)]
      simp only [List.cons_append, year?]
      rw [skipBlanks_cons (isBlank_of_isDigit hd)]
      split
      · rename_i heq
        obtain ⟨rfl, -⟩ := List.cons.inj heq
        cases hd
      · rename_i heq
        obtain ⟨rfl, -⟩ := List.cons.inj heq
        cases hd
      · rw [hsigned 4 hfour, hsame]

theorem date?_dateText (s : Stamp) (rest : List Char) :
    date? (s.dateText ++ rest) = some (s.date, rest) := by
  obtain ⟨hmonth, hday⟩ : s.date.month < 100 ∧ s.date.day < 100 := by
    have := s.month_range.2
    have hmost : s.date.day ≤ 31 := s.day_range.2.trans (by unfold daysInMonth; split_ifs <;> omega)
    omega
  have htext : s.dateText ++ rest = yearText s.date.year ++ '-' ::
      (digits 2 s.date.month ++ '-' :: (digits 2 s.date.day ++ rest)) := by
    simp only [Stamp.dateText, List.append_assoc, List.cons_append]
  have hmark : ∀ cs, mark? '-' ('-' :: cs) = some cs := mark?_cons (by decide)
  simp only [date?, htext, year?_yearText s.year_range, Option.bind_eq_bind, Option.bind_some, hmark,
    number?_pair hmonth, number?_pair hday]
  rw [if_pos]
  simp only [s.year_range, s.month_range, s.day_range, decide_true, Bool.and_self]

theorem fraction?_fractionText (s : Stamp) {c : Char} (hdigit : c.isDigit = false) (hpoint : c ≠ '.')
    (rest : List Char) : fraction? (s.fractionText ++ c :: rest) = some (c :: rest) := by
  have hstop : (c :: rest).takeWhile Char.isDigit = [] ∧
      (c :: rest).dropWhile Char.isDigit = c :: rest := by
    rw [List.takeWhile_cons_of_neg (by simp [hdigit]), List.dropWhile_cons_of_neg (by simp [hdigit])]
    exact ⟨rfl, rfl⟩
  by_cases hnone : s.fraction = []
  · rw [Stamp.fractionText, if_pos hnone, List.nil_append, fraction?]
    rintro rest' ⟨⟩
    exact hpoint rfl
  · rw [Stamp.fractionText, if_neg hnone, List.cons_append, fraction?,
      List.takeWhile_append_of_pos s.fraction_digits, List.dropWhile_append_of_pos s.fraction_digits,
      hstop.1, hstop.2, List.append_nil, if_neg (by simpa using hnone)]

theorem timeOfDay?_timeText (s : Stamp) {c : Char} (hdigit : c.isDigit = false) (hpoint : c ≠ '.')
    (rest : List Char) :
    timeOfDay? (s.timeText ++ c :: rest) = some (60 * s.hour + s.minute, c :: rest) := by
  have htext : s.timeText ++ c :: rest = digits 2 s.hour ++ ':' ::
      (digits 2 s.minute ++ ':' :: (digits 2 s.second ++ (s.fractionText ++ c :: rest))) := by
    simp only [Stamp.timeText, List.append_assoc, List.cons_append]
  have hmark : ∀ cs, mark? ':' (':' :: cs) = some cs := mark?_cons (by decide)
  obtain ⟨hhour, hminute, hsecond⟩ : s.hour < 100 ∧ s.minute < 100 ∧ s.second < 100 := by
    have := s.hour_lt
    have := s.minute_lt
    have := s.second_le
    omega
  simp only [timeOfDay?, htext, Option.bind_eq_bind, Option.bind_some, hmark, number?_pair hhour,
    number?_pair hminute, number?_pair hsecond, fraction?_fractionText s hdigit hpoint, s.hour_lt,
    s.minute_lt, s.second_le, decide_true, Bool.and_self, if_true]
  rfl

/-- The two digits of an offset. -/
theorem exists_pair {n : Nat} (hn : n < 100) : ∃ a b, digits 2 n = [a, b] ∧ a.isDigit = true ∧
    b.isDigit = true ∧ offset?.digit a b = n := by
  have hall : ∀ c ∈ digits 2 n, c.isDigit = true := isDigit_digits
  have hvalue : offset?.digit (Nat.digitChar (n / 10 % 10)) (Nat.digitChar (n % 10)) = n := by
    have hfold := @value_digits 2 n hn
    simp only [digits, List.nil_append, List.singleton_append, List.foldl_cons, List.foldl_nil] at hfold
    rw [offset?.digit]
    omega
  exact ⟨_, _, rfl, hall _ List.mem_cons_self, hall _ (List.mem_cons_of_mem _ List.mem_cons_self), hvalue⟩

theorem offset?_text {o : Offset} (ho : o.Proper) :
    offset? (skipBlanks o.text) = some (o.ahead, []) := by
  cases o with
  | zulu mark =>
    obtain rfl | rfl : mark = 'Z' ∨ mark = 'z' := ho
    · rfl
    · rfl
  | shift behind hours minutes =>
    obtain ⟨hhours, hminutes⟩ : hours < 24 ∧ minutes < 60 := ho
    obtain ⟨a, b, hab, ha, hb, rfl⟩ := exists_pair (show hours < 100 by omega)
    obtain ⟨c, d, hcd, hc, hd, rfl⟩ := exists_pair (show minutes < 100 by omega)
    have hcolon : c ≠ ':' := by
      rintro rfl
      cases hc
    have hblank : Utf8.isBlank c = false := isBlank_of_isDigit hc
    rw [Offset.text, hab, hcd]
    cases behind with
    | false =>
      simp only [Bool.false_eq_true, if_false, List.cons_append, List.nil_append]
      rw [skipBlanks_cons (by decide)]
      simp [offset?, Offset.ahead, ha, hb, hc, hd, hhours, hminutes, hcolon, hblank]
    | true =>
      simp only [if_true, List.cons_append, List.nil_append]
      rw [skipBlanks_cons (by decide)]
      simp [offset?, Offset.ahead, ha, hb, hc, hd, hhours, hminutes, hcolon, hblank]

/-- What follows a time of day is no part of it. -/
theorem exists_offset_cons {o : Offset} (ho : o.Proper) :
    ∃ c cs, o.text = c :: cs ∧ c.isDigit = false ∧ c ≠ '.' := by
  cases o with
  | zulu mark =>
    obtain rfl | rfl : mark = 'Z' ∨ mark = 'z' := ho
    · exact ⟨_, _, rfl, rfl, by decide⟩
    · exact ⟨_, _, rfl, rfl, by decide⟩
  | shift behind hours minutes =>
    refine ⟨_, _, rfl, ?_⟩
    cases behind <;> decide

theorem isValid_text (s : Stamp) : isValid s.text = true := by
  obtain ⟨c, cs, hcs, hdigit, hpoint⟩ := exists_offset_cons s.offset_proper
  have hmark : (decide (s.mark = 'T') || decide (s.mark = 't') || decide (s.mark = ' ')) = true := by
    rcases s.mark_case with h | h <;> simp [h]
  have hoffset := offset?_text s.offset_proper
  rw [hcs] at hoffset
  rw [isValid, Stamp.text, String.toList_ofList, date?_dateText, hcs]
  simp only [hmark, timeOfDay?_timeText s hdigit hpoint, hoffset, Option.bind_eq_bind, Option.bind_some,
    s.inRange]
  rfl

/-! ## Characters -/

/-- Printable ASCII without blanks. -/
def Visible (c : Char) : Prop := 0x20 < c.toNat ∧ c.toNat < 0x7F

instance (c : Char) : Decidable (Visible c) := inferInstanceAs (Decidable (_ ∧ _))

theorem visible_of_isDigit {c : Char} (hc : c.isDigit = true) : Visible c := by
  have hrange : 48 ≤ c.toNat ∧ c.toNat ≤ 57 := Char.isDigit_iff_toNat.mp hc
  constructor <;> omega

theorem visible_digits {width n : Nat} : ∀ c ∈ digits width n, Visible c :=
  fun c hc => visible_of_isDigit (isDigit_digits c hc)

theorem visible_yearText (year : Int) : ∀ c ∈ yearText year, Visible c := by
  unfold yearText
  extract_lets n width
  split
  · exact List.forall_mem_cons.mpr ⟨by decide, visible_digits⟩
  · split
    · exact List.forall_mem_cons.mpr ⟨by decide, visible_digits⟩
    · exact visible_digits

theorem visible_offset {o : Offset} (ho : o.Proper) : ∀ c ∈ o.text, Visible c := by
  cases o with
  | zulu mark =>
    rw [Offset.text, List.forall_mem_singleton]
    obtain rfl | rfl : mark = 'Z' ∨ mark = 'z' := ho <;> decide
  | shift behind hours minutes =>
    rw [Offset.text, List.cons_append, List.forall_mem_cons, List.forall_mem_append,
      List.forall_mem_cons]
    refine ⟨?_, visible_digits, by decide, visible_digits⟩
    cases behind <;> decide

theorem Stamp.visible (s : Stamp) : ∀ c ∈ s.text.toList, Visible c := by
  have hmark : Visible s.mark := by
    rcases s.mark_case with h | h
    · rw [h]
      decide
    · rw [h]
      decide
  have hfraction : ∀ c ∈ s.fractionText, Visible c := by
    unfold fractionText
    split
    · exact List.forall_mem_nil _
    · rw [List.forall_mem_cons]
      exact ⟨by decide, fun c hc => visible_of_isDigit (s.fraction_digits c hc)⟩
  have hminus : Visible '-' := by decide
  have hcolon : Visible ':' := by decide
  rw [text, String.toList_ofList, dateText, timeText]
  simp only [List.forall_mem_append, List.forall_mem_cons]
  exact ⟨⟨⟨visible_yearText _, hminus, visible_digits⟩, hminus, visible_digits⟩, hmark,
    ⟨⟨⟨⟨visible_digits, hcolon, visible_digits⟩, hcolon, visible_digits⟩, hfraction⟩,
      visible_offset s.offset_proper⟩⟩

end RaftNode.Time
