import RaftNode.Json.Decode
import RaftNode.Proofs.Texts
import Mathlib.Tactic.IntervalCases
/-!
# Reading what was written

The value of a text that a program wrote is the value that it wrote, and nothing is left over behind it.
-/
namespace RaftNode.Json

/-! ## Values that a program writes -/

mutual

/-- A value with a text of its own: its numbers fit in 64 bits, its names are texts and it is complete. -/
def Plain : Json → Prop
  | .null | .bool _ | .string _ => True
  | .natural n => n < wordLimit
  | .array items closed => closed = true ∧ PlainItems items
  | .object members closed => closed = true ∧ PlainMembers members
  | .number | .hugeNumber | .badString | .broken => False

def PlainItems : List Json → Prop
  | [] => True
  | v :: rest => Plain v ∧ PlainItems rest

def PlainMembers : List (Option String × Json) → Prop
  | [] => True
  | (name, v) :: rest => name.isSome ∧ Plain v ∧ PlainMembers rest

end

theorem plainItems_iff {items : List Json} : PlainItems items ↔ ∀ v ∈ items, Plain v := by
  induction items with
  | nil => simp [PlainItems]
  | cons v rest ih => simp [PlainItems, ih]

theorem plain_record {members : List (String × Json)} (h : ∀ m ∈ members, Plain m.2) :
    Plain (record members) := by
  refine ⟨rfl, ?_⟩
  induction members with
  | nil => trivial
  | cons m rest ih =>
    exact ⟨rfl, h m List.mem_cons_self, ih fun a ha => h a (List.mem_cons_of_mem m ha)⟩

theorem plain_list {items : List Json} (h : ∀ v ∈ items, Plain v) : Plain (list items) :=
  ⟨rfl, plainItems_iff.mpr h⟩

/-! ## Tokens -/

namespace Token

/-- What may follow a word: the end, or a byte that is in no word. -/
def Ends (rest : Bytes) : Prop := ∀ b ∈ rest.head?, isWord b = false

theorem scan_word (word : Bytes) (hword : ∀ b ∈ word, isWord b = true) (seen : Bytes) {rest : Bytes}
    (hrest : Ends rest) :
    scan (.word seen) (word ++ rest) = ofWord (seen.reverse ++ word) ++ scan .between rest := by
  induction word generalizing seen with
  | nil =>
    cases rest with
    | nil => simp [scan]
    | cons b rest =>
      have hb : isWord b = false := hrest b rfl
      simp [scan, hb]
  | cons b word ih =>
    have hb := hword b List.mem_cons_self
    have := ih (fun a ha => hword a (List.mem_cons_of_mem b ha)) (b :: seen)
    simpa [scan, hb] using this

theorem single_word {b : UInt8} (hb : isWord b = true) : single b = ([], .word [b]) := by
  have hspace : isSpace b = false := by
    by_contra hb'
    simp only [isSpace, Bool.not_eq_false, Bool.or_eq_true, decide_eq_true_eq] at hb'
    rcases hb' with ((rfl | rfl) | rfl) | rfl <;> cases hb
  have hquote : b ≠ 0x22 := by
    rintro rfl
    cases hb
  simp [single, hspace, hquote, hb]

theorem scan_between_word {word : Bytes} (hne : word ≠ []) (hword : ∀ b ∈ word, isWord b = true)
    {rest : Bytes} (hrest : Ends rest) :
    scan .between (word ++ rest) = ofWord word ++ scan .between rest := by
  obtain ⟨b, tail, rfl⟩ := List.exists_cons_of_ne_nil hne
  have hb := single_word (hword b List.mem_cons_self)
  have := scan_word tail (fun a ha => hword a (List.mem_cons_of_mem b ha)) [b] hrest
  simpa [scan, hb] using this

/-- A byte that stands for itself in a quoted text. -/
def Bare (b : UInt8) : Prop := b ≠ 0x22 ∧ b ≠ 0x5C ∧ ¬ b < 0x20

theorem bare_hexDigits (width n : Nat) : ∀ b ∈ Bytes.hexDigits width n, Bare b := by
  have hdigit : ∀ d < 16, Bare (Bytes.hexDigit d) := by
    intro d hd
    unfold Bare
    interval_cases d <;> decide
  induction width generalizing n with
  | zero => exact List.forall_mem_nil _
  | succ width ih =>
    intro b hb
    rcases List.mem_append.mp hb with hb | hb
    · exact ih _ b hb
    · rw [List.mem_singleton.mp hb]
      exact hdigit _ (Nat.mod_lt n (by omega))

theorem scan_bare {bs : Bytes} (hbs : ∀ b ∈ bs, Bare b) (seen rest : Bytes) :
    scan (.quoted seen) (bs ++ rest) = scan (.quoted (bs.reverse ++ seen)) rest := by
  induction bs generalizing seen with
  | nil => rfl
  | cons b bs ih =>
    obtain ⟨hquote, hslash, hprint⟩ := hbs b List.mem_cons_self
    have := ih (fun a ha => hbs a (List.mem_cons_of_mem b ha)) (b :: seen)
    simpa [scan, hquote, hslash, hprint] using this

/-- No quote within a text that was written ends it. -/
theorem scan_escapeChar (c : Char) (seen rest : Bytes) :
    scan (.quoted seen) (escapeChar c ++ rest) =
      scan (.quoted ((escapeChar c).reverse ++ seen)) rest := by
  rcases escapeChar_cases c with ⟨e, b, he, -⟩ | ⟨-, he⟩ | ⟨he, hplain⟩
  · rw [he]
    simp [scan]
  · have := scan_bare (bare_hexDigits 4 c.toNat) (0x75 :: 0x5C :: seen) rest
    rw [he]
    simpa [scan] using this
  · rw [he]
    exact scan_bare hplain seen rest

theorem scan_quoted (cs : List Char) (seen rest : Bytes) :
    scan (.quoted seen) (cs.flatMap escapeChar ++ 0x22 :: rest) =
      ofQuoted (seen.reverse ++ cs.flatMap escapeChar) :: scan .between rest := by
  induction cs generalizing seen with
  | nil => simp [scan]
  | cons c cs ih =>
    rw [List.flatMap_cons, List.append_assoc, scan_escapeChar, ih, List.reverse_append,
      List.reverse_reverse, List.append_assoc]

theorem scan_quote (s : String) (rest : Bytes) :
    scan .between (quote s ++ rest) = .text (some s) :: scan .between rest := by
  have hopen : single 0x22 = ([], .quoted []) := rfl
  have := scan_quoted s.toList [] rest
  rw [List.reverse_nil, List.nil_append, ofQuoted_escape, String.ofList_toList] at this
  simpa [quote, scan, hopen] using this

theorem ofWord_decimal {n : Nat} (hn : n < wordLimit) :
    ofWord (Bytes.decimal n) = [.scalar (.natural n)] := by
  obtain ⟨b, rest, hb⟩ := List.exists_cons_of_ne_nil (Bytes.decimal_ne_nil n)
  have hdigit : Bytes.isDigit b = true :=
    Bytes.isDigit_decimal n b (by rw [hb]; exact List.mem_cons_self)
  have hletter : ∀ a : UInt8, Bytes.isDigit a = false → a ≠ b := by
    rintro a ha rfl
    rw [ha] at hdigit
    cases hdigit
  have hnone : literals.find? (fun l => l.1.isPrefixOf (Bytes.decimal n)) = none := by
    simp [literals, hb, List.isPrefixOf, hletter 0x6E (by decide), hletter 0x74 (by decide),
      hletter 0x66 (by decide)]
  rw [ofWord, hnone, Number.read?_decimal hn]

end Token

/-! ## Values -/

namespace Place

open Token (scan Ends)

theorem run_step {p p' : Place} {t : Token} (h : p.step t = some p') (ts : List Token) :
    p.run (t :: ts) = p'.run ts := by
  cases p with
  | complete v => cases h
  | _ => simp only [run, h]

/-- A place where a value may begin, inside the containers `outer`. -/
def Opens (p : Place) (outer : List Frame) : Prop :=
  ∀ t, t ≠ .closeArray → p.step t = opening outer t

theorem opens_value (outer : List Frame) : Opens (.value outer) outer := fun _ _ => rfl

theorem opens_firstItem (outer : List Frame) : Opens (.firstItem outer) (.items [] :: outer) := by
  intro t ht
  cases t <;> first | rfl | exact absurd rfl ht

theorem scan_mark {b : UInt8} {t : Token} (hb : Token.single b = ([t], .between)) (rest : Bytes) :
    scan .between (b :: rest) = t :: scan .between rest := by
  simp [scan, hb]

/-- A word of one scalar. -/
theorem run_word {p : Place} {outer : List Frame} (hp : Opens p outer) {word : Bytes} {v : Json}
    (hne : word ≠ []) (hword : ∀ b ∈ word, Token.isWord b = true)
    (hv : Token.ofWord word = [.scalar v]) {rest : Bytes} (hrest : Ends rest) :
    p.run (scan .between (word ++ rest)) = (put v outer).run (scan .between rest) := by
  rw [Token.scan_between_word hne hword hrest, hv]
  exact run_step (hp (.scalar v) nofun) _

theorem ends_cons {b : UInt8} (hb : Token.isWord b = false) (rest : Bytes) : Ends (b :: rest) := by
  intro a ha
  obtain rfl := Option.some.inj ha
  exact hb

mutual

theorem run_render (v : Json) (hv : Plain v) {p : Place} {outer : List Frame} (hp : Opens p outer)
    {rest : Bytes} (hrest : Ends rest) :
    p.run (scan .between (render v ++ rest)) = (put v outer).run (scan .between rest) := by
  match v with
  | .null | .bool true | .bool false =>
    rw [render]
    -- bytes of a word are looked at one by one, not all bytes that there are
    refine run_word hp (by decide) (List.all_eq_true.mp ?_) rfl hrest
    decide
  | .natural n =>
    refine run_word hp (Bytes.decimal_ne_nil n) (fun b hb => ?_) (Token.ofWord_decimal hv) hrest
    simp [Token.isWord, Bytes.isDigit_decimal n b hb]
  | .string s =>
    rw [render, Token.scan_quote]
    exact run_step (hp (.text (some s)) nofun) _
  | .array items closed =>
    obtain ⟨rfl, hitems⟩ := hv
    simp only [render, List.cons_append, List.append_assoc, List.nil_append]
    rw [scan_mark rfl, run_step (hp .openArray nofun)]
    cases items with
    | nil => exact run_step rfl _
    | cons v items => exact run_items (v :: items) nofun hitems (opens_firstItem outer) rest
  | .object members closed =>
    obtain ⟨rfl, hmembers⟩ := hv
    simp only [render, List.cons_append, List.append_assoc, List.nil_append]
    rw [scan_mark rfl, run_step (hp .openObject nofun)]
    cases members with
    | nil => exact run_step rfl _
    | cons m members =>
      exact run_members (m :: members) nofun hmembers (p := .firstName outer) (fun _ => rfl) rest

theorem run_items (items : List Json) (hne : items ≠ []) (hv : PlainItems items) {p : Place}
    {done : List Json} {outer : List Frame} (hp : Opens p (.items done :: outer)) (rest : Bytes) :
    p.run (scan .between (renderItems items ++ 0x5D :: rest)) =
      (put (.array (done.reverse ++ items) true) outer).run (scan .between rest) := by
  match items with
  | [v] =>
    rw [renderItems, run_render v hv.1 hp (ends_cons rfl rest), scan_mark rfl]
    refine (run_step rfl _).trans ?_
    rw [List.reverse_cons]
  | v :: w :: items =>
    simp only [renderItems, List.append_assoc, List.cons_append]
    rw [run_render v hv.1 hp (ends_cons rfl _), scan_mark rfl]
    refine (run_step rfl _).trans ?_
    rw [run_items (w :: items) nofun hv.2 (opens_value _) rest, List.reverse_cons, List.append_assoc]
    rfl

theorem run_members (members : List (Option String × Json)) (hne : members ≠ [])
    (hv : PlainMembers members) {p : Place} {done : List (Option String × Json)}
    {outer : List Frame} (hp : ∀ name, p.step (.text name) = some (.colon done name outer))
    (rest : Bytes) : p.run (scan .between (renderMembers members ++ 0x7D :: rest)) =
      (put (.object (done.reverse ++ members) true) outer).run (scan .between rest) := by
  match members with
  | [(some name, v)] =>
    rw [renderMembers, Option.getD_some, List.append_assoc, Token.scan_quote, run_step (hp _),
      List.cons_append, scan_mark rfl]
    refine (run_step rfl _).trans ?_
    rw [run_render v hv.2.1 (opens_value _) (ends_cons rfl rest), scan_mark rfl]
    refine (run_step rfl _).trans ?_
    rw [List.reverse_cons]
  | (some name, v) :: m :: members =>
    simp only [renderMembers, Option.getD_some, List.append_assoc, List.cons_append]
    rw [Token.scan_quote, run_step (hp _), scan_mark rfl]
    refine (run_step rfl _).trans ?_
    rw [run_render v hv.2.1 (opens_value _) (ends_cons rfl _), scan_mark rfl]
    refine (run_step rfl _).trans ?_
    rw [run_members (m :: members) nofun hv.2.2 (fun _ => rfl) rest, List.reverse_cons,
      List.append_assoc]
    rfl

end

end Place

theorem read_render {v : Json} (hv : Plain v) : read (render v) = (v, false) := by
  have hend : Token.Ends [] := nofun
  have hrun := Place.run_render v hv (Place.opens_value []) hend
  rw [List.append_nil] at hrun
  rw [read, hrun]
  rfl

/-- To decode what was written is to decode the value. -/
theorem decode_render {α : Type} (f : Decoder α) {v : Json} (hv : Plain v) :
    decode f (render v) = f v := by
  rw [decode, read_render hv]
  dsimp only
  cases f v <;> rfl

/-! ## Records -/

theorem lookup_eq_none {names : List (String × Json)} {name : String}
    (h : name ∉ names.map Prod.fst) : names.lookup name = none :=
  List.lookup_eq_none_iff.mpr fun m hm => by
    have : m.1 ≠ name := fun e => h (e ▸ List.mem_map_of_mem hm)
    simpa using this.symm

theorem fieldsOfMembers_record {shape : List Field} {members : Fields} (seen : Fields)
    (hnames : ((seen ++ members).map Prod.fst).Nodup)
    (hchecks : ∀ m ∈ members, ∃ f, shape.find? (fun f => f.name = m.1) = some f ∧
      f.check m.2 = .ok ()) :
    fieldsOfMembers shape seen (members.map fun m => (some m.1, m.2)) = .ok (seen ++ members) := by
  induction members generalizing seen with
  | nil => simp [fieldsOfMembers]
  | cons m rest ih =>
    obtain ⟨f, hf, hcheck⟩ := hchecks m List.mem_cons_self
    have hnew : seen.find? m.1 = none := by
      refine lookup_eq_none ?_
      rw [List.map_append, List.map_cons, List.nodup_append] at hnames
      exact fun hm => hnames.2.2 m.1 hm m.1 List.mem_cons_self rfl
    have := ih (seen ++ [m]) (by simpa using hnames)
      fun a ha => hchecks a (List.mem_cons_of_mem m ha)
    rw [List.append_assoc] at this
    simp only [List.map_cons, fieldsOfMembers, hf, hnew]
    rw [hcheck]
    exact this

/-- The fields of a record that was written, if each is what its reader wants. -/
theorem fields_record {shape : List Field} {members : Fields} (hnames : (members.map Prod.fst).Nodup)
    (hchecks : ∀ m ∈ members, ∃ f, shape.find? (fun f => f.name = m.1) = some f ∧
      f.check m.2 = .ok ()) : fields shape (record members) = .ok members := by
  rw [record, fields, fieldsOfMembers_record [] hnames hchecks]
  rfl

theorem check_of {α : Type} {f : Decoder α} {v : Json} {a : α} (h : f v = .ok a) (name : String) :
    (Field.of name f).check v = .ok () := by
  simp only [Field.of, h]
  rfl

theorem Fields.need_eq {α : Type} {fs : Fields} {name : String} {f : Decoder α} {v : Json} {a : α}
    (hv : fs.find? name = some v) (hf : f v = .ok a) : fs.need name f = .ok a := by
  rw [need, hv]
  exact hf

theorem decodeItems_map {α : Type} {f : Decoder α} {g : α → Json} {as : List α}
    (h : ∀ a ∈ as, f (g a) = .ok a) : decodeItems f (as.map g) = .ok as := by
  induction as with
  | nil => rfl
  | cons a as ih =>
    obtain ⟨ha, has⟩ := List.forall_mem_cons.mp h
    rw [List.map_cons, decodeItems, ha, ih has]
    rfl

theorem decodeList_map {α : Type} {f : Decoder α} {g : α → Json} {as : List α}
    (h : ∀ a ∈ as, f (g a) = .ok a) : decodeList f (list (as.map g)) = .ok as := by
  rw [list, decodeList, decodeItems_map h]
  rfl

theorem decodeMembers_record {α : Type} {f : Decoder α} {g : α → Json} (h : ∀ a, f (g a) = .ok a)
    (ms : List (String × α)) :
    decodeMembers f (record (ms.map fun m => (m.1, g m.2))) = .ok ms := by
  have hgo : decodeMembers.go f (ms.map fun m => (some m.1, g m.2)) = .ok ms := by
    induction ms with
    | nil => rfl
    | cons m ms ih =>
      simp only [List.map_cons, decodeMembers.go, h, ih]
      rfl
  rw [record, List.map_map, decodeMembers]
  simp only [Function.comp_def, hgo]
  rfl

end RaftNode.Json
