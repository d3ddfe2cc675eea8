import RaftNode.Proofs.Records
/-!
# What is read has 64 bits

The reader keeps a natural number only if it fits in 64 bits, so the entries of a log file do, whatever is in the file.
-/
namespace RaftNode

open Json

/-- What a step of decoding that succeeds has found. -/
theorem exists_of_bind {ε α β : Type} {x : Except ε α} {f : α → Except ε β} {b : β}
    (h : (x >>= f) = .ok b) : ∃ a, x = .ok a ∧ f a = .ok b := by
  cases x with
  | error e => cases h
  | ok a => exact ⟨a, rfl, h⟩

namespace Json

/-! ## Values -/

/-- All natural numbers in the value fit in 64 bits. -/
inductive Ranged : Json → Prop
  | null : Ranged .null
  | bool (b : Bool) : Ranged (.bool b)
  | natural {n : Nat} (h : n < wordLimit) : Ranged (.natural n)
  | number : Ranged .number
  | hugeNumber : Ranged .hugeNumber
  | string (s : String) : Ranged (.string s)
  | badString : Ranged .badString
  | array {items : List Json} (h : ∀ v ∈ items, Ranged v) (closed : Bool) : Ranged (.array items closed)
  | object {members : List (Option String × Json)} (h : ∀ m ∈ members, Ranged m.2) (closed : Bool) :
    Ranged (.object members closed)
  | broken : Ranged .broken

/-! ## Tokens -/

theorem Number.take_lt {n : Nat} (hn : n < wordLimit) (count : Nat) (ds : Bytes) :
    (Number.take n count ds).1 < wordLimit := by
  induction ds generalizing n count with
  | nil => exact hn
  | cons d rest ih =>
    unfold Number.take
    dsimp only
    split
    · exact ih ‹_› _
    · exact hn

theorem Number.ranged_value (p : Number.Parts) : Ranged p.value := by
  unfold Number.Parts.value
  dsimp only
  split
  · exact .natural (Number.take_lt (by decide) 0 p.whole)
  · split
    · exact .hugeNumber
    · exact .number

theorem Number.ranged_read? {bs rest : Bytes} {v : Json} (h : Number.read? bs = some (v, rest)) :
    Ranged v := by
  unfold Number.read? at h
  dsimp only at h
  split at h
  · cases h
  · split at h
    · cases h
    · simp only [Option.bind_eq_bind, Option.bind_eq_some_iff, Option.some.injEq, Prod.mk.injEq,
        Prod.exists] at h
      obtain ⟨_, _, -, _, _, -, rfl, -⟩ := h
      exact Number.ranged_value _

namespace Token

/-- A token with a value in it. -/
def Ranged (t : Token) : Prop := ∀ v, t = .scalar v → Json.Ranged v

theorem ranged_bad : ∀ t ∈ [Token.bad], Ranged t := by
  rintro t (_ | ⟨_, ⟨⟩⟩) v ⟨⟩

theorem ranged_scalar {v : Json} (hv : Json.Ranged v) {ts : List Token} (hts : ∀ t ∈ ts, Ranged t) :
    ∀ t ∈ .scalar v :: ts, Ranged t := by
  rintro t (_ | ⟨_, ht⟩)
  · rintro _ ⟨⟩
    exact hv
  · exact hts t ht

theorem ranged_ofWord (word : Bytes) : ∀ t ∈ ofWord word, Ranged t := by
  unfold ofWord
  split
  · rename_i value hfound
    have hvalue : Json.Ranged value := by
      have hmem := List.mem_of_find?_eq_some hfound
      simp only [literals, List.mem_cons, Prod.mk.injEq, List.not_mem_nil, or_false] at hmem
      obtain ⟨-, rfl⟩ | ⟨-, rfl⟩ | ⟨-, rfl⟩ := hmem
      · exact .null
      · exact .bool true
      · exact .bool false
    split
    · exact ranged_scalar hvalue (by simp)
    · exact ranged_scalar hvalue ranged_bad
  · split
    · exact ranged_scalar (Number.ranged_read? ‹_›) (by simp)
    · exact ranged_scalar (Number.ranged_read? ‹_›) ranged_bad
    · exact ranged_bad

theorem ranged_ofQuoted (raw : Bytes) : Ranged (ofQuoted raw) := by
  unfold ofQuoted
  split
  · rintro v ⟨⟩
  · rintro v ⟨⟩

theorem ranged_single (b : UInt8) : ∀ t ∈ (single b).1, Ranged t := by
  intro t ht v hv
  subst hv
  unfold single at ht
  repeat' split at ht
  all_goals simp at ht

theorem ranged_scan (mode : Mode) (bs : Bytes) : ∀ t ∈ scan mode bs, Ranged t := by
  induction bs generalizing mode with
  | nil =>
    cases mode with
    | between => rintro t ⟨⟩
    | word seen => exact ranged_ofWord _
    | quoted seen => exact ranged_bad
    | escaped seen => exact ranged_bad
  | cons b rest ih =>
    cases mode with
    | between =>
      rw [scan]
      exact List.forall_mem_append.mpr ⟨ranged_single b, ih _⟩
    | word seen =>
      rw [scan]
      split
      · exact ih _
      · exact List.forall_mem_append.mpr
          ⟨List.forall_mem_append.mpr ⟨ranged_ofWord _, ranged_single b⟩, ih _⟩
    | quoted seen =>
      rw [scan]
      split
      · exact List.forall_mem_cons.mpr ⟨ranged_ofQuoted _, ih _⟩
      split
      · exact ih _
      split
      · exact ranged_bad
      · exact ih _
    | escaped seen =>
      rw [scan]
      exact ih _

end Token

/-! ## The reader -/

/-- The finished parts of an open container. -/
def Frame.parts : Frame → List Json
  | .items done => done
  | .members done _ => done.map Prod.snd

/-- All that has been read so far. -/
def Place.parts : Place → List Json
  | .value outer | .firstItem outer | .firstName outer => outer.flatMap Frame.parts
  | .afterItem done outer => done ++ outer.flatMap Frame.parts
  | .nextName done outer | .colon done _ outer | .afterMember done outer =>
    done.map Prod.snd ++ outer.flatMap Frame.parts
  | .complete v => [v]

namespace Place

variable {p p' : Place} {v : Json} {outer : List Frame}

def Ranged (p : Place) : Prop := ∀ v ∈ p.parts, Json.Ranged v

theorem ranged_put (hv : Json.Ranged v) (houter : ∀ x ∈ outer.flatMap Frame.parts, Json.Ranged x) :
    Ranged (put v outer) := by
  intro x hx
  have hcases : x = v ∨ x ∈ outer.flatMap Frame.parts := by
    cases outer with
    | nil => exact Or.inl (List.mem_singleton.mp hx)
    | cons f outer =>
      cases f with
      | items done => simpa [put, parts, Frame.parts, or_assoc] using hx
      | members done name => simpa [put, parts, Frame.parts, or_assoc] using hx
  rcases hcases with rfl | hx
  · exact hv
  · exact houter x hx

theorem ranged_close (hv : Json.Ranged v) (houter : ∀ x ∈ outer.flatMap Frame.parts, Json.Ranged x) :
    Json.Ranged (close v outer) := by
  induction outer generalizing v with
  | nil => exact hv
  | cons f outer ih =>
    rw [List.flatMap_cons, List.forall_mem_append] at houter
    obtain ⟨hdone, houter⟩ := houter
    cases f with
    | items done =>
      refine ih (.array (fun x hx => ?_) false) houter
      rcases List.mem_cons.mp (List.mem_reverse.mp hx) with rfl | hx
      · exact hv
      · exact hdone x hx
    | members done name =>
      refine ih (.object (fun m hm => ?_) false) houter
      rcases List.mem_cons.mp (List.mem_reverse.mp hm) with rfl | hm
      · exact hv
      · exact hdone m.2 (List.mem_map_of_mem hm)

theorem ranged_items {done : List Json} (h : ∀ v ∈ done, Json.Ranged v) (closed : Bool) :
    Json.Ranged (.array done.reverse closed) :=
  .array (fun v hv => h v (List.mem_reverse.mp hv)) closed

theorem ranged_members {done : List (Option String × Json)} (h : ∀ v ∈ done.map Prod.snd, Json.Ranged v)
    (closed : Bool) : Json.Ranged (.object done.reverse closed) :=
  .object (fun m hm => h m.2 (List.mem_map_of_mem (List.mem_reverse.mp hm))) closed

theorem ranged_abandon (hp : Ranged p) : Json.Ranged p.abandon := by
  cases p with
  | value outer => exact ranged_close .broken hp
  | firstItem outer => exact ranged_close (.array (by simp) false) hp
  | afterItem done outer =>
    obtain ⟨hdone, houter⟩ := List.forall_mem_append.mp hp
    exact ranged_close (ranged_items hdone false) houter
  | firstName outer => exact ranged_close (.object (by simp) false) hp
  | nextName done outer =>
    obtain ⟨hdone, houter⟩ := List.forall_mem_append.mp hp
    exact ranged_close (ranged_members hdone false) houter
  | colon done name outer =>
    obtain ⟨hdone, houter⟩ := List.forall_mem_append.mp hp
    refine ranged_close (ranged_members ?_ false) houter
    exact List.forall_mem_cons.mpr ⟨.broken, hdone⟩
  | afterMember done outer =>
    obtain ⟨hdone, houter⟩ := List.forall_mem_append.mp hp
    exact ranged_close (ranged_members hdone false) houter
  | complete v => exact hp v List.mem_cons_self

theorem ranged_opening {t : Token} (houter : ∀ x ∈ outer.flatMap Frame.parts, Json.Ranged x)
    (ht : t.Ranged) (h : opening outer t = some p) : Ranged p := by
  unfold opening at h
  split at h
  · cases h
    exact houter
  · cases h
    exact houter
  · cases h
    exact ranged_put (ht _ rfl) houter
  · cases h
    exact ranged_put (.string _) houter
  · cases h
    exact ranged_put .badString houter
  · cases h

theorem ranged_step {t : Token} (hp : Ranged p) (ht : t.Ranged) (h : p.step t = some p') :
    Ranged p' := by
  unfold step at h
  split at h
  · exact ranged_opening hp ht h
  · cases h
    exact ranged_put (.array (by simp) true) hp
  · rename_i outer _
    have houter : ∀ x ∈ (Frame.items [] :: outer).flatMap Frame.parts, Json.Ranged x := hp
    exact ranged_opening houter ht h
  · cases h
    exact hp
  · cases h
    obtain ⟨hdone, houter⟩ := List.forall_mem_append.mp hp
    exact ranged_put (ranged_items hdone true) houter
  · cases h
    exact ranged_put (.object (by simp) true) hp
  · cases h
    exact hp
  · cases h
    exact hp
  · cases h
    exact hp
  · cases h
    exact hp
  · cases h
    obtain ⟨hdone, houter⟩ := List.forall_mem_append.mp hp
    exact ranged_put (ranged_members hdone true) houter
  · cases h

theorem ranged_run (hp : Ranged p) {ts : List Token} (hts : ∀ t ∈ ts, t.Ranged) :
    Json.Ranged (p.run ts).1 := by
  induction ts generalizing p with
  | nil =>
    unfold run
    split
    · exact hp _ List.mem_cons_self
    · exact ranged_abandon hp
    · rename_i heq
      cases heq
  | cons t ts ih =>
    obtain ⟨ht, hrest⟩ := List.forall_mem_cons.mp hts
    unfold run
    split
    · exact hp _ List.mem_cons_self
    · exact ranged_abandon hp
    · rename_i heq
      cases heq
      split
      · exact ih (ranged_step hp ht ‹_›) hrest
      · exact ranged_abandon hp

end Place

theorem ranged_read (text : Bytes) : Ranged (read text).1 :=
  Place.ranged_run (by rintro v ⟨⟩) (Token.ranged_scan .between text)

/-! ## Fields -/

variable {shape : List Field} {fs : Fields}

theorem ranged_fieldsOfMembers {members : List (Option String × Json)} {seen : Fields}
    (hseen : ∀ f ∈ seen, Ranged f.2) (hmembers : ∀ m ∈ members, Ranged m.2)
    (h : fieldsOfMembers shape seen members = .ok fs) : ∀ f ∈ fs, Ranged f.2 := by
  induction members generalizing seen with
  | nil =>
    cases h
    exact hseen
  | cons m rest ih =>
    obtain ⟨name, v⟩ := m
    obtain ⟨hv, hrest⟩ := List.forall_mem_cons.mp hmembers
    unfold fieldsOfMembers at h
    split at h
    · cases h
    rename_i name
    split at h
    · exact ih hseen hrest h
    rename_i f _
    split at h
    · cases h
    · obtain ⟨-, -, h⟩ := exists_of_bind h
      refine ih (List.forall_mem_append.mpr ⟨hseen, ?_⟩) hrest h
      exact List.forall_mem_singleton.mpr hv

theorem ranged_fieldsOfItems {items : List Json} {closed : Bool} (hitems : ∀ v ∈ items, Ranged v)
    (h : fieldsOfItems shape items closed = .ok fs) : ∀ f ∈ fs, Ranged f.2 := by
  induction shape generalizing items fs with
  | nil =>
    cases items with
    | nil =>
      cases closed with
      | false => cases h
      | true =>
        cases h
        rintro f ⟨⟩
    | cons v rest => cases h
  | cons field shape ih =>
    cases items with
    | nil =>
      cases closed with
      | false => cases h
      | true =>
        rw [fieldsOfItems] at h
        split at h
        · exact ih hitems h
        · cases h
    | cons v rest =>
      obtain ⟨hv, hrest⟩ := List.forall_mem_cons.mp hitems
      rw [fieldsOfItems] at h
      obtain ⟨-, -, h⟩ := exists_of_bind h
      obtain ⟨more, hmore, h⟩ := exists_of_bind h
      cases h
      exact List.forall_mem_cons.mpr ⟨hv, ih hrest hmore⟩

theorem ranged_fields {v : Json} (hv : Ranged v) (h : fields shape v = .ok fs) :
    ∀ f ∈ fs, Ranged f.2 := by
  cases hv with
  | array hitems closed => exact ranged_fieldsOfItems hitems h
  | object hmembers closed =>
    obtain ⟨fs', hread, h⟩ := exists_of_bind h
    split at h
    · cases h
      exact ranged_fieldsOfMembers (by rintro f ⟨⟩) hmembers hread
    · cases h
  | _ => cases h

theorem Fields.mem_of_find? {name : String} {v : Json} (h : fs.find? name = some v) :
    (name, v) ∈ fs := by
  induction fs with
  | nil => cases h
  | cons f fs ih =>
    obtain ⟨other, w⟩ := f
    rw [Fields.find?, List.lookup_cons] at h
    split at h
    · rename_i hname
      cases h
      rw [eq_of_beq hname]
      exact List.mem_cons_self
    · exact List.mem_cons_of_mem _ (ih h)

theorem Fields.need_word (hfs : ∀ f ∈ fs, Ranged f.2) {name : String} {n : Nat}
    (h : fs.need name decodeWord = .ok n) : n < wordLimit := by
  unfold Fields.need at h
  split at h
  · rename_i v hfound
    have hv : Ranged v := hfs _ (Fields.mem_of_find? hfound)
    cases hv <;> cases h
    assumption
  · cases h

end Json

/-! ## Entries -/

theorem Entry.ofJson_fits {v : Json} (hv : v.Ranged) {e : Entry} (h : Wire.ofJson v = .ok e) :
    LawfulWire.Fits e := by
  obtain ⟨fs, hfs, h⟩ := exists_of_bind h
  obtain ⟨index, hindex, h⟩ := exists_of_bind h
  obtain ⟨term, hterm, h⟩ := exists_of_bind h
  obtain ⟨command, -, h⟩ := exists_of_bind h
  cases h
  have hranged := ranged_fields hv hfs
  exact ⟨Fields.need_word hranged hindex, Fields.need_word hranged hterm⟩

theorem Record.decode_fits {line : Bytes} {e : Entry} (h : Record.decode line = .ok e) :
    LawfulWire.Fits e := by
  obtain ⟨text, -, h⟩ := exists_of_bind h
  cases hdecode : (Wire.decode text : Except DecodeError Entry) with
  | error f =>
    rw [hdecode] at h
    cases h
  | ok e' =>
    rw [hdecode] at h
    cases h
    obtain ⟨e', hjson, h⟩ := exists_of_bind hdecode
    split at h
    · cases h
    · cases h
      exact Entry.ofJson_fits (ranged_read text) hjson

theorem FileStore.entriesOfLines_fits {lines : List Bytes} {n : Nat} {F : List Entry} {torn : Bool}
    (h : entriesOfLines n lines = .ok (F, torn)) : ∀ e ∈ F, LawfulWire.Fits e := by
  induction lines generalizing n F torn with
  | nil =>
    cases h
    rintro e ⟨⟩
  | cons line rest ih =>
    unfold entriesOfLines at h
    split at h
    · exact ih h
    split at h
    · rename_i e hdecode
      cases hrest : entriesOfLines (n + 1) rest with
      | error f =>
        rw [hrest] at h
        cases h
      | ok more =>
        obtain ⟨F', torn'⟩ := more
        rw [hrest] at h
        cases h
        exact List.forall_mem_cons.mpr ⟨Record.decode_fits hdecode, ih hrest⟩
    · split at h
      · cases h
        rintro e ⟨⟩
      · cases h

end RaftNode
