import RaftNode.Machine.Journal
import RaftNode.Machine.KeyValue
import RaftNode.Proofs.Reading
import Mathlib.Data.String.Basic
/-!
# Machines and their snapshots

A snapshot gives back the machine that it was taken of, whatever the machine held that it is restored into.
-/
namespace RaftNode

/-- A machine that its own snapshot gives back. -/
class LawfulMachine (μ : Type) [StateMachine μ] where
  /-- A state that a program can hold. -/
  Fit : μ → Prop
  apply : ∀ {m : μ} {i : Index} (command : Bytes), Fit m → i < wordLimit →
    Fit (StateMachine.apply m i command).2
  restore : ∀ {m : μ} (old : μ), Fit m →
    StateMachine.restore old (StateMachine.snapshot m) = .ok m

export LawfulMachine (Fit)

/-- The texts that may stand for a machine in a snapshot. What the machine keeps without order they list in any
order, and each of them gives the machine back. -/
class PortrayedMachine (μ : Type) [StateMachine μ] extends LawfulMachine μ where
  Portrait : μ → Bytes → Prop
  portrait_snapshot : ∀ m : μ, Portrait m (StateMachine.snapshot m)
  restore_portrait : ∀ {m : μ} {data : Bytes} (old : μ), Fit m → Portrait m data →
    StateMachine.restore old data = .ok m

export PortrayedMachine (Portrait)

open Json

/-! ## Journal -/

theorem Journal.plain_toJson {m : Journal} (hm : m.lastIndex < wordLimit) :
    Plain (Wire.toJson m) := by
  refine plain_record ?_
  rintro _ (_ | ⟨_, _ | ⟨_, ⟨⟩⟩⟩)
  · exact hm
  · refine plain_list fun v hv => ?_
    obtain ⟨s, -, rfl⟩ := List.mem_map.mp hv
    trivial

theorem Journal.ofJson_toJson (m : Journal) : Wire.ofJson (Wire.toJson m) = .ok m := by
  let fs : Fields :=
    [("last_index", .natural m.lastIndex), ("applied", list (m.applied.map .string))]
  have hindex : decodeWord (.natural m.lastIndex) = .ok m.lastIndex := rfl
  have happlied : decodeList decodeString (list (m.applied.map .string)) = .ok m.applied :=
    decodeList_map (f := decodeString) (g := .string) fun _ _ => rfl
  have hfields : fields [.of "last_index" decodeWord, .of "applied" (decodeList decodeString)]
      (Wire.toJson m) = .ok fs := by
    refine fields_record (by simp) ?_
    rintro _ (_ | ⟨_, _ | ⟨_, ⟨⟩⟩⟩)
    · exact ⟨_, rfl, check_of hindex _⟩
    · exact ⟨_, rfl, check_of happlied _⟩
  have hneed : fs.need "last_index" decodeWord = .ok m.lastIndex := Fields.need_eq rfl hindex
  have hneed' : fs.need "applied" (decodeList decodeString) = .ok m.applied :=
    Fields.need_eq rfl happlied
  simp only [Wire.ofJson, hfields, bind, Except.bind, hneed, hneed']
  rfl

instance : LawfulMachine Journal where
  Fit m := m.lastIndex < wordLimit
  apply {m i} command hm hi := by
    change (m.apply i command).lastIndex < wordLimit
    unfold Journal.apply
    split
    · exact hm
    · exact hi
  restore {m} old hm := by
    have hdecode : Wire.decode (Wire.encode m) = .ok m := by
      rw [Wire.decode, Wire.encode, decode_render _ (Journal.plain_toJson hm), Journal.ofJson_toJson]
    simp only [StateMachine.restore, StateMachine.snapshot, hdecode]

/-- The texts of a journal stand in order, so there is one way to write them. -/
instance : PortrayedMachine Journal where
  Portrait m data := data = StateMachine.snapshot m
  portrait_snapshot _ := rfl
  restore_portrait old hm hdata := hdata ▸ LawfulMachine.restore old hm

/-! ## Key-value machine -/

namespace Table

/-- Each key once, in order. -/
def Sorted (t : Table) : Prop := t.Pairwise fun a b => a.1 < b.1

variable {t : Table} {key value : String}

theorem mem_insert {m : String × String} (hm : m ∈ t.insert key value) :
    m = (key, value) ∨ m ∈ t := by
  induction t with
  | nil => exact Or.inl (List.mem_singleton.mp hm)
  | cons a t ih =>
    unfold insert at hm
    split at hm
    · exact (List.mem_cons.mp hm).imp_right (List.mem_cons_of_mem _)
    · split at hm
      · exact List.mem_cons.mp hm
      · rcases List.mem_cons.mp hm with rfl | hm
        · exact Or.inr List.mem_cons_self
        · exact (ih hm).imp_right (List.mem_cons_of_mem _)

theorem Sorted.insert (ht : t.Sorted) : Sorted (t.insert key value) := by
  induction t with
  | nil => exact List.pairwise_singleton _ _
  | cons a t ih =>
    obtain ⟨ha, hrest⟩ := List.pairwise_cons.mp ht
    unfold Table.insert
    split
    · rename_i heq
      subst heq
      exact List.pairwise_cons.mpr ⟨ha, hrest⟩
    · rename_i hne
      split
      · rename_i hlt
        refine List.pairwise_cons.mpr ⟨fun m hm => ?_, ht⟩
        rcases List.mem_cons.mp hm with rfl | hm
        · exact hlt
        · exact hlt.trans (ha m hm)
      · rename_i hge
        refine List.pairwise_cons.mpr ⟨fun m hm => ?_, ih hrest⟩
        rcases mem_insert hm with rfl | hm
        · exact lt_of_le_of_ne (not_lt.mp hge) (Ne.symm hne)
        · exact ha m hm

theorem Sorted.erase (ht : t.Sorted) : Sorted (t.erase key) := ht.filter _

/-- A new key adds a member, at whatever place. -/
theorem insert_perm (h : ∀ m ∈ t, m.1 ≠ key) :
    List.Perm (t.insert key value) ((key, value) :: t) := by
  induction t with
  | nil => exact List.Perm.refl _
  | cons a t ih =>
    have ha : key ≠ a.1 := (h a List.mem_cons_self).symm
    have hrest : List.Perm (Table.insert key value t) ((key, value) :: t) :=
      ih fun m hm => h m (List.mem_cons_of_mem a hm)
    rw [insert, if_neg ha]
    split
    · exact List.Perm.refl _
    · exact (hrest.cons a).trans (List.Perm.swap _ _ _)

/-- The members of a table may be read in any order. -/
theorem Sorted.ofMembers (ht : t.Sorted) {members : Table} (h : members.Perm t) :
    Table.ofMembers members = t := by
  have hfold : ∀ done rest : Table, Sorted done → ((done ++ rest).map Prod.fst).Nodup →
      Sorted (rest.foldl (fun t m => Table.insert m.1 m.2 t) done) ∧
        (rest.foldl (fun t m => Table.insert m.1 m.2 t) done).Perm (done ++ rest) := by
    intro done rest hdone hkeys
    induction rest generalizing done with
    | nil => exact ⟨hdone, by simp⟩
    | cons m rest ih =>
      have hnew : ∀ a ∈ done, a.1 ≠ m.1 := by
        intro a ha heq
        rw [List.map_append, List.nodup_append] at hkeys
        exact hkeys.2.2 _ (List.mem_map_of_mem ha) _ (List.mem_map_of_mem List.mem_cons_self) heq
      have hperm : (done.insert m.1 m.2 ++ rest).Perm (done ++ m :: rest) :=
        ((insert_perm hnew).append_right rest).trans List.perm_middle.symm
      obtain ⟨hsorted, hall⟩ := ih (done.insert m.1 m.2) hdone.insert
        ((hperm.map Prod.fst).nodup_iff.mpr hkeys)
      exact ⟨hsorted, hall.trans hperm⟩
  have hkeys : (t.map Prod.fst).Nodup := by
    refine (List.pairwise_map.mpr ht).imp fun hlt => ?_
    exact hlt.ne
  obtain ⟨hsorted, hperm⟩ := hfold [] members List.Pairwise.nil ((h.map Prod.fst).nodup_iff.mpr hkeys)
  exact (hperm.trans h).eq_of_pairwise (fun a b _ _ hab hba => absurd hba hab.asymm) hsorted ht

end Table

namespace KeyValue

/-- A table of a program, and an index that it can count to. -/
structure Fits (m : KeyValue) : Prop where
  sorted : m.table.Sorted
  index : m.lastApplied < wordLimit

variable {m : KeyValue}

theorem Fits.apply (hm : m.Fits) {i : Index} (hi : i < wordLimit) (command : Bytes) :
    Fits (m.apply i command).2 := by
  unfold KeyValue.apply
  split
  · exact hm
  · split
    · exact ⟨hm.sorted, hi⟩
    · rename_i c _
      refine ⟨?_, hi⟩
      cases c with
      | set key value => exact hm.sorted.insert
      | delete key =>
        dsimp only [Command.run]
        split
        · exact hm.sorted.erase
        · exact hm.sorted

theorem plain_toJson (hm : m.lastApplied < wordLimit) : Plain (Wire.toJson m) := by
  refine plain_record ?_
  rintro _ (_ | ⟨_, _ | ⟨_, ⟨⟩⟩⟩)
  · refine plain_record fun a ha => ?_
    obtain ⟨b, -, rfl⟩ := List.mem_map.mp ha
    trivial
  · exact hm

/-- What is read back has its members sorted, in whichever order they were written. -/
theorem Fits.ofJson_toJson (hm : m.Fits) {members : Table} (h : members.Perm m.table) :
    Wire.ofJson (Wire.toJson { m with table := members }) = .ok m := by
  let fs : Fields := [("data", record (members.map fun a => (a.1, .string a.2))),
    ("last_applied_index", .natural m.lastApplied)]
  have hdata : decodeMembers decodeString (record (members.map fun a => (a.1, .string a.2))) =
      .ok members := decodeMembers_record (f := decodeString) (g := .string) (fun _ => rfl) members
  have hindex : decodeWord (.natural m.lastApplied) = .ok m.lastApplied := rfl
  have hfields : fields [.of "data" (decodeMembers decodeString), .of "last_applied_index" decodeWord]
      (Wire.toJson { m with table := members }) = .ok fs := by
    refine fields_record (by simp) ?_
    rintro _ (_ | ⟨_, _ | ⟨_, ⟨⟩⟩⟩)
    · exact ⟨_, rfl, check_of hdata _⟩
    · exact ⟨_, rfl, check_of hindex _⟩
  have hneed : fs.need "data" (decodeMembers decodeString) = .ok members :=
    Fields.need_eq rfl hdata
  have hneed' : fs.need "last_applied_index" decodeWord = .ok m.lastApplied :=
    Fields.need_eq rfl hindex
  simp only [Wire.ofJson, hfields, bind, Except.bind, hneed, hneed', hm.sorted.ofMembers h]
  rfl

/-- A snapshot may list the members of the table in any order. -/
theorem Fits.restore_perm (hm : m.Fits) {members : Table} (h : members.Perm m.table)
    (old : KeyValue) :
    StateMachine.restore old (StateMachine.snapshot { m with table := members }) = .ok m := by
  have hdecode : Wire.decode (Wire.encode { m with table := members }) = .ok m := by
    have hplain : Plain (Wire.toJson { m with table := members }) := plain_toJson hm.index
    rw [Wire.decode, Wire.encode, decode_render _ hplain, hm.ofJson_toJson h]
  simp only [StateMachine.restore, StateMachine.snapshot, hdecode]

end KeyValue

instance : LawfulMachine KeyValue where
  Fit := KeyValue.Fits
  apply command hm hi := hm.apply hi command
  restore old hm := hm.restore_perm (List.Perm.refl _) old

/-- The members of the table are written in any order. -/
instance : PortrayedMachine KeyValue where
  Portrait m data := ∃ members : Table, members.Perm m.table ∧
    data = StateMachine.snapshot { m with table := members }
  portrait_snapshot m := ⟨m.table, List.Perm.refl _, rfl⟩
  restore_portrait := by
    rintro m _ old hm ⟨members, hperm, rfl⟩
    exact hm.restore_perm hperm old

end RaftNode
