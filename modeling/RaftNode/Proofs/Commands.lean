import RaftNode.Proofs.Redelivery
import RaftNode.Proofs.Solid
/-!
# Commands of the key-value machine

Which bytes are a command, and what the machine holds after any sequence of them. A command is refused before it enters
a log exactly if applying it would be refused, and each key has the value that the last command on it left there.
-/
namespace RaftNode

open StateMachine (deliver)

/-! ## Tables -/

namespace Table

variable {t : Table} {key other value : String}

@[simp] theorem find?_insert_self (t : Table) (key value : String) :
    (t.insert key value).find? key = some value := by
  induction t with
  | nil => simp [insert, find?]
  | cons m t ih =>
    obtain ⟨k, v⟩ := m
    unfold insert
    split
    · simp [find?]
    · rename_i hne
      split
      · simp [find?]
      · simpa [find?, List.lookup_cons, beq_false_of_ne hne] using ih

theorem find?_insert_of_ne (h : other ≠ key) : (t.insert key value).find? other = t.find? other := by
  induction t with
  | nil => simp [insert, find?, h]
  | cons m t ih =>
    obtain ⟨k, v⟩ := m
    unfold insert
    split
    · rename_i heq
      subst heq
      simp [find?, List.lookup_cons, beq_false_of_ne h]
    · split
      · simp [find?, List.lookup_cons, beq_false_of_ne h]
      · by_cases hk : other = k
        · subst hk
          simp [find?]
        · simpa [find?, List.lookup_cons, beq_false_of_ne hk] using ih

@[simp] theorem find?_erase_self (t : Table) (key : String) : (t.erase key).find? key = none := by
  refine List.lookup_eq_none_iff.mpr fun m hm => ?_
  have hkey : m.1 ≠ key := of_decide_eq_true (List.mem_filter.mp hm).2
  exact bne_iff_ne.mpr (Ne.symm hkey)

theorem find?_erase_of_ne (h : other ≠ key) : (t.erase key).find? other = t.find? other := by
  induction t with
  | nil => rfl
  | cons m t ih =>
    obtain ⟨k, v⟩ := m
    simp only [erase, find?] at ih ⊢
    by_cases hk : k = key
    · subst hk
      rw [List.filter_cons_of_neg (by simp), ih, List.lookup_cons, beq_false_of_ne h]
    · rw [List.filter_cons_of_pos (by simpa using hk), List.lookup_cons, List.lookup_cons, ih]

end Table

namespace KeyValue

/-! ## Texts -/

variable {cs front rest : List Char} {command : Bytes} {c : Command}

theorem word_spaced (h : ' ' ∉ front) : word (front ++ ' ' :: rest) = (front, some rest) := by
  have hfront : ∀ a ∈ front, decide (a ≠ ' ') = true := by
    intro a ha
    rw [decide_eq_true_eq]
    rintro rfl
    exact h ha
  rw [word, List.dropWhile_append_of_pos hfront, List.takeWhile_append_of_pos hfront]
  simp

theorem word_whole (h : ' ' ∉ cs) : word cs = (cs, none) := by
  have hdrop : cs.dropWhile (· ≠ ' ') = [] := by
    rw [List.dropWhile_eq_nil_iff]
    intro a ha
    rw [decide_eq_true_eq]
    rintro rfl
    exact h ha
  rw [word, hdrop]

/-- The texts that are commands, and the commands they spell. -/
inductive Command.Spelled : String → Command → Prop where
  | set {key : String} (value : String) (h : ' ' ∉ key.toList) :
      Spelled ("SET " ++ key ++ " " ++ value) (.set key value)
  | delete {key : String} (h : ' ' ∉ key.toList) : Spelled ("DELETE " ++ key) (.delete key)

theorem Command.ofText?_of_spelled {text : String} (h : Spelled text c) : ofText? text.toList = some c := by
  cases h with
  | @set key value hkey =>
    have htext : ("SET " ++ key ++ " " ++ value).toList =
        ['S', 'E', 'T'] ++ ' ' :: (key.toList ++ ' ' :: value.toList) := by
      simp
    rw [htext, ofText?, word_spaced (by decide)]
    simp only [word_spaced hkey, if_true, String.ofList_toList]
  | @delete key hkey =>
    have htext : ("DELETE " ++ key).toList = ['D', 'E', 'L', 'E', 'T', 'E'] ++ ' ' :: key.toList := by
      simp
    rw [htext, ofText?, word_spaced (by decide)]
    simp only [word_whole hkey, if_true, String.ofList_toList]

theorem Command.spelled_of_ofText? (h : ofText? cs = some c) : Spelled (String.ofList cs) c := by
  rw [ofText?] at h
  by_cases hspace : ' ' ∈ cs
  · obtain ⟨verb, rest, rfl, hverb⟩ := List.eq_append_cons_of_mem hspace
    simp only [word_spaced hverb] at h
    by_cases hspace : ' ' ∈ rest
    · obtain ⟨key, value, rfl, hkey⟩ := List.eq_append_cons_of_mem hspace
      simp only [word_spaced hkey] at h
      split at h
      · rename_i hset
        cases h
        subst hset
        have htext : String.ofList (['S', 'E', 'T'] ++ ' ' :: (key ++ ' ' :: value)) =
            "SET " ++ String.ofList key ++ " " ++ String.ofList value := by
          apply String.toList_injective
          simp
        rw [htext]
        exact .set _ (by rwa [String.toList_ofList])
      · cases h
    · simp only [word_whole hspace] at h
      split at h
      · rename_i hdelete
        cases h
        subst hdelete
        have htext : String.ofList (['D', 'E', 'L', 'E', 'T', 'E'] ++ ' ' :: rest) =
            "DELETE " ++ String.ofList rest := by
          apply String.toList_injective
          simp
        rw [htext]
        exact .delete (by rwa [String.toList_ofList])
      · cases h
  · simp only [word_whole hspace] at h
    cases h

/-- A command is accepted if its bytes are those of a text that spells one. -/
theorem Command.parse_eq_ok_iff :
    parse command = .ok c ↔ ∃ text, command = Bytes.ofString text ∧ Spelled text c := by
  constructor
  · intro h
    rw [parse] at h
    split at h
    · cases h
    · rename_i text htext
      split at h
      · rename_i hc
        cases h
        exact ⟨text, Utf8.decode?_eq_some htext, by simpa using spelled_of_ofText? hc⟩
      · cases h
  · rintro ⟨text, rfl, htext⟩
    rw [parse, Bytes.ofString, Utf8.decode?_encode, String.ofList_toList]
    dsimp only
    rw [ofText?_of_spelled htext]

/-! ## Refusals -/

/-- The texts with which the machine tells that it cannot read a command. -/
def Unreadable (reason : String) : Prop :=
  reason = "command is not UTF-8" ∨ ∃ text, reason = "unknown command: " ++ text

theorem unreadable_of_parse {e : CommandError} (h : Command.parse command = .error e) : Unreadable e.message := by
  rw [Command.parse] at h
  split at h
  · cases h
    exact Or.inl rfl
  · split at h
    · cases h
    · cases h
      exact Or.inr ⟨_, rfl⟩

theorem not_unreadable_notFound : ¬ Unreadable "NOT_FOUND" := by
  rintro (h | ⟨text, h⟩)
  · exact absurd h (by decide)
  · have hfirst := congrArg (fun s : String => s.toList.head?) h
    simp at hfirst

theorem validate_eq_ok_iff (m : KeyValue) :
    StateMachine.validate m command = .ok () ↔ ∃ c, Command.parse command = .ok c := by
  change ((Command.parse command).mapError CommandError.message).map (fun _ => ()) = .ok () ↔ _
  cases Command.parse command <;> simp [Except.mapError, Except.map]

variable {m : KeyValue} {i : Index}

/-- What a machine does with a command at an index that it has not counted. -/
theorem apply_of_parse (hi : m.lastApplied < i) (h : Command.parse command = .ok c) :
    StateMachine.apply m i command =
      ((c.run m.table).1.mapError CommandError.message, ⟨(c.run m.table).2, i⟩) := by
  have hindex : ¬ i ≤ m.lastApplied := Nat.not_le.mpr hi
  simp only [StateMachine.apply, apply, if_neg hindex, h]

theorem apply_of_unread {e : CommandError} (hi : m.lastApplied < i) (h : Command.parse command = .error e) :
    StateMachine.apply m i command = (.error e.message, { m with lastApplied := i }) := by
  have hindex : ¬ i ≤ m.lastApplied := Nat.not_le.mpr hi
  simp only [StateMachine.apply, apply, if_neg hindex, h]
  rfl

theorem run_cases (c : Command) (t : Table) : (c.run t).1 = .ok [] ∨ (c.run t).1 = .error .notFound := by
  cases c with
  | set key value => exact Or.inl rfl
  | delete key =>
    cases hkey : t.find? key with
    | some value => simp [Command.run, hkey]
    | none => simp [Command.run, hkey]

/-- A command is valid if applying it, to whatever the machine holds, does not end with the news that it cannot be
read. -/
theorem validate_iff_readable (m' : KeyValue) (hi : m.lastApplied < i) :
    StateMachine.validate m' command = .ok () ↔
      ∀ reason, (StateMachine.apply m i command).1 = .error reason → ¬ Unreadable reason := by
  rw [validate_eq_ok_iff]
  cases h : Command.parse command with
  | error e =>
    rw [apply_of_unread hi h]
    constructor
    · rintro ⟨c, ⟨⟩⟩
    · intro hall
      exact absurd (unreadable_of_parse h) (hall e.message rfl)
  | ok c =>
    rw [apply_of_parse hi h]
    refine ⟨fun _ reason hreason => ?_, fun _ => ⟨c, rfl⟩⟩
    rcases run_cases c m.table with hout | hout
    · rw [hout] at hreason
      cases hreason
    · rw [hout] at hreason
      cases hreason
      exact not_unreadable_notFound

/-! ## What the machine holds -/

/-- The key that a command is about. -/
def Command.key : Command → String
  | set key _ => key
  | delete key => key

/-- The commands among these bytes, in order. -/
def accepted (ps : List (Index × Bytes)) : List Command := ps.filterMap fun p => (Command.parse p.2).toOption

/-- The last of them about a key. -/
def lastOn (key : String) (ps : List (Index × Bytes)) : Option Command :=
  ((accepted ps).filter fun c => c.key = key).getLast?

/-- The indexes increase, from the first position of a log on. -/
def Increasing (ps : List (Index × Bytes)) : Prop := (0 :: ps.map Prod.fst).Pairwise (· < ·)

instance (ps : List (Index × Bytes)) : Decidable (Increasing ps) :=
  inferInstanceAs (Decidable (List.Pairwise _ _))

variable {ps : List (Index × Bytes)} {p : Index × Bytes} {key value : String}

theorem lastOn_concat_of_unread {e : CommandError} (h : Command.parse p.2 = .error e) :
    lastOn key (ps ++ [p]) = lastOn key ps := by
  simp [lastOn, accepted, h, Except.toOption]

theorem lastOn_concat (h : Command.parse p.2 = .ok c) :
    lastOn key (ps ++ [p]) = if c.key = key then some c else lastOn key ps := by
  have haccepted : accepted (ps ++ [p]) = accepted ps ++ [c] := by
    simp [accepted, h, Except.toOption]
  rw [lastOn, haccepted, List.filter_append, lastOn]
  split
  · rename_i hkey
    rw [List.filter_cons_of_pos (by simpa using hkey), List.filter_nil, List.getLast?_concat]
  · rename_i hkey
    rw [List.filter_cons_of_neg (by simpa using hkey), List.filter_nil, List.append_nil]

/-- What a command leaves at its key. -/
def Command.leaves : Command → Option String
  | set _ value => some value
  | delete _ => none

theorem find?_run (c : Command) (t : Table) (key : String) :
    (c.run t).2.find? key = if c.key = key then c.leaves else t.find? key := by
  cases c with
  | set k v =>
    change (t.insert k v).find? key = if k = key then some v else t.find? key
    by_cases hkey : k = key
    · rw [if_pos hkey, hkey, Table.find?_insert_self]
    · rw [if_neg hkey, Table.find?_insert_of_ne (Ne.symm hkey)]
  | delete k =>
    change ((Command.delete k).run t).2.find? key = if k = key then none else t.find? key
    cases hfind : t.find? k with
    | none =>
      have hrun : ((Command.delete k).run t).2 = t := by simp [Command.run, hfind]
      rw [hrun]
      split
      · rename_i hkey
        rw [← hkey, hfind]
      · rfl
    | some v =>
      have hrun : ((Command.delete k).run t).2 = t.erase k := by simp [Command.run, hfind]
      rw [hrun]
      split
      · rename_i hkey
        rw [hkey, Table.find?_erase_self]
      · rename_i hkey
        exact Table.find?_erase_of_ne (Ne.symm hkey)

theorem lastApplied_apply_lt (hm : m.lastApplied < i) (hp : p.1 < i) :
    (StateMachine.apply m p.1 p.2).2.lastApplied < i := by
  by_cases hindex : p.1 ≤ m.lastApplied
  · simpa only [StateMachine.apply, apply, if_pos hindex] using hm
  · have hless : m.lastApplied < p.1 := Nat.not_le.mp hindex
    cases h : Command.parse p.2 with
    | error e =>
      rw [apply_of_unread hless h]
      exact hp
    | ok c =>
      rw [apply_of_parse hless h]
      exact hp

theorem lastApplied_deliver_lt (hm : m.lastApplied < i) (hps : ∀ p ∈ ps, p.1 < i) :
    (deliver m ps).2.lastApplied < i := by
  induction ps generalizing m with
  | nil => exact hm
  | cons p ps ih =>
    exact ih (lastApplied_apply_lt hm (hps p List.mem_cons_self)) fun q hq => hps q (List.mem_cons_of_mem p hq)

theorem Increasing.init (h : Increasing (ps ++ [p])) : Increasing ps := by
  rw [Increasing, List.map_append, ← List.cons_append] at h
  exact (List.pairwise_append.mp h).1

/-- The machine has not counted the next index. -/
theorem Increasing.lastApplied_lt (h : Increasing (ps ++ [p])) : (deliver ({} : KeyValue) ps).2.lastApplied < p.1 := by
  rw [Increasing, List.map_append, ← List.cons_append] at h
  have hless := (List.pairwise_append.mp h).2.2
  refine lastApplied_deliver_lt (hless 0 List.mem_cons_self p.1 (List.mem_singleton.mpr rfl)) fun q hq => ?_
  exact hless q.1 (List.mem_cons_of_mem 0 (List.mem_map_of_mem hq)) p.1 (List.mem_singleton.mpr rfl)

theorem get?_deliver (h : Increasing ps) (key : String) :
    (deliver ({} : KeyValue) ps).2.get? key = (lastOn key ps).bind Command.leaves := by
  induction ps using List.reverseRecOn with
  | nil => rfl
  | append_singleton ps p ih =>
    have hless := h.lastApplied_lt
    have hnext : (deliver ({} : KeyValue) (ps ++ [p])).2 =
        (StateMachine.apply (deliver ({} : KeyValue) ps).2 p.1 p.2).2 := by
      rw [StateMachine.deliver_append]
      rfl
    have ih := ih h.init
    rw [hnext]
    cases hparse : Command.parse p.2 with
    | error e =>
      rw [apply_of_unread hless hparse, lastOn_concat_of_unread hparse, ← ih]
      rfl
    | ok c =>
      rw [apply_of_parse hless hparse, lastOn_concat hparse]
      change (c.run _).2.find? key = _
      rw [find?_run]
      split
      · rfl
      · exact ih

theorem key_of_lastOn (h : lastOn key ps = some c) : c.key = key := by
  have hmem : c ∈ (accepted ps).filter fun c => c.key = key := List.mem_of_getLast? h
  exact of_decide_eq_true (List.mem_filter.mp hmem).2

theorem leaves_lastOn : (lastOn key ps).bind Command.leaves = some value ↔ lastOn key ps = some (.set key value) := by
  cases h : lastOn key ps with
  | none => simp
  | some c =>
    have hkey := key_of_lastOn h
    cases c with
    | set k v =>
      obtain rfl : k = key := hkey
      simp [Command.leaves]
    | delete k => simp [Command.leaves]

theorem apply_delete (hi : m.lastApplied < i) (h : Command.parse command = .ok (.delete key)) :
    (StateMachine.apply m i command).1 = if (m.get? key).isSome then .ok [] else .error "NOT_FOUND" := by
  rw [apply_of_parse hi h]
  cases hfind : m.table.find? key with
  | none =>
    simp only [Command.run, get?, hfind]
    rfl
  | some value =>
    simp only [Command.run, get?, hfind]
    rfl

/-- Reading, validating and applying of commands: the grammar, the one reason for a refusal, and the value of each key
after any commands at increasing indexes. -/
theorem commands_read_and_kept :
    (∀ command c, Command.parse command = .ok c ↔
      ∃ text, command = Bytes.ofString text ∧ Command.Spelled text c) ∧
    (∀ command key value, Command.parse command = .ok (.set key value) →
      Command.parse (Bytes.ofString ("DELETE " ++ key)) = .ok (.delete key)) ∧
    (∀ (m m' : KeyValue) (i : Index) command, m.lastApplied < i →
      (StateMachine.validate m' command = .ok () ↔
        ∀ reason, (StateMachine.apply m i command).1 = .error reason → ¬ Unreadable reason)) ∧
    (∀ ps, Increasing ps → ∀ key value,
      (deliver ({} : KeyValue) ps).2.get? key = some value ↔ lastOn key ps = some (.set key value)) ∧
    ∀ ps i command key, Increasing (ps ++ [(i, command)]) → Command.parse command = .ok (.delete key) →
      ((StateMachine.apply (deliver ({} : KeyValue) ps).2 i command).1 = .error "NOT_FOUND" ↔
        ¬ ∃ value, lastOn key ps = some (.set key value)) ∧
      ((StateMachine.apply (deliver ({} : KeyValue) ps).2 i command).1 = .ok [] ↔
        ∃ value, lastOn key ps = some (.set key value)) := by
  refine ⟨fun _ _ => Command.parse_eq_ok_iff, ?_, fun m m' i _ hi => validate_iff_readable m' hi, ?_, ?_⟩
  · intro command key value hset
    obtain ⟨text, -, hspelled⟩ := Command.parse_eq_ok_iff.mp hset
    refine Command.parse_eq_ok_iff.mpr ⟨_, rfl, ?_⟩
    cases hspelled with
    | set _ hkey => exact .delete hkey
  · intro ps hps key value
    rw [get?_deliver hps, leaves_lastOn]
  · intro ps i command key hps hdelete
    have hfound : ((deliver ({} : KeyValue) ps).2.get? key).isSome ↔
        ∃ value, lastOn key ps = some (.set key value) := by
      simp only [get?_deliver hps.init, Option.isSome_iff_exists, leaves_lastOn]
    rw [apply_delete hps.lastApplied_lt hdelete, ← hfound]
    cases (deliver ({} : KeyValue) ps).2.get? key <;> simp

/-- A value with a space, the empty key, and three texts that are no commands. -/
def spacedCommands : List (Index × Bytes) := [
  (1, Bytes.ofString "SET a b c"),
  (4, Bytes.ofString "SET  x"),
  (5, Bytes.ofString "SET a"),
  (7, Bytes.ofString "DELETE  "),
  (9, [0xff])]

theorem spacedCommands_kept :
    Increasing (spacedCommands ++ [(12, Bytes.ofString "DELETE ")]) ∧
    Command.parse (Bytes.ofString "DELETE ") = .ok (.delete "") ∧
    (deliver ({} : KeyValue) spacedCommands).2.get? "a" = some "b c" ∧
    (deliver ({} : KeyValue) spacedCommands).2.get? "" = some "x" ∧
    (StateMachine.apply (deliver ({} : KeyValue) spacedCommands).2 12 (Bytes.ofString "DELETE ")).1 = .ok [] ∧
    StateMachine.validate ({} : KeyValue) (Bytes.ofString "DELETE  ") ≠ .ok () := by
  have hincreasing : Increasing (spacedCommands ++ [(12, Bytes.ofString "DELETE ")]) := by decide
  obtain ⟨hread, hnamed, hvalid, hkept, hdeleted⟩ := commands_read_and_kept
  have hspelled : Command.Spelled "SET  x" (.set "" "x") := @Command.Spelled.set "" "x" List.not_mem_nil
  have hset : Command.parse (Bytes.ofString "SET  x") = .ok (.set "" "x") := (hread _ _).mpr ⟨_, rfl, hspelled⟩
  have hdelete : Command.parse (Bytes.ofString "DELETE ") = .ok (.delete "") := hnamed _ _ _ hset
  have hunknown : Unreadable "unknown command: DELETE  " := Or.inr ⟨"DELETE  ", by decide⟩
  refine ⟨hincreasing, hdelete, ?_, ?_, ?_, ?_⟩
  · exact (hkept spacedCommands hincreasing.init "a" "b c").mpr (by decide +kernel)
  · exact (hkept spacedCommands hincreasing.init "" "x").mpr (by decide +kernel)
  · exact (hdeleted spacedCommands 12 _ "" hincreasing hdelete).2.mpr ⟨"x", by decide +kernel⟩
  · intro hok
    exact (hvalid {} {} 1 _ (by decide)).mp hok _ (by decide +kernel) hunknown

end KeyValue

end RaftNode
