import RaftNode.Proofs.Mirror
/-!
# A log in memory

What the operations of a log do to the part of it that is in memory, whatever its store does. An operation that ends
early makes the node halt, save for an append that does not fit.
-/
namespace RaftNode

open RaftNode.Action (wp)

namespace Log

variable {σ : Type} [LogStore σ] {l l' l'' : Log σ} {α : Type} {e : Entry} {i : Index}
  {batch : List Entry} {snap : Snapshot}

/-! ## Ending early -/

omit [LogStore σ] in
/-- An access to the store changes nothing else, and whoever it fails for halts. -/
theorem wp_onStore {step : StoreAction σ α} {Q : α → Log σ → Prop}
    {E : Fault NodeError → Log σ → Prop} (hQ : ∀ a s, Q a { l with store := s })
    (hE : ∀ f s, f.halts = true → E f { l with store := s }) : wp (onStore step) Q E l := by
  rw [onStore, Action.wp_within]
  exact Action.wp_mono (Action.wp_trivial step l.store) (fun a s _ => hQ a s)
    fun f s _ => hE _ s (StoreError.halts f)

/-- Nothing is applied, and no commitment is taken back. -/
structure Stays (l l' : Log σ) : Prop where
  applied : l'.lastApplied = l.lastApplied
  commit : l.commitIndex ≤ l'.commitIndex

omit [LogStore σ] in
theorem Stays.refl (l : Log σ) : Stays l l := ⟨rfl, le_rfl⟩

omit [LogStore σ] in
theorem Stays.trans (h : Stays l l') (h' : Stays l' l'') : Stays l l'' :=
  ⟨h'.applied.trans h.applied, h.commit.trans h'.commit⟩

/-- An operation that leaves the positions alone, and makes the node halt if it ends early. -/
def Strict (step : LogAction σ α) : Prop :=
  ∀ l, wp step (fun _ l' => Stays l l') (fun f _ => f.halts = true) l

omit [LogStore σ] in
theorem Strict.bind {β : Type} {step : LogAction σ α} {f : α → LogAction σ β} (hs : Strict step)
    (hf : ∀ a, Strict (f a)) : Strict (step >>= f) := fun l =>
  Action.wp_seq (hs l) fun a l' h => Action.wp_imp (hf a l') fun _ _ => h.trans

omit [LogStore σ] in
theorem strict_onStore (step : StoreAction σ α) : Strict (onStore step) := fun _ =>
  wp_onStore (fun _ _ => ⟨rfl, le_rfl⟩) fun _ _ hf => hf

omit [LogStore σ] in
theorem strict_setCommitIndex (i : Index) : Strict (setCommitIndex i : LogAction σ Unit) := by
  intro l
  simp only [setCommitIndex, Action.wp_bind, Action.wp_get, Action.wp_require]
  split
  · rw [Action.wp_ite]
    split
    · exact ⟨rfl, by dsimp only; lia⟩
    · exact .refl l
  · rfl

theorem strict_truncateFrom (i : Index) : Strict (truncateFrom i : LogAction σ Unit) := by
  intro l
  simp only [truncateFrom, Action.wp_bind, Action.wp_get, Action.wp_ite, Action.wp_modify]
  split
  · exact rfl
  · refine Action.wp_imp (strict_onStore _ l) fun _ l' hl' => ?_
    rw [Action.wp_sub]
    split
    · rw [Action.wp_add]
      split
      · exact ⟨hl'.applied, hl'.commit⟩
      · rfl
    · rfl

theorem strict_dropKnown (batch : List Entry) : Strict (dropKnown batch : LogAction σ _) := by
  induction batch with
  | nil => exact fun l => .refl l
  | cons e rest ih =>
    intro l
    rw [dropKnown, Action.wp_bind, Action.wp_get]
    split
    · rw [Action.wp_ite]
      split
      · exact ih l
      · rw [Action.wp_bind]
        exact Action.wp_imp (strict_truncateFrom _ l) fun _ _ h => h
    · exact .refl l

theorem strict_merge (batch : List Entry) (lastNew leaderCommit : Index) :
    Strict (merge batch lastNew leaderCommit : LogAction σ Index) := by
  have hcommit : Strict (do
      if (← get).commitIndex < min leaderCommit lastNew then
        setCommitIndex (min leaderCommit lastNew)
      pure lastNew : LogAction σ Index) := by
    intro l
    simp only [Action.wp_bind, Action.wp_get, Action.wp_ite, Action.wp_pure]
    split
    · exact strict_setCommitIndex _ l
    · exact .refl l
  refine (strict_dropKnown batch).bind fun fresh l => ?_
  rw [Action.wp_ite]
  split
  · refine (strict_onStore _).bind (fun _ l => ?_) l
    exact Action.wp_imp (hcommit { l with entries := l.entries ++ fresh })
      fun _ _ h => ⟨h.applied, h.commit⟩
  · exact hcommit l

/-- A request that does not fit the log is refused, which is no reason to halt. -/
theorem wp_reconcile_refused (prevIndex : Index) (prevTerm : Term) (batch : List Entry)
    (leaderCommit : Index) (l : Log σ) :
    wp (reconcile prevIndex prevTerm batch leaderCommit) (fun _ l' => Stays l l')
      (fun f l' => f.halts = true ∨ l' = l ∧ ∃ i hint, f = .error (.logConflict i hint)) l := by
  have hmerge : ∀ batch lastNew, wp (merge batch lastNew leaderCommit) (fun _ l' => Stays l l')
      (fun f l' => f.halts = true ∨ l' = l ∧ ∃ i hint, f = .error (.logConflict i hint)) l :=
    fun batch lastNew => Action.wp_mono (strict_merge batch lastNew leaderCommit l)
      (fun _ _ h => h) fun _ _ => Or.inl
  apply wp_reconcile_cases
  case hfull => exact fun _ => Or.inl rfl
  case hcovered => exact fun _ => hmerge _ _
  case habsent => exact fun _ _ => Or.inr ⟨rfl, _, _, rfl⟩
  case hmatches => exact fun _ => hmerge _ _
  case hdiffers => exact fun _ _ _ _ => Or.inr ⟨rfl, _, _, rfl⟩
  case hunhinted => exact fun _ _ _ _ => Or.inl rfl

/-! ## What each operation makes of the log -/

theorem wp_saveHard_memory (h : HardState) (l : Log σ) :
    wp (saveHard h) (fun _ l' => ∃ s, l' = { l with store := s })
      (fun f l' => f.halts = true ∧ ∃ s, l' = { l with store := s }) l :=
  wp_onStore (fun _ s => ⟨s, rfl⟩) fun _ s hf => ⟨hf, s, rfl⟩

theorem wp_appendAsLeader_memory (term : Term) (command : Bytes) (l : Log σ) :
    wp (appendAsLeader term command)
      (fun i l' => i = l.lastIndex + 1 ∧ ∃ s, l' =
        { l with store := s, entries := l.entries ++ [⟨i, term, command⟩] })
      (fun f l' => f.halts = true ∧ ∃ s, l' = { l with store := s }) l := by
  simp only [appendAsLeader, Action.wp_bind, Action.wp_get, Action.wp_add, Action.wp_modify,
    Action.wp_pure]
  split
  · exact wp_onStore (fun _ s => ⟨trivial, s, rfl⟩) fun _ s hf => ⟨hf, s, rfl⟩
  · exact ⟨rfl, l.store, rfl⟩

omit [LogStore σ] in
theorem wp_setCommitIndex_memory (i : Index) (l : Log σ) :
    wp (setCommitIndex i)
      (fun _ l' => ∃ c, l.commitIndex ≤ c ∧ (c = l.commitIndex ∨ c ≤ l.lastIndex) ∧
        l' = { l with commitIndex := c })
      (fun f l' => f.halts = true ∧ l' = l) l := by
  simp only [setCommitIndex, Action.wp_bind, Action.wp_get, Action.wp_require]
  split
  · rw [Action.wp_ite]
    split
    · exact ⟨min i l.lastIndex, by lia, Or.inr (min_le_right _ _), rfl⟩
    · exact ⟨l.commitIndex, le_rfl, Or.inl rfl, rfl⟩
  · exact ⟨rfl, trivial⟩

omit [LogStore σ] in
theorem wp_nextCommitted_memory (l : Log σ) :
    wp nextCommitted
      (fun o l' => (∀ e, o = some e → l.lastApplied < l.commitIndex ∧
          l.entry? (l.lastApplied + 1) = some e ∧ l' = { l with lastApplied := e.index }) ∧
        (o = none → l' = l))
      (fun f l' => f = .abort ∧ l' = l) l := by
  simp only [nextCommitted, Action.wp_bind, Action.wp_get, Action.wp_ite, Action.wp_pure,
    Action.wp_add]
  split
  · exact ⟨by rintro _ ⟨⟩, fun _ => trivial⟩
  · rename_i hless
    split
    · split
      · exact ⟨by rintro _ ⟨⟩, fun _ => rfl⟩
      · rename_i e he
        refine ⟨?_, by rintro ⟨⟩⟩
        rintro _ ⟨⟩
        exact ⟨by lia, he, rfl⟩
    · exact ⟨trivial, trivial⟩

omit [LogStore σ] in
/-- The next entry to apply is committed and stands behind the last that was applied. -/
theorem nextCommitted_eq_some (h : nextCommitted l = .ok (some e) l') :
    l.lastApplied < l.commitIndex ∧ l.entry? (l.lastApplied + 1) = some e ∧
      l' = { l with lastApplied := e.index } :=
  (Action.wp_ok (wp_nextCommitted_memory l) h).1 e rfl

/-- The log behind a snapshot that was taken over. -/
def installed (l : Log σ) (snap : Snapshot) (s : σ) : Log σ where
  store := s
  entries :=
    if l.termAt? snap.index = some snap.term then l.entries.drop (snap.index - l.snapshotIndex)
    else []
  snapshotIndex := snap.index
  snapshotTerm := snap.term
  commitIndex := max l.commitIndex snap.index
  lastApplied := snap.index

theorem wp_install_memory (snap : Snapshot) (l : Log σ) :
    wp (install snap)
      (fun taken l' => (taken = false → snap.index ≤ l.lastApplied ∧ l' = l) ∧
        (taken = true → l.lastApplied < snap.index ∧ ∃ s, l' = l.installed snap s))
      (fun f l' => f.halts = true ∧ ∃ s, l' = { l with store := s }) l := by
  simp only [install, Action.wp_bind, Action.wp_get, Action.wp_ite, Action.wp_modify,
    Action.wp_pure]
  split
  · rename_i hold
    exact ⟨fun _ => ⟨hold, trivial⟩, by rintro ⟨⟩⟩
  · rename_i hnew
    split
    · rename_i hterm
      refine wp_onStore (fun _ s => ?_) fun _ s hf => ⟨hf, s, rfl⟩
      rw [Action.wp_sub]
      split
      · refine ⟨by rintro ⟨⟩, fun _ => ⟨by lia, s, ?_⟩⟩
        rw [installed, if_pos hterm]
      · exact ⟨rfl, s, rfl⟩
    · rename_i hterm
      rw [Action.wp_add]
      split
      · refine wp_onStore (fun _ s => wp_onStore (fun _ s => ?_) fun _ s hf => ⟨hf, s, rfl⟩)
          fun _ s hf => ⟨hf, s, rfl⟩
        refine ⟨by rintro ⟨⟩, fun _ => ⟨by lia, s, ?_⟩⟩
        rw [installed, if_neg hterm]
      · exact ⟨rfl, l.store, rfl⟩

/-- The log behind a snapshot of its own. -/
def compacted (l : Log σ) (snap : Snapshot) (s : σ) : Log σ := { l with
  store := s, entries := l.entries.drop (snap.index - l.snapshotIndex),
  snapshotIndex := snap.index, snapshotTerm := snap.term }

theorem wp_compact_memory (snap : Snapshot) (l : Log σ) :
    wp (compact snap)
      (fun _ l' => snap.index ≤ l.lastApplied ∧
        (l' = l ∨ l.snapshotIndex < snap.index ∧ ∃ s, l' = l.compacted snap s))
      (fun f _ => f.halts = true) l := by
  simp only [compact, Action.wp_bind, Action.wp_get, Action.wp_require, Action.wp_ite,
    Action.wp_pure, Action.wp_modify]
  split
  · rename_i happlied
    split
    · exact ⟨happlied, Or.inl trivial⟩
    · rename_i hnew
      refine wp_onStore (fun _ s => ?_) fun _ _ hf => hf
      split
      · exact ⟨happlied, Or.inr ⟨by lia, s, rfl⟩⟩
      · rfl
  · rfl

/-! ## Growing by itself -/

/-- What a node makes of its log of its own accord. -/
inductive Grows (l : Log σ) : Log σ → Prop
  | hard (h : HardState) : Grows l ((saveHard h : LogAction σ Unit).after l)
  | append (term : Term) (command : Bytes) :
      Grows l ((appendAsLeader term command : LogAction σ Index).after l)
  | commit (i : Index) : Grows l ((setCommitIndex i : LogAction σ Unit).after l)

/-- The same, as far as memory goes. -/
inductive Grown (l : Log σ) : Log σ → Prop
  | store (s : σ) : Grown l { l with store := s }
  | append (s : σ) (term : Term) (command : Bytes) : Grown l { l with
      store := s, entries := l.entries ++ [⟨l.lastIndex + 1, term, command⟩] }
  | commit {c : Index} (hle : l.commitIndex ≤ c) (hc : c = l.commitIndex ∨ c ≤ l.lastIndex) :
      Grown l { l with commitIndex := c }

theorem Grows.grown (h : Grows l l') : Grown l l' := by
  cases h with
  | hard h =>
    refine Action.of_after (Action.wp_mono (wp_saveHard_memory h l) ?_ ?_)
    · rintro - _ ⟨s, rfl⟩
      exact .store s
    · rintro - _ ⟨-, s, rfl⟩
      exact .store s
  | append term command =>
    refine Action.of_after (Action.wp_mono (wp_appendAsLeader_memory term command l) ?_ ?_)
    · rintro _ _ ⟨rfl, s, rfl⟩
      exact .append s term command
    · rintro - _ ⟨-, s, rfl⟩
      exact .store s
  | commit i =>
    refine Action.of_after (Action.wp_mono (wp_setCommitIndex_memory i l) ?_ ?_)
    · rintro - _ ⟨c, hle, hc, rfl⟩
      exact .commit hle hc
    · rintro - l' ⟨-, rfl⟩
      exact .store l'.store

/-! ## Terms -/

omit [LogStore σ] in
theorem termAt?_snapshot (l : Log σ) : l.termAt? l.snapshotIndex = some l.snapshotTerm := if_pos rfl

omit [LogStore σ] in
theorem termAt?_of_lt (hi : l.snapshotIndex < i) : l.termAt? i = (l.entry? i).map Entry.term :=
  if_neg (by lia)

omit [LogStore σ] in
theorem within_of_termAt? (hl : NumberedFrom l.snapshotIndex l.entries) {t : Term} (h : l.termAt? i = some t) :
    l.snapshotIndex ≤ i ∧ i ≤ l.lastIndex :=
  (termAt?_isSome_of_numbered hl).mp (Option.isSome_iff_exists.mpr ⟨t, h⟩)

omit [LogStore σ] in
theorem exists_termAt? (hl : NumberedFrom l.snapshotIndex l.entries) (hlow : l.snapshotIndex ≤ i)
    (hlast : i ≤ l.lastIndex) : ∃ t, l.termAt? i = some t :=
  Option.isSome_iff_exists.mp ((termAt?_isSome_of_numbered hl).mpr ⟨hlow, hlast⟩)

omit [LogStore σ] in
theorem exists_entry (hl : NumberedFrom l.snapshotIndex l.entries) (hlow : l.snapshotIndex < i)
    (hlast : i ≤ l.lastIndex) : ∃ e, l.entry? i = some e := by
  obtain ⟨t, ht⟩ := exists_termAt? hl hlow.le hlast
  rw [termAt?_of_lt hlow] at ht
  obtain ⟨e, he, -⟩ := Option.map_eq_some_iff.mp ht
  exact ⟨e, he⟩

/-! ## Logs in order -/

/-- Entries are numbered from the snapshot on, and they reach as far as what is applied. -/
structure Tidy (l : Log σ) : Prop where
  numbered : NumberedFrom l.snapshotIndex l.entries
  compacted : l.snapshotIndex ≤ l.lastApplied
  applied : l.lastApplied ≤ l.commitIndex
  held : l.lastApplied ≤ l.lastIndex

omit [LogStore σ] in
theorem Tidy.lastIndex (h : Tidy l) : l.lastIndex = l.snapshotIndex + l.entries.length :=
  lastIndex_of_numbered h.numbered

omit [LogStore σ] in
theorem Tidy.entry?_eq_some (h : Tidy l) : l.entry? i = some e ↔ e ∈ l.entries ∧ e.index = i :=
  entry?_of_numbered h.numbered

omit [LogStore σ] in
theorem Tidy.termAt?_isSome (h : Tidy l) :
    (l.termAt? i).isSome ↔ l.snapshotIndex ≤ i ∧ i ≤ l.lastIndex :=
  termAt?_isSome_of_numbered h.numbered

/-- What is committed is there. -/
def Bounded (l : Log σ) : Prop := l.commitIndex ≤ l.lastIndex

/-- The log is in order again, and nothing was applied or compacted. -/
structure Carries (l l' : Log σ) : Prop where
  tidy : Tidy l'
  snapshotIndex : l'.snapshotIndex = l.snapshotIndex
  snapshotTerm : l'.snapshotTerm = l.snapshotTerm
  applied : l'.lastApplied = l.lastApplied
  commit : l.commitIndex ≤ l'.commitIndex
  within : l'.commitIndex = l.commitIndex ∨ l'.commitIndex ≤ l'.lastIndex

/-- Entries were added at the end. -/
structure Prolongs (l l' : Log σ) : Prop extends Carries l l' where
  entries : l.entries <+: l'.entries

/-- Entries of a batch took the place of those after a certain point, none of which is committed. -/
structure Merged (batch : List Entry) (l l' : Log σ) : Prop extends Carries l l' where
  entries : ∃ k fresh, l'.entries = l.entries.take k ++ fresh ∧ (∀ e ∈ fresh, e ∈ batch) ∧
    (l.entries.length ≤ k ∨ l.commitIndex ≤ l.snapshotIndex + k)

section

omit [LogStore σ]

theorem Tidy.carries (h : Tidy l) : Carries l l := ⟨h, rfl, rfl, rfl, le_rfl, Or.inl rfl⟩

theorem Tidy.prolongs (h : Tidy l) : Prolongs l l := ⟨h.carries, List.prefix_refl _⟩

theorem Tidy.withStore (h : Tidy l) (s : σ) : Tidy { l with store := s } :=
  ⟨h.numbered, h.compacted, h.applied, h.held⟩

theorem Prolongs.trans (h : Prolongs l l') (h' : Prolongs l' l'') : Prolongs l l'' := by
  have hlen := (h.entries.trans h'.entries).length_le
  have hlast := h.tidy.lastIndex
  have hlast' := h'.tidy.lastIndex
  have hsnap := h'.snapshotIndex
  have hle := h'.entries.length_le
  refine ⟨⟨h'.tidy, hsnap.trans h.snapshotIndex, h'.snapshotTerm.trans h.snapshotTerm,
    h'.applied.trans h.applied, h.commit.trans h'.commit, ?_⟩, h.entries.trans h'.entries⟩
  rcases h'.within with hsame | hwithin
  · rcases h.within with hsame' | hwithin'
    · exact Or.inl (hsame.trans hsame')
    · exact Or.inr (by lia)
  · exact Or.inr hwithin

theorem Grown.prolongs (h : Tidy l) (hg : Grown l l') : Prolongs l l' := by
  have happlied := h.applied
  have hheld := h.held
  have hlast := h.lastIndex
  cases hg with
  | store s => exact ⟨⟨h.withStore s, rfl, rfl, rfl, le_rfl, Or.inl rfl⟩, List.prefix_refl _⟩
  | append s term command =>
    have hnum : NumberedFrom l.snapshotIndex
        (l.entries ++ [⟨l.lastIndex + 1, term, command⟩]) := by
      refine h.numbered.append ?_
      rw [← hlast]
      exact .singleton term command
    refine ⟨⟨⟨hnum, h.compacted, happlied, ?_⟩, rfl, rfl, rfl, le_rfl, Or.inl rfl⟩,
      List.prefix_append _ _⟩
    change l.lastApplied ≤ lastIndex { l with store := s, entries := l.entries ++ [_] }
    rw [lastIndex_of_numbered hnum, List.length_append]
    dsimp only
    lia
  | commit hle hc =>
    exact ⟨⟨⟨h.numbered, h.compacted, happlied.trans hle, hheld⟩, rfl, rfl, rfl, hle, hc⟩,
      List.prefix_refl _⟩

theorem Prolongs.entry? (h : Prolongs l l') (he : l.entry? i = some e) : l'.entry? i = some e := by
  obtain ⟨hi, he⟩ := getElem?_of_entry? he
  obtain ⟨rest, hrest⟩ := h.entries
  rw [Log.entry?, h.snapshotIndex, if_neg hi.not_ge, ← hrest,
    List.getElem?_append_left (List.getElem?_eq_some_iff.mp he).1]
  exact he

theorem Prolongs.lastIndex (h : Prolongs l l') (hl : Tidy l) : l.lastIndex ≤ l'.lastIndex := by
  have := h.entries.length_le
  have := h.snapshotIndex
  have := h.tidy.lastIndex
  have := hl.lastIndex
  lia

/-- An entry that a merge leaves was there before, or it comes from the batch. -/
theorem Merged.entry? (h : Merged batch l l') (hl : Tidy l) (he : l'.entry? i = some e) :
    l.entry? i = some e ∨ e ∈ batch := by
  obtain ⟨k, fresh, hentries, hfresh, -⟩ := h.entries
  obtain ⟨hmem, hi⟩ := h.tidy.entry?_eq_some.mp he
  rw [hentries] at hmem
  rcases List.mem_append.mp hmem with hmem | hmem
  · exact Or.inl (hl.entry?_eq_some.mpr ⟨List.mem_of_mem_take hmem, hi⟩)
  · exact Or.inr (hfresh e hmem)

end

/-! ## Following -/

theorem wp_truncateFrom_memory (p : Index) (l : Log σ) :
    wp (truncateFrom (p + 1))
      (fun _ l' => l.commitIndex ≤ p ∧ ∃ s, l' =
        { l with store := s, entries := l.entries.take (p - l.snapshotIndex) })
      (fun f l' => f.halts = true ∧ ∃ s, l' = { l with store := s }) l := by
  simp only [truncateFrom, Action.wp_bind, Action.wp_get, Action.wp_ite, Action.wp_modify,
    Action.wp_sub, Action.wp_add]
  split
  · exact ⟨rfl, l.store, rfl⟩
  · rename_i hcommit
    refine wp_onStore (fun _ s => ?_) fun _ s hf => ⟨hf, s, rfl⟩
    split
    · split
      · exact ⟨by lia, s, by rw [show p + 1 - l.snapshotIndex - 1 = p - l.snapshotIndex by lia]⟩
      · exact ⟨rfl, s, rfl⟩
    · exact ⟨rfl, s, rfl⟩

/-- What is left of a batch that begins behind `p`, and what became of the log. -/
structure Trims (l : Log σ) (batch fresh : List Entry) (l' : Log σ) : Prop where
  log : ∃ s k, l' = { l with store := s, entries := l.entries.take k } ∧
    (l.entries.length ≤ k ∨ l.commitIndex ≤ l.snapshotIndex + k)
  numbered : NumberedFrom (l'.snapshotIndex + l'.entries.length) fresh
  fresh : ∀ e ∈ fresh, e ∈ batch

theorem Tidy.wp_dropKnown (h : Tidy l) {p : Index} (hlow : l.snapshotIndex ≤ p)
    (hp : p ≤ l.lastIndex) (hb : NumberedFrom p batch) :
    wp (dropKnown batch) (fun fresh l' => Trims l batch fresh l') (fun f _ => f.halts = true) l := by
  have hlast := h.lastIndex
  induction batch generalizing p with
  | nil =>
    refine ⟨⟨l.store, l.entries.length, ?_, Or.inl le_rfl⟩, .nil _, fun e he => he⟩
    rw [List.take_length]
  | cons e rest ih =>
    rw [dropKnown, Action.wp_bind, Action.wp_get, hb.head]
    split
    · rename_i term ht
      obtain ⟨-, hle⟩ := h.termAt?_isSome.mp (Option.isSome_iff_exists.mpr ⟨term, ht⟩)
      rw [Action.wp_ite]
      split
      · -- the log has the entry
        refine Action.wp_imp (ih (by lia) hle hb.tail) ?_
        rintro fresh l' ⟨hlog, hnum, hfresh⟩
        exact ⟨hlog, hnum, fun a ha => List.mem_cons_of_mem e (hfresh a ha)⟩
      · rw [Action.wp_bind]
        refine Action.wp_mono (wp_truncateFrom_memory p l) ?_ fun _ _ hf => hf.1
        rintro - l' ⟨hcommit, s, rfl⟩
        refine ⟨⟨s, p - l.snapshotIndex, rfl, Or.inr (by lia)⟩, ?_, fun a ha => ha⟩
        rw [List.length_take]
        dsimp only
        rw [show l.snapshotIndex + min (p - l.snapshotIndex) l.entries.length = p by lia]
        exact hb
    · rename_i hnone
      have hend : l.lastIndex = p := by
        by_contra hne
        have := h.termAt?_isSome.mpr ⟨show l.snapshotIndex ≤ p + 1 by lia, by lia⟩
        rw [hnone] at this
        cases this
      refine ⟨⟨l.store, l.entries.length, ?_, Or.inl le_rfl⟩, ?_, fun a ha => ha⟩
      · rw [List.take_length]
      · rw [← hlast, hend]
        exact hb

theorem Tidy.wp_merge (h : Tidy l) {p : Index} (hlow : l.snapshotIndex ≤ p) (hp : p ≤ l.lastIndex)
    (hb : NumberedFrom p batch) (lastNew leaderCommit : Index) :
    wp (merge batch lastNew leaderCommit) (fun _ l' => Merged batch l l')
      (fun f _ => f.halts = true) l := by
  have happlied := h.applied
  have hcompacted := h.compacted
  have hheld := h.held
  have hlast := h.lastIndex
  have hadvance : ∀ l', Merged batch l l' → wp (do
      if (← get).commitIndex < min leaderCommit lastNew then
        setCommitIndex (min leaderCommit lastNew)
      pure lastNew : LogAction σ Index) (fun _ l' => Merged batch l l')
      (fun f _ => f.halts = true) l' := by
    intro l' hm
    simp only [Action.wp_bind, Action.wp_get, Action.wp_ite, Action.wp_pure]
    split
    · refine Action.wp_mono (wp_setCommitIndex_memory _ l') ?_ fun _ _ hf => hf.1
      rintro - _ ⟨c, hle, hc, rfl⟩
      have hprolongs := Grown.prolongs hm.tidy (.commit hle hc)
      refine ⟨⟨hprolongs.tidy, hm.snapshotIndex, hm.snapshotTerm, hm.applied,
        hm.commit.trans hle, ?_⟩, hm.entries⟩
      rcases hc with rfl | hc
      · exact hm.within
      · exact Or.inr hc
    · exact hm
  rw [merge, Action.wp_bind]
  refine Action.wp_imp (h.wp_dropKnown hlow hp hb) ?_
  rintro fresh _ ⟨⟨s, k, rfl, hk⟩, hnum, hfresh⟩
  have hmerged : ∀ s', Merged batch l
      { l with store := s', entries := l.entries.take k ++ fresh } := by
    intro s'
    have hnumbered := (h.numbered.take k).append hnum
    refine ⟨⟨⟨hnumbered, hcompacted, happlied, ?_⟩, rfl, rfl, rfl, le_rfl, Or.inl rfl⟩,
      k, fresh, rfl, hfresh, hk⟩
    rw [lastIndex_of_numbered hnumbered, List.length_append, List.length_take]
    dsimp only
    lia
  by_cases hnil : fresh = []
  · subst hnil
    refine hadvance _ ?_
    have := hmerged s
    rwa [List.append_nil] at this
  · rw [if_pos (by simpa using hnil), Action.wp_bind]
    exact wp_onStore (fun _ s' => hadvance _ (hmerged s')) fun _ _ hf => hf

/-- Who takes over a batch keeps what is committed; who finds that it does not fit keeps everything. -/
theorem Tidy.wp_reconcile (h : Tidy l) {prevIndex : Index} (hb : NumberedFrom prevIndex batch)
    (prevTerm : Term) (leaderCommit : Index) :
    wp (reconcile prevIndex prevTerm batch leaderCommit) (fun _ l' => Merged batch l l')
      (fun f l' => f.halts = true ∨ l' = l) l := by
  have hheld := h.held
  have hcompacted := h.compacted
  have hmerge : ∀ {p batch'}, l.snapshotIndex ≤ p → p ≤ l.lastIndex → NumberedFrom p batch' →
      (∀ e ∈ batch', e ∈ batch) → ∀ lastNew, wp (merge batch' lastNew leaderCommit)
        (fun _ l' => Merged batch l l') (fun f l' => f.halts = true ∨ l' = l) l := by
    intro p batch' hlow hp hb' hsub lastNew
    refine Action.wp_mono (h.wp_merge hlow hp hb' lastNew leaderCommit) ?_ fun _ _ => Or.inl
    rintro - l' ⟨hc, k, fresh, he, hfresh, hk⟩
    exact ⟨hc, k, fresh, he, fun e he => hsub e (hfresh e he), hk⟩
  apply wp_reconcile_cases
  case hfull => exact fun _ => Or.inl rfl
  case hcovered =>
    intro hbelow
    -- the entries that the snapshot covers are passed over
    refine hmerge (p := l.snapshotIndex) le_rfl (hcompacted.trans hheld) ?_
      (fun e he => List.mem_of_mem_drop he) _
    by_cases hcover : l.snapshotIndex - prevIndex ≤ batch.length
    · have := hb.drop (l.snapshotIndex - prevIndex)
      rwa [show prevIndex + (l.snapshotIndex - prevIndex) = l.snapshotIndex by lia] at this
    · rw [List.drop_eq_nil_of_le (by lia)]
      exact .nil _
  case habsent => exact fun _ _ => Or.inr rfl
  case hmatches =>
    intro hterm
    obtain ⟨hlow, hle⟩ := h.termAt?_isSome.mp (Option.isSome_iff_exists.mpr ⟨prevTerm, hterm⟩)
    exact hmerge hlow hle hb (fun e he => he) _
  case hdiffers => exact fun _ _ _ _ => Or.inr rfl
  case hunhinted => exact fun _ _ _ _ => Or.inl rfl

end Log

end RaftNode
