import RaftNode.Proofs.Agreement
import RaftNode.Proofs.InMemory
/-!
# What a batch does to a log

A leader's batch is refused, or it finds nothing new, or it takes the place of all that the log holds from the first
entry on that differs. What is committed is never taken away, and what the batch says is then in the log.
-/
namespace RaftNode.Log

open RaftNode.Action (wp)

variable {σ : Type}

/-- Consecutive entries behind a snapshot, some of them committed. -/
structure WellFormed (l : Log σ) : Prop where
  numbered : NumberedFrom l.snapshotIndex l.entries
  compacted : l.snapshotIndex ≤ l.commitIndex
  committed : l.commitIndex ≤ l.lastIndex
  fits : l.lastIndex < wordLimit

/-- Behind its snapshot, the log has no entry at the place of this one, or one of another term. -/
def differs (l : Log σ) (e : Entry) : Bool :=
  decide (l.snapshotIndex < e.index) && decide ((l.entry? e.index).map Entry.term ≠ some e.term)

/-- The batch from the first entry on that differs from the log. -/
def fresh (l : Log σ) (batch : List Entry) : List Entry := batch.dropWhile fun e => !l.differs e

/-- The entries of a log below an index. -/
def below (l : Log σ) (i : Index) : List Entry := l.entries.filter fun e => e.index < i

/-- What stays of the log: all of it, or what is below the first entry of the batch that differs. -/
def retained (l : Log σ) (batch : List Entry) : List Entry :=
  match l.fresh batch with
  | [] => l.entries
  | e :: _ => l.below e.index

def merged (l : Log σ) (batch : List Entry) : List Entry := l.retained batch ++ l.fresh batch

/-- The first entry of the batch that differs, if the log has a committed entry in its place. -/
def contested? (l : Log σ) (batch : List Entry) : Option Entry :=
  (l.fresh batch).head?.filter fun e => (l.entry? e.index).isSome && decide (e.index ≤ l.commitIndex)

/-- The log does not have what the leader says stands before the batch. -/
def Refuses (l : Log σ) (prevIndex : Index) (prevTerm : Term) : Prop :=
  l.snapshotIndex ≤ prevIndex ∧ l.termAt? prevIndex ≠ some prevTerm

/-- How a log contests a batch. -/
inductive Contests (l : Log σ) (batch : List Entry) : Fault NodeError → Prop
  | committed (e : Entry) (he : l.contested? batch = some e) :
      Contests l batch (.error (.committedConflict e.index l.commitIndex))

/-- How a log declines a batch. -/
inductive Declines (l : Log σ) (prevIndex : Index) (prevTerm : Term) (batch : List Entry) : Fault NodeError → Prop
  | refused (hrefuses : l.Refuses prevIndex prevTerm) (hroom : l.snapshotIndex + 1 < wordLimit) (hint : Index) :
      Declines l prevIndex prevTerm batch (.error (.logConflict prevIndex hint))
  /-- The hint is looked for behind the snapshot, and there is no index behind it. -/
  | full (hrefuses : l.Refuses prevIndex prevTerm) (hfull : ¬ l.snapshotIndex + 1 < wordLimit) :
      Declines l prevIndex prevTerm batch .abort
  | contested (hpass : ¬ l.Refuses prevIndex prevTerm) (f : Fault NodeError) (hf : l.Contests batch f) :
      Declines l prevIndex prevTerm batch f

/-- The store of the log holds what the log holds. -/
structure Backed (Holds : σ → Persisted → Prop) (l : Log σ) (p : Persisted) : Prop where
  holds : Holds l.store p
  entries : p.entries = l.entries
  covered : p.covered = l.snapshotIndex

/-- The log, cut where the batch begins to differ from it. -/
structure CutFor (Holds : σ → Persisted → Prop) (l : Log σ) (p : Persisted) (batch : List Entry) (l' : Log σ) :
    Prop where
  log : l' = { l with store := l'.store, entries := l.retained batch }
  store : Holds l'.store { p with entries := l.retained batch }
  idle : l.fresh batch = [] → l'.store = l.store

/-- The log after it took over a batch that reaches `lastNew`. -/
structure TakesOver (Holds : σ → Persisted → Prop) (l : Log σ) (p : Persisted) (batch : List Entry)
    (lastNew leaderCommit : Index) (l' : Log σ) : Prop where
  log : l' = { l with
    store := l'.store, entries := l.merged batch, commitIndex := max l.commitIndex (min leaderCommit lastNew) }
  store : Holds l'.store { p with entries := l.merged batch }
  /-- What the log has already is not written again. -/
  idle : l.fresh batch = [] → l'.store = l.store
  terms : ∀ e ∈ batch, l.snapshotIndex < e.index → l'.termAt? e.index = some e.term

variable {l l' : Log σ} {batch rest known : List Entry} {e : Entry} {i q : Index}

/-! ## Entries that differ -/

theorem WellFormed.lastIndex (h : l.WellFormed) : l.lastIndex = l.snapshotIndex + l.entries.length :=
  lastIndex_of_numbered h.numbered

theorem termAt?_of_mem (h : NumberedFrom l.snapshotIndex l.entries) (he : e ∈ l.entries) :
    l.termAt? e.index = some e.term := by
  have hlow := (h.mem_index he).1
  rw [termAt?_of_lt hlow, (entry?_of_numbered h).mpr ⟨he, rfl⟩]
  rfl

/-- An entry that does not differ stands in the log, or the snapshot covers it. -/
theorem WellFormed.exists_of_not_differs (h : l.WellFormed) (he : l.differs e = false)
    (hlow : l.snapshotIndex < e.index) : ∃ a ∈ l.entries, a.index = e.index ∧ a.term = e.term := by
  simp only [differs, decide_eq_true hlow, Bool.true_and, decide_eq_false_iff_not, not_not] at he
  obtain ⟨a, ha, hterm⟩ := Option.map_eq_some_iff.mp he
  obtain ⟨hmem, hindex⟩ := (entry?_of_numbered h.numbered).mp ha
  exact ⟨a, hmem, hindex, hterm⟩

theorem termAt?_of_not_differs (he : l.differs e = false) (hlow : l.snapshotIndex < e.index) :
    l.termAt? e.index = some e.term := by
  simp only [differs, decide_eq_true hlow, Bool.true_and, decide_eq_false_iff_not, not_not] at he
  rw [termAt?_of_lt hlow, he]

theorem lt_of_differs (he : l.differs e = true) : l.snapshotIndex < e.index := by
  rw [differs, Bool.and_eq_true, decide_eq_true_eq] at he
  exact he.1

/-- What the snapshot covers does not differ. -/
theorem not_differs_of_covered (h : e.index ≤ l.snapshotIndex) : l.differs e = false := by
  rw [differs, decide_eq_false (not_lt.mpr h), Bool.false_and]

/-- A batch is what the log has already, and then the rest of it. -/
theorem exists_known (l : Log σ) (batch : List Entry) :
    ∃ known, batch = known ++ l.fresh batch ∧ (∀ e ∈ known, l.differs e = false) ∧
      ∀ e rest, l.fresh batch = e :: rest → l.differs e = true := by
  refine ⟨batch.takeWhile fun e => !l.differs e, List.takeWhile_append_dropWhile.symm, ?_, ?_⟩
  · intro e he
    simpa using List.mem_takeWhile_imp he
  · intro e rest he
    have hnot := List.head?_dropWhile_not (fun e => !l.differs e) batch
    rw [← fresh, he] at hnot
    simpa using hnot

/-! ## The batch and the log -/

theorem numbered_parts (h : NumberedFrom q (known ++ rest)) :
    NumberedFrom q known ∧ NumberedFrom (q + known.length) rest := by
  have hknown := h.take known.length
  have hrest := h.drop known.length
  rw [List.take_left] at hknown
  rw [List.drop_left] at hrest
  exact ⟨hknown, hrest⟩

theorem WellFormed.numbered_retained (h : l.WellFormed) : NumberedFrom l.snapshotIndex (l.retained batch) := by
  rw [retained]
  split
  · exact h.numbered
  · rw [below, h.numbered.filter_below]
    exact h.numbered.take _

/-- What the batch says is in the log. -/
theorem WellFormed.exists_merged (h : l.WellFormed) (hbatch : NumberedFrom q batch) (he : e ∈ batch)
    (hbehind : l.snapshotIndex < e.index) :
    ∃ a ∈ l.merged batch, a.index = e.index ∧ a.term = e.term := by
  obtain ⟨known, hknown, hsame, -⟩ := l.exists_known batch
  rw [hknown] at he hbatch
  obtain ⟨hfront, hrest⟩ := numbered_parts hbatch
  rcases List.mem_append.mp he with he | he
  · obtain ⟨a, ha, hindex, hterm⟩ := h.exists_of_not_differs (hsame e he) hbehind
    refine ⟨a, List.mem_append_left _ ?_, hindex, hterm⟩
    rw [retained]
    split
    · exact ha
    · rename_i e' rest hfresh
      rw [hfresh] at hrest
      have hfirst := hrest.head
      have hbelow := (hfront.mem_index he).2
      exact List.mem_filter.mpr ⟨ha, decide_eq_true (by lia)⟩
  · exact ⟨e, List.mem_append_right _ he, rfl, rfl⟩

section

variable (h : l.WellFormed) (hlow : l.snapshotIndex ≤ q) (hlast : q ≤ l.lastIndex) (hbatch : NumberedFrom q batch)

include h hlow hlast hbatch

/-- What the log has already of a batch is no longer than the log. -/
theorem WellFormed.known_le (hknown : batch = known ++ rest) (hsame : ∀ e ∈ known, l.differs e = false) :
    q + known.length ≤ l.lastIndex := by
  rcases List.eq_nil_or_concat' known with rfl | ⟨front, a, rfl⟩
  · exact hlast
  · have hindex : a.index = q + 1 + front.length := hbatch front.length a (by simp [hknown])
    obtain ⟨a', hmem, hsameIndex, -⟩ := h.exists_of_not_differs (hsame a (by simp)) (by lia)
    have hle := (h.numbered.mem_index hmem).2
    rw [← h.lastIndex] at hle
    rw [List.length_append, List.length_singleton]
    lia

theorem WellFormed.numbered_fresh : NumberedFrom (l.snapshotIndex + (l.retained batch).length) (l.fresh batch) := by
  obtain ⟨known, hknown, hsame, -⟩ := l.exists_known batch
  rw [retained]
  generalize l.fresh batch = fresh at hknown
  cases fresh with
  | nil => exact .nil _
  | cons e rest =>
    have hle := h.known_le hlow hlast hbatch hknown hsame
    have hnum := (numbered_parts (hknown ▸ hbatch)).2
    have hlength : l.snapshotIndex + (l.below e.index).length = q + known.length := by
      have hindex := hnum.head
      have htotal := h.lastIndex
      rw [below, h.numbered.filter_below, List.length_take]
      lia
    rwa [hlength]

theorem WellFormed.numbered_merged : NumberedFrom l.snapshotIndex (l.merged batch) :=
  h.numbered_retained.append (h.numbered_fresh hlow hlast hbatch)

/-- The log reaches as far as the batch. -/
theorem WellFormed.reach (h' : l'.snapshotIndex = l.snapshotIndex) (hentries : l'.entries = l.merged batch) :
    q + batch.length ≤ l'.lastIndex := by
  have hnum := h.numbered_merged hlow hlast hbatch
  rw [lastIndex_of_numbered (by rwa [h', hentries]), h', hentries]
  rcases List.eq_nil_or_concat' batch with rfl | ⟨front, e, rfl⟩
  · have htotal := h.lastIndex
    rw [show l.merged [] = l.entries from List.append_nil _, List.length_nil]
    lia
  · have hindex : e.index = q + 1 + front.length := hbatch front.length e (by simp)
    obtain ⟨a, ha, hsame, -⟩ := h.exists_merged hbatch (e := e) (by simp) (by lia)
    have hle := (hnum.mem_index ha).2
    rw [List.length_append, List.length_singleton]
    lia

end

/-! ## What the log loses -/

theorem WellFormed.below_of_lt (h : l.WellFormed) (hi : l.lastIndex < i) : l.below i = l.entries := by
  apply List.filter_eq_self.mpr
  intro a ha
  have hlast := (h.numbered.mem_index ha).2
  rw [← h.lastIndex] at hlast
  exact decide_eq_true (hlast.trans_lt hi)

variable [LogStore σ] {Holds : σ → Persisted → Prop} {p : Persisted}

theorem wp_onStore_obliging (hstore : Obliging Holds) (hp : Holds l.store p) {w : Write} (hw : w.Issued p)
    {Q : Unit → Log σ → Prop} {E : Fault NodeError → Log σ → Prop}
    (hQ : ∀ s, Holds s (w.change p) → Q () { l with store := s }) : wp (onStore w.perform) Q E l := by
  rw [onStore, Action.wp_within]
  exact Action.wp_mono (hstore.perform hp hw) (fun _ s hs => hQ s hs) fun _ _ => False.elim

/-- What is not committed is cut off, in the log and in its store. -/
theorem wp_truncateFrom_obliging (hstore : Obliging Holds) (h : l.WellFormed) (hb : l.Backed Holds p)
    (hlow : l.snapshotIndex < i) (hlast : i ≤ l.lastIndex) :
    wp (truncateFrom i)
      (fun _ l' => l.commitIndex < i ∧ ∃ s, l' = { l with store := s, entries := l.below i } ∧
        Holds s { p with entries := l.below i })
      (fun f l' => l' = l ∧ i ≤ l.commitIndex ∧ f = .error (.committedConflict i l.commitIndex)) l := by
  have hfits := h.fits
  rw [truncateFrom, Action.wp_bind, Action.wp_get, Action.wp_ite]
  split
  · rename_i hcommitted
    exact ⟨rfl, hcommitted, rfl⟩
  · rename_i hfree
    simp only [Action.wp_bind, Action.wp_sub, Action.wp_add, Action.wp_modify]
    refine wp_onStore_obliging hstore hb.holds (w := .truncate i) trivial ?_
    intro s hs
    rw [if_pos hlast, if_pos (by lia)]
    refine ⟨not_le.mp hfree, s, ?_, ?_⟩
    · rw [below, h.numbered.filter_below]
    · rw [below, ← hb.entries]
      exact hs

omit [LogStore σ] in
theorem contested?_cons (hfresh : l.fresh batch = e :: rest) :
    l.contested? batch = if (l.entry? e.index).isSome ∧ e.index ≤ l.commitIndex then some e else none := by
  simp [contested?, hfresh, Option.filter]

/-- What the log has is passed over. -/
theorem wp_dropKnown_append (hknown : ∀ e ∈ known, l.termAt? e.index = some e.term) (rest : List Entry)
    {Q : List Entry → Log σ → Prop} {E : Fault NodeError → Log σ → Prop} :
    wp (dropKnown (known ++ rest)) Q E l ↔ wp (dropKnown rest) Q E l := by
  induction known with
  | nil => rfl
  | cons e known ih =>
    obtain ⟨he, hrest⟩ := List.forall_mem_cons.mp hknown
    rw [List.cons_append, dropKnown, Action.wp_bind, Action.wp_get, he]
    dsimp only
    rw [if_pos rfl]
    exact ih hrest

/-- At an entry that differs the log is cut, unless what it would lose is committed. -/
theorem wp_dropKnown_differs (hstore : Obliging Holds) (h : l.WellFormed) (hb : l.Backed Holds p)
    (he : l.differs e = true) (rest : List Entry) :
    wp (dropKnown (e :: rest))
      (fun fresh l' => fresh = e :: rest ∧ ¬ ((l.entry? e.index).isSome ∧ e.index ≤ l.commitIndex) ∧
        ∃ s, l' = { l with store := s, entries := l.below e.index } ∧ Holds s { p with entries := l.below e.index })
      (fun f l' => l' = l ∧ ((l.entry? e.index).isSome ∧ e.index ≤ l.commitIndex) ∧
        f = .error (.committedConflict e.index l.commitIndex)) l := by
  have hlow := lt_of_differs he
  rw [dropKnown, Action.wp_bind, Action.wp_get, termAt?_of_lt hlow]
  cases hentry : l.entry? e.index with
  | none =>
    have habsent : l.lastIndex < e.index := by
      by_contra hnot
      have hsome := (termAt?_isSome_of_numbered h.numbered).mpr ⟨hlow.le, not_lt.mp hnot⟩
      rw [termAt?_of_lt hlow, hentry] at hsome
      cases hsome
    rw [h.below_of_lt habsent]
    refine ⟨rfl, by simp, l.store, rfl, ?_⟩
    rw [← hb.entries]
    exact hb.holds
  | some a =>
    obtain ⟨hmem, hindex⟩ := (entry?_of_numbered h.numbered).mp hentry
    have hlast := (h.numbered.mem_index hmem).2
    rw [← h.lastIndex, hindex] at hlast
    have hterm : a.term ≠ e.term := by
      rw [differs, hentry] at he
      simpa using (Bool.and_eq_true_iff.mp he).2
    dsimp only [Option.map_some]
    rw [if_neg hterm, Action.wp_bind]
    refine Action.wp_mono (wp_truncateFrom_obliging hstore h hb hlow hlast) ?_ ?_
    · rintro - l' ⟨hfree, hcut⟩
      exact ⟨rfl, fun hcommitted => not_le.mpr hfree hcommitted.2, hcut⟩
    · rintro f _ ⟨rfl, hcommitted, rfl⟩
      exact ⟨rfl, ⟨rfl, hcommitted⟩, rfl⟩

theorem wp_dropKnown_obliging (hstore : Obliging Holds) (h : l.WellFormed) (hb : l.Backed Holds p)
    (hbehind : ∀ e ∈ batch, l.snapshotIndex < e.index) :
    wp (dropKnown batch)
      (fun fresh l' => fresh = l.fresh batch ∧ l.contested? batch = none ∧ CutFor Holds l p batch l')
      (fun f l' => l' = l ∧ l.Contests batch f) l := by
  obtain ⟨known, hknown, hsame, hdiffers⟩ := l.exists_known batch
  have hheld : ∀ e ∈ known, l.termAt? e.index = some e.term := by
    intro e he
    exact termAt?_of_not_differs (hsame e he) (hbehind e (hknown ▸ List.mem_append_left _ he))
  have hskip (Q : List Entry → Log σ → Prop) (E : Fault NodeError → Log σ → Prop) :
      wp (dropKnown batch) Q E l ↔ wp (dropKnown (l.fresh batch)) Q E l := by
    have happend := wp_dropKnown_append hheld (l.fresh batch) (Q := Q) (E := E)
    rwa [← hknown] at happend
  rw [hskip]
  cases hfresh : l.fresh batch with
  | nil =>
    have hretained : l.retained batch = l.entries := by rw [retained, hfresh]
    refine ⟨rfl, by rw [contested?, hfresh]; rfl, ?_, ?_, fun _ => rfl⟩
    · rw [hretained]
    · rw [hretained, ← hb.entries]
      exact hb.holds
  | cons e rest =>
    have hretained : l.retained batch = l.below e.index := by rw [retained, hfresh]
    refine Action.wp_mono (wp_dropKnown_differs hstore h hb (hdiffers e rest hfresh) rest) ?_ ?_
    · rintro _ _ ⟨rfl, hfree, s, rfl, hs⟩
      rw [← hretained] at hs ⊢
      refine ⟨rfl, ?_, rfl, hs, ?_⟩
      · rw [contested?_cons hfresh, if_neg hfree]
      · intro hnil
        rw [hfresh] at hnil
        cases hnil
    · rintro _ _ ⟨rfl, hcommitted, rfl⟩
      exact ⟨rfl, .committed e (by rw [contested?_cons hfresh, if_pos hcommitted])⟩

/-! ## Taking a batch over -/

omit [LogStore σ] in
/-- The commit index follows the leader's as far as the batch reaches. -/
theorem wp_raise {leaderCommit : Index} (hlast : i ≤ l.lastIndex) {Q : Index → Log σ → Prop}
    {E : Fault NodeError → Log σ → Prop} (hQ : Q i { l with commitIndex := max l.commitIndex (min leaderCommit i) }) :
    wp (do
        if (← get).commitIndex < min leaderCommit i then setCommitIndex (min leaderCommit i)
        pure i : LogAction σ Index) Q E l := by
  simp only [Action.wp_bind, Action.wp_get, Action.wp_ite, Action.wp_pure, setCommitIndex, Action.wp_require,
    Action.wp_set]
  split
  · rename_i hnew
    rw [max_eq_right hnew.le] at hQ
    rwa [if_pos (by lia), min_eq_left (by lia)]
  · rwa [max_eq_left (by lia)] at hQ

section

variable (h : l.WellFormed) (hlow : l.snapshotIndex ≤ q) (hlast : q ≤ l.lastIndex) (hbatch : NumberedFrom q batch)

include h hlow hlast hbatch

omit [LogStore σ] in
theorem WellFormed.issued_fresh (hb : l.Backed Holds p) (hfits : ∀ e ∈ batch, LawfulWire.Fits e) :
    Write.Issued { p with entries := l.retained batch } (.append (l.fresh batch)) := by
  have hsound : Persisted.Sound { p with entries := l.retained batch } := by
    change NumberedFrom p.covered (l.retained batch)
    rw [hb.covered]
    exact h.numbered_retained
  refine ⟨?_, fun e he => hfits e ((List.dropWhile_sublist _).mem he)⟩
  rw [hsound.lastIndex]
  change NumberedFrom (p.covered + (l.retained batch).length) (l.fresh batch)
  rw [hb.covered]
  exact h.numbered_fresh hlow hlast hbatch

omit [LogStore σ] in
theorem WellFormed.takesOver {lastNew leaderCommit : Index} {s : σ} (hs : Holds s { p with entries := l.merged batch })
    (hidle : l.fresh batch = [] → s = l.store) :
    TakesOver Holds l p batch lastNew leaderCommit { l with
      store := s, entries := l.merged batch, commitIndex := max l.commitIndex (min leaderCommit lastNew) } := by
  refine ⟨rfl, hs, hidle, ?_⟩
  intro e he hbehind
  obtain ⟨a, ha, hindex, hterm⟩ := h.exists_merged hbatch he hbehind
  rw [← hindex, ← hterm]
  exact termAt?_of_mem (h.numbered_merged hlow hlast hbatch) ha

theorem wp_merge_obliging (hstore : Obliging Holds) (hb : l.Backed Holds p)
    (hfits : ∀ e ∈ batch, LawfulWire.Fits e) {lastNew : Index} (hreach : lastNew ≤ q + batch.length)
    (leaderCommit : Index) :
    wp (merge batch lastNew leaderCommit)
      (fun n l' => n = lastNew ∧ l.contested? batch = none ∧ TakesOver Holds l p batch lastNew leaderCommit l')
      (fun f l' => l' = l ∧ l.Contests batch f) l := by
  have hbehind : ∀ e ∈ batch, l.snapshotIndex < e.index := by
    intro e he
    exact hlow.trans_lt (hbatch.mem_index he).1
  rw [merge, Action.wp_bind]
  refine Action.wp_imp (wp_dropKnown_obliging hstore h hb hbehind) ?_
  rintro _ cut ⟨rfl, hfree, hcut, hs, hidle⟩
  obtain ⟨s, rfl⟩ : ∃ s, cut = { l with store := s, entries := l.retained batch } := ⟨cut.store, hcut⟩
  have hend (t : σ) : lastNew ≤ lastIndex { l with store := t, entries := l.merged batch } :=
    hreach.trans (h.reach hlow hlast hbatch rfl rfl)
  by_cases hnil : l.fresh batch = []
  · have hmerged : l.merged batch = l.retained batch := by rw [merged, hnil, List.append_nil]
    rw [hnil, ← hmerged]
    rw [← hmerged] at hs
    exact wp_raise (hend s) ⟨rfl, hfree, h.takesOver hlow hlast hbatch hs hidle⟩
  · rw [if_pos (by simpa using hnil), Action.wp_bind]
    refine wp_onStore_obliging hstore hs (h.issued_fresh hlow hlast hbatch hb hfits) ?_
    intro t ht
    exact wp_raise (hend t) ⟨rfl, hfree, h.takesOver hlow hlast hbatch ht fun h => (hnil h).elim⟩

end

/-! ## What the snapshot covers of a batch -/

section

variable {prevIndex : Index} (hbatch : NumberedFrom prevIndex batch) (hprev : prevIndex < l.snapshotIndex)

include hbatch hprev

omit [LogStore σ]

theorem covered_of_mem_take (he : e ∈ batch.take (l.snapshotIndex - prevIndex)) : e.index ≤ l.snapshotIndex := by
  have hindex := ((hbatch.take _).mem_index he).2
  rw [List.length_take] at hindex
  lia

theorem numbered_uncovered : NumberedFrom l.snapshotIndex (batch.drop (l.snapshotIndex - prevIndex)) := by
  have hdrop := hbatch.drop (l.snapshotIndex - prevIndex)
  rwa [show prevIndex + (l.snapshotIndex - prevIndex) = l.snapshotIndex by lia] at hdrop

theorem fresh_uncovered : l.fresh (batch.drop (l.snapshotIndex - prevIndex)) = l.fresh batch := by
  conv_rhs => rw [← List.take_append_drop (l.snapshotIndex - prevIndex) batch]
  rw [fresh, fresh, List.dropWhile_append_of_pos]
  intro e he
  rw [not_differs_of_covered (covered_of_mem_take hbatch hprev he)]
  rfl

theorem TakesOver.of_uncovered {lastNew leaderCommit : Index}
    (h : TakesOver Holds l p (batch.drop (l.snapshotIndex - prevIndex)) lastNew leaderCommit l') :
    TakesOver Holds l p batch lastNew leaderCommit l' := by
  have hfresh := fresh_uncovered hbatch hprev
  have hmerged : l.merged (batch.drop (l.snapshotIndex - prevIndex)) = l.merged batch := by
    simp only [merged, retained, hfresh]
  refine ⟨hmerged ▸ h.log, hmerged ▸ h.store, fun hnil => h.idle (hfresh.trans hnil), ?_⟩
  intro e he hlow
  rw [← List.take_append_drop (l.snapshotIndex - prevIndex) batch] at he
  rcases List.mem_append.mp he with he | he
  · exact absurd (covered_of_mem_take hbatch hprev he) (not_le.mpr hlow)
  · exact h.terms e he hlow

end

/-- Passing over what the snapshot covers makes no difference. -/
theorem wp_merge_uncovered (hstore : Obliging Holds) (h : l.WellFormed) (hb : l.Backed Holds p)
    {prevIndex : Index} (hbatch : NumberedFrom prevIndex batch) (hfits : ∀ e ∈ batch, LawfulWire.Fits e)
    (hprev : prevIndex < l.snapshotIndex) (leaderCommit : Index) :
    wp (merge (batch.drop (l.snapshotIndex - prevIndex)) (prevIndex + batch.length) leaderCommit)
      (fun n l' => n = prevIndex + batch.length ∧ l.contested? batch = none ∧
        TakesOver Holds l p batch (prevIndex + batch.length) leaderCommit l')
      (fun f l' => l' = l ∧ l.Contests batch f) l := by
  have hcontested : l.contested? (batch.drop (l.snapshotIndex - prevIndex)) = l.contested? batch := by
    rw [contested?, fresh_uncovered hbatch hprev, ← contested?]
  have hreach : prevIndex + batch.length ≤
      l.snapshotIndex + (batch.drop (l.snapshotIndex - prevIndex)).length := by
    rw [List.length_drop]
    lia
  refine Action.wp_mono (wp_merge_obliging h le_rfl (h.compacted.trans h.committed)
    (numbered_uncovered hbatch hprev) hstore hb (fun e he => hfits e (List.mem_of_mem_drop he)) hreach leaderCommit)
    ?_ ?_
  · rintro n l' ⟨rfl, hfree, htaken⟩
    exact ⟨rfl, hcontested ▸ hfree, htaken.of_uncovered hbatch hprev⟩
  · rintro _ _ ⟨rfl, e, he⟩
    exact ⟨rfl, .committed e (hcontested ▸ he)⟩

/-! ## Every ending -/

section

variable (hstore : Obliging Holds) (h : l.WellFormed) (hb : l.Backed Holds p) {prevIndex : Index}
  (hbatch : NumberedFrom prevIndex batch) (hterms : ∀ e ∈ batch, e.term < wordLimit)
  (hroom : prevIndex + batch.length < wordLimit) (prevTerm : Term) (leaderCommit : Index)

include hstore h hb hbatch hterms hroom

theorem wp_reconcile_obliging :
    wp (reconcile prevIndex prevTerm batch leaderCommit)
      (fun n l' => n = prevIndex + batch.length ∧ ¬ l.Refuses prevIndex prevTerm ∧ l.contested? batch = none ∧
        TakesOver Holds l p batch (prevIndex + batch.length) leaderCommit l')
      (fun f l' => l' = l ∧ l.Declines prevIndex prevTerm batch f) l := by
  have hfits : ∀ e ∈ batch, LawfulWire.Fits e := by
    intro e he
    exact ⟨(hbatch.mem_index he).2.trans_lt hroom, hterms e he⟩
  have hrefuses : ∀ {term}, l.termAt? prevIndex = some term → term ≠ prevTerm → l.Refuses prevIndex prevTerm := by
    intro term hterm hother
    refine ⟨((termAt?_isSome_of_numbered h.numbered).mp (by rw [hterm]; rfl)).1, ?_⟩
    rw [hterm]
    exact fun heq => hother (Option.some.inj heq)
  apply wp_reconcile_cases
  case hfull => exact fun hfull => absurd hroom (not_lt.mpr hfull)
  case hcovered =>
    intro hprev
    have hpass : ¬ l.Refuses prevIndex prevTerm := fun hrefuses => not_le.mpr hprev hrefuses.1
    refine Action.wp_mono (wp_merge_uncovered hstore h hb hbatch hfits hprev leaderCommit) ?_ ?_
    · rintro n l' ⟨rfl, hfree, htaken⟩
      exact ⟨rfl, hpass, hfree, htaken⟩
    · rintro f _ ⟨rfl, hcontests⟩
      exact ⟨rfl, .contested hpass f hcontests⟩
  case habsent =>
    intro hlow hnone
    have hne : prevIndex ≠ l.snapshotIndex := by
      rintro rfl
      rw [termAt?_snapshot] at hnone
      cases hnone
    exact ⟨rfl, .refused ⟨hlow, by rw [hnone]; simp⟩ (by lia) l.lastIndex⟩
  case hmatches =>
    intro hterm
    obtain ⟨hlow, hlast⟩ := (termAt?_isSome_of_numbered h.numbered).mp (by rw [hterm]; rfl)
    have hpass : ¬ l.Refuses prevIndex prevTerm := fun hrefuses => hrefuses.2 hterm
    refine Action.wp_mono (wp_merge_obliging h hlow hlast hbatch hstore hb hfits le_rfl leaderCommit) ?_ ?_
    · rintro n l' ⟨rfl, hfree, htaken⟩
      exact ⟨rfl, hpass, hfree, htaken⟩
    · rintro f _ ⟨rfl, hcontests⟩
      exact ⟨rfl, .contested hpass f hcontests⟩
  case hdiffers => exact fun term hterm hother hfit => ⟨rfl, .refused (hrefuses hterm hother) hfit _⟩
  case hunhinted =>
    exact fun term hterm hother hfull => ⟨rfl, .full (hrefuses hterm hother) (not_lt.mpr hfull)⟩

theorem reconcile_of_refuses (hrefuses : l.Refuses prevIndex prevTerm) :
    if l.snapshotIndex + 1 < wordLimit then
      ∃ hint, reconcile prevIndex prevTerm batch leaderCommit l = .error (.error (.logConflict prevIndex hint)) l
    else reconcile prevIndex prevTerm batch leaderCommit l = .error .abort l := by
  have hall := wp_reconcile_obliging hstore h hb hbatch hterms hroom prevTerm leaderCommit
  cases hrun : reconcile prevIndex prevTerm batch leaderCommit l with
  | ok n l' =>
    obtain ⟨-, hpass, -⟩ := Action.wp_ok hall hrun
    exact (hpass hrefuses).elim
  | error f l' =>
    obtain ⟨rfl, hdeclines⟩ := Action.wp_error hall hrun
    cases hdeclines with
    | refused _ hfit hint =>
      rw [if_pos hfit]
      exact ⟨hint, rfl⟩
    | full _ hfull => rw [if_neg hfull]
    | contested hpass => exact (hpass hrefuses).elim

theorem reconcile_of_contested (hpass : ¬ l.Refuses prevIndex prevTerm) (he : l.contested? batch = some e) :
    reconcile prevIndex prevTerm batch leaderCommit l =
      .error (.error (.committedConflict e.index l.commitIndex)) l := by
  have hall := wp_reconcile_obliging hstore h hb hbatch hterms hroom prevTerm leaderCommit
  cases hrun : reconcile prevIndex prevTerm batch leaderCommit l with
  | ok n l' =>
    obtain ⟨-, -, hfree, -⟩ := Action.wp_ok hall hrun
    rw [he] at hfree
    cases hfree
  | error f l' =>
    obtain ⟨rfl, hdeclines⟩ := Action.wp_error hall hrun
    rcases hdeclines with ⟨hrefuses, -, -⟩ | ⟨hrefuses, -⟩ | ⟨-, f, ⟨e', he'⟩⟩
    · exact (hpass hrefuses).elim
    · exact (hpass hrefuses).elim
    · rw [he] at he'
      rw [Option.some.inj he']

theorem reconcile_of_free (hpass : ¬ l.Refuses prevIndex prevTerm) (hfree : l.contested? batch = none) :
    ∃ l', reconcile prevIndex prevTerm batch leaderCommit l = .ok (prevIndex + batch.length) l' ∧
      TakesOver Holds l p batch (prevIndex + batch.length) leaderCommit l' := by
  have hall := wp_reconcile_obliging hstore h hb hbatch hterms hroom prevTerm leaderCommit
  cases hrun : reconcile prevIndex prevTerm batch leaderCommit l with
  | ok n l' =>
    obtain ⟨rfl, -, -, htaken⟩ := Action.wp_ok hall hrun
    exact ⟨l', rfl, htaken⟩
  | error f l' =>
    obtain ⟨rfl, hdeclines⟩ := Action.wp_error hall hrun
    rcases hdeclines with ⟨hrefuses, -, -⟩ | ⟨hrefuses, -⟩ | ⟨-, f, ⟨e, he⟩⟩
    · exact (hpass hrefuses).elim
    · exact (hpass hrefuses).elim
    · rw [hfree] at he
      cases he

end

/-- A batch is refused, it contests what is committed, or it is taken over. Which of these it is, and what the log
becomes, follows from the log and the batch alone. -/
theorem reconcile_outcome (hstore : Obliging Holds) (h : l.WellFormed) (hb : l.Backed Holds p)
    {prevIndex : Index} (hbatch : NumberedFrom prevIndex batch) (hterms : ∀ e ∈ batch, e.term < wordLimit)
    (hroom : prevIndex + batch.length < wordLimit) (prevTerm : Term) (leaderCommit : Index) :
    ((∃ i hint l', reconcile prevIndex prevTerm batch leaderCommit l = .error (.error (.logConflict i hint)) l') ↔
      l.Refuses prevIndex prevTerm ∧ l.snapshotIndex + 1 < wordLimit) ∧
    (l.Refuses prevIndex prevTerm →
      if l.snapshotIndex + 1 < wordLimit then
        ∃ hint, reconcile prevIndex prevTerm batch leaderCommit l = .error (.error (.logConflict prevIndex hint)) l
      else reconcile prevIndex prevTerm batch leaderCommit l = .error .abort l) ∧
    (¬ l.Refuses prevIndex prevTerm → ∀ e, l.contested? batch = some e →
      reconcile prevIndex prevTerm batch leaderCommit l =
        .error (.error (.committedConflict e.index l.commitIndex)) l) ∧
    (¬ l.Refuses prevIndex prevTerm → l.contested? batch = none →
      ∃ l', reconcile prevIndex prevTerm batch leaderCommit l = .ok (prevIndex + batch.length) l' ∧
        TakesOver Holds l p batch (prevIndex + batch.length) leaderCommit l') := by
  refine ⟨?_, reconcile_of_refuses hstore h hb hbatch hterms hroom prevTerm leaderCommit,
    fun hpass _ => reconcile_of_contested hstore h hb hbatch hterms hroom prevTerm leaderCommit hpass,
    reconcile_of_free hstore h hb hbatch hterms hroom prevTerm leaderCommit⟩
  constructor
  · rintro ⟨i, hint, l', hrun⟩
    have hall := wp_reconcile_obliging hstore h hb hbatch hterms hroom prevTerm leaderCommit
    obtain ⟨-, hdeclines⟩ := Action.wp_error hall hrun
    rcases hdeclines with ⟨hrefuses, hfit, -⟩ | - | ⟨-, -, ⟨⟩⟩
    exact ⟨hrefuses, hfit⟩
  · rintro ⟨hrefuses, hfit⟩
    have hrefused := reconcile_of_refuses hstore h hb hbatch hterms hroom prevTerm leaderCommit hrefuses
    rw [if_pos hfit] at hrefused
    obtain ⟨hint, hrun⟩ := hrefused
    exact ⟨prevIndex, hint, l, hrun⟩

/-- A snapshot of two entries and three more behind it, one of them committed. -/
def partlyCommitted : Log MemoryStore where
  store := { kept := { snapshot := some ⟨2, 1, [115]⟩, entries := [⟨3, 1, [97]⟩, ⟨4, 1, [98]⟩, ⟨5, 1, [99]⟩] } }
  entries := [⟨3, 1, [97]⟩, ⟨4, 1, [98]⟩, ⟨5, 1, [99]⟩]
  snapshotIndex := 2
  snapshotTerm := 1
  commitIndex := 3
  lastApplied := 3

/-- The batch begins inside the snapshot, agrees for one entry, and takes the place of the other two. -/
def overlapping : List Entry := [⟨2, 1, [120]⟩, ⟨3, 1, [97]⟩, ⟨4, 2, [100]⟩]

theorem reconcile_outcome_overlapping :
    partlyCommitted.WellFormed ∧ NumberedFrom 1 overlapping ∧ ¬ partlyCommitted.Refuses 1 1 ∧
    ∃ l', reconcile 1 1 overlapping 9 partlyCommitted = .ok 4 l' ∧
      l'.entries = [⟨3, 1, [97]⟩, ⟨4, 2, [100]⟩] ∧ l'.store.kept.entries = l'.entries ∧ l'.commitIndex = 4 ∧
      l'.termAt? 4 = some 2 := by
  have hnum : NumberedFrom 2 partlyCommitted.entries := .cons rfl (.cons rfl (.singleton 1 [99]))
  have hwell : partlyCommitted.WellFormed := ⟨hnum, by decide, by decide, by decide⟩
  have hbacked : Backed (fun s q => Reliable s ∧ kept s = q) partlyCommitted (kept partlyCommitted.store) :=
    ⟨⟨reliable_memory rfl, rfl⟩, rfl, rfl⟩
  have hbatch : NumberedFrom 1 overlapping := .cons rfl (.cons rfl (.singleton 2 [100]))
  have hpass : ¬ partlyCommitted.Refuses 1 1 := fun hrefuses => absurd hrefuses.1 (by decide)
  obtain ⟨-, -, -, htake⟩ := reconcile_outcome faithful_reliable.toObliging hwell hbacked hbatch (by decide)
    (by decide) 1 9
  obtain ⟨l', hrun, hlog, ⟨-, hkept⟩, -, hterms⟩ := htake hpass (by decide)
  refine ⟨hwell, hbatch, hpass, l', hrun, ?_, ?_, ?_, hterms ⟨4, 2, [100]⟩ (by decide) (by decide)⟩
  · rw [hlog]
    change partlyCommitted.merged overlapping = _
    decide
  · rw [show l'.store.kept = _ from hkept, hlog]
  · rw [hlog]
    rfl

/-- Nothing but a snapshot, as far out as an index goes. -/
def outermost : Log MemoryStore where
  store := { kept := { snapshot := some ⟨wordLimit - 1, 1, [115]⟩ } }
  snapshotIndex := wordLimit - 1
  snapshotTerm := 1
  commitIndex := wordLimit - 1
  lastApplied := wordLimit - 1

/-- There the log refuses a batch and yet does not say that it does. -/
theorem refusal_aborts_outermost :
    outermost.WellFormed ∧ outermost.Backed (fun s q => Reliable s ∧ kept s = q) (kept outermost.store) ∧
    NumberedFrom (wordLimit - 1) [] ∧ outermost.Refuses (wordLimit - 1) 2 ∧
    reconcile (wordLimit - 1) 2 [] 0 outermost = .error .abort outermost := by
  have hwell : outermost.WellFormed := ⟨.nil _, by decide, by decide, by decide⟩
  exact ⟨hwell, ⟨⟨reliable_memory rfl, rfl⟩, rfl, rfl⟩, .nil _, ⟨le_rfl, by decide⟩, rfl⟩

end RaftNode.Log
