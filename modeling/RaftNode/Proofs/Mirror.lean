import RaftNode.Proofs.LogOperations
/-!
# The two copies of a log

A log holds its entries in memory and in its store, and each copy is cut and extended by an arithmetic of its own.
Here the log may be told anything that is numbered consistently; no leader's log stands behind it, and terms mean
nothing. Writes may begin to fail at any point.
-/
namespace RaftNode

/-- The entry at position `k` has index `s + 1 + k`. -/
def NumberedFrom (s : Index) (F : List Entry) : Prop := ∀ k e, F[k]? = some e → e.index = s + 1 + k

namespace NumberedFrom

variable {F G : List Entry} {e : Entry} {s i : Index} {n : Nat}

theorem nil (s : Index) : NumberedFrom s [] := by
  intro k e he
  simp at he

theorem head (h : NumberedFrom s (e :: F)) : e.index = s + 1 := h 0 e rfl

theorem tail (h : NumberedFrom s (e :: F)) : NumberedFrom (s + 1) F := by
  intro k a ha
  have := h (k + 1) a ha
  lia

theorem cons (he : e.index = s + 1) (h : NumberedFrom (s + 1) F) : NumberedFrom s (e :: F) := by
  rintro (_ | k) a ha
  · cases ha
    exact he
  · have := h k a ha
    lia

theorem append (h : NumberedFrom s F) (hG : NumberedFrom (s + F.length) G) :
    NumberedFrom s (F ++ G) := by
  intro k e he
  by_cases hk : k < F.length
  · rw [List.getElem?_append_left hk] at he
    exact h k e he
  · rw [List.getElem?_append_right (by lia)] at he
    have := hG _ e he
    lia

theorem singleton (t : Term) (c : Bytes) : NumberedFrom s [⟨s + 1, t, c⟩] := by
  intro k e he
  obtain ⟨rfl, rfl⟩ : k = 0 ∧ (⟨s + 1, t, c⟩ : Entry) = e := by
    cases k with
    | zero => simpa using he
    | succ k => simp at he
  rfl

theorem take (h : NumberedFrom s F) (n : Nat) : NumberedFrom s (F.take n) := by
  intro k e he
  have hk := (List.getElem?_eq_some_iff.mp he).1
  rw [List.length_take] at hk
  rw [List.getElem?_take_of_lt (by lia)] at he
  exact h k e he

theorem drop (h : NumberedFrom s F) (n : Nat) : NumberedFrom (s + n) (F.drop n) := by
  intro k e he
  rw [List.getElem?_drop] at he
  have := h _ e he
  lia

theorem mem_index (h : NumberedFrom s F) (he : e ∈ F) : s < e.index ∧ e.index ≤ s + F.length := by
  obtain ⟨k, hk⟩ := List.mem_iff_getElem?.mp he
  have hlt := (List.getElem?_eq_some_iff.mp hk).1
  have := h k e hk
  lia

/-- What a store keeps below an index. -/
theorem filter_below (h : NumberedFrom s F) (i : Index) :
    F.filter (fun e => e.index < i) = F.take (i - s - 1) := by
  induction F generalizing s with
  | nil => simp
  | cons a F ih =>
    have hrest := ih h.tail
    by_cases hlt : a.index < i
    · rw [h.head] at hlt
      rw [List.filter_cons_of_pos (by simpa [h.head] using hlt), hrest,
        show i - s - 1 = i - (s + 1) - 1 + 1 by lia, List.take_succ_cons]
    · rw [h.head] at hlt
      rw [List.filter_cons_of_neg (by simpa [h.head] using hlt), hrest,
        show i - s - 1 = 0 by lia, show i - (s + 1) - 1 = 0 by lia, List.take_zero, List.take_zero]

/-- What a store keeps above an index. -/
theorem filter_above (h : NumberedFrom s F) (i : Index) :
    F.filter (fun e => i < e.index) = F.drop (i - s) := by
  induction F generalizing s with
  | nil => simp
  | cons a F ih =>
    have hrest := ih h.tail
    by_cases hlt : i < a.index
    · have hi := hlt
      rw [h.head] at hi
      rw [List.filter_cons_of_pos (by simpa using hlt), hrest, show i - (s + 1) = 0 by lia,
        show i - s = 0 by lia, List.drop_zero, List.drop_zero]
    · have hi := hlt
      rw [h.head] at hi
      rw [List.filter_cons_of_neg (by simpa using hlt), hrest,
        show i - s = i - (s + 1) + 1 by lia, List.drop_succ_cons]

end NumberedFrom

namespace Log

open RaftNode.Action (wp)

/-! ## Numbered entries -/

section

variable {σ : Type} {l : Log σ} {i : Index} {e : Entry}

theorem lastIndex_of_numbered (h : NumberedFrom l.snapshotIndex l.entries) :
    l.lastIndex = l.snapshotIndex + l.entries.length := by
  rw [Log.lastIndex]
  rcases List.eq_nil_or_concat' l.entries with hnil | ⟨init, e, hcat⟩
  · simp [hnil]
  · have := h init.length e (by simp [hcat])
    simp [hcat]
    lia

theorem getElem?_of_entry? (h : l.entry? i = some e) :
    l.snapshotIndex < i ∧ l.entries[i - l.snapshotIndex - 1]? = some e := by
  rw [Log.entry?] at h
  split at h
  · cases h
  · exact ⟨by lia, h⟩

theorem entry?_of_numbered (h : NumberedFrom l.snapshotIndex l.entries) :
    l.entry? i = some e ↔ e ∈ l.entries ∧ e.index = i := by
  constructor
  · intro hentry
    obtain ⟨hi, he⟩ := getElem?_of_entry? hentry
    have := h _ e he
    exact ⟨List.mem_of_getElem? he, by lia⟩
  · rintro ⟨he, rfl⟩
    have hi := h.mem_index he
    obtain ⟨k, hk⟩ := List.mem_iff_getElem?.mp he
    have := h k e hk
    rw [Log.entry?, if_neg (by lia), show e.index - l.snapshotIndex - 1 = k by lia, hk]

/-- Nothing is found only outside the log. -/
theorem termAt?_isSome_of_numbered (h : NumberedFrom l.snapshotIndex l.entries) :
    (l.termAt? i).isSome ↔ l.snapshotIndex ≤ i ∧ i ≤ l.lastIndex := by
  rw [Log.termAt?, lastIndex_of_numbered h]
  split
  · rename_i hi
    simp [hi]
  · rename_i hi
    rw [Option.isSome_map, Log.entry?]
    split
    · simp
      lia
    · simp
      lia

end

variable {σ : Type} [LogStore σ] [LawfulStore σ] [FailStop σ] {l : Log σ}

/-! ## The invariant -/

/-- A store that a log can be opened over. -/
structure Orderly (p : Persisted) : Prop where
  numbered : NumberedFrom p.covered p.entries
  fits : p.covered + p.entries.length + 1 < wordLimit

/-- The log in memory, and a store that holds a beginning of it. Once writes fail the store may hold less. -/
structure Mirrors (l : Log σ) : Prop where
  numbered : NumberedFrom l.snapshotIndex l.entries
  covered : (kept l.store).covered = l.snapshotIndex
  coveredTerm : (kept l.store).coveredTerm = l.snapshotTerm
  stored : (kept l.store).entries <+: l.entries
  behind : (kept l.store).entries = l.entries ∨ failed l.store
  compacted : l.snapshotIndex ≤ l.lastApplied
  applied : l.lastApplied ≤ l.commitIndex
  held : l.lastApplied ≤ l.snapshotIndex + l.entries.length
  fits : l.snapshotIndex + l.entries.length + 1 < wordLimit

/-- The store holds all of the log. -/
def Whole (l : Log σ) : Prop := (kept l.store).entries = l.entries

/-- How an operation leaves the two copies, whether it succeeds or fails. -/
structure Retains (l l' : Log σ) : Prop where
  mirrors : Mirrors l'
  whole : Whole l → Whole l'

/-- What an operation that fails leaves; it does not abort. -/
structure Fails (l : Log σ) (f : Fault NodeError) (l' : Log σ) : Prop extends Retains l l' where
  reported : f ≠ .abort

theorem Mirrors.retains (h : Mirrors l) : Retains l l := ⟨h, fun hw => hw⟩

theorem Retains.trans {l₁ l₂ l₃ : Log σ} (a : Retains l₁ l₂) (b : Retains l₂ l₃) : Retains l₁ l₃ :=
  ⟨b.mirrors, fun hw => b.whole (a.whole hw)⟩

theorem Fails.after {l₁ l₂ l₃ : Log σ} {f : Fault NodeError} (a : Retains l₁ l₂)
    (b : Fails l₂ f l₃) : Fails l₁ f l₃ :=
  ⟨a.trans b.toRetains, b.reported⟩

theorem Mirrors.fails (h : Mirrors l) (e : NodeError) : Fails l (.error e) l :=
  ⟨h.retains, by rintro ⟨⟩⟩

theorem Mirrors.lastIndex (h : Mirrors l) : l.lastIndex = l.snapshotIndex + l.entries.length :=
  lastIndex_of_numbered h.numbered

theorem Mirrors.entry? (h : Mirrors l) {i : Index} {e : Entry} :
    l.entry? i = some e ↔ e ∈ l.entries ∧ e.index = i :=
  entry?_of_numbered h.numbered

theorem Mirrors.termAt? (h : Mirrors l) {i : Index} {t : Term} : l.termAt? i = some t ↔
    i = l.snapshotIndex ∧ t = l.snapshotTerm ∨ ∃ e ∈ l.entries, e.index = i ∧ e.term = t := by
  rw [Log.termAt?]
  split
  · rename_i hi
    constructor
    · intro ht
      exact Or.inl ⟨hi, (Option.some.inj ht).symm⟩
    · rintro (⟨-, rfl⟩ | ⟨e, he, rfl, -⟩)
      · rfl
      · have := h.numbered.mem_index he
        lia
  · rename_i hi
    simp only [Option.map_eq_some_iff, h.entry?]
    constructor
    · rintro ⟨e, ⟨he, hei⟩, ht⟩
      exact Or.inr ⟨e, he, hei, ht⟩
    · rintro (⟨hi', -⟩ | ⟨e, he, hei, ht⟩)
      · exact absurd hi' hi
      · exact ⟨e, ⟨he, hei⟩, ht⟩

theorem Mirrors.termAt?_isSome (h : Mirrors l) {i : Index} :
    (l.termAt? i).isSome ↔ l.snapshotIndex ≤ i ∧ i ≤ l.lastIndex :=
  termAt?_isSome_of_numbered h.numbered

theorem Mirrors.entriesFrom (h : Mirrors l) {start : Index} (hs : l.snapshotIndex < start)
    (most : Nat) :
    l.entriesFrom start most = (l.entries.filter fun e => start ≤ e.index).take most := by
  have hfilter : (l.entries.filter fun e => start ≤ e.index) =
      l.entries.filter fun e => start - 1 < e.index := by
    refine List.filter_congr fun e he => ?_
    have := h.numbered.mem_index he
    simp
    lia
  rw [Log.entriesFrom, if_neg (by lia), hfilter, h.numbered.filter_above,
    show start - 1 - l.snapshotIndex = start - l.snapshotIndex - 1 by lia]

/-! ## Writing -/

/-- A write that succeeds finds the two copies equal. -/
theorem Mirrors.wp_write (h : Mirrors l) (w : Write) {Q : Unit → Log σ → Prop}
    {E : Fault NodeError → Log σ → Prop}
    (hok : ∀ s, Whole l → kept s = w.change (kept l.store) → Q () { l with store := s })
    (herr : ∀ f s, Fails l f { l with store := s } → E f { l with store := s }) :
    wp (onStore w.perform) Q E l := by
  rw [onStore, Action.wp_within]
  refine Action.wp_mono (FailStop.perform w l.store) ?_ ?_
  · rintro - s ⟨hlive, hs⟩
    exact hok s (h.behind.resolve_right hlive) hs
  · rintro f s ⟨hf, hfailed, hs⟩
    refine herr _ s ⟨⟨{ h with
      covered := hs ▸ h.covered
      coveredTerm := hs ▸ h.coveredTerm
      stored := hs ▸ h.stored
      behind := Or.inr hfailed }, fun hw => ?_⟩, ?_⟩
    · exact (congrArg Persisted.entries hs).trans hw
    · cases f
      · rintro ⟨⟩
      · exact absurd rfl hf

/-- Memory has followed the store. -/
theorem Retains.of_whole {l l' : Log σ} (hnum : NumberedFrom l'.snapshotIndex l'.entries)
    (hc : (kept l'.store).covered = l'.snapshotIndex)
    (ht : (kept l'.store).coveredTerm = l'.snapshotTerm) (hw : Whole l')
    (hcompacted : l'.snapshotIndex ≤ l'.lastApplied) (happlied : l'.lastApplied ≤ l'.commitIndex)
    (hheld : l'.lastApplied ≤ l'.snapshotIndex + l'.entries.length)
    (hfits : l'.snapshotIndex + l'.entries.length + 1 < wordLimit) : Retains l l' :=
  ⟨⟨hnum, hc, ht, hw ▸ List.prefix_refl _, Or.inl hw, hcompacted, happlied, hheld, hfits⟩,
    fun _ => hw⟩

/-! ## Growing -/

theorem Mirrors.wp_extend (h : Mirrors l) {es : List Entry} (hes : NumberedFrom l.lastIndex es)
    (hfits : l.lastIndex + es.length + 1 < wordLimit) {Q : Unit → Log σ → Prop}
    {E : Fault NodeError → Log σ → Prop}
    (hok : ∀ s, Retains l { l with store := s, entries := l.entries ++ es } →
      Q () { l with store := s })
    (herr : ∀ f s, Fails l f { l with store := s } → E f { l with store := s }) :
    wp (onStore (LogStore.append es)) Q E l := by
  rw [h.lastIndex] at hes hfits
  refine h.wp_write (.append es) (fun s hw hs => ?_) herr
  refine hok s (.of_whole (h.numbered.append hes) ?_ ?_ ?_ h.compacted h.applied ?_ ?_)
  · rw [hs]
    exact h.covered
  · rw [hs]
    exact h.coveredTerm
  · rw [Whole, hs]
    exact congrArg (· ++ es) hw
  · have := h.held
    simp only [List.length_append]
    lia
  · simp only [List.length_append]
    lia

theorem Mirrors.wp_appendAsLeader (h : Mirrors l) (term : Term) (command : Bytes)
    (hroom : l.lastIndex + 2 < wordLimit) :
    wp (appendAsLeader term command) (fun _ l' => Retains l l') (Fails l) l := by
  simp only [appendAsLeader, Action.wp_bind, Action.wp_get, Action.wp_add, Action.wp_modify,
    Action.wp_pure]
  rw [if_pos (by lia)]
  refine h.wp_extend (.singleton term command) ?_ (fun s hr => hr) fun f s hf => hf
  simp
  lia

theorem Mirrors.wp_setCommitIndex (h : Mirrors l) {i : Index} (hi : i ≤ l.lastIndex)
    {Q : Unit → Log σ → Prop} {E : Fault NodeError → Log σ → Prop}
    (hok : ∀ c, Retains l { l with commitIndex := c } → Q () { l with commitIndex := c }) :
    wp (setCommitIndex i) Q E l := by
  simp only [setCommitIndex, Action.wp_bind, Action.wp_get, Action.wp_require, Action.wp_ite,
    Action.wp_set, Action.wp_pure, if_pos hi]
  split
  · refine hok _ ⟨{ h with applied := ?_ }, fun hw => hw⟩
    have := h.applied
    dsimp only
    lia
  · exact hok l.commitIndex h.retains

theorem Mirrors.wp_nextCommitted (h : Mirrors l) :
    wp (nextCommitted : LogAction σ (Option Entry)) (fun _ l' => Retains l l') (Fails l) l := by
  have hheld := h.held
  have hfits := h.fits
  simp only [nextCommitted, Action.wp_bind, Action.wp_get, Action.wp_ite, Action.wp_pure,
    Action.wp_add]
  split
  · exact h.retains
  · rename_i hless
    rw [if_pos (by lia)]
    split
    · exact h.retains
    · rename_i e he
      obtain ⟨hmem, hindex⟩ := h.entry?.mp he
      have := h.numbered.mem_index hmem
      have := h.compacted
      rw [Action.wp_bind, Action.wp_set]
      exact ⟨{ h with
        compacted := by dsimp only; lia
        applied := by dsimp only; lia
        held := by dsimp only; lia }, fun hw => hw⟩

/-! ## Following -/

/-- How a log is left when its entries from an index on are gone. -/
structure Cut (l : Log σ) (i : Index) (l' : Log σ) : Prop extends Retains l l' where
  last : l'.lastIndex + 1 = i
  snapshot : l'.snapshotIndex = l.snapshotIndex

theorem Mirrors.wp_truncateFrom (h : Mirrors l) {i : Index} (hlow : l.snapshotIndex < i)
    (hi : i ≤ l.lastIndex) : wp (truncateFrom i) (fun _ l' => Cut l i l') (Fails l) l := by
  have hfits := h.fits
  have happlied := h.applied
  have hlast := h.lastIndex
  simp only [truncateFrom, Action.wp_bind, Action.wp_get, Action.wp_ite, Action.wp_fail,
    Action.wp_sub, Action.wp_add, Action.wp_modify]
  split
  · exact h.fails _
  rename_i hcommit
  refine h.wp_write (.truncate i) (fun s hw hs => ?_) fun f s hf => hf
  rw [if_pos (by lia)]
  have hlen : (l.entries.take (i - l.snapshotIndex - 1)).length = i - l.snapshotIndex - 1 := by
    rw [List.length_take]
    lia
  have hr : Retains l { l with store := s, entries := l.entries.take (i - l.snapshotIndex - 1) } := by
    refine .of_whole (h.numbered.take _) ?_ ?_ ?_ h.compacted h.applied ?_ ?_
    · rw [hs]
      exact h.covered
    · rw [hs]
      exact h.coveredTerm
    · rw [Whole, hs]
      change (kept l.store).entries.filter _ = _
      rw [hw, h.numbered.filter_below]
    · dsimp only
      lia
    · dsimp only
      lia
  refine ⟨hr, ?_, rfl⟩
  rw [hr.mirrors.lastIndex]
  dsimp only
  lia

/-- What is left of a batch follows the end of the log. -/
structure Trimmed (l : Log σ) (i : Index) (fresh : List Entry) (l' : Log σ) : Prop
    extends Retains l l' where
  numbered : NumberedFrom l'.lastIndex fresh
  reaches : i ≤ l'.lastIndex + fresh.length
  within : l'.lastIndex + fresh.length ≤ max l.lastIndex i

theorem Mirrors.wp_dropKnown (h : Mirrors l) {batch : List Entry} {p : Index}
    (hlow : l.snapshotIndex ≤ p) (hp : p ≤ l.lastIndex) (hb : NumberedFrom p batch) :
    wp (dropKnown batch) (Trimmed l (p + batch.length)) (Fails l) l := by
  induction batch generalizing p with
  | nil => exact ⟨h.retains, .nil _, by simpa using hp, le_max_left _ _⟩
  | cons e rest ih =>
    simp only [dropKnown, Action.wp_bind, Action.wp_get]
    rw [hb.head]
    split
    · rename_i term ht
      obtain ⟨-, hle⟩ := h.termAt?_isSome.mp (Option.isSome_iff_exists.mpr ⟨term, ht⟩)
      simp only [Action.wp_ite, Action.wp_bind, Action.wp_pure]
      split
      · -- the log has the entry
        refine Action.wp_imp (ih (by lia) hle hb.tail) ?_
        rintro fresh l' ⟨hr, hf, hreached, hwithin⟩
        simp only [List.length_cons]
        exact ⟨hr, hf, by lia, by lia⟩
      · refine Action.wp_imp (h.wp_truncateFrom (by lia) hle) ?_
        rintro - l' ⟨hr, hlast, -⟩
        have hend : l'.lastIndex = p := by lia
        exact ⟨hr, hend ▸ hb, by lia, by lia⟩
    · rename_i hnone
      have hend : l.lastIndex = p := by
        by_contra hne
        have := h.termAt?_isSome.mpr ⟨show l.snapshotIndex ≤ p + 1 by lia, by lia⟩
        simp [hnone] at this
      exact ⟨h.retains, hend ▸ hb, by lia, by lia⟩

theorem Mirrors.wp_merge (h : Mirrors l) {batch : List Entry} {p : Index}
    (hlow : l.snapshotIndex ≤ p) (hp : p ≤ l.lastIndex) (hb : NumberedFrom p batch)
    {lastNew : Index} (hlast : lastNew ≤ p + batch.length)
    (hroom : p + batch.length + 1 < wordLimit) (leaderCommit : Index) :
    wp (merge batch lastNew leaderCommit) (fun _ l' => Retains l l') (Fails l) l := by
  have hfits := h.fits
  rw [← h.lastIndex] at hfits
  have hadvance : ∀ l', Retains l l' → lastNew ≤ l'.lastIndex →
      wp (do
          if (← get).commitIndex < min leaderCommit lastNew then
            setCommitIndex (min leaderCommit lastNew)
          pure lastNew : LogAction σ Index) (fun _ l' => Retains l l') (Fails l) l' := by
    intro l' hr hle
    simp only [Action.wp_bind, Action.wp_get, Action.wp_ite, Action.wp_pure]
    split
    · exact hr.mirrors.wp_setCommitIndex (by lia) fun c hc => hr.trans hc
    · exact hr
  rw [merge, Action.wp_bind]
  refine Action.wp_imp (h.wp_dropKnown hlow hp hb) ?_
  rintro fresh l' ⟨hr, hfresh, hreached, hwithin⟩
  by_cases hnil : fresh = []
  · subst hnil
    exact hadvance l' hr (by simp at hreached; lia)
  · rw [if_pos (by simpa using hnil), Action.wp_bind]
    refine hr.mirrors.wp_extend hfresh (by lia) (fun s hext => ?_) fun f s hf => .after hr hf
    rw [Action.wp_bind, Action.wp_modify]
    refine hadvance _ (hr.trans hext) ?_
    rw [hext.mirrors.lastIndex]
    have := hr.mirrors.lastIndex
    simp only [List.length_append]
    lia

theorem Mirrors.wp_reconcile (h : Mirrors l) {prevIndex : Index} {batch : List Entry}
    (hb : NumberedFrom prevIndex batch) (hroom : prevIndex + batch.length + 1 < wordLimit)
    (prevTerm : Term) (leaderCommit : Index) :
    wp (reconcile prevIndex prevTerm batch leaderCommit) (fun _ l' => Retains l l') (Fails l) l := by
  have hfits := h.fits
  have hlast := h.lastIndex
  apply wp_reconcile_cases
  case hfull => exact fun hfull => absurd hfull (by lia)
  case hcovered =>
    intro hbelow
    -- the entries that the snapshot covers are passed over
    by_cases hcover : l.snapshotIndex - prevIndex ≤ batch.length
    · have hrest : NumberedFrom l.snapshotIndex (batch.drop (l.snapshotIndex - prevIndex)) := by
        have := hb.drop (l.snapshotIndex - prevIndex)
        rwa [show prevIndex + (l.snapshotIndex - prevIndex) = l.snapshotIndex by lia] at this
      exact h.wp_merge le_rfl (by lia) hrest (by rw [List.length_drop]; lia)
        (by rw [List.length_drop]; lia) leaderCommit
    · rw [List.drop_eq_nil_of_le (by lia)]
      exact h.wp_merge le_rfl (by lia) (.nil _) (by lia) (by simp; lia) leaderCommit
  case habsent => exact fun _ _ => h.fails _
  case hmatches =>
    intro hterm
    obtain ⟨hlow, hle⟩ := h.termAt?_isSome.mp (Option.isSome_iff_exists.mpr ⟨prevTerm, hterm⟩)
    exact h.wp_merge hlow hle hb le_rfl hroom leaderCommit
  case hdiffers => exact fun _ _ _ _ => h.fails _
  case hunhinted =>
    intro term hterm _ hfull
    obtain ⟨hlow, hle⟩ := h.termAt?_isSome.mp (Option.isSome_iff_exists.mpr ⟨term, hterm⟩)
    exact absurd hfull (by lia)

/-! ## Snapshots -/

/-- A snapshot behind which the store and memory keep the same entries. -/
theorem Mirrors.wp_keepInstall (h : Mirrors l) {snap : Snapshot}
    (hlow : l.snapshotIndex ≤ snap.index) (hhigh : snap.index ≤ l.lastIndex) {applied commit : Index}
    (ha : snap.index ≤ applied) (hac : applied ≤ commit) (hheld : applied ≤ l.lastIndex)
    {Q : Unit → Log σ → Prop} {E : Fault NodeError → Log σ → Prop}
    (hok : ∀ s, Retains l ⟨s, l.entries.drop (snap.index - l.snapshotIndex), snap.index, snap.term,
      commit, applied⟩ → Q () { l with store := s })
    (herr : ∀ f s, Fails l f { l with store := s } → E f { l with store := s }) :
    wp (onStore (LogStore.install snap)) Q E l := by
  have hfits := h.fits
  have hlast := h.lastIndex
  refine h.wp_write (.install snap) (fun s hw hs => ?_) herr
  have hnum := h.numbered.drop (snap.index - l.snapshotIndex)
  rw [show l.snapshotIndex + (snap.index - l.snapshotIndex) = snap.index by lia] at hnum
  refine hok s (.of_whole hnum ?_ ?_ ?_ ha hac ?_ ?_)
  · rw [hs]
    rfl
  · rw [hs]
    rfl
  · rw [Whole, hs]
    change (kept l.store).entries.filter _ = _
    rw [hw, h.numbered.filter_above]
  · rw [List.length_drop]
    dsimp only
    lia
  · rw [List.length_drop]
    dsimp only
    lia

/-- How an install that fails leaves the two copies: the store may already be without the stale entries. -/
structure Torn (l : Log σ) (f : Fault NodeError) (l' : Log σ) : Prop where
  reported : f ≠ .abort
  mirrors : Mirrors l'
  entries : l'.entries = l.entries

theorem Fails.torn {f : Fault NodeError} {s : σ} (hf : Fails l f { l with store := s }) :
    Torn l f { l with store := s } :=
  ⟨hf.reported, hf.mirrors, rfl⟩

theorem Mirrors.wp_install (h : Mirrors l) {snap : Snapshot} (hroom : snap.index + 1 < wordLimit) :
    wp (install snap) (fun _ l' => Retains l l') (Torn l) l := by
  have hcompacted := h.compacted
  have happlied := h.applied
  have hlast := h.lastIndex
  simp only [install, Action.wp_bind, Action.wp_get, Action.wp_ite, Action.wp_pure]
  split
  · exact h.retains
  split
  · rename_i hterm
    obtain ⟨hlow, hle⟩ := h.termAt?_isSome.mp (Option.isSome_iff_exists.mpr ⟨_, hterm⟩)
    refine h.wp_keepInstall hlow hle le_rfl (le_max_right l.commitIndex _) hle (fun s hr => ?_)
      fun f s hf => hf.torn
    simp only [Action.wp_sub, Action.wp_modify]
    rw [if_pos hlow]
    exact hr
  · simp only [Action.wp_add]
    rw [if_pos hroom]
    refine h.wp_write (.truncate (snap.index + 1)) (fun s hw hs => ?_) fun f s hf => hf.torn
    have hkept : (kept s).entries = l.entries.take (snap.index - l.snapshotIndex) := by
      rw [hs]
      change (kept l.store).entries.filter _ = _
      rw [hw, h.numbered.filter_below, show snap.index + 1 - l.snapshotIndex - 1 =
        snap.index - l.snapshotIndex by lia]
    rw [onStore, Action.wp_within]
    refine Action.wp_mono (FailStop.perform (.install snap) s) ?_ ?_
    · rintro - t ⟨-, ht⟩
      refine .of_whole (.nil _) ?_ ?_ ?_ le_rfl (le_max_right _ _) (by simp) (by simpa using hroom)
      · rw [ht]
        rfl
      · rw [ht]
        rfl
      · rw [Whole, ht]
        change (kept s).entries.filter _ = []
        rw [hkept, (h.numbered.take _).filter_above]
        exact List.drop_eq_nil_of_le (List.length_take_le _ _)
    · rintro f t ⟨hf, hfailed, ht⟩
      have hsame : kept t = (Write.truncate (snap.index + 1)).change (kept l.store) := ht.trans hs
      refine ⟨?_, { h with
        covered := hsame ▸ h.covered
        coveredTerm := hsame ▸ h.coveredTerm
        stored := ?_
        behind := Or.inr hfailed }, rfl⟩
      · cases f
        · rintro ⟨⟩
        · exact absurd rfl hf
      · dsimp only
        rw [ht, hkept]
        exact List.take_prefix _ _

theorem Mirrors.wp_compact (h : Mirrors l) {snap : Snapshot} (hi : snap.index ≤ l.lastApplied) :
    wp (compact snap) (fun _ l' => Retains l l') (Fails l) l := by
  have hheld := h.held
  have hlast := h.lastIndex
  simp only [compact, Action.wp_bind, Action.wp_get, Action.wp_require, if_pos hi, Action.wp_ite,
    Action.wp_pure]
  split
  · exact h.retains
  · refine h.wp_keepInstall (by lia) (by lia) hi h.applied (by lia) (fun s hr => ?_)
      fun f s hf => hf
    simp only [Action.wp_modify]
    rw [if_pos (by lia)]
    exact hr

/-! ## Opening -/

theorem Mirrors.orderly (h : Mirrors l) : Orderly (kept l.store) := by
  have hlen := h.stored.length_le
  have hfits := h.fits
  refine ⟨?_, ?_⟩
  · rw [h.covered, ← take_length_of_isPrefix h.stored]
    exact h.numbered.take _
  · rw [h.covered]
    lia

/-- A log over a store that holds what the log was opened with. -/
theorem Orderly.opened {p : Persisted} (h : Orderly p) {K : List Entry} (hK : K <+: p.entries)
    {s : σ} (hsnap : (kept s).snapshot = p.snapshot) (hs : (kept s).entries = K) :
    Mirrors ⟨s, K, p.covered, p.coveredTerm, p.covered, p.covered⟩ ∧
      Whole ⟨s, K, p.covered, p.coveredTerm, p.covered, p.covered⟩ := by
  have hfits := h.fits
  have hlen := hK.length_le
  refine ⟨⟨?_, ?_, ?_, hs ▸ List.prefix_refl _, Or.inl hs, le_rfl, le_rfl, Nat.le_add_right _ _,
    by dsimp only; lia⟩, hs⟩
  · dsimp only
    rw [← take_length_of_isPrefix hK]
    exact h.numbered.take _
  · simp only [Persisted.covered, hsnap]
  · simp only [Persisted.coveredTerm, hsnap]

/-- What is left over from an install that did not finish goes from the store and is not taken into the log. -/
theorem Orderly.wp_boot {s : σ} (h : Orderly (kept s)) :
    wp (boot : Action NodeError σ (Recovered σ))
      (fun r _ => Mirrors r.log ∧ Whole r.log ∧ r.log.snapshotIndex = (kept s).covered ∧
        r.log.snapshotTerm = (kept s).coveredTerm ∧
        r.log.entries = (kept s).entries.takeWhile fun e => (kept s).coveredTerm ≤ e.term)
      (fun f _ => f ≠ .abort ∧ ∃ e ∈ (kept s).entries, e.term < (kept s).coveredTerm) s := by
  let fresh : Entry → Bool := fun e => (kept s).coveredTerm ≤ e.term
  have hpre : (kept s).entries.takeWhile fresh <+: (kept s).entries := List.takeWhile_prefix fresh
  have hsplit : (kept s).entries.takeWhile fresh ++ (kept s).entries.dropWhile fresh =
      (kept s).entries := List.takeWhile_append_dropWhile
  have hrest : (kept s).entries.drop ((kept s).entries.takeWhile fresh).length =
      (kept s).entries.dropWhile fresh := (congrArg (List.drop _) hsplit.symm).trans List.drop_left
  simp only [boot, Action.wp_bind, Action.wp_within]
  refine Action.wp_mono (Action.wp_and (LawfulStore.load s) (FailStop.load s)) ?_
    fun _ _ h => h.2.elim
  rintro p t ⟨⟨rfl, ht⟩, -⟩
  split
  · rename_i stale hhead
    have hstale : ((kept s).entries.drop ((kept s).entries.takeWhile fresh).length).head? =
      some stale := hhead
    have hold : ¬ fresh stale := by
      have := List.head?_dropWhile_not fresh (kept s).entries
      rw [← hrest, hstale] at this
      simpa using this
    rw [List.head?_drop] at hstale
    have hindex := h.numbered _ _ hstale
    rw [Action.wp_bind, Action.wp_within]
    refine Action.wp_mono (FailStop.perform (.truncate stale.index) t) ?_ ?_
    · rintro - u ⟨-, hu⟩
      rw [ht] at hu
      have hcut : (kept u).entries = (kept s).entries.takeWhile fresh := by
        rw [hu]
        change (kept s).entries.filter _ = _
        rw [h.numbered.filter_below, hindex, show (kept s).covered + 1 +
          ((kept s).entries.takeWhile fresh).length - (kept s).covered - 1 =
          ((kept s).entries.takeWhile fresh).length by lia, take_length_of_isPrefix hpre]
      obtain ⟨hm, hw⟩ := h.opened hpre (by rw [hu]; rfl) hcut
      exact ⟨hm, hw, rfl, rfl, rfl⟩
    · rintro f u ⟨hf, -, -⟩
      refine ⟨?_, stale, List.mem_of_getElem? hstale, by simpa [fresh] using hold⟩
      cases f
      · rintro ⟨⟩
      · exact absurd rfl hf
  · rename_i hnone
    have hnone' := hrest.symm.trans (List.head?_eq_none_iff.mp hnone)
    rw [hnone', List.append_nil] at hsplit
    obtain ⟨hm, hw⟩ := h.opened hpre (by rw [ht])
      ((congrArg Persisted.entries ht).trans hsplit.symm)
    exact ⟨hm, hw, rfl, rfl, rfl⟩

/-- To open a log again whose store holds all of it gives the same log. -/
theorem Mirrors.wp_reopen (h : Mirrors l) (hw : Whole l)
    (hterms : (l.snapshotTerm :: l.entries.map Entry.term).Pairwise (· ≤ ·)) :
    wp (boot : Action NodeError σ (Recovered σ))
      (fun r _ => r.log.snapshotIndex = l.snapshotIndex ∧ r.log.snapshotTerm = l.snapshotTerm ∧
        r.log.entries = l.entries) (fun _ _ => False) l.store := by
  have hnew : ∀ e ∈ l.entries, l.snapshotTerm ≤ e.term := fun e he =>
    (List.pairwise_cons.mp hterms).1 _ (List.mem_map_of_mem he)
  refine Action.wp_mono h.orderly.wp_boot ?_ ?_
  · rintro r t ⟨-, -, hi, ht, he⟩
    rw [h.covered] at hi
    rw [h.coveredTerm] at ht
    rw [h.coveredTerm, hw, List.takeWhile_eq_self_iff.mpr fun e he => by simpa using hnew e he] at he
    exact ⟨hi, ht, he⟩
  · rintro f t ⟨-, e, he, hlt⟩
    rw [h.coveredTerm] at hlt
    have := hnew e (hw ▸ he)
    lia

end Log

end RaftNode
