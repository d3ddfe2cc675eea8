import Mathlib
import RaftNode.Proofs.Merging
import RaftNode.Proofs.Positions
/-!
# Two logs

How the log of a follower stands to the log of a leader, index by index, and what the leader's entries and snapshots
make of it. Either log may be compacted, so they can be compared only where both still know something. Nothing is asked
of the stores, and what is said holds also of an operation that ends early.
-/
namespace RaftNode.Log

open RaftNode.Action (wp)

variable {σ τ : Type} {l l' : Log σ} {g : Log τ} {i j k : Index} {e : Entry} {batch fresh : List Entry}

/-! ## Agreement -/

/-- The logs do not contradict each other at an index: if both know its term it is the same, and if both hold the entry
it is the same. -/
structure Concurs (l : Log σ) (g : Log τ) (j : Index) : Prop where
  term : ∀ t t', l.termAt? j = some t → g.termAt? j = some t' → t = t'
  entry : ∀ e e', l.entry? j = some e → g.entry? j = some e' → e = e'

def AgreesTo (l : Log σ) (g : Log τ) (k : Index) : Prop := ∀ j ≤ k, l.Concurs g j

/-- Log matching: from an index at which the terms are the same the logs agree downwards. -/
def Matching (l : Log σ) (g : Log τ) : Prop :=
  ∀ i t, l.termAt? i = some t → g.termAt? i = some t → l.AgreesTo g i

theorem AgreesTo.mono (h : l.AgreesTo g k) (hjk : j ≤ k) : l.AgreesTo g j :=
  fun i hi => h i (hi.trans hjk)

theorem AgreesTo.max (h : l.AgreesTo g j) (h' : l.AgreesTo g k) : l.AgreesTo g (max j k) := by
  intro i hi
  rcases le_max_iff.mp hi with hi | hi
  · exact h i hi
  · exact h' i hi

theorem Concurs.refl (l : Log σ) (j : Index) : l.Concurs l j := by
  constructor
  · intro t t' ht ht'
    exact Option.some.inj (ht.symm.trans ht')
  · intro e e' he he'
    exact Option.some.inj (he.symm.trans he')

/-- Two logs that say the same at an index concur with the same. -/
theorem Concurs.congr (h : l.Concurs g j) (hterm : l'.termAt? j = l.termAt? j)
    (hentry : l'.entry? j = l.entry? j) : l'.Concurs g j := by
  constructor
  · rw [hterm]
    exact h.term
  · rw [hentry]
    exact h.entry

theorem termAt?_of_entry (h : g.entry? j = some e) : g.termAt? j = some e.term := by
  have hlow : g.snapshotIndex < j := by
    by_contra hle
    rw [Log.entry?, if_pos (by lia)] at h
    cases h
  rw [termAt?_of_lt hlow, h]
  rfl

/-- Behind its snapshot a log concurs with one that holds all its entries. -/
theorem concurs_of_entries (hlow : l.snapshotIndex < j)
    (h : ∀ e, l.entry? j = some e → g.entry? j = some e) : l.Concurs g j := by
  constructor
  · intro t t' ht ht'
    rw [termAt?_of_lt hlow] at ht
    obtain ⟨e, he, rfl⟩ := Option.map_eq_some_iff.mp ht
    rw [termAt?_of_entry (h e he)] at ht'
    exact Option.some.inj ht'
  · intro e e' he he'
    rw [h e he] at he'
    exact Option.some.inj he'

/-- Nothing can be said against a log where it is compacted away. -/
theorem concurs_of_lt (hlow : j < l.snapshotIndex) : l.Concurs g j := by
  have hnone : l.entry? j = none := by rw [Log.entry?, if_pos hlow.le]
  constructor
  · intro t t' ht
    rw [termAt?, if_neg (by lia), hnone] at ht
    cases ht
  · intro e e' he
    rw [hnone] at he
    cases he

/-- Up to its snapshot a log concurs with one that knows the end of the snapshot. -/
theorem concurs_of_covered (h : g.termAt? l.snapshotIndex = some l.snapshotTerm) (hj : j ≤ l.snapshotIndex) :
    l.Concurs g j := by
  rcases hj.eq_or_lt with rfl | hlt
  · constructor
    · intro t t' ht ht'
      rw [termAt?_snapshot] at ht
      rw [h] at ht'
      exact (Option.some.inj ht).symm.trans (Option.some.inj ht')
    · intro e e' he
      rw [Log.entry?, if_pos le_rfl] at he
      cases he
  · exact concurs_of_lt hlt

/-! ## What a leader cuts out of its log -/

/-- A run of entries of `g` behind an index. -/
structure Slice (g : Log τ) (p : Index) (batch : List Entry) : Prop where
  numbered : NumberedFrom p batch
  cut : ∀ e ∈ batch, g.entry? e.index = some e

theorem Slice.tail (h : g.Slice k (e :: batch)) : g.Slice (k + 1) batch :=
  ⟨h.numbered.tail, fun a ha => h.cut a (List.mem_cons_of_mem e ha)⟩

theorem Slice.nil (g : Log τ) (p : Index) : g.Slice p [] := ⟨.nil p, fun e he => by cases he⟩

theorem slice_entriesFrom (hg : NumberedFrom g.snapshotIndex g.entries) (hk : g.snapshotIndex ≤ k)
    (most : Nat) : g.Slice k (g.entriesFrom (k + 1) most) := by
  rw [entriesFrom, if_neg (by lia), show k + 1 - g.snapshotIndex - 1 = k - g.snapshotIndex by lia]
  constructor
  · exact (numbered_drop hg hk).take most
  · intro e he
    exact (entry?_of_numbered hg).mpr ⟨List.mem_of_mem_drop (List.mem_of_mem_take he), rfl⟩

/-- The part of a slice that the snapshot of the other log does not cover. -/
theorem Slice.uncovered (h : g.Slice k batch) (hk : k < l.snapshotIndex) :
    g.Slice l.snapshotIndex (batch.drop (l.snapshotIndex - k)) :=
  ⟨numbered_uncovered h.numbered hk, fun e he => h.cut e (List.mem_of_mem_drop he)⟩

/-! ## What a batch makes of a log -/

/-- Where a log is cut for entries of `g`: as far as there the two agree, and if anything is lost then it begins with
an entry that `g` contradicts and is not committed. -/
structure CutsAt (g : Log τ) (l : Log σ) (k : Index) : Prop where
  low : l.snapshotIndex ≤ k
  high : k ≤ l.lastIndex
  agrees : l.AgreesTo g k
  lost : k < l.lastIndex → l.commitIndex ≤ k ∧ ¬ l.Concurs g (k + 1)

/-- What a batch out of `g` makes of the entries of a log. -/
inductive Rewrites (g : Log τ) (l : Log σ) (entries : List Entry) : Prop
  | same (he : entries = l.entries)
  | cut {k : Index} {fresh : List Entry} (hk : g.CutsAt l k) (hfresh : g.Slice k fresh)
      (he : entries = l.entries.take (k - l.snapshotIndex) ++ fresh)

/-- The log has learned from `g`; its snapshot is what it was, and nothing was applied. -/
structure Learns (g : Log τ) (l l' : Log σ) : Prop where
  snapshotIndex : l'.snapshotIndex = l.snapshotIndex
  snapshotTerm : l'.snapshotTerm = l.snapshotTerm
  applied : l'.lastApplied = l.lastApplied
  entries : Rewrites g l l'.entries
  commit : l.commitIndex ≤ l'.commitIndex
  within : l'.commitIndex = l.commitIndex ∨ l'.commitIndex ≤ l'.lastIndex

theorem entry?_congr (hs : l'.snapshotIndex = l.snapshotIndex) (he : l'.entries = l.entries) (j : Index) :
    l'.entry? j = l.entry? j := by
  rw [Log.entry?, entry?, hs, he]

theorem termAt?_congr (hs : l'.snapshotIndex = l.snapshotIndex) (ht : l'.snapshotTerm = l.snapshotTerm)
    (he : l'.entry? j = l.entry? j) : l'.termAt? j = l.termAt? j := by
  rw [termAt?, termAt?, hs, ht, he]

section

variable (hl : l.Tidy) (hk : g.CutsAt l k) (hfresh : g.Slice k fresh) (hs : l'.snapshotIndex = l.snapshotIndex)
  (he : l'.entries = l.entries.take (k - l.snapshotIndex) ++ fresh)

include hl hk hfresh

theorem CutsAt.numbered :
    NumberedFrom l.snapshotIndex (l.entries.take (k - l.snapshotIndex) ++ fresh) := by
  have hlow := hk.low
  have hhigh := hk.high
  have hlast := hl.lastIndex
  refine (hl.numbered.take _).append ?_
  rw [List.length_take, show l.snapshotIndex + min (k - l.snapshotIndex) l.entries.length = k by lia]
  exact hfresh.numbered

include hs he

theorem CutsAt.lastIndex : l'.lastIndex = k + fresh.length := by
  have hlow := hk.low
  have hhigh := hk.high
  have hlast := hl.lastIndex
  rw [lastIndex_of_numbered (by rw [hs, he]; exact hk.numbered hl hfresh), hs, he, List.length_append,
    List.length_take]
  lia

omit hfresh in
theorem CutsAt.entry?_of_le (hj : j ≤ k) : l'.entry? j = l.entry? j := by
  rw [Log.entry?, entry?, hs, he]
  split
  · rfl
  · have hlow := hk.low
    have hhigh := hk.high
    have hlast := hl.lastIndex
    rw [List.getElem?_append_left (by rw [List.length_take]; lia), List.getElem?_take_of_lt (by lia)]

theorem CutsAt.mem_of_entry? (hj : k < j) (hje : l'.entry? j = some e) : e ∈ fresh ∧ e.index = j := by
  have hnum : NumberedFrom l'.snapshotIndex l'.entries := by
    rw [hs, he]
    exact hk.numbered hl hfresh
  obtain ⟨hmem, hindex⟩ := (entry?_of_numbered hnum).mp hje
  rw [he] at hmem
  refine ⟨(List.mem_append.mp hmem).resolve_left fun hfront => ?_, hindex⟩
  have hhigh := ((hl.numbered.take _).mem_index hfront).2
  have hlow := hk.low
  rw [List.length_take] at hhigh
  lia

/-- From the cut on the log is the other one's, so nothing contradicts it any more. -/
theorem CutsAt.agreesTo (ht : l'.snapshotTerm = l.snapshotTerm) (i : Index) : l'.AgreesTo g i := by
  intro j _
  by_cases hj : j ≤ k
  · have hentry := hk.entry?_of_le hl hs he hj
    exact (hk.agrees j hj).congr (termAt?_congr hs ht hentry) hentry
  · have hlow := hk.low
    refine concurs_of_entries (by lia) fun e hje => ?_
    obtain ⟨hmem, rfl⟩ := hk.mem_of_entry? hl hfresh hs he (by lia) hje
    exact hfresh.cut e hmem

end

/-! ## A log that has learned -/

theorem Learns.numbered (h : g.Learns l l') (hl : l.Tidy) :
    NumberedFrom l'.snapshotIndex l'.entries := by
  rw [h.snapshotIndex]
  cases h.entries with
  | same he =>
    rw [he]
    exact hl.numbered
  | cut hk hfresh he =>
    rw [he]
    exact hk.numbered hl hfresh

/-- A log is cut behind its committed entries only. -/
theorem Learns.commit_le (h : g.Learns l l') (hl : l.Tidy) (hb : l.Bounded) :
    l.commitIndex ≤ l'.lastIndex := by
  cases h.entries with
  | same he =>
    rw [lastIndex_of_numbered (h.numbered hl), h.snapshotIndex, he, ← hl.lastIndex]
    exact hb
  | cut hk hfresh he =>
    rw [hk.lastIndex hl hfresh h.snapshotIndex he]
    have hhigh := hk.high
    have hlost := hk.lost
    unfold Bounded at hb
    lia

theorem Learns.tidy (h : g.Learns l l') (hl : l.Tidy) (hb : l.Bounded) : l'.Tidy := by
  constructor
  · exact h.numbered hl
  · rw [h.snapshotIndex, h.applied]
    exact hl.compacted
  · rw [h.applied]
    exact hl.applied.trans h.commit
  · rw [h.applied]
    exact hl.applied.trans (h.commit_le hl hb)

theorem Learns.bounded (h : g.Learns l l') (hl : l.Tidy) (hb : l.Bounded) : l'.Bounded := by
  rcases h.within with hsame | hwithin
  · rw [Bounded, hsame]
    exact h.commit_le hl hb
  · exact hwithin

/-! ## What stays -/

/-- The logs agree up to an index, which is at least the commit index, and the follower has as much. -/
structure InStep (g : Log τ) (l : Log σ) (k : Index) : Prop where
  tidy : l.Tidy
  bounded : l.Bounded
  matching : l.Matching g
  agrees : l.AgreesTo g k
  held : k ≤ l.lastIndex
  committed : l.commitIndex ≤ k

/-- Up to an index nothing is lost or changed, save that a snapshot may come to cover it. -/
structure Keeps (k : Index) (l l' : Log σ) : Prop where
  snapshotIndex : l.snapshotIndex ≤ l'.snapshotIndex
  entries : ∀ j ≤ k, l'.snapshotIndex < j → l'.entry? j = l.entry? j

theorem Keeps.refl (k : Index) (l : Log σ) : Keeps k l l := ⟨le_rfl, fun _ _ _ => rfl⟩

theorem Keeps.mono (h : Keeps k l l') (hjk : j ≤ k) : Keeps j l l' :=
  ⟨h.snapshotIndex, fun i hi => h.entries i (hi.trans hjk)⟩

theorem Keeps.trans {l'' : Log σ} (h : Keeps k l l') (h' : Keeps k l' l'') : Keeps k l l'' := by
  refine ⟨h.snapshotIndex.trans h'.snapshotIndex, fun j hj hlow => ?_⟩
  rw [h'.entries j hj hlow, h.entries j hj (h'.snapshotIndex.trans_lt hlow)]

theorem Keeps.of_stored {s : σ} (hlog : l' = { l with store := s }) : Keeps k l l' := by
  subst hlog
  exact ⟨le_rfl, fun _ _ _ => rfl⟩

section

variable (hk : g.InStep l k) (h : g.Learns l l')

include hk h

/-- What the logs agree on is not cut away. -/
theorem InStep.learns_held : k ≤ l'.lastIndex := by
  have hheld := hk.held
  cases h.entries with
  | same he =>
    rw [lastIndex_of_numbered (h.numbered hk.tidy), h.snapshotIndex, he, ← hk.tidy.lastIndex]
    exact hheld
  | @cut c fresh hc hfresh he =>
    rw [hc.lastIndex hk.tidy hfresh h.snapshotIndex he]
    by_contra hlt
    exact (hc.lost (by lia)).2 (hk.agrees (c + 1) (by lia))

theorem InStep.learns_keeps : Keeps k l l' := by
  refine ⟨h.snapshotIndex.ge, fun j hj _ => ?_⟩
  cases h.entries with
  | same he => exact entry?_congr h.snapshotIndex he j
  | @cut c fresh hc hfresh he =>
    by_cases hle : j ≤ c
    · exact hc.entry?_of_le hk.tidy h.snapshotIndex he hle
    · have hheld := hk.held
      exact absurd (hk.agrees (c + 1) (by lia)) (hc.lost (by lia)).2

theorem InStep.learns_agrees : l'.Matching g ∧ l'.AgreesTo g k := by
  cases h.entries with
  | same he =>
    have hcongr : ∀ j, l.Concurs g j → l'.Concurs g j := by
      intro j hj
      have hentry := entry?_congr h.snapshotIndex he j
      exact hj.congr (termAt?_congr h.snapshotIndex h.snapshotTerm hentry) hentry
    constructor
    · intro i t ht ht' j hj
      rw [termAt?_congr h.snapshotIndex h.snapshotTerm (entry?_congr h.snapshotIndex he i)] at ht
      exact hcongr j (hk.matching i t ht ht' j hj)
    · intro j hj
      exact hcongr j (hk.agrees j hj)
  | cut hc hfresh he =>
    have hall := hc.agreesTo hk.tidy hfresh h.snapshotIndex he h.snapshotTerm
    exact ⟨fun i _ _ _ => hall i, hall k⟩

theorem InStep.learned (hcommit : l'.commitIndex ≤ k) : g.InStep l' k :=
  ⟨h.tidy hk.tidy hk.bounded, h.bounded hk.tidy hk.bounded, (hk.learns_agrees h).1, (hk.learns_agrees h).2,
    hk.learns_held h, hcommit⟩

end

theorem InStep.withStore (hk : g.InStep l k) (s : σ) : g.InStep { l with store := s } k := by
  have hcongr : ∀ i, l.AgreesTo g i → AgreesTo { l with store := s } g i :=
    fun i hi j hj => (hi j hj).congr rfl rfl
  exact ⟨hk.tidy.withStore s, hk.bounded, fun i t ht ht' => hcongr i (hk.matching i t ht ht'),
    hcongr k hk.agrees, hk.held, hk.committed⟩

/-- Who does not have the leader's term at an index agrees with the leader less far. -/
theorem InStep.lt_of_differs (hk : g.InStep l k) (hlow : l.snapshotIndex ≤ i) {t : Term}
    (hg : g.termAt? i = some t) (hdiffers : l.termAt? i ≠ some t) : k < i := by
  by_contra hle
  have hheld := hk.held
  obtain ⟨t', ht'⟩ := exists_termAt? hk.tidy.numbered hlow (by lia)
  apply hdiffers
  rw [ht', (hk.agrees i (by lia)).term t' t ht' hg]

/-! ## A batch -/

variable [LogStore σ]

/-- What is left of a batch behind `p` when the log has gone through it. -/
inductive Sorts (g : Log τ) (l : Log σ) (reach : Index) (rest : List Entry) (l' : Log σ) : Prop
  | known (hrest : rest = []) (hlog : l' = l) (hreach : reach ≤ l.lastIndex) (hagree : l.AgreesTo g reach)
  | fresh {k : Index} {s : σ} (hrest : rest ≠ []) (hk : g.CutsAt l k) (hslice : g.Slice k rest)
      (hreach : reach = k + rest.length)
      (hlog : l' = { l with store := s, entries := l.entries.take (k - l.snapshotIndex) })

theorem wp_dropKnown_sorts (hl : l.Tidy) (hm : l.Matching g) (hlow : l.snapshotIndex ≤ k) (hk : k ≤ l.lastIndex)
    (hagree : l.AgreesTo g k) (hbatch : g.Slice k batch) :
    wp (dropKnown batch) (fun rest l' => g.Sorts l (k + batch.length) rest l')
      (fun _ l' => ∃ s, l' = { l with store := s }) l := by
  induction batch generalizing k with
  | nil => exact .known rfl rfl hk hagree
  | cons e rest ih =>
    have hindex := hbatch.numbered.head
    have hentry : g.entry? (k + 1) = some e := by
      rw [← hindex]
      exact hbatch.cut e (List.mem_cons_self ..)
    rw [dropKnown, Action.wp_bind, Action.wp_get, hindex]
    split
    · rename_i term hterm
      have hnext := (within_of_termAt? hl.numbered hterm).2
      rw [Action.wp_ite]
      split
      · -- the log has the entry, and so it agrees with the other one as far as here
        rename_i hsame
        have hagree' := hm (k + 1) term hterm (by rw [termAt?_of_entry hentry, hsame])
        have hrest := ih (by lia) hnext hagree' hbatch.tail
        rwa [show k + 1 + rest.length = k + (e :: rest).length by simp; lia] at hrest
      · rename_i hdiffers
        have hcontradicts : ¬ l.Concurs g (k + 1) := by
          intro hconcurs
          exact hdiffers (hconcurs.term _ _ hterm (termAt?_of_entry hentry))
        rw [Action.wp_bind]
        refine Action.wp_mono (wp_truncateFrom_memory k l) ?_ fun _ _ h => h.2
        rintro - _ ⟨hcommit, s, rfl⟩
        exact .fresh (by simp) ⟨hlow, hk, hagree, fun _ => ⟨hcommit, hcontradicts⟩⟩ hbatch rfl rfl
    · rename_i hnone
      have hend : l.lastIndex = k := by
        by_contra hne
        obtain ⟨t, ht⟩ := exists_termAt? hl.numbered (show l.snapshotIndex ≤ k + 1 by lia) (by lia)
        rw [hnone] at ht
        cases ht
      refine .fresh (s := l.store) (by simp) ⟨hlow, hk, hagree, fun h => absurd h (by lia)⟩ hbatch rfl ?_
      have hlast := hl.lastIndex
      rw [List.take_of_length_le (by lia)]

omit [LogStore σ] in
theorem Learns.withStore (g : Log τ) (l : Log σ) (s : σ) : g.Learns l { l with store := s } :=
  ⟨rfl, rfl, rfl, .same rfl, le_rfl, Or.inl rfl⟩

omit [LogStore σ] in
theorem CutsAt.learns (hk : g.CutsAt l k) (hfresh : g.Slice k fresh) (s : σ) :
    g.Learns l { l with store := s, entries := l.entries.take (k - l.snapshotIndex) ++ fresh } :=
  ⟨rfl, rfl, rfl, .cut hk hfresh rfl, le_rfl, Or.inl rfl⟩

omit [LogStore σ] in
/-- The commit index follows, no further than the log reaches. -/
theorem Learns.raise (h : g.Learns l l') (hi : i ≤ l'.lastIndex) (leaderCommit : Index) :
    g.Learns l { l' with commitIndex := max l'.commitIndex (min leaderCommit i) } := by
  refine ⟨h.snapshotIndex, h.snapshotTerm, h.applied, h.entries, h.commit.trans (le_max_left _ _), ?_⟩
  rcases le_total (min leaderCommit i) l'.commitIndex with hle | hle
  · rw [max_eq_left hle]
    exact h.within
  · rw [max_eq_right hle]
    exact Or.inr ((min_le_right _ _).trans hi)

/-- What a batch that is taken over makes of the log. -/
structure Accepts (g : Log τ) (l : Log σ) (reach : Index) (l' : Log σ) : Prop where
  learns : g.Learns l l'
  held : reach ≤ l'.lastIndex
  agrees : l'.AgreesTo g reach
  commit : l'.commitIndex ≤ max l.commitIndex reach

theorem wp_merge_accepts (hl : l.Tidy) (hm : l.Matching g) (hlow : l.snapshotIndex ≤ k) (hk : k ≤ l.lastIndex)
    (hagree : l.AgreesTo g k) (hbatch : g.Slice k batch) (hi : i ≤ k + batch.length) (leaderCommit : Index) :
    wp (merge batch i leaderCommit) (fun n l' => n = i ∧ g.Accepts l i l')
      (fun _ l' => g.Learns l l' ∧ l'.commitIndex = l.commitIndex) l := by
  have hraise : ∀ l', g.Learns l l' → i ≤ l'.lastIndex → l'.AgreesTo g i → l'.commitIndex = l.commitIndex →
      wp (do
          if (← get).commitIndex < min leaderCommit i then setCommitIndex (min leaderCommit i)
          pure i : LogAction σ Index) (fun n l' => n = i ∧ g.Accepts l i l')
        (fun _ l' => g.Learns l l' ∧ l'.commitIndex = l.commitIndex) l' := by
    intro l' hlearns hlast hagrees hcommit
    refine wp_raise hlast ⟨rfl, hlearns.raise hlast leaderCommit, hlast, fun j hj => ?_, ?_⟩
    · exact (hagrees j hj).congr rfl rfl
    · rw [hcommit]
      exact max_le_max_left _ (min_le_right _ _)
  rw [merge, Action.wp_bind]
  refine Action.wp_mono (wp_dropKnown_sorts hl hm hlow hk hagree hbatch) ?_ ?_
  · intro rest l₁ hsorts
    cases hsorts with
    | known hrest hlog hreach hagrees =>
      subst hrest hlog
      exact hraise l₁ (.withStore g l₁ l₁.store) (hi.trans hreach) (hagrees.mono hi) rfl
    | @fresh c s hrest hc hslice hreach hlog =>
      subst hlog
      rw [if_pos (by simpa using hrest), Action.wp_bind]
      refine wp_onStore (fun _ s' => ?_) fun _ s' _ => ?_
      · let l₂ : Log σ := { l with
          store := s', entries := l.entries.take (c - l.snapshotIndex) ++ rest }
        have hlast : l₂.lastIndex = c + rest.length := hc.lastIndex hl hslice rfl rfl
        have hs : l₂.snapshotIndex = l.snapshotIndex := rfl
        have he : l₂.entries = l.entries.take (c - l.snapshotIndex) ++ rest := rfl
        have hagrees := hc.agreesTo hl hslice hs he rfl i
        exact hraise l₂ (hc.learns hslice s') (by lia) hagrees rfl
      · have hcut := hc.learns (.nil g c) s'
        rw [List.append_nil] at hcut
        exact ⟨hcut, rfl⟩
  · rintro _ _ ⟨s, rfl⟩
    exact ⟨.withStore g l s, rfl⟩

omit [LogStore σ] in
theorem InStep.accepts (hk : g.InStep l k) (h : g.Accepts l i l') :
    g.InStep l' (max k i) ∧ Keeps k l l' := by
  have hcommit := h.commit
  have hcommitted := hk.committed
  refine ⟨⟨h.learns.tidy hk.tidy hk.bounded, h.learns.bounded hk.tidy hk.bounded, ?_, ?_, ?_, by lia⟩,
    hk.learns_keeps h.learns⟩
  · exact (hk.learns_agrees h.learns).1
  · exact (hk.learns_agrees h.learns).2.max h.agrees
  · exact max_le (hk.learns_held h.learns) h.held

/-- A batch of the leader's entries is taken over, or it is refused since it begins behind what the logs agree on. -/
theorem InStep.wp_reconcile (hk : g.InStep l k) {prevIndex : Index} {prevTerm : Term}
    (hprev : g.termAt? prevIndex = some prevTerm) (hbatch : g.Slice prevIndex batch) (leaderCommit : Index) :
    wp (reconcile prevIndex prevTerm batch leaderCommit)
      (fun i l' => i = prevIndex + batch.length ∧ g.Accepts l i l')
      (fun f l' => (g.Learns l l' ∧ l'.commitIndex = l.commitIndex) ∧ ∀ i hint, f = .error (.logConflict i hint) →
        l' = l ∧ k < prevIndex ∧ hint < prevIndex) l := by
  have hl := hk.tidy
  have hmerge : ∀ {p rest}, l.snapshotIndex ≤ p → p ≤ l.lastIndex → l.AgreesTo g p → g.Slice p rest →
      prevIndex + batch.length ≤ p + rest.length →
      wp (merge rest (prevIndex + batch.length) leaderCommit)
        (fun i l' => i = prevIndex + batch.length ∧ g.Accepts l i l')
        (fun f l' => (g.Learns l l' ∧ l'.commitIndex = l.commitIndex) ∧ ∀ i hint, f = .error (.logConflict i hint) →
          l' = l ∧ k < prevIndex ∧ hint < prevIndex) l := by
    intro p rest hlow hp hagree hrest hreach
    refine Action.wp_mono (Action.wp_and (strict_merge rest _ leaderCommit l)
      (wp_merge_accepts hl hk.matching hlow hp hagree hrest hreach leaderCommit)) ?_ ?_
    · rintro _ l' ⟨-, rfl, h⟩
      exact ⟨rfl, h⟩
    · rintro f l' ⟨hhalts, h⟩
      refine ⟨h, fun i hint hf => ?_⟩
      rw [hf] at hhalts
      cases hhalts
  apply wp_reconcile_cases
  case hfull => exact fun _ => ⟨⟨.withStore g l l.store, rfl⟩, by rintro _ _ ⟨⟩⟩
  case hcovered =>
    intro hcovered
    have hcommitted := hl.compacted.trans (hl.applied.trans hk.committed)
    refine hmerge le_rfl (hl.compacted.trans hl.held) (hk.agrees.mono hcommitted) (hbatch.uncovered hcovered) ?_
    rw [List.length_drop]
    lia
  case habsent =>
    intro hlow hnone
    refine ⟨⟨.withStore g l l.store, rfl⟩, ?_⟩
    rintro _ _ ⟨⟩
    refine ⟨rfl, hk.lt_of_differs hlow hprev (by rw [hnone]; simp), ?_⟩
    by_contra hle
    obtain ⟨t, ht⟩ := exists_termAt? hl.numbered hlow (not_lt.mp hle)
    rw [hnone] at ht
    cases ht
  case hmatches =>
    intro hterm
    obtain ⟨hlow, hp⟩ := within_of_termAt? hl.numbered hterm
    exact hmerge hlow hp (hk.matching prevIndex prevTerm hterm hprev) hbatch le_rfl
  case hdiffers =>
    intro term hterm hdiffers _
    refine ⟨⟨.withStore g l l.store, rfl⟩, ?_⟩
    rintro _ _ ⟨⟩
    have hlow := (within_of_termAt? hl.numbered hterm).1
    have hless := hk.lt_of_differs hlow hprev (by rw [hterm]; simpa using hdiffers)
    have hrun := firstOfRun_le l term prevIndex
    exact ⟨rfl, hless, by lia⟩
  case hunhinted => exact fun _ _ _ _ => ⟨⟨.withStore g l l.store, rfl⟩, by rintro _ _ ⟨⟩⟩

/-! ## A snapshot -/

omit [LogStore σ] in
/-- Behind a snapshot of the leader's the follower's entries are as before, or there are none. -/
theorem InStep.install_above (hk : g.InStep l k) {snap : Snapshot} (hnew : l.lastApplied < snap.index)
    (hterm : g.termAt? snap.index = some snap.term) (s : σ) :
    (∀ j, snap.index < j → Log.entry? (l.installed snap s) j = l.entry? j) ∧
        (l.installed snap s).lastIndex = l.lastIndex ∧ snap.index ≤ l.lastIndex ∨
      k < snap.index ∧ (l.installed snap s).entries = [] ∧ (l.installed snap s).lastIndex = snap.index := by
  have hl := hk.tidy
  have hlow : l.snapshotIndex ≤ snap.index := hl.compacted.trans hnew.le
  have hlast := (hl.install hnew s).1.lastIndex
  by_cases hsame : l.termAt? snap.index = some snap.term
  · have hentries : (l.installed snap s).entries = l.entries.drop (snap.index - l.snapshotIndex) :=
      if_pos hsame
    have hhigh := (within_of_termAt? hl.numbered hsame).2
    refine Or.inl ⟨fun j hj => entry?_drop hlow hentries hj, ?_, hhigh⟩
    rw [hlast, hentries]
    exact lastIndex_drop hl.numbered hlow hhigh
  · have hentries : (l.installed snap s).entries = [] := if_neg hsame
    refine Or.inr ⟨hk.lt_of_differs hlow hterm hsame, hentries, ?_⟩
    rw [hlast, hentries]
    rfl

omit [LogStore σ] in
/-- A snapshot of the leader's, taken over, leaves the logs in step up to its end at least. -/
theorem InStep.install (hk : g.InStep l k) {snap : Snapshot} (hnew : l.lastApplied < snap.index)
    (hterm : g.termAt? snap.index = some snap.term) (s : σ) :
    g.InStep (l.installed snap s) (max k snap.index) ∧ Keeps k l (l.installed snap s) := by
  have hl := hk.tidy
  have hlow : l.snapshotIndex ≤ snap.index := hl.compacted.trans hnew.le
  have htidy := (hl.install hnew s).1
  have hcovered : ∀ j ≤ snap.index, (l.installed snap s).Concurs g j := fun j hj =>
    concurs_of_covered (l := l.installed snap s) hterm hj
  have hcommit : (l.installed snap s).commitIndex = max l.commitIndex snap.index := rfl
  have hcommitted := hk.committed
  have hheld := hk.held
  have hbounded := hk.bounded
  unfold Bounded at hbounded
  rcases hk.install_above hnew hterm s with ⟨hentry, hlast, hhigh⟩ | ⟨hbeyond, hentries, hlast⟩
  · have hsame : ∀ j, snap.index < j → (l.installed snap s).termAt? j = l.termAt? j := by
      intro j hj
      rw [termAt?_of_lt hj, termAt?_of_lt (by lia), hentry j hj]
    have hagrees : ∀ i, l.AgreesTo g i → (l.installed snap s).AgreesTo g i := by
      intro i hi j hj
      by_cases hle : j ≤ snap.index
      · exact hcovered j hle
      · exact (hi j hj).congr (hsame j (by lia)) (hentry j (by lia))
    refine ⟨⟨htidy, ?_, ?_, ?_, by lia, by lia⟩, hlow, fun j _ hj => hentry j hj⟩
    · rw [Bounded, hlast, hcommit]
      exact max_le hbounded hhigh
    · intro i t ht ht'
      by_cases hle : i ≤ snap.index
      · exact fun j hj => hcovered j (hj.trans hle)
      · rw [hsame i (by lia)] at ht
        exact hagrees i (hk.matching i t ht ht')
    · exact (hagrees k hk.agrees).max hcovered
  · have hall : ∀ i, (l.installed snap s).AgreesTo g i := by
      intro i j _
      by_cases hle : j ≤ snap.index
      · exact hcovered j hle
      · refine concurs_of_entries (show snap.index < j by lia) fun e he => ?_
        have hmem := (htidy.entry?_eq_some.mp he).1
        rw [hentries] at hmem
        cases hmem
    refine ⟨⟨htidy, ?_, fun i _ _ _ => hall i, hall _, by lia, by lia⟩, hlow, fun j hj habove => ?_⟩
    · rw [Bounded, hlast, hcommit]
      lia
    · exact absurd (show snap.index < j from habove) (by lia)

end RaftNode.Log
