import Mathlib
import RaftNode.Proofs.Acknowledged
/-!
# A follower that answers

As long as its store works, a follower has an answer to every request that its leader cuts out of its log: it takes over
what is sent, or it refuses and says how far to go back. It is never left with an error, since what is committed is the
leader's and every number fits.
-/
namespace RaftNode

open RaftNode.Action (wp)

variable {σ τ μ : Type}

namespace Log

variable {l l' : Log σ} {g : Log τ} {i j k : Index} {batch : List Entry}

/-! ## How far a batch reaches -/

theorem index_le_of_entry (hg : NumberedFrom g.snapshotIndex g.entries) {e : Entry} (h : g.entry? j = some e) :
    j ≤ g.lastIndex :=
  (within_of_termAt? hg (termAt?_of_entry h)).2

theorem Slice.reach_le (hg : NumberedFrom g.snapshotIndex g.entries) (h : g.Slice k batch) :
    k + batch.length ≤ max k g.lastIndex := by
  rcases List.eq_nil_or_concat' batch with rfl | ⟨front, e, rfl⟩
  · exact le_max_left _ _
  · have hindex := h.numbered front.length e (by simp)
    have hlast := index_le_of_entry hg (h.cut e (by simp))
    rw [List.length_append, List.length_singleton]
    exact le_max_of_le_right (by lia)

/-- A log that learns grows no longer than the log it learns from. -/
theorem Learns.lastIndex_le (hg : NumberedFrom g.snapshotIndex g.entries) (h : g.Learns l l') (hl : l.Tidy) :
    l'.lastIndex ≤ max l.lastIndex g.lastIndex := by
  cases h.entries with
  | same he =>
    rw [lastIndex_of_numbered (h.numbered hl), h.snapshotIndex, he, ← hl.lastIndex]
    exact le_max_left _ _
  | cut hc hfresh he =>
    rw [hc.lastIndex hl hfresh h.snapshotIndex he]
    exact (hfresh.reach_le hg).trans (max_le_max_right _ hc.high)

/-! ## Logs whose stores work -/

/-- Nothing that a log has committed differs from what its leader sends. -/
theorem InStep.contested?_eq_none (hk : g.InStep l k) (hbatch : g.Slice j batch) : l.contested? batch = none := by
  rw [Option.eq_none_iff_forall_ne_some]
  intro e he
  obtain ⟨hhead, hcommitted⟩ := Option.filter_eq_some_iff.mp he
  simp only [Bool.and_eq_true, decide_eq_true_eq] at hcommitted
  obtain ⟨hheld, hlow⟩ := hcommitted
  obtain ⟨e', he'⟩ := Option.isSome_iff_exists.mp hheld
  have hmem : e ∈ batch := (List.dropWhile_sublist _).mem (List.mem_of_mem_head? hhead)
  have hdiffers : l.differs e = true := by
    have hfirst := List.head?_dropWhile_not (fun e => !l.differs e) batch
    rw [← fresh, hhead] at hfirst
    simpa using hfirst
  obtain rfl := (hk.agrees e.index (hlow.trans hk.committed)).entry e' e he' (hbatch.cut e hmem)
  rw [differs, he'] at hdiffers
  simp at hdiffers

theorem InStep.wellFormed (hk : g.InStep l k) (hfits : l.lastIndex < wordLimit) : l.WellFormed :=
  ⟨hk.tidy.numbered, hk.tidy.compacted.trans hk.tidy.applied, hk.bounded, hfits⟩

/-- The store of the log works, and what it holds is what the log holds. -/
structure Sturdy (Holds : σ → Persisted → Prop) (l : Log σ) : Prop where
  backed : ∃ p, l.Backed Holds p
  fits : l.lastIndex < wordLimit

variable [LogStore σ] {Holds : σ → Persisted → Prop} (hstore : Obliging Holds)

include hstore

theorem Sturdy.wp_saveHard (h : l.Sturdy Holds) {hard : HardState} (hhard : LawfulWire.Fits hard) :
    wp (saveHard hard) (fun _ l' => l'.Sturdy Holds) (fun _ _ => False) l := by
  obtain ⟨p, hb⟩ := h.backed
  refine wp_onStore_obliging hstore hb.holds (w := .hard hard) hhard fun s hs => ?_
  exact ⟨⟨{ p with hard }, hs, hb.entries, hb.covered⟩, h.fits⟩

/-- What a leader sends is taken over or refused. -/
theorem InStep.wp_reconcile_sturdy (hg : NumberedFrom g.snapshotIndex g.entries) (hroom : g.lastIndex + 1 < wordLimit)
    (hterms : ∀ e ∈ g.entries, e.term < wordLimit) (hk : g.InStep l k) (h : l.Sturdy Holds) {prevIndex : Index}
    {prevTerm : Term} (hprev : g.termAt? prevIndex = some prevTerm) (hbatch : g.Slice prevIndex batch)
    (leaderCommit : Index) :
    wp (reconcile prevIndex prevTerm batch leaderCommit) (fun _ l' => l'.Sturdy Holds)
      (fun f l' => l' = l ∧ ∃ i hint, f = .error (.logConflict i hint)) l := by
  obtain ⟨p, hb⟩ := h.backed
  have hlast := (within_of_termAt? hg hprev).2
  have hreach := hbatch.reach_le hg
  have hbatchTerms : ∀ e ∈ batch, e.term < wordLimit := fun e he =>
    hterms e ((entry?_of_numbered hg).mp (hbatch.cut e he)).1
  refine Action.wp_mono (Action.wp_and (hk.wp_reconcile hprev hbatch leaderCommit)
    (wp_reconcile_obliging hstore (hk.wellFormed h.fits) hb hbatch.numbered hbatchTerms (by lia) prevTerm
      leaderCommit)) ?_ ?_
  · rintro i l' ⟨⟨-, haccepts⟩, -, -, -, htaken⟩
    have hgrown := haccepts.learns.lastIndex_le hg hk.tidy
    have hfits := h.fits
    refine ⟨⟨{ p with entries := l.merged batch }, htaken.store, ?_, ?_⟩, by lia⟩
    · rw [htaken.log]
    · rw [htaken.log]
      exact hb.covered
  · rintro f l' ⟨-, rfl, hdeclines⟩
    cases hdeclines with
    | refused _ _ hint => exact ⟨rfl, prevIndex, hint, rfl⟩
    -- the log would have to be full, but its snapshot ends before the batch begins
    | full hrefuses hfull =>
      have hcovered := hrefuses.1
      exact absurd (show l'.snapshotIndex + 1 < wordLimit by lia) hfull
    | contested _ _ hcontests =>
      obtain ⟨e, he⟩ := hcontests
      rw [hk.contested?_eq_none hbatch] at he
      cases he

/-- A snapshot ahead of what is applied is kept, and with it what the log keeps behind it. -/
theorem Backed.wp_install {p : Persisted} (hb : l.Backed Holds p) (hl : l.Tidy) {snap : Snapshot}
    (hfits : LawfulWire.Fits snap) (hroom : snap.index + 1 < wordLimit) :
    wp (Log.install snap) (fun taken l' => ∃ p', l'.Backed Holds p' ∧
        if taken then p'.snapshot = some snap ∧ ∀ e ∈ p'.entries, snap.index < e.index else l' = l ∧ p' = p)
      (fun _ _ => False) l := by
  have hnum : NumberedFrom p.covered p.entries := by
    rw [hb.covered, hb.entries]
    exact hl.numbered
  simp only [Log.install, Action.wp_bind, Action.wp_get, Action.wp_ite, Action.wp_modify, Action.wp_pure, Action.wp_add,
    Action.wp_sub]
  split
  · exact ⟨p, hb, trivial, rfl⟩
  rename_i hnew
  have hcovered : l.snapshotIndex ≤ snap.index := hl.compacted.trans (not_le.mp hnew).le
  have hbehind : p.covered ≤ snap.index := hb.covered.trans_le hcovered
  split
  · refine wp_onStore_obliging hstore hb.holds (w := .install snap) ⟨hbehind, hfits⟩ fun s hs => ?_
    refine ⟨_, ⟨hs, ?_, rfl⟩, rfl, fun e he => of_decide_eq_true (List.mem_filter.mp he).2⟩
    change p.entries.filter _ = l.entries.drop _
    rw [hnum.filter_above, hb.covered, hb.entries]
  · refine wp_onStore_obliging hstore hb.holds (w := .truncate (snap.index + 1)) trivial fun s hs => ?_
    let cut : Persisted := { p with entries := p.entries.filter fun e => e.index < snap.index + 1 }
    refine wp_onStore_obliging hstore (p := cut) hs (w := .install snap) ⟨hbehind, hfits⟩ fun s' hs' => ?_
    refine ⟨_, ⟨hs', ?_, rfl⟩, rfl, fun e he => of_decide_eq_true (List.mem_filter.mp he).2⟩
    change (p.entries.filter _).filter _ = []
    rw [List.filter_filter, List.filter_eq_nil_iff]
    intro e _
    simp only [Bool.and_eq_true, decide_eq_true_eq]
    lia

/-- A snapshot of the leader's is kept. -/
theorem InStep.wp_install_sturdy (hg : NumberedFrom g.snapshotIndex g.entries) (hroom : g.lastIndex + 1 < wordLimit)
    (hk : g.InStep l k) (h : l.Sturdy Holds) (snap : Snapshot) (hterm : g.termAt? snap.index = some snap.term)
    (hfits : snap.term < wordLimit) :
    wp (Log.install snap) (fun _ l' => l'.Sturdy Holds) (fun _ _ => False) l := by
  obtain ⟨p, hb⟩ := h.backed
  have hlast := (within_of_termAt? hg hterm).2
  have hsnap : LawfulWire.Fits snap := ⟨show snap.index < wordLimit by lia, hfits⟩
  refine Action.wp_mono (Action.wp_and (hb.wp_install hstore hk.tidy hsnap (by lia))
    (wp_install_memory snap l)) ?_ fun _ _ hf => hf.1
  rintro taken l' ⟨⟨p', hbacked, -⟩, hold, hnew⟩
  refine ⟨⟨p', hbacked⟩, ?_⟩
  cases taken with
  | false =>
    obtain ⟨-, rfl⟩ := hold rfl
    exact h.fits
  | true =>
    obtain ⟨hahead, s, rfl⟩ := hnew rfl
    have hfits := h.fits
    rcases hk.install_above hahead hterm s with ⟨-, hlast', -⟩ | ⟨-, -, hlast'⟩
    · lia
    · lia

end Log

namespace Node

variable [LogStore σ] {n : Node σ μ} {g : Log τ} {k : Index} {Holds : σ → Persisted → Prop} (hstore : Obliging Holds)

/-- To accept a leader takes one write at most, which its log must stand. -/
theorem wp_follow_of_saveHard {P : Log σ → Prop} {E : Fault NodeError → Prop} {term : Term}
    (hsave : wp (Log.saveHard ⟨term, none⟩) (fun _ l => P l) (fun f _ => E f) n.log) (h : P n.log)
    (m : Moment) (leader : NodeId) : wp (follow m term leader) (fun _ n' => P n'.log) (fun f _ => E f) n := by
  have hstays : ∀ n : Node σ μ, P n.log → wp (do
        setRole (.follower (some leader))
        resetDeadline m : NodeAction σ μ Unit) (fun _ n' => P n'.log) (fun f _ => E f) n := by
    intro n h
    rw [Action.wp_bind, wp_setRole (mayBecome_follower _), resetDeadline, Action.wp_modify]
    exact h
  rw [follow, Action.wp_bind, Action.wp_get, Action.wp_ite]
  split
  · rw [becomeFollower, Action.wp_bind, Action.wp_get, Action.wp_ite]
    split
    · rw [Action.wp_bind, adopt, Action.wp_bind, Action.wp_modify, wp_onLog]
      refine Action.wp_imp hsave fun _ l h' => ?_
      exact hstays _ h'
    · exact hstays n h
  · exact hstays n h

include hstore

theorem wp_follow_sturdy (h : n.log.Sturdy Holds) (m : Moment) {term : Term} (hterm : term < wordLimit)
    (leader : NodeId) :
    wp (follow m term leader) (fun _ n' => n'.log.Sturdy Holds) (fun _ _ => False) n :=
  wp_follow_of_saveHard (h.wp_saveHard hstore ⟨hterm, by simp⟩) h m leader

variable (hg : NumberedFrom g.snapshotIndex g.entries) (hroom : g.lastIndex + 1 < wordLimit) (hk : g.InStep n.log k)
  (h : n.log.Sturdy Holds)

include hg hroom hk h

/-- Neither a batch nor its refusal concerns the machine. -/
theorem wp_onAppendRequest_sturdy (hterms : ∀ e ∈ g.entries, e.term < wordLimit) {q : AppendRequest}
    (hq : (Request.append q).CutFrom g) (hterm : q.term < wordLimit) (m : Moment) :
    wp (onAppendRequest m q) (fun _ n' => n'.log.Sturdy Holds ∧ n'.machine = n.machine) (fun _ _ => False) n := by
  have hslice := hq.slice hg
  obtain ⟨hprev, -⟩ := hq
  rw [onAppendRequest, Action.wp_bind, Action.wp_get, Action.wp_ite]
  split
  · exact ⟨h, rfl⟩
  rw [Action.wp_bind]
  refine Action.wp_mono (Action.wp_and (wp_follow_sturdy hstore h m hterm q.leader)
    (wp_follow_turns m q.term q.leader n)) ?_ fun _ _ hf => hf.1
  rintro - n₁ ⟨h₁, hturns⟩
  obtain ⟨s, hlog⟩ := hturns.log
  have hk₁ : g.InStep n₁.log k := hlog ▸ hk.withStore s
  have hrec := hk₁.wp_reconcile_sturdy hstore hg hroom hterms h₁ hprev hslice q.commit
  rw [Action.wp_bind, Action.wp_get]
  split
  · rename_i i log hrun
    rw [Action.wp_bind, Action.wp_set]
    have hkept := Action.wp_ok hrec hrun
    exact ⟨hkept, hturns.machine⟩
  · rename_i i hint log hrun
    obtain ⟨rfl, -⟩ := Action.wp_error hrec hrun
    rw [Action.wp_bind, Action.wp_set]
    exact ⟨h₁, hturns.machine⟩
  · rename_i f log hother hrun
    obtain ⟨-, i, hint, rfl⟩ := Action.wp_error hrec hrun
    exact (hother i hint rfl).elim

variable [StateMachine μ]

theorem wp_onInstallRequest_sturdy {q : InstallRequest} (hq : (Request.install q).CutFrom g)
    (hterm : q.term < wordLimit) (hsnapTerm : q.snapshotTerm < wordLimit)
    (hrestores : ∃ machine, StateMachine.restore n.machine q.data = .ok machine) (m : Moment) :
    wp (onInstallRequest m q) (fun _ n' => n'.log.Sturdy Holds) (fun _ _ => False) n := by
  rw [onInstallRequest, Action.wp_bind, Action.wp_get, Action.wp_ite]
  split
  · exact h
  rw [Action.wp_bind]
  refine Action.wp_mono (Action.wp_and (wp_follow_sturdy hstore h m hterm q.leader)
    (wp_follow_turns m q.term q.leader n)) ?_ fun _ _ hf => hf.1
  rintro - n₁ ⟨h₁, hturns⟩
  obtain ⟨s, hlog⟩ := hturns.log
  have hk₁ : g.InStep n₁.log k := hlog ▸ hk.withStore s
  rw [Action.wp_bind, wp_onLog]
  refine Action.wp_imp (hk₁.wp_install_sturdy hstore hg hroom h₁ ⟨q.index, q.snapshotTerm, q.data⟩ hq hsnapTerm)
    fun taken l h₂ => ?_
  obtain ⟨machine, hmachine⟩ := hrestores
  simp only [Action.wp_ite, Action.wp_bind, Action.wp_get, Action.wp_pure]
  split
  · rw [hturns.machine, hmachine, Action.wp_bind, Action.wp_set]
    exact h₂
  · exact h₂

end Node

end RaftNode
