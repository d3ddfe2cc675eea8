import Mathlib
import RaftNode.Proofs.Alignment
/-!
# What a follower has acknowledged

A leader's requests may reach a follower late, twice and in any order. Whatever the order, the follower keeps what it
has acknowledged, and it is what the leader has: an older or shorter batch cuts nothing of it off, and an older snapshot
does not discard it. The follower may also act on a request and fail before it answers.
-/
namespace RaftNode

open RaftNode.Action (wp)
open RaftNode.Log (InStep)

variable {σ τ μ : Type}

/-- A request that tells of a part of the log `g`: a run of its entries behind one whose term is known, or a snapshot
up to such an entry. How far `g` is committed, and the term of the request, are left open. -/
def Request.CutFrom (g : Log τ) : Request → Prop
  | .vote _ => False
  | .append q => g.termAt? q.prevIndex = some q.prevTerm ∧
      ∃ most, q.entries = g.entriesFrom (q.prevIndex + 1) most
  | .install q => g.termAt? q.index = some q.snapshotTerm

/-- The index up to which an answer acknowledges a request. An answer of a newer term acknowledges nothing: the sender
takes it for a reason to step down. -/
def Request.acknowledged : Request → Reply → Index
  | .append q, .append r => if r.success then q.prevIndex + q.entries.length else 0
  | .install q, .install r => if r.term ≤ q.term then q.index else 0
  | _, _ => 0

theorem Request.CutFrom.slice {g : Log τ} (hg : NumberedFrom g.snapshotIndex g.entries) {q : AppendRequest}
    (hq : (Request.append q).CutFrom g) : g.Slice q.prevIndex q.entries := by
  obtain ⟨hprev, most, hentries⟩ := hq
  rw [hentries]
  exact Log.slice_entriesFrom hg (Log.within_of_termAt? hg hprev).1 most

namespace Node

variable [LogStore σ] {n n' n₀ : Node σ μ} {g : Log τ} {k : Index}

/-! ## Answers -/

/-- How a node, in step with `g` up to `k`, answers a request cut from `g`. -/
inductive Answers (g : Log τ) (k : Index) (n : Node σ μ) : Request → Reply → Node σ μ → Prop
  | outdatedAppend {q : AppendRequest} (hterm : q.term < n.term) :
      Answers g k n (.append q) (.append { term := n.term, success := false }) n
  | outdatedInstall {q : InstallRequest} (hterm : q.term < n.term) :
      Answers g k n (.install q) (.install { term := n.term }) n
  | stored {q : AppendRequest} {n' : Node σ μ} (hterm : n'.term = q.term)
      (hstep : g.InStep n'.log (max k (q.prevIndex + q.entries.length)))
      (hkeeps : Log.Keeps k n.log n'.log) :
      Answers g k n (.append q) (.append { term := q.term, success := true }) n'
  | refused {q : AppendRequest} {n' : Node σ μ} {hint : Index} {s : σ} (hterm : n'.term = q.term)
      (hbeyond : k < q.prevIndex) (hback : hint < q.prevIndex) (hlog : n'.log = { n.log with store := s }) :
      Answers g k n (.append q) (.append { term := q.term, success := false, matchHint := some hint }) n'
  | installed {q : InstallRequest} {n' : Node σ μ} (hterm : n'.term = q.term)
      (hstep : g.InStep n'.log (max k q.index)) (hkeeps : Log.Keeps k n.log n'.log) :
      Answers g k n (.install q) (.install { term := q.term }) n'

omit [LogStore σ] in
theorem Answers.inStep {q : Request} {r : Reply} (h : Answers g k n q r n') (hk : g.InStep n.log k) :
    g.InStep n'.log (max k (q.acknowledged r)) ∧ Log.Keeps k n.log n'.log := by
  cases h with
  | outdatedAppend hterm =>
    rw [Request.acknowledged, if_neg (by simp), max_eq_left (Nat.zero_le k)]
    exact ⟨hk, .refl k n.log⟩
  | outdatedInstall hterm =>
    rw [Request.acknowledged, if_neg (by simpa using hterm), max_eq_left (Nat.zero_le k)]
    exact ⟨hk, .refl k n.log⟩
  | stored hterm hstep hkeeps =>
    rw [Request.acknowledged, if_pos rfl]
    exact ⟨hstep, hkeeps⟩
  | refused hterm hbeyond hback hlog =>
    rw [Request.acknowledged, if_neg (by simp), max_eq_left (Nat.zero_le k)]
    exact ⟨hlog ▸ hk.withStore _, .of_stored hlog⟩
  | installed hterm hstep hkeeps =>
    rw [Request.acknowledged, if_pos le_rfl]
    exact ⟨hstep, hkeeps⟩

/-- What is left if a request ends early: nothing is acknowledged, and the logs are in step as before at least. -/
def Stands (g : Log τ) (k : Index) (n n' : Node σ μ) : Prop :=
  (∃ k', k ≤ k' ∧ g.InStep n'.log k') ∧ Log.Keeps k n.log n'.log

omit [LogStore σ] in
theorem Stands.of_stored (hk : g.InStep n.log k) {s : σ} (hlog : n'.log = { n.log with store := s }) :
    Stands g k n n' :=
  ⟨⟨k, le_rfl, hlog ▸ hk.withStore s⟩, .of_stored hlog⟩

/-- A node that turns to a leader whose term is not behind its own is in step as before. -/
theorem wp_follow_inStep (hk : g.InStep n.log k) {term : Term} (hterm : n.term ≤ term) (m : Moment)
    (leader : NodeId) :
    wp (follow m term leader)
      (fun _ n' => n'.term = term ∧ g.InStep n'.log k ∧ ∃ s, n'.log = { n.log with store := s })
      (fun _ n' => Stands g k n n') n := by
  refine Action.wp_mono (wp_follow_turns m term leader n) ?_ ?_
  · rintro - n' hturns
    obtain ⟨s, hlog⟩ := hturns.log
    exact ⟨hturns.term.trans (max_eq_right hterm), hlog ▸ hk.withStore s, s, hlog⟩
  · rintro f n' ⟨-, s, hlog⟩
    exact .of_stored hk hlog

theorem wp_onAppendRequest_answers (hg : NumberedFrom g.snapshotIndex g.entries) (hk : g.InStep n.log k)
    {q : AppendRequest} (hq : (Request.append q).CutFrom g) (m : Moment) :
    wp (onAppendRequest m q) (fun r n' => Answers g k n (.append q) (.append r) n')
      (fun _ n' => Stands g k n n') n := by
  have hslice := hq.slice hg
  obtain ⟨hprev, -⟩ := hq
  rw [onAppendRequest, Action.wp_bind, Action.wp_get, Action.wp_ite]
  split
  · rename_i hterm
    exact .outdatedAppend hterm
  rename_i hterm
  refine Action.wp_seq (wp_follow_inStep hk (not_lt.mp hterm) m q.leader) ?_
  rintro - n₁ ⟨hcurrent, hk₁, s, hlog⟩
  have hkept : Log.Keeps k n.log n₁.log := .of_stored hlog
  have hrec := hk₁.wp_reconcile hprev hslice q.commit
  rw [Action.wp_bind, Action.wp_get]
  split
  · rename_i i log hrun
    obtain ⟨rfl, haccepts⟩ := Action.wp_ok hrec hrun
    obtain ⟨hstep, hkeeps⟩ := hk₁.accepts haccepts
    rw [Action.wp_bind, Action.wp_set, hcurrent]
    exact .stored rfl hstep (hkept.trans hkeeps)
  · rename_i i hint log hrun
    obtain ⟨-, hrefused⟩ := Action.wp_error hrec hrun
    obtain ⟨rfl, hbeyond, hback⟩ := hrefused i hint rfl
    rw [Action.wp_bind, Action.wp_set, hcurrent]
    exact .refused rfl hbeyond hback hlog
  · rename_i f log hother hrun
    obtain ⟨⟨hlearns, hcommit⟩, -⟩ := Action.wp_error hrec hrun
    rw [Action.wp_bind, Action.wp_set]
    exact ⟨⟨k, le_rfl, hk₁.learned hlearns (hcommit ▸ hk₁.committed)⟩, hkept.trans (hk₁.learns_keeps hlearns)⟩

variable [StateMachine μ]

/-- A snapshot that ends where everything is applied already is acknowledged all the same. -/
theorem wp_onInstallRequest_answers (hk : g.InStep n.log k) {q : InstallRequest}
    (hq : (Request.install q).CutFrom g) (m : Moment) :
    wp (onInstallRequest m q) (fun r n' => Answers g k n (.install q) (.install r) n')
      (fun _ n' => Stands g k n n') n := by
  rw [onInstallRequest, Action.wp_bind, Action.wp_get, Action.wp_ite]
  split
  · rename_i hterm
    exact .outdatedInstall hterm
  rename_i hterm
  refine Action.wp_seq (wp_follow_inStep hk (not_lt.mp hterm) m q.leader) ?_
  rintro - n₁ ⟨hcurrent, hk₁, s, hlog⟩
  have hkept : Log.Keeps k n.log n₁.log := .of_stored hlog
  rw [Action.wp_bind, wp_onLog]
  refine Action.wp_mono (Log.wp_install_memory ⟨q.index, q.snapshotTerm, q.data⟩ n₁.log) ?_ ?_
  · rintro taken l ⟨hold, hnew⟩
    simp only [Action.wp_ite, Action.wp_bind, Action.wp_get, Action.wp_pure]
    split
    · rename_i htaken
      obtain ⟨hahead, s', rfl⟩ := hnew htaken
      let snap : Snapshot := ⟨q.index, q.snapshotTerm, q.data⟩
      have hahead : n₁.log.lastApplied < snap.index := hahead
      obtain ⟨hstep, hkeeps⟩ := hk₁.install hahead hq s'
      split
      · exact ⟨⟨_, le_max_left _ _, hstep⟩, hkept.trans hkeeps⟩
      · rw [Action.wp_bind, Action.wp_set, Action.wp_bind, Action.wp_get, Action.wp_pure]
        dsimp only
        rw [hcurrent]
        exact .installed rfl hstep (hkept.trans hkeeps)
    · rename_i htaken
      obtain ⟨happlied, rfl⟩ := hold (by simpa using htaken)
      have hcommitted := hk₁.tidy.applied.trans hk₁.committed
      have hall : max k q.index = k := max_eq_left (happlied.trans hcommitted)
      rw [hcurrent]
      exact .installed rfl (hall.symm ▸ hk₁) hkept
  · rintro f l ⟨-, s', rfl⟩
    exact ⟨⟨k, le_rfl, hk₁.withStore s'⟩, hkept.trans (.of_stored rfl)⟩

theorem wp_onRequest_answers (hg : NumberedFrom g.snapshotIndex g.entries) (hk : g.InStep n.log k)
    {q : Request} (hq : q.CutFrom g) (m : Moment) :
    wp (onRequest m q) (fun r n' => Answers g k n q r n') (fun _ n' => Stands g k n n') n := by
  cases q with
  | vote q => exact hq.elim
  | append q =>
    rw [onRequest, Action.wp_bind]
    exact wp_onAppendRequest_answers hg hk hq m
  | install q =>
    rw [onRequest, Action.wp_bind]
    exact wp_onInstallRequest_answers hk hq m

/-! ## Any order -/

/-- What becomes of a follower that is sent parts of `g`, in any order and again and again, and the highest index that
it has acknowledged by then. -/
inductive Receives (g : Log τ) (n₀ : Node σ μ) : Index → Node σ μ → Prop
  | start : Receives g n₀ 0 n₀
  | answer {k : Index} {n n' : Node σ μ} {m : Moment} {q : Request} {r : Reply} (h : Receives g n₀ k n)
      (hq : q.CutFrom g) (hrun : onRequest m q n = .ok r n') :
      Receives g n₀ (max k (q.acknowledged r)) n'
  | fail {k : Index} {n n' : Node σ μ} {m : Moment} {q : Request} {f : Fault NodeError}
      (h : Receives g n₀ k n) (hq : q.CutFrom g) (hrun : onRequest m q n = .error f n') : Receives g n₀ k n'

/-- A follower's log before anything reaches it: it matches `g`, and what it has committed and compacted is `g`'s. -/
structure Suits (g : Log τ) (l : Log σ) : Prop where
  tidy : l.Tidy
  bounded : l.Bounded
  matching : l.Matching g
  committed : l.AgreesTo g l.commitIndex

omit [LogStore σ] [StateMachine μ] in
theorem Suits.inStep {l : Log σ} (h : Suits g l) : g.InStep l l.commitIndex :=
  ⟨h.tidy, h.bounded, h.matching, h.committed, h.bounded, le_rfl⟩

theorem Receives.inStep (hg : NumberedFrom g.snapshotIndex g.entries) (hs : Suits g n₀.log)
    (h : Receives g n₀ k n) : ∃ k', k ≤ k' ∧ g.InStep n.log k' := by
  induction h with
  | start => exact ⟨_, Nat.zero_le _, hs.inStep⟩
  | @answer k n n' m q r _ hq hrun ih =>
    obtain ⟨k', hle, hk⟩ := ih
    have hanswers := Action.wp_ok (wp_onRequest_answers hg hk hq m) hrun
    exact ⟨_, max_le_max_right _ hle, (hanswers.inStep hk).1⟩
  | @fail k n n' m q f _ hq hrun ih =>
    obtain ⟨k', hle, hk⟩ := ih
    obtain ⟨⟨k'', hle', hk'⟩, -⟩ := Action.wp_error (wp_onRequest_answers hg hk hq m) hrun
    exact ⟨k'', hle.trans hle', hk'⟩

/-- The follower has what the leader has, up to an index and behind what its snapshot covers. -/
structure Shares (g : Log τ) (k : Index) (l : Log σ) : Prop where
  agrees : l.AgreesTo g k
  held : ∀ j ≤ k, l.snapshotIndex < j → ∃ e, l.entry? j = some e

omit [LogStore σ] [StateMachine μ] in
theorem Shares.of_inStep {l : Log σ} (hk : g.InStep l k) : Shares g k l := by
  exact ⟨hk.agrees, fun j hj hlow => Log.exists_entry hk.tidy.numbered hlow (hj.trans hk.held)⟩

omit [LogStore σ] [StateMachine μ] in
theorem Shares.mono {k' : Index} {l : Log σ} (h : Shares g k' l) (hle : k ≤ k') : Shares g k l :=
  ⟨h.agrees.mono hle, fun j hj => h.held j (hj.trans hle)⟩

/-- Acknowledgements are stable: whatever reached the follower so far, up to the highest index that it has acknowledged
it has what the leader has, or covers it by its snapshot; and whatever reaches it next, it keeps that. -/
theorem Receives.stable (hg : NumberedFrom g.snapshotIndex g.entries) (hs : Suits g n₀.log)
    (h : Receives g n₀ k n) :
    Shares g k n.log ∧ ∀ q, q.CutFrom g → ∀ m, Log.Keeps k n.log ((onRequest m q).after n).log := by
  obtain ⟨k', hle, hk⟩ := h.inStep hg hs
  refine ⟨(Shares.of_inStep hk).mono hle, fun q hq m => ?_⟩
  refine Action.of_after (P := fun n' => Log.Keeps k n.log n'.log)
    (Action.wp_mono (wp_onRequest_answers hg hk hq m) ?_ ?_)
  · intro r n' hanswers
    exact (hanswers.inStep hk).2.mono hle
  · rintro f n' ⟨-, hkeeps⟩
    exact hkeeps.mono hle

/-! ## A batch, an older one, and a snapshot -/

/-- The log of a leader of term 2. -/
def ledLog : Log MemoryStore where
  store := {}
  entries := [⟨1, 1, [97]⟩, ⟨2, 2, []⟩, ⟨3, 2, [98]⟩]

/-- A follower whose second entry, of an older term, is not the leader's. -/
def diverged : Node MemoryStore Journal := { newcomer with
  term := 2, role := .follower (some 2),
  log := {
    store := { kept := { hard := ⟨2, none⟩, entries := [⟨1, 1, [97]⟩, ⟨2, 1, [99]⟩] } },
    entries := [⟨1, 1, [97]⟩, ⟨2, 1, [99]⟩], commitIndex := 1 } }

def lastTwo : Request := .append ⟨2, 2, 1, 1, [⟨2, 2, []⟩, ⟨3, 2, [98]⟩], 0⟩

def firstOnly : Request := .append ⟨2, 2, 0, 0, [⟨1, 1, [97]⟩], 0⟩

def firstTwo : Request :=
  .install ⟨2, 2, 2, 2, StateMachine.snapshot ({ lastIndex := 2, applied := ["a"] } : Journal)⟩

/-- The follower has the leader's entries, and its own is gone. -/
def converged : Node MemoryStore Journal := { diverged with
  electionDeadline := 300
  log := {
    store := { kept := { hard := ⟨2, none⟩, entries := ledLog.entries } },
    entries := ledLog.entries, commitIndex := 1 } }

/-- The first two entries are behind a snapshot, and the third is still there. -/
def covered : Node MemoryStore Journal := { converged with
  log := {
    store := { kept := {
      hard := ⟨2, none⟩, entries := [⟨3, 2, [98]⟩],
      snapshot := some ⟨2, 2, StateMachine.snapshot ({ lastIndex := 2, applied := ["a"] } : Journal)⟩ } },
    entries := [⟨3, 2, [98]⟩], snapshotIndex := 2, snapshotTerm := 2, commitIndex := 2, lastApplied := 2 },
  machine := { lastIndex := 2, applied := ["a"] } }

theorem diverged_lastTwo : onRequest {} lastTwo diverged = .ok (.append ⟨2, true, none⟩) converged := rfl

theorem converged_firstOnly : onRequest {} firstOnly converged = .ok (.append ⟨2, true, none⟩) converged := rfl

theorem converged_firstTwo : onRequest {} firstTwo converged = .ok (.install ⟨2⟩) covered := by cbv

theorem ledLog_numbered : NumberedFrom ledLog.snapshotIndex ledLog.entries :=
  .cons rfl (.cons rfl (.cons rfl (.nil 3)))

theorem diverged_agrees : diverged.log.AgreesTo ledLog 1 := by
  intro j hj
  have hsame : diverged.log.termAt? j = ledLog.termAt? j ∧ diverged.log.entry? j = ledLog.entry? j := by
    rcases (show j = 0 ∨ j = 1 by lia) with rfl | rfl
    · exact ⟨rfl, rfl⟩
    · exact ⟨rfl, rfl⟩
  exact (Log.Concurs.refl ledLog j).congr hsame.1 hsame.2

/-- From the second entry on the terms differ, and the follower has no third. -/
theorem diverged_suits : Suits ledLog diverged.log := by
  constructor
  · exact ⟨.cons rfl (.cons rfl (.nil 2)), by decide, by decide, by decide⟩
  · exact Nat.le_succ 1
  · intro i t ht ht'
    rcases i with _ | _ | _ | i
    · exact diverged_agrees.mono (Nat.zero_le 1)
    · exact diverged_agrees
    · cases (show some 1 = some t from ht)
      cases (show some 2 = some 1 from ht')
    · cases (show none = some t from ht)
  · exact diverged_agrees

/-- The older batch cuts nothing off, and the snapshot leaves what is behind it. -/
theorem stable_diverged : NumberedFrom ledLog.snapshotIndex ledLog.entries ∧ Suits ledLog diverged.log ∧
    Receives ledLog diverged 3 covered ∧ Shares ledLog 3 covered.log ∧
    Log.Keeps 3 covered.log ((onRequest {} firstOnly).after covered).log := by
  have hlastTwo : lastTwo.CutFrom ledLog := ⟨rfl, 2, rfl⟩
  have hfirstOnly : firstOnly.CutFrom ledLog := ⟨rfl, 1, rfl⟩
  have hfirstTwo : firstTwo.CutFrom ledLog := rfl
  have hreceives : Receives ledLog diverged 3 covered :=
    .answer (.answer (.answer .start hlastTwo diverged_lastTwo) hfirstOnly converged_firstOnly) hfirstTwo
      converged_firstTwo
  obtain ⟨hshares, hkeeps⟩ := hreceives.stable ledLog_numbered diverged_suits
  exact ⟨ledLog_numbered, diverged_suits, hreceives, hshares, hkeeps firstOnly hfirstOnly {}⟩

end Node
end RaftNode
