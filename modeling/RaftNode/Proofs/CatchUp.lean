import Mathlib
import RaftNode.Proofs.Machines
import RaftNode.Proofs.Replying
/-!
# Bringing a peer up to date

A leader and one peer exchange requests and answers while nothing else happens. A refusal moves the leader back, an
acknowledgement moves it on, and it never goes back behind what was acknowledged. So after a bounded number of rounds
the peer has all that the leader has.
-/
namespace RaftNode

open RaftNode.Action (wp)

variable {σ τ μ ν : Type}

/-! ## What a leader sends -/

/-- A leader's log as it can be handed on: every number in it fits, and what was compacted away is in the store. -/
structure Log.Stocked [LogStore τ] (g : Log τ) (data : Bytes) : Prop where
  numbered : NumberedFrom g.snapshotIndex g.entries
  terms : ∀ e ∈ g.entries, e.term < wordLimit
  snapshotTerm : g.snapshotTerm < wordLimit
  loaded : 0 < g.snapshotIndex → g.loadSnapshot = .ok (some ⟨g.snapshotIndex, g.snapshotTerm, data⟩)

/-- What a leader with this log sends to a peer that needs the entries from an index on. -/
inductive Request.Fetches (g : Log τ) (data : Bytes) (term : Term) (next : Index) : Request → Prop
  | entries {q : AppendRequest} (hterm : q.term = term) (hprev : q.prevIndex + 1 = next)
      (hcut : (Request.append q).CutFrom g) (hmore : next ≤ g.lastIndex → q.entries ≠ []) :
      Fetches g data term next (.append q)
  | snapshot {q : InstallRequest} (hterm : q.term = term) (hcovered : next ≤ g.snapshotIndex)
      (hindex : q.index = g.snapshotIndex) (hsnapTerm : q.snapshotTerm = g.snapshotTerm) (hdata : q.data = data) :
      Fetches g data term next (.install q)

variable [LogStore τ] {g : Log τ} {data : Bytes} {term : Term} {peer : NodeId} {p : Progress}

omit [LogStore τ] in
theorem Log.entriesFrom_ne_nil (hg : NumberedFrom g.snapshotIndex g.entries) {next : Index}
    (hlow : g.snapshotIndex < next) (hlast : next ≤ g.lastIndex) {most : Nat} (hmost : 0 < most) :
    g.entriesFrom next most ≠ [] := by
  rw [lastIndex_of_numbered hg] at hlast
  rw [entriesFrom, if_neg (by lia), ← List.length_pos_iff, List.length_take, List.length_drop]
  lia

/-- There is a request for every peer, wherever it stands. -/
theorem Replication.requestAt_fetches (hg : g.Stocked data) (term : Term) {next : Index} (hnext : 0 < next)
    (hwithin : next ≤ g.lastIndex + 1) {most : Nat} (hmost : 0 < most) (leader : NodeId) (commit : Index) :
    ∃ q, requestAt next { g with commitIndex := commit } term leader most = .ok q ∧ q.Fetches g data term next := by
  by_cases hcovered : next ≤ g.snapshotIndex
  · have hload : Log.loadSnapshot { g with commitIndex := commit } = _ := hg.loaded (by lia)
    refine ⟨.install ⟨term, leader, g.snapshotIndex, g.snapshotTerm, data⟩, ?_, .snapshot rfl hcovered rfl rfl rfl⟩
    rw [requestAt, if_pos hcovered, hload]
  · have hlow : g.snapshotIndex ≤ next - 1 := by lia
    obtain ⟨t, ht⟩ := Log.exists_termAt? hg.numbered hlow (by lia)
    have hterm : Log.termAt? { g with commitIndex := commit } (next - 1) = some t := ht
    have hprev : next - 1 + 1 = next := by lia
    refine ⟨.append ⟨term, leader, next - 1, t, g.entriesFrom next most, commit⟩, ?_,
      .entries rfl hprev ⟨ht, most, ?_⟩ fun hlast => ?_⟩
    · rw [requestAt, if_neg hcovered]
      dsimp only
      rw [hterm]
      rfl
    · dsimp only
      rw [hprev]
    · exact Log.entriesFrom_ne_nil hg.numbered (by lia) hlast hmost

/-- The node leads, and this is what it knows of the peer. -/
def Node.Knows (peer : NodeId) (p : Progress) (n : Node τ ν) : Prop :=
  ∃ r, n.role = .leader r ∧ r.find? peer = some p

/-- The node leads with this log, and knows this of the peer. -/
structure Node.Tracks (g : Log τ) (term : Term) (peer : NodeId) (p : Progress) (n : Node τ ν) : Prop where
  leads : n.Knows peer p
  log : ∃ c, n.log = { g with commitIndex := c }
  term : n.term = term
  batches : 0 < n.config.maxEntries

omit [LogStore τ] in
/-- The view of a leader that knows this of the peer, once something of it has changed. -/
theorem Node.Tracks.update {n : Node τ ν} {r : Replication} (h : n.Tracks g term peer p) (hr : r.find? peer = some p)
    (f : Progress → Progress) : Node.Tracks g term peer (f p) { n with role := .leader (r.update peer f) } := by
  refine ⟨⟨r.update peer f, rfl, ?_⟩, h.log, h.term, h.batches⟩
  rw [Replication.find?_update, if_pos rfl, hr]
  rfl

/-- A peer that owes no answer is sent what it needs. -/
theorem Node.Tracks.wp_requestFor {n : Node τ ν} (hg : g.Stocked data) (h : n.Tracks g term peer p) {m : Moment}
    (hidle : p.isWaiting m.now n.config.electionMax = false) (hnext : 0 < p.nextIndex)
    (hwithin : p.nextIndex ≤ g.lastIndex + 1) :
    wp (requestFor m peer) (fun o n' => ∃ q, o = some ⟨peer, q⟩ ∧ q.Fetches g data term p.nextIndex ∧
      n'.Tracks g term peer { p with inFlightSince := some m.now }) (fun _ _ => False) n := by
  obtain ⟨r, hrole, hr⟩ := h.leads
  obtain ⟨c, hlog⟩ := h.log
  obtain ⟨q, hq, hfetches⟩ := Replication.requestAt_fetches hg term hnext hwithin h.batches n.id c
  have hsends : r.nextRequest peer n.log n.term n.id n.config.maxEntries m.now n.config.electionMax =
      .ok (some (⟨peer, q⟩, r.update peer fun p => { p with inFlightSince := some m.now })) := by
    rw [Replication.nextRequest, hr]
    dsimp only
    rw [hidle, if_neg Bool.false_ne_true, hlog, h.term, hq]
  rw [requestFor, Action.wp_bind, Action.wp_get, hrole]
  dsimp only
  rw [hsends]
  exact ⟨q, rfl, hfetches, h.update hr fun p => { p with inFlightSince := some m.now }⟩

/-! ## What a leader hears -/

/-- What a leader knows of a peer that has everything up to an index. -/
def Progress.confirmed (p : Progress) (index : Index) (now : Nat) : Progress where
  nextIndex := max p.matchIndex index + 1
  matchIndex := max p.matchIndex index
  lastContact := now

/-- What a leader knows of a peer that has refused a batch behind `prevIndex`. -/
def Progress.refused (p : Progress) (hint : Index) (now : Nat) : Progress :=
  { p with nextIndex := max (hint + 1) (max (p.matchIndex + 1) 1), inFlightSince := none, lastContact := now }

/-- The request that goes out to a peer without being asked for, or none if the peer is idle. -/
inductive Pending (g : Log τ) (data : Bytes) (term : Term) (peer : NodeId) (p : Progress) (idle : Prop) :
    Option Outbound → Prop
  | nothing (h : idle) : Pending g data term peer p idle none
  | request {q : Request} (h : q.Fetches g data term p.nextIndex) : Pending g data term peer p idle (some ⟨peer, q⟩)

omit [LogStore τ] in
theorem Pending.mono {idle idle' : Prop} {due : Option Outbound} (h : Pending g data term peer p idle due)
    (hi : idle → idle') : Pending g data term peer p idle' due := by
  cases h with
  | nothing h => exact .nothing (hi h)
  | request h => exact .request h

namespace Node

variable {n : Node τ ν}

omit [LogStore τ] in
theorem Tracks.wp_advanceCommit (hg : NumberedFrom g.snapshotIndex g.entries) (h : n.Tracks g term peer p) :
    wp advanceCommit (fun _ n' => n'.Tracks g term peer p) (fun _ _ => False) n := by
  obtain ⟨r, hrole, hr⟩ := h.leads
  obtain ⟨c, hlog⟩ := h.log
  have hnum : NumberedFrom n.log.snapshotIndex n.log.entries := by
    rw [hlog]
    exact hg
  rw [advanceCommit, Action.wp_bind, Action.wp_get, hrole]
  dsimp only
  rw [Action.wp_ite]
  split
  · rename_i hreached
    simp only [Bool.and_eq_true, decide_eq_true_eq] at hreached
    have hlast := (Log.within_of_termAt? hnum hreached.2).2
    rw [wp_onLog, Log.setCommitIndex, Action.wp_bind, Action.wp_get, Action.wp_bind, Action.wp_require, if_pos hlast,
      if_pos hreached.1, Action.wp_set]
    refine ⟨⟨r, hrole, hr⟩, ⟨min (r.majorityMatch n.log.lastIndex) n.log.lastIndex, ?_⟩, h.term, h.batches⟩
    rw [hlog]
  · exact h

omit [LogStore τ] in
/-- An acknowledgement moves the leader on, and if the peer lacks more then that is sent at once. -/
theorem Tracks.wp_confirm {r : Replication} (h : n.Tracks g term peer p) (hrole : n.role = .leader r)
    {index : Index} (hfits : max p.matchIndex index + 1 < wordLimit) (now : Nat) :
    wp (r.confirm peer index now) (fun r' n' => n' = n ∧ r'.find? peer = some (p.confirmed index now) ∧
      Tracks g term peer (p.confirmed index now) { n with role := .leader r' }) (fun _ _ => False) n := by
  obtain ⟨r₀, hrole₀, hr⟩ := h.leads
  rw [hrole] at hrole₀
  obtain rfl : r = r₀ := by simpa using hrole₀
  rw [Replication.confirm, hr]
  dsimp only
  rw [Action.wp_bind, Action.wp_add, if_pos hfits]
  have hview := h.update hr fun _ => p.confirmed index now
  refine ⟨rfl, ?_, hview⟩
  rw [Replication.find?_update, if_pos rfl, hr]
  rfl

/-- The leader knows that the peer has everything up to an index, and what follows may be on its way. -/
def Confirms (g : Log τ) (data : Bytes) (term : Term) (peer : NodeId) (p : Progress) (index : Index)
    (out : List Outbound) (n : Node τ ν) : Prop :=
  ∃ p', p'.matchIndex = max p.matchIndex index ∧ p'.nextIndex = p'.matchIndex + 1 ∧ n.Tracks g term peer p' ∧
    Pending g data term peer p' (p'.inFlightSince = none) out.head?

section

variable (hg : g.Stocked data) (hroom : g.lastIndex + 1 < wordLimit) (hmatch : p.matchIndex ≤ g.lastIndex)

include hg hmatch

theorem Tracks.wp_requestTo {index : Index} {now : Nat} (h : n.Tracks g term peer (p.confirmed index now))
    (hindex : index ≤ g.lastIndex) (m : Moment) :
    wp (do pure (← requestFor m peer).toList) (fun out n' => Confirms g data term peer p index out n')
      (fun _ _ => False) n := by
  refine Action.wp_seq (h.wp_requestFor hg rfl (Nat.succ_pos _) (Nat.succ_le_succ (max_le hmatch hindex))) ?_
  rintro _ n' ⟨q, rfl, hfetches, h'⟩
  exact ⟨_, rfl, rfl, h', .request hfetches⟩

include hroom

theorem Tracks.wp_onStored (h : n.Tracks g term peer p) {sent : AppendSent} (hsent : sent.term = term)
    (hreach : sent.prevIndex + sent.count ≤ g.lastIndex) (m : Moment) :
    wp (onResponse m (.append peer sent ⟨term, true, none⟩))
      (fun out n' => Confirms g data term peer p (sent.prevIndex + sent.count) out n') (fun _ _ => False) n := by
  obtain ⟨r, hrole, hr⟩ := h.leads
  have hterm := h.term
  rw [onResponse, onAppendReply, Action.wp_bind, Action.wp_get, if_neg (by lia), if_neg (by simp [hsent, hterm]), hrole]
  dsimp only
  rw [if_pos rfl, Replication.onAppendSuccess, hr, Replication.lastSent]
  simp only [Option.isNone_some, Bool.false_eq_true, if_false, Action.wp_bind, Action.wp_add]
  rw [if_pos (by lia)]
  refine Action.wp_imp (h.wp_confirm hrole (by lia) m.now) ?_
  rintro r' n ⟨rfl, hr', h'⟩
  rw [Action.wp_set]
  refine Action.wp_imp (h'.wp_advanceCommit hg.numbered) fun _ n₁ h₁ => ?_
  rw [Action.wp_ite]
  split
  · exact h₁.wp_requestTo hg hmatch hreach m
  · exact ⟨_, rfl, rfl, h₁, .nothing rfl⟩

theorem Tracks.wp_onInstalled (h : n.Tracks g term peer p) {index : Index} (hindex : index ≤ g.lastIndex) (m : Moment) :
    wp (onResponse m (.install peer term index ⟨term⟩))
      (fun out n' => Confirms g data term peer p index out n') (fun _ _ => False) n := by
  obtain ⟨r, hrole, hr⟩ := h.leads
  have hterm := h.term
  rw [onResponse, onInstallReply, Action.wp_bind, Action.wp_get, if_neg (by lia), if_neg (by simp [hterm]), hrole]
  dsimp only
  rw [Replication.onInstalled, Action.wp_bind]
  refine Action.wp_imp (h.wp_confirm hrole (by lia) m.now) ?_
  rintro r' n ⟨rfl, -, h'⟩
  rw [Action.wp_bind, Action.wp_set, Action.wp_bind]
  exact Action.wp_imp (h'.wp_advanceCommit hg.numbered) fun _ n₁ h₁ => h₁.wp_requestTo hg hmatch hindex m

end

/-- A refusal moves the leader back to where the hint points, but not behind what was acknowledged. -/
theorem Tracks.wp_onRefused (h : n.Tracks g term peer p) (sent : AppendSent) (hsent : sent.term = term)
    {hint : Index} (hhint : hint + 1 < wordLimit) (hmatch : p.matchIndex + 1 < wordLimit) (m : Moment) :
    wp (onResponse m (.append peer sent ⟨term, false, some hint⟩))
      (fun out n' => out = [] ∧ n'.Tracks g term peer (p.refused hint m.now)) (fun _ _ => False) n := by
  obtain ⟨r, hrole, hr⟩ := h.leads
  have hterm := h.term
  rw [onResponse, onAppendReply, Action.wp_bind, Action.wp_get, if_neg (by lia), if_neg (by simp [hsent, hterm]), hrole]
  dsimp only
  rw [if_neg Bool.false_ne_true, Replication.onAppendReject, hr]
  simp only [Action.wp_bind, Action.wp_add]
  rw [if_pos hhint, if_pos hmatch]
  exact ⟨rfl, h.update hr fun q => { q with
    nextIndex := max (hint + 1) (max (p.matchIndex + 1) 1), inFlightSince := none, lastContact := m.now }⟩

end Node

/-! ## One round -/

/-- A leader and one of its peers. -/
structure Link (σ τ μ ν : Type) where
  leader : Node τ ν
  follower : Node σ μ
  /-- The request that is on its way. -/
  due : Option Outbound := none

/-- When a request is sent, when it arrives, and when the answer is back. -/
structure Trip where
  sent : Moment
  received : Moment
  answered : Moment

namespace Link

variable [LogStore σ] [StateMachine μ]

def atLeader {α : Type} (x : NodeAction τ ν α) : Action NodeError (Link σ τ μ ν) α :=
  Action.within leader (fun n l => { l with leader := n }) (fun e => e) x

def atFollower {α : Type} (x : NodeAction σ μ α) : Action NodeError (Link σ τ μ ν) α :=
  Action.within follower (fun n l => { l with follower := n }) (fun e => e) x

/-- The request on its way; if there is none, the leader is asked for one. -/
def ask (peer : NodeId) (sent : Moment) : Action NodeError (Link σ τ μ ν) (Option Outbound) := do
  match (← get).due with
  | some message => pure (some message)
  | none => atLeader (Node.requestFor sent peer)

/-- A request goes to the peer, and the answer back. -/
def serve (message : Outbound) (t : Trip) : Action NodeError (Link σ τ μ ν) (Option Reply) := do
  let reply ← atFollower (Node.onRequest t.received message.request)
  match message.response? reply with
  | none => pure none
  | some response =>
    let out ← atLeader (Node.onResponse t.answered response)
    modify fun l => { l with due := out.head? }
    pure (some reply)

/-- Nothing happens if the leader has no request. -/
def round (peer : NodeId) (t : Trip) : Action NodeError (Link σ τ μ ν) (Option Reply) := do
  match ← ask peer t.sent with
  | none => pure none
  | some message => serve message t

/-- So many rounds. -/
def rounds (peer : NodeId) (trips : ℕ → Trip) : ℕ → Action NodeError (Link σ τ μ ν) Unit
  | 0 => pure ()
  | k + 1 => do
    rounds peer trips k
    let _ ← round peer (trips k)

section

variable {α : Type} {l : Link σ τ μ ν}

omit [LogStore τ] [LogStore σ] [StateMachine μ] in
@[simp] theorem wp_atLeader (x : NodeAction τ ν α) {Q : α → Link σ τ μ ν → Prop}
    {E : Fault NodeError → Link σ τ μ ν → Prop} : wp (atLeader x) Q E l ↔
      wp x (fun a n => Q a { l with leader := n }) (fun f n => E f { l with leader := n }) l.leader :=
  Action.wp_within_part leader _ x

omit [LogStore τ] [LogStore σ] [StateMachine μ] in
@[simp] theorem wp_atFollower (x : NodeAction σ μ α) {Q : α → Link σ τ μ ν → Prop}
    {E : Fault NodeError → Link σ τ μ ν → Prop} : wp (atFollower x) Q E l ↔
      wp x (fun a n => Q a { l with follower := n }) (fun f n => E f { l with follower := n }) l.follower :=
  Action.wp_within_part follower _ x

end

/-- The peer's log matches the leader's, what it has committed and what it has acknowledged is the leader's, and its
machine can be restored from a snapshot that it still needs. -/
structure Aligned (Holds : σ → Persisted → Prop) (g : Log τ) (data : Bytes) (term : Term) (peer : NodeId)
    (p : Progress) (l : Link σ τ μ ν) : Prop where
  leader : l.leader.Tracks g term peer p
  behind : p.matchIndex < p.nextIndex
  within : p.nextIndex ≤ g.lastIndex + 1
  current : l.follower.term ≤ term
  suits : Node.Suits g l.follower.log
  truthful : l.follower.log.AgreesTo g p.matchIndex
  held : p.matchIndex ≤ l.follower.log.lastIndex
  sturdy : l.follower.log.Sturdy Holds
  restores : p.matchIndex < g.snapshotIndex → ∃ machine, StateMachine.restore l.follower.machine data = .ok machine

variable {Holds : σ → Persisted → Prop} {l : Link σ τ μ ν}

omit [LogStore σ] [LogStore τ] in
theorem Aligned.inStep (h : Aligned Holds g data term peer p l) :
    ∃ k, p.matchIndex ≤ k ∧ g.InStep l.follower.log k := by
  refine ⟨max p.matchIndex l.follower.log.commitIndex, le_max_left _ _, ?_⟩
  exact ⟨h.suits.tidy, h.suits.bounded, h.suits.matching, h.truthful.max h.suits.committed,
    max_le h.held h.suits.bounded, le_max_right _ _⟩

omit [LogStore σ] [LogStore τ] in
theorem Aligned.of_inStep {k : Index} (hleader : l.leader.Tracks g term peer p) (hbehind : p.matchIndex < p.nextIndex)
    (hwithin : p.nextIndex ≤ g.lastIndex + 1) (hcurrent : l.follower.term ≤ term)
    (hk : p.matchIndex ≤ k) (hstep : g.InStep l.follower.log k) (hsturdy : l.follower.log.Sturdy Holds)
    (hrestores : p.matchIndex < g.snapshotIndex →
      ∃ machine, StateMachine.restore l.follower.machine data = .ok machine) :
    Aligned Holds g data term peer p l where
  leader := hleader
  behind := hbehind
  within := hwithin
  current := hcurrent
  suits := ⟨hstep.tidy, hstep.bounded, hstep.matching, hstep.agrees.mono hstep.committed⟩
  truthful := hstep.agrees.mono hk
  held := hk.trans hstep.held
  sturdy := hsturdy
  restores := hrestores

/-- How a round changes what is known of the peer: it moves back, or on until there is nothing left. -/
inductive Moves (last : Index) (p : Progress) : Reply → Progress → Prop
  | back {r : AppendReply} {p' : Progress} (hrefused : r.success = false) (hback : p'.nextIndex < p.nextIndex)
      (hsame : p'.matchIndex = p.matchIndex) : Moves last p (.append r) p'
  | on {r : Reply} {p' : Progress} (htaken : ∀ a, r = .append a → a.success = true)
      (hnext : p'.nextIndex = p'.matchIndex + 1)
      (hon : p.matchIndex < p'.matchIndex ∨ p.matchIndex = last ∧ p'.matchIndex = last) : Moves last p r p'

/-- That a request is on its way says nothing of where the peer stands. -/
theorem Moves.of_sent {last : Index} {since : Option Nat} {r : Reply} {p' : Progress}
    (h : Moves last { p with inFlightSince := since } r p') : Moves last p r p' := by
  cases h with
  | back hrefused hback hsame => exact .back hrefused hback hsame
  | on htaken hnext hon => exact .on htaken hnext hon

/-- A bound on the rounds that a leader with this view of a peer needs: it goes back once, and then on. -/
def remaining (p : Progress) (last : Index) : ℕ := (p.nextIndex - p.matchIndex - 1) + (last - p.matchIndex)

theorem Moves.remaining_le {last : Index} {r : Reply} {p' : Progress} (h : Moves last p r p')
    (hbehind : p.matchIndex < p.nextIndex) (hbehind' : p'.matchIndex < p'.nextIndex) :
    remaining p' last ≤ remaining p last - 1 := by
  unfold remaining
  cases h with
  | back _ hback hsame => lia
  | on _ hnext hon => lia

/-- What one round leaves. -/
def Rounds (Holds : σ → Persisted → Prop) (g : Log τ) (data : Bytes) (term : Term) (peer : NodeId) (p : Progress)
    (o : Option Reply) (l : Link σ τ μ ν) : Prop :=
  ∃ reply p', o = some reply ∧ Aligned Holds g data term peer p' l ∧
    Pending g data term peer p' (p'.inFlightSince = none) l.due ∧ Moves g.lastIndex p reply p'

section

variable (hstore : Obliging Holds) (hg : g.Stocked data) (hroom : g.lastIndex + 1 < wordLimit)
  (hterm : term < wordLimit) (h : Aligned Holds g data term peer p l)

include hstore hg hroom hterm h

theorem Aligned.wp_serve_append {q : AppendRequest} (hq : (Request.append q).Fetches g data term p.nextIndex)
    (t : Trip) :
    wp (serve ⟨peer, .append q⟩ t) (fun o l' => Rounds Holds g data term peer p o l') (fun _ _ => False) l := by
  obtain ⟨k, hk, hin⟩ := h.inStep
  have hbehind := h.behind
  have hwithin := h.within
  have hcurrent := h.current
  cases hq with
  | entries hqterm hprev hcut hmore =>
    have hreach := (hcut.slice hg.numbered).reach_le hg.numbered
    have hrestores : ∀ {n' : Node σ μ} {i : Index}, n'.machine = l.follower.machine → p.matchIndex ≤ i →
        i < g.snapshotIndex → ∃ machine, StateMachine.restore n'.machine data = .ok machine := by
      intro n' i hmachine hi hlow
      rw [hmachine]
      exact h.restores (hi.trans_lt hlow)
    rw [serve, Action.wp_bind, wp_atFollower, Node.onRequest, Action.wp_bind]
    refine Action.wp_mono (Action.wp_and (Node.wp_onAppendRequest_answers hg.numbered hin hcut t.received)
      (Node.wp_onAppendRequest_sturdy hstore hg.numbered hroom hin h.sturdy hg.terms hcut (hqterm ▸ hterm) t.received))
      ?_ fun _ _ hf => hf.2
    rintro r n' ⟨hanswers, hsturdy, hmachine⟩
    cases hanswers with
    | outdatedAppend hold => exact absurd hold (by lia)
    | stored hn' hstep hkeeps =>
      subst hqterm
      simp only [Action.wp_pure, Outbound.response?, Action.wp_bind, wp_atLeader, Action.wp_modify]
      have hsent : q.sent.prevIndex + q.sent.count ≤ g.lastIndex := by
        simp only [AppendRequest.sent]
        lia
      refine Action.wp_imp (h.leader.wp_onStored hg hroom (by lia) rfl hsent t.answered) ?_
      rintro out n₁ ⟨p', hmatch, hnext, htracks, hpending⟩
      simp only [AppendRequest.sent] at hmatch
      -- a batch is empty only if it begins behind the last entry
      have hon : p.matchIndex < p'.matchIndex ∨ p.matchIndex = g.lastIndex ∧ p'.matchIndex = g.lastIndex := by
        by_cases hlast : p.nextIndex ≤ g.lastIndex
        · have hpos := List.length_pos_of_ne_nil (hmore hlast)
          left
          lia
        · lia
      refine ⟨_, p', rfl, ?_, hpending, .on (by rintro _ ⟨⟩; rfl) hnext hon⟩
      exact .of_inStep htracks (by lia) (by lia) hn'.le (by lia) hstep hsturdy (hrestores hmachine (by lia))
    | @refused _ n' hint s hn' hbeyond hback hlog =>
      subst hqterm
      simp only [Action.wp_pure, Outbound.response?, Action.wp_bind, wp_atLeader, Action.wp_modify]
      -- the logs agree as far as was acknowledged, so the refused batch begins behind that, and the hint before it
      have hhint : hint + 1 < wordLimit := by lia
      refine Action.wp_imp (h.leader.wp_onRefused q.sent rfl hhint (by lia) t.answered) ?_
      rintro out n₁ ⟨rfl, htracks⟩
      have hnext : (p.refused hint t.answered.now).nextIndex = max (hint + 1) (max (p.matchIndex + 1) 1) := rfl
      have hmatch : (p.refused hint t.answered.now).matchIndex = p.matchIndex := rfl
      refine ⟨_, _, rfl, ?_, .nothing rfl, .back rfl (by lia) hmatch⟩
      exact .of_inStep htracks (by lia) (by lia) hn'.le (by lia) (hlog ▸ hin.withStore s) hsturdy
        (hrestores hmachine le_rfl)

theorem Aligned.wp_serve_install {q : InstallRequest} (hq : (Request.install q).Fetches g data term p.nextIndex)
    (t : Trip) :
    wp (serve ⟨peer, .install q⟩ t) (fun o l' => Rounds Holds g data term peer p o l') (fun _ _ => False) l := by
  obtain ⟨k, hk, hin⟩ := h.inStep
  have hbehind := h.behind
  have hcurrent := h.current
  cases hq with
  | snapshot hqterm hcovered hindex hsnapTerm hdata =>
    have hcut : (Request.install q).CutFrom g := by
      rw [Request.CutFrom, hindex, hsnapTerm]
      exact Log.termAt?_snapshot g
    have hlast : g.snapshotIndex ≤ g.lastIndex := by
      rw [Log.lastIndex_of_numbered hg.numbered]
      exact Nat.le_add_right _ _
    -- the peer is behind the snapshot, so what is assumed of its machine applies
    have hrestores := h.restores (hbehind.trans_le hcovered)
    rw [serve, Action.wp_bind, wp_atFollower, Node.onRequest, Action.wp_bind]
    refine Action.wp_mono (Action.wp_and (Node.wp_onInstallRequest_answers hin hcut t.received)
      (Node.wp_onInstallRequest_sturdy hstore hg.numbered hroom hin h.sturdy hcut (hqterm ▸ hterm)
        (hsnapTerm ▸ hg.snapshotTerm) (hdata ▸ hrestores) t.received)) ?_ fun _ _ hf => hf.2
    rintro r n' ⟨hanswers, hsturdy⟩
    cases hanswers with
    | outdatedInstall hold => exact absurd hold (by lia)
    | installed hn' hstep hkeeps =>
      subst hqterm
      simp only [Action.wp_pure, Outbound.response?, Action.wp_bind, wp_atLeader, Action.wp_modify]
      refine Action.wp_imp (h.leader.wp_onInstalled hg hroom (by lia) (hindex.trans_le hlast) t.answered) ?_
      rintro out n₁ ⟨p', hmatch, hnext, htracks, hpending⟩
      refine ⟨_, p', rfl, ?_, hpending, .on (by rintro _ ⟨⟩) hnext (Or.inl (by lia))⟩
      exact .of_inStep htracks (by lia) (by lia) hn'.le (by lia) hstep hsturdy fun hlow => absurd hlow (by lia)

theorem Aligned.wp_serve {q : Request} (hq : q.Fetches g data term p.nextIndex) (t : Trip) :
    wp (serve ⟨peer, q⟩ t) (fun o l' => Rounds Holds g data term peer p o l') (fun _ _ => False) l := by
  cases q with
  | vote q => cases hq
  | append q => exact h.wp_serve_append hstore hg hroom hterm hq t
  | install q => exact h.wp_serve_install hstore hg hroom hterm hq t

/-- A round with a peer that owes no answer, or that a request is on its way to. -/
theorem Aligned.wp_round (t : Trip) (hdue : Pending g data term peer p
      (p.isWaiting t.sent.now l.leader.config.electionMax = false) l.due) :
    wp (round peer t) (fun o l' => Rounds Holds g data term peer p o l') (fun _ _ => False) l := by
  rw [round, ask, Action.wp_bind, Action.wp_bind, Action.wp_get]
  cases hmessage : l.due with
  | some message =>
    rw [hmessage] at hdue
    cases hdue with
    | request hfetches => exact h.wp_serve hstore hg hroom hterm hfetches t
  | none =>
    rw [hmessage] at hdue
    cases hdue with
    | nothing hidle =>
      dsimp only
      rw [wp_atLeader]
      refine Action.wp_imp (h.leader.wp_requestFor hg hidle (Nat.zero_lt_of_lt h.behind) h.within) ?_
      rintro _ n ⟨q, rfl, hfetches, htracks⟩
      have hsent : Aligned Holds g data term peer { p with inFlightSince := some t.sent.now } { l with leader := n } :=
        { h with leader := htracks }
      refine Action.wp_imp (hsent.wp_serve hstore hg hroom hterm hfetches t) ?_
      rintro o l' ⟨reply, p', rfl, haligned, hpending, hmoves⟩
      exact ⟨reply, p', rfl, haligned, hpending, hmoves.of_sent⟩

theorem Aligned.wp_rounds (trips : ℕ → Trip) (hdue : Pending g data term peer p
      (p.isWaiting (trips 0).sent.now l.leader.config.electionMax = false) l.due) (k : ℕ) :
    wp (rounds peer trips k) (fun _ l' => ∃ p', Aligned Holds g data term peer p' l' ∧
      Pending g data term peer p' (p'.isWaiting (trips k).sent.now l'.leader.config.electionMax = false) l'.due ∧
      remaining p' g.lastIndex ≤ remaining p g.lastIndex - k) (fun _ _ => False) l := by
  induction k with
  | zero => exact ⟨p, h, hdue, le_rfl⟩
  | succ k ih =>
    rw [rounds]
    refine Action.wp_seq ih ?_
    rintro - l₁ ⟨p₁, h₁, hdue₁, hleft₁⟩
    rw [Action.wp_bind]
    refine Action.wp_imp (h₁.wp_round hstore hg hroom hterm (trips k) hdue₁) ?_
    rintro o l₂ ⟨reply, p₂, rfl, h₂, hdue₂, hmoves⟩
    have hleft := hmoves.remaining_le h₁.behind h₂.behind
    exact ⟨p₂, h₂, hdue₂.mono fun hnone => by rw [Progress.isWaiting, hnone], by lia⟩

end

/-! ## The exchange -/

/-- An exchange at its start: nothing is on its way, and the peer owes no answer. -/
structure Begins (Holds : σ → Persisted → Prop) (data : Bytes) (peer : NodeId) (p : Progress) (now : Nat)
    (l : Link σ τ μ ν) : Prop where
  stocked : l.leader.log.Stocked data
  fits : l.leader.term < wordLimit
  aligned : Aligned Holds l.leader.log data l.leader.term peer p l
  quiet : l.due = none
  idle : p.isWaiting now l.leader.config.electionMax = false

/-- A round has changed what the leader knows of the peer. -/
def Furthers (g : Log τ) (peer : NodeId) (l : Link σ τ μ ν) (reply : Reply) (l' : Link σ τ μ ν) : Prop :=
  ∃ p p', l.leader.Knows peer p ∧ l'.leader.Knows peer p' ∧ Moves g.lastIndex p reply p'

/-- The leader knows that the peer has everything, and so it is. -/
structure CaughtUp (g : Log τ) (peer : NodeId) (l : Link σ τ μ ν) : Prop where
  log : ∃ c, l.leader.log = { g with commitIndex := c }
  matched : ∃ p, l.leader.Knows peer p ∧ p.matchIndex = g.lastIndex
  shares : Node.Shares g g.lastIndex l.follower.log
  entries : ∀ j ≤ g.lastIndex, g.snapshotIndex < j → l.follower.log.snapshotIndex < j →
    l.follower.log.entry? j = g.entry? j

omit [LogStore σ] in
theorem Aligned.caughtUp (hg : g.Stocked data) (h : Aligned Holds g data term peer p l)
    (hleft : remaining p g.lastIndex = 0) : CaughtUp g peer l := by
  have hbehind := h.behind
  have hwithin := h.within
  unfold remaining at hleft
  have hmatch : p.matchIndex = g.lastIndex := by lia
  obtain ⟨k, hk, hin⟩ := h.inStep
  have hshares : Node.Shares g g.lastIndex l.follower.log := (Node.Shares.of_inStep hin).mono (hmatch ▸ hk)
  refine ⟨h.leader.log, ⟨p, h.leader.leads, hmatch⟩, hshares, fun j hj hlow hlow' => ?_⟩
  obtain ⟨e, he⟩ := hshares.held j hj hlow'
  obtain ⟨e', he'⟩ := Log.exists_entry hg.numbered hlow hj
  rw [he, he', (hshares.agrees j hj).entry e e' he he']

/-- Catching up: whatever the leader believes of the peer, as long as it is true, no round fails. A refusal strictly
lowers the next index, and anything else raises the match index until that is all. After a number of rounds that is
known in advance the peer has all that the leader has. -/
theorem Begins.catches_up (hstore : Obliging Holds) (trips : ℕ → Trip)
    (h : Begins Holds data peer p (trips 0).sent.now l) (hroom : l.leader.log.lastIndex + 1 < wordLimit) :
    (∀ k, ∃ l₁ reply l₂, rounds peer trips k l = .ok () l₁ ∧ round peer (trips k) l₁ = .ok (some reply) l₂ ∧
      Furthers l.leader.log peer l₁ reply l₂) ∧
    ∀ k, remaining p l.leader.log.lastIndex ≤ k →
      ∃ l', rounds peer trips k l = .ok () l' ∧ CaughtUp l.leader.log peer l' := by
  have hdue : Pending l.leader.log data l.leader.term peer p
      (p.isWaiting (trips 0).sent.now l.leader.config.electionMax = false) l.due := by
    rw [h.quiet]
    exact .nothing h.idle
  have hrounds := h.aligned.wp_rounds hstore h.stocked hroom h.fits trips hdue
  constructor
  · intro k
    obtain ⟨⟨⟩, l₁, hl₁, p₁, h₁, hdue₁, -⟩ := Action.wp_exists (hrounds k)
    obtain ⟨o, l₂, hl₂, reply, p₂, rfl, h₂, -, hmoves⟩ :=
      Action.wp_exists (h₁.wp_round hstore h.stocked hroom h.fits (trips k) hdue₁)
    exact ⟨l₁, reply, l₂, hl₁, hl₂, p₁, p₂, h₁.leader.leads, h₂.leader.leads, hmoves⟩
  · intro k hk
    obtain ⟨⟨⟩, l', hl', p', h', -, hleft⟩ := Action.wp_exists (hrounds k)
    exact ⟨l', hl', h'.caughtUp h.stocked (by lia)⟩

/-! ## A straggler -/

def oneApplied : Journal := { lastIndex := 2, applied := ["a"] }

/-- A leader of term 3 whose first two entries are behind a snapshot. It takes the peer to be up to date. -/
def presuming : Node MemoryStore Journal where
  id := 1
  peers := [2, 3]
  config := { maxEntries := 2 }
  term := 3
  vote := some 1
  log := {
    store := { kept := {
      hard := ⟨3, some 1⟩, snapshot := some ⟨2, 1, StateMachine.snapshot oneApplied⟩
      entries := [⟨3, 1, [98]⟩, ⟨4, 3, []⟩, ⟨5, 3, [99]⟩] } }
    entries := [⟨3, 1, [98]⟩, ⟨4, 3, []⟩, ⟨5, 3, [99]⟩], snapshotIndex := 2, snapshotTerm := 1, commitIndex := 2
    lastApplied := 2 }
  role := .leader { peers := [(2, { nextIndex := 6, lastContact := 0 }), (3, { nextIndex := 6, lastContact := 0 })] }
  machine := oneApplied
  electionDeadline := 300
  appliedSinceSnapshot := 0

/-- A peer with one entry of the leader's and one of its own. -/
def straggling : Node MemoryStore Journal := { Node.newcomer with
  id := 2, peers := [1, 3], term := 2
  log := {
    store := { kept := { hard := ⟨2, none⟩, entries := [⟨1, 1, [97]⟩, ⟨2, 2, [100]⟩] } }
    entries := [⟨1, 1, [97]⟩, ⟨2, 2, [100]⟩], commitIndex := 1 } }

def farApart : Link MemoryStore MemoryStore Journal Journal where
  leader := presuming
  follower := straggling

/-- Works in memory. -/
abbrev InMemory (s : MemoryStore) (p : Persisted) : Prop := Reliable s ∧ kept s = p

theorem presuming_numbered : NumberedFrom presuming.log.snapshotIndex presuming.log.entries :=
  .cons rfl (.cons rfl (.cons rfl (.nil 5)))

theorem presuming_stocked : presuming.log.Stocked (StateMachine.snapshot oneApplied) := by
  constructor
  · exact presuming_numbered
  · decide
  · decide
  · exact fun _ => rfl

/-- Where the peer has an entry the leader has none, or one of another term. -/
theorem straggling_suits : Node.Suits presuming.log straggling.log := by
  have hcompacted : ∀ j ≤ 1, straggling.log.Concurs presuming.log j := by
    intro j hj
    have hnone : presuming.log.termAt? j = none ∧ presuming.log.entry? j = none := by
      rcases (show j = 0 ∨ j = 1 by lia) with rfl | rfl
      · exact ⟨rfl, rfl⟩
      · exact ⟨rfl, rfl⟩
    constructor
    · intro t t' _ ht'
      rw [hnone.1] at ht'
      cases ht'
    · intro e e' _ he'
      rw [hnone.2] at he'
      cases he'
  constructor
  · exact ⟨.cons rfl (.cons rfl (.nil 2)), by decide, by decide, by decide⟩
  · exact Nat.le_succ 1
  · intro i t ht ht'
    rcases i with _ | _ | _ | i
    · cases (show none = some t from ht')
    · cases (show none = some t from ht')
    · cases (show some 2 = some t from ht)
      cases (show some 1 = some 2 from ht')
    · cases (show none = some t from ht)
  · exact hcompacted

theorem farApart_begins : farApart.Begins InMemory (StateMachine.snapshot oneApplied) 2
    { nextIndex := 6, lastContact := 0 } 0 := by
  have hrestores : StateMachine.restore straggling.machine (StateMachine.snapshot oneApplied) = .ok oneApplied :=
    LawfulMachine.restore _ (show oneApplied.lastIndex < wordLimit by decide)
  refine ⟨presuming_stocked, by decide, ?_, rfl, rfl⟩
  constructor
  · exact ⟨⟨_, rfl, rfl⟩, ⟨2, rfl⟩, rfl, by decide⟩
  · decide
  · decide
  · decide
  · exact straggling_suits
  · exact straggling_suits.committed.mono (Nat.zero_le 1)
  · exact Nat.zero_le _
  · exact ⟨⟨kept straggling.log.store, ⟨reliable_memory rfl, rfl⟩, rfl, rfl⟩, by decide⟩
  · exact fun _ => ⟨oneApplied, hrestores⟩

/-- Two refusals, a snapshot and two batches. -/
theorem catches_up_farApart :
    farApart.Begins InMemory (StateMachine.snapshot oneApplied) 2 { nextIndex := 6, lastContact := 0 } 0 ∧
    farApart.leader.log.lastIndex + 1 < wordLimit ∧
    ∃ l', rounds 2 (fun _ => ⟨{}, {}, {}⟩) 10 farApart = .ok () l' ∧ CaughtUp farApart.leader.log 2 l' := by
  have hroom : farApart.leader.log.lastIndex + 1 < wordLimit := by decide
  obtain ⟨-, hall⟩ := Begins.catches_up faithful_reliable.toObliging (fun _ => ⟨{}, {}, {}⟩) farApart_begins hroom
  exact ⟨farApart_begins, hroom, hall 10 (by decide)⟩

/-- A leader whose last entry is as far out as an index goes. -/
def brimming : Node MemoryStore Journal := { presuming with
  log := {
    store := { kept := {
      hard := ⟨3, some 1⟩, snapshot := some ⟨wordLimit - 2, 1, StateMachine.snapshot oneApplied⟩
      entries := [⟨wordLimit - 1, 3, []⟩] } }
    entries := [⟨wordLimit - 1, 3, []⟩], snapshotIndex := wordLimit - 2, snapshotTerm := 1
    commitIndex := wordLimit - 2, lastApplied := wordLimit - 2 }
  role := .leader { peers := [(2, { nextIndex := wordLimit - 1, matchIndex := wordLimit - 2, lastContact := 0 })] } }

/-- Its peer lacks that entry only. -/
def lackingLast : Node MemoryStore Journal := { straggling with
  log := {
    store := { kept := {
      hard := ⟨2, none⟩, snapshot := some ⟨wordLimit - 2, 1, StateMachine.snapshot oneApplied⟩ } }
    snapshotIndex := wordLimit - 2, snapshotTerm := 1, commitIndex := wordLimit - 2, lastApplied := wordLimit - 2 } }

def outermost : Link MemoryStore MemoryStore Journal Journal where
  leader := brimming
  follower := lackingLast

/-- The peer takes the entry over, and the leader has no number for the one after it. -/
theorem round_aborts_outermost :
    outermost.Begins InMemory (StateMachine.snapshot oneApplied) 2
      { nextIndex := wordLimit - 1, matchIndex := wordLimit - 2, lastContact := 0 } 0 ∧
    ∃ l', round 2 ⟨{}, {}, {}⟩ outermost = .error .abort l' := by
  have hconcurs : ∀ j, lackingLast.log.Concurs brimming.log j := by
    intro j
    by_cases hj : j ≤ lackingLast.log.snapshotIndex
    · exact Log.concurs_of_covered rfl hj
    · refine Log.concurs_of_entries (not_le.mp hj) fun e he => ?_
      simp [Log.entry?, lackingLast] at he
  refine ⟨⟨?_, by decide, ?_, rfl, rfl⟩, ?_⟩
  · exact ⟨.cons (by decide) (.nil _), by decide, by decide, fun _ => rfl⟩
  · constructor
    · exact ⟨⟨_, rfl, rfl⟩, ⟨_, rfl⟩, rfl, by decide⟩
    · decide
    · decide
    · decide
    · exact ⟨⟨.nil _, by decide, by decide, by decide⟩, le_rfl, fun _ _ _ _ j _ => hconcurs j, fun j _ => hconcurs j⟩
    · exact fun j _ => hconcurs j
    · exact le_rfl
    · exact ⟨⟨kept lackingLast.log.store, ⟨reliable_memory rfl, rfl⟩, rfl, rfl⟩, by decide⟩
    · exact fun hlow => absurd hlow (by decide)
  · exact ⟨_, rfl⟩

end Link

end RaftNode
