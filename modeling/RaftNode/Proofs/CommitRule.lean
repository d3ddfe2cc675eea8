import Mathlib
import RaftNode.Proofs.Leading
import RaftNode.Proofs.Positions
/-!
# The commit rule

A leader may commit an index when a majority of the cluster stores it and the entry there is of the leader's own term.
It looks at one position of the sorted acknowledgements and at one term. Terms never decrease along a log, so this
finds the greatest such index. Nothing is asked of the store.
-/
namespace RaftNode

open RaftNode.Action (wp)

theorem majority_le_iff (members count : Nat) : majority members ≤ count ↔ members < 2 * count := by
  unfold majority
  omega

namespace Log

variable {σ : Type} {l : Log σ} {T : Term}

/-- Terms never decrease along the log, and none is newer than `T`. -/
structure Rising (l : Log σ) (T : Term) : Prop where
  numbered : NumberedFrom l.snapshotIndex l.entries
  compacted : l.snapshotIndex ≤ l.commitIndex
  held : l.commitIndex ≤ l.lastIndex
  rising : l.entries.Pairwise fun a b => a.term ≤ b.term
  current : ∀ e ∈ l.entries, e.term ≤ T

theorem Rising.withStore (h : Rising l T) (s : σ) : Rising { l with store := s } T :=
  ⟨h.numbered, h.compacted, h.held, h.rising, h.current⟩

theorem Rising.mono {T' : Term} (h : Rising l T) (hT : T ≤ T') : Rising l T' :=
  ⟨h.numbered, h.compacted, h.held, h.rising, fun e he => (h.current e he).trans hT⟩

theorem lastIndex_append (l : Log σ) (s : σ) (e : Entry) :
    lastIndex { l with store := s, entries := l.entries ++ [e] } = e.index := by
  simp [lastIndex]

theorem Rising.append (h : Rising l T) (s : σ) (command : Bytes) :
    Rising { l with store := s, entries := l.entries ++ [⟨l.lastIndex + 1, T, command⟩] } T := by
  constructor
  · refine h.numbered.append ?_
    rw [← lastIndex_of_numbered h.numbered]
    exact .singleton T command
  · exact h.compacted
  · rw [lastIndex_append]
    exact h.held.trans (Nat.le_succ _)
  · refine List.pairwise_append.mpr ⟨h.rising, List.pairwise_singleton _ _, ?_⟩
    intro a ha b hb
    rw [List.mem_singleton.mp hb]
    exact h.current a ha
  · intro e he
    rcases List.mem_append.mp he with he | he
    · exact h.current e he
    · rw [List.mem_singleton.mp he]

/-- Behind an entry of the newest term there are only entries of that term. -/
theorem Rising.term_eq (h : Rising l T) {i j : Index} {e : Entry} (he : l.entry? i = some e)
    (hT : e.term = T) (hij : i ≤ j) (hj : j ≤ l.lastIndex) :
    ∃ e', l.entry? j = some e' ∧ e'.term = T := by
  obtain ⟨hmem, hi⟩ := (entry?_of_numbered h.numbered).mp he
  have hbounds := h.numbered.mem_index hmem
  have hlast := lastIndex_of_numbered h.numbered
  obtain ⟨e', he'⟩ := exists_entry h.numbered (by lia) hj
  refine ⟨e', he', le_antisymm ?_ ?_⟩
  · exact h.current e' ((entry?_of_numbered h.numbered).mp he').1
  · rcases hij.eq_or_lt with rfl | hlt
    · rw [he] at he'
      exact (hT.symm.trans (congrArg Entry.term (Option.some.inj he'))).le
    · rw [Log.entry?, if_neg (by lia)] at he he'
      obtain ⟨hp, rfl⟩ := List.getElem?_eq_some_iff.mp he
      obtain ⟨hq, rfl⟩ := List.getElem?_eq_some_iff.mp he'
      have := List.pairwise_iff_getElem.mp h.rising _ _ hp hq (by lia)
      lia

end Log

namespace Node

variable {σ μ : Type} {n n' : Node σ μ} {r : Replication} {N : Index}

/-! ## The rule -/

/-- How many members store an index, as far as the leader knows; itself it counts by its own log. -/
def storing (n : Node σ μ) (r : Replication) (N : Index) : Nat :=
  (n.peers.countP fun p => (r.find? p).any fun q => N ≤ q.matchIndex) +
    if N ≤ n.log.lastIndex then 1 else 0

/-- A strict majority of the cluster stores the index, and the entry there is of the leader's own term. -/
structure Qualifies (n : Node σ μ) (r : Replication) (N : Index) : Prop where
  stored : n.peers.length + 1 < 2 * n.storing r N
  own : ∃ e, n.log.entry? N = some e ∧ e.term = n.term

/-- A leader whose commit index was `before` has raised it to the greatest index that qualifies, if that is higher. -/
structure CommitsFrom (before : Index) (n : Node σ μ) (r : Replication) : Prop where
  leads : n.role = .leader r
  commit : (∃ N, IsGreatest {N | n.Qualifies r N} N ∧ n.log.commitIndex = max before N) ∨
    (∀ N, ¬ n.Qualifies r N) ∧ n.log.commitIndex = before

/-- The rule, for a node that leads. -/
def Settled (before : Index) (n : Node σ μ) : Prop := ∃ r, n.CommitsFrom before r

/-- If the node led, or if it leads now, then its commit index obeys the rule. -/
def Obeys (n n' : Node σ μ) : Prop :=
  n.isLeader = true ∨ n'.isLeader = true → n'.Settled n.log.commitIndex

/-- A leader whose view of each of its peers is true to its own log, and who may count. -/
structure MayCount (n : Node σ μ) : Prop where
  distinct : n.peers.Nodup
  rising : n.log.Rising n.term
  tracked : ∀ r, n.role = .leader r → (r.peers.map Prod.fst).Perm n.peers
  matched : ∀ r, n.role = .leader r → ∀ p ∈ r.peers, p.2.matchIndex ≤ n.log.lastIndex

/-- The events that make a leader count: it wins an election, accepts a command, or learns in its own term that a peer
stored what it was sent. -/
def Occasion.Counts (n : Node σ μ) : Occasion → Prop
  | .act .stand | .response (.vote _ _ _) => n.isLeader = false
  | .act (.propose _) => True
  | .response (.append _ sent reply) =>
    sent.term = n.term ∧ reply.term ≤ n.term ∧ reply.success = true
  | .response (.install _ sentTerm _ reply) => sentTerm = n.term ∧ reply.term ≤ n.term
  | _ => False

/-! ## Counting -/

/-- A leader's state as it counts. Of one peer an acknowledgement may just have come in that is not checked against
the log. -/
structure Tallies (n : Node σ μ) (r : Replication) : Prop where
  leads : n.role = .leader r
  distinct : n.peers.Nodup
  tracked : (r.peers.map Prod.fst).Perm n.peers
  matched : ∃ peer, ∀ p ∈ r.peers, p.1 ≠ peer → p.2.matchIndex ≤ n.log.lastIndex
  rising : n.log.Rising n.term

theorem Tallies.storing_eq (h : n.Tallies r) (N : Index) :
    (n.log.lastIndex :: r.peers.map fun p => p.2.matchIndex).countP (fun m => N ≤ m) =
      n.storing r N := by
  have hd : (r.peers.map Prod.fst).Nodup := h.tracked.nodup_iff.mpr h.distinct
  have hpeers : r.peers.countP (fun p => N ≤ p.2.matchIndex) =
      n.peers.countP fun p => (r.find? p).any fun q => N ≤ q.matchIndex := by
    rw [← h.tracked.countP_eq, List.countP_map]
    refine List.countP_congr fun p hp => ?_
    simp [Replication.find?_of_mem hd hp]
  rw [List.countP_cons, List.countP_map, storing, ← hpeers]
  simp [Function.comp_def]

theorem Tallies.stored_iff (h : n.Tallies r) (N : Index) :
    n.peers.length + 1 < 2 * n.storing r N ↔ N ≤ r.majorityMatch n.log.lastIndex := by
  have hlen : r.peers.length = n.peers.length := by
    rw [← h.tracked.length_eq, List.length_map]
  rw [r.le_majorityMatch_iff, h.storing_eq, majority_le_iff, hlen]

/-- A majority has more members than the one peer that may claim too much. -/
theorem Tallies.majorityMatch_le (h : n.Tallies r) : r.majorityMatch n.log.lastIndex ≤ n.log.lastIndex := by
  obtain ⟨peer, hmatched⟩ := h.matched
  by_contra hlt
  have hstored := (h.stored_iff (n.log.lastIndex + 1)).mpr (by lia)
  have hone : (n.peers.countP fun p =>
      (r.find? p).any fun q => n.log.lastIndex + 1 ≤ q.matchIndex) ≤ n.peers.count peer := by
    refine List.countP_mono_left fun p _ hp => ?_
    obtain ⟨q, hq, hle⟩ := (Option.any_eq_true _ _).mp hp
    by_contra hne
    have := hmatched _ (Replication.mem_of_find? hq) (by simpa using hne)
    simp only [decide_eq_true_eq] at hle
    lia
  have := List.nodup_iff_count_le_one.mp h.distinct peer
  have hle : n.peers.count peer ≤ n.peers.length := List.count_le_length
  rw [storing, if_neg (by lia)] at hstored
  omega

/-- If any index qualifies, the one that the leader looks at does, and no other is greater. -/
theorem Tallies.qualifies (h : n.Tallies r) (hN : n.Qualifies r N) :
    N ≤ r.majorityMatch n.log.lastIndex ∧ n.Qualifies r (r.majorityMatch n.log.lastIndex) := by
  have hle := (h.stored_iff N).mp hN.stored
  obtain ⟨e, he, hown⟩ := hN.own
  exact ⟨hle, (h.stored_iff _).mpr le_rfl, h.rising.term_eq he hown hle h.majorityMatch_le⟩

theorem Tallies.wp_advanceCommit (h : n.Tallies r) :
    wp advanceCommit (fun _ n' => n'.CommitsFrom n.log.commitIndex r) (fun _ _ => False) n := by
  let c := r.majorityMatch n.log.lastIndex
  have hc : c ≤ n.log.lastIndex := h.majorityMatch_le
  simp only [advanceCommit, Action.wp_bind, Action.wp_get, h.leads, Action.wp_ite, Action.wp_pure]
  split
  · rename_i hguard
    simp only [Bool.and_eq_true, decide_eq_true_eq] at hguard
    obtain ⟨hnew, hown⟩ := hguard
    have hq : n.Qualifies r c := by
      have hsnap := h.rising.compacted
      rw [Log.termAt?_of_lt (by lia)] at hown
      obtain ⟨e, he, ht⟩ := Option.map_eq_some_iff.mp hown
      exact ⟨(h.stored_iff c).mpr le_rfl, e, he, ht⟩
    rw [wp_onLog, Log.setCommitIndex, Action.wp_bind, Action.wp_get, Action.wp_bind,
      Action.wp_require, if_pos hc, Action.wp_ite, if_pos hnew, Action.wp_set]
    refine ⟨h.leads, Or.inl ⟨c, ⟨⟨hq.stored, hq.own⟩, fun N hN => ?_⟩, ?_⟩⟩
    · exact (h.qualifies ⟨hN.stored, hN.own⟩).1
    · change min c n.log.lastIndex = max n.log.commitIndex c
      lia
  · rename_i hguard
    by_cases hq : n.Qualifies r c
    · refine ⟨h.leads, Or.inl ⟨c, ⟨hq, fun N hN => (h.qualifies hN).1⟩, ?_⟩⟩
      obtain ⟨e, he, hown⟩ := hq.own
      by_contra hne
      have hsnap := h.rising.compacted
      have hnew : n.log.commitIndex < c := by lia
      apply hguard
      rw [Bool.and_eq_true, decide_eq_true_eq, decide_eq_true_eq]
      refine ⟨hnew, ?_⟩
      rw [Log.termAt?_of_lt (by lia), he, Option.map_some, hown]
    · exact ⟨h.leads, Or.inr ⟨fun N hN => hq (h.qualifies hN).2, rfl⟩⟩

theorem Tallies.wp_advanceCommit_settled (h : n.Tallies r) :
    wp advanceCommit (fun _ n' => n'.Settled n.log.commitIndex) (fun f _ => f.halts = true) n :=
  Action.wp_mono h.wp_advanceCommit (fun _ _ h' => ⟨r, h'⟩) fun _ _ => False.elim

theorem MayCount.tallies (h : n.MayCount) (hrole : n.role = .leader r) : n.Tallies r :=
  ⟨hrole, h.distinct, h.tracked r hrole, ⟨0, fun p hp _ => h.matched r hrole p hp⟩, h.rising⟩

/-- Whatever one peer is taken to store. -/
theorem MayCount.tallies_touched {r' : Replication} {peer : NodeId} (h : n.MayCount) (hrole : n.role = .leader r)
    (ht : r.Touches peer r') : Tallies { n with role := .leader r' } r' := by
  cases ht with
  | same =>
    rw [← hrole]
    exact h.tallies hrole
  | update f =>
    refine ⟨rfl, h.distinct, ?_, ⟨peer, fun p hp hne => ?_⟩, h.rising⟩
    · rw [Replication.names_update]
      exact h.tracked r hrole
    · obtain ⟨q, hq, rfl⟩ := List.mem_map.mp hp
      split at hne
      · rename_i heq
        exact absurd heq hne
      · rename_i heq
        rw [if_neg heq]
        exact h.matched r hrole q hq

/-! ## What does not matter to the rule -/

theorem storing_congr {r' : Replication} (hr : ∀ p, (r'.find? p).map Progress.matchIndex =
    (r.find? p).map Progress.matchIndex) (n : Node σ μ) (N : Index) :
    n.storing r' N = n.storing r N := by
  have hcongr : ∀ p, (r'.find? p).any (fun q => N ≤ q.matchIndex) =
      (r.find? p).any fun q => N ≤ q.matchIndex := by
    intro p
    have := congrArg (Option.any fun m => decide (N ≤ m)) (hr p)
    simpa only [Option.any_map] using this
  simp only [storing, hcongr]

/-- A leader that changes only when it waits for whom has committed the same. -/
theorem CommitsFrom.withView {before : Index} {r' : Replication} (h : n.CommitsFrom before r)
    (hr : ∀ p, (r'.find? p).map Progress.matchIndex = (r.find? p).map Progress.matchIndex) :
    CommitsFrom before { n with role := .leader r' } r' := by
  have hq : ∀ N, Qualifies { n with role := .leader r' } r' N ↔ n.Qualifies r N := by
    intro N
    have hstoring : storing { n with role := .leader r' } r' N = n.storing r N :=
      storing_congr hr n N
    constructor
    · intro h
      exact ⟨hstoring ▸ h.stored, h.own⟩
    · intro h
      exact ⟨hstoring.symm ▸ h.stored, h.own⟩
  refine ⟨rfl, ?_⟩
  simp only [hq]
  exact h.commit

theorem Obeys.of_follower (hn : n.isLeader = false) (hn' : n'.isLeader = false) : n.Obeys n' := by
  intro h
  rw [hn, hn'] at h
  simp at h

theorem exists_of_isLeader (h : n.isLeader = true) : ∃ r, n.role = .leader r := by
  unfold isLeader at h
  cases hrole : n.role with
  | leader r => exact ⟨r, rfl⟩
  | follower leader => simp [hrole, Role.kind] at h
  | candidate votes => simp [hrole, Role.kind] at h

theorem isLeader_eq_false (h : ∀ r, n.role ≠ .leader r) : n.isLeader = false := by
  by_contra hleads
  obtain ⟨r, hrole⟩ := exists_of_isLeader (by simpa using hleads)
  exact h r hrole

variable [LogStore σ]

/-! ## Sending -/

theorem Settled.wp_requestFor {before : Index} (h : n.Settled before) (m : Moment) (peer : NodeId) :
    wp (requestFor m peer) (fun _ n' => n'.Settled before) (fun f _ => f.halts = true) n := by
  obtain ⟨r, hr⟩ := h
  rw [requestFor, Action.wp_bind, Action.wp_get, hr.leads]
  dsimp only
  split
  · rename_i e he
    exact Replication.nextRequest_isFatal he
  · exact ⟨r, hr⟩
  · rename_i q r' hq
    refine ⟨r', hr.withView fun other => ?_⟩
    obtain ⟨p', request, -, -, -, -, rfl⟩ := Replication.nextRequest_eq_some hq
    rw [Replication.find?_update]
    split
    · rw [Option.map_map]
      rfl
    · rfl

theorem Settled.wp_requestTo {before : Index} (h : n.Settled before) (m : Moment) (peer : NodeId) :
    wp (do pure (← requestFor m peer).toList) (fun _ n' => n'.Settled before)
      (fun f _ => f.halts = true) n :=
  Action.wp_seq (h.wp_requestFor m peer) fun _ _ h' => h'

theorem Settled.wp_requestsFor {before : Index} (m : Moment) (names : List NodeId)
    (h : n.Settled before) :
    wp (requestsFor m names) (fun _ n' => n'.Settled before) (fun f _ => f.halts = true) n := by
  induction names generalizing n with
  | nil => exact h
  | cons peer rest ih =>
    rw [requestsFor]
    refine Action.wp_seq (h.wp_requestFor m peer) fun o n₁ h₁ => ?_
    exact Action.wp_seq (ih h₁) fun _ _ h₂ => h₂

/-! ## Growing the log -/

theorem Tallies.wp_append (h : n.Tallies r) (command : Bytes) :
    wp (onLog (Log.appendAsLeader n.term command))
      (fun _ n' => n'.Tallies r ∧ n'.log.commitIndex = n.log.commitIndex)
      (fun f _ => f.halts = true) n := by
  rw [wp_onLog]
  refine Action.wp_mono (Log.wp_appendAsLeader_memory n.term command n.log) ?_ fun _ _ hf => hf.1
  rintro _ _ ⟨rfl, s, rfl⟩
  refine ⟨⟨h.leads, h.distinct, h.tracked, ?_, h.rising.append s command⟩, rfl⟩
  obtain ⟨peer, hmatched⟩ := h.matched
  refine ⟨peer, fun p hp hne => ?_⟩
  rw [Log.lastIndex_append]
  exact (hmatched p hp hne).trans (Nat.le_succ _)

/-- A leader appends an entry of its own, and counts. -/
theorem Tallies.wp_appendAndCount {α : Type} (h : n.Tallies r) (command : Bytes)
    {f : Index → NodeAction σ μ α}
    (hf : ∀ i n', n'.Settled n.log.commitIndex →
      wp (f i) (fun _ n'' => n''.Settled n.log.commitIndex) (fun e _ => e.halts = true) n') :
    wp (do
        let i ← onLog (Log.appendAsLeader n.term command)
        advanceCommit
        f i)
      (fun _ n' => n'.Settled n.log.commitIndex) (fun e _ => e.halts = true) n := by
  refine Action.wp_seq (h.wp_append command) ?_
  rintro i n₁ ⟨h₁, hcommit⟩
  refine Action.wp_seq h₁.wp_advanceCommit_settled fun _ n₂ h₂ => ?_
  rw [hcommit] at h₂
  exact hf i n₂ h₂

/-- Who takes office begins with a view in which nothing is acknowledged. -/
theorem wp_becomeLeader_settled (hd : n.peers.Nodup) (hl : n.log.Rising n.term) (m : Moment) :
    wp (becomeLeader m) (fun _ n' => n'.Settled n.log.commitIndex) (fun f _ => f.halts = true) n := by
  rw [becomeLeader, Action.wp_bind, Action.wp_get, Action.wp_bind]
  refine Action.wp_mono (Replication.wp_start_fresh hd n.log.lastIndex m.now) ?_ ?_
  · rintro r n ⟨rfl, hnames, hfresh⟩
    rw [Action.wp_bind, setRole, Action.wp_bind, Action.wp_get, Action.wp_bind, Action.wp_require]
    split
    · rw [Action.wp_modify]
      have htallies : Tallies { n with role := .leader r } r := by
        refine ⟨rfl, hd, hnames ▸ List.Perm.refl _, ⟨0, fun p hp _ => ?_⟩, hl⟩
        rw [(hfresh p hp).1]
        exact Nat.zero_le _
      exact htallies.wp_appendAndCount [] fun _ n' h' => h'.wp_requestsFor m n'.peers
    · rfl
  · rintro f _ ⟨rfl, rfl⟩
    rfl

/-! ## Events -/

theorem MayCount.wp_startElection (h : n.MayCount) (hn : n.isLeader = false) (m : Moment) :
    wp (startElection m) (fun _ n' => n.Obeys n') (fun f _ => f.halts = true) n := by
  refine wp_startElection_standing ?_ (fun s => ?_) (fun _ s => ?_) fun _ _ hf => hf
  · intro hleads
    rw [hn] at hleads
    cases hleads
  · have hrising : (n.standing m s).log.Rising (n.standing m s).term :=
      (h.rising.withStore s).mono (Nat.le_succ _)
    exact Action.wp_imp (wp_becomeLeader_settled (n := n.standing m s) h.distinct hrising m) fun _ _ h' _ => h'
  · exact .of_follower hn rfl

theorem wp_stepDown_obeys (hn : n.isLeader = false) (m : Moment) (term : Term) :
    wp (do becomeFollower m term none; pure ([] : List Outbound)) (fun _ n' => n.Obeys n')
      (fun f _ => f.halts = true) n := by
  rw [Action.wp_bind]
  refine Action.wp_mono (wp_becomeFollower_turns m term none n) (fun _ n' ht => ?_) fun _ _ hf => hf.1
  refine .of_follower hn ?_
  rw [isLeader, ht.role]
  rfl

theorem MayCount.wp_onVoteReply (h : n.MayCount) (hn : n.isLeader = false) (m : Moment)
    (peer : NodeId) (sentTerm : Term) (reply : VoteReply) :
    wp (onVoteReply m peer sentTerm reply) (fun _ n' => n.Obeys n') (fun f _ => f.halts = true)
      n := by
  rw [onVoteReply, Action.wp_bind, Action.wp_get, Action.wp_ite]
  split
  · exact wp_stepDown_obeys hn m reply.term
  rw [Action.wp_ite]
  split
  · exact .of_follower hn hn
  split
  · rename_i votes hrole
    dsimp only
    generalize (if votes.contains peer then votes else votes ++ [peer]) = votes'
    rw [Action.wp_bind, Action.wp_set, Action.wp_ite]
    split
    · let candidate : Node σ μ := { n with role := .candidate votes' }
      exact Action.wp_imp (wp_becomeLeader_settled (n := candidate) h.distinct h.rising m)
        fun _ _ h' _ => h'
    · exact .of_follower hn rfl
  · exact .of_follower hn hn

theorem MayCount.wp_onAppendReply (h : n.MayCount) (m : Moment) (peer : NodeId) {sent : AppendSent}
    {reply : AppendReply} (hsent : sent.term = n.term) (hreply : reply.term ≤ n.term)
    (hsuccess : reply.success = true) :
    wp (onAppendReply m peer sent reply) (fun _ n' => n.Obeys n') (fun f _ => f.halts = true) n := by
  rw [onAppendReply, Action.wp_bind, Action.wp_get, if_neg (by lia), if_neg (by simpa using hsent)]
  split
  · rename_i r hrole
    rw [if_pos hsuccess]
    rw [Action.wp_bind]
    refine Action.wp_mono (Replication.wp_onAppendSuccess_touches peer sent m.now) ?_ fun _ _ hf => hf ▸ rfl
    rintro r' n ⟨rfl, htouches⟩
    rw [Action.wp_bind, Action.wp_set]
    refine Action.wp_seq (h.tallies_touched hrole htouches).wp_advanceCommit_settled fun _ n₁ h₁ => ?_
    rw [Action.wp_ite]
    split
    · exact Action.wp_imp (h₁.wp_requestTo m peer) fun _ _ h' _ => h'
    · exact fun _ => h₁
  · rename_i hrole
    exact .of_follower (isLeader_eq_false hrole) (isLeader_eq_false hrole)

theorem MayCount.wp_onInstallReply (h : n.MayCount) (m : Moment) (peer : NodeId) {sentTerm : Term}
    (index : Index) {reply : InstallReply} (hsent : sentTerm = n.term)
    (hreply : reply.term ≤ n.term) :
    wp (onInstallReply m peer sentTerm index reply) (fun _ n' => n.Obeys n')
      (fun f _ => f.halts = true) n := by
  rw [onInstallReply, Action.wp_bind, Action.wp_get, if_neg (by lia), if_neg (by simpa using hsent)]
  split
  · rename_i r hrole
    rw [Replication.onInstalled, Action.wp_bind]
    refine Action.wp_mono (Replication.wp_confirm_touches peer index m.now) ?_ fun _ _ hf => hf ▸ rfl
    rintro r' n ⟨rfl, htouches⟩
    rw [Action.wp_bind, Action.wp_set]
    refine Action.wp_seq (h.tallies_touched hrole htouches).wp_advanceCommit_settled fun _ n₁ h₁ => ?_
    exact Action.wp_imp (h₁.wp_requestTo m peer) fun _ _ h' _ => h'
  · rename_i hrole
    exact .of_follower (isLeader_eq_false hrole) (isLeader_eq_false hrole)

variable [StateMachine μ]

/-- A command that is refused changes nothing. -/
theorem MayCount.wp_propose (h : n.MayCount) (command : Bytes) :
    wp (propose command) (fun _ n' => n.Obeys n') (fun f n' => f.halts = true ∨ n' = n) n := by
  rw [propose, Action.wp_bind, Action.wp_get, Action.wp_ite]
  split
  · exact Or.inr rfl
  rename_i hrole
  rw [Action.wp_ite]
  split
  · exact Or.inr rfl
  split
  · exact Or.inr rfl
  · obtain ⟨r, hrole⟩ := exists_of_isLeader (by simpa using hrole)
    exact Action.wp_mono ((h.tallies hrole).wp_appendAndCount command fun _ _ h' => h')
      (fun _ _ h' _ => h') fun _ _ => Or.inl

/-- The commit rule is exact: after every event that makes a leader count, its commit index is the greatest index that
a majority stores and whose entry is of its own term, or what it was before if that is higher or if there is none. -/
theorem MayCount.commits_exactly (h : n.MayCount) {o : Occasion} (ho : o.Counts n) (m : Moment) :
    wp (o.run m) (fun _ n' => n.Obeys n') (fun f n' => f.halts = true ∨ n' = n) n := by
  cases o with
  | request q => exact ho.elim
  | act c =>
    rw [Occasion.run, Action.wp_map]
    cases c with
    | stand =>
      exact Action.wp_mono (h.wp_startElection ho m) (fun _ _ h' => h') fun _ _ => Or.inl
    | propose command =>
      rw [Protocol.Command.run, Action.wp_map]
      exact h.wp_propose command
    | heartbeat | replicate | apply | snapshot => exact ho.elim
  | response r =>
    rw [Occasion.run, Action.wp_map]
    cases r with
    | vote peer sentTerm reply =>
      exact Action.wp_mono (h.wp_onVoteReply ho m peer sentTerm reply) (fun _ _ h' => h')
        fun _ _ => Or.inl
    | append peer sent reply =>
      obtain ⟨hsent, hreply, hsuccess⟩ := ho
      exact Action.wp_mono (h.wp_onAppendReply m peer hsent hreply hsuccess) (fun _ _ h' => h')
        fun _ _ => Or.inl
    | install peer sentTerm index reply =>
      obtain ⟨hsent, hreply⟩ := ho
      exact Action.wp_mono (h.wp_onInstallReply m peer index hsent hreply) (fun _ _ h' => h')
        fun _ _ => Or.inl
    | unreachable peer sentTerm => exact ho.elim

/-! ## A count -/

/-- Of five members two more have acknowledged the fourth entry, one the third, which is of an older term, and one
nothing. The first two entries are compacted away. -/
def halfway : Node MemoryStore Journal where
  id := 1
  peers := [2, 3, 4, 5]
  config := {}
  term := 3
  vote := some 1
  log := {
    store := {}, entries := [⟨3, 1, [97]⟩, ⟨4, 3, []⟩, ⟨5, 3, [98]⟩], snapshotIndex := 2,
    snapshotTerm := 1, commitIndex := 2, lastApplied := 2 }
  role := .leader { peers := [
    (2, { nextIndex := 5, matchIndex := 4, lastContact := 0 }),
    (3, { nextIndex := 3, inFlightSince := some 0, lastContact := 0 }),
    (4, { nextIndex := 4, matchIndex := 3, lastContact := 0 }),
    (5, { nextIndex := 6, lastContact := 0 })] }
  machine := { lastIndex := 2 }
  electionDeadline := 300
  appliedSinceSnapshot := 0

theorem halfway_mayCount : halfway.MayCount := by
  constructor
  · decide
  · constructor
    · exact .cons rfl (.cons rfl (.cons rfl (.nil 5)))
    · decide
    · decide
    · decide
    · decide
  · rintro r ⟨⟩
    exact .refl _
  · rintro r ⟨⟩
    decide

/-- The third peer has stored two entries behind the snapshot. -/
def acknowledgement : Occasion := .response (.append 3 ⟨3, 2, 2⟩ ⟨3, true, none⟩)

/-- A majority stores the fourth entry, which is of the leader's term, and the peer is sent the fifth. -/
def further : Node MemoryStore Journal := { halfway with
  log := { halfway.log with commitIndex := 4 }
  role := .leader { peers := [
    (2, { nextIndex := 5, matchIndex := 4, lastContact := 0 }),
    (3, { nextIndex := 5, matchIndex := 4, inFlightSince := some 10, lastContact := 10 }),
    (4, { nextIndex := 4, matchIndex := 3, lastContact := 0 }),
    (5, { nextIndex := 6, lastContact := 0 })] } }

theorem halfway_further : acknowledgement.run ⟨10, 0⟩ halfway = .ok () further := by cbv

theorem acknowledgement_counts : acknowledgement.Counts halfway := ⟨rfl, le_rfl, rfl⟩

theorem commits_exactly_fourth : halfway.MayCount ∧ acknowledgement.Counts halfway ∧
    acknowledgement.run ⟨10, 0⟩ halfway = .ok () further ∧ further.log.commitIndex = 4 ∧
    further.Settled 2 :=
  ⟨halfway_mayCount, acknowledgement_counts, halfway_further, rfl,
    Action.wp_ok (halfway_mayCount.commits_exactly acknowledgement_counts ⟨10, 0⟩) halfway_further
      (Or.inl rfl)⟩

end Node

end RaftNode
