import RaftNode.Proofs.Leading
/-!
# Elections

A vote is stored before it is told, and a member stands with the log it then has. Both rest on the term being new
to the member or its vote being still free.
-/
namespace RaftNode

open RaftNode.Action (wp)
open History (Sound Moves Committed)

variable {σ μ : Type} [LogStore σ] [LawfulStore σ] {members : Finset NodeId} {h h' : History}
  {i s : NodeId} {n n' : Node σ μ} {T : Term}

/-- The history when a member stands in the next term. -/
theorem Keeps.stand (hs : Sound members h) (hk : Keeps members h i n) : ∃ h',
    Moves members i h h' ∧ h'.log i = h.log i ∧ h'.term i = n.term + 1 ∧
      Campaigns members h' i (n.term + 1) [i] := by
  obtain ⟨hm₁, hfree⟩ := hk.enter hs (Nat.lt_succ_self n.term)
  let h₁ := h.adopt i (n.term + 1)
  have hterm : h₁.term i = n.term + 1 := by simp [h₁, History.adopt]
  have hnew : ∀ e ∈ h₁.log i, e.term < h₁.term i := fun e he => by
    have := hs.paths.log_term i e he
    rw [hterm]
    exact Nat.lt_succ_of_le (hk.term ▸ this)
  have hm₂ := hm₁.sound.stand (i := i) (by rw [hterm]; exact hfree) hnew
  have hself : (h₁.stand i).vote i (n.term + 1) = some i := by
    simp [History.stand, History.cast, hterm]
  refine ⟨_, hm₁.trans hm₂, rfl, hterm, ?_, hself, ?_, List.nodup_singleton i, fun v hv => ?_⟩
  · rw [History.stand_stood, if_pos ⟨rfl, hterm.symm⟩]
    rfl
  · intro hl
    have hreached := hs.leader_reached hl
    rw [hk.term] at hreached
    lia
  · rw [List.mem_singleton.mp hv]
    exact ⟨hk.member, hself⟩

theorem Runs.startElection (hs : Sound members h) (hr : Runs members h i n) (m : Moment) :
    Evolves members h i (Node.startElection m)
      (fun h' qs n' => Runs members h' i n' ∧ SendsAll members h' i qs) n := by
  rw [Evolves, Node.startElection, Action.wp_bind, Action.wp_get, Action.wp_ite]
  split
  · exact ⟨h, .refl hs, hr, .nil⟩
  rw [Action.wp_bind, Action.wp_add]
  split
  swap
  · exact hr.halted hs rfl
  obtain ⟨h₁, hm, hlog, hterm, hc⟩ := hr.toKeeps.stand hs
  have hadopt := hr.wp_adopt hs hm hlog hterm
  rw [hc.self] at hadopt
  rw [hr.id]
  refine Action.wp_seq hadopt ?_
  rintro - n₁ ⟨hk, -, ht⟩
  refine Evolves.after hm ?_
  rw [Evolves, Action.wp_bind]
  refine hk.wp_setRole hm.sound _ fun _ => ?_
  rw [Action.wp_bind, Node.resetDeadline, Action.wp_modify, Action.wp_ite]
  have hk₂ : Keeps members h₁ i
      { n₁ with role := .candidate [i], electionDeadline := n₁.config.deadline m } := { hk with }
  have hc₂ : Campaigns members h₁ i n₁.term [i] := by rwa [ht]
  split
  · rename_i hmajority
    refine hk₂.becomeLeader hm.sound hc₂ ?_ m
    unfold Node.hasMajority at *
    rwa [← hk₂.card, hr.card]
  · refine ⟨h₁, .refl hm.sound, ⟨hk₂, hc₂⟩, fun q hq => ?_⟩
    obtain ⟨peer, hpeer, rfl⟩ := List.mem_map.mp hq
    refine ⟨hr.mem_members hpeer, rfl, hc.self, ?_, ?_⟩
    · rw [hc.stood, hlog]
      exact hr.log.lastIndex
    · rw [hc.stood, hlog]
      exact hr.log.lastTerm

/-- The vote rule. -/
theorem Runs.grant (hs : Sound members h) (hr : Runs members h i n) {q : VoteRequest}
    (hq : AsksVote h s q) (hterm : n.term = q.term) (hfree : n.vote = none)
    (hup : n.log.isUpToDate q.lastTerm q.lastIndex) :
    Evolves members h i (Node.adopt n.term (some q.candidate))
      (fun h' _ n' => Runs members h' i n' ∧ h'.vote i q.term = some s) n := by
  have hfree' : h.vote i (h.term i) = none := by rw [hr.term, hr.vote, hfree]
  have hm : Moves members i h (h.grant i s) := by
    refine hs.grant hfree' ?_ ?_
    · rw [hr.term, hterm]
      exact hq.stood
    · rw [hr.term, hterm, ← hq.lastIndex, ← hq.lastTerm]
      exact (hr.log.isUpToDate _ _).mp hup
  have hvote : (h.grant i s).vote i n.term = some s := by
    simp [History.grant, History.cast, ← hr.term]
  have hadopt := hr.wp_adopt hs hm rfl hr.term
  rw [hvote] at hadopt
  rw [Evolves, hq.candidate]
  refine Action.wp_imp hadopt ?_
  rintro - n₁ ⟨hk, hrole, ht⟩
  refine ⟨_, hm, ⟨hk, ?_⟩, hterm ▸ hvote⟩
  -- whoever stands or leads has voted for itself
  have hself : h.vote i n.term ≠ some i := by simp [hr.vote, hfree]
  have hheld := hr.role
  unfold Holds at *
  rw [hrole]
  split at hheld
  · trivial
  · exact absurd hheld.self hself
  · exact absurd (hs.leader_stood hheld.office) hself

/-- The part of `onVoteRequest` in the term of the request. -/
def Node.decideVote (m : Moment) (q : VoteRequest) : NodeAction σ μ VoteReply := do
  let n ← get
  if (n.vote = none || n.vote = some q.candidate) && n.log.isUpToDate q.lastTerm q.lastIndex then
    if n.vote ≠ some q.candidate then Node.adopt n.term (some q.candidate)
    Node.resetDeadline m
    pure { term := n.term, granted := true }
  else pure { term := n.term, granted := false }

omit [LawfulStore σ] in
theorem Node.onVoteRequest_eq (m : Moment) (q : VoteRequest) :
    (Node.onVoteRequest m q : NodeAction σ μ VoteReply) = (do
      if q.term < (← get).term then pure { term := (← get).term, granted := false }
      else
        if (← get).term < q.term then Node.becomeFollower m q.term none
        Node.decideVote m q) := rfl

theorem Runs.decideVote (hs : Sound members h) (hr : Runs members h i n) (m : Moment)
    {q : VoteRequest} (hq : AsksVote h s q) (hterm : n.term = q.term) :
    Evolves members h i (Node.decideVote m q)
      (fun h' a n' => Runs members h' i n' ∧ (a.granted → h'.vote i q.term = some s)) n := by
  have hreset : ∀ {h' : History} {n' : Node σ μ}, Moves members i h h' → Runs members h' i n' →
      h'.vote i q.term = some s → Evolves members h i
        (do Node.resetDeadline m; pure { term := n.term, granted := true })
        (fun h' (a : VoteReply) n' => Runs members h' i n' ∧
          (a.granted → h'.vote i q.term = some s)) n' :=
    fun hm hr' hv => ⟨_, hm, ⟨{ hr'.toKeeps with }, hr'.role⟩, fun _ => hv⟩
  rw [Evolves, Node.decideVote, Action.wp_bind, Action.wp_get, Action.wp_ite]
  split
  · rename_i hok
    simp only [Bool.and_eq_true, Bool.or_eq_true, decide_eq_true_eq] at hok
    obtain ⟨hvote, hup⟩ := hok
    simp only [Action.wp_ite, Action.wp_bind]
    split
    · rename_i hne
      refine Action.wp_imp (hr.grant hs hq hterm (hvote.resolve_right hne) hup) ?_
      rintro - n' ⟨h', hm, hr', hv⟩
      exact hreset hm hr' hv
    · rename_i heq
      refine hreset (.refl hs) hr ?_
      rw [← hterm, hr.vote, not_not.mp heq, hq.candidate]
  · exact ⟨h, .refl hs, hr, fun hg => absurd hg Bool.false_ne_true⟩

theorem Runs.onVoteRequest (hs : Sound members h) (hr : Runs members h i n) (m : Moment)
    {q : VoteRequest} (hq : AsksVote h s q) : Evolves members h i (Node.onVoteRequest m q)
      (fun h' a n' => Runs members h' i n' ∧ (a.granted → h'.vote i q.term = some s)) n := by
  rw [Evolves, Node.onVoteRequest_eq, Action.wp_bind, Action.wp_get, Action.wp_ite]
  split
  · exact ⟨h, .refl hs, hr, fun hg => absurd hg Bool.false_ne_true⟩
  rename_i hold
  rw [Action.wp_bind, Action.wp_get]
  simp only [Action.wp_ite, Action.wp_bind]
  split
  · refine Action.wp_imp (hr.becomeFollower hs m q.term none) ?_
    rintro - n' ⟨h', hm, hr', ht, -⟩
    exact Evolves.after hm (hr'.decideVote hm.sound m (hq.extends hm.grows) (by lia))
  · exact hr.decideVote hs m hq (by lia)

omit [LogStore σ] [LawfulStore σ] in
theorem mem_counted {votes : List NodeId} {peer v : NodeId} :
    v ∈ (if votes.contains peer then votes else votes ++ [peer]) ↔ v ∈ votes ∨ v = peer := by
  split
  · rename_i hold
    refine ⟨Or.inl, fun h => h.elim id ?_⟩
    rintro rfl
    exact List.contains_iff_mem.mp hold
  · rw [List.mem_append, List.mem_singleton]

omit [LogStore σ] [LawfulStore σ] in
/-- A vote is counted once. -/
theorem nodup_counted {votes : List NodeId} (h : votes.Nodup) (peer : NodeId) :
    (if votes.contains peer then votes else votes ++ [peer]).Nodup := by
  split
  · exact h
  · rename_i hnew
    refine List.nodup_append.mpr ⟨h, List.nodup_singleton _, ?_⟩
    rintro a ha b hb rfl
    rw [List.mem_singleton.mp hb] at ha
    exact hnew (List.contains_iff_mem.mpr ha)

theorem Campaigns.count {votes : List NodeId} (hc : Campaigns members h i T votes) {peer : NodeId}
    (hpeer : peer ∈ members) (hvote : h.vote peer T = some i) :
    Campaigns members h i T (if votes.contains peer then votes else votes ++ [peer]) := by
  refine { hc with distinct := nodup_counted hc.distinct peer, voted := fun v hv => ?_ }
  obtain hv | rfl := mem_counted.mp hv
  · exact hc.voted v hv
  · exact ⟨hpeer, hvote⟩

theorem Runs.onVoteReply (hs : Sound members h) (hr : Runs members h i n) (m : Moment)
    {peer : NodeId} {sentTerm : Term} {r : VoteReply}
    (hl : Learns members h i (.vote peer sentTerm r)) :
    Evolves members h i (Node.onVoteReply m peer sentTerm r)
      (fun h' qs n' => Runs members h' i n' ∧ SendsAll members h' i qs) n := by
  rw [Evolves, Node.onVoteReply, Action.wp_bind, Action.wp_get, Action.wp_ite]
  split
  · exact hr.stepDown hs m r.term
  rw [Action.wp_ite]
  split
  · exact ⟨h, .refl hs, hr, .nil⟩
  rename_i hcounts
  simp only [Bool.or_eq_true, decide_eq_true_eq, Bool.not_eq_true', not_or, not_not] at hcounts
  split
  · rename_i votes hrole
    have hc : Campaigns members h i n.term votes := by
      have := hr.role
      rwa [Holds, hrole] at this
    obtain ⟨hpeer, hvote⟩ := hl (by simpa using hcounts.2)
    rw [hcounts.1] at hvote
    have hc' := hc.count hpeer hvote
    dsimp only
    generalize (if votes.contains peer then votes else votes ++ [peer]) = votes' at hc' ⊢
    rw [Action.wp_bind, Action.wp_set, Action.wp_ite]
    have hk : Keeps members h i { n with role := .candidate votes' } := { hr.toKeeps with }
    split
    · rename_i hmajority
      exact hk.becomeLeader hs hc' hmajority m
    · exact ⟨h, .refl hs, ⟨hk, hc'⟩, .nil⟩
  · exact ⟨h, .refl hs, hr, .nil⟩

end RaftNode
