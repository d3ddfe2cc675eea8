import RaftNode.Proofs.Bookkeeping
import RaftNode.Proofs.Canvass
import RaftNode.Proofs.Handlers
/-!
# What a role rests on

No node takes a role that the table of transitions does not give it. A candidate stands with its own vote and waits
for a majority. A leader has the last word in its log: entries of its term come to the end, and some go from the front
into the snapshot.
-/
namespace RaftNode

open RaftNode.Action (wp)
open RaftNode.Node (Step Steps Fails Breaks Goes Occasion)

/-! ## Terms along a log -/

namespace Log

variable {σ : Type} {l l' l'' : Log σ} {T : Term}

/-- The terms along the log, from that of the snapshot on. -/
def terms (l : Log σ) : List Term := l.snapshotTerm :: l.entries.map Entry.term

theorem getLast?_terms (l : Log σ) : l.terms.getLast? = some l.lastTerm := by
  rw [terms, List.getLast?_cons, List.getLast?_map, lastTerm]

/-- Entries of term `T` have come to the end of the log, and some of all have gone from its front into the snapshot. -/
def Lengthens (T : Term) (l l' : Log σ) : Prop :=
  ∃ (added : List Entry) (k : Nat), (∀ e ∈ added, e.term = T) ∧ k ≤ (l.entries ++ added).length ∧
    l'.snapshotIndex = l.snapshotIndex + k ∧ l'.entries = (l.entries ++ added).drop k ∧
    l'.terms = (l.terms ++ added.map Entry.term).drop k

namespace Lengthens

/-- Nothing has changed but the positions. -/
theorem same (hindex : l'.snapshotIndex = l.snapshotIndex) (hterm : l'.snapshotTerm = l.snapshotTerm)
    (hentries : l'.entries = l.entries) : l.Lengthens T l' := by
  refine ⟨[], 0, by simp, Nat.zero_le _, hindex, by simpa using hentries, ?_⟩
  simp [terms, hterm, hentries]

theorem refl (T : Term) (l : Log σ) : l.Lengthens T l := same rfl rfl rfl

theorem append (T : Term) (l : Log σ) (i : Index) (command : Bytes) (s : σ) :
    l.Lengthens T { l with store := s, entries := l.entries ++ [⟨i, T, command⟩] } := by
  refine ⟨[⟨i, T, command⟩], 0, by simp, Nat.zero_le _, rfl, rfl, ?_⟩
  simp [terms]

theorem compacted {snap : Snapshot} (hnew : l.snapshotIndex < snap.index)
    (hterm : l.termAt? snap.index = some snap.term) (s : σ) : l.Lengthens T (l.compacted snap s) := by
  rw [termAt?_of_lt hnew, Option.map_eq_some_iff] at hterm
  obtain ⟨e, he, hterm⟩ := hterm
  rw [Log.entry?, if_neg (by lia)] at he
  obtain ⟨k, hk⟩ : ∃ k, snap.index = l.snapshotIndex + k + 1 := ⟨snap.index - l.snapshotIndex - 1, by lia⟩
  rw [hk, show l.snapshotIndex + k + 1 - l.snapshotIndex - 1 = k by lia] at he
  have hlt := (List.getElem?_eq_some_iff.mp he).1
  have hdrop : snap.index - l.snapshotIndex = k + 1 := by lia
  refine ⟨[], k + 1, by simp, by simpa using hlt, by rw [Log.compacted]; lia, ?_, ?_⟩
  · rw [Log.compacted, hdrop, List.append_nil]
  · rw [terms, Log.compacted, hdrop, List.map_nil, List.append_nil, terms, List.drop_succ_cons]
    rw [← List.map_drop, List.drop_eq_getElem_cons hlt, List.map_cons, ← hterm]
    rw [(List.getElem?_eq_some_iff.mp he).2]

theorem trans (h : l.Lengthens T l') (h' : l'.Lengthens T l'') : l.Lengthens T l'' := by
  obtain ⟨added, k, hterm, hk, hindex, hentries, hterms⟩ := h
  obtain ⟨added', k', hterm', hk', hindex', hentries', hterms'⟩ := h'
  have hle : k ≤ (l.terms ++ added.map Entry.term).length := by
    simp only [terms, List.length_append, List.length_cons, List.length_map] at hk ⊢
    lia
  refine ⟨added ++ added', k + k', fun e he => ?_, ?_, by lia, ?_, ?_⟩
  · exact (List.mem_append.mp he).elim (hterm e) (hterm' e)
  · rw [hentries, List.length_append, List.length_drop] at hk'
    rw [← List.append_assoc, List.length_append]
    lia
  · rw [hentries', hentries, ← List.append_assoc, ← List.drop_drop, List.drop_append_of_le_length hk]
  · rw [hterms', hterms, List.map_append, ← List.append_assoc, ← List.drop_drop, List.drop_append_of_le_length hle]

/-- The last term stays. -/
theorem lastTerm (h : l.Lengthens T l') (hl : l.lastTerm = T) : l'.lastTerm = T := by
  obtain ⟨added, k, hterm, hk, -, -, hterms⟩ := h
  have hlt : ¬ (l.terms ++ added.map Entry.term).length ≤ k := by
    simp only [terms, List.length_append, List.length_cons, List.length_map] at hk ⊢
    lia
  have hlast : some l'.lastTerm = (l.terms ++ added.map Entry.term).getLast? := by
    rw [← getLast?_terms, hterms, List.getLast?_drop, if_neg hlt]
  rcases List.eq_nil_or_concat' added with rfl | ⟨front, e, rfl⟩
  · rw [List.map_nil, List.append_nil, getLast?_terms, hl] at hlast
    exact Option.some.inj hlast
  · rw [List.map_append, ← List.append_assoc, List.map_singleton, List.getLast?_concat, hterm e (by simp)] at hlast
    exact Option.some.inj hlast

end Lengthens

variable [LogStore σ] [LawfulStore σ] {F : List Entry}

theorem Shows.ascending_terms (h : l.Shows F) (hF : Ascending F) : l.terms.Pairwise (· ≤ ·) := by
  rw [terms, List.pairwise_cons, h.entries_eq, h.snapshotTerm_eq]
  refine ⟨fun U hU => ?_, List.pairwise_map.mpr (hF.sublist (List.drop_sublist _ _))⟩
  obtain ⟨e, he, rfl⟩ := List.mem_map.mp hU
  rw [← List.take_append_drop l.snapshotIndex F] at hF
  exact endTerm_le fun a ha => (List.pairwise_append.mp hF).2.2 a ha e he

theorem Shows.terms_le (h : l.Shows F) (hF : ∀ e ∈ F, e.term ≤ T) : ∀ U ∈ l.terms, U ≤ T := by
  rw [terms, h.entries_eq, h.snapshotTerm_eq]
  intro U hU
  rcases List.mem_cons.mp hU with rfl | hU
  · exact endTerm_le fun e he => hF e (List.mem_of_mem_take he)
  · obtain ⟨e, he, rfl⟩ := List.mem_map.mp hU
    exact hF e (List.mem_of_mem_drop he)

end Log

/-! ## Steps of a leader -/

namespace Node

variable {σ μ : Type} [LogStore σ] [StateMachine μ] {n n' : Node σ μ} {o : Occasion} {m : Moment}

/-- What a leader does in its term lengthens its log. -/
theorem Step.lengthens (h : Step o n n') (hl : n.role.kind = .leader) (hl' : n'.role.kind = .leader) :
    n'.term = n.term ∧ n.log.Lengthens n.term n'.log := by
  cases h with
  | enter | follow | stand | count => cases hl'
  | elect hrole =>
    rw [hrole] at hl
    cases hl
  | reconcile _ _ hrole | install _ _ hrole => cases hl.symm.trans hrole
  | wait | view => exact ⟨rfl, .refl _ _⟩
  | vote _ _ _ hlog =>
    obtain ⟨s, rfl⟩ := Action.wp_ok (Log.wp_saveHard_memory _ _) hlog
    exact ⟨rfl, .same rfl rfl rfl⟩
  | append _ hlog =>
    obtain ⟨-, s, rfl⟩ := Action.wp_ok (Log.wp_appendAsLeader_memory _ _ _) hlog
    exact ⟨rfl, .append n.term n.log _ _ s⟩
  | commit _ _ hlog =>
    obtain ⟨c, -, -, rfl⟩ := Action.wp_ok (Log.wp_setCommitIndex_memory _ _) hlog
    exact ⟨rfl, .same rfl rfl rfl⟩
  | apply hlog =>
    obtain ⟨-, -, rfl⟩ := Log.nextCommitted_eq_some hlog
    exact ⟨rfl, .same rfl rfl rfl⟩
  | compact hterm hlog =>
    obtain ⟨-, rfl | ⟨hnew, s, rfl⟩⟩ := Action.wp_ok (Log.wp_compact_memory _ _) hlog
    · exact ⟨rfl, .refl _ _⟩
    · exact ⟨rfl, .compacted hnew hterm s⟩

/-- As long as it leads the term, a leader lengthens its log. -/
theorem lasting_lengthens (T : Term) (l : Log σ) :
    Lasting fun n : Node σ μ => n.term = T ∧ l.Lengthens T n.log where
  step := by
    rintro o n n' ⟨rfl, hlog⟩ hs hl hl'
    obtain ⟨hterm, hlog'⟩ := hs.lengthens hl hl'
    exact ⟨hterm, hlog.trans hlog'⟩
  store := by
    rintro n store ⟨hterm, hlog⟩
    exact ⟨hterm, hlog.trans (.same rfl rfl rfl)⟩

/-! ## Changes of role -/

/-- The role stays as it is, or the table of transitions allows the new one. -/
def TakesRole (n n' : Node σ μ) : Prop :=
  n'.role.kind = n.role.kind ∨ n.role.kind.mayBecome n'.role.kind = true

theorem Step.takesRole (h : Step o n n') : n.TakesRole n' := by
  cases h with
  | enter | follow => exact Or.inr (mayBecome_follower _)
  | stand _ hrole =>
    refine Or.inr ?_
    unfold isLeader at hrole
    cases hk : n.role.kind with
    | follower | candidate => rfl
    | leader => simp [hk] at hrole
  | count _ _ hrole | elect hrole =>
    refine Or.inr ?_
    rw [hrole]
    rfl
  | view hrole =>
    refine Or.inl ?_
    rw [hrole]
    rfl
  | wait | vote | append | commit | reconcile | install | apply | compact => exact Or.inl rfl

/-- The node takes no role that it may not take, and for as long as it leads it lengthens its log. -/
structure Develops (n n' : Node σ μ) : Prop where
  role : n.TakesRole n'
  log : n.role.kind = .leader → n'.role.kind = .leader → n'.term = n.term ∧ n.log.Lengthens n.term n'.log

/-- An event is made of steps of which each is such a development. -/
def Advances (o : Occasion) : Node σ μ → Node σ μ → Prop :=
  Relation.ReflTransGen fun a b => Step o a b ∧ a.Develops b

theorem Steps.advances (h : Steps o n n') : n.Advances o n' :=
  Relation.ReflTransGen.mono (fun _ _ hs => ⟨hs, hs.takesRole, hs.lengthens⟩) _ _ h

/-! ## Candidates and leaders -/

/-- A candidate has no majority yet, and a leader has the last word in its log. -/
structure Seated (n : Node σ μ) : Prop where
  pending : ∀ votes, n.role = .candidate votes → n.hasMajority votes.length = false
  current : n.role.kind = .leader → n.log.lastTerm = n.term

omit [LogStore σ] [StateMachine μ] in
theorem seated_follower (h : n.role.kind = .follower) : n.Seated where
  pending votes hrole := by
    rw [hrole] at h
    cases h
  current hl := by cases h.symm.trans hl

/-- Votes are cast and counted on other occasions. -/
def Occasion.Calm (o : Occasion) : Prop :=
  o ≠ .act .stand ∧ ∀ peer T r, o ≠ .response (.vote peer T r)

theorem Seated.step (h : n.Seated) (ho : o.Calm) (hs : Step o n n') : n'.Seated := by
  have hstep := hs
  cases hs with
  | enter | follow => exact seated_follower rfl
  | stand hstand => exact (ho.1 hstand).elim
  | count hcount => exact (ho.2 _ _ _ hcount).elim
  | elect hrole hvotes =>
    rw [h.pending _ hrole] at hvotes
    cases hvotes
  | view hrole =>
    have hl : n.role.kind = .leader := by rw [hrole]; rfl
    exact ⟨by rintro votes ⟨⟩, fun _ => h.current hl⟩
  | wait | vote | append | commit | reconcile | install | apply | compact =>
    refine ⟨h.pending, fun hl => ?_⟩
    obtain ⟨hterm, hlog⟩ := hstep.lengthens hl hl
    exact (hlog.lastTerm (h.current hl)).trans hterm.symm

theorem Seated.steps (h : n.Seated) (ho : o.Calm) (hs : Steps o n n') : n'.Seated := by
  induction hs with
  | refl => exact h
  | tail _ hstep ih => exact ih.step ho hstep

/-- However the action ends, the node is seated or it halts. In between it may lead before it has its first entry, so
this cannot be said of each step. -/
def Seats {α : Type} (x : NodeAction σ μ α) (n : Node σ μ) : Prop :=
  wp x (fun _ n' => n'.Seated) (fun f n' => f.halts = true ∨ n'.Seated) n

theorem Seated.goes {α : Type} {x : NodeAction σ μ α} {Q : α → Node σ μ → Prop} (h : n.Seated) (ho : o.Calm)
    (hx : Goes o x Q n) : Seats x n := by
  refine Action.wp_mono hx (fun _ _ hs => h.steps ho hs.1) ?_
  rintro f n' ⟨n₁, hs, hfails⟩
  refine or_iff_not_imp_left.mpr fun hf => ?_
  rw [hfails.unchanged (by simpa using hf)]
  exact h.steps ho hs

variable [LawfulStore σ]

/-- Whoever takes office puts an entry of its term into its log before anything else. -/
theorem seats_becomeLeader {votes : List NodeId} (hrole : n.role = .candidate votes) (m : Moment) :
    Seats (becomeLeader m) n := by
  rw [Seats, becomeLeader, Action.wp_bind, Action.wp_get, Action.wp_bind]
  refine Action.wp_mono (Replication.wp_start_same n.peers n.log.lastIndex m.now) ?_ ?_
  · rintro r n rfl
    have hmay : n.role.kind.mayBecome .leader = true := by rw [hrole]; rfl
    rw [Action.wp_bind, wp_setRole hmay, Action.wp_bind, wp_onLog]
    refine Action.wp_mono (Log.wp_appendAsLeader_memory _ _ _) ?_ fun _ _ hf => Or.inl hf.1
    rintro i _ ⟨-, s, rfl⟩
    -- what follows casts and counts no vote, so any calm occasion will do
    refine Seated.goes (o := .act .heartbeat) ⟨?_, fun _ => ?_⟩ ⟨by simp, by simp⟩
      (goes_advanceCommit.bind fun _ _ _ _ => goes_replicate m)
    · rintro votes ⟨⟩
    · simp [Log.lastTerm]
  · rintro f _ ⟨rfl, rfl⟩
    exact Or.inl rfl

theorem Seated.startElection (h : n.Seated) (m : Moment) : Seats (startElection m) n := by
  refine wp_startElection_standing (fun _ => h) (fun _ => seats_becomeLeader rfl m) (fun hasks _ => ⟨?_, ?_⟩)
    fun _ _ hf => Or.inl hf
  · rintro votes ⟨⟩
    exact hasks
  · rintro ⟨⟩

theorem Seated.onVoteReply (h : n.Seated) (m : Moment) (peer : NodeId) (sentTerm : Term) (r : VoteReply) :
    Seats (onVoteReply m peer sentTerm r) n := by
  rw [Seats, Node.onVoteReply, Action.wp_bind, Action.wp_get, Action.wp_ite]
  split
  · exact h.goes (o := .act .heartbeat) ⟨by simp, by simp⟩ (goes_stepDown m r.term)
  rw [Action.wp_ite]
  split
  · exact h
  split
  · rename_i votes _
    dsimp only
    generalize (if votes.contains peer then votes else votes ++ [peer]) = votes
    rw [Action.wp_bind, Action.wp_set, Action.wp_ite]
    split
    · exact seats_becomeLeader rfl m
    · rename_i hmajority
      refine ⟨?_, ?_⟩
      · rintro votes' ⟨⟩
        exact Bool.eq_false_iff.mpr hmajority
      · rintro ⟨⟩
  · exact h

theorem Seated.run (h : n.Seated) (o : Occasion) (m : Moment) : Seats (o.run m) n := by
  by_cases hstand : o = .act .stand
  · subst hstand
    rw [Occasion.run, Seats, Action.wp_map]
    exact h.startElection m
  by_cases hvote : ∃ peer T r, o = .response (.vote peer T r)
  · obtain ⟨peer, T, r, rfl⟩ := hvote
    rw [Occasion.run, Seats, Action.wp_map]
    exact h.onVoteReply m peer T r
  · exact h.goes ⟨hstand, by simpa using hvote⟩ (goes_run o m)

theorem Seated.passes (h : n.Seated) (hrun : o.Passes m n n') : n'.Seated := by
  obtain hok | ⟨f, hf, herror⟩ := hrun
  · exact Action.wp_ok (h.run o m) hok
  · refine (Action.wp_error (h.run o m) herror).resolve_left fun hhalts => ?_
    rw [hf] at hhalts
    cases hhalts

end Node

/-! ## Runs -/

namespace Protocol

variable {σ μ : Type} [LogStore σ] [LawfulStore σ] [StateMachine μ] {i : NodeId} {n : Node σ μ} {t : ℕ}

theorem OpenRun.upholds_seated (r : OpenRun σ μ) (i : NodeId) : r.Upholds i fun _ n => n.Seated where
  boot hboot := by
    obtain ⟨-, -, hrole, -⟩ := Action.wp_ok (Node.wp_boot_pledged _ _ _ _ _ _) hboot
    exact Node.seated_follower (by rw [hrole]; rfl)
  rest hn := hn
  store _ hn := ⟨hn.pending, hn.current⟩
  go _ hn hrun := hn.passes hrun

theorem OpenRun.seated (r : OpenRun σ μ) (hn : (r.state t).node? i = some n) : n.Seated :=
  (r.upholds_seated i).node hn

variable {members : Finset NodeId} {r : Run members σ μ}

/-- Whoever stands or leads has its own vote. -/
theorem Run.own_vote (hn : r.node? t i = some n) (hrole : n.role.kind ≠ .follower) : n.vote = some i := by
  obtain ⟨rfl, hp⟩ := r.toOpenRun.pledged_node hn
  exact hp.self hrole

/-- A candidate counts its own vote. -/
theorem Run.counts_own (hn : r.node? t i = some n) {votes : List NodeId} (hrole : n.role = .candidate votes) :
    i ∈ votes := by
  have hc := (r.toOpenRun.canvassed hn).candidate hrole
  exact (r.toOpenRun.pledged_node hn).1 ▸ hc.own

/-- The votes behind a candidate are those of some members, itself among them, and not yet of a majority. -/
structure Standing (members : Finset NodeId) (i : NodeId) (votes : List NodeId) : Prop where
  own : i ∈ votes
  distinct : votes.Nodup
  known : ∀ v ∈ votes, v ∈ members
  pending : votes.length < majority members.card

theorem Run.standing (hn : r.node? t i = some n) {votes : List NodeId} (hrole : n.role = .candidate votes) :
    Standing members i votes := by
  obtain ⟨H, hc⟩ := r.exists_chronicle
  have hr := hc.runs hn
  have hvotes : Campaigns members (H t) i n.term votes := by
    have := hr.role
    rwa [Holds, hrole] at this
  have hpending := (r.toOpenRun.seated hn).pending votes hrole
  rw [Node.hasMajority, ← hr.card, decide_eq_false_iff_not, Nat.not_le] at hpending
  exact ⟨Run.counts_own hn hrole, hvotes.distinct, fun v hv => (hvotes.voted v hv).1, hpending⟩

theorem Run.terms (hn : r.node? t i = some n) :
    n.log.terms.Pairwise (· ≤ ·) ∧ ∀ T ∈ n.log.terms, T ≤ n.term := by
  obtain ⟨H, hc⟩ := r.exists_chronicle
  have hr := hc.runs hn
  have hs := (hc.sound t).paths
  exact ⟨hr.log.ascending_terms ((hs.log i).ascending hs), hr.log.terms_le fun e he => hr.term ▸ hs.log_term i e he⟩

/-- What there is to a role of member `i`, at any moment. -/
structure Legitimate (members : Finset NodeId) (i : NodeId) (n : Node σ μ) : Prop where
  own : n.role.kind ≠ .follower → n.vote = some i
  standing : ∀ votes, n.role = .candidate votes → Standing members i votes
  ascending : n.log.terms.Pairwise (· ≤ ·)
  reached : ∀ T ∈ n.log.terms, T ≤ n.term
  current : n.role.kind = .leader → n.log.lastTerm = n.term

/-- At every moment the role of a member is legitimate. Whatever happens to the member next, it goes from role to role
as the table of transitions says, and if that fails, it does not fail at a change of role. A leader lengthens its log
for as long as it leads its term. -/
theorem Run.roles_legitimate (r : Run members σ μ) (hn : r.node? t i = some n) : Legitimate members i n ∧
    (∀ (o : Occasion) (m : Moment), (∀ n', o.run m n = .ok () n' → n.Advances o n') ∧
      ∀ f n', o.run m n = .error f n' → ∃ n₁, n.Advances o n₁ ∧ Fails o n₁ f n') ∧
    ∀ u n', t ≤ u → r.node? u i = some n' → n.role.kind = .leader → n'.role.kind = .leader → n'.term = n.term →
      n.log.Lengthens n.term n'.log := by
  refine ⟨?_, fun o m => ⟨fun n' hok => ?_, fun f n' herror => ?_⟩, fun u n' htu hn' hl hl' hterm => ?_⟩
  · obtain ⟨hascending, hreached⟩ := r.terms hn
    exact ⟨Run.own_vote hn, fun _ => Run.standing hn, hascending, hreached, (r.toOpenRun.seated hn).current⟩
  · exact (Action.wp_ok (Node.goes_run o m) hok).1.advances
  · obtain ⟨n₁, hs, hfails⟩ := Action.wp_error (Node.goes_run o m) herror
    exact ⟨n₁, hs.advances, hfails⟩
  · exact (r.toOpenRun.lasts (Node.lasting_lengthens n.term n.log) htu (Run.node?_eq_some hn) hl
      ⟨rfl, .refl _ _⟩ (Run.node?_eq_some hn') hterm hl').2

/-- Member 1 leads from the moment at which its first entry is committed until it has compacted that entry away. -/
theorem roles_legitimate_succession : ∃ n n', successionRun.node? 9 1 = some n ∧ Legitimate {1, 2, 3} 1 n ∧
    successionRun.node? 15 1 = some n' ∧ n.role.kind = .leader ∧ n'.role.kind = .leader ∧ n'.term = n.term ∧
    n.log.lastTerm = n.term ∧ n.log.entries.length = 1 ∧ n'.log.entries = [] ∧ n.log.Lengthens n.term n'.log := by
  obtain ⟨n, hn, hl, hterm, hheld⟩ : ∃ n, successionRun.node? 9 1 = some n ∧ n.role.kind = .leader ∧
      n.term = 1 ∧ n.log.entries.length = 1 := exists_of_any (by decide_cbv)
  obtain ⟨n', hn', hl', hterm', hgone⟩ : ∃ n', successionRun.node? 15 1 = some n' ∧ n'.role.kind = .leader ∧
      n'.term = 1 ∧ n'.log.entries = [] := exists_of_any (by decide_cbv)
  have hsame : n'.term = n.term := hterm'.trans hterm.symm
  obtain ⟨hlegitimate, -, hlengthens⟩ := successionRun.roles_legitimate hn
  exact ⟨n, n', hn, hlegitimate, hn', hl, hl', hsame, hlegitimate.current hl, hheld, hgone,
    hlengthens 15 n' (by decide) hn' hl hl' hsame⟩

end Protocol

end RaftNode
