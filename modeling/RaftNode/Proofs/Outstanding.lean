import Mathlib
import RaftNode.Proofs.Positions
/-!
# Unanswered requests

A leader notes when it sent a request to a peer, and sends no other until an answer comes or the request is presumed
lost. The note is found again by peer and term alone. So it can be struck out by news of another message: a vote request
of the same term that is reported lost after the election was won. Short of that, no peer ever owes two answers.
-/
namespace RaftNode

open RaftNode.Action (wp)

/-- It brings entries or a snapshot. -/
def Request.replicates : Request → Bool
  | .vote _ => false
  | .append _ | .install _ => true

/-- A message that has no answer yet. -/
structure Letter where
  sentAt : Nat
  message : Outbound

namespace Letter

def peer (l : Letter) : NodeId := l.message.target

def term (l : Letter) : Term := l.message.request.term

/-- Entries or a snapshot for a peer in a leader's term. -/
structure Serves (l : Letter) (peer : NodeId) (term : Term) : Prop where
  replicates : l.message.request.replicates = true
  peer : l.peer = peer
  term : l.term = term

end Letter

/-- Which note an answer strikes out, if the node leads: that for this peer, if it leads in this term. -/
def Response.strikes : Response → Option (NodeId × Term)
  | .vote _ _ _ => none
  | .append peer sent _ => some (peer, sent.term)
  | .install peer sentTerm _ _ => some (peer, sentTerm)
  | .unreachable peer sentTerm => some (peer, sentTerm)

/-- A peer and a term of which it is said that two letters never overlap, but for these. -/
abbrev Exceptions := NodeId → Term → Prop

namespace Node

variable {σ μ : Type} {n n' : Node σ μ} {w now : Nat} {except : Exceptions} {letters : List Letter}

/-- What a node knows of the letters that are out. A request is presumed lost after `w`. -/
structure Marks (w now : Nat) (except : Exceptions) (letters : List Letter) (n : Node σ μ) : Prop where
  window : n.config.electionMax = w
  past : ∀ l ∈ letters, l.sentAt ≤ now
  terms : ∀ l ∈ letters, l.term ≤ n.term
  /-- Who stands for election has sent nothing in the new term but requests for a vote. -/
  unled : n.role.kind = .candidate → ∀ l ∈ letters, ∀ peer, ¬ l.Serves peer n.term
  /-- A leader has noted every letter that is not presumed lost. -/
  marked : ∀ r, n.role = .leader r → ∀ l ∈ letters, ∀ peer, l.Serves peer n.term → ¬ except peer n.term →
    now < l.sentAt + w → ∃ p since, r.find? peer = some p ∧ p.inFlightSince = some since ∧ l.sentAt ≤ since
  spaced : letters.Pairwise fun a b => ∀ peer term, a.Serves peer term → b.Serves peer term →
    ¬ except peer term → a.sentAt + w ≤ b.sentAt

/-- Every letter to a peer is answered or presumed lost. -/
def Clear (w now : Nat) (except : Exceptions) (letters : List Letter) (peer : NodeId) (term : Term) : Prop :=
  ∀ l ∈ letters, l.Serves peer term → ¬ except peer term → l.sentAt + w ≤ now

/-- The node has sent these messages. -/
def post (now : Nat) (letters : List Letter) (messages : List Outbound) : List Letter :=
  letters ++ messages.map (Letter.mk now)

theorem post_append (now : Nat) (letters : List Letter) (a b : List Outbound) :
    post now (post now letters a) b = post now letters (a ++ b) := by
  simp [post]

theorem Marks.silent (h : n.Marks w now except letters) : n.Marks w now except (post now letters []) := by
  rw [post, List.map_nil, List.append_nil]
  exact h

/-! ## What leaves the notes alone -/

/-- As far as letters go the node is the same. -/
structure Alike (n n' : Node σ μ) : Prop where
  term : n'.term = n.term
  role : n'.role = n.role
  config : n'.config = n.config

theorem Alike.refl (n : Node σ μ) : Alike n n := ⟨rfl, rfl, rfl⟩

theorem Alike.trans {n'' : Node σ μ} (h : Alike n n') (h' : Alike n' n'') : Alike n n'' :=
  ⟨h'.term.trans h.term, h'.role.trans h.role, h'.config.trans h.config⟩

theorem Marks.alike (h : n.Marks w now except letters) (ha : Alike n n') : n'.Marks w now except letters := by
  constructor
  · rw [ha.config]
    exact h.window
  · exact h.past
  · rw [ha.term]
    exact h.terms
  · rw [ha.role, ha.term]
    exact h.unled
  · rw [ha.role, ha.term]
    exact h.marked
  · exact h.spaced

/-- Time goes by. -/
theorem Marks.later {now' : Nat} (h : n.Marks w now except letters) (hle : now ≤ now') :
    n.Marks w now' except letters :=
  ⟨h.window, fun l hl => (h.past l hl).trans hle, h.terms, h.unled,
    fun r hr l hl peer hs he hyoung => h.marked r hr l hl peer hs he (hle.trans_lt hyoung), h.spaced⟩

/-- Letters are answered, or more is left open. -/
theorem Marks.fewer {letters' : List Letter} {except' : Exceptions} (h : n.Marks w now except letters)
    (hsub : letters'.Sublist letters) (hexcept : ∀ peer term, except peer term → except' peer term) :
    n.Marks w now except' letters' := by
  constructor
  · exact h.window
  · exact fun l hl => h.past l (hsub.mem hl)
  · exact fun l hl => h.terms l (hsub.mem hl)
  · exact fun hc l hl => h.unled hc l (hsub.mem hl)
  · exact fun r hr l hl peer hs he => h.marked r hr l (hsub.mem hl) peer hs fun h' => he (hexcept peer _ h')
  · exact (h.spaced.sublist hsub).imp fun hab peer term ha hb he =>
      hab peer term ha hb fun h' => he (hexcept peer term h')

/-- The node turns to another term, or to following. -/
theorem Marks.turns {term : Term} [LogStore σ] (h : n.Marks w now except letters) (ht : Turns n term n') :
    n'.Marks w now except letters := by
  have hrole := ht.role
  constructor
  · rw [ht.config]
    exact h.window
  · exact h.past
  · rw [ht.term]
    exact fun l hl => (h.terms l hl).trans (le_max_left _ _)
  · intro hc
    rw [hrole] at hc
    cases hc
  · intro r hr
    rw [hr] at hrole
    cases hrole
  · exact h.spaced

theorem isLeader_of_role {r : Replication} (hrole : n.role = .leader r) : n.isLeader = true := by
  rw [isLeader, hrole]
  rfl

/-! ## Sending -/

/-- A letter to which the answer is still awaited stands in the way of the next. -/
theorem Marks.clear_of_idle {r : Replication} {peer : NodeId} {p : Progress}
    (h : n.Marks w now except letters) (hrole : n.role = .leader r) (hp : r.find? peer = some p)
    (hidle : p.isWaiting now w = false) : Clear w now except letters peer n.term := by
  intro l hl hserves hexcept
  by_contra hyoung
  obtain ⟨p', since, hp', hsince, hle⟩ := h.marked r hrole l hl peer hserves hexcept (by omega)
  rw [hp] at hp'
  obtain rfl := Option.some.inj hp'
  have hpast := h.past l hl
  simp only [Progress.isWaiting, hsince, decide_eq_false_iff_not] at hidle
  omega

/-- A peer whose letters are all answered or presumed lost may be noted anew. -/
theorem Marks.update {r : Replication} {peer : NodeId} (h : n.Marks w now except letters)
    (hrole : n.role = .leader r) (hclear : Clear w now except letters peer n.term)
    (f : Progress → Progress) :
    Marks w now except letters { n with role := .leader (r.update peer f) } := by
  refine ⟨h.window, h.past, h.terms, by rintro ⟨⟩, ?_, h.spaced⟩
  rintro _ ⟨⟩ l hl other hserves hexcept hyoung
  by_cases hother : other = peer
  · subst hother
    have := hclear l hl hserves hexcept
    omega
  · rw [Replication.find?_update, if_neg hother]
    exact h.marked r hrole l hl other hserves hexcept hyoung

/-- The leader sends a letter to a peer that owes no answer, and notes it. -/
theorem Marks.send {r : Replication} {peer : NodeId} {p : Progress} {q : Request}
    (h : n.Marks w now except letters) (hrole : n.role = .leader r) (hp : r.find? peer = some p)
    (hidle : p.isWaiting now w = false) (hterm : q.term = n.term) :
    Marks w now except (post now letters [⟨peer, q⟩])
      { n with role := .leader (r.update peer fun p => { p with inFlightSince := some now }) } := by
  -- the new letter is noted, and the letters before it are all overdue
  have hclear := h.clear_of_idle hrole hp hidle
  have hupdated := h.update hrole hclear fun p => { p with inFlightSince := some now }
  constructor
  · exact h.window
  · intro l hl
    rcases List.mem_append.mp hl with hl | hl
    · exact h.past l hl
    · rw [List.mem_singleton.mp hl]
  · intro l hl
    rcases List.mem_append.mp hl with hl | hl
    · exact h.terms l hl
    · rw [List.mem_singleton.mp hl]
      exact hterm.le
  · rintro ⟨⟩
  · rintro _ ⟨⟩ l hl other hserves hexcept hyoung
    rcases List.mem_append.mp hl with hl | hl
    · exact hupdated.marked _ rfl l hl other hserves hexcept hyoung
    · obtain rfl := List.mem_singleton.mp hl
      obtain rfl : peer = other := hserves.peer
      rw [Replication.find?_update, if_pos rfl, hp]
      exact ⟨_, now, rfl, rfl, le_rfl⟩
  · refine List.pairwise_append.mpr ⟨h.spaced, List.pairwise_singleton _ _, ?_⟩
    intro a ha b hb other term hserves hserves' hexcept
    obtain rfl := List.mem_singleton.mp hb
    obtain rfl : peer = other := hserves'.peer
    obtain rfl : q.term = term := hserves'.term
    rw [hterm] at hserves hexcept
    exact hclear a ha hserves hexcept

variable [LogStore σ]

theorem Marks.wp_requestFor {m : Moment} (h : n.Marks w m.now except letters) (peer : NodeId) :
    wp (requestFor m peer) (fun o n' => n'.Marks w m.now except (post m.now letters o.toList))
      (fun _ _ => True) n := by
  rw [requestFor, Action.wp_bind, Action.wp_get]
  split
  · rename_i r hrole
    rw [h.window]
    split
    · trivial
    · exact h.silent
    · rename_i message r' hnext
      obtain ⟨p, q, hp, hidle, hq, rfl, rfl⟩ := Replication.nextRequest_eq_some hnext
      exact h.send hrole hp hidle (Replication.requestAt_term hq)
  · exact h.silent

theorem Marks.wp_requestTo {m : Moment} (h : n.Marks w m.now except letters) (peer : NodeId) :
    wp (do pure (← requestFor m peer).toList)
      (fun o n' => n'.Marks w m.now except (post m.now letters o)) (fun _ _ => True) n :=
  Action.wp_seq (h.wp_requestFor peer) fun _ _ h' => h'

theorem Marks.wp_requestsFor {m : Moment} (names : List NodeId) (h : n.Marks w m.now except letters) :
    wp (requestsFor m names) (fun o n' => n'.Marks w m.now except (post m.now letters o))
      (fun _ _ => True) n := by
  induction names generalizing n letters with
  | nil => exact h.silent
  | cons peer rest ih =>
    rw [requestsFor]
    refine Action.wp_seq (h.wp_requestFor peer) fun o n₁ h₁ => ?_
    refine Action.wp_seq (ih h₁) fun os n₂ h₂ => ?_
    rw [post_append] at h₂
    exact h₂

theorem Marks.wp_heartbeat {m : Moment} (h : n.Marks w m.now except letters) :
    wp (heartbeat m) (fun o n' => n'.Marks w m.now except (post m.now letters o)) (fun _ _ => True) n := by
  rw [heartbeat, Action.wp_bind, Action.wp_get]
  split
  · rename_i r hrole
    rw [Action.wp_bind, Action.wp_set, replicate, Action.wp_bind, Action.wp_get]
    refine Marks.wp_requestsFor n.peers ⟨h.window, h.past, h.terms, by rintro ⟨⟩, ?_, h.spaced⟩
    rintro _ ⟨⟩
    exact h.marked r hrole
  · exact h.silent

/-! ## What writes no letter -/

/-- The action changes neither term nor role. -/
def Quiet {α : Type} (x : NodeAction σ μ α) : Prop :=
  ∀ n, wp x (fun _ n' => Alike n n') (fun _ _ => True) n

omit [LogStore σ] in
theorem quiet_onLog {α : Type} (op : LogAction σ α) : Quiet (onLog op : NodeAction σ μ α) := by
  intro n
  rw [wp_onLog]
  exact Action.wp_mono (Action.wp_trivial op n.log) (fun _ _ _ => ⟨rfl, rfl, rfl⟩) fun _ _ _ => trivial

omit [LogStore σ] in
theorem quiet_advanceCommit : Quiet (advanceCommit : NodeAction σ μ Unit) := by
  intro n
  refine Action.wp_mono (wp_advanceCommit_memory n) ?_ fun _ _ _ => trivial
  rintro - _ ⟨c, rfl⟩
  exact ⟨rfl, rfl, rfl⟩

theorem quiet_decideVote (m : Moment) (q : VoteRequest) :
    Quiet (decideVote m q : NodeAction σ μ VoteReply) := by
  intro n
  rw [decideVote, Action.wp_bind, Action.wp_get, Action.wp_ite]
  split
  · simp only [Action.wp_ite]
    split
    · rw [Action.wp_bind, adopt, Action.wp_bind, Action.wp_modify, wp_onLog]
      refine Action.wp_mono (Log.wp_saveHard_memory _ _) ?_ fun _ _ _ => trivial
      rintro - _ ⟨s, rfl⟩
      rw [Action.wp_bind, resetDeadline, Action.wp_modify]
      exact ⟨rfl, rfl, rfl⟩
    · rw [Action.wp_bind, resetDeadline, Action.wp_modify]
      exact ⟨rfl, rfl, rfl⟩
  · exact .refl n

section

variable [StateMachine μ]

omit [LogStore σ] in
theorem Applies.alike {as : List Applied} (h : Applies n as n') : Alike n n' := by
  induction h with
  | done n => exact .refl n
  | skip _ _ _ ih => exact ⟨ih.term, ih.role, ih.config⟩
  | apply _ _ _ _ ih => exact ⟨ih.term, ih.role, ih.config⟩

theorem Snaps.alike (h : Snaps n n') : Alike n n' := by
  cases h with
  | none => exact .refl n
  | snap _ _ _ => exact ⟨rfl, rfl, rfl⟩

theorem quiet_takeSnapshot : Quiet (takeSnapshot : NodeAction σ μ (Option SnapshotPoint)) := fun n =>
  Action.wp_mono (wp_takeSnapshot n) (fun _ _ h => h.alike) fun _ _ _ => trivial

theorem quiet_applyCommitted : Quiet (applyCommitted : NodeAction σ μ (List Applied)) := by
  intro n
  refine Action.wp_mono (wp_applyCommitted n) ?_ fun _ _ _ => trivial
  rintro as n' ⟨n₁, happlies, hsnaps⟩
  exact happlies.alike.trans hsnaps.alike

theorem quiet_propose (command : Bytes) : Quiet (propose command : NodeAction σ μ Index) := by
  intro n
  refine Action.wp_mono (wp_propose command n) ?_ fun _ _ _ => trivial
  intro i n' h
  obtain ⟨s, c, rfl⟩ := h.node
  exact ⟨rfl, rfl, rfl⟩

end

/-! ## Elections -/

/-- A new leader has sent nothing in its term but requests for a vote. -/
theorem Marks.wp_becomeLeader {m : Moment} (h : n.Marks w m.now except letters)
    (hrole : n.role.kind = .candidate) :
    wp (becomeLeader m) (fun o n' => n'.Marks w m.now except (post m.now letters o)) (fun _ _ => True) n := by
  have hunled := h.unled hrole
  rw [becomeLeader, Action.wp_bind, Action.wp_get, Action.wp_bind]
  refine Action.wp_mono (Replication.wp_start_same n.peers n.log.lastIndex m.now) ?_ fun _ _ _ => trivial
  rintro r n rfl
  have hleads : Marks w m.now except letters { n with role := .leader r } := by
    refine ⟨h.window, h.past, h.terms, by rintro ⟨⟩, ?_, h.spaced⟩
    rintro _ ⟨⟩ l hl peer hserves
    exact absurd hserves (hunled l hl peer)
  rw [Action.wp_bind, wp_setRole (by rw [hrole]; rfl)]
  refine Action.wp_seq (quiet_onLog _ _) fun _ n₁ h₁ => ?_
  refine Action.wp_seq (quiet_advanceCommit n₁) fun _ n₂ h₂ => ?_
  exact ((hleads.alike h₁).alike h₂).wp_requestsFor n₂.peers

omit [LogStore σ] in
/-- A candidate asks for votes; these letters are none that a leader has to note. -/
theorem Marks.ask (h : n.Marks w now except letters) (hrole : n.role.kind = .candidate) (q : VoteRequest)
    (hq : q.term = n.term) (names : List NodeId) :
    n.Marks w now except (post now letters (names.map fun peer => ⟨peer, .vote q⟩)) := by
  have hnew : ∀ l ∈ (names.map fun peer => (⟨peer, .vote q⟩ : Outbound)).map (Letter.mk now),
      l.sentAt = now ∧ l.term = n.term ∧ ∀ peer term, ¬ l.Serves peer term := by
    intro l hl
    obtain ⟨message, hmessage, rfl⟩ := List.mem_map.mp hl
    obtain ⟨peer, -, rfl⟩ := List.mem_map.mp hmessage
    refine ⟨rfl, hq, fun other term hserves => ?_⟩
    cases hserves.replicates
  constructor
  · exact h.window
  · intro l hl
    rcases List.mem_append.mp hl with hl | hl
    · exact h.past l hl
    · exact (hnew l hl).1.le
  · intro l hl
    rcases List.mem_append.mp hl with hl | hl
    · exact h.terms l hl
    · exact (hnew l hl).2.1.le
  · intro hc l hl peer
    rcases List.mem_append.mp hl with hl | hl
    · exact h.unled hc l hl peer
    · exact (hnew l hl).2.2 peer _
  · intro r hr
    rw [hr] at hrole
    cases hrole
  · refine List.pairwise_append.mpr ⟨h.spaced, ?_, ?_⟩
    · exact List.pairwise_of_forall_mem_list fun a ha _ _ peer term hserves =>
        absurd hserves ((hnew a ha).2.2 peer term)
    · exact fun a _ b hb peer term _ hserves => absurd hserves ((hnew b hb).2.2 peer term)

theorem Marks.wp_startElection {m : Moment} (h : n.Marks w m.now except letters) :
    wp (startElection m) (fun o n' => n'.Marks w m.now except (post m.now letters o)) (fun _ _ => True)
      n := by
  have hstands : ∀ s, (n.standing m s).Marks w m.now except letters := by
    intro s
    refine ⟨h.window, h.past, fun l hl => (h.terms l hl).trans (Nat.le_succ _), ?_, by rintro r ⟨⟩, h.spaced⟩
    intro _ l hl peer hserves
    have hterm : l.term = n.term + 1 := hserves.term
    have := h.terms l hl
    lia
  refine wp_startElection_standing ?_ (fun s => ?_) (fun _ s => ?_) fun _ _ _ => trivial
  · exact fun _ => h.silent
  · exact (hstands s).wp_becomeLeader rfl
  · exact (hstands s).ask rfl _ rfl n.peers

theorem Marks.wp_stepDown {m : Moment} (h : n.Marks w m.now except letters) (term : Term) :
    wp (do becomeFollower m term none; pure ([] : List Outbound))
      (fun o n' => n'.Marks w m.now except (post m.now letters o)) (fun _ _ => True) n := by
  rw [Action.wp_bind]
  exact Action.wp_mono (wp_becomeFollower_turns m term none n) (fun _ _ ht => (h.turns ht).silent)
    fun _ _ _ => trivial

theorem Marks.wp_onVoteReply {m : Moment} (h : n.Marks w m.now except letters) (peer : NodeId)
    (sentTerm : Term) (reply : VoteReply) :
    wp (onVoteReply m peer sentTerm reply)
      (fun o n' => n'.Marks w m.now except (post m.now letters o)) (fun _ _ => True) n := by
  rw [onVoteReply, Action.wp_bind, Action.wp_get, Action.wp_ite]
  split
  · exact h.wp_stepDown reply.term
  rw [Action.wp_ite]
  split
  · exact h.silent
  split
  · rename_i votes hrole
    dsimp only
    generalize (if votes.contains peer then votes else votes ++ [peer]) = votes'
    have hcounts : Marks w m.now except letters { n with role := .candidate votes' } :=
      ⟨h.window, h.past, h.terms, fun _ => h.unled (by rw [hrole]; rfl), by rintro r ⟨⟩, h.spaced⟩
    rw [Action.wp_bind, Action.wp_set, Action.wp_ite]
    split
    · exact hcounts.wp_becomeLeader rfl
    · exact hcounts.silent
  · exact h.silent

/-! ## Answers -/

omit [LogStore σ] in
theorem Marks.touched {r r' : Replication} {peer : NodeId} (h : n.Marks w now except letters)
    (hrole : n.role = .leader r) (hclear : Clear w now except letters peer n.term) (ht : r.Touches peer r') :
    Marks w now except letters { n with role := .leader r' } := by
  cases ht with
  | same =>
    rw [← hrole]
    exact h
  | update f => exact h.update hrole hclear f

theorem Marks.wp_onAppendReply {m : Moment} (h : n.Marks w m.now except letters) {peer : NodeId} {sent : AppendSent}
    (hclear : n.isLeader = true → sent.term = n.term → Clear w m.now except letters peer n.term)
    (reply : AppendReply) :
    wp (onAppendReply m peer sent reply)
      (fun o n' => n'.Marks w m.now except (post m.now letters o)) (fun _ _ => True) n := by
  rw [onAppendReply, Action.wp_bind, Action.wp_get, Action.wp_ite]
  split
  · exact h.wp_stepDown reply.term
  rw [Action.wp_ite]
  split
  · exact h.silent
  rename_i hterm
  split
  · rename_i r hrole
    have hfree := hclear (isLeader_of_role hrole) (not_not.mp hterm)
    rw [Action.wp_ite]
    split
    · rw [Action.wp_bind]
      refine Action.wp_mono (Replication.wp_onAppendSuccess_touches peer sent m.now) ?_ fun _ _ _ => trivial
      rintro r' n ⟨rfl, htouches⟩
      have h' := h.touched hrole hfree htouches
      rw [Action.wp_bind, Action.wp_set]
      refine Action.wp_seq (quiet_advanceCommit _) fun _ n₁ h₁ => ?_
      rw [Action.wp_ite]
      split
      · exact (h'.alike h₁).wp_requestTo peer
      · exact (h'.alike h₁).silent
    · rw [Action.wp_bind]
      refine Action.wp_mono (Replication.wp_onAppendReject_touches peer sent reply.matchHint m.now) ?_
        fun _ _ _ => trivial
      rintro r' n ⟨rfl, htouches⟩
      exact (h.touched hrole hfree htouches).silent
  · exact h.silent

theorem Marks.wp_onInstallReply {m : Moment} (h : n.Marks w m.now except letters) {peer : NodeId} {sentTerm : Term}
    (hclear : n.isLeader = true → sentTerm = n.term → Clear w m.now except letters peer n.term) (index : Index)
    (reply : InstallReply) :
    wp (onInstallReply m peer sentTerm index reply)
      (fun o n' => n'.Marks w m.now except (post m.now letters o)) (fun _ _ => True) n := by
  rw [onInstallReply, Action.wp_bind, Action.wp_get, Action.wp_ite]
  split
  · exact h.wp_stepDown reply.term
  rw [Action.wp_ite]
  split
  · exact h.silent
  rename_i hterm
  split
  · rename_i r hrole
    rw [Replication.onInstalled, Action.wp_bind]
    refine Action.wp_mono (Replication.wp_confirm_touches peer index m.now) ?_ fun _ _ _ => trivial
    rintro r' n ⟨rfl, htouches⟩
    have h' := h.touched hrole (hclear (isLeader_of_role hrole) (not_not.mp hterm)) htouches
    rw [Action.wp_bind, Action.wp_set]
    exact Action.wp_seq (quiet_advanceCommit _) fun _ n₁ h₁ => (h'.alike h₁).wp_requestTo peer
  · exact h.silent

omit [LogStore σ] in
theorem Marks.wp_onUnreachable {m : Moment} (h : n.Marks w m.now except letters) {peer : NodeId} {sentTerm : Term}
    (hclear : n.isLeader = true → sentTerm = n.term → Clear w m.now except letters peer n.term) :
    wp (onUnreachable peer sentTerm) (fun _ n' => n'.Marks w m.now except letters) (fun _ _ => True) n := by
  rw [onUnreachable, Action.wp_bind, Action.wp_get, Action.wp_ite]
  split
  · rename_i hterm
    split
    · rename_i r hrole
      exact h.update hrole (hclear (isLeader_of_role hrole) hterm) _
    · exact h
  · exact h

/-- Whatever a leader is told of a letter, it may strike out its note if nothing else is out to the peer. -/
theorem Marks.wp_onResponse {m : Moment} (h : n.Marks w m.now except letters) {r : Response}
    (hclear : ∀ peer, r.strikes = some (peer, n.term) → n.isLeader = true → Clear w m.now except letters peer n.term) :
    wp (onResponse m r) (fun o n' => n'.Marks w m.now except (post m.now letters o)) (fun _ _ => True) n := by
  cases r with
  | vote peer sentTerm reply => exact h.wp_onVoteReply peer sentTerm reply
  | append peer sent reply =>
    refine h.wp_onAppendReply (fun hleads hterm => hclear peer ?_ hleads) reply
    rw [← hterm]
    rfl
  | install peer sentTerm index reply =>
    refine h.wp_onInstallReply (fun hleads hterm => hclear peer ?_ hleads) index reply
    rw [← hterm]
    rfl
  | unreachable peer sentTerm =>
    rw [onResponse, Action.wp_bind]
    refine Action.wp_imp (h.wp_onUnreachable fun hleads hterm => hclear peer ?_ hleads) fun _ _ h' => h'.silent
    rw [← hterm]
    rfl

/-! ## Requests and commands -/

variable [StateMachine μ]

omit [StateMachine μ] in
theorem Marks.wp_onVoteRequest (h : n.Marks w now except letters) (m : Moment) (q : VoteRequest) :
    wp (onVoteRequest m q) (fun _ n' => n'.Marks w now except letters) (fun _ _ => True) n := by
  rw [onVoteRequest_eq, Action.wp_bind, Action.wp_get, Action.wp_ite]
  split
  · exact h
  rw [Action.wp_bind, Action.wp_get, Action.wp_ite]
  split
  · rw [Action.wp_bind]
    refine Action.wp_mono (wp_becomeFollower_turns m q.term none n) (fun _ n₁ ht => ?_) fun _ _ _ => trivial
    exact Action.wp_imp (quiet_decideVote m q n₁) fun _ _ ha => (h.turns ht).alike ha
  · exact Action.wp_imp (quiet_decideVote m q n) fun _ _ ha => h.alike ha

omit [StateMachine μ] in
theorem Marks.wp_onAppendRequest (h : n.Marks w now except letters) (m : Moment) (q : AppendRequest) :
    wp (onAppendRequest m q) (fun _ n' => n'.Marks w now except letters) (fun _ _ => True) n := by
  rw [onAppendRequest, Action.wp_bind, Action.wp_get, Action.wp_ite]
  split
  · exact h
  rw [Action.wp_bind]
  refine Action.wp_mono (wp_follow_turns m q.term q.leader n) (fun _ n₁ ht => ?_) fun _ _ _ => trivial
  rw [Action.wp_bind, Action.wp_get]
  split
  · exact (h.turns ht).alike ⟨rfl, rfl, rfl⟩
  · exact (h.turns ht).alike ⟨rfl, rfl, rfl⟩
  · trivial

theorem Marks.wp_onInstallRequest (h : n.Marks w now except letters) (m : Moment) (q : InstallRequest) :
    wp (onInstallRequest m q) (fun _ n' => n'.Marks w now except letters) (fun _ _ => True) n := by
  rw [onInstallRequest, Action.wp_bind, Action.wp_get, Action.wp_ite]
  split
  · exact h
  rw [Action.wp_bind]
  refine Action.wp_mono (wp_follow_turns m q.term q.leader n) (fun _ n₁ ht => ?_) fun _ _ _ => trivial
  refine Action.wp_seq (quiet_onLog _ _) fun taken n₂ ha => ?_
  have h₂ := (h.turns ht).alike ha
  simp only [Action.wp_ite, Action.wp_bind, Action.wp_get, Action.wp_pure]
  split
  · split
    · trivial
    · exact h₂.alike ⟨rfl, rfl, rfl⟩
  · exact h₂

theorem Marks.wp_onRequest (h : n.Marks w now except letters) (m : Moment) (q : Request) :
    wp (onRequest m q) (fun _ n' => n'.Marks w now except letters) (fun _ _ => True) n := by
  cases q with
  | vote q =>
    rw [onRequest, Action.wp_bind]
    exact h.wp_onVoteRequest m q
  | append q =>
    rw [onRequest, Action.wp_bind]
    exact h.wp_onAppendRequest m q
  | install q =>
    rw [onRequest, Action.wp_bind]
    exact h.wp_onInstallRequest m q

theorem Marks.wp_command {m : Moment} (h : n.Marks w m.now except letters) (c : Protocol.Command) :
    wp (c.run m) (fun o n' => n'.Marks w m.now except (post m.now letters o)) (fun _ _ => True) n := by
  cases c with
  | stand => exact h.wp_startElection
  | heartbeat => exact h.wp_heartbeat
  | replicate =>
    rw [Protocol.Command.run, replicate, Action.wp_bind, Action.wp_get]
    exact h.wp_requestsFor n.peers
  | propose command =>
    rw [Protocol.Command.run, Action.wp_map]
    exact Action.wp_imp (quiet_propose command n) fun _ _ ha => (h.alike ha).silent
  | apply =>
    rw [Protocol.Command.run, Action.wp_map]
    exact Action.wp_imp (quiet_applyCommitted n) fun _ _ ha => (h.alike ha).silent
  | snapshot =>
    rw [Protocol.Command.run, Action.wp_map]
    exact Action.wp_imp (quiet_takeSnapshot n) fun _ _ ha => (h.alike ha).silent

/-! ## Errors after which a node goes on -/

theorem wp_onRequest_halts (m : Moment) (q : Request) (n : Node σ μ) :
    wp (onRequest m q) (fun _ _ => True) (fun f _ => f.halts = true) n := by
  cases q with
  | vote q =>
    have hplain : Leads False n (onVoteRequest m q) n := isPlain_onVoteRequest m q n
    rw [onRequest, Action.wp_bind]
    exact Action.wp_mono hplain (fun _ _ _ => trivial) fun _ _ h => h.halts
  | append q =>
    rw [onRequest, Action.wp_bind]
    refine Action.wp_mono (wp_onAppendRequest m q n) (fun _ _ _ => trivial) ?_
    rintro f n' (h | ⟨hf, -⟩)
    · exact h.halts
    · exact hf
  | install q =>
    rw [onRequest, Action.wp_bind]
    refine Action.wp_mono (wp_onInstallRequest m q n) (fun _ _ _ => trivial) ?_
    rintro f n' (h | ⟨hf, -⟩)
    · exact h.halts
    · exact hf

theorem wp_command_halts (m : Moment) (c : Protocol.Command) (n : Node σ μ) :
    wp (c.run m) (fun _ _ => True) (fun f n' => f.halts = true ∨ n' = n) n := by
  have hplain : ∀ (free : Prop) {x : NodeAction σ μ (List Outbound)}, Leads free n x n →
      wp x (fun _ _ => True) (fun f n' => f.halts = true ∨ n' = n) n := fun _ _ hx =>
    Action.wp_mono hx (fun _ _ _ => trivial) fun _ _ h => Or.inl h.halts
  cases c with
  | stand => exact hplain _ (leads_startElection m n)
  | heartbeat => exact hplain False (isPlain_heartbeat m n)
  | replicate => exact hplain False (isPlain_replicate m n)
  | propose command =>
    rw [Protocol.Command.run, Action.wp_map]
    refine Action.wp_mono (wp_propose command n) (fun _ _ _ => trivial) ?_
    rintro f n' (h | ⟨rfl, -⟩)
    · exact Or.inl h.halts
    · exact Or.inr rfl
  | apply =>
    rw [Protocol.Command.run, Action.wp_map]
    refine Action.wp_mono (wp_applyCommitted n) (fun _ _ _ => trivial) ?_
    rintro f n' ⟨-, -, -, hf, -⟩
    exact Or.inl hf
  | snapshot =>
    rw [Protocol.Command.run, Action.wp_map]
    exact Action.wp_mono (wp_takeSnapshot n) (fun _ _ _ => trivial) fun _ _ h => Or.inl h.1

/-- An event that is refused leaves the node as it was, or halts it. -/
theorem Occasion.wp_refused (m : Moment) (o : Occasion) (n : Node σ μ) :
    wp (o.run m) (fun _ _ => True) (fun f n' => f.halts = true ∨ n' = n) n := by
  cases o with
  | act c =>
    rw [Occasion.run, Action.wp_map]
    exact wp_command_halts m c n
  | request q =>
    rw [Occasion.run, Action.wp_map]
    exact Action.wp_mono (wp_onRequest_halts m q n) (fun _ _ _ => trivial) fun _ _ => Or.inl
  | response r =>
    rw [Occasion.run, Action.wp_map]
    exact Action.wp_mono (leads_onResponse m r n) (fun _ _ _ => trivial) fun _ _ h => Or.inl h.halts

end Node

/-! ## A run -/

/-- A node at work. -/
structure Desk (σ μ : Type) where
  node : Node σ μ
  /-- When it last did something. -/
  clock : Nat
  /-- What it has sent and has had no news of, in the order in which it was sent. -/
  unanswered : List Letter
  /-- The peers and terms of vote requests it was told were lost when it led already. -/
  spoiled : List (NodeId × Term)

namespace Letter

/-- What the node can be told of a letter: the answer to it, or that it was lost. -/
inductive News (l : Letter) : Response → Prop
  | answer {reply : Reply} {r : Response} (hr : l.message.response? reply = some r) : News l r
  | lost : News l l.message.lost

/-- The note that news of a letter strikes out wrongly. -/
def spoils {σ μ : Type} (l : Letter) (n : Node σ μ) : Response → List (NodeId × Term)
  | .unreachable peer sentTerm =>
    if !l.message.request.replicates && n.isLeader && sentTerm = n.term then [(peer, sentTerm)] else []
  | _ => []

/-- A note is struck out by news of a letter that has to be noted, but for the loss of a request for a vote. -/
theorem News.serves {σ μ : Type} {l : Letter} {r : Response} {n : Node σ μ} {peer : NodeId} (h : l.News r)
    (hstrikes : r.strikes = some (peer, n.term)) (hleads : n.isLeader = true) :
    l.Serves peer n.term ∨ (peer, n.term) ∈ l.spoils n r := by
  obtain ⟨sentAt, ⟨target, q⟩⟩ := l
  cases h with
  | @answer reply r hr =>
    left
    generalize n.term = term at hstrikes
    cases reply <;> cases q <;> cases hr <;> cases hstrikes <;> exact ⟨rfl, rfl, rfl⟩
  | lost =>
    obtain ⟨rfl, hterm⟩ := Prod.mk.inj (Option.some.inj hstrikes)
    by_cases hreplicates : q.replicates = true
    · exact Or.inl ⟨hreplicates, rfl, hterm⟩
    · right
      simp only [Bool.not_eq_true] at hreplicates
      simp only [spoils, Outbound.lost, hreplicates, hleads, hterm, Bool.not_false, Bool.and_self, decide_true,
        if_true, List.mem_singleton]

end Letter

namespace Desk

variable {σ μ : Type} [LogStore σ] [StateMachine μ]

/-- One event in the life of a node that has news of each of its letters at most once, and of none that was presumed
lost when it last did something. -/
inductive Step (d : Desk σ μ) : Desk σ μ → Prop
  | act (m : Moment) {c : Protocol.Command} {out : List Outbound} {n : Node σ μ} (htime : d.clock ≤ m.now)
      (hrun : c.run m d.node = .ok out n) :
      Step d { d with node := n, clock := m.now, unanswered := Node.post m.now d.unanswered out }
  | request (m : Moment) {q : Request} {reply : Reply} {n : Node σ μ} (htime : d.clock ≤ m.now)
      (hrun : Node.onRequest m q d.node = .ok reply n) : Step d { d with node := n, clock := m.now }
  | news (m : Moment) {before after : List Letter} {l : Letter} {r : Response} {out : List Outbound} {n : Node σ μ}
      (hl : d.unanswered = before ++ l :: after) (hr : l.News r) (htime : d.clock ≤ m.now)
      (hyoung : d.clock < l.sentAt + d.node.config.electionMax)
      (hrun : Node.onResponse m r d.node = .ok out n) :
      Step d {
        node := n, clock := m.now, unanswered := Node.post m.now (before ++ after) out
        spoiled := l.spoils d.node r ++ d.spoiled }
  | refuse (m : Moment) {o : Node.Occasion} {f : Fault NodeError} {n : Node σ μ} (htime : d.clock ≤ m.now)
      (hf : f.halts = false) (hrun : o.run m d.node = .error f n) : Step d { d with node := n, clock := m.now }

/-- A node that starts out as a follower and has sent nothing yet. -/
def opened (n : Node σ μ) (now : Nat) : Desk σ μ := ⟨n, now, [], []⟩

inductive Run (n : Node σ μ) : Desk σ μ → Prop
  | start (now : Nat) : Run n (opened n now)
  | step {d d' : Desk σ μ} (h : Run n d) (hstep : Step d d') : Run n d'

/-- The node keeps its marks, but where a note was struck out wrongly. -/
def Sound (w : Nat) (d : Desk σ μ) : Prop :=
  d.node.Marks w d.clock (fun peer term => (peer, term) ∈ d.spoiled) d.unanswered

omit [LogStore σ] [StateMachine μ] in
theorem Sound.opened {n : Node σ μ} (hrole : n.role.kind = .follower) (now : Nat) :
    (opened n now).Sound n.config.electionMax := by
  constructor
  · rfl
  · rintro _ ⟨⟩
  · rintro _ ⟨⟩
  · intro hc
    rw [Desk.opened, hrole] at hc
    cases hc
  · rintro r - _ ⟨⟩
  · exact .nil

omit [LogStore σ] [StateMachine μ] in
/-- When there is news of a letter, no other letter of its term to its peer is awaited. -/
theorem Sound.clear {w : Nat} {d : Desk σ μ} (h : d.Sound w) {before after : List Letter} {l : Letter}
    (hl : d.unanswered = before ++ l :: after) (hyoung : d.clock < l.sentAt + w) {peer : NodeId} {term : Term}
    (hserves : l.Serves peer term) (hexcept : (peer, term) ∉ d.spoiled) :
    ∀ l' ∈ before ++ after, l'.Serves peer term → l'.sentAt + w ≤ d.clock := by
  have hspaced := h.spaced
  have hpast := h.past
  rw [hl] at hspaced hpast
  obtain ⟨-, hlater, hearlier⟩ := List.pairwise_append.mp hspaced
  intro l' hl' hserves'
  rcases List.mem_append.mp hl' with hbefore | hafter
  · have hapart := hearlier l' hbefore l List.mem_cons_self peer term hserves' hserves hexcept
    exact hapart.trans (hpast l (List.mem_append_right _ List.mem_cons_self))
  -- what was sent later had to wait until this letter was presumed lost, and it is not
  · have hapart := (List.pairwise_cons.mp hlater).1 l' hafter peer term hserves hserves' hexcept
    have := hpast l' (List.mem_append_right _ (List.mem_cons_of_mem _ hafter))
    omega

theorem Sound.step {w : Nat} {d d' : Desk σ μ} (h : d.Sound w) (hstep : d.Step d') : d'.Sound w := by
  cases hstep with
  | act m htime hrun =>
    have hcommand := Action.wp_ok ((Node.Marks.later h htime).wp_command _) hrun
    exact hcommand
  | request m htime hrun =>
    have hrequest := Action.wp_ok ((Node.Marks.later h htime).wp_onRequest _ _) hrun
    exact hrequest
  | @news m before after l r out n hl hr htime hyoung hrun =>
    rw [h.window] at hyoung
    have hmarks : d.node.Marks w m.now (fun peer term => (peer, term) ∈ l.spoils d.node r ++ d.spoiled)
        (before ++ after) := by
      refine (Node.Marks.later h htime).fewer ?_ fun _ _ => List.mem_append_right _
      rw [hl]
      exact (List.sublist_cons_self l after).append_left before
    have hclear : ∀ peer, r.strikes = some (peer, d.node.term) → d.node.isLeader = true →
        Node.Clear w m.now (fun peer term => (peer, term) ∈ l.spoils d.node r ++ d.spoiled) (before ++ after)
          peer d.node.term := by
      intro peer hstrikes hleads l' hl' hserves' hexcept
      obtain ⟨hspoils, hspoiled⟩ := not_or.mp (mt List.mem_append.mpr hexcept)
      have hserves := (hr.serves hstrikes hleads).resolve_right hspoils
      exact (h.clear hl hyoung hserves hspoiled l' hl' hserves').trans htime
    -- the news strikes out whatever note there is for the peer, which must not be that of another letter
    have hnews := Action.wp_ok (hmarks.wp_onResponse hclear) hrun
    exact hnews
  | refuse m htime hf hrun =>
    obtain hhalts | rfl := Action.wp_error (Node.Occasion.wp_refused _ _ _) hrun
    · rw [hf] at hhalts
      cases hhalts
    · exact Node.Marks.later h htime

theorem Run.sound {n : Node σ μ} {d : Desk σ μ} (h : Run n d) (hrole : n.role.kind = .follower) :
    d.Sound n.config.electionMax := by
  induction h with
  | start now => exact .opened hrole now
  | step _ hstep ih => exact ih.step hstep

/-- A node never has two letters with entries or a snapshot out to one peer in one term, unless the first is presumed
lost or a request for a vote of that term was reported lost after the election was won. -/
theorem Run.one_outstanding {n : Node σ μ} {d : Desk σ μ} (h : Run n d) (hrole : n.role.kind = .follower) :
    d.unanswered.Pairwise fun a b => ∀ peer term, a.Serves peer term → b.Serves peer term →
      (peer, term) ∉ d.spoiled → a.sentAt + n.config.electionMax ≤ b.sentAt :=
  (h.sound hrole).spaced

/-! ## An election of three -/

def candidate : Node MemoryStore Journal := { Node.newcomer with
  term := 1, vote := some 1, role := .candidate [1], electionDeadline := 600
  log := { store := { kept := { hard := ⟨1, some 1⟩ } } } }

/-- It leads, and awaits answers to what it sent its peers then. -/
def elected (second third : Option Nat) : Node MemoryStore Journal := { candidate with
  role := .leader { peers := [
    (2, { nextIndex := 1, inFlightSince := second, lastContact := 310 }),
    (3, { nextIndex := 1, inFlightSince := third, lastContact := 310 })] }
  log := { store := { kept := { hard := ⟨1, some 1⟩, entries := [⟨1, 1, []⟩] } }, entries := [⟨1, 1, []⟩] } }

def call (peer : NodeId) : Letter := ⟨300, peer, .vote ⟨1, 1, 0, 0⟩⟩

def opening (sentAt : Nat) (peer : NodeId) : Letter := ⟨sentAt, peer, .append ⟨1, 1, 0, 0, [⟨1, 1, []⟩], 0⟩⟩

/-- The second node votes for the first, and the third has not answered. -/
def inOffice : Desk MemoryStore Journal :=
  ⟨elected (some 310) (some 310), 310, [call 3, opening 310 2, opening 310 3], []⟩

theorem run_inOffice : Run Node.newcomer inOffice := by
  have hstand : Protocol.Command.stand.run ⟨300, 0⟩ Node.newcomer =
      .ok [(call 2).message, (call 3).message] candidate := by cbv
  have hvote : Node.onResponse ⟨310, 0⟩ (.vote 2 1 ⟨1, true⟩) candidate =
      .ok [(opening 310 2).message, (opening 310 3).message] (elected (some 310) (some 310)) := by cbv
  have hcalls := Step.act (d := opened Node.newcomer 0) ⟨300, 0⟩ (by decide) hstand
  have hgranted : (call 2).message.response? (.vote ⟨1, true⟩) = some (.vote 2 1 ⟨1, true⟩) := rfl
  have hletters : Node.post 300 [] [(call 2).message, (call 3).message] = [] ++ call 2 :: [call 3] := rfl
  have hwins := Step.news (d := ⟨candidate, 300, _, []⟩) ⟨310, 0⟩ hletters (.answer hgranted) (by decide) (by decide)
    hvote
  exact ((Run.start 0).step hcalls).step hwins

/-- The peers have not answered for as long as makes an answer unlikely, and are sent the same again. -/
def persistent : Desk MemoryStore Journal :=
  ⟨elected (some 810) (some 810), 810,
    [call 3, opening 310 2, opening 310 3, opening 810 2, opening 810 3], []⟩

theorem run_persistent : Run Node.newcomer persistent := by
  have hbeat : Protocol.Command.heartbeat.run ⟨810, 0⟩ inOffice.node =
      .ok [(opening 810 2).message, (opening 810 3).message] persistent.node := by cbv
  exact run_inOffice.step (Step.act ⟨810, 0⟩ (by decide) hbeat)

theorem one_outstanding_persistent : Run Node.newcomer persistent ∧ Node.newcomer.role.kind = .follower ∧
    persistent.node.isLeader = true ∧ persistent.unanswered.Pairwise fun a b => ∀ peer term,
      a.Serves peer term → b.Serves peer term → (peer, term) ∉ persistent.spoiled → a.sentAt + 500 ≤ b.sentAt :=
  ⟨run_persistent, rfl, rfl, run_persistent.one_outstanding rfl⟩

/-- The vote request to the third node is reported lost, and the next heartbeat sends it the opening entry again,
20 ms after the first time. -/
def overlapping : Desk MemoryStore Journal :=
  ⟨elected (some 310) (some 330), 330, [opening 310 2, opening 310 3, opening 330 3], [(3, 1)]⟩

theorem run_overlapping : Run Node.newcomer overlapping := by
  let struck : Node MemoryStore Journal := elected (some 310) none
  have hlost : Node.onResponse ⟨320, 0⟩ (call 3).message.lost inOffice.node = .ok [] struck := by cbv
  have hbeat : Protocol.Command.heartbeat.run ⟨330, 0⟩ struck =
      .ok [(opening 330 3).message] overlapping.node := by cbv
  have hletters : inOffice.unanswered = [] ++ call 3 :: [opening 310 2, opening 310 3] := rfl
  have hstrikes := Step.news ⟨320, 0⟩ hletters .lost (by decide) (by decide) hlost
  have hsends := Step.act (d := ⟨struck, 320, [opening 310 2, opening 310 3], [(3, 1)]⟩) ⟨330, 0⟩ (by decide) hbeat
  exact (run_inOffice.step hstrikes).step hsends

theorem two_outstanding : Run Node.newcomer overlapping ∧ Node.newcomer.role.kind = .follower ∧
    ¬ overlapping.unanswered.Pairwise fun a b => ∀ peer term, a.Serves peer term → b.Serves peer term →
      a.sentAt + Node.newcomer.config.electionMax ≤ b.sentAt := by
  refine ⟨run_overlapping, rfl, fun h => ?_⟩
  obtain ⟨-, h⟩ := List.pairwise_cons.mp h
  have hapart := (List.pairwise_cons.mp h).1 _ List.mem_cons_self 3 1 ⟨rfl, rfl, rfl⟩ ⟨rfl, rfl, rfl⟩
  exact absurd hapart (by decide)

end Desk
end RaftNode
