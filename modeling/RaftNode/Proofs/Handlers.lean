import RaftNode.Proofs.InMemory
import RaftNode.Proofs.Steps
/-!
# What handlers leave alone

Most of what a node does touches neither its machine nor its snapshot, and it takes no entry away: the node turns its
role, stores its term and vote, appends as leader, or counts what is committed. The handlers that do nothing else
are told apart here from those that take over a leader's entries or snapshot, compact the log or apply it. Nothing is
asked of the store, and what is said holds also of a handler that ends early.
-/
namespace RaftNode

open RaftNode.Action (wp)

/-- A request that cannot be made is a reason to halt. -/
theorem Replication.nextRequest_isFatal {σ : Type} [LogStore σ] {r : Replication} {peer : NodeId}
    {l : Log σ} {term : Term} {leader : NodeId} {most now lostAfter : Nat} {e : NodeError}
    (h : r.nextRequest peer l term leader most now lostAfter = .error e) : e.isFatal = true := by
  unfold nextRequest requestAt at h
  grind [NodeError.isFatal, Log.loadSnapshot_isFatal]

namespace Node

variable {σ μ : Type} [LogStore σ] {α β : Type} {free : Prop} {n n' n₁ : Node σ μ}
  {x : NodeAction σ μ α}

/-! ## Plain steps -/

/-- A step that leaves the machine, the snapshot and the entries there are alone. Whether the node may take office
with it is up to `free`. -/
inductive Plain (free : Prop) (n : Node σ μ) : Node σ μ → Prop
  | turn {n' : Node σ μ} (hlog : n'.log = n.log) (hmachine : n'.machine = n.machine)
      (hoffice : n'.isLeader = true → n.isLeader = true ∧ n'.term = n.term) : Plain free n n'
  | office (r : Replication) (hfree : free) : Plain free n { n with role := .leader r }
  | grow {log : Log σ} (hlog : Log.Grows n.log log) : Plain free n { n with log }

def Plains (free : Prop) : Node σ μ → Node σ μ → Prop := Relation.ReflTransGen (Plain free)

/-- The node halts, with a log that plain steps lead to. -/
structure Stops (free : Prop) (n : Node σ μ) (f : Fault NodeError) (n' : Node σ μ) : Prop where
  halts : f.halts = true
  log : ∃ n₁, Plains free n n₁ ∧ n'.log = n₁.log

/-- From `n₁`, which plain steps lead to from `n`, the action goes on by plain steps, and if it ends early the node
halts. -/
def Leads (free : Prop) (n : Node σ μ) (x : NodeAction σ μ α) (n₁ : Node σ μ) : Prop :=
  wp x (fun _ n' => Plains free n n') (Stops free n) n₁

/-- A handler that is plain wherever it starts. -/
def IsPlain (free : Prop) (x : NodeAction σ μ α) : Prop := ∀ n : Node σ μ, Leads free n x n

theorem Stops.here {f : Fault NodeError} (hf : f.halts = true) (h : Plains free n n₁) :
    Stops free n f n₁ :=
  ⟨hf, n₁, h, rfl⟩

theorem Stops.after {f : Fault NodeError} (h : Plains free n n₁) (hf : Stops free n₁ f n') :
    Stops free n f n' := by
  obtain ⟨hhalts, n₂, h₂, hlog⟩ := hf
  exact ⟨hhalts, n₂, h.trans h₂, hlog⟩

/-- Who cannot take office has not taken it. -/
theorem Plains.mono {free' : Prop} (hfree : free → free') (h : Plains free n n') :
    Plains free' n n' := by
  refine Relation.ReflTransGen.mono (fun n n' hs => ?_) n n' h
  cases hs with
  | turn hlog hmachine hoffice => exact .turn hlog hmachine hoffice
  | office r h => exact .office r (hfree h)
  | grow hlog => exact .grow hlog

theorem Leads.after (h : Plains free n n₁) (hx : Leads free n₁ x n') : Leads free n x n' :=
  Action.wp_mono hx (fun _ _ h' => h.trans h') fun _ _ => .after h

theorem IsPlain.leads (hx : IsPlain free x) (h : Plains free n n₁) : Leads free n x n₁ :=
  (hx n₁).after h

theorem Leads.bind {f : α → NodeAction σ μ β} (hx : Leads free n x n₁)
    (hf : ∀ a, IsPlain free (f a)) : Leads free n (x >>= f) n₁ :=
  Action.wp_seq hx fun a _ h => (hf a).leads h

theorem IsPlain.bind {f : α → NodeAction σ μ β} (hx : IsPlain free x) (hf : ∀ a, IsPlain free (f a)) :
    IsPlain free (x >>= f) :=
  fun n => (hx n).bind hf

theorem isPlain_pure (a : α) : IsPlain free (pure a : NodeAction σ μ α) := fun _ => .refl

/-- A leader changes its view of its peers, and goes on. -/
theorem Leads.setView {r r' : Replication} (hrole : n.role = .leader r) (hx : IsPlain free x) :
    Leads free n (do set { n with role := .leader r' }; x) n := by
  rw [Leads, Action.wp_bind, Action.wp_set]
  refine hx.leads (.single (.turn rfl rfl fun _ => ⟨?_, rfl⟩))
  rw [isLeader, hrole]
  rfl

theorem isPlain_onLog {op : LogAction σ α} (hop : ∀ l, Log.Grows l (op.after l))
    (hstrict : Log.Strict op) : IsPlain free (onLog op : NodeAction σ μ α) := by
  intro n
  rw [Leads, wp_onLog]
  refine Action.wp_mono (Action.wp_and (Action.wp_after op n.log) (hstrict n.log)) ?_ ?_
  · rintro _ _ ⟨rfl, -⟩
    exact .single (.grow (hop n.log))
  · rintro f _ ⟨rfl, hf⟩
    exact .here hf (.single (.grow (hop n.log)))

theorem isPlain_saveHard (h : HardState) :
    IsPlain free (onLog (Log.saveHard h) : NodeAction σ μ Unit) :=
  isPlain_onLog (fun _ => .hard h) (Log.strict_onStore _)

theorem isPlain_append (term : Term) (command : Bytes) :
    IsPlain free (onLog (Log.appendAsLeader term command) : NodeAction σ μ Index) := by
  refine isPlain_onLog (fun _ => .append term command) fun l => ?_
  refine Action.wp_mono (Log.wp_appendAsLeader_memory term command l) ?_ fun _ _ h => h.1
  rintro _ _ ⟨-, s, rfl⟩
  exact ⟨rfl, le_rfl⟩

theorem isPlain_setCommitIndex (i : Index) :
    IsPlain free (onLog (Log.setCommitIndex i) : NodeAction σ μ Unit) :=
  isPlain_onLog (fun _ => .commit i) (Log.strict_setCommitIndex i)

/-! ## Term, vote and role -/

theorem isPlain_setRole {role : Role} (hrole : role.kind = .leader → free) :
    IsPlain free (setRole role : NodeAction σ μ Unit) := by
  intro n
  simp only [Leads, setRole, Action.wp_bind, Action.wp_get, Action.wp_require, Action.wp_modify]
  split
  · cases role with
    | leader r => exact .single (.office r (hrole rfl))
    | follower leader => exact .single (.turn rfl rfl (by rintro ⟨⟩))
    | candidate votes => exact .single (.turn rfl rfl (by rintro ⟨⟩))
  · exact .here rfl .refl

theorem isPlain_resetDeadline (m : Moment) : IsPlain free (resetDeadline m : NodeAction σ μ Unit) :=
  fun _ => .single (.turn rfl rfl fun h => ⟨h, rfl⟩)

/-- A leader stores a vote in its own term only; who enters another term does not lead. -/
theorem leads_adopt {term : Term} (hterm : n.isLeader = true → term = n.term)
    (vote : Option NodeId) : Leads free n (adopt term vote) n := by
  rw [Leads, adopt, Action.wp_bind, Action.wp_modify]
  exact (isPlain_saveHard ⟨term, vote⟩).leads (.single (.turn rfl rfl fun h => ⟨h, hterm h⟩))

/-- The node follows, in the newer of two terms, and its log is only stored anew. -/
structure StepsDown (free : Prop) (n : Node σ μ) (term : Term) (n' : Node σ μ) : Prop where
  plains : Plains free n n'
  follows : n'.isLeader = false
  entered : n'.term = max n.term term
  log : ∃ s, n'.log = { n.log with store := s }

theorem wp_becomeFollower_plain (m : Moment) (term : Term) (leader : Option NodeId) (n : Node σ μ) :
    wp (becomeFollower m term leader) (fun _ n' => StepsDown free n term n') (Stops free n) n := by
  have hmay : n.role.kind.mayBecome .follower = true := mayBecome_follower _
  rw [becomeFollower, Action.wp_bind, Action.wp_get, Action.wp_ite]
  split
  · rename_i hlt
    simp only [Action.wp_bind, adopt, Action.wp_modify, wp_onLog]
    refine Action.wp_mono (Action.wp_and (Action.wp_after (Log.saveHard ⟨term, none⟩) n.log)
      (Log.wp_saveHard_memory ⟨term, none⟩ n.log)) ?_ ?_
    · rintro - log ⟨rfl, hs⟩
      rw [wp_setRole hmay, resetDeadline, Action.wp_modify]
      refine ⟨.tail (.single (.grow (.hard ⟨term, none⟩))) (.turn rfl rfl ?_), rfl,
        (max_eq_right hlt.le).symm, hs⟩
      rintro ⟨⟩
    · rintro f log ⟨rfl, hf, -⟩
      exact ⟨hf, _, .single (.grow (.hard ⟨term, none⟩)), rfl⟩
  · rename_i hle
    rw [Action.wp_bind, wp_setRole hmay, resetDeadline, Action.wp_modify]
    refine ⟨.single (.turn rfl rfl ?_), rfl, (max_eq_left (by lia)).symm, n.log.store, rfl⟩
    rintro ⟨⟩

theorem isPlain_becomeFollower (m : Moment) (term : Term) (leader : Option NodeId) :
    IsPlain free (becomeFollower m term leader : NodeAction σ μ Unit) := fun n =>
  Action.wp_imp (wp_becomeFollower_plain m term leader n) fun _ _ h => h.plains

theorem wp_follow_plain (m : Moment) (term : Term) (leader : NodeId) (n : Node σ μ) :
    wp (follow m term leader) (fun _ n' => StepsDown free n term n') (Stops free n) n := by
  rw [follow, Action.wp_bind, Action.wp_get, Action.wp_ite]
  split
  · exact wp_becomeFollower_plain m term (some leader) n
  · rename_i hstay
    rw [Action.wp_bind, wp_setRole (mayBecome_follower _), resetDeadline, Action.wp_modify]
    refine ⟨.single (.turn rfl rfl ?_), rfl, (max_eq_left (by lia)).symm, n.log.store, rfl⟩
    rintro ⟨⟩

/-- The node follows in the newer of two terms. Of its log nothing changes but that it is stored. -/
structure Turns (n : Node σ μ) (term : Term) (n' : Node σ μ) : Prop where
  term : n'.term = max n.term term
  role : n'.role.kind = .follower
  config : n'.config = n.config
  machine : n'.machine = n.machine
  log : ∃ s, n'.log = { n.log with store := s }

theorem wp_becomeFollower_turns (m : Moment) (term : Term) (leader : Option NodeId) (n : Node σ μ) :
    wp (becomeFollower m term leader) (fun _ n' => Turns n term n')
      (fun f n' => f.halts = true ∧ ∃ s, n'.log = { n.log with store := s }) n := by
  have hmay : n.role.kind.mayBecome .follower = true := mayBecome_follower _
  rw [becomeFollower, Action.wp_bind, Action.wp_get, Action.wp_ite]
  split
  · rename_i hlt
    rw [Action.wp_bind, adopt, Action.wp_bind, Action.wp_modify, wp_onLog]
    refine Action.wp_mono (Log.wp_saveHard_memory ⟨term, none⟩ n.log) ?_ fun _ _ hf => hf
    rintro - log hlog
    rw [Action.wp_bind, wp_setRole hmay, resetDeadline, Action.wp_modify]
    exact ⟨(max_eq_right hlt.le).symm, rfl, rfl, rfl, hlog⟩
  · rename_i hle
    rw [Action.wp_bind, wp_setRole hmay, resetDeadline, Action.wp_modify]
    exact ⟨(max_eq_left (by lia)).symm, rfl, rfl, rfl, n.log.store, rfl⟩

theorem wp_follow_turns (m : Moment) (term : Term) (leader : NodeId) (n : Node σ μ) :
    wp (follow m term leader) (fun _ n' => Turns n term n')
      (fun f n' => f.halts = true ∧ ∃ s, n'.log = { n.log with store := s }) n := by
  rw [follow, Action.wp_bind, Action.wp_get, Action.wp_ite]
  split
  · exact wp_becomeFollower_turns m term (some leader) n
  · rw [Action.wp_bind, wp_setRole (mayBecome_follower _), resetDeadline, Action.wp_modify]
    exact ⟨(max_eq_left (by lia)).symm, rfl, rfl, rfl, n.log.store, rfl⟩

/-! ## Leading -/

theorem isPlain_requestFor (m : Moment) (peer : NodeId) :
    IsPlain free (requestFor m peer : NodeAction σ μ (Option Outbound)) := by
  intro n
  rw [Leads, requestFor, Action.wp_bind, Action.wp_get]
  split
  · rename_i r hrole
    split
    · rename_i e he
      exact .here (Replication.nextRequest_isFatal he) .refl
    · exact .refl
    · exact Leads.setView hrole (isPlain_pure _)
  · exact .refl

theorem isPlain_requestTo (m : Moment) (peer : NodeId) :
    IsPlain free (do pure (← requestFor m peer).toList : NodeAction σ μ (List Outbound)) :=
  (isPlain_requestFor m peer).bind fun _ => isPlain_pure _

theorem isPlain_requestsFor (m : Moment) (names : List NodeId) :
    IsPlain free (requestsFor m names : NodeAction σ μ (List Outbound)) := by
  induction names with
  | nil => exact isPlain_pure []
  | cons peer rest ih =>
    exact (isPlain_requestFor m peer).bind fun _ => ih.bind fun _ => isPlain_pure _

theorem isPlain_replicate (m : Moment) :
    IsPlain free (replicate m : NodeAction σ μ (List Outbound)) := fun n =>
  isPlain_requestsFor m n.peers n

theorem isPlain_heartbeat (m : Moment) :
    IsPlain free (heartbeat m : NodeAction σ μ (List Outbound)) := by
  intro n
  rw [Leads, heartbeat, Action.wp_bind, Action.wp_get]
  split
  · rename_i r hrole
    exact Leads.setView hrole (isPlain_replicate m)
  · exact .refl

theorem isPlain_advanceCommit : IsPlain free (advanceCommit : NodeAction σ μ Unit) := by
  intro n
  rw [Leads, advanceCommit, Action.wp_bind, Action.wp_get]
  split
  · rw [Action.wp_ite]
    split
    · exact isPlain_setCommitIndex _ n
    · exact .refl
  · exact .refl

theorem isPlain_becomeLeader (hfree : free) (m : Moment) :
    IsPlain free (becomeLeader m : NodeAction σ μ (List Outbound)) := by
  intro n
  rw [Leads, becomeLeader, Action.wp_bind, Action.wp_get, Action.wp_bind]
  refine Action.wp_mono (Replication.wp_start_same n.peers n.log.lastIndex m.now) ?_ ?_
  · rintro r n rfl
    refine (isPlain_setRole fun _ => hfree).bind (fun _ => ?_) n
    exact (isPlain_append n.term []).bind fun _ => isPlain_advanceCommit.bind fun _ =>
      isPlain_replicate m
  · rintro f _ ⟨rfl, rfl⟩
    exact .here rfl .refl

/-! ## Elections -/

theorem leads_startElection (m : Moment) (n : Node σ μ) :
    Leads (n.isLeader = false) n (startElection m) n := by
  rw [Leads, startElection, Action.wp_bind, Action.wp_get, Action.wp_ite]
  split
  · exact .refl
  rename_i hleader
  have hfree : n.isLeader = false := by simpa using hleader
  rw [Action.wp_bind, Action.wp_add]
  split
  · refine (leads_adopt (fun h => absurd h hleader) _).bind fun _ => ?_
    refine (isPlain_setRole (by rintro ⟨⟩)).bind fun _ => (isPlain_resetDeadline m).bind fun _ => ?_
    split
    · exact isPlain_becomeLeader hfree m
    · exact isPlain_pure _
  · exact .here rfl .refl

/-- The node once it stands in the next term, with that term and its own vote in this store. -/
def standing (m : Moment) (n : Node σ μ) (s : σ) : Node σ μ :=
  { n with
    term := n.term + 1, vote := some n.id, log := { n.log with store := s }, role := .candidate [n.id]
    electionDeadline := n.config.deadline m }

/-- A node that does not lead stands: if it is alone it has won, and else it asks its peers for their votes. -/
theorem wp_startElection_standing {m : Moment} {Q : List Outbound → Node σ μ → Prop}
    {E : Fault NodeError → Node σ μ → Prop} (hleads : n.isLeader = true → Q [] n)
    (halone : ∀ s, wp (becomeLeader m) Q E (n.standing m s))
    (hasks : n.hasMajority 1 = false → ∀ s,
      Q (n.peers.map fun peer => ⟨peer, .vote ⟨n.term + 1, n.id, n.log.lastIndex, n.log.lastTerm⟩⟩) (n.standing m s))
    (hhalts : ∀ f n', f.halts = true → E f n') : wp (startElection m) Q E n := by
  rw [startElection, Action.wp_bind, Action.wp_get, Action.wp_ite]
  split
  · rename_i hleader
    exact hleads hleader
  rw [Action.wp_bind, Action.wp_add]
  split
  · rw [adopt, Action.wp_bind, Action.wp_bind, Action.wp_modify, wp_onLog]
    refine Action.wp_mono (Log.wp_saveHard_memory _ _) ?_ fun f _ hf => hhalts f _ hf.1
    rintro - _ ⟨s, rfl⟩
    rw [Action.wp_bind, setRole, Action.wp_bind, Action.wp_get, Action.wp_bind, Action.wp_require]
    split
    · rw [Action.wp_modify, Action.wp_bind, resetDeadline, Action.wp_modify, Action.wp_ite]
      split
      · exact halone s
      · rename_i hmajority
        exact hasks (Bool.eq_false_iff.mpr hmajority) s
    · exact hhalts _ _ rfl
  · exact hhalts _ _ rfl

theorem isPlain_decideVote (m : Moment) (q : VoteRequest) :
    IsPlain free (decideVote m q : NodeAction σ μ VoteReply) := by
  intro n
  rw [Leads, decideVote, Action.wp_bind, Action.wp_get, Action.wp_ite]
  split
  · simp only [Action.wp_ite]
    split
    · exact (leads_adopt (fun _ => rfl) _).bind fun _ => (isPlain_resetDeadline m).bind fun _ =>
        isPlain_pure _
    · exact (isPlain_resetDeadline m).bind (fun _ => isPlain_pure _) n
  · exact .refl

theorem isPlain_onVoteRequest (m : Moment) (q : VoteRequest) :
    IsPlain free (onVoteRequest m q : NodeAction σ μ VoteReply) := by
  intro n
  rw [Leads, onVoteRequest_eq, Action.wp_bind, Action.wp_get, Action.wp_ite]
  split
  · exact .refl
  rw [Action.wp_bind, Action.wp_get, Action.wp_ite]
  split
  · exact (isPlain_becomeFollower m q.term none).bind (fun _ => isPlain_decideVote m q) n
  · exact isPlain_decideVote m q n

theorem isPlain_stepDown (m : Moment) (term : Term) :
    IsPlain free (do becomeFollower m term none; pure [] : NodeAction σ μ (List Outbound)) :=
  (isPlain_becomeFollower m term none).bind fun _ => isPlain_pure []

theorem leads_onVoteReply (m : Moment) (peer : NodeId) (sentTerm : Term) (r : VoteReply)
    (n : Node σ μ) : Leads (n.isLeader = false) n (onVoteReply m peer sentTerm r) n := by
  rw [Leads, onVoteReply, Action.wp_bind, Action.wp_get, Action.wp_ite]
  split
  · exact isPlain_stepDown m r.term n
  rw [Action.wp_ite]
  split
  · exact .refl
  split
  · rename_i votes hrole
    have hfree : n.isLeader = false := by
      rw [isLeader, hrole]
      rfl
    dsimp only
    generalize (if votes.contains peer then votes else votes ++ [peer]) = votes'
    have hcount : Plains (n.isLeader = false) n { n with role := .candidate votes' } :=
      .single (.turn rfl rfl (by rintro ⟨⟩))
    rw [Action.wp_bind, Action.wp_set, Action.wp_ite]
    split
    · exact (isPlain_becomeLeader hfree m).leads hcount
    · exact hcount
  · exact .refl

/-! ## Responses -/

theorem isPlain_onAppendReply (m : Moment) (peer : NodeId) (sent : AppendSent) (r : AppendReply) :
    IsPlain free (onAppendReply m peer sent r : NodeAction σ μ (List Outbound)) := by
  intro n
  rw [Leads, onAppendReply, Action.wp_bind, Action.wp_get, Action.wp_ite]
  split
  · exact isPlain_stepDown m r.term n
  rw [Action.wp_ite]
  split
  · exact .refl
  split
  · rename_i view hrole
    rw [Action.wp_ite]
    split
    · rw [Action.wp_bind]
      refine Action.wp_mono (Replication.widens_onAppendSuccess peer sent m.now) ?_ ?_
      · rintro view' _ ⟨rfl, -⟩
        refine Leads.setView hrole (isPlain_advanceCommit.bind fun _ => ?_)
        split
        · exact isPlain_requestTo m peer
        · exact isPlain_pure []
      · rintro f _ ⟨rfl, rfl⟩
        exact .here rfl .refl
    · rw [Action.wp_bind]
      refine Action.wp_mono (Replication.widens_onAppendReject peer sent r.matchHint m.now) ?_ ?_
      · rintro view' _ ⟨rfl, -⟩
        exact Leads.setView hrole (isPlain_pure [])
      · rintro f _ ⟨rfl, rfl⟩
        exact .here rfl .refl
  · exact .refl

theorem isPlain_onInstallReply (m : Moment) (peer : NodeId) (sentTerm : Term) (index : Index)
    (r : InstallReply) :
    IsPlain free (onInstallReply m peer sentTerm index r : NodeAction σ μ (List Outbound)) := by
  intro n
  rw [Leads, onInstallReply, Action.wp_bind, Action.wp_get, Action.wp_ite]
  split
  · exact isPlain_stepDown m r.term n
  rw [Action.wp_ite]
  split
  · exact .refl
  split
  · rename_i view hrole
    rw [Action.wp_bind]
    refine Action.wp_mono (Replication.widens_confirm peer index m.now) ?_ ?_
    · rintro view' _ ⟨rfl, -⟩
      exact Leads.setView hrole (isPlain_advanceCommit.bind fun _ => isPlain_requestTo m peer)
    · rintro f _ ⟨rfl, rfl⟩
      exact .here rfl .refl
  · exact .refl

theorem isPlain_onUnreachable (peer : NodeId) (sentTerm : Term) :
    IsPlain free (onUnreachable peer sentTerm : NodeAction σ μ Unit) := by
  intro n
  rw [Leads, onUnreachable, Action.wp_bind, Action.wp_get, Action.wp_ite]
  split
  · split
    · rename_i view hrole
      exact Leads.setView hrole (isPlain_pure ())
    · exact .refl
  · exact .refl

theorem leads_onResponse (m : Moment) (r : Response) (n : Node σ μ) :
    Leads (n.isLeader = false) n (onResponse m r) n := by
  cases r with
  | vote peer sentTerm r => exact leads_onVoteReply m peer sentTerm r n
  | append peer sent r => exact isPlain_onAppendReply m peer sent r n
  | install peer sentTerm index r => exact isPlain_onInstallReply m peer sentTerm index r n
  | unreachable peer sentTerm =>
    exact (isPlain_onUnreachable peer sentTerm).bind (fun _ => isPlain_pure []) n

/-! ## Proposals -/

omit [LogStore σ] in
/-- Nothing but the commit index may change. -/
theorem wp_advanceCommit_memory (n : Node σ μ) :
    wp advanceCommit (fun _ n' => ∃ c, n' = { n with log := { n.log with commitIndex := c } })
      (fun _ _ => True) n := by
  rw [advanceCommit, Action.wp_bind, Action.wp_get]
  split
  · rw [Action.wp_ite]
    split
    · rw [wp_onLog]
      refine Action.wp_mono (Log.wp_setCommitIndex_memory _ n.log) ?_ fun _ _ _ => trivial
      rintro - _ ⟨c, -, -, rfl⟩
      exact ⟨c, rfl⟩
    · exact ⟨n.log.commitIndex, rfl⟩
  · exact ⟨n.log.commitIndex, rfl⟩

variable [StateMachine μ]

/-- The leader has a client's command in its log. -/
structure Proposes (n : Node σ μ) (command : Bytes) (i : Index) (n' : Node σ μ) : Prop where
  leads : n.isLeader = true
  nonempty : command.isEmpty = false
  index : i = n.log.lastIndex + 1
  node : ∃ s c, n' = { n with log := { n.log with
    store := s, entries := n.log.entries ++ [⟨i, n.term, command⟩], commitIndex := c } }
  plains : Plains False n n'

/-- Why a command is refused, which is no reason to halt. -/
inductive Refuses (n : Node σ μ) (command : Bytes) : Fault NodeError → Prop
  | notLeader (hrole : n.isLeader = false) : Refuses n command (.error (.notLeader n.leader?))
  | empty (hcommand : command.isEmpty = true) : Refuses n command (.error .emptyCommand)
  | invalid {reason : String} (hmachine : StateMachine.validate n.machine command = .error reason) :
      Refuses n command (.error (.machine reason))

theorem wp_propose (command : Bytes) (n : Node σ μ) :
    wp (propose command) (Proposes n command)
      (fun f n' => Stops False n f n' ∨ n' = n ∧ Refuses n command f) n := by
  rw [propose, Action.wp_bind, Action.wp_get, Action.wp_ite]
  split
  · rename_i hrole
    exact Or.inr ⟨rfl, .notLeader (by simpa using hrole)⟩
  rename_i hrole
  have hleads : n.isLeader = true := by simpa using hrole
  rw [Action.wp_ite]
  split
  · rename_i hcommand
    exact Or.inr ⟨rfl, .empty hcommand⟩
  rename_i hcommand
  split
  · rename_i reason hmachine
    exact Or.inr ⟨rfl, .invalid hmachine⟩
  · have happend : wp (onLog (Log.appendAsLeader n.term command)) (fun i n₁ =>
        i = n.log.lastIndex + 1 ∧ ∃ s, n₁ = { n with log := { n.log with
          store := s, entries := n.log.entries ++ [⟨i, n.term, command⟩] } })
        (fun _ _ => True) n := by
      rw [wp_onLog]
      refine Action.wp_mono (Log.wp_appendAsLeader_memory n.term command n.log) ?_
        fun _ _ _ => trivial
      rintro i _ ⟨hi, s, rfl⟩
      exact ⟨hi, s, rfl⟩
    rw [Action.wp_bind]
    refine Action.wp_mono (Action.wp_and (isPlain_append n.term command n) happend) ?_
      fun _ _ h => Or.inl h.1
    rintro i n₁ ⟨hplains, hi, s, rfl⟩
    rw [Action.wp_bind]
    refine Action.wp_mono (Action.wp_and (isPlain_advanceCommit.leads hplains)
      (wp_advanceCommit_memory _)) ?_ fun _ _ h => Or.inl h.1
    rintro - _ ⟨hplains', c, rfl⟩
    exact ⟨hleads, by simpa using hcommand, hi, ⟨s, c, rfl⟩, hplains'⟩

/-! ## Requests of a leader -/

/-- A node accepts the leader of a term that is not older than its own. -/
structure Accepts (n : Node σ μ) (term : Term) (n' : Node σ μ) : Prop
    extends StepsDown False n term n' where
  current : n.term ≤ term

omit [StateMachine μ] in
theorem wp_follow_accepts (m : Moment) (leader : NodeId) {term : Term} (hterm : ¬ term < n.term) :
    wp (follow m term leader) (fun _ n' => Accepts n term n') (Stops False n) n :=
  Action.wp_imp (wp_follow_plain m term leader n) fun _ _ h => ⟨h, by lia⟩

omit [StateMachine μ] in
/-- A batch that does not fit leaves the log alone. -/
theorem wp_onAppendRequest (m : Moment) (q : AppendRequest) (n : Node σ μ) :
    wp (onAppendRequest m q)
      (fun _ n' => n' = n ∨ ∃ n₁, Accepts n q.term n₁ ∧ (n' = n₁ ∨ ∃ i log,
        Log.reconcile q.prevIndex q.prevTerm q.entries q.commit n₁.log = .ok i log ∧
          n' = { n₁ with log }))
      (fun f n' => Stops False n f n' ∨ f.halts = true ∧ ∃ n₁, Accepts n q.term n₁ ∧
        Log.reconcile q.prevIndex q.prevTerm q.entries q.commit n₁.log = .error f n'.log) n := by
  rw [onAppendRequest, Action.wp_bind, Action.wp_get, Action.wp_ite]
  split
  · exact Or.inl rfl
  rename_i hterm
  rw [Action.wp_bind]
  refine Action.wp_mono (wp_follow_accepts m q.leader hterm) ?_ fun _ _ => Or.inl
  rintro - n₁ haccepts
  have hrefused := Log.wp_reconcile_refused q.prevIndex q.prevTerm q.entries q.commit n₁.log
  rw [Action.wp_bind, Action.wp_get]
  split
  · rename_i i log hlog
    exact Or.inr ⟨n₁, haccepts, Or.inr ⟨i, log, hlog, rfl⟩⟩
  · rename_i i hint log hlog
    obtain hf | ⟨rfl, -⟩ := Action.wp_error hrefused hlog
    · cases hf
    · exact Or.inr ⟨n₁, haccepts, Or.inl rfl⟩
  · rename_i f log hother hlog
    obtain hf | ⟨-, i, hint, rfl⟩ := Action.wp_error hrefused hlog
    · exact Or.inr ⟨hf, n₁, haccepts, hlog⟩
    · exact absurd rfl (hother i hint)

/-- A snapshot that is taken over replaces the machine's state. -/
theorem wp_onInstallRequest (m : Moment) (q : InstallRequest) (n : Node σ μ) :
    wp (onInstallRequest m q)
      (fun _ n' => n' = n ∧ q.term < n.term ∨ ∃ n₁, Accepts n q.term n₁ ∧
        (n' = n₁ ∧ q.index ≤ n₁.log.lastApplied ∨ ∃ log machine,
          Log.install ⟨q.index, q.snapshotTerm, q.data⟩ n₁.log = .ok true log ∧
          StateMachine.restore n₁.machine q.data = .ok machine ∧
          n' = { n₁ with log, machine, appliedSinceSnapshot := 0 }))
      (fun f n' => Stops False n f n' ∨ f.halts = true ∧ ∃ n₁, Accepts n q.term n₁ ∧
        (Log.install ⟨q.index, q.snapshotTerm, q.data⟩ n₁.log = .error f n'.log ∨
          Log.install ⟨q.index, q.snapshotTerm, q.data⟩ n₁.log = .ok true n'.log)) n := by
  rw [onInstallRequest, Action.wp_bind, Action.wp_get, Action.wp_ite]
  split
  · rename_i hterm
    exact Or.inl ⟨rfl, hterm⟩
  rename_i hterm
  rw [Action.wp_bind]
  refine Action.wp_mono (wp_follow_accepts m q.leader hterm) ?_ fun _ _ => Or.inl
  rintro - n₁ haccepts
  rw [Action.wp_bind, wp_onLog]
  refine Action.wp_mono (Action.wp_and (Action.wp_self (Log.install _) n₁.log)
    (Log.wp_install_memory _ n₁.log)) ?_ ?_
  · rintro taken log ⟨hlog, hrefused, -⟩
    simp only [Action.wp_ite, Action.wp_bind, Action.wp_get, Action.wp_pure]
    split
    · rename_i htaken
      subst htaken
      split
      · exact Or.inr ⟨rfl, n₁, haccepts, Or.inr hlog⟩
      · rename_i machine hmachine
        exact Or.inr ⟨n₁, haccepts, Or.inr ⟨log, machine, hlog, hmachine, rfl⟩⟩
    · rename_i htaken
      obtain ⟨hold, rfl⟩ := hrefused (by simpa using htaken)
      exact Or.inr ⟨n₁, haccepts, Or.inl ⟨rfl, hold⟩⟩
  · rintro f log ⟨hlog, hf, -⟩
    exact Or.inr ⟨hf, n₁, haccepts, Or.inl hlog⟩

/-! ## Applying and compacting -/

/-- Committed entries are applied one after another; those without a command are passed over. -/
inductive Applies : Node σ μ → List Applied → Node σ μ → Prop
  | done (n : Node σ μ) : Applies n [] n
  | skip {n n' : Node σ μ} {e : Entry} {as : List Applied} {log : Log σ}
      (hlog : Log.nextCommitted n.log = .ok (some e) log) (hnoop : e.isNoop = true)
      (hrest : Applies { n with log, appliedSinceSnapshot := n.appliedSinceSnapshot + 1 } as n') :
      Applies n as n'
  | apply {n n' : Node σ μ} {e : Entry} {as : List Applied} {log : Log σ} {output : Output}
      {machine : μ} (hlog : Log.nextCommitted n.log = .ok (some e) log) (hnoop : e.isNoop = false)
      (happly : StateMachine.apply n.machine e.index e.command = (output, machine))
      (hrest : Applies
        { n with log, machine, appliedSinceSnapshot := n.appliedSinceSnapshot + 1 } as n') :
      Applies n (⟨e.index, e.term, output⟩ :: as) n'

/-- Nothing was compacted, or the log is behind a snapshot of what is applied. -/
inductive Snaps (n : Node σ μ) : Node σ μ → Prop
  | none : Snaps n n
  | snap {term : Term} {log : Log σ} (hnew : n.log.snapshotIndex < n.log.lastApplied)
      (hterm : n.log.termAt? n.log.lastApplied = some term)
      (hlog : Log.compact ⟨n.log.lastApplied, term, StateMachine.snapshot n.machine⟩ n.log =
        .ok () log) : Snaps n { n with log, appliedSinceSnapshot := 0 }

/-- What a compaction leaves that ends early. -/
def SnapFails (n : Node σ μ) (f : Fault NodeError) (n' : Node σ μ) : Prop :=
  f.halts = true ∧ (n'.log = n.log ∨ ∃ term, n.log.snapshotIndex < n.log.lastApplied ∧
    n.log.termAt? n.log.lastApplied = some term ∧
    Log.compact ⟨n.log.lastApplied, term, StateMachine.snapshot n.machine⟩ n.log = .error f n'.log)

theorem wp_takeSnapshot (n : Node σ μ) :
    wp takeSnapshot (fun _ n' => Snaps n n') (SnapFails n) n := by
  rw [takeSnapshot, Action.wp_bind, Action.wp_get, Action.wp_ite]
  split
  · exact .none
  rename_i hnew
  split
  · exact ⟨rfl, Or.inl rfl⟩
  · rename_i term hterm
    rw [Action.wp_bind, wp_onLog]
    refine Action.wp_mono (Action.wp_and (Action.wp_self (Log.compact _) n.log)
      (Log.wp_compact_memory _ n.log)) ?_ ?_
    · rintro ⟨⟩ log ⟨hcompact, -⟩
      exact .snap (by lia) hterm hcompact
    · rintro f log ⟨hcompact, hf⟩
      exact ⟨hf, Or.inr ⟨term, by lia, hterm, hcompact⟩⟩

omit [LogStore σ] in
theorem wp_applyNext (count : Nat) (n : Node σ μ) :
    wp (applyNext count) (Applies n)
      (fun f n' => f.halts = true ∧ ∃ as n₁, Applies n as n₁ ∧ n'.log = n₁.log) n := by
  induction count generalizing n with
  | zero => exact .done n
  | succ count ih =>
    rw [applyNext, Action.wp_bind, wp_onLog]
    refine Action.wp_mono (Action.wp_and (Action.wp_self Log.nextCommitted n.log)
      (Log.wp_nextCommitted_memory n.log)) ?_ ?_
    · rintro (_ | e) log ⟨hlog, -, hnone⟩
      · rw [hnone rfl]
        exact .done n
      · dsimp only
        rw [Action.wp_bind, Action.wp_modify, Action.wp_ite]
        split
        · rename_i hnoop
          refine Action.wp_mono (ih _) (fun as n' h => .skip hlog hnoop h) ?_
          rintro f n' ⟨hf, as, n₁, h, hn'⟩
          exact ⟨hf, as, n₁, .skip hlog hnoop h, hn'⟩
        · rename_i hnoop
          have hcommand : e.isNoop = false := by simpa using hnoop
          rw [Action.wp_bind, Action.wp_get, Action.wp_bind, Action.wp_set, Action.wp_bind]
          refine Action.wp_mono (ih _) (fun as n' h => .apply hlog hcommand rfl h) ?_
          rintro f n' ⟨hf, as, n₁, h, hn'⟩
          exact ⟨hf, _, n₁, .apply hlog hcommand rfl h, hn'⟩
    · rintro f log ⟨-, rfl, rfl⟩
      exact ⟨rfl, [], n, .done n, rfl⟩

theorem wp_applyCommitted (n : Node σ μ) :
    wp applyCommitted (fun as n' => ∃ n₁, Applies n as n₁ ∧ Snaps n₁ n')
      (fun f n' => ∃ as n₁, Applies n as n₁ ∧ SnapFails n₁ f n') n := by
  rw [applyCommitted, Action.wp_bind, Action.wp_get, Action.wp_bind]
  refine Action.wp_mono (wp_applyNext _ n) ?_ ?_
  · intro as n₁ happlies
    rw [Action.wp_bind, Action.wp_get]
    simp only [Action.wp_ite, Action.wp_bind, Action.wp_pure]
    split
    · exact Action.wp_mono (wp_takeSnapshot n₁) (fun _ n' h => ⟨n₁, happlies, h⟩)
        fun _ _ h => ⟨as, n₁, happlies, h⟩
    · exact ⟨n₁, happlies, .none⟩
  · rintro f n' ⟨hf, as, n₁, happlies, hlog⟩
    exact ⟨as, n₁, happlies, hf, Or.inl hlog⟩

end Node

end RaftNode
