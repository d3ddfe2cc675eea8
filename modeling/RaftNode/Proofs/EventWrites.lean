import RaftNode.Proofs.InMemory
import RaftNode.Proofs.OpenRuns
/-!
# What an event writes

Which writes an event may make at a node, of all that a store could be asked for. Entries come from a leader's request,
from a client whose command was accepted, or from the node itself when it takes office. What all these writes leave
alone is left alone by the event, however it ends.
-/
namespace RaftNode

open RaftNode.Action (wp)

/-- Whatever is said of all entries that are appended holds of those that are stored. -/
theorem Write.preserves_entries {P : Entry → Prop} {w : Write}
    (h : ∀ es, w = .append es → ∀ e ∈ es, P e) : w.Preserves fun p => ∀ e ∈ p.entries, P e := by
  have hadd : ∀ {p : Persisted} {es all : List Entry}, w = .append all → es ⊆ all → (∀ e ∈ p.entries, P e) →
      ∀ e ∈ p.entries ++ es, P e := fun hw hes hp e he =>
    (List.mem_append.mp he).elim (hp e) fun he => h _ hw e (hes he)
  rintro p _ hp (rfl | ⟨v, hv, rfl⟩)
  · exact hp
  cases hv with
  | entries hprefix => exact hadd rfl hprefix.subset hp
  | whole =>
    cases w with
    | hard => exact hp
    | append es => exact hadd rfl (List.Subset.refl _) hp
    | truncate | install => exact fun e he => hp e (List.mem_of_mem_filter he)

namespace Node

variable {σ μ : Type} [LogStore σ] [LawfulStore σ] {I : Persisted → Prop} {n : Node σ μ} {α β : Type}
  {x : NodeAction σ μ α}

/-! ## Handlers and what is stored -/

/-- However the action ends, `I` holds of what is stored. -/
def Maintains (I : Persisted → Prop) (x : NodeAction σ μ α) (n : Node σ μ) : Prop :=
  wp x (fun _ n' => I (kept n'.log.store)) (fun _ n' => I (kept n'.log.store)) n

/-- Wherever the action starts, it leaves `I` as it is. -/
def Spares (I : Persisted → Prop) (x : NodeAction σ μ α) : Prop :=
  ∀ n, I (kept n.log.store) → Maintains I x n

theorem Maintains.bind {f : α → NodeAction σ μ β} (hx : Maintains I x n) (hf : ∀ a, Spares I (f a)) :
    Maintains I (x >>= f) n :=
  Action.wp_seq hx fun a n' h => hf a n' h

theorem Spares.bind {f : α → NodeAction σ μ β} (hx : Spares I x) (hf : ∀ a, Spares I (f a)) :
    Spares I (x >>= f) :=
  fun n h => (hx n h).bind hf

theorem spares_pure (a : α) : Spares I (pure a : NodeAction σ μ α) := fun _ h => h

theorem Maintains.onLog {op : LogAction σ α} (hop : Log.Maintains I op n.log) : Maintains I (onLog op) n := by
  rw [Maintains, wp_onLog]
  exact Action.wp_mono hop (fun _ _ h => h) fun _ _ h => h.2

/-- A leader changes its view of its peers, and goes on. -/
theorem Spares.withView {r : Replication} (hx : Spares I x) (h : I (kept n.log.store)) :
    Maintains I (do set { n with role := .leader r }; x) n := by
  rw [Maintains, Action.wp_bind, Action.wp_set]
  exact hx _ h

/-- A change of role, which the table of transitions may refuse, and what the node goes on to do in the new role. -/
theorem Maintains.inRole {role : Role} (h : I (kept n.log.store)) (hx : Maintains I x { n with role }) :
    Maintains I (do setRole role; x) n := by
  rw [Maintains, Node.setRole, bind_assoc, Action.wp_bind, Action.wp_get, bind_assoc, Action.wp_bind,
    Action.wp_require]
  split
  · exact hx
  · exact h

theorem spares_setRole (role : Role) : Spares I (setRole role : NodeAction σ μ Unit) := by
  intro n h
  have hrole : Maintains I (do Node.setRole role; pure ()) n := Maintains.inRole h h
  rwa [bind_pure_unit] at hrole

theorem spares_resetDeadline (m : Moment) : Spares I (resetDeadline m : NodeAction σ μ Unit) := fun _ h => h

/-! ## Requests of a leader -/

theorem spares_requestFor (m : Moment) (peer : NodeId) :
    Spares I (requestFor m peer : NodeAction σ μ (Option Outbound)) := by
  intro n h
  rw [Maintains, requestFor, Action.wp_bind, Action.wp_get]
  split
  · split
    · exact h
    · exact h
    · exact (spares_pure _).withView h
  · exact h

theorem spares_requestTo (m : Moment) (peer : NodeId) :
    Spares I (do pure (← requestFor m peer).toList : NodeAction σ μ (List Outbound)) :=
  (spares_requestFor m peer).bind fun _ => spares_pure _

theorem spares_requestsFor (m : Moment) (names : List NodeId) :
    Spares I (requestsFor m names : NodeAction σ μ (List Outbound)) := by
  induction names with
  | nil => exact spares_pure []
  | cons peer rest ih => exact (spares_requestFor m peer).bind fun _ => ih.bind fun _ => spares_pure _

theorem spares_replicate (m : Moment) : Spares I (replicate m : NodeAction σ μ (List Outbound)) := fun n h =>
  spares_requestsFor m n.peers n h

theorem spares_heartbeat (m : Moment) : Spares I (heartbeat m : NodeAction σ μ (List Outbound)) := by
  intro n h
  rw [Maintains, heartbeat, Action.wp_bind, Action.wp_get]
  split
  · exact (spares_replicate m).withView h
  · exact h

theorem spares_advanceCommit : Spares I (advanceCommit : NodeAction σ μ Unit) := by
  intro n h
  rw [Maintains, advanceCommit, Action.wp_bind, Action.wp_get]
  split
  · rw [Action.wp_ite]
    split
    · exact Maintains.onLog (Log.Maintains.setCommitIndex h _)
    · exact h
  · exact h

/-! ## Term, vote and role -/

section

variable (hhard : ∀ hard, (Write.hard hard).Preserves I)

include hhard

theorem spares_adopt (term : Term) (vote : Option NodeId) : Spares I (adopt term vote : NodeAction σ μ Unit) := by
  intro n h
  rw [Maintains, adopt, Action.wp_bind, Action.wp_modify]
  exact Maintains.onLog (Log.Maintains.write (w := .hard ⟨term, vote⟩) (hhard _) h)

theorem spares_becomeFollower (m : Moment) (term : Term) (leader : Option NodeId) :
    Spares I (becomeFollower m term leader : NodeAction σ μ Unit) := by
  intro n h
  have hrest : Spares I (do setRole (.follower leader); resetDeadline m : NodeAction σ μ Unit) :=
    (spares_setRole _).bind fun _ => spares_resetDeadline m
  rw [Maintains, becomeFollower, Action.wp_bind, Action.wp_get, Action.wp_ite]
  split
  · exact (spares_adopt hhard term none).bind (fun _ => hrest) n h
  · exact hrest n h

theorem spares_follow (m : Moment) (term : Term) (leader : NodeId) :
    Spares I (follow m term leader : NodeAction σ μ Unit) := by
  intro n h
  rw [Maintains, follow, Action.wp_bind, Action.wp_get, Action.wp_ite]
  split
  · exact spares_becomeFollower hhard m term (some leader) n h
  · exact (spares_setRole _).bind (fun _ => spares_resetDeadline m) n h

theorem spares_stepDown (m : Moment) (term : Term) :
    Spares I (do becomeFollower m term none; pure [] : NodeAction σ μ (List Outbound)) :=
  (spares_becomeFollower hhard m term none).bind fun _ => spares_pure []

theorem spares_decideVote (m : Moment) (q : VoteRequest) :
    Spares I (decideVote m q : NodeAction σ μ VoteReply) := by
  intro n h
  have hgrant : Spares I (do resetDeadline m; pure { term := n.term, granted := true } :
      NodeAction σ μ VoteReply) :=
    (spares_resetDeadline m).bind fun _ => spares_pure _
  rw [Maintains, decideVote, Action.wp_bind, Action.wp_get, Action.wp_ite]
  split
  · rw [Action.wp_ite]
    split
    · exact (spares_adopt hhard _ _).bind (fun _ => hgrant) n h
    · exact hgrant n h
  · exact h

theorem spares_onVoteRequest (m : Moment) (q : VoteRequest) :
    Spares I (onVoteRequest m q : NodeAction σ μ VoteReply) := by
  intro n h
  rw [Maintains, onVoteRequest_eq, Action.wp_bind, Action.wp_get, Action.wp_ite]
  split
  · exact h
  rw [Action.wp_bind, Action.wp_get, Action.wp_ite]
  split
  · exact (spares_becomeFollower hhard m q.term none).bind (fun _ => spares_decideVote hhard m q) n h
  · exact spares_decideVote hhard m q n h

/-! ## Elections -/

omit hhard in
/-- Who takes office adds the entry that opens its term. -/
theorem maintains_becomeLeader (h : I (kept n.log.store))
    (hopen : (Write.append [⟨n.log.lastIndex + 1, n.term, []⟩]).Preserves I) (m : Moment) :
    Maintains I (becomeLeader m) n := by
  rw [Maintains, becomeLeader, Action.wp_bind, Action.wp_get, Action.wp_bind]
  refine Action.wp_mono (Replication.wp_start_same n.peers n.log.lastIndex m.now) ?_ ?_
  · rintro r n rfl
    have happend : Maintains I (onLog (Log.appendAsLeader n.term [])) { n with role := .leader r } :=
      Maintains.onLog (Log.Maintains.appendAsLeader hopen h)
    exact Maintains.inRole h <| happend.bind fun _ => spares_advanceCommit.bind fun _ => spares_replicate m
  · rintro _ _ ⟨-, rfl⟩
    exact h

theorem maintains_startElection (h : I (kept n.log.store))
    (hopen : n.isLeader = false → (Write.append [⟨n.log.lastIndex + 1, n.term + 1, []⟩]).Preserves I)
    (m : Moment) : Maintains I (startElection m) n := by
  rw [Maintains, startElection, Action.wp_bind, Action.wp_get, Action.wp_ite]
  split
  · exact h
  rename_i hrole
  rw [Action.wp_bind, Action.wp_add]
  split
  swap
  · exact h
  rw [adopt, bind_assoc, Action.wp_bind, Action.wp_modify, Action.wp_bind, wp_onLog]
  refine Action.wp_mono (Action.wp_and (Log.wp_saveHard_memory _ _)
    (Log.Maintains.write (w := .hard ⟨n.term + 1, some n.id⟩) (hhard _) h)) ?_ fun _ _ hf => hf.2.2
  rintro - _ ⟨⟨s, rfl⟩, h'⟩
  refine Maintains.inRole h' ?_
  rw [Maintains, Action.wp_bind, resetDeadline, Action.wp_modify, Action.wp_ite]
  split
  · exact maintains_becomeLeader h' (hopen (by simpa using hrole)) m
  · exact h'

theorem maintains_onVoteReply (h : I (kept n.log.store))
    (hopen : ∀ votes, n.role = .candidate votes →
      (Write.append [⟨n.log.lastIndex + 1, n.term, []⟩]).Preserves I)
    (m : Moment) (peer : NodeId) (sentTerm : Term) (r : VoteReply) :
    Maintains I (onVoteReply m peer sentTerm r) n := by
  rw [Maintains, onVoteReply, Action.wp_bind, Action.wp_get, Action.wp_ite]
  split
  · exact spares_stepDown hhard m r.term n h
  rw [Action.wp_ite]
  split
  · exact h
  split
  · rename_i votes hrole
    dsimp only
    generalize (if votes.contains peer then votes else votes ++ [peer]) = votes'
    rw [Action.wp_bind, Action.wp_set, Action.wp_ite]
    split
    · exact maintains_becomeLeader (n := { n with role := .candidate votes' }) h (hopen votes hrole) m
    · exact h
  · exact h

/-! ## Other responses -/

theorem spares_onAppendReply (m : Moment) (peer : NodeId) (sent : AppendSent) (r : AppendReply) :
    Spares I (onAppendReply m peer sent r : NodeAction σ μ (List Outbound)) := by
  intro n h
  rw [Maintains, onAppendReply, Action.wp_bind, Action.wp_get, Action.wp_ite]
  split
  · exact spares_stepDown hhard m r.term n h
  rw [Action.wp_ite]
  split
  · exact h
  split
  · rename_i view hrole
    rw [Action.wp_ite]
    split
    · rw [Action.wp_bind]
      refine Action.wp_mono (Replication.widens_onAppendSuccess peer sent m.now) ?_ ?_
      · rintro view' n ⟨rfl, -⟩
        refine Spares.withView (spares_advanceCommit.bind fun _ => ?_) h
        split
        · exact spares_requestTo m peer
        · exact spares_pure []
      · rintro _ _ ⟨-, rfl⟩
        exact h
    · rw [Action.wp_bind]
      refine Action.wp_mono (Replication.widens_onAppendReject peer sent r.matchHint m.now) ?_ ?_
      · rintro view' n ⟨rfl, -⟩
        exact (spares_pure []).withView h
      · rintro _ _ ⟨-, rfl⟩
        exact h
  · exact h

theorem spares_onInstallReply (m : Moment) (peer : NodeId) (sentTerm : Term) (index : Index) (r : InstallReply) :
    Spares I (onInstallReply m peer sentTerm index r : NodeAction σ μ (List Outbound)) := by
  intro n h
  rw [Maintains, onInstallReply, Action.wp_bind, Action.wp_get, Action.wp_ite]
  split
  · exact spares_stepDown hhard m r.term n h
  rw [Action.wp_ite]
  split
  · exact h
  split
  · rename_i view hrole
    rw [Action.wp_bind]
    refine Action.wp_mono (Replication.widens_confirm peer index m.now) ?_ ?_
    · rintro view' n ⟨rfl, -⟩
      exact Spares.withView (spares_advanceCommit.bind fun _ => spares_requestTo m peer) h
    · rintro _ _ ⟨-, rfl⟩
      exact h
  · exact h

omit hhard in
theorem spares_onUnreachable (peer : NodeId) (sentTerm : Term) :
    Spares I (onUnreachable peer sentTerm : NodeAction σ μ Unit) := by
  intro n h
  rw [Maintains, onUnreachable, Action.wp_bind, Action.wp_get, Action.wp_ite]
  split
  · split
    · exact h
    · exact h
  · exact h

/-! ## Requests to a follower -/

theorem spares_onAppendRequest {q : AppendRequest} (hcut : ∀ i, (Write.truncate i).Preserves I)
    (happend : ∀ es, es ⊆ q.entries → (Write.append es).Preserves I) (m : Moment) :
    Spares I (onAppendRequest m q : NodeAction σ μ AppendReply) := by
  intro n h
  rw [Maintains, onAppendRequest, Action.wp_bind, Action.wp_get, Action.wp_ite]
  split
  · exact h
  refine Action.wp_seq (spares_follow hhard m q.term q.leader n h) ?_
  rintro - n₁ h₁
  have hmaintains := Log.wp_reconcile_maintains hcut happend h₁ q.prevIndex q.prevTerm q.commit
  rw [Action.wp_bind, Action.wp_get]
  split
  · rename_i hlog
    have h₂ := Action.wp_ok hmaintains hlog
    exact h₂
  · rename_i hlog
    obtain ⟨-, h₂⟩ | ⟨rfl, -⟩ := Action.wp_error hmaintains hlog
    · exact h₂
    · exact h₁
  · rename_i hlog
    obtain ⟨-, h₂⟩ | ⟨rfl, -⟩ := Action.wp_error hmaintains hlog
    · exact h₂
    · exact h₁

variable [StateMachine μ]

theorem spares_onInstallRequest {q : InstallRequest} (hcut : ∀ i, (Write.truncate i).Preserves I)
    (hinstall : (Write.install ⟨q.index, q.snapshotTerm, q.data⟩).Preserves I) (m : Moment) :
    Spares I (onInstallRequest m q : NodeAction σ μ InstallReply) := by
  intro n h
  rw [Maintains, onInstallRequest, Action.wp_bind, Action.wp_get, Action.wp_ite]
  split
  · exact h
  refine (spares_follow hhard m q.term q.leader n h).bind fun _ n₁ h₁ => ?_
  refine (Maintains.onLog (Log.Maintains.install hcut hinstall h₁)).bind fun installed n₂ h₂ => ?_
  rw [Maintains, Action.wp_ite]
  split
  · rw [Action.wp_bind, Action.wp_get]
    split
    · exact h₂
    · exact h₂
  · exact h₂

end

/-! ## Proposals, applying and compacting -/

variable [StateMachine μ]

theorem maintains_propose {command : Bytes} (h : I (kept n.log.store))
    (happend : n.isLeader = true → command.isEmpty = false → StateMachine.validate n.machine command = .ok () →
      (Write.append [⟨n.log.lastIndex + 1, n.term, command⟩]).Preserves I) :
    Maintains I (propose command) n := by
  rw [Maintains, propose, Action.wp_bind, Action.wp_get, Action.wp_ite]
  split
  · exact h
  rename_i hrole
  rw [Action.wp_ite]
  split
  · exact h
  rename_i hcommand
  split
  · exact h
  · rename_i hvalid
    refine (Maintains.onLog (Log.Maintains.appendAsLeader ?_ h)).bind fun _ => ?_
    · exact happend (by simpa using hrole) (by simpa using hcommand) hvalid
    · exact spares_advanceCommit.bind fun _ => spares_pure _

theorem spares_takeSnapshot (hinstall : ∀ snap, (Write.install snap).Preserves I) :
    Spares I (takeSnapshot : NodeAction σ μ (Option SnapshotPoint)) := by
  intro n h
  rw [Maintains, takeSnapshot, Action.wp_bind, Action.wp_get, Action.wp_ite]
  split
  · exact h
  split
  · exact h
  · exact (Maintains.onLog (Log.Maintains.compact (hinstall _) h)).bind fun _ _ h₁ => h₁

theorem spares_applyNext (count : Nat) : Spares I (applyNext count : NodeAction σ μ (List Applied)) := by
  induction count with
  | zero => exact spares_pure []
  | succ count ih =>
    intro n h
    refine (Maintains.onLog (Log.Maintains.nextCommitted h)).bind fun next n₁ h₁ => ?_
    cases next with
    | none => exact h₁
    | some e =>
      rw [Maintains, Action.wp_bind, Action.wp_modify, Action.wp_ite]
      split
      · exact ih _ h₁
      · rw [Action.wp_bind, Action.wp_get, Action.wp_bind, Action.wp_set]
        exact ih.bind (fun _ => spares_pure _) _ h₁

theorem spares_applyCommitted (hinstall : ∀ snap, (Write.install snap).Preserves I) :
    Spares I (applyCommitted : NodeAction σ μ (List Applied)) := by
  intro n h
  rw [Maintains, applyCommitted, Action.wp_bind, Action.wp_get]
  refine (spares_applyNext _).bind (fun applied n₁ h₁ => ?_) n h
  rw [Maintains, Action.wp_bind, Action.wp_get, Action.wp_ite]
  split
  · exact (spares_takeSnapshot hinstall).bind (fun _ => spares_pure applied) n₁ h₁
  · exact h₁

/-! ## Any event -/

/-- An event at which the node may win an election, and the term. -/
inductive Occasion.Wins (n : Node σ μ) : Occasion → Term → Prop
  /-- A node that stands may have won at once. -/
  | stand (hrole : n.isLeader = false) : Wins n (.act .stand) (n.term + 1)
  | count {votes : List NodeId} {peer : NodeId} {sentTerm : Term} {r : VoteReply}
      (hrole : n.role = .candidate votes) : Wins n (.response (.vote peer sentTerm r)) n.term

/-- What an event may write at a node. -/
inductive Occasion.Writes (n : Node σ μ) : Occasion → Write → Prop
  | hard {o : Occasion} (hard : HardState) : Writes n o (.hard hard)
  | opening {o : Occasion} {T : Term} (hwins : o.Wins n T) :
      Writes n o (.append [⟨n.log.lastIndex + 1, T, []⟩])
  | propose {command : Bytes} (hrole : n.isLeader = true) (hcommand : command.isEmpty = false)
      (hvalid : StateMachine.validate n.machine command = .ok ()) :
      Writes n (.act (.propose command)) (.append [⟨n.log.lastIndex + 1, n.term, command⟩])
  | follow {q : AppendRequest} {es : List Entry} (hes : es ⊆ q.entries) :
      Writes n (.request (.append q)) (.append es)
  | cut {q : AppendRequest} (i : Index) : Writes n (.request (.append q)) (.truncate i)
  | clear {q : InstallRequest} (i : Index) : Writes n (.request (.install q)) (.truncate i)
  | install {q : InstallRequest} :
      Writes n (.request (.install q)) (.install ⟨q.index, q.snapshotTerm, q.data⟩)
  | snapshot {c : Protocol.Command} (hc : c = .apply ∨ c = .snapshot) (snap : Snapshot) :
      Writes n (.act c) (.install snap)

/-- An event writes nothing else: what all these writes leave alone, the event leaves alone, however it ends. -/
theorem maintains_run {o : Occasion} (hI : ∀ w, o.Writes n w → w.Preserves I) (h : I (kept n.log.store))
    (m : Moment) : Maintains I (o.run m) n := by
  have hhard : ∀ hard, (Write.hard hard).Preserves I := fun hard => hI _ (.hard hard)
  have hmap : ∀ {γ : Type} {x : NodeAction σ μ γ}, Maintains I x n → Maintains I ((fun _ => ()) <$> x) n := by
    intro γ x hx
    rw [Maintains, Action.wp_map]
    exact hx
  cases o with
  | act c =>
    refine hmap ?_
    cases c with
    | stand => exact maintains_startElection hhard h (fun hrole => hI _ (.opening (.stand hrole))) m
    | heartbeat => exact spares_heartbeat m n h
    | replicate => exact spares_replicate m n h
    | propose command =>
      rw [Protocol.Command.run, Maintains, Action.wp_map]
      exact maintains_propose h fun hrole hcommand hvalid => hI _ (.propose hrole hcommand hvalid)
    | apply =>
      rw [Protocol.Command.run, Maintains, Action.wp_map]
      exact spares_applyCommitted (fun snap => hI _ (.snapshot (Or.inl rfl) snap)) n h
    | snapshot =>
      rw [Protocol.Command.run, Maintains, Action.wp_map]
      exact spares_takeSnapshot (fun snap => hI _ (.snapshot (Or.inr rfl) snap)) n h
  | request q =>
    refine hmap ?_
    cases q with
    | vote q => exact (spares_onVoteRequest hhard m q).bind (fun _ => spares_pure _) n h
    | append q =>
      exact (spares_onAppendRequest hhard (fun i => hI _ (.cut i)) (fun _ hes => hI _ (.follow hes)) m).bind
        (fun _ => spares_pure _) n h
    | install q =>
      exact (spares_onInstallRequest hhard (fun i => hI _ (.clear i)) (hI _ .install) m).bind
        (fun _ => spares_pure _) n h
  | response r =>
    refine hmap ?_
    cases r with
    | vote peer sentTerm r =>
      exact maintains_onVoteReply hhard h (fun _ hrole => hI _ (.opening (.count hrole))) m peer sentTerm r
    | append peer sent r => exact spares_onAppendReply hhard m peer sent r n h
    | install peer sentTerm index r => exact spares_onInstallReply hhard m peer sentTerm index r n h
    | unreachable peer sentTerm => exact (spares_onUnreachable peer sentTerm).bind (fun _ => spares_pure []) n h

/-- A node that boots takes entries away at most. -/
theorem wp_boot_maintains (hcut : ∀ i, (Write.truncate i).Preserves I) {s : σ} (h : I (kept s)) (i : NodeId)
    (peers : List NodeId) (machine : μ) (config : Config) (m : Moment) :
    wp (boot i peers machine config m) (fun n _ => I (kept n.log.store)) (fun _ t => I (kept t)) s := by
  rw [boot, Action.wp_bind]
  refine Action.wp_imp (Log.wp_boot_maintains hcut h) ?_
  rintro r t ⟨rfl, h', -⟩
  split
  · rename_i hn
    obtain ⟨machine', -, rfl⟩ := ofRecovered_ok hn
    exact h'
  · exact h'

end Node

/-! ## Turns of a member -/

namespace Protocol

variable {σ μ : Type} [LogStore σ] [LawfulStore σ] [StateMachine μ] {i : NodeId}
  {event : Option (Moment × Node.Occasion)} {before after : Life σ μ}

/-- A turn takes stored entries away at most, or it makes the writes of the event. -/
theorem Turn.stored (hturn : Turn event i before after) :
    (kept (storeOf after)).entries ⊆ (kept (storeOf before)).entries ∨
      ∃ m o n, event = some (m, o) ∧ before = .up n ∧ ∀ I, (∀ w, o.Writes n w → w.Preserves I) →
        I (kept n.log.store) → I (kept (storeOf after)) := by
  have hcut : ∀ j, (Write.truncate j).Preserves fun p => ∀ e ∈ p.entries, e ∈ (kept (storeOf before)).entries :=
    fun j => Write.preserves_entries (by rintro es ⟨⟩)
  cases hturn with
  | rest | crash => exact Or.inl fun _ he => he
  | @disturb _ store hstore =>
    have hsame : storeOf (withStore store before) = store := by cases before <;> rfl
    exact Or.inl fun e he => by rwa [hsame, hstore] at he
  | boot hboot =>
    have hless := Action.wp_ok (Node.wp_boot_maintains hcut (fun _ he => he) _ _ _ _ _) hboot
    exact Or.inl hless
  | refuse hboot =>
    have hless := Action.wp_error (Node.wp_boot_maintains hcut (fun _ he => he) _ _ _ _ _) hboot
    exact Or.inl hless
  | @go n n' m o ho hrun =>
    refine Or.inr ⟨m, o, n, ho, rfl, fun I hI h => ?_⟩
    obtain hok | ⟨f, -, herror⟩ := hrun
    · exact Action.wp_ok (Node.maintains_run hI h m) hok
    · exact Action.wp_error (Node.maintains_run hI h m) herror
  | @halt n n' m o f ho _ hrun =>
    exact Or.inr ⟨m, o, n, ho, rfl, fun I hI h => Action.wp_error (Node.maintains_run hI h m) hrun⟩

end Protocol

end RaftNode
