import RaftNode.Proofs.Following
import RaftNode.Proofs.Machines
import RaftNode.Proofs.Reliable
import RaftNode.Proofs.Steps
/-!
# What never stops a node

Over a reliable store a node goes on after every event. The term it asks for is in its log, a snapshot is there
whenever entries are gone, and every snapshot gives a machine; what is left is a number that leaves the 64 bits.
-/
namespace RaftNode

open RaftNode.Action (wp)
open History (Sound Moves)

/-! ## Snapshots that give a machine -/

/-- A text that a machine wrote of itself. -/
def Describes (μ : Type) [StateMachine μ] [LawfulMachine μ] (data : Bytes) : Prop :=
  ∃ m : μ, Fit m ∧ StateMachine.snapshot m = data

def Persisted.Describes (μ : Type) [StateMachine μ] [LawfulMachine μ] (p : Persisted) : Prop :=
  ∀ snap, p.snapshot = some snap → RaftNode.Describes μ snap.data

/-- What a message brings along gives a machine. -/
def Request.Describes (μ : Type) [StateMachine μ] [LawfulMachine μ] : Request → Prop
  | .install q => RaftNode.Describes μ q.data
  | .vote _ | .append _ => True

variable {σ μ : Type} [StateMachine μ] [LawfulMachine μ]

theorem Describes.restore {data : Bytes} (h : Describes μ data) (old : μ) :
    ∃ m, StateMachine.restore old data = .ok m ∧ Fit m := by
  obtain ⟨m, hm, rfl⟩ := h
  exact ⟨m, LawfulMachine.restore old hm, hm⟩

theorem Persisted.steady_describes :
    Persisted.Steady (Persisted.Describes μ) fun snap => RaftNode.Describes μ snap.data :=
  Persisted.steady_snapshot fun snap => RaftNode.Describes μ snap.data

theorem Write.preserves_describes (hard : HardState) :
    (Write.hard hard).Preserves (Persisted.Describes μ) :=
  Write.preserves_snapshot (fun snap => RaftNode.Describes μ snap.data) hard

variable [LogStore σ] [LawfulStore σ] {members : Finset NodeId} {h h' : History} {i s : NodeId}
  {n n' : Node σ μ} {X : Prop} {α β : Type}

namespace Node

/-- The machine, and the snapshot that is kept, can be handed on. -/
structure Sane (n : Node σ μ) : Prop where
  machine : Fit n.machine
  snapshot : (kept n.log.store).Describes μ

/-- How an event may end: the node is sane, and if its store is reliable it goes on, or `X` cuts the event short. -/
def Fares (X : Prop) (x : NodeAction σ μ α) (Q : α → Node σ μ → Prop) (n : Node σ μ) : Prop :=
  wp x (fun a n' => n'.Sane ∧ (Reliable n.log.store → Reliable n'.log.store) ∧ Q a n')
    (fun f n' => (kept n'.log.store).Describes μ ∧ (Reliable n.log.store → f.Mild X)) n

variable {x : NodeAction σ μ α} {f : α → NodeAction σ μ β} {R P : α → Node σ μ → Prop}
  {Q : β → Node σ μ → Prop} {E : Fault NodeError → Node σ μ → Prop}

theorem Fares.pure {a : α} (hn : n.Sane) (ha : P a n) : Fares X (pure a) P n :=
  ⟨hn, fun hs => hs, ha⟩

theorem Fares.mono {P' : α → Node σ μ → Prop} (hx : Fares X x P n)
    (hP : ∀ a n', P a n' → P' a n') : Fares X x P' n :=
  Action.wp_imp hx fun _ _ ⟨hn, hs, ha⟩ => ⟨hn, hs, hP _ _ ha⟩

/-- The rest of an event, from a node that the event has reached. -/
theorem Fares.after {n₁ : Node σ μ} (hs : Reliable n.log.store → Reliable n₁.log.store)
    (hx : Fares X x P n₁) :
    wp x (fun a n' => n'.Sane ∧ (Reliable n.log.store → Reliable n'.log.store) ∧ P a n')
      (fun f n' => (kept n'.log.store).Describes μ ∧ (Reliable n.log.store → f.Mild X)) n₁ :=
  Action.wp_mono hx (fun _ _ ⟨hn, hr, ha⟩ => ⟨hn, hr ∘ hs, ha⟩) fun _ _ ⟨hd, hr⟩ => ⟨hd, hr ∘ hs⟩

/-- What else is known of the first step is known to the rest. -/
theorem Fares.bind (hv : wp x R E n) (hx : Fares X x P n)
    (hf : ∀ a n', R a n' → n'.Sane → P a n' → Fares X (f a) Q n') : Fares X (x >>= f) Q n := by
  refine Action.wp_seq (Action.wp_mono (Action.wp_and hv hx) (fun _ _ hq => hq)
    fun _ _ he => he.2) ?_
  rintro a n' ⟨hR, hn', hs, hP⟩
  exact (hf a n' hR hn' hP).after hs

theorem Fares.seq (hx : Fares X x P n) (hf : ∀ a n', n'.Sane → P a n' → Fares X (f a) Q n') :
    Fares X (x >>= f) Q n :=
  Fares.bind (Action.wp_trivial x n) hx fun a n' _ => hf a n'

/-- A step that leaves the node as it is. -/
theorem Fares.reading {R : α → Prop} (hn : n.Sane) (hv : wp x (fun a n' => n' = n ∧ R a) E n)
    (hx : wp x (fun _ _ => True) (fun f n' => f.Mild X ∧ n' = n) n)
    (hf : ∀ a, R a → Fares X (f a) Q n) : Fares X (x >>= f) Q n := by
  refine Action.wp_seq (Action.wp_mono (Action.wp_and hv hx) (fun _ _ hq => hq.1) ?_) ?_
  · rintro fault n' ⟨-, hfault, rfl⟩
    exact ⟨hn.snapshot, fun _ => hfault⟩
  · rintro a n' ⟨rfl, ha⟩
    exact hf a ha

/-- An operation of the log. -/
theorem Fares.onLog {op : LogAction σ α} (hn : n.Sane)
    (hop : Log.Maintains (Persisted.Describes μ) op n.log)
    (hc : Reliable n.log.store → Log.Completes X op n.log) :
    Fares X (Node.onLog op) (fun _ _ => True) n := by
  rw [Fares, wp_onLog]
  refine Action.wp_mono (Action.wp_and (Action.wp_self op n.log) hop) ?_ ?_
  · rintro a log ⟨hlog, hd⟩
    exact ⟨⟨hn.machine, hd⟩, fun hs => (hc hs).ok hlog, trivial⟩
  · rintro f log ⟨hlog, -, hd⟩
    exact ⟨hd, fun hs => (hc hs).error hlog⟩

/-! ## Term, vote and role -/

/-- The log is the same but for term and vote in its store. -/
def SameLog (n n' : Node σ μ) : Prop := n'.log = { n.log with store := n'.log.store }

theorem fares_adopt (hn : n.Sane) (term : Term) (vote : Option NodeId) :
    Fares X (adopt term vote) (fun _ n' => n.SameLog n') n := by
  rw [Fares, adopt, Action.wp_bind, Action.wp_modify, wp_onLog]
  have hsave : Log.Maintains (Persisted.Describes μ) (Log.saveHard ⟨term, vote⟩) n.log :=
    .write (Write.preserves_describes _) hn.snapshot
  have hsame : wp (Log.saveHard ⟨term, vote⟩) (fun _ l => l = { n.log with store := l.store })
      (fun _ _ => True) n.log := Log.wp_write (.hard _) (fun _ _ => rfl) fun _ _ _ _ => trivial
  refine Action.wp_mono (Action.wp_and (Action.wp_self (Log.saveHard _) n.log)
    (Action.wp_and hsave hsame)) ?_ ?_
  · rintro _ log ⟨hlog, hd, he⟩
    exact ⟨⟨hn.machine, hd⟩, fun hs => (Log.completes_saveHard (X := X) hs _).ok hlog, he⟩
  · rintro f log ⟨hlog, ⟨-, hd⟩, -⟩
    exact ⟨hd, fun hs => (Log.completes_saveHard hs _).error hlog⟩

theorem fares_becomeFollower (hn : n.Sane) (m : Moment) (term : Term) (leader : Option NodeId) :
    Fares X (becomeFollower m term leader) (fun _ n' => n.SameLog n') n := by
  have hrest : ∀ n' : Node σ μ, n'.Sane → n.SameLog n' → Fares X
      (do Node.setRole (.follower leader); Node.resetDeadline m) (fun _ n' => n.SameLog n') n' := by
    intro n' hn' hlog
    rw [Fares, Action.wp_bind, wp_setRole (mayBecome_follower _), resetDeadline, Action.wp_modify]
    exact ⟨⟨hn'.machine, hn'.snapshot⟩, fun hs => hs, hlog⟩
  rw [Fares, becomeFollower, Action.wp_bind, Action.wp_get, Action.wp_ite]
  split
  · exact (fares_adopt hn term none).seq fun _ => hrest
  · exact hrest n hn rfl

theorem fares_follow (hn : n.Sane) (m : Moment) (term : Term) (leader : NodeId) :
    Fares X (follow m term leader) (fun _ n' => n.SameLog n') n := by
  rw [Fares, follow, Action.wp_bind, Action.wp_get, Action.wp_ite]
  split
  · exact fares_becomeFollower hn m term (some leader)
  · rw [Action.wp_bind, wp_setRole (mayBecome_follower _), resetDeadline, Action.wp_modify]
    exact ⟨⟨hn.machine, hn.snapshot⟩, fun hs => hs, rfl⟩

end Node

/-! ## Requests of a leader -/

/-- Everything that is sent may be installed. -/
def Portable (μ : Type) [StateMachine μ] [LawfulMachine μ] (qs : List Outbound) : Prop :=
  ∀ q ∈ qs, q.request.Describes μ

theorem portable_nil : Portable μ [] := List.forall_mem_nil _

/-- The snapshot is there whenever entries are gone, and the term before the next entry is in the log. -/
theorem Keeps.requestAt_serves (hk : Keeps members h i n) (hn : n.Sane) {next : Index}
    (hpos : 0 < next) (hle : next ≤ (h.log i).length + 1) (most : Nat) :
    (∀ q, Replication.requestAt next n.log n.term n.id most = .ok q → q.Describes μ) ∧
      (Reliable n.log.store → ∀ e, Replication.requestAt next n.log n.term n.id most ≠ .error e) := by
  unfold Replication.requestAt
  split
  · rename_i hcovered
    refine ⟨fun q hq => ?_, fun hs e he => ?_⟩
    · cases hload : n.log.loadSnapshot with
      | error e => simp only [hload] at hq; cases hq
      | ok o =>
        cases o with
        | none => simp only [hload] at hq; cases hq
        | some snap =>
          simp only [hload] at hq
          cases hq
          exact hn.snapshot snap (Log.loadSnapshot_kept hload)
    · -- entries before the next one are gone, so there is a snapshot
      have hload : n.log.loadSnapshot = .ok (kept n.log.store).snapshot := by
        rw [Log.loadSnapshot, hs.serves.loadSnapshot]
        rfl
      cases hsnap : (kept n.log.store).snapshot with
      | none =>
        have := hk.log.snapshotIndex
        simp only [Persisted.covered, hsnap] at this
        dsimp only [Option.map_none, Option.getD_none] at this
        lia
      | some snap =>
        rw [hsnap] at hload
        simp only [hload] at he
        cases he
  · rename_i hnext
    have hterm : n.log.termAt? (next - 1) = some (endTerm ((h.log i).take (next - 1))) :=
      hk.log.termAt?_eq_some.mpr ⟨by lia, by lia, rfl⟩
    simp only [hterm]
    refine ⟨fun q hq => ?_, fun _ e he => ?_⟩
    · cases hq
      trivial
    · cases he

theorem Keeps.nextRequest_serves (hk : Keeps members h i n) (hn : n.Sane) {r : Replication}
    (hg : Governs h i n.term n.peers r) (peer : NodeId) (most now lostAfter : Nat) :
    (∀ q r', r.nextRequest peer n.log n.term n.id most now lostAfter = .ok (some (q, r')) →
      q.request.Describes μ) ∧
    (Reliable n.log.store → ∀ e,
      r.nextRequest peer n.log n.term n.id most now lostAfter ≠ .error e) := by
  unfold Replication.nextRequest
  cases hp : r.find? peer with
  | none => exact ⟨nofun, fun _ _ => nofun⟩
  | some p =>
    have htracks := hg.tracks _ (Replication.mem_of_find? hp)
    obtain ⟨hok, hserves⟩ := hk.requestAt_serves hn (Nat.zero_lt_of_lt htracks.ahead)
      htracks.within most
    dsimp only
    split
    · exact ⟨nofun, fun _ _ => nofun⟩
    · split
      · rename_i e he
        exact ⟨nofun, fun hs => absurd he (hserves hs e)⟩
      · rename_i request hq
        refine ⟨fun q r' heq => ?_, fun _ _ => nofun⟩
        obtain ⟨rfl, -⟩ := Prod.mk.inj (Option.some.inj (Except.ok.inj heq))
        exact hok _ hq

namespace Runs

theorem fares_requestFor (hr : Runs members h i n) (hn : n.Sane) (m : Moment) (peer : NodeId) :
    Node.Fares X (Node.requestFor m peer) (fun o _ => Portable μ o.toList) n := by
  rw [Node.Fares, Node.requestFor, Action.wp_bind, Action.wp_get]
  split
  · rename_i r hrole
    obtain ⟨hok, hserves⟩ := hr.nextRequest_serves hn (hr.leads hrole) peer n.config.maxEntries
      m.now n.config.electionMax
    split
    · rename_i e he
      exact ⟨hn.snapshot, fun hs => absurd he (hserves hs e)⟩
    · exact ⟨hn, fun hs => hs, portable_nil⟩
    · rename_i q r' hq
      refine ⟨⟨hn.machine, hn.snapshot⟩, fun hs => hs, fun q' hq' => ?_⟩
      rw [List.mem_singleton.mp hq']
      exact hok q r' hq
  · exact ⟨hn, fun hs => hs, portable_nil⟩

theorem fares_requestTo (hr : Runs members h i n) (hn : n.Sane) (m : Moment) (peer : NodeId) :
    Node.Fares X (do pure (← Node.requestFor m peer).toList) (fun qs _ => Portable μ qs) n :=
  (hr.fares_requestFor hn m peer).seq fun _ _ hn' ho => .pure hn' ho

theorem fares_requestsFor (hs : Sound members h) (m : Moment) (names : List NodeId)
    (hr : Runs members h i n) (hn : n.Sane) :
    Node.Fares X (Node.requestsFor m names) (fun qs _ => Portable μ qs) n := by
  induction names generalizing n with
  | nil => exact .pure hn portable_nil
  | cons peer rest ih =>
    refine .bind (hr.wp_requestFor hs m peer) (hr.fares_requestFor hn m peer) ?_
    rintro o n₁ ⟨hr₁, -⟩ hn₁ ho
    refine (ih hr₁ hn₁).seq fun qs n₂ hn₂ hqs => .pure hn₂ fun q hq => ?_
    rcases List.mem_append.mp hq with hq | hq
    · exact ho q hq
    · exact hqs q hq

theorem fares_replicate (hs : Sound members h) (hr : Runs members h i n) (hn : n.Sane)
    (m : Moment) : Node.Fares X (Node.replicate m) (fun qs _ => Portable μ qs) n := by
  rw [Node.Fares, Node.replicate, Action.wp_bind, Action.wp_get]
  exact fares_requestsFor hs m n.peers hr hn

theorem fares_heartbeat (hs : Sound members h) (hr : Runs members h i n) (hn : n.Sane)
    (m : Moment) : Node.Fares X (Node.heartbeat m) (fun qs _ => Portable μ qs) n := by
  rw [Node.Fares, Node.heartbeat, Action.wp_bind, Action.wp_get]
  split
  · rename_i r hrole
    rw [Action.wp_bind, Action.wp_set]
    have hg := hr.leads hrole
    exact fares_replicate hs (hr.withLeader (r := (r.checkQuorum m.now n.config.electionMax).2)
      ⟨hg.office, hg.peers, hg.tracks, hg.own⟩) ⟨hn.machine, hn.snapshot⟩ m
  · exact ⟨hn, fun hs => hs, portable_nil⟩

/-! ## Committing and appending -/

/-- The index to be committed is one that the log has. -/
theorem fares_advanceCommit (hr : Runs members h i n) (hn : n.Sane) :
    Node.Fares X Node.advanceCommit (fun _ _ => True) n := by
  rw [Node.Fares, Node.advanceCommit, Action.wp_bind, Action.wp_get]
  split
  · rename_i r hrole
    rw [Action.wp_ite]
    split
    · rename_i hnew
      simp only [Bool.and_eq_true, decide_eq_true_eq] at hnew
      obtain ⟨-, hle, -⟩ := hr.log.termAt?_eq_some.mp hnew.2
      exact Node.Fares.onLog hn (.setCommitIndex hn.snapshot _)
        fun hl => hr.log.wp_setCommitIndex hle hl
    · exact ⟨hn, fun hs => hs, trivial⟩
  · exact ⟨hn, fun hs => hs, trivial⟩

theorem fares_append (hr : Runs members h i n) (hn : n.Sane)
    (hX : wordLimit ≤ n.log.lastIndex + 1 → X) (command : Bytes) :
    Node.Fares X (Node.onLog (Log.appendAsLeader n.term command)) (fun _ _ => True) n :=
  Node.Fares.onLog hn (.appendAsLeader (Persisted.steady_describes.append _) hn.snapshot) fun hl =>
    hr.log.completes_appendAsLeader hl (hr.log.lastIndex ▸ hX) _ _

theorem fares_propose (hs : Sound members h) (hr : Runs members h i n) (hn : n.Sane)
    (hX : wordLimit ≤ n.log.lastIndex + 1 → X) (command : Bytes) :
    Node.Fares X (Node.propose command) (fun _ _ => True) n := by
  rw [Node.Fares, Node.propose, Action.wp_bind, Action.wp_get, Action.wp_ite]
  split
  · exact ⟨hn.snapshot, fun _ => Or.inl rfl⟩
  rename_i hleader
  rw [Action.wp_ite]
  split
  · exact ⟨hn.snapshot, fun _ => Or.inl rfl⟩
  split
  · exact ⟨hn.snapshot, fun _ => Or.inl rfl⟩
  obtain ⟨r, hrole⟩ : ∃ r, n.role = .leader r := by
    unfold Node.isLeader at hleader
    cases hrole : n.role <;> simp_all [Role.kind]
  refine Node.Fares.bind (hr.append hs hrole command) (hr.fares_append hn hX command) ?_
  rintro index n' ⟨h', hm, hr', -⟩ hn' -
  exact (hr'.fares_advanceCommit hn').seq fun _ _ hn'' _ => .pure hn'' trivial

end Runs

/-! ## Taking office -/

omit [StateMachine μ] [LawfulMachine μ] [LogStore σ] [LawfulStore σ] in
theorem Replication.wp_start_mild (peers : List NodeId) (last now : Nat)
    (hX : wordLimit ≤ last + 1 → X) : wp (Replication.start peers last now)
      (fun _ _ => True) (fun f n' => f.Mild X ∧ n' = n) n := by
  simp only [Replication.start, Action.wp_ite, Action.wp_bind, Action.wp_add, Action.wp_pure]
  split
  · trivial
  · split
    · trivial
    · exact ⟨mild_abort (hX (by lia)), trivial⟩

theorem Keeps.fares_becomeLeader (hs : Sound members h) (hk : Keeps members h i n)
    {votes : List NodeId} (hc : Campaigns members h i n.term votes)
    (hmajority : n.hasMajority votes.length) (hn : n.Sane) (hrole : n.role.kind = .candidate)
    (hX : wordLimit ≤ n.log.lastIndex + 1 → X) (m : Moment) :
    Node.Fares X (Node.becomeLeader m) (fun qs _ => Portable μ qs) n := by
  obtain ⟨h₁, hm₁, hk₁, hoffice, hown⟩ := hk.elect hs hc hmajority
  rw [Node.Fares, Node.becomeLeader, Action.wp_bind, Action.wp_get]
  refine Node.Fares.reading hn (hk₁.wp_start hm₁.sound _ _) (Replication.wp_start_mild _ _ _ hX) ?_
  rintro r ⟨hpeers, hstart⟩
  rw [Node.Fares, Action.wp_bind, Node.wp_setRole (by rw [hrole]; rfl)]
  have hr := hk₁.inOffice hoffice hown hpeers hstart
  have hn' : Node.Sane { n with role := .leader r } := ⟨hn.machine, hn.snapshot⟩
  refine Node.Fares.bind (hr.append hm₁.sound rfl []) (hr.fares_append hn' hX []) ?_
  rintro _ n₂ ⟨h₂, hm₂, hr₂, -⟩ hn₂ -
  refine Node.Fares.bind (hr₂.wp_advanceCommit hm₂.sound) (hr₂.fares_advanceCommit hn₂) ?_
  exact fun _ _ hr₃ hn₃ _ => Runs.fares_replicate hm₂.sound hr₃ hn₃ m

namespace Runs

/-! ## Elections -/

theorem fares_startElection (hs : Sound members h) (hr : Runs members h i n) (hn : n.Sane)
    (hT : wordLimit ≤ n.term + 1 → X) (hX : wordLimit ≤ n.log.lastIndex + 1 → X) (m : Moment) :
    Node.Fares X (Node.startElection m) (fun qs _ => Portable μ qs) n := by
  rw [Node.Fares, Node.startElection, Action.wp_bind, Action.wp_get, Action.wp_ite]
  split
  · exact ⟨hn, fun hs => hs, portable_nil⟩
  rename_i hleader
  rw [Action.wp_bind, Action.wp_add]
  split
  swap
  · exact ⟨hn.snapshot, fun _ => mild_abort (hT (by lia))⟩
  obtain ⟨h₁, hm, hlog, hterm, hc⟩ := hr.toKeeps.stand hs
  have hadopt := hr.wp_adopt hs hm hlog hterm
  rw [hc.self] at hadopt
  rw [hr.id]
  refine Node.Fares.bind hadopt (Node.fares_adopt hn _ _) ?_
  rintro - n₁ ⟨hk, hrole, ht⟩ hn₁ hsame
  have hmay : n₁.role.kind.mayBecome .candidate = true := by
    rw [hrole]
    exact Node.mayBecome_candidate (by simpa using hleader)
  rw [Node.Fares, Action.wp_bind, Node.wp_setRole hmay, Action.wp_bind, Node.resetDeadline,
    Action.wp_modify, Action.wp_ite]
  have hk₂ : Keeps members h₁ i
      { n₁ with role := .candidate [i], electionDeadline := n₁.config.deadline m } := { hk with }
  split
  · rename_i hmajority
    refine hk₂.fares_becomeLeader hm.sound (by rwa [ht]) ?_ ⟨hn₁.machine, hn₁.snapshot⟩ rfl ?_ m
    · unfold Node.hasMajority at *
      rwa [← hk₂.card, hr.card]
    · rw [Node.SameLog] at hsame
      dsimp only
      rw [hsame]
      exact hX
  · refine ⟨⟨hn₁.machine, hn₁.snapshot⟩, fun hs => hs, fun q hq => ?_⟩
    obtain ⟨peer, -, rfl⟩ := List.mem_map.mp hq
    trivial

end Runs

theorem Node.fares_decideVote (hn : n.Sane) (m : Moment) (q : VoteRequest) :
    Node.Fares X (Node.decideVote m q) (fun _ _ => True) n := by
  rw [Node.Fares, Node.decideVote, Action.wp_bind, Action.wp_get, Action.wp_ite]
  split
  · simp only [Action.wp_ite]
    split
    · refine (Node.fares_adopt hn _ _).seq fun _ n' hn' _ => ?_
      exact ⟨⟨hn'.machine, hn'.snapshot⟩, fun hs => hs, trivial⟩
    · exact ⟨⟨hn.machine, hn.snapshot⟩, fun hs => hs, trivial⟩
  · exact ⟨hn, fun hs => hs, trivial⟩

theorem Node.fares_onVoteRequest (hn : n.Sane) (m : Moment) (q : VoteRequest) :
    Node.Fares X (Node.onVoteRequest m q) (fun _ _ => True) n := by
  rw [Node.Fares, Node.onVoteRequest_eq, Action.wp_bind, Action.wp_get, Action.wp_ite]
  split
  · exact ⟨hn, fun hs => hs, trivial⟩
  rw [Action.wp_bind, Action.wp_get, Action.wp_ite]
  split
  · exact (Node.fares_becomeFollower hn m q.term none).seq fun _ _ hn' _ =>
      Node.fares_decideVote hn' m q
  · exact Node.fares_decideVote hn m q

theorem Node.fares_stepDown (hn : n.Sane) (m : Moment) (term : Term) :
    Node.Fares X (do Node.becomeFollower m term none; pure ([] : List Outbound))
      (fun qs _ => Portable μ qs) n :=
  (Node.fares_becomeFollower hn m term none).seq fun _ _ hn' _ => .pure hn' portable_nil

namespace Runs

theorem fares_onVoteReply (hs : Sound members h) (hr : Runs members h i n) (hn : n.Sane)
    (hX : wordLimit ≤ n.log.lastIndex + 1 → X) (m : Moment) {peer : NodeId} {sentTerm : Term}
    {r : VoteReply} (hl : Learns members h i (.vote peer sentTerm r)) :
    Node.Fares X (Node.onVoteReply m peer sentTerm r) (fun qs _ => Portable μ qs) n := by
  rw [Node.Fares, Node.onVoteReply, Action.wp_bind, Action.wp_get, Action.wp_ite]
  split
  · exact Node.fares_stepDown hn m r.term
  rw [Action.wp_ite]
  split
  · exact ⟨hn, fun hs => hs, portable_nil⟩
  rename_i hcounts
  simp only [Bool.or_eq_true, decide_eq_true_eq, Bool.not_eq_true', not_or, not_not] at hcounts
  split
  · rename_i votes hrole
    have hc : Campaigns members h i n.term votes := by
      have := hr.role
      rwa [Holds, hrole] at this
    obtain ⟨hpeer, hvote⟩ := hl (by simpa using hcounts.2)
    rw [hcounts.1] at hvote
    have hc' := hc.count hpeer hvote
    dsimp only
    generalize (if votes.contains peer then votes else votes ++ [peer]) = votes' at hc' ⊢
    rw [Action.wp_bind, Action.wp_set, Action.wp_ite]
    have hk : Keeps members h i { n with role := .candidate votes' } := { hr.toKeeps with }
    split
    · rename_i hmajority
      exact hk.fares_becomeLeader hs hc' hmajority ⟨hn.machine, hn.snapshot⟩ rfl hX m
    · exact ⟨⟨hn.machine, hn.snapshot⟩, fun hs => hs, portable_nil⟩
  · exact ⟨hn, fun hs => hs, portable_nil⟩

end Runs

/-! ## Answers -/

namespace Governs

variable {r : Replication} {peer : NodeId} {index : Index} {sent : AppendSent}

omit [StateMachine μ] [LawfulMachine μ] in
/-- What a peer has acknowledged is in the leader's log. -/
theorem acked_le (hs : Sound members h) (hk : Keeps members h i n)
    (hg : Governs h i n.term n.peers r) (peer : NodeId) : h.acked peer n.term ≤ n.log.lastIndex := by
  rw [hk.log.lastIndex, hk.log_eq_led hs hg.office]
  exact hs.acks.within peer n.term

omit [StateMachine μ] [LawfulMachine μ] in
theorem wp_confirm_mild (hs : Sound members h) (hk : Keeps members h i n)
    (hg : Governs h i n.term n.peers r) (hX : wordLimit ≤ n.log.lastIndex + 1 → X)
    (hack : index ≤ h.acked peer n.term) (now : Nat) : wp (r.confirm peer index now)
      (fun _ _ => True) (fun f n' => f.Mild X ∧ n' = n) n := by
  have hle := hg.acked_le hs hk peer
  unfold Replication.confirm
  split
  · trivial
  · rename_i p hp
    have hmatched := (hg.tracks _ (Replication.mem_of_find? hp)).matched
    simp only [Action.wp_bind, Action.wp_add, Action.wp_pure]
    split
    · trivial
    · exact ⟨mild_abort (hX (by lia)), trivial⟩

omit [StateMachine μ] [LawfulMachine μ] in
theorem wp_onAppendSuccess_mild (hs : Sound members h) (hk : Keeps members h i n)
    (hg : Governs h i n.term n.peers r) (hX : wordLimit ≤ n.log.lastIndex + 1 → X)
    (hack : sent.prevIndex + sent.count ≤ h.acked peer n.term) (now : Nat) :
    wp (r.onAppendSuccess peer sent now) (fun _ _ => True) (fun f n' => f.Mild X ∧ n' = n) n := by
  have hle := hg.acked_le hs hk peer
  simp only [Replication.onAppendSuccess, Replication.lastSent, Action.wp_ite, Action.wp_bind,
    Action.wp_add, Action.wp_pure]
  split
  · trivial
  · split
    · exact hg.wp_confirm_mild hs hk hX hack now
    · exact ⟨mild_abort (hX (by lia)), trivial⟩

omit [StateMachine μ] [LawfulMachine μ] in
theorem wp_onAppendReject_mild (hs : Sound members h) (hk : Keeps members h i n)
    (hg : Governs h i n.term n.peers r) (hX : wordLimit ≤ n.log.lastIndex + 1 → X)
    {reply : AppendReply} (hl : Acknowledges h peer sent reply) (hterm : sent.term = n.term)
    (now : Nat) : wp (r.onAppendReject peer sent reply.matchHint now)
      (fun _ _ => True) (fun f n' => f.Mild X ∧ n' = n) n := by
  have hwithin : sent.prevIndex ≤ n.log.lastIndex := by
    rw [hk.log.lastIndex, hk.log_eq_led hs hg.office, ← hterm]
    exact hl.within
  unfold Replication.onAppendReject
  split
  · trivial
  · rename_i p hp
    have hle := hg.acked_le hs hk peer
    have hmatched := (hg.tracks _ (Replication.mem_of_find? hp)).matched
    cases hhint : reply.matchHint with
    | none =>
      simp only [Action.wp_bind, Action.wp_add, Action.wp_pure]
      split
      · trivial
      · exact ⟨mild_abort (hX (by lia)), trivial⟩
    | some hint =>
      have hback := hl.hint hint hhint
      simp only [Action.wp_bind, Action.wp_add, Action.wp_pure]
      split
      · split
        · trivial
        · exact ⟨mild_abort (hX (by lia)), trivial⟩
      · exact ⟨mild_abort (hX (by lia)), trivial⟩

end Governs

namespace Runs

theorem fares_onAppendReply (hs : Sound members h) (hr : Runs members h i n) (hn : n.Sane)
    (hX : wordLimit ≤ n.log.lastIndex + 1 → X) (m : Moment) {peer : NodeId} {sent : AppendSent}
    {r : AppendReply} (hl : Learns members h i (.append peer sent r)) :
    Node.Fares X (Node.onAppendReply m peer sent r) (fun qs _ => Portable μ qs) n := by
  rw [Node.Fares, Node.onAppendReply, Action.wp_bind, Action.wp_get, Action.wp_ite]
  split
  · exact Node.fares_stepDown hn m r.term
  rw [Action.wp_ite]
  split
  · exact ⟨hn, fun hs => hs, portable_nil⟩
  rename_i hterm
  split
  · rename_i view hrole
    have hg := hr.leads hrole
    rw [Action.wp_ite]
    split
    · rename_i hsuccess
      have hack : sent.prevIndex + sent.count ≤ h.acked peer n.term := by
        have := hl.success hsuccess
        rwa [not_not.mp hterm] at this
      refine Node.Fares.reading hn (hg.wp_onAppendSuccess hs hr.toKeeps hack)
        (hg.wp_onAppendSuccess_mild hs hr.toKeeps hX hack m.now) fun view' hg' => ?_
      have hr₁ := hr.withLeader hg'
      have hn₁ : Node.Sane { n with role := .leader view' } := ⟨hn.machine, hn.snapshot⟩
      rw [Node.Fares, Action.wp_bind, Action.wp_set]
      refine Node.Fares.bind (hr₁.wp_advanceCommit hs) (hr₁.fares_advanceCommit hn₁) ?_
      rintro - n₂ hr₂ hn₂ -
      rw [Node.Fares, Action.wp_ite]
      split
      · exact hr₂.fares_requestTo hn₂ m peer
      · exact ⟨hn₂, fun hs => hs, portable_nil⟩
    · refine Node.Fares.reading hn
        (hg.wp_onAppendReject hs hr.toKeeps hl (not_not.mp hterm) m.now)
        (hg.wp_onAppendReject_mild hs hr.toKeeps hX hl (not_not.mp hterm) m.now) fun view' _ => ?_
      exact ⟨⟨hn.machine, hn.snapshot⟩, fun hs => hs, portable_nil⟩
  · exact ⟨hn, fun hs => hs, portable_nil⟩

theorem fares_onInstallReply (hs : Sound members h) (hr : Runs members h i n) (hn : n.Sane)
    (hX : wordLimit ≤ n.log.lastIndex + 1 → X) (m : Moment) {peer : NodeId} {sentTerm : Term}
    {index : Index} {r : InstallReply}
    (hl : Learns members h i (.install peer sentTerm index r)) :
    Node.Fares X (Node.onInstallReply m peer sentTerm index r) (fun qs _ => Portable μ qs) n := by
  rw [Node.Fares, Node.onInstallReply, Action.wp_bind, Action.wp_get, Action.wp_ite]
  split
  · exact Node.fares_stepDown hn m r.term
  rw [Action.wp_ite]
  split
  · exact ⟨hn, fun hs => hs, portable_nil⟩
  rename_i hterm
  split
  · rename_i view hrole
    have hg := hr.leads hrole
    have hack : index ≤ h.acked peer n.term := by
      have := hl (by lia)
      rwa [not_not.mp hterm] at this
    refine Node.Fares.reading hn (hg.wp_confirm hs hr.toKeeps hack)
      (hg.wp_confirm_mild hs hr.toKeeps hX hack m.now) fun view' hg' => ?_
    have hr₁ := hr.withLeader hg'
    have hn₁ : Node.Sane { n with role := .leader view' } := ⟨hn.machine, hn.snapshot⟩
    rw [Node.Fares, Action.wp_bind, Action.wp_set]
    refine Node.Fares.bind (hr₁.wp_advanceCommit hs) (hr₁.fares_advanceCommit hn₁) ?_
    exact fun _ _ hr₂ hn₂ _ => hr₂.fares_requestTo hn₂ m peer
  · exact ⟨hn, fun hs => hs, portable_nil⟩

end Runs

theorem Node.fares_onUnreachable (hn : n.Sane) (peer : NodeId) (sentTerm : Term) :
    Node.Fares X (Node.onUnreachable peer sentTerm) (fun _ _ => True) n := by
  rw [Node.Fares, Node.onUnreachable, Action.wp_bind, Action.wp_get, Action.wp_ite]
  split
  · split
    · exact ⟨⟨hn.machine, hn.snapshot⟩, fun hs => hs, trivial⟩
    · exact ⟨hn, fun hs => hs, trivial⟩
  · exact ⟨hn, fun hs => hs, trivial⟩

namespace Runs

/-! ## Following -/

theorem fares_onAppendRequest (hs : Sound members h) (hr : Runs members h i n) (hn : n.Sane)
    (hX : wordLimit ≤ n.log.lastIndex + 1 → X) (m : Moment) {q : AppendRequest}
    (hq : SendsEntries members h s q)
    (hX' : wordLimit ≤ q.prevIndex + q.entries.length → X) :
    Node.Fares X (Node.onAppendRequest m q) (fun _ _ => True) n := by
  rw [Node.Fares, Node.onAppendRequest, Action.wp_bind, Action.wp_get, Action.wp_ite]
  split
  · exact ⟨hn, fun hs => hs, trivial⟩
  rename_i hold
  refine Node.Fares.bind (hr.follow hs m (by lia) q.leader) (Node.fares_follow hn m _ _) ?_
  rintro - n₁ ⟨h₁, hm₁, hr₁, ht, -⟩ hn₁ hsame
  have hX₁ : wordLimit ≤ (h₁.log i).length + 1 → X := by
    rw [← hr₁.log.lastIndex, hsame]
    exact hX
  obtain ⟨P, hP, hend, hB⟩ := (hq.extends hs hm₁.grows).entries
  -- what is committed here is a beginning of the leader's log, so no entry of the batch disagrees with it
  have hlead := hm₁.grows.leader _ _ hq.office
  have hled := hr₁.committed.isPrefix_led hm₁.sound (ht ▸ hlead) le_rfl
  rw [← ht] at hB
  have hcompletes : Reliable n₁.log.store → Log.Completes X
      (Log.reconcile q.prevIndex q.prevTerm q.entries q.commit) n₁.log := fun hl => by
    rw [← hP, ← hend]
    exact hr₁.log.completes_reconcile hl hX₁ (hm₁.sound.paths.numbered _)
      ((hm₁.sound.paths.log i).agrees (hm₁.sound.paths.led _)) hled hB (hP ▸ hX') q.commit
  have hmaintains := Log.wp_reconcile_maintains (l := n₁.log) Persisted.steady_describes.truncate
    (fun es (_ : es ⊆ q.entries) => Persisted.steady_describes.append es) hn₁.snapshot q.prevIndex q.prevTerm q.commit
  rw [Node.Fares, Action.wp_bind, Action.wp_get]
  split
  · rename_i log hres
    have hd := Action.wp_ok hmaintains hres
    exact ⟨⟨hn₁.machine, hd⟩, fun hl => (hcompletes hl).ok hres, trivial⟩
  · rename_i hint log hres
    obtain ⟨hf, -⟩ | ⟨rfl, -⟩ := Action.wp_error hmaintains hres
    · exact absurd hf Bool.false_ne_true
    · exact ⟨⟨hn₁.machine, hn₁.snapshot⟩, fun hs => hs, trivial⟩
  · rename_i f log hother hres
    obtain ⟨-, hd⟩ | ⟨-, a, hint, rfl⟩ := Action.wp_error hmaintains hres
    · exact ⟨hd, fun hl => (hcompletes hl).error hres⟩
    · exact absurd rfl (hother a hint)

theorem fares_onInstallRequest (hs : Sound members h) (hr : Runs members h i n) (hn : n.Sane)
    (m : Moment) {q : InstallRequest} (hdata : Describes μ q.data)
    (hX' : wordLimit ≤ q.index + 1 → X) :
    Node.Fares X (Node.onInstallRequest m q) (fun _ _ => True) n := by
  rw [Node.Fares, Node.onInstallRequest, Action.wp_bind, Action.wp_get, Action.wp_ite]
  split
  · exact ⟨hn, fun hs => hs, trivial⟩
  rename_i hold
  refine Node.Fares.bind (hr.follow hs m (by lia) q.leader) (Node.fares_follow hn m _ _) ?_
  rintro - n₁ ⟨h₁, hm₁, hr₁, -, -⟩ hn₁ -
  have hstored := Log.Maintains.install Persisted.steady_describes.truncate
    (Persisted.steady_describes.install ⟨q.index, q.snapshotTerm, q.data⟩ hdata) hn₁.snapshot
  refine (Node.Fares.onLog hn₁ hstored
    fun hl => hr₁.log.completes_install hl hX').seq fun installed n₂ hn₂ _ => ?_
  simp only [Node.Fares, Action.wp_ite, Action.wp_bind, Action.wp_get, Action.wp_pure]
  split
  · obtain ⟨machine, hmachine, hfit⟩ := hdata.restore n₂.machine
    rw [hmachine]
    exact ⟨⟨hfit, hn₂.snapshot⟩, fun hs => hs, trivial⟩
  · exact ⟨hn₂, fun hs => hs, trivial⟩

/-! ## Applying -/

theorem fares_takeSnapshot (hr : Runs members h i n) (hn : n.Sane) :
    Node.Fares X Node.takeSnapshot (fun _ _ => True) n := by
  rw [Node.Fares, Node.takeSnapshot, Action.wp_bind, Action.wp_get, Action.wp_ite]
  split
  · exact ⟨hn, fun hs => hs, trivial⟩
  rename_i hnew
  -- the last applied entry is in the log, or the snapshot ends with it
  have hterm : n.log.termAt? n.log.lastApplied =
      some (endTerm ((h.log i).take n.log.lastApplied)) :=
    hr.log.termAt?_eq_some.mpr ⟨hr.log.applied, hr.log.committed.trans hr.log.held, rfl⟩
  simp only [hterm]
  have hdata : Describes μ (StateMachine.snapshot n.machine) := ⟨n.machine, hn.machine, rfl⟩
  refine (Node.Fares.onLog hn (.compact (Persisted.steady_describes.install _ hdata) hn.snapshot)
    fun hl => hr.log.completes_compact hl le_rfl).seq fun _ n₁ hn₁ _ => ?_
  exact ⟨⟨hn₁.machine, hn₁.snapshot⟩, fun hs => hs, trivial⟩

omit [StateMachine μ] [LawfulMachine μ] in
/-- An entry that is handed out has an index that a machine can count to. -/
theorem wp_nextCommitted_index (hr : Runs members h i n) :
    wp Log.nextCommitted (fun o _ => ∀ e ∈ o, e.index < wordLimit) (fun _ _ => True) n.log := by
  simp only [Log.nextCommitted, Action.wp_bind, Action.wp_get, Action.wp_ite, Action.wp_add]
  split
  · rintro e ⟨⟩
  · split
    · rename_i hroom
      split
      · rintro e ⟨⟩
      · rename_i e he
        intro a ha
        obtain rfl := Option.some.inj ha
        obtain ⟨-, he⟩ := hr.log.entry?_eq_some.mp he
        have := hr.log.numbered _ _ he
        lia
    · trivial

theorem fares_applyNext (count : Nat) (hr : Runs members h i n) (hn : n.Sane)
    (hX : wordLimit ≤ (h.log i).length + 1 → X) :
    Node.Fares X (Node.applyNext count) (fun _ _ => True) n := by
  induction count generalizing n with
  | zero => exact .pure hn trivial
  | succ count ih =>
    rw [Node.applyNext]
    have hlog := Action.wp_and hr.log.wp_nextCommitted hr.wp_nextCommitted_index
    have hv : wp (Node.onLog Log.nextCommitted)
        (fun o n' => Runs members h i n' ∧ ∀ e ∈ o, e.index < wordLimit) (fun _ _ => True) n := by
      rw [wp_onLog]
      refine Action.wp_mono hlog ?_ fun _ _ _ => trivial
      rintro o l ⟨⟨hstore, hcommit, hl⟩, hindex⟩
      exact ⟨hr.withLog hl (by rw [hstore]) hcommit, hindex⟩
    refine Node.Fares.bind hv (.onLog hn (.nextCommitted hn.snapshot)
      fun hl => hr.log.completes_nextCommitted hl hX) ?_
    rintro (_ | e) n₁ ⟨hr₁, hindex⟩ hn₁ -
    · exact .pure hn₁ trivial
    · dsimp only
      rw [Node.Fares, Action.wp_bind, Action.wp_modify, Action.wp_ite]
      split
      · exact ih ⟨{ hr₁.toKeeps with }, hr₁.role⟩ ⟨hn₁.machine, hn₁.snapshot⟩
      · rw [Action.wp_bind, Action.wp_get, Action.wp_bind, Action.wp_set]
        have hfit := LawfulMachine.apply e.command hn₁.machine (hindex e rfl)
        have hrest := ih (n := { n₁ with
          machine := (StateMachine.apply n₁.machine e.index e.command).2
          appliedSinceSnapshot := n₁.appliedSinceSnapshot + 1 })
          ⟨{ hr₁.toKeeps with }, hr₁.role⟩ ⟨hfit, hn₁.snapshot⟩
        exact hrest.seq fun _ _ hn₂ _ => .pure hn₂ trivial

theorem fares_applyCommitted (hs : Sound members h) (hr : Runs members h i n) (hn : n.Sane)
    (hX : wordLimit ≤ n.log.lastIndex + 1 → X) :
    Node.Fares X Node.applyCommitted (fun _ _ => True) n := by
  rw [Node.Fares, Node.applyCommitted, Action.wp_bind, Action.wp_get]
  refine Node.Fares.bind (hr.wp_applyNext hs _)
    (hr.fares_applyNext _ hn (hr.log.lastIndex ▸ hX)) ?_
  rintro applied n₁ hr₁ hn₁ -
  rw [Node.Fares, Action.wp_bind, Action.wp_get]
  simp only [Action.wp_ite, Action.wp_bind, Action.wp_pure]
  split
  · exact (hr₁.fares_takeSnapshot hn₁).mono fun _ _ _ => trivial
  · exact ⟨hn₁, fun hs => hs, trivial⟩

end Runs

/-! ## Booting -/

omit [LogStore σ] [LawfulStore σ] in
theorem Node.ofRecovered_sane {r : Log.Recovered σ} {machine : μ} (hfit : Fit machine)
    (hr : ∀ snap, r.snapshot = some snap → Describes μ snap.data) (peers : List NodeId)
    (config : Config) (m : Moment) : ∃ n, Node.ofRecovered i peers r machine config m = .ok n ∧
      Fit n.machine ∧ n.log = r.log := by
  unfold Node.ofRecovered
  cases hsnap : r.snapshot with
  | none => exact ⟨_, rfl, hfit, rfl⟩
  | some snap =>
    obtain ⟨restored, hrestore, hfit'⟩ := (hr snap hsnap).restore machine
    dsimp only
    rw [hrestore]
    exact ⟨_, rfl, hfit', rfl⟩

/-- A member boots unless its store fails. -/
theorem Node.wp_boot_sane {store : σ} {F : List Entry} {machine : μ}
    (hd : (kept store).Describes μ) (h : (kept store).StandsFor F) (hF : Ascending F)
    (hfit : Fit machine) (peers : List NodeId) (config : Config) (m : Moment) :
    wp (Node.boot i peers machine config m) (fun n _ => n.Sane)
      (fun _ t => (kept t).Describes μ ∧ ¬ Reliable store) store := by
  have hopen : wp (Log.boot : Action NodeError σ (Log.Recovered σ)) (fun _ _ => True)
      (fun _ _ => ¬ Reliable store) store := by
    by_cases hs : Reliable store
    · exact Action.wp_mono (Log.completes_boot hs h hF) (fun _ _ ht => ht) fun _ _ => False.elim
    · exact Action.wp_mono (Action.wp_trivial _ _) (fun _ _ ht => ht) fun _ _ _ => hs
  refine Action.wp_seq (Action.wp_mono
    (Action.wp_and (Log.wp_boot_maintains Persisted.steady_describes.truncate hd) hopen)
    (fun _ _ hq => hq.1) fun _ _ hf => hf) ?_
  rintro r t ⟨rfl, hkept, -, hsnap⟩
  have hr : ∀ snap, r.snapshot = some snap → Describes μ snap.data := fun snap he =>
    hd snap (hsnap ▸ he)
  obtain ⟨n, hn, hmachine, hlog⟩ := Node.ofRecovered_sane (i := i) hfit hr peers config m
  rw [hn]
  exact ⟨hmachine, hlog ▸ hkept⟩

end RaftNode
