import RaftNode.Proofs.Bookkeeping
import RaftNode.Proofs.Handlers
/-!
# What a leader's requests show of its log

Every request of a leader is drawn from its log as it stands when the request is on its way: a run of entries without a
gap, behind one whose term it names, or the snapshot that the log stands on. Which of the two it is, the next index of
the peer decides.
-/
namespace RaftNode

open RaftNode.Action (wp)

namespace Node

variable {σ μ : Type} [LogStore σ] {n n' : Node σ μ} {view : Replication} {q : Outbound}

/-! ## What is asked of a peer -/

/-- A message of a node: it asks for a vote, or for what the view of a leader makes the next request. -/
def Asks (n : Node σ μ) (q : Outbound) : Prop :=
  (∃ v, q.request = .vote v) ∨
    ∃ view p, n.role = .leader view ∧ view.find? q.target = some p ∧
      Replication.requestAt p.nextIndex n.log n.term n.id n.config.maxEntries = .ok q.request

/-- To note when a request was sent changes nothing that requests are made of. -/
theorem Asks.noted (h : n.Asks q) (hrole : n.role = .leader view) (peer : NodeId) (now : Nat) :
    Asks { n with role := .leader (view.update peer fun p => { p with inFlightSince := some now }) }
      q := by
  obtain hvote | ⟨view', p, hrole', hp, hq⟩ := h
  · exact Or.inl hvote
  · obtain rfl : view = view' := Role.leader.inj (hrole.symm.trans hrole')
    by_cases hpeer : q.target = peer
    · refine Or.inr ⟨_, { p with inFlightSince := some now }, rfl, ?_, hq⟩
      rw [Replication.find?_update, if_pos hpeer, hp]
      rfl
    · refine Or.inr ⟨_, p, rfl, ?_, hq⟩
      rw [Replication.find?_update, if_neg hpeer, hp]

/-- The messages of an event are what the node that it leaves behind asks for. -/
def Tells (x : NodeAction σ μ (List Outbound)) : Prop :=
  ∀ n, wp x (fun qs n' => ∀ q ∈ qs, n'.Asks q) (fun _ _ => True) n

theorem Tells.nil : Tells (pure [] : NodeAction σ μ (List Outbound)) :=
  fun _ => List.forall_mem_nil _

/-- Whatever comes before the last step. -/
theorem Tells.bind {α : Type} {x : NodeAction σ μ α} {f : α → NodeAction σ μ (List Outbound)}
    (hf : ∀ a, Tells (f a)) : Tells (x >>= f) := fun n =>
  Action.wp_seq (Action.wp_imp (Action.wp_trivial x n) fun _ _ h => h) fun a n' _ => hf a n'

theorem Tells.ite {p : Prop} [Decidable p] {x y : NodeAction σ μ (List Outbound)} (hx : Tells x)
    (hy : Tells y) : Tells (if p then x else y) := by
  split
  · exact hx
  · exact hy

/-! ## Events -/

theorem wp_requestFor_asks (m : Moment) (peer : NodeId) (n : Node σ μ) :
    wp (requestFor m peer)
      (fun o n' => (∀ q ∈ o, n'.Asks q) ∧ ∀ q, n.Asks q → n'.Asks q) (fun _ _ => True) n := by
  have hnone : (∀ q ∈ (none : Option Outbound), n.Asks q) ∧ ∀ q, n.Asks q → n.Asks q :=
    ⟨fun q hq => absurd hq (Option.not_mem_none q), fun _ h => h⟩
  rw [requestFor, Action.wp_bind, Action.wp_get]
  split
  · rename_i view hrole
    split
    · trivial
    · exact hnone
    · rename_i q view' hq
      obtain ⟨p, request, hp, -, hrequest, rfl, rfl⟩ := Replication.nextRequest_eq_some hq
      have hkeeps : ∀ q, n.Asks q → Asks { n with role := .leader (view.update peer fun p =>
          { p with inFlightSince := some m.now }) } q := fun q hq => hq.noted hrole peer m.now
      refine ⟨fun q' hq' => ?_, hkeeps⟩
      obtain rfl := Option.some.inj hq'
      exact hkeeps _ (Or.inr ⟨view, p, hrole, hp, hrequest⟩)
  · exact hnone

theorem tells_requestTo (m : Moment) (peer : NodeId) :
    Tells (do pure (← requestFor m peer).toList : NodeAction σ μ (List Outbound)) := fun n => by
  refine Action.wp_seq (wp_requestFor_asks m peer n) ?_
  rintro o n' ⟨ho, -⟩
  exact fun q hq => ho q (Option.mem_toList.mp hq)

theorem wp_requestsFor_asks (m : Moment) (names : List NodeId) (n : Node σ μ) :
    wp (requestsFor m names)
      (fun qs n' => (∀ q ∈ qs, n'.Asks q) ∧ ∀ q, n.Asks q → n'.Asks q) (fun _ _ => True) n := by
  induction names generalizing n with
  | nil => exact ⟨List.forall_mem_nil _, fun _ h => h⟩
  | cons peer rest ih =>
    rw [requestsFor]
    refine Action.wp_seq (wp_requestFor_asks m peer n) ?_
    rintro o n₁ ⟨ho, hkept⟩
    refine Action.wp_seq (ih n₁) ?_
    rintro qs n₂ ⟨hqs, hkept'⟩
    refine ⟨fun q hq => ?_, fun q hq => hkept' q (hkept q hq)⟩
    rcases List.mem_append.mp hq with hq | hq
    · exact hkept' q (ho q (Option.mem_toList.mp hq))
    · exact hqs q hq

theorem tells_replicate (m : Moment) : Tells (replicate m : NodeAction σ μ (List Outbound)) := fun n => by
  rw [replicate, Action.wp_bind, Action.wp_get]
  exact Action.wp_imp (wp_requestsFor_asks m n.peers n) fun _ _ h => h.1

theorem tells_heartbeat (m : Moment) : Tells (heartbeat m : NodeAction σ μ (List Outbound)) := by
  refine Tells.bind fun n => ?_
  split
  · exact Tells.bind fun _ => tells_replicate m
  · exact .nil

theorem tells_becomeLeader (m : Moment) :
    Tells (becomeLeader m : NodeAction σ μ (List Outbound)) :=
  Tells.bind fun _ => Tells.bind fun _ => Tells.bind fun _ => Tells.bind fun _ =>
    Tells.bind fun _ => tells_replicate m

theorem tells_startElection (m : Moment) :
    Tells (startElection m : NodeAction σ μ (List Outbound)) := by
  refine Tells.bind fun n => Tells.ite .nil ?_
  refine Tells.bind fun term => Tells.bind fun _ => Tells.bind fun _ => Tells.bind fun _ =>
    Tells.ite (tells_becomeLeader m) fun _ q hq => ?_
  obtain ⟨peer, -, rfl⟩ := List.mem_map.mp hq
  exact Or.inl ⟨_, rfl⟩

theorem tells_onVoteReply (m : Moment) (peer : NodeId) (sentTerm : Term) (r : VoteReply) :
    Tells (onVoteReply m peer sentTerm r : NodeAction σ μ (List Outbound)) := by
  refine Tells.bind fun n => Tells.ite (Tells.bind fun _ => .nil) (Tells.ite .nil ?_)
  split
  · exact Tells.bind fun _ => Tells.ite (tells_becomeLeader m) .nil
  · exact .nil

theorem tells_onAppendReply (m : Moment) (peer : NodeId) (sent : AppendSent) (r : AppendReply) :
    Tells (onAppendReply m peer sent r : NodeAction σ μ (List Outbound)) := by
  refine Tells.bind fun n => Tells.ite (Tells.bind fun _ => .nil) (Tells.ite .nil ?_)
  split
  · refine Tells.ite (Tells.bind fun _ => Tells.bind fun _ => Tells.bind fun _ => ?_)
      (Tells.bind fun _ => Tells.bind fun _ => .nil)
    exact Tells.ite (tells_requestTo m peer) .nil
  · exact .nil

theorem tells_onInstallReply (m : Moment) (peer : NodeId) (sentTerm : Term) (index : Index)
    (r : InstallReply) : Tells (onInstallReply m peer sentTerm index r : NodeAction σ μ (List Outbound)) := by
  refine Tells.bind fun n => Tells.ite (Tells.bind fun _ => .nil) (Tells.ite .nil ?_)
  split
  · exact Tells.bind fun _ => Tells.bind fun _ => Tells.bind fun _ => tells_requestTo m peer
  · exact .nil

theorem tells_onResponse (m : Moment) (r : Response) :
    Tells (onResponse m r : NodeAction σ μ (List Outbound)) := by
  cases r with
  | vote peer sentTerm r => exact tells_onVoteReply m peer sentTerm r
  | append peer sent r => exact tells_onAppendReply m peer sent r
  | install peer sentTerm index r => exact tells_onInstallReply m peer sentTerm index r
  | unreachable peer sentTerm => exact Tells.bind fun _ => .nil

theorem tells_command [StateMachine μ] (m : Moment) (c : Protocol.Command) :
    Tells (c.run m : NodeAction σ μ (List Outbound)) := by
  have hsilent : ∀ {α : Type} (x : NodeAction σ μ α), Tells ((fun _ => []) <$> x) := by
    intro α x n
    rw [Action.wp_map]
    exact Action.wp_imp (Action.wp_trivial x n) fun _ _ _ => List.forall_mem_nil _
  cases c with
  | stand => exact tells_startElection m
  | heartbeat => exact tells_heartbeat m
  | replicate => exact tells_replicate m
  | propose command => exact hsilent _
  | apply => exact hsilent _
  | snapshot => exact hsilent _

end Node

/-! ## What a request shows -/

namespace Node

variable {σ μ : Type} [LogStore σ] [LawfulStore σ]

/-- An append that goes on at an index of the sender's log: all entries from there on, up to the size of a batch. -/
structure Excerpts (n : Node σ μ) (start : Index) (q : AppendRequest) : Prop where
  leader : q.leader = n.id
  term : q.term = n.term
  prevIndex : q.prevIndex + 1 = start
  prevTerm : n.log.termAt? q.prevIndex = some q.prevTerm
  /-- Before the log there is no term. -/
  origin : q.prevIndex = 0 → q.prevTerm = 0
  entries : ∀ k, q.entries[k]? =
    if k < n.config.maxEntries then n.log.entry? (start + k) else none
  indexes : ∀ k e, q.entries[k]? = some e → e.index = start + k
  count : q.entries.length = min n.config.maxEntries (n.log.lastIndex - q.prevIndex)
  commit : q.commit = n.log.commitIndex
  committed : q.commit ≤ n.log.lastIndex

/-- A snapshot that the sender's log stands on. -/
structure Copies (n : Node σ μ) (q : InstallRequest) : Prop where
  leader : q.leader = n.id
  term : q.term = n.term
  index : q.index = n.log.snapshotIndex
  snapshotTerm : q.snapshotTerm = n.log.snapshotTerm
  stored : (kept n.log.store).snapshot = some ⟨q.index, q.snapshotTerm, q.data⟩

/-- A leader's request shows its log at the next index of the peer, or the snapshot where the log no longer reaches back
so far. -/
def Attests (n : Node σ μ) (message : Outbound) : Prop :=
  match message.request with
  | .vote _ => True
  | .append q => ∃ view p, n.role = .leader view ∧ view.find? message.target = some p ∧
      n.log.snapshotIndex < p.nextIndex ∧ n.Excerpts p.nextIndex q
  | .install q => ∃ view p, n.role = .leader view ∧ view.find? message.target = some p ∧
      p.nextIndex ≤ n.log.snapshotIndex ∧ n.Copies q

end Node

variable {σ μ : Type} [LogStore σ] [LawfulStore σ] {members : Finset NodeId} {h : History}
  {i : NodeId} {n : Node σ μ}

theorem Keeps.excerpts (hk : Keeps members h i n) {start : Index} (hpos : 0 < start)
    (hstart : n.log.snapshotIndex < start) {prevTerm : Term}
    (hterm : n.log.termAt? (start - 1) = some prevTerm) :
    n.Excerpts start ⟨n.term, n.id, start - 1, prevTerm, n.log.entriesFrom start n.config.maxEntries,
      n.log.commitIndex⟩ := by
  have hentries := hk.log.entriesFrom hstart n.config.maxEntries
  have hentry : ∀ k, n.log.entry? (start + k) = (h.log i)[start - 1 + k]? := by
    intro k
    rw [hk.log.entry?, if_neg (by lia), show start + k - 1 = start - 1 + k by lia]
  have hshown : ∀ k, (n.log.entriesFrom start n.config.maxEntries)[k]? =
      if k < n.config.maxEntries then n.log.entry? (start + k) else none := by
    intro k
    rw [hentries, List.getElem?_take, List.getElem?_drop, hentry]
  refine ⟨rfl, rfl, Nat.sub_add_cancel hpos, hterm, fun hzero => ?_, hshown, fun k e he => ?_, ?_, rfl, ?_⟩
  · obtain ⟨-, -, hend⟩ := hk.log.termAt?_eq_some.mp hterm
    have hbefore : start - 1 = 0 := hzero
    rw [hbefore, List.take_zero] at hend
    exact hend.symm
  · dsimp only at he
    rw [hshown] at he
    split at he
    · rw [hentry] at he
      have := hk.log.numbered _ _ he
      lia
    · cases he
  · dsimp only
    rw [hentries, List.length_take, List.length_drop, hk.log.lastIndex]
  · dsimp only
    rw [hk.log.lastIndex]
    exact hk.log.held

theorem Keeps.copies (hk : Keeps members h i n) {snap : Snapshot}
    (hload : n.log.loadSnapshot = .ok (some snap)) :
    n.Copies ⟨n.term, n.id, snap.index, snap.term, snap.data⟩ := by
  have hsnap : (kept n.log.store).snapshot = some snap := Log.loadSnapshot_kept hload
  refine ⟨rfl, rfl, ?_, ?_, hsnap⟩
  · rw [hk.log.snapshotIndex, Persisted.covered, hsnap]
    rfl
  · rw [hk.log.snapshotTerm, Persisted.coveredTerm, hsnap]
    rfl

/-- The notes of a leader make what it asks for a part of its log. -/
theorem Runs.attests (hr : Runs members h i n) {q : Outbound} (hq : n.Asks q) : n.Attests q := by
  obtain ⟨target, request⟩ := q
  obtain ⟨v, rfl⟩ | ⟨view, p, hrole, hp, hrequest⟩ := hq
  · trivial
  · rcases Replication.requestAt_eq_ok hrequest with ⟨hcovered, snap, hload, rfl⟩ | ⟨hnext, prevTerm, hterm, rfl⟩
    · exact ⟨view, p, hrole, hp, hcovered, hr.copies hload⟩
    · exact ⟨view, p, hrole, hp, hnext, hr.excerpts (Nat.zero_lt_of_lt hnext) hnext hterm⟩

omit [LawfulStore σ] in
/-- A peer that owes no answer is asked, unless its request cannot be made. -/
theorem Node.wp_requestFor_idle {view : Replication} {peer : NodeId} {p : Progress} {m : Moment}
    (hrole : n.role = .leader view) (hp : view.find? peer = some p)
    (hidle : p.isWaiting m.now n.config.electionMax = false) :
    wp (Node.requestFor m peer)
      (fun o _ => ∃ q, o = some ⟨peer, q⟩ ∧
        Replication.requestAt p.nextIndex n.log n.term n.id n.config.maxEntries = .ok q)
      (fun f _ => f.halts = true ∧ ∃ e,
        Replication.requestAt p.nextIndex n.log n.term n.id n.config.maxEntries = .error e) n := by
  rw [Node.requestFor, Action.wp_bind, Action.wp_get, hrole]
  dsimp only
  split
  · rename_i e he
    refine ⟨Replication.nextRequest_isFatal he, e, ?_⟩
    simp only [Replication.nextRequest, hp, hidle, Bool.false_eq_true, if_false] at he
    split at he
    · rename_i e' he'
      rw [he', Except.error.inj he]
    · cases he
  · rename_i hnone
    simp only [Replication.nextRequest, hp, hidle, Bool.false_eq_true, if_false] at hnone
    split at hnone
    · cases hnone
    · cases hnone
  · rename_i q view' hq
    obtain ⟨p', request, hp', -, hrequest, rfl, -⟩ := Replication.nextRequest_eq_some hq
    obtain rfl := Option.some.inj (hp.symm.trans hp')
    exact ⟨request, rfl, hrequest⟩

/-- Which request a peer gets that owes no answer. Only the snapshot must be read from the store, which may fail. -/
theorem Runs.requestFor_chooses (hr : Runs members h i n) {view : Replication} {peer : NodeId}
    {p : Progress} {m : Moment} (hrole : n.role = .leader view) (hp : view.find? peer = some p)
    (hidle : p.isWaiting m.now n.config.electionMax = false) :
    (p.nextIndex ≤ n.log.snapshotIndex →
      (∃ q n', Node.requestFor m peer n = .ok (some ⟨peer, .install q⟩) n') ∨
        ∃ f n', Node.requestFor m peer n = .error f n' ∧ f.halts = true) ∧
    (n.log.snapshotIndex < p.nextIndex →
      ∃ q n', Node.requestFor m peer n = .ok (some ⟨peer, .append q⟩) n') := by
  have hwp := Node.wp_requestFor_idle (m := m) hrole hp hidle
  cases hrun : Node.requestFor m peer n with
  | ok o n' =>
    obtain ⟨q, rfl, hq⟩ := Action.wp_ok hwp hrun
    rcases Replication.requestAt_eq_ok hq with ⟨hcovered, snap, -, rfl⟩ | ⟨hnext, prevTerm, -, rfl⟩
    · exact ⟨fun _ => Or.inl ⟨_, _, rfl⟩, fun hnext => absurd hcovered (not_le.mpr hnext)⟩
    · exact ⟨fun hcovered => absurd hcovered (not_le.mpr hnext), fun _ => ⟨_, _, rfl⟩⟩
  | error f n' =>
    obtain ⟨hf, e, he⟩ := Action.wp_error hwp hrun
    refine ⟨fun _ => Or.inr ⟨f, n', rfl, hf⟩, fun hnext => ?_⟩
    -- the term before the next index is in the log, so there is no error to be had
    have htracks := (hr.leads hrole).tracks _ (Replication.mem_of_find? hp)
    have hwithin := htracks.within
    have hterm := hr.log.termAt?_eq_some.mpr ⟨Nat.le_sub_one_of_lt hnext, by lia, rfl⟩
    simp only [Replication.requestAt, if_neg (not_le.mpr hnext), hterm] at he
    cases he

namespace Protocol

variable [StateMachine μ]

/-- The messages that are on their way since an event, with their senders. -/
def Run.emitted (r : Run members σ μ) (t : ℕ) : List (NodeId × Outbound) :=
  (r.state (t + 1)).sent.drop (r.state t).sent.length

omit [LawfulStore σ] in
/-- An event adds what the node that acts asks for. -/
theorem sent_next (s : State σ μ) (e : Event σ μ) : ∃ new, (next s e).sent = s.sent ++ new ∧
    ∀ p ∈ new, ∃ n, (next s e).node? p.1 = some n ∧ n.Asks p.2 := by
  have hsame : ∀ {α : Type} (i : NodeId) (x : NodeAction σ μ α), (perform s i x).2.sent = s.sent := by
    intro α i x
    unfold perform
    split
    · rfl
    · split <;> rfl
  have hsend : ∀ (i : NodeId) (x : NodeAction σ μ (List Outbound)), Node.Tells x →
      ∃ new, (send s i x).sent = s.sent ++ new ∧
        ∀ p ∈ new, ∃ n, (send s i x).node? p.1 = some n ∧ n.Asks p.2 := by
    intro i x hx
    refine ⟨_, by rw [send, hsame], fun p hp => ?_⟩
    obtain ⟨q, hq, rfl⟩ := List.mem_map.mp hp
    cases hlife : s.life i with
    | down store =>
      rw [perform_down hlife] at hq
      cases hq
    | up n =>
      cases hres : x n with
      | error f n' =>
        rw [perform_error hlife hres] at hq
        cases hq
      | ok qs n' =>
        rw [perform_ok hlife hres] at hq
        refine ⟨n', State.node?_eq_some.mpr ?_, Action.wp_ok (hx n) hres q hq⟩
        rw [send, perform_ok hlife hres]
        exact Function.update_self i _ _
  have hsilent : ∀ s' : State σ μ, s'.sent = s.sent → ∃ new, s'.sent = s.sent ++ new ∧
      ∀ p ∈ new, ∃ n, s'.node? p.1 = some n ∧ n.Asks p.2 :=
    fun s' hs' => ⟨[], by rw [hs', List.append_nil], List.forall_mem_nil _⟩
  cases e with
  | boot i peers machine config m =>
    refine hsilent _ ?_
    simp only [next]
    split <;> rfl
  | crash i => exact hsilent _ rfl
  | disturb i store => exact hsilent _ rfl
  | act i c m => exact hsend i _ (Node.tells_command m c)
  | deliver sender message m => exact hsilent _ (hsame _ _)
  | answer i r m => exact hsend i _ (Node.tells_onResponse m r)
  | giveUp sender message m => exact hsend sender _ (Node.tells_onResponse m _)
  | idle => exact hsilent _ rfl

theorem Run.sent_succ (r : Run members σ μ) (t : ℕ) :
    (r.state (t + 1)).sent = (r.state t).sent ++ r.emitted t ∧
      ∀ p ∈ r.emitted t, ∃ n, r.node? (t + 1) p.1 = some n ∧ n.Asks p.2 := by
  obtain ⟨new, hnew, hasks⟩ := sent_next (r.state t) (r.event t)
  rw [← (r.valid t).2] at hnew hasks
  have hemitted : r.emitted t = new := by
    rw [Run.emitted, hnew, List.drop_left]
  rw [hemitted]
  exact ⟨hnew, hasks⟩

/-- Every message of a run shows what its sender has at that moment, and which kind of request a leader makes is decided
by the next index of the peer. -/
theorem Run.emits_faithfully (r : Run members σ μ) :
    (∀ t i q, (i, q) ∈ r.emitted t → ∃ n, r.node? (t + 1) i = some n ∧ n.Attests q) ∧
    ∀ t i n view peer p m, r.node? t i = some n → n.role = .leader view → view.find? peer = some p →
      p.isWaiting m.now n.config.electionMax = false →
      (p.nextIndex ≤ n.log.snapshotIndex →
        (∃ q n', Node.requestFor m peer n = .ok (some ⟨peer, .install q⟩) n') ∨
          ∃ f n', Node.requestFor m peer n = .error f n' ∧ f.halts = true) ∧
      (n.log.snapshotIndex < p.nextIndex →
        ∃ q n', Node.requestFor m peer n = .ok (some ⟨peer, .append q⟩) n') := by
  obtain ⟨H, hc⟩ := r.exists_chronicle
  constructor
  · intro t i q hq
    obtain ⟨n, hn, hasks⟩ := (r.sent_succ t).2 _ hq
    exact ⟨n, hn, (hc.runs hn).attests hasks⟩
  · intro t i n view peer p m hn hrole hp hidle
    exact (hc.runs hn).requestFor_chooses hrole hp hidle

/-- Member 1 has compacted away what member 3, which starts late, is still to be sent. -/
theorem emits_faithfully_succession :
    (∃ q, (1, ⟨2, .append q⟩) ∈ successionRun.emitted 9 ∧ q.prevIndex = 1 ∧
      ∃ n, successionRun.node? 10 1 = some n ∧ n.Attests ⟨2, .append q⟩) ∧
    (∃ q, (1, ⟨3, .install q⟩) ∈ successionRun.emitted 14 ∧ q.index = 1 ∧
      ∃ n, successionRun.node? 15 1 = some n ∧ n.Attests ⟨3, .install q⟩) ∧
    ∃ n view p, successionRun.node? 14 1 = some n ∧ n.role = .leader view ∧ view.find? 3 = some p ∧
      p.isWaiting 2000 n.config.electionMax = false ∧ p.nextIndex ≤ n.log.snapshotIndex ∧
      ((∃ q n', Node.requestFor { now := 2000 } 3 n = .ok (some ⟨3, .install q⟩) n') ∨
        ∃ f n', Node.requestFor { now := 2000 } 3 n = .error f n' ∧ f.halts = true) := by
  have hemits := successionRun.emits_faithfully
  have happend : (1, (⟨2, .append ⟨1, 1, 1, 1, [], 1⟩⟩ : Outbound)) ∈ successionRun.emitted 9 := by
    decide_cbv
  have hinstall : (1, (⟨3, .install ⟨1, 1, 1, 1, StateMachine.snapshot ({} : Journal)⟩⟩ : Outbound)) ∈
      successionRun.emitted 14 := by
    decide_cbv
  refine ⟨⟨_, happend, rfl, hemits.1 9 1 _ happend⟩, ⟨_, hinstall, rfl, hemits.1 14 1 _ hinstall⟩, ?_⟩
  obtain ⟨n, hn, hleads⟩ : ∃ n, successionRun.node? 14 1 = some n ∧
      (n.replication?.bind fun view => view.find? 3).any (fun p =>
        p.isWaiting 2000 n.config.electionMax = false ∧ p.nextIndex ≤ n.log.snapshotIndex) = true :=
    exists_of_any (by decide_cbv)
  obtain ⟨p, hp, hidle, hcovered⟩ := exists_of_any hleads
  obtain ⟨view, hview, hp⟩ := Option.bind_eq_some_iff.mp hp
  have hrole := Node.replication?_eq_some.mp hview
  exact ⟨n, view, p, hn, hrole, hp, hidle, hcovered,
    (hemits.2 14 1 n view 3 p { now := 2000 } hn hrole hp hidle).1 hcovered⟩

end Protocol

end RaftNode
