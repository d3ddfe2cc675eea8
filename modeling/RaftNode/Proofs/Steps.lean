import RaftNode.Proofs.Elections
import RaftNode.Proofs.Protocol
import RaftNode.Proofs.Writes
import Mathlib.Logic.Relation
/-!
# What events are made of

Every event of a node, whatever the node and whatever it is sent, is a chain of a few kinds of steps. What all of
them keep is kept by every event. An event that ends early has gone some steps and fails at one more, and the store
shows at most the beginning of that one.
-/
namespace RaftNode

open RaftNode.Action (wp)

def Reply.term : Reply → Term
  | .vote r => r.term
  | .append r => r.term
  | .install r => r.term

namespace Replication

/-- No peer is forgotten, and nothing that it was known to store. -/
def Grows (r r' : Replication) : Prop :=
  ∀ peer p, r.find? peer = some p → ∃ p', r'.find? peer = some p' ∧ p.matchIndex ≤ p'.matchIndex

theorem Grows.refl (r : Replication) : r.Grows r := fun _ p hp => ⟨p, hp, le_rfl⟩

theorem Grows.trans {r r' r'' : Replication} (h : r.Grows r') (h' : r'.Grows r'') :
    r.Grows r'' := by
  intro peer p hp
  obtain ⟨p', hp', hle⟩ := h peer p hp
  obtain ⟨p'', hp'', hle'⟩ := h' peer p' hp'
  exact ⟨p'', hp'', hle.trans hle'⟩

theorem find?_update (r : Replication) (peer other : NodeId) (f : Progress → Progress) :
    (r.update peer f).find? other =
      if other = peer then (r.find? other).map f else r.find? other := by
  unfold find? update
  induction r.peers with
  | nil => simp
  | cons p rest ih =>
    obtain ⟨k, v⟩ := p
    by_cases ho : other = k
    · subst ho
      by_cases hk : other = peer <;> simp [hk]
    · have hne : (other == k) = false := beq_false_of_ne ho
      by_cases hk : k = peer
      · subst hk
        simpa [List.lookup_cons, hne, ho] using ih
      · simpa [List.lookup_cons, hne, hk] using ih

theorem grows_update (r : Replication) (peer : NodeId) {f : Progress → Progress}
    (hf : ∀ p, r.find? peer = some p → p.matchIndex ≤ (f p).matchIndex) :
    r.Grows (r.update peer f) := by
  intro other p hp
  rw [find?_update]
  split
  · rename_i heq
    subst heq
    exact ⟨f p, by rw [hp]; rfl, hf p hp⟩
  · exact ⟨p, hp, le_rfl⟩

variable {τ : Type} {s : τ} {r : Replication}

theorem wp_start_same (peers : List NodeId) (last now : Nat) :
    wp (start peers last now) (fun _ t => t = s) (fun f t => f = .abort ∧ t = s) s := by
  simp only [start, Action.wp_ite, Action.wp_bind, Action.wp_add, Action.wp_pure]
  split
  · trivial
  · split
    · trivial
    · exact ⟨trivial, trivial⟩

/-- How a leader's view goes on when a response came in. -/
def Widens (x : Action NodeError τ Replication) (r : Replication) (s : τ) : Prop :=
  wp x (fun r' t => t = s ∧ r.Grows r') (fun f t => f = .abort ∧ t = s) s

theorem widens_confirm (peer : NodeId) (index : Index) (now : Nat) :
    Widens (r.confirm peer index now) r s := by
  unfold Widens confirm
  split
  · exact ⟨rfl, .refl r⟩
  · rename_i p hp
    simp only [Action.wp_bind, Action.wp_add, Action.wp_pure]
    split
    · refine ⟨trivial, r.grows_update peer fun q hq => ?_⟩
      obtain rfl := Option.some.inj (hp.symm.trans hq)
      exact le_max_left _ _
    · exact ⟨trivial, trivial⟩

theorem widens_onAppendSuccess (peer : NodeId) (sent : AppendSent) (now : Nat) :
    Widens (r.onAppendSuccess peer sent now) r s := by
  simp only [Widens, onAppendSuccess, lastSent, Action.wp_ite, Action.wp_bind, Action.wp_add,
    Action.wp_pure]
  split
  · exact ⟨trivial, .refl r⟩
  · split
    · exact widens_confirm _ _ _
    · exact ⟨trivial, trivial⟩

theorem widens_onAppendReject (peer : NodeId) (sent : AppendSent) (hint : Option Index)
    (now : Nat) : Widens (r.onAppendReject peer sent hint now) r s := by
  have hupdate : ∀ next, r.Grows (r.update peer fun p =>
      { p with nextIndex := next, inFlightSince := none, lastContact := now }) := fun next =>
    r.grows_update peer fun _ _ => le_rfl
  unfold Widens onAppendReject
  split
  · exact ⟨rfl, .refl r⟩
  · cases hint with
    | none =>
      simp only [Action.wp_bind, Action.wp_add, Action.wp_pure]
      split
      · exact ⟨trivial, hupdate _⟩
      · exact ⟨trivial, trivial⟩
    | some hint =>
      simp only [Action.wp_bind, Action.wp_add, Action.wp_pure]
      split
      · split
        · exact ⟨trivial, hupdate _⟩
        · exact ⟨trivial, trivial⟩
      · exact ⟨trivial, trivial⟩

/-- A leader's view in which nothing has changed but what is known of one peer. -/
inductive Touches (r : Replication) (peer : NodeId) : Replication → Prop
  | same : Touches r peer r
  | update (f : Progress → Progress) : Touches r peer (r.update peer f)

theorem wp_confirm_touches (peer : NodeId) (index : Index) (now : Nat) :
    wp (r.confirm peer index now) (fun r' t => t = s ∧ r.Touches peer r') (fun f _ => f = .abort) s := by
  unfold confirm
  split
  · exact ⟨rfl, .same⟩
  · rw [Action.wp_bind, Action.wp_add]
    split
    · exact ⟨rfl, .update _⟩
    · rfl

theorem wp_onAppendSuccess_touches (peer : NodeId) (sent : AppendSent) (now : Nat) :
    wp (r.onAppendSuccess peer sent now) (fun r' t => t = s ∧ r.Touches peer r') (fun f _ => f = .abort) s := by
  rw [onAppendSuccess, Action.wp_ite]
  split
  · exact ⟨rfl, .same⟩
  · rw [lastSent, Action.wp_bind, Action.wp_add]
    split
    · exact wp_confirm_touches peer _ now
    · rfl

theorem wp_onAppendReject_touches (peer : NodeId) (sent : AppendSent) (hint : Option Index) (now : Nat) :
    wp (r.onAppendReject peer sent hint now) (fun r' t => t = s ∧ r.Touches peer r') (fun f _ => f = .abort) s := by
  have hrest : ∀ (p : Progress) (proposed : Index), wp (do
        let least ← Action.add p.matchIndex 1
        pure (r.update peer fun p => { p with
          nextIndex := max proposed (max least 1), inFlightSince := none, lastContact := now }) :
          Action NodeError τ Replication)
      (fun r' t => t = s ∧ r.Touches peer r') (fun f _ => f = .abort) s := by
    intro p proposed
    rw [Action.wp_bind, Action.wp_add]
    split
    · exact ⟨rfl, .update _⟩
    · rfl
  unfold onAppendReject
  split
  · exact ⟨rfl, .same⟩
  · rename_i p _
    cases hint with
    | none => exact hrest p sent.prevIndex
    | some hint =>
      rw [Action.wp_bind, Action.wp_add]
      split
      · exact hrest p (hint + 1)
      · rfl

/-- A leader sends the snapshot that its store has, or entries behind one whose term it knows. -/
theorem requestAt_eq_ok {σ : Type} [LogStore σ] {next : Index} {l : Log σ} {term : Term}
    {leader : NodeId} {most : Nat} {q : Request} (h : requestAt next l term leader most = .ok q) :
    (next ≤ l.snapshotIndex ∧ ∃ snap, l.loadSnapshot = .ok (some snap) ∧
      q = .install ⟨term, leader, snap.index, snap.term, snap.data⟩) ∨
    (l.snapshotIndex < next ∧ ∃ prevTerm, l.termAt? (next - 1) = some prevTerm ∧
      q = .append ⟨term, leader, next - 1, prevTerm, l.entriesFrom next most, l.commitIndex⟩) := by
  unfold requestAt at h
  split at h
  · rename_i hcovered
    split at h
    · cases h
    · cases h
    · rename_i snap hload
      cases h
      exact Or.inl ⟨hcovered, snap, hload, rfl⟩
  · rename_i hbehind
    dsimp only at h
    split at h
    · cases h
    · rename_i prevTerm hterm
      cases h
      exact Or.inr ⟨not_le.mp hbehind, prevTerm, hterm, rfl⟩

theorem requestAt_term {σ : Type} [LogStore σ] {next : Index} {l : Log σ} {term : Term}
    {leader : NodeId} {most : Nat} {q : Request} (h : requestAt next l term leader most = .ok q) :
    q.term = term := by
  rcases requestAt_eq_ok h with ⟨-, snap, -, rfl⟩ | ⟨-, prevTerm, -, rfl⟩
  · rfl
  · rfl

/-- What is asked of a peer that owes no answer, and the note that is taken of it. -/
theorem nextRequest_eq_some {σ : Type} [LogStore σ] {r' : Replication} {peer : NodeId} {l : Log σ}
    {term : Term} {leader : NodeId} {most now lostAfter : Nat} {q : Outbound}
    (h : r.nextRequest peer l term leader most now lostAfter = .ok (some (q, r'))) :
    ∃ p request, r.find? peer = some p ∧ p.isWaiting now lostAfter = false ∧
      requestAt p.nextIndex l term leader most = .ok request ∧ q = ⟨peer, request⟩ ∧
      r' = r.update peer fun p => { p with inFlightSince := some now } := by
  unfold nextRequest at h
  split at h
  · cases h
  · rename_i p hp
    split at h
    · cases h
    · rename_i hwaiting
      split at h
      · cases h
      · rename_i request hrequest
        cases h
        exact ⟨p, request, hp, by simpa using hwaiting, hrequest, rfl, rfl⟩

end Replication

namespace Node

variable {σ μ : Type} [LogStore σ] [StateMachine μ]

/-- What happens to a node while it runs. -/
inductive Occasion where
  | act (c : Protocol.Command)
  | request (q : Request)
  | response (r : Response)

def Occasion.run (m : Moment) : Occasion → NodeAction σ μ Unit
  | .act c => (fun _ => ()) <$> c.run m
  | .request q => (fun _ => ()) <$> onRequest m q
  | .response r => (fun _ => ()) <$> onResponse m r

/-- One step of a node, on some occasion. -/
inductive Step (o : Occasion) (n : Node σ μ) : Node σ μ → Prop
  | wait (electionDeadline appliedSinceSnapshot : Nat) :
      Step o n { n with electionDeadline, appliedSinceSnapshot }
  | enter {term : Term} (leader : Option NodeId) {log : Log σ} (hterm : n.term < term)
      (hlog : Log.saveHard ⟨term, none⟩ n.log = .ok () log) :
      Step o n { n with term, vote := none, log, role := .follower leader }
  | follow (leader : Option NodeId) : Step o n { n with role := .follower leader }
  | vote {q : VoteRequest} {log : Log σ} (ho : o = .request (.vote q)) (hterm : q.term = n.term)
      (hfree : n.vote = none) (hlog : Log.saveHard ⟨n.term, some q.candidate⟩ n.log = .ok () log) :
      Step o n { n with vote := some q.candidate, log }
  | stand {log : Log σ} (ho : o = .act .stand) (hrole : n.isLeader = false)
      (hlog : Log.saveHard ⟨n.term + 1, some n.id⟩ n.log = .ok () log) :
      Step o n { n with term := n.term + 1, vote := some n.id, log, role := .candidate [n.id] }
  | count {votes : List NodeId} {peer : NodeId} {r : VoteReply}
      (ho : o = .response (.vote peer n.term r)) (hgranted : r.granted = true)
      (hrole : n.role = .candidate votes) :
      Step o n { n with
        role := .candidate (if votes.contains peer then votes else votes ++ [peer]) }
  | elect {votes : List NodeId} {r : Replication} {now : Nat} (hrole : n.role = .candidate votes)
      (hvotes : n.hasMajority votes.length)
      (hr : Replication.start n.peers n.log.lastIndex now n = .ok r n) :
      Step o n { n with role := .leader r }
  | view {r r' : Replication} (hrole : n.role = .leader r) (hr : r.Grows r') :
      Step o n { n with role := .leader r' }
  | append {command : Bytes} {i : Index} {log : Log σ} (hrole : n.isLeader = true)
      (hlog : Log.appendAsLeader n.term command n.log = .ok i log) : Step o n { n with log }
  | commit {r : Replication} {log : Log σ} (hrole : n.role = .leader r)
      (hterm : n.log.termAt? (r.majorityMatch n.log.lastIndex) = some n.term)
      (hlog : Log.setCommitIndex (r.majorityMatch n.log.lastIndex) n.log = .ok () log) :
      Step o n { n with log }
  | reconcile {q : AppendRequest} {i : Index} {log : Log σ} (ho : o = .request (.append q))
      (hterm : q.term = n.term) (hrole : n.role.kind = .follower)
      (hlog : Log.reconcile q.prevIndex q.prevTerm q.entries q.commit n.log = .ok i log) :
      Step o n { n with log }
  | install {q : InstallRequest} {log : Log σ} {machine : μ} (ho : o = .request (.install q))
      (hterm : q.term = n.term) (hrole : n.role.kind = .follower)
      (hlog : Log.install ⟨q.index, q.snapshotTerm, q.data⟩ n.log = .ok true log)
      (hmachine : StateMachine.restore n.machine q.data = .ok machine) :
      Step o n { n with log, machine }
  | apply {e : Entry} {log : Log σ} (hlog : Log.nextCommitted n.log = .ok (some e) log) :
      Step o n { n with
        log, machine := if e.isNoop then n.machine
          else (StateMachine.apply n.machine e.index e.command).2 }
  | compact {term : Term} {log : Log σ} (hterm : n.log.termAt? n.log.lastApplied = some term)
      (hlog : Log.compact ⟨n.log.lastApplied, term, StateMachine.snapshot n.machine⟩ n.log =
        .ok () log) : Step o n { n with log }

def Steps (o : Occasion) : Node σ μ → Node σ μ → Prop :=
  Relation.ReflTransGen (Step o)

/-- A term and vote that a node may be about to store. -/
inductive Adopts (o : Occasion) (n : Node σ μ) : HardState → Prop
  | enter {term : Term} (hterm : n.term < term) : Adopts o n ⟨term, none⟩
  | vote {q : VoteRequest} (ho : o = .request (.vote q)) (hterm : q.term = n.term)
      (hfree : n.vote = none) : Adopts o n ⟨n.term, some q.candidate⟩
  | stand (ho : o = .act .stand) (hrole : n.isLeader = false) : Adopts o n ⟨n.term + 1, some n.id⟩

/-- A sum that a leader makes of the numbers in a response and that leaves the 64 bits. -/
inductive Overflows (o : Occasion) (n : Node σ μ) (r : Replication) : Prop
  | success {peer : NodeId} {sent : AppendSent} {reply : AppendReply} {now : Nat}
      (ho : o = .response (.append peer sent reply))
      (hr : r.onAppendSuccess peer sent now n = .error .abort n) : Overflows o n r
  | reject {peer : NodeId} {sent : AppendSent} {reply : AppendReply} {now : Nat}
      (ho : o = .response (.append peer sent reply))
      (hr : r.onAppendReject peer sent reply.matchHint now n = .error .abort n) : Overflows o n r
  | installed {peer : NodeId} {sentTerm : Term} {index : Index} {reply : InstallReply} {now : Nat}
      (ho : o = .response (.install peer sentTerm index reply))
      (hr : r.onInstalled peer index now n = .error .abort n) : Overflows o n r

/-- How an event fails at a node, and what it leaves of it: a write or an assertion of the log fails, a number leaves
the 64 bits, a machine rejects its snapshot, or there is an error before anything has changed. A change of role never
fails. -/
inductive Fails (o : Occasion) (n : Node σ μ) : Fault NodeError → Node σ μ → Prop
  | refuse (e : NodeError) : Fails o n (.error e) n
  | term (ho : o = .act .stand) (hfull : wordLimit ≤ n.term + 1) : Fails o n .abort n
  | office {now : Nat} (hr : Replication.start n.peers n.log.lastIndex now n = .error .abort n) :
      Fails o n .abort n
  | view {r : Replication} (hrole : n.role = .leader r) (hr : Overflows o n r) : Fails o n .abort n
  | adopt {hard : HardState} {f : Fault NodeError} {log : Log σ} (hf : f.halts = true)
      (hard_ok : Adopts o n hard) (hlog : Log.saveHard hard n.log = .error f log) :
      Fails o n f { n with term := hard.term, vote := hard.vote, log }
  | append {command : Bytes} {f : Fault NodeError} {log : Log σ} (hf : f.halts = true)
      (hrole : n.isLeader = true) (hlog : Log.appendAsLeader n.term command n.log = .error f log) :
      Fails o n f { n with log }
  | commit {r : Replication} {f : Fault NodeError} (hrole : n.role = .leader r)
      (hlog : Log.setCommitIndex (r.majorityMatch n.log.lastIndex) n.log = .error f n.log) :
      Fails o n f n
  | reconcile {q : AppendRequest} {f : Fault NodeError} {log : Log σ} (hf : f.halts = true)
      (ho : o = .request (.append q)) (hterm : q.term = n.term) (hrole : n.role.kind = .follower)
      (hlog : Log.reconcile q.prevIndex q.prevTerm q.entries q.commit n.log = .error f log) :
      Fails o n f { n with log }
  | install {q : InstallRequest} {f : Fault NodeError} {log : Log σ} (hf : f.halts = true)
      (ho : o = .request (.install q)) (hterm : q.term = n.term) (hrole : n.role.kind = .follower)
      (hlog : Log.install ⟨q.index, q.snapshotTerm, q.data⟩ n.log = .error f log) :
      Fails o n f { n with log }
  | reject {q : InstallRequest} {log : Log σ} {reason : String} (ho : o = .request (.install q))
      (hterm : q.term = n.term) (hrole : n.role.kind = .follower)
      (hlog : Log.install ⟨q.index, q.snapshotTerm, q.data⟩ n.log = .ok true log)
      (hmachine : StateMachine.restore n.machine q.data = .error reason) :
      Fails o n (.error (.snapshotCorruption reason)) { n with log }
  | apply {f : Fault NodeError} (hlog : Log.nextCommitted n.log = .error f n.log) : Fails o n f n
  | compact {term : Term} {f : Fault NodeError} {log : Log σ} (hf : f.halts = true)
      (hterm : n.log.termAt? n.log.lastApplied = some term)
      (hlog : Log.compact ⟨n.log.lastApplied, term, StateMachine.snapshot n.machine⟩ n.log =
        .error f log) : Fails o n f { n with log }

/-- A fault that the node outlives has changed nothing. -/
theorem Fails.unchanged {o : Occasion} {n n' : Node σ μ} {f : Fault NodeError}
    (h : Fails o n f n') (hgo : f.halts = false) : n' = n := by
  cases h with
  | refuse | term | office | view | commit | apply => rfl
  | adopt hf | append hf | reconcile hf | install hf | compact hf =>
    rw [hgo] at hf
    cases hf
  | reject => cases hgo

/-- The event ended well, or with an error that the node outlives. -/
def Occasion.Passes (o : Occasion) (m : Moment) (n n' : Node σ μ) : Prop :=
  o.run m n = .ok () n' ∨ ∃ f, f.halts = false ∧ o.run m n = .error f n'

/-- How an event ends early: it fails after some steps. -/
def Breaks (o : Occasion) (n : Node σ μ) (f : Fault NodeError) (n' : Node σ μ) : Prop :=
  ∃ n₁, Steps o n n₁ ∧ Fails o n₁ f n'

/-- The event goes step by step, and to `Q` if it comes to its end. -/
def Goes {α : Type} (o : Occasion) (x : NodeAction σ μ α) (Q : α → Node σ μ → Prop)
    (n : Node σ μ) : Prop :=
  wp x (fun a n' => Steps o n n' ∧ Q a n') (Breaks o n) n

variable {o : Occasion} {n n' n₁ : Node σ μ} {α β : Type} {f : Fault NodeError}

theorem Breaks.after (h : Steps o n n₁) (hf : Breaks o n₁ f n') : Breaks o n f n' := by
  obtain ⟨n₂, hs, hl⟩ := hf
  exact ⟨n₂, h.trans hs, hl⟩

/-- The first step fails. -/
theorem Fails.breaks (h : Fails o n f n') : Breaks o n f n' := ⟨n, .refl, h⟩

/-- An error that comes before anything has changed. -/
theorem Breaks.here (n : Node σ μ) (e : NodeError) : Breaks o n (.error e) n := (Fails.refuse e).breaks

variable {x : NodeAction σ μ α} {g : α → NodeAction σ μ β} {R : α → Node σ μ → Prop}
  {Q : β → Node σ μ → Prop}

theorem Goes.after {Q : α → Node σ μ → Prop} (h : Steps o n n₁) (hx : Goes o x Q n₁) :
    wp x (fun a n' => Steps o n n' ∧ Q a n') (Breaks o n) n₁ :=
  Action.wp_mono hx (fun _ _ ⟨hs, hq⟩ => ⟨h.trans hs, hq⟩) fun _ _ => .after h

theorem Goes.bind (hx : Goes o x R n)
    (hg : ∀ a n', Steps o n n' → R a n' → Goes o (g a) Q n') :
    Goes o (x >>= g) Q n := by
  refine Action.wp_seq hx ?_
  rintro a n' ⟨hs, ha⟩
  exact (hg a n' hs ha).after hs

theorem Goes.mono {R' : α → Node σ μ → Prop} (hx : Goes o x R n)
    (hR : ∀ a n', Steps o n n' → R a n' → R' a n') : Goes o x R' n :=
  Action.wp_imp hx fun _ _ ⟨hs, ha⟩ => ⟨hs, hR _ _ hs ha⟩

theorem Goes.pure {a : α} (ha : R a n) : Goes o (pure a) R n := ⟨.refl, ha⟩

/-- One step, and then the rest of the event. -/
theorem Goes.step {Q : α → Node σ μ → Prop} (h : Step o n n₁) (hx : Goes o x Q n₁) :
    wp x (fun a n' => Steps o n n' ∧ Q a n') (Breaks o n) n₁ :=
  hx.after (.single h)

/-- A leader thinks better of its peers and goes on. -/
theorem Goes.view {r r' : Replication} (hrole : n.role = .leader r) (hr : r.Grows r')
    {Q : α → Node σ μ → Prop} (hx : Goes o x Q { n with role := .leader r' }) :
    Goes o (do set { n with role := .leader r' }; x) Q n := by
  rw [Goes, Action.wp_bind, Action.wp_set]
  exact hx.step (.view hrole hr)

/-! ## Requests of a leader -/

theorem goes_requestFor (m : Moment) (peer : NodeId) :
    Goes o (requestFor m peer) (fun _ _ => True) n := by
  rw [Goes, requestFor, Action.wp_bind, Action.wp_get]
  split
  · rename_i r hrole
    split
    · exact .here n _
    · exact ⟨.refl, trivial⟩
    · rename_i q r' hq
      refine Goes.view hrole ?_ (.pure trivial)
      obtain ⟨p, request, -, -, -, -, rfl⟩ := Replication.nextRequest_eq_some hq
      exact r.grows_update peer fun _ _ => le_rfl
  · exact ⟨.refl, trivial⟩

theorem goes_requestTo (m : Moment) (peer : NodeId) :
    Goes o (do pure (← requestFor m peer).toList) (fun _ _ => True) n :=
  (goes_requestFor m peer).bind fun _ _ _ _ => .pure trivial

theorem goes_requestsFor (m : Moment) (names : List NodeId) :
    Goes o (requestsFor m names) (fun _ _ => True) n := by
  induction names generalizing n with
  | nil => exact .pure trivial
  | cons peer rest ih =>
    refine (goes_requestFor m peer).bind fun _ n₁ _ _ => ?_
    exact ih.bind fun _ _ _ _ => .pure trivial

theorem goes_replicate (m : Moment) : Goes o (replicate m) (fun _ _ => True) n := by
  rw [Goes, replicate, Action.wp_bind, Action.wp_get]
  exact goes_requestsFor m n.peers

theorem goes_heartbeat (m : Moment) : Goes o (heartbeat m) (fun _ _ => True) n := by
  rw [Goes, heartbeat, Action.wp_bind, Action.wp_get]
  split
  · rename_i r hrole
    have hr : r.Grows (r.checkQuorum m.now n.config.electionMax).2 := fun _ p hp => ⟨p, hp, le_rfl⟩
    exact Goes.view hrole hr (goes_replicate m)
  · exact ⟨.refl, trivial⟩

variable [LawfulStore σ]

/-- An operation of the log that is a step of the node. -/
theorem Goes.onLog {op : LogAction σ α} (hop : Log.Maintains (fun _ => True) op n.log)
    (hok : ∀ a log, op n.log = .ok a log → Step o n { n with log })
    (herror : ∀ f log, f.halts = true → op n.log = .error f log → Fails o n f { n with log }) :
    Goes o (Node.onLog op) (fun a n' => ∃ log, op n.log = .ok a log ∧ n' = { n with log }) n := by
  rw [Goes, wp_onLog]
  refine Action.wp_mono (Action.wp_and (Action.wp_self op n.log) hop) ?_ ?_
  · rintro a log ⟨hlog, -⟩
    exact ⟨.single (hok a log hlog), log, hlog, rfl⟩
  · rintro f log ⟨hlog, hf, -⟩
    exact (herror f log hf hlog).breaks

/-! ## Term, vote and role -/

omit [StateMachine μ] in
theorem wp_adopt (term : Term) (vote : Option NodeId) : wp (adopt term vote)
    (fun _ n' => ∃ log, Log.saveHard ⟨term, vote⟩ n.log = .ok () log ∧
      n' = { n with term, vote, log })
    (fun f n' => f.halts = true ∧ ∃ log, Log.saveHard ⟨term, vote⟩ n.log = .error f log ∧
      n' = { n with term, vote, log }) n := by
  have hsave : Log.Maintains (fun _ => True) (Log.saveHard ⟨term, vote⟩) n.log :=
    Log.Maintains.write (w := .hard ⟨term, vote⟩) (fun _ _ _ _ => trivial) trivial
  simp only [adopt, Action.wp_bind, Action.wp_modify, wp_onLog]
  refine Action.wp_mono (Action.wp_and (Action.wp_self (Log.saveHard _) n.log) hsave) ?_ ?_
  · rintro _ log ⟨hlog, -⟩
    exact ⟨log, hlog, rfl⟩
  · rintro f log ⟨hlog, hf, -⟩
    exact ⟨hf, log, hlog, rfl⟩

/-- A term and vote that a node may adopt, and what it does then. -/
theorem Goes.adopt {term : Term} {vote : Option NodeId} (h : Adopts o n ⟨term, vote⟩)
    {g : NodeAction σ μ β} (hg : ∀ log, Log.saveHard ⟨term, vote⟩ n.log = .ok () log →
      wp g (fun b n' => Steps o n n' ∧ Q b n') (Breaks o n) { n with term, vote, log }) :
    Goes o (do Node.adopt term vote; g) Q n := by
  rw [Goes, Action.wp_bind]
  refine Action.wp_mono (wp_adopt term vote) ?_ ?_
  · rintro - _ ⟨log, hlog, rfl⟩
    exact hg log hlog
  · rintro f _ ⟨hf, log, hlog, rfl⟩
    exact (Fails.adopt hf h hlog).breaks

omit [LogStore σ] [StateMachine μ] [LawfulStore σ] in
theorem wp_setRole {role : Role} (h : n.role.kind.mayBecome role.kind = true)
    {Q : Unit → Node σ μ → Prop} {E : Fault NodeError → Node σ μ → Prop} :
    wp (setRole role) Q E n ↔ Q () { n with role } := by
  simp only [setRole, Action.wp_bind, Action.wp_get, Action.wp_require, h, if_true,
    Action.wp_modify]

omit [LogStore σ] [StateMachine μ] [LawfulStore σ] in
theorem mayBecome_follower (k : RoleKind) : k.mayBecome .follower = true := by
  cases k <;> rfl

omit [LogStore σ] [StateMachine μ] [LawfulStore σ] in
theorem mayBecome_candidate (h : n.isLeader = false) : n.role.kind.mayBecome .candidate = true := by
  unfold isLeader at h
  cases hk : n.role.kind with
  | follower | candidate => rfl
  | leader => simp [hk] at h

theorem goes_becomeFollower (m : Moment) (term : Term) (leader : Option NodeId) :
    Goes o (becomeFollower m term leader)
      (fun _ n' => n'.term = max n.term term ∧ n'.role = .follower leader) n := by
  rw [Goes, becomeFollower, Action.wp_bind, Action.wp_get, Action.wp_ite]
  split
  · rename_i hlt
    refine Goes.adopt (.enter hlt) fun log hlog => ?_
    rw [Action.wp_bind, wp_setRole (mayBecome_follower _), resetDeadline, Action.wp_modify]
    exact ⟨.tail (.single (.enter leader hlt hlog)) (.wait _ _), (max_eq_right hlt.le).symm, rfl⟩
  · rename_i hle
    rw [Action.wp_bind, wp_setRole (mayBecome_follower _), resetDeadline, Action.wp_modify]
    exact ⟨.tail (.single (.follow leader)) (.wait _ _), (max_eq_left (by lia)).symm, rfl⟩

theorem goes_follow (m : Moment) (term : Term) (leader : NodeId) :
    Goes o (follow m term leader)
      (fun _ n' => n'.term = max n.term term ∧ n'.role = .follower (some leader)) n := by
  rw [Goes, follow, Action.wp_bind, Action.wp_get, Action.wp_ite]
  split
  · exact goes_becomeFollower m term (some leader)
  · rename_i hstay
    rw [Action.wp_bind, wp_setRole (mayBecome_follower _), resetDeadline, Action.wp_modify]
    exact ⟨.tail (.single (.follow _)) (.wait _ _), (max_eq_left (by lia)).symm, rfl⟩

/-! ## Leading -/

theorem goes_advanceCommit : Goes o advanceCommit (fun _ _ => True) n := by
  rw [Goes, advanceCommit, Action.wp_bind, Action.wp_get]
  split
  · rename_i r hrole
    rw [Action.wp_ite]
    split
    · rename_i hnew
      simp only [Bool.and_eq_true, decide_eq_true_eq] at hnew
      refine (Goes.onLog (Log.Maintains.setCommitIndex trivial _)
        (fun _ _ hlog => .commit hrole hnew.2 hlog) fun f log _ hlog => ?_).mono
          fun _ _ _ _ => trivial
      -- a commit index that is refused is not written
      have hsame : wp (Log.setCommitIndex (r.majorityMatch n.log.lastIndex)) (fun _ _ => True)
          (fun _ l => l = n.log) n.log := by
        simp only [Log.setCommitIndex, Action.wp_bind, Action.wp_get, Action.wp_require]
        split
        · rw [Action.wp_ite]
          split <;> trivial
        · trivial
      obtain rfl := Action.wp_error hsame hlog
      exact .commit hrole hlog
    · exact ⟨.refl, trivial⟩
  · exact ⟨.refl, trivial⟩

theorem goes_append (hrole : n.isLeader = true) (command : Bytes) :
    Goes o (Node.onLog (Log.appendAsLeader n.term command)) (fun _ _ => True) n :=
  (Goes.onLog (Log.Maintains.appendAsLeader (Persisted.steady_true.append _) trivial)
    (fun _ _ hlog => .append hrole hlog) fun _ _ hf hlog => .append hf hrole hlog).mono
      fun _ _ _ _ => trivial

theorem goes_propose (command : Bytes) : Goes o (propose command) (fun _ _ => True) n := by
  rw [Goes, propose, Action.wp_bind, Action.wp_get, Action.wp_ite]
  split
  · exact .here n _
  rename_i hleader
  rw [Action.wp_ite]
  split
  · exact .here n _
  split
  · exact .here n _
  · refine (goes_append (by simpa using hleader) command).bind fun _ _ _ _ => ?_
    exact goes_advanceCommit.bind fun _ _ _ _ => .pure trivial

theorem goes_becomeLeader {votes : List NodeId} (hrole : n.role = .candidate votes)
    (hvotes : n.hasMajority votes.length) (m : Moment) :
    Goes o (becomeLeader m) (fun _ _ => True) n := by
  rw [Goes, becomeLeader, Action.wp_bind, Action.wp_get, Action.wp_bind]
  refine Action.wp_mono (Action.wp_and (Action.wp_self (Replication.start _ _ _) n)
    (Replication.wp_start_same _ _ _)) ?_ ?_
  · rintro r n ⟨hr, rfl⟩
    have hcandidate : n.role.kind = .candidate := by rw [hrole]; rfl
    rw [Action.wp_bind, wp_setRole (by rw [hcandidate]; rfl)]
    refine Goes.step (.elect hrole hvotes hr) ?_
    refine (goes_append (n := { n with role := .leader r }) rfl []).bind fun _ _ _ _ => ?_
    exact goes_advanceCommit.bind fun _ _ _ _ => goes_replicate m
  · rintro f n ⟨hr, rfl, rfl⟩
    exact (Fails.office hr).breaks

/-! ## Elections -/

theorem goes_startElection (m : Moment) :
    Goes (.act .stand) (startElection m) (fun _ _ => True) n := by
  rw [Goes, startElection, Action.wp_bind, Action.wp_get, Action.wp_ite]
  split
  · exact ⟨.refl, trivial⟩
  rename_i hleader
  have hfree : n.isLeader = false := by simpa using hleader
  rw [Action.wp_bind, Action.wp_add]
  split
  · refine Goes.adopt (.stand rfl hfree) fun log hlog => ?_
    rw [Action.wp_bind, wp_setRole (mayBecome_candidate hfree), Action.wp_bind, resetDeadline, Action.wp_modify,
      Action.wp_ite]
    let candidate : Node σ μ := { n with
      term := n.term + 1, vote := some n.id, log, role := .candidate [n.id],
      electionDeadline := n.config.deadline m }
    have hstood : Steps (.act .stand) n candidate :=
      .tail (.single (.stand rfl hfree hlog)) (.wait _ _)
    split
    · rename_i hmajority
      have hmajority' : candidate.hasMajority [n.id].length := hmajority
      exact (goes_becomeLeader rfl hmajority' m).after hstood
    · exact ⟨hstood, trivial⟩
  · rename_i hfull
    exact (Fails.term rfl (by lia)).breaks

theorem goes_decideVote (m : Moment) {q : VoteRequest} (ho : o = .request (.vote q))
    (hterm : q.term = n.term) : Goes o (decideVote m q)
      (fun a n' => a.term = n'.term ∧
        (a.granted → q.term = n'.term ∧ n'.vote = some q.candidate)) n := by
  rw [Goes, decideVote, Action.wp_bind, Action.wp_get, Action.wp_ite]
  split
  · rename_i hok
    simp only [Bool.and_eq_true, Bool.or_eq_true, decide_eq_true_eq] at hok
    simp only [Action.wp_ite]
    split
    · rename_i hne
      have hfree : n.vote = none := hok.1.resolve_right hne
      refine Goes.adopt (.vote ho hterm hfree) fun log hlog => ?_
      rw [Action.wp_bind, resetDeadline, Action.wp_modify]
      exact ⟨.tail (.single (.vote ho hterm hfree hlog)) (.wait _ _), rfl, fun _ => ⟨hterm, rfl⟩⟩
    · rename_i heq
      rw [Action.wp_bind, resetDeadline, Action.wp_modify]
      exact ⟨.single (.wait _ _), rfl, fun _ => ⟨hterm, not_not.mp heq⟩⟩
  · exact ⟨.refl, rfl, fun hg => absurd hg Bool.false_ne_true⟩

theorem goes_onVoteRequest (m : Moment) {q : VoteRequest} (ho : o = .request (.vote q)) :
    Goes o (onVoteRequest m q)
      (fun a n' => a.term = n'.term ∧
        (a.granted → q.term = n'.term ∧ n'.vote = some q.candidate)) n := by
  rw [Goes, onVoteRequest_eq, Action.wp_bind, Action.wp_get, Action.wp_ite]
  split
  · exact ⟨.refl, rfl, fun hg => absurd hg Bool.false_ne_true⟩
  rename_i hold
  rw [Action.wp_bind, Action.wp_get, Action.wp_ite]
  split
  · rename_i hnew
    refine (goes_becomeFollower m q.term none).bind fun _ n' _ hn' => ?_
    exact goes_decideVote m ho (by lia)
  · exact goes_decideVote m ho (by lia)

theorem goes_stepDown (m : Moment) (term : Term) :
    Goes o (do becomeFollower m term none; pure ([] : List Outbound)) (fun _ _ => True) n :=
  (goes_becomeFollower m term none).bind fun _ _ _ _ => .pure trivial

theorem goes_onVoteReply (m : Moment) (peer : NodeId) (sentTerm : Term) (r : VoteReply) :
    Goes (.response (.vote peer sentTerm r)) (onVoteReply m peer sentTerm r) (fun _ _ => True)
      n := by
  rw [Goes, onVoteReply, Action.wp_bind, Action.wp_get, Action.wp_ite]
  split
  · exact goes_stepDown m r.term
  rw [Action.wp_ite]
  split
  · exact ⟨.refl, trivial⟩
  rename_i hcounts
  simp only [ne_eq, Bool.or_eq_true, decide_eq_true_eq, not_or, not_not, Bool.not_eq_true',
    Bool.not_eq_false] at hcounts
  obtain ⟨rfl, hgranted⟩ := hcounts
  split
  · rename_i votes hrole
    dsimp only
    have hcount : Steps (.response (.vote peer n.term r)) n _ :=
      .single (.count rfl hgranted hrole)
    generalize (if votes.contains peer then votes else votes ++ [peer]) = votes' at hcount ⊢
    rw [Action.wp_bind, Action.wp_set, Action.wp_ite]
    let candidate : Node σ μ := { n with role := .candidate votes' }
    split
    · rename_i hmajority
      have hmajority' : candidate.hasMajority votes'.length := hmajority
      exact (goes_becomeLeader rfl hmajority' m).after hcount
    · exact ⟨hcount, trivial⟩
  · exact ⟨.refl, trivial⟩

/-! ## Replication -/

theorem goes_onAppendRequest (m : Moment) {q : AppendRequest} (ho : o = .request (.append q)) :
    Goes o (onAppendRequest m q) (fun a n' => a.term = n'.term) n := by
  rw [Goes, onAppendRequest, Action.wp_bind, Action.wp_get, Action.wp_ite]
  split
  · exact ⟨.refl, rfl⟩
  rename_i hold
  refine (goes_follow m q.term q.leader).bind fun _ n₁ _ hn₁ => ?_
  have hterm : q.term = n₁.term := by lia
  have hrole : n₁.role.kind = .follower := by rw [hn₁.2]; rfl
  have hrec := Log.wp_reconcile_maintains (l := n₁.log) Persisted.steady_true.truncate
    (fun es (_ : es ⊆ q.entries) => Persisted.steady_true.append es) trivial q.prevIndex q.prevTerm q.commit
  rw [Goes, Action.wp_bind, Action.wp_get]
  split
  · rename_i log hres
    exact ⟨.single (.reconcile ho hterm hrole hres), rfl⟩
  · rename_i hint log hres
    obtain ⟨hf, -⟩ | ⟨rfl, -⟩ := Action.wp_error hrec hres
    · exact absurd hf Bool.false_ne_true
    · exact ⟨.refl, rfl⟩
  · rename_i f log hother hres
    obtain ⟨hf, -⟩ | ⟨-, i, hint, rfl⟩ := Action.wp_error hrec hres
    · exact (Fails.reconcile hf ho hterm hrole hres).breaks
    · exact absurd rfl (hother i hint)

theorem goes_onAppendReply (m : Moment) (peer : NodeId) (sent : AppendSent) (r : AppendReply) :
    Goes (.response (.append peer sent r)) (onAppendReply m peer sent r) (fun _ _ => True) n := by
  rw [Goes, onAppendReply, Action.wp_bind, Action.wp_get, Action.wp_ite]
  split
  · exact goes_stepDown m r.term
  rw [Action.wp_ite]
  split
  · exact ⟨.refl, trivial⟩
  split
  · rename_i view hrole
    rw [Action.wp_ite]
    split
    · rw [Action.wp_bind]
      refine Action.wp_mono (Action.wp_and (Action.wp_self (view.onAppendSuccess peer sent m.now) n)
        (Replication.widens_onAppendSuccess peer sent m.now)) ?_ ?_
      · rintro view' n ⟨-, rfl, hgrows⟩
        refine Goes.view hrole hgrows (goes_advanceCommit.bind fun _ _ _ _ => ?_)
        rw [Goes, Action.wp_ite]
        split
        · exact goes_requestTo m peer
        · exact ⟨.refl, trivial⟩
      · rintro f n ⟨hr, rfl, rfl⟩
        exact (Fails.view hrole (.success rfl hr)).breaks
    · rw [Action.wp_bind]
      refine Action.wp_mono (Action.wp_and
        (Action.wp_self (view.onAppendReject peer sent r.matchHint m.now) n)
        (Replication.widens_onAppendReject peer sent r.matchHint m.now)) ?_ ?_
      · rintro view' n ⟨-, rfl, hgrows⟩
        exact Goes.view hrole hgrows (.pure trivial)
      · rintro f n ⟨hr, rfl, rfl⟩
        exact (Fails.view hrole (.reject rfl hr)).breaks
  · exact ⟨.refl, trivial⟩

omit [LawfulStore σ] in
theorem goes_onUnreachable (peer : NodeId) (sentTerm : Term) :
    Goes o (onUnreachable peer sentTerm) (fun _ _ => True) n := by
  rw [Goes, onUnreachable, Action.wp_bind, Action.wp_get, Action.wp_ite]
  split
  · split
    · rename_i view hrole
      exact ⟨.single (.view hrole (view.grows_update peer fun _ _ => le_rfl)), trivial⟩
    · exact ⟨.refl, trivial⟩
  · exact ⟨.refl, trivial⟩

/-! ## Snapshots -/

theorem goes_onInstallRequest (m : Moment) {q : InstallRequest} (ho : o = .request (.install q)) :
    Goes o (onInstallRequest m q) (fun a n' => a.term = n'.term) n := by
  rw [Goes, onInstallRequest, Action.wp_bind, Action.wp_get, Action.wp_ite]
  split
  · exact ⟨.refl, rfl⟩
  rename_i hold
  refine (goes_follow m q.term q.leader).bind fun _ n₁ _ hn₁ => ?_
  have hterm : q.term = n₁.term := by lia
  have hrole : n₁.role.kind = .follower := by rw [hn₁.2]; rfl
  rw [Goes, Action.wp_bind, wp_onLog]
  refine Action.wp_mono (Action.wp_and (Action.wp_self (Log.install _) n₁.log)
    (Action.wp_and (Log.wp_install_refused n₁.log _)
      (Log.Maintains.install Persisted.steady_true.truncate (Persisted.steady_true.install _ trivial) trivial)))
        ?_ ?_
  · rintro installed log ⟨hlog, hrefused, -⟩
    simp only [Action.wp_ite, Action.wp_bind, Action.wp_get, Action.wp_pure]
    split
    · rename_i hinstalled
      subst hinstalled
      split
      · rename_i reason hmachine
        exact (Fails.reject ho hterm hrole hlog hmachine).breaks
      · rename_i machine hmachine
        exact ⟨.tail (.single (.install ho hterm hrole hlog hmachine)) (.wait _ _), rfl⟩
    · rename_i hinstalled
      rw [hrefused (by simpa using hinstalled)]
      exact ⟨.refl, trivial⟩
  · rintro f log ⟨hlog, -, hf, -⟩
    exact (Fails.install hf ho hterm hrole hlog).breaks

theorem goes_onInstallReply (m : Moment) (peer : NodeId) (sentTerm : Term) (index : Index)
    (r : InstallReply) : Goes (.response (.install peer sentTerm index r))
      (onInstallReply m peer sentTerm index r) (fun _ _ => True) n := by
  rw [Goes, onInstallReply, Action.wp_bind, Action.wp_get, Action.wp_ite]
  split
  · exact goes_stepDown m r.term
  rw [Action.wp_ite]
  split
  · exact ⟨.refl, trivial⟩
  split
  · rename_i view hrole
    rw [Action.wp_bind]
    refine Action.wp_mono (Action.wp_and (Action.wp_self (view.onInstalled peer index m.now) n)
      (Replication.widens_confirm peer index m.now)) ?_ ?_
    · rintro view' n ⟨-, rfl, hgrows⟩
      exact Goes.view hrole hgrows (goes_advanceCommit.bind fun _ _ _ _ => goes_requestTo m peer)
    · rintro f n ⟨hr, rfl, rfl⟩
      exact (Fails.view hrole (.installed rfl hr)).breaks
  · exact ⟨.refl, trivial⟩

theorem goes_takeSnapshot : Goes o takeSnapshot (fun _ _ => True) n := by
  rw [Goes, takeSnapshot, Action.wp_bind, Action.wp_get, Action.wp_ite]
  split
  · exact ⟨.refl, trivial⟩
  split
  · exact .here n _
  · rename_i term hterm
    refine (Goes.onLog (Log.Maintains.compact (Persisted.steady_true.install _ trivial) trivial)
      (fun _ _ hlog => .compact hterm hlog) fun _ _ hf hlog => .compact hf hterm hlog).bind
        fun _ n' _ _ => ?_
    exact ⟨.single (.wait _ _), trivial⟩

omit [LawfulStore σ] in
theorem goes_applyNext (count : Nat) : Goes o (applyNext count) (fun _ _ => True) n := by
  induction count generalizing n with
  | zero => exact .pure trivial
  | succ count ih =>
    rw [Goes, applyNext, Action.wp_bind, wp_onLog]
    refine Action.wp_mono (Action.wp_and (Action.wp_self Log.nextCommitted n.log)
      (Log.wp_nextCommitted_reads n.log)) ?_ ?_
    · rintro (_ | e) log ⟨hlog, hnone⟩
      · rw [hnone rfl]
        exact ⟨.refl, trivial⟩
      · have happly : Step o n _ := .apply hlog
        dsimp only
        rw [Action.wp_bind, Action.wp_modify, Action.wp_ite]
        split
        · rename_i hnoop
          rw [if_pos hnoop] at happly
          exact ih.after (.tail (.single happly) (.wait _ _))
        · rename_i hcommand
          rw [if_neg hcommand] at happly
          rw [Action.wp_bind, Action.wp_get, Action.wp_bind, Action.wp_set]
          refine Goes.after (.tail (.single happly) (.wait _ _)) ?_
          exact ih.bind fun _ _ _ _ => .pure trivial
    · rintro f log ⟨hlog, rfl⟩
      exact (Fails.apply hlog).breaks

theorem goes_applyCommitted : Goes o applyCommitted (fun _ _ => True) n := by
  rw [Goes, applyCommitted, Action.wp_bind, Action.wp_get]
  refine (goes_applyNext _).bind fun applied n' _ _ => ?_
  rw [Goes, Action.wp_bind, Action.wp_get]
  simp only [Action.wp_ite, Action.wp_bind, Action.wp_pure]
  split
  · exact goes_takeSnapshot
  · exact ⟨.refl, trivial⟩

/-! ## Any message -/

/-- A reply tells the term of the node, and a vote that is granted is the vote of the node in that term. -/
theorem goes_onRequest (m : Moment) (request : Request) :
    Goes (.request request) (onRequest m request)
      (fun a n' => a.term = n'.term ∧ ∀ q t, request = .vote q → a = .vote ⟨t, true⟩ →
        q.term = n'.term ∧ n'.vote = some q.candidate) n := by
  cases request with
  | vote q =>
    refine (goes_onVoteRequest m rfl).bind fun a n' _ ha => .pure ⟨ha.1, ?_⟩
    rintro q' t ⟨⟩ ⟨⟩
    exact ha.2 rfl
  | append q =>
    refine (goes_onAppendRequest m rfl).bind fun a n' _ ha => .pure ⟨ha, ?_⟩
    rintro q' t ⟨⟩
  | install q =>
    refine (goes_onInstallRequest m rfl).bind fun a n' _ ha => .pure ⟨ha, ?_⟩
    rintro q' t ⟨⟩

theorem goes_onResponse (m : Moment) (r : Response) :
    Goes (.response r) (onResponse m r) (fun _ _ => True) n := by
  cases r with
  | vote peer sentTerm r => exact goes_onVoteReply m peer sentTerm r
  | append peer sent r => exact goes_onAppendReply m peer sent r
  | install peer sentTerm index r => exact goes_onInstallReply m peer sentTerm index r
  | unreachable peer sentTerm =>
    exact (goes_onUnreachable peer sentTerm).bind fun _ _ _ _ => .pure trivial

theorem goes_command (c : Protocol.Command) (m : Moment) :
    Goes (.act c) (c.run m) (fun _ _ => True) n := by
  cases c with
  | stand => exact goes_startElection m
  | heartbeat => exact goes_heartbeat m
  | replicate => exact goes_replicate m
  | propose command =>
    rw [Protocol.Command.run, Goes, Action.wp_map]
    exact goes_propose command
  | apply =>
    rw [Protocol.Command.run, Goes, Action.wp_map]
    exact goes_applyCommitted
  | snapshot =>
    rw [Protocol.Command.run, Goes, Action.wp_map]
    exact goes_takeSnapshot

theorem goes_run (o : Occasion) (m : Moment) : Goes o (o.run m) (fun _ _ => True) n := by
  cases o with
  | act c =>
    rw [Occasion.run, Goes, Action.wp_map]
    exact goes_command c m
  | request q =>
    rw [Occasion.run, Goes, Action.wp_map]
    exact Action.wp_imp (goes_onRequest m q) fun _ _ h => ⟨h.1, trivial⟩
  | response r =>
    rw [Occasion.run, Goes, Action.wp_map]
    exact goes_onResponse m r

theorem Occasion.Passes.steps {m : Moment} (h : o.Passes m n n') : Steps o n n' := by
  obtain hok | ⟨f, hf, herror⟩ := h
  · exact (Action.wp_ok (goes_run o m) hok).1
  · obtain ⟨n₁, hs, hfails⟩ := Action.wp_error (goes_run o m) herror
    rw [hfails.unchanged hf]
    exact hs

end Node

end RaftNode
