import RaftNode.Node
import RaftNode.Proofs.Committed
import RaftNode.Proofs.LogOperations
import Mathlib.Data.Finset.Basic
/-!
# A member and the history

What a history says of a member that is down, of one that runs, and of its office. A step of a member moves the
history along, and what it leaves behind is what the later history says.
-/
namespace RaftNode

open RaftNode.Action (wp)
open History (Sound Moves Extends Frame Committed)

/-- What a store holds. -/
structure Stored (members : Finset NodeId) (h : History) (i : NodeId) (p : Persisted) : Prop where
  term : h.term i = p.hard.term
  vote : h.vote i p.hard.term = p.hard.vote
  log : p.StandsFor (h.log i)
  covered : Committed members h p.hard.term ((h.log i).take p.covered)

variable {σ μ : Type} [LogStore σ] [LawfulStore σ]

/-- What a node shows, its role left aside. -/
structure Keeps (members : Finset NodeId) (h : History) (i : NodeId) (n : Node σ μ) : Prop where
  id : n.id = i
  member : i ∈ members
  distinct : n.peers.Nodup
  others : n.peers.toFinset = members.erase i
  term : h.term i = n.term
  vote : h.vote i n.term = n.vote
  hard : (kept n.log.store).hard = ⟨n.term, n.vote⟩
  log : n.log.Shows (h.log i)
  committed : Committed members h n.term ((h.log i).take n.log.commitIndex)

structure Campaigns (members : Finset NodeId) (h : History) (i : NodeId) (T : Term)
    (votes : List NodeId) : Prop where
  stood : h.stood i T = h.log i
  self : h.vote i T = some i
  pending : h.leader T ≠ some i
  distinct : votes.Nodup
  voted : ∀ v ∈ votes, v ∈ members ∧ h.vote v T = some i

/-- What a leader has noted of a peer: the peer has acknowledged that much, and the next request goes on from there or
from further on in the leader's log. -/
structure Tracks (h : History) (i : NodeId) (T : Term) (peer : NodeId) (p : Progress) : Prop where
  matched : p.matchIndex ≤ h.acked peer T
  ahead : p.matchIndex < p.nextIndex
  within : p.nextIndex ≤ (h.log i).length + 1

structure Governs (h : History) (i : NodeId) (T : Term) (peers : List NodeId)
    (r : Replication) : Prop where
  office : h.leader T = some i
  peers : r.peers.map Prod.fst = peers
  tracks : ∀ p ∈ r.peers, Tracks h i T p.1 p.2
  own : (h.log i).length ≤ h.acked i T

/-- What the role of a node rests on. -/
def Holds (members : Finset NodeId) (h : History) (i : NodeId) (n : Node σ μ) : Prop :=
  match n.role with
  | .follower _ => True
  | .candidate votes => Campaigns members h i n.term votes
  | .leader r => Governs h i n.term n.peers r

structure Runs (members : Finset NodeId) (h : History) (i : NodeId) (n : Node σ μ) : Prop
    extends Keeps members h i n where
  role : Holds members h i n

omit [LogStore σ] [LawfulStore σ] in
/-- The node over a recovered log. Its machine is the one at hand, or the one that the snapshot describes. -/
theorem Node.ofRecovered_ok [StateMachine μ] {id : NodeId} {peers : List NodeId}
    {r : Log.Recovered σ} {fresh : μ} {config : Config} {m : Moment} {n : Node σ μ}
    (hn : Node.ofRecovered id peers r fresh config m = .ok n) :
    ∃ machine, (r.snapshot = none ∧ machine = fresh ∨
        ∃ snap, r.snapshot = some snap ∧ StateMachine.restore fresh snap.data = .ok machine) ∧
      n = {
        id, config, machine, peers := peers.filter fun p => p ≠ id, term := r.hard.term,
        vote := r.hard.vote, log := r.log, role := .follower none,
        electionDeadline := config.deadline m, appliedSinceSnapshot := 0 } := by
  unfold Node.ofRecovered at hn
  cases hsnap : r.snapshot with
  | none =>
    rw [hsnap] at hn
    exact ⟨fresh, Or.inl ⟨rfl, rfl⟩, (Except.ok.inj hn).symm⟩
  | some snap =>
    rw [hsnap] at hn
    cases hrestore : StateMachine.restore fresh snap.data with
    | error e =>
      simp only [hrestore] at hn
      cases hn
    | ok machine =>
      simp only [hrestore] at hn
      exact ⟨machine, Or.inr ⟨snap, rfl, hrestore⟩, (Except.ok.inj hn).symm⟩

variable {members : Finset NodeId} {h h' : History} {i v : NodeId} {n n' : Node σ μ} {T : Term}
  {α β : Type}

/-! ## What another member's moves leave -/

theorem Stored.frame {p : Persisted} (hs : Sound members h) (hm : Moves members v h h')
    (hne : i ≠ v) (hp : Stored members h i p) : Stored members h' i p where
  term := (hm.frame.term i hne).trans hp.term
  vote := by rw [hm.frame.vote i hne]; exact hp.vote
  log := by rw [hm.frame.log i hne]; exact hp.log
  covered := by rw [hm.frame.log i hne]; exact hp.covered.extends hs hm.grows

theorem Keeps.frame (hs : Sound members h) (hm : Moves members v h h') (hne : i ≠ v)
    (hk : Keeps members h i n) : Keeps members h' i n :=
  { hk with
    term := (hm.frame.term i hne).trans hk.term
    vote := by rw [hm.frame.vote i hne]; exact hk.vote
    log := by rw [hm.frame.log i hne]; exact hk.log
    committed := by rw [hm.frame.log i hne]; exact hk.committed.extends hs hm.grows }

omit [LogStore σ] [LawfulStore σ] in
theorem Holds.frame (hm : Moves members v h h') (hne : i ≠ v) (hr : Holds members h i n) :
    Holds members h' i n := by
  unfold Holds at *
  split at hr
  · trivial
  · exact {
      stood := by rw [hm.grows.stood i _ hr.self, hr.stood, hm.frame.log i hne]
      self := hm.grows.vote _ _ _ hr.self
      pending := fun hl => hr.pending (hm.frame.leader i _ hne hl)
      distinct := hr.distinct
      voted := fun u hu => ⟨(hr.voted u hu).1, hm.grows.vote _ _ _ (hr.voted u hu).2⟩ }
  · exact {
      office := hm.grows.leader _ _ hr.office
      peers := hr.peers
      tracks := fun p hp => {
        matched := (hr.tracks p hp).matched.trans (hm.grows.acked _ _)
        ahead := (hr.tracks p hp).ahead
        within := by rw [hm.frame.log i hne]; exact (hr.tracks p hp).within }
      own := by rw [hm.frame.log i hne]; exact hr.own.trans (hm.grows.acked _ _) }

theorem Runs.frame (hs : Sound members h) (hm : Moves members v h h') (hne : i ≠ v)
    (hr : Runs members h i n) : Runs members h' i n :=
  ⟨hr.toKeeps.frame hs hm hne, hr.role.frame hm hne⟩

/-- A node that stops leaves what it showed. -/
theorem Keeps.stored (hk : Keeps members h i n) : Stored members h i (kept n.log.store) where
  term := by rw [hk.hard]; exact hk.term
  vote := by rw [hk.hard]; exact hk.vote
  log := hk.log.stored
  covered := by
    rw [hk.hard]
    exact hk.committed.isPrefix (List.take_prefix_take_left hk.log.covered_le_commit)

/-- A node that stops while its log changes. -/
theorem Keeps.stored_changed (hs : Sound members h) (hk : Keeps members h i n)
    (hm : Moves members i h h') (ht : h'.term i = h.term i) (hv : h'.vote i = h.vote i)
    {p : Persisted} (hhard : p.hard = (kept n.log.store).hard) (hl : p.StandsFor (h'.log i))
    (hcov : p.covered ≤ n.log.commitIndex)
    (hsame : (h'.log i).take n.log.commitIndex = (h.log i).take n.log.commitIndex) :
    Stored members h' i p := by
  have hhard' : p.hard = ⟨n.term, n.vote⟩ := hhard.trans hk.hard
  refine ⟨?_, ?_, hl, ?_⟩
  · rw [hhard', ht, hk.term]
  · rw [hhard', hv, hk.vote]
  · rw [hhard']
    refine Committed.isPrefix ?_ (List.take_prefix_take_left hcov)
    rw [hsame]
    exact hk.committed.extends hs hm.grows

/-! ## Steps that move the history -/

/-- A node halted, and a later history says what its store holds. -/
def Halted (members : Finset NodeId) (h : History) (i : NodeId) (f : Fault NodeError)
    (n : Node σ μ) : Prop :=
  f.halts = true ∧ ∃ h', Moves members i h h' ∧ Stored members h' i (kept n.log.store)

/-- The step takes node and history along to `Q`, unless the node halts. -/
def Evolves (members : Finset NodeId) (h : History) (i : NodeId) (x : NodeAction σ μ α)
    (Q : History → α → Node σ μ → Prop) (n : Node σ μ) : Prop :=
  wp x (fun a n' => ∃ h', Moves members i h h' ∧ Q h' a n') (Halted members h i) n

theorem Halted.after {f : Fault NodeError} (hm : Moves members i h h')
    (hf : Halted members h' i f n) : Halted members h i f n :=
  ⟨hf.1, hf.2.imp fun _ hn => ⟨hm.trans hn.1, hn.2⟩⟩

theorem Keeps.halted (hs : Sound members h) (hk : Keeps members h i n) {f : Fault NodeError}
    (hf : f.halts = true) : Halted members h i f n :=
  ⟨hf, h, .refl hs, hk.stored⟩

variable {x : NodeAction σ μ α} {f : α → NodeAction σ μ β} {R : History → α → Node σ μ → Prop}
  {Q : History → β → Node σ μ → Prop}

theorem Evolves.after (hm : Moves members i h h') (hx : Evolves members h' i x R n) :
    Evolves members h i x R n :=
  Action.wp_mono hx (fun _ _ ⟨h₁, hm₁, hR⟩ => ⟨h₁, hm.trans hm₁, hR⟩) fun _ _ => .after hm

theorem Evolves.mono {R' : History → α → Node σ μ → Prop} (hx : Evolves members h i x R n)
    (hR : ∀ h' a n', Moves members i h h' → R h' a n' → R' h' a n') :
    Evolves members h i x R' n :=
  Action.wp_imp hx fun _ _ ⟨h₁, hm, ha⟩ => ⟨h₁, hm, hR _ _ _ hm ha⟩

/-- A step that needs no later history. -/
theorem Evolves.of_wp (hs : Sound members h) (hx : wp x (R h) (Halted members h i) n) :
    Evolves members h i x R n :=
  Action.wp_imp hx fun _ _ ha => ⟨h, .refl hs, ha⟩

theorem Evolves.bind (hx : Evolves members h i x R n)
    (hf : ∀ h' a n', Moves members i h h' → R h' a n' → Evolves members h' i (f a) Q n') :
    Evolves members h i (x >>= f) Q n := by
  refine Action.wp_seq hx ?_
  rintro a n' ⟨h', hm, ha⟩
  exact Evolves.after hm (hf h' a n' hm ha)

theorem Evolves.pure {a : α} (hs : Sound members h) (ha : R h a n) :
    Evolves members h i (pure a) R n :=
  ⟨h, .refl hs, ha⟩

omit [LawfulStore σ] [LogStore σ] in
@[simp] theorem wp_onLog (step : LogAction σ α) {Q : α → Node σ μ → Prop}
    {E : Fault NodeError → Node σ μ → Prop} : wp (Node.onLog step) Q E n ↔
      wp step (fun a l => Q a { n with log := l }) (fun f l => E f { n with log := l }) n.log :=
  Action.wp_within_part Node.log _ step

/-! ## Term, vote and role -/

/-- The term and vote of a later history are stored. -/
theorem Keeps.wp_adopt (hs : Sound members h) (hk : Keeps members h i n)
    (hm : Moves members i h h') (hl : h'.log i = h.log i) (hT : h'.term i = T) :
    wp (Node.adopt T (h'.vote i T))
      (fun _ n' => Keeps members h' i n' ∧ n'.role = n.role ∧ n'.term = T)
      (Halted members h i) n := by
  have hle : n.term ≤ T := by
    rw [← hk.term, ← hT]
    exact hm.grows.term i
  have hcommitted := (hk.committed.extends hs hm.grows).later hle
  simp only [Node.adopt, Action.wp_bind, Action.wp_modify, wp_onLog]
  refine Action.wp_mono (hk.log.wp_saveHard _) ?_ ?_
  · rintro - l ⟨hlog, hcommit, hhard⟩
    refine ⟨{ hk with term := hT, vote := rfl, hard := hhard, log := ?_, committed := ?_ },
      trivial, trivial⟩
    · rw [hl]; exact hlog
    · rw [hl]; exact hcommit ▸ hcommitted
  · rintro f l ⟨hf, e | e⟩
    · exact ⟨hf, h, .refl hs, e ▸ hk.stored⟩
    · refine ⟨hf, h', hm, ?_⟩
      rw [e]
      refine ⟨hT, rfl, ?_, ?_⟩
      · rw [hl]
        exact hk.log.stored.hard _
      · rw [hl]
        exact hcommitted.isPrefix (List.take_prefix_take_left hk.log.covered_le_commit)

theorem Keeps.wp_setRole (hs : Sound members h) (hk : Keeps members h i n) (role : Role)
    {Q : Unit → Node σ μ → Prop} (hQ : n.role.kind.mayBecome role.kind →
      Q () { n with role }) : wp (Node.setRole role) Q (Halted members h i) n := by
  simp only [Node.setRole, Action.wp_bind, Action.wp_get, Action.wp_require, Action.wp_modify]
  split
  · exact hQ ‹_›
  · exact hk.halted hs rfl

/-- The history when a member enters a newer term, in which it has not voted. -/
theorem Keeps.enter (hs : Sound members h) (hk : Keeps members h i n) (hT : n.term < T) :
    Moves members i h (h.adopt i T) ∧ (h.adopt i T).vote i T = none := by
  refine ⟨hs.adopt (hk.term ▸ hT.le), ?_⟩
  by_contra hv
  obtain ⟨c, hc⟩ := Option.ne_none_iff_exists'.mp hv
  have := hs.ballots.reached i T c hc
  rw [hk.term] at this
  lia

theorem Keeps.becomeFollower (hs : Sound members h) (hk : Keeps members h i n) (m : Moment)
    (T : Term) (leader : Option NodeId) : Evolves members h i (Node.becomeFollower m T leader)
      (fun h' _ n' => Runs members h' i n' ∧ n'.term = max n.term T ∧
        n'.role = .follower leader) n := by
  have hrest : ∀ {h' : History} {n' : Node σ μ}, Moves members i h h' → Keeps members h' i n' →
      n'.term = max n.term T → Evolves members h i
        (do Node.setRole (.follower leader); Node.resetDeadline m)
        (fun h' _ n' => Runs members h' i n' ∧ n'.term = max n.term T ∧
          n'.role = .follower leader) n' := by
    intro h' n' hm hk' ht
    refine .after hm ?_
    rw [Evolves, Action.wp_bind]
    refine hk'.wp_setRole hm.sound _ fun _ => ?_
    simp only [Node.resetDeadline, Action.wp_modify]
    exact ⟨h', .refl hm.sound, ⟨{ hk' with }, trivial⟩, ht, trivial⟩
  rw [Evolves, Node.becomeFollower, Action.wp_bind, Action.wp_get]
  simp only [Action.wp_bind, Action.wp_ite]
  split
  · rename_i hlt
    obtain ⟨hm, hv⟩ := hk.enter hs hlt
    have hadopt := hk.wp_adopt (T := T) hs hm rfl (by simp [History.adopt])
    rw [hv] at hadopt
    refine Action.wp_imp hadopt ?_
    rintro - n' ⟨hk', -, ht⟩
    have := hrest hm hk' (by lia)
    rwa [Evolves, Action.wp_bind] at this
  · have := hrest (.refl hs) hk (by lia)
    rwa [Evolves, Action.wp_bind] at this

theorem Keeps.follow (hs : Sound members h) (hk : Keeps members h i n) (m : Moment)
    (hT : n.term ≤ T) (leader : NodeId) : Evolves members h i (Node.follow m T leader)
      (fun h' _ n' => Runs members h' i n' ∧ n'.term = T ∧ ∃ l, n'.role = .follower l) n := by
  rw [Evolves, Node.follow, Action.wp_bind, Action.wp_get]
  rw [Action.wp_ite]
  split
  · refine (hk.becomeFollower hs m T (some leader)).mono ?_
    rintro h' - n' - ⟨hr, ht, hf⟩
    exact ⟨hr, by lia, _, hf⟩
  · rename_i hstay
    rw [Action.wp_bind]
    refine hk.wp_setRole hs _ fun _ => ?_
    simp only [Node.resetDeadline, Action.wp_modify]
    exact ⟨h, .refl hs, ⟨{ hk with }, trivial⟩, by lia, _, rfl⟩

end RaftNode
