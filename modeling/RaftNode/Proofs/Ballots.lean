import RaftNode.Machine.Journal
import RaftNode.Proofs.OpenRuns
import Mathlib
/-!
# One vote a term

A node stores its term and vote before anybody can learn of them, and what is stored gives each term one vote. So no
crash and no message, forged or not, makes a node vote twice or tell a term that it then forgets.
-/
namespace RaftNode

open RaftNode.Action (wp)
open RaftNode.Node (Step Steps Adopts Fails Occasion)

/-- What may come to be stored after `a`: a newer term, or a vote in a term without one. -/
def HardState.Precedes (a b : HardState) : Prop :=
  a.term < b.term ∨ a.term = b.term ∧ (a.vote = none ∨ a.vote = b.vote)

namespace HardState.Precedes

variable {a b c : HardState}

theorem refl (a : HardState) : a.Precedes a := Or.inr ⟨rfl, Or.inr rfl⟩

theorem trans (h : a.Precedes b) (h' : b.Precedes c) : a.Precedes c := by
  obtain hlt | ⟨ht, hv⟩ := h
  · obtain hlt' | ⟨ht', -⟩ := h'
    · exact Or.inl (hlt.trans hlt')
    · exact Or.inl (ht' ▸ hlt)
  · obtain hlt' | ⟨ht', hv'⟩ := h'
    · exact Or.inl (ht ▸ hlt')
    · refine Or.inr ⟨ht.trans ht', ?_⟩
      obtain hn | he := hv
      · exact Or.inl hn
      · exact he ▸ hv'

theorem term_le (h : a.Precedes b) : a.term ≤ b.term := by
  obtain hlt | ⟨ht, -⟩ := h
  · exact hlt.le
  · exact ht.le

/-- A vote stands as long as its term does. -/
theorem vote_eq (h : a.Precedes b) (ht : a.term = b.term) {v : NodeId} (hv : a.vote = some v) :
    b.vote = some v := by
  obtain hlt | ⟨-, hn | he⟩ := h
  · lia
  · rw [hv] at hn
    cases hn
  · exact he ▸ hv

end HardState.Precedes

variable {σ μ : Type} [LogStore σ] [LawfulStore σ] {n n' : Node σ μ} {o : Occasion}

/-- What a node shows is stored, and whoever stands or leads has its own vote. -/
structure Node.Pledged (n : Node σ μ) : Prop where
  hard : (kept n.log.store).hard = ⟨n.term, n.vote⟩
  self : n.role.kind ≠ .follower → n.vote = some n.id

theorem Log.wp_saveHard (hard : HardState) (l : Log σ) : wp (Log.saveHard hard)
    (fun _ l' => (kept l'.store).hard = hard)
    (fun _ l' => (kept l'.store).hard = (kept l.store).hard ∨ (kept l'.store).hard = hard) l := by
  refine Log.wp_write (.hard hard) (fun s hs => by rw [hs]; rfl) fun f s _ hs => ?_
  rcases hs with e | ⟨_, ⟨⟩, e⟩
  · exact Or.inl (by rw [e])
  · exact Or.inr (by rw [e]; rfl)

/-- A node boots with the term and vote that are stored, as a follower. -/
theorem Node.wp_boot_pledged [StateMachine μ] (i : NodeId) (peers : List NodeId) (machine : μ)
    (config : Config) (m : Moment) (s : σ) : wp (Node.boot i peers machine config m)
      (fun n _ => n.id = i ∧ n.Pledged ∧ n.role = .follower none ∧
        (kept n.log.store).hard = (kept s).hard)
      (fun _ t => (kept t).hard = (kept s).hard) s := by
  rw [Node.boot, Action.wp_bind]
  refine Action.wp_mono (Log.wp_boot_maintains (Persisted.steady_hard (kept s).hard).truncate rfl) ?_
    fun _ _ h => h
  rintro r t ⟨rfl, hkept, hhard, -⟩
  split
  · rename_i n hn
    obtain ⟨machine', -, rfl⟩ := Node.ofRecovered_ok hn
    exact ⟨rfl, ⟨hkept.trans hhard.symm, fun hk => absurd rfl hk⟩, rfl, hkept⟩
  · exact hkept

/-- The write of a term and vote fails, and the node shows them already. -/
def Node.Outruns (o : Occasion) (n : Node σ μ) (f : Fault NodeError) (n' : Node σ μ) : Prop :=
  ∃ hard log, Adopts o n hard ∧ Log.saveHard hard n.log = .error f log ∧
    n' = { n with term := hard.term, vote := hard.vote, log }

namespace Node.Pledged

/-- A change of the log that leaves term and vote alone. -/
theorem withLog (hn : n.Pledged) {α : Type} {step : LogAction σ α} {a : α} {log : Log σ}
    (hstep : Log.Maintains (fun p => p.hard = ⟨n.term, n.vote⟩) step n.log)
    (hlog : step n.log = .ok a log) :
    Node.Pledged { n with log } ∧ (kept n.log.store).hard.Precedes (kept log.store).hard := by
  have hhard : (kept log.store).hard = ⟨n.term, n.vote⟩ := hstep.ok hlog
  refine ⟨⟨hhard, hn.self⟩, ?_⟩
  rw [hhard, hn.hard]
  exact .refl _

variable [StateMachine μ]

theorem step (hn : n.Pledged) (h : Step o n n') :
    n'.Pledged ∧ n'.id = n.id ∧ (kept n.log.store).hard.Precedes (kept n'.log.store).hard := by
  have hI := Persisted.steady_hard ⟨n.term, n.vote⟩
  have hhard := hn.hard
  cases h with
  | wait => exact ⟨⟨hn.hard, hn.self⟩, rfl, .refl _⟩
  | enter leader hterm hlog =>
    have hstored := Action.wp_ok (Log.wp_saveHard _ _) hlog
    refine ⟨⟨hstored, fun hk => absurd rfl hk⟩, rfl, Or.inl ?_⟩
    rw [hhard]
    exact hstored ▸ hterm
  | follow leader => exact ⟨⟨hn.hard, fun hk => absurd rfl hk⟩, rfl, .refl _⟩
  | vote hq hterm hfree hlog =>
    have hstored := Action.wp_ok (Log.wp_saveHard _ _) hlog
    refine ⟨⟨hstored, fun hk => ?_⟩, rfl, Or.inr ?_⟩
    · exact absurd ((hn.self hk).symm.trans hfree) nofun
    · rw [hhard]
      exact ⟨by rw [hstored], Or.inl hfree⟩
  | stand _ hrole hlog =>
    have hstored := Action.wp_ok (Log.wp_saveHard _ _) hlog
    refine ⟨⟨hstored, fun _ => rfl⟩, rfl, Or.inl ?_⟩
    rw [hhard]
    exact hstored ▸ Nat.lt_succ_self n.term
  | count _ _ hrole => exact ⟨⟨hn.hard, fun _ => hn.self (by rw [hrole]; nofun)⟩, rfl, .refl _⟩
  | elect hrole => exact ⟨⟨hn.hard, fun _ => hn.self (by rw [hrole]; nofun)⟩, rfl, .refl _⟩
  | view hrole => exact ⟨⟨hn.hard, fun _ => hn.self (by rw [hrole]; nofun)⟩, rfl, .refl _⟩
  | append _ hlog =>
    obtain ⟨hp, hs⟩ := hn.withLog (.appendAsLeader (hI.append _) hhard) hlog
    exact ⟨hp, rfl, hs⟩
  | commit _ _ hlog =>
    obtain ⟨hp, hs⟩ := hn.withLog (.setCommitIndex hhard _) hlog
    exact ⟨hp, rfl, hs⟩
  | reconcile _ _ _ hlog =>
    have hstored := Action.wp_ok (Log.wp_reconcile_maintains hI.truncate (fun es _ => hI.append es) hhard _ _ _) hlog
    exact ⟨⟨hstored, hn.self⟩, rfl, by rw [hstored, hhard]; exact .refl _⟩
  | install _ _ _ hlog =>
    obtain ⟨hp, hs⟩ := hn.withLog (.install hI.truncate (hI.install _ trivial) hhard) hlog
    exact ⟨⟨hp.hard, hp.self⟩, rfl, hs⟩
  | apply hlog =>
    obtain ⟨hp, hs⟩ := hn.withLog (.nextCommitted hhard) hlog
    exact ⟨⟨hp.hard, hp.self⟩, rfl, hs⟩
  | compact _ hlog =>
    obtain ⟨hp, hs⟩ := hn.withLog (.compact (hI.install _ trivial) hhard) hlog
    exact ⟨hp, rfl, hs⟩

theorem steps (hn : n.Pledged) (h : Steps o n n') :
    n'.Pledged ∧ n'.id = n.id ∧ (kept n.log.store).hard.Precedes (kept n'.log.store).hard := by
  induction h with
  | refl => exact ⟨hn, rfl, .refl _⟩
  | tail _ hstep ih =>
    obtain ⟨hp, hid, hs⟩ := ih
    obtain ⟨hp', hid', hs'⟩ := hp.step hstep
    exact ⟨hp', hid'.trans hid, hs.trans hs'⟩

omit [LogStore σ] [LawfulStore σ] [StateMachine μ] in
theorem precedes_of_adopts {hard : HardState} (h : Adopts o n hard) :
    HardState.Precedes ⟨n.term, n.vote⟩ hard := by
  cases h with
  | enter hterm => exact Or.inl hterm
  | vote _ _ hfree => exact Or.inr ⟨rfl, Or.inl hfree⟩
  | stand => exact Or.inl (Nat.lt_succ_self n.term)

/-- An event that fails in the middle leaves a node that shows what is stored, unless it was its term and vote that
could not be written. -/
theorem fails_cases (hn : n.Pledged) {f : Fault NodeError} (h : Fails o n f n') :
    (∃ log, n' = { n with log } ∧ (kept log.store).hard = ⟨n.term, n.vote⟩) ∨ Outruns o n f n' := by
  have hI := Persisted.steady_hard ⟨n.term, n.vote⟩
  have hhard := hn.hard
  cases h with
  | refuse | term | office | view | commit | apply => exact Or.inl ⟨n.log, rfl, hhard⟩
  | adopt _ hadopts hlog => exact Or.inr ⟨_, _, hadopts, hlog, rfl⟩
  | append _ _ hlog =>
    exact Or.inl ⟨_, rfl, ((Log.Maintains.appendAsLeader (hI.append _) hhard).error hlog).2⟩
  | reconcile _ _ _ _ hlog =>
    obtain ⟨-, e⟩ | ⟨rfl, -⟩ := Action.wp_error
      (Log.wp_reconcile_maintains hI.truncate (fun es _ => hI.append es) hhard _ _ _) hlog
    · exact Or.inl ⟨_, rfl, e⟩
    · exact Or.inl ⟨n.log, rfl, hhard⟩
  | install _ _ _ _ hlog =>
    exact Or.inl ⟨_, rfl, ((Log.Maintains.install hI.truncate (hI.install _ trivial) hhard).error hlog).2⟩
  | reject _ _ _ hlog => exact Or.inl ⟨_, rfl, (Log.Maintains.install hI.truncate (hI.install _ trivial) hhard).ok hlog⟩
  | compact _ _ hlog =>
    exact Or.inl ⟨_, rfl, ((Log.Maintains.compact (hI.install _ trivial) hhard).error hlog).2⟩

/-- A node that fails in the middle has not gone back either. -/
theorem fails (hn : n.Pledged) {f : Fault NodeError} (h : Fails o n f n') :
    (kept n.log.store).hard.Precedes (kept n'.log.store).hard := by
  rw [hn.hard]
  obtain ⟨log, rfl, hsame⟩ | ⟨hard, log, hadopts, hlog, rfl⟩ := hn.fails_cases h
  · rw [hsame]
    exact .refl _
  · obtain e | e := Action.wp_error (Log.wp_saveHard _ _) hlog
    · rw [e, hn.hard]
      exact .refl _
    · rw [e]
      exact precedes_of_adopts hadopts

end Node.Pledged

/-! ## Runs -/

namespace Protocol

variable [StateMachine μ] {i c c' : NodeId} {T : Term} {event : Option (Moment × Occasion)}

/-- What the life of member `i` shows. -/
def LifePledged (i : NodeId) : Life σ μ → Prop
  | .up n => n.id = i ∧ n.Pledged
  | .down _ => True

theorem Turn.pledged {a b : Life σ μ} (h : Turn event i a b) (ha : LifePledged i a) :
    LifePledged i b ∧ (kept (storeOf a)).hard.Precedes (kept (storeOf b)).hard := by
  cases h with
  | rest => exact ⟨ha, .refl _⟩
  | disturb hstore =>
    cases a with
    | up n =>
      refine ⟨⟨ha.1, ?_, ha.2.self⟩, ?_⟩
      · exact (congrArg Persisted.hard hstore).trans ha.2.hard
      · exact congrArg Persisted.hard hstore ▸ .refl _
    | down store => exact ⟨trivial, congrArg Persisted.hard hstore ▸ .refl _⟩
  | crash => exact ⟨trivial, .refl _⟩
  | boot hboot =>
    obtain ⟨hid, hp, -, hhard⟩ := Action.wp_ok (Node.wp_boot_pledged _ _ _ _ _ _) hboot
    exact ⟨⟨hid, hp⟩, hhard ▸ .refl _⟩
  | refuse hboot =>
    have hhard := Action.wp_error (Node.wp_boot_pledged _ _ _ _ _ _) hboot
    exact ⟨trivial, hhard ▸ .refl _⟩
  | go _ hrun =>
    obtain ⟨hp, hid, hs⟩ := ha.2.steps hrun.steps
    exact ⟨⟨hid.trans ha.1, hp⟩, hs⟩
  | halt _ _ hrun =>
    obtain ⟨n₁, hsteps, hfails⟩ := Action.wp_error (Node.goes_run _ _) hrun
    obtain ⟨hp, -, hs⟩ := ha.2.steps hsteps
    exact ⟨trivial, hs.trans (hp.fails hfails)⟩

namespace OpenRun

variable {r : OpenRun σ μ} {t t' : ℕ}

/-- The term and vote that member `i` has stored at a moment. -/
def hard (r : OpenRun σ μ) (t : ℕ) (i : NodeId) : HardState :=
  (kept (storeOf ((r.state t).life i))).hard

/-- Event `t` hands a request to member `i`, and this is the reply. -/
def Replies (r : OpenRun σ μ) (t : ℕ) (i : NodeId) (request : Request) (reply : Reply) : Prop :=
  ∃ sender m, r.event t = .deliver sender ⟨i, request⟩ m ∧
    (perform (r.state t) i (Node.onRequest m request)).1 = some reply

/-- Member `i` was for `c` in a term: it said so, or it stood itself, or just stored a vote, which a crash may keep from
being told. -/
inductive Backs (r : OpenRun σ μ) (i : NodeId) (T : Term) : NodeId → Prop
  | granted {t : ℕ} {q : VoteRequest} (h : r.Replies t i (.vote q) (.vote ⟨T, true⟩)) :
      Backs r i T q.candidate
  | stood {t : ℕ} {n : Node σ μ} (hn : (r.state t).node? i = some n) (hterm : n.term = T)
      (hrole : n.role.kind ≠ .follower) : Backs r i T i
  | stored {t : ℕ} {c : NodeId} (h : r.hard t i = ⟨T, some c⟩) : Backs r i T c

theorem pledged (r : OpenRun σ μ) (t : ℕ) (i : NodeId) : LifePledged i ((r.state t).life i) := by
  induction t with
  | zero =>
    obtain ⟨store, hdown⟩ := r.start i
    rw [hdown]
    trivial
  | succ t ih => exact ((r.turn t i).pledged ih).1

theorem pledged_node (r : OpenRun σ μ) (hn : (r.state t).node? i = some n) : n.id = i ∧ n.Pledged := by
  have hp := r.pledged t i
  rwa [State.node?_eq_some.mp hn] at hp

theorem hard_precedes (r : OpenRun σ μ) (i : NodeId) (h : t ≤ t') :
    (r.hard t i).Precedes (r.hard t' i) := by
  induction t', h using Nat.le_induction with
  | base => exact .refl _
  | succ u _ ih => exact ih.trans ((r.turn u i).pledged (r.pledged u i)).2

/-- A reply tells what the store has when it is returned. -/
theorem Replies.stored {request : Request} {reply : Reply} (h : r.Replies t i request reply) :
    reply.term = (r.hard (t + 1) i).term ∧
      ∀ q T, request = .vote q → reply = .vote ⟨T, true⟩ →
        q.term = T ∧ r.hard (t + 1) i = ⟨T, some q.candidate⟩ := by
  obtain ⟨sender, m, hevent, hreply⟩ := h
  obtain ⟨n, n', hup, hx, hup'⟩ := perform_some hreply
  have hlife : (r.state (t + 1)).life i = .up n' := by
    rw [(r.valid t).2, hevent]
    exact hup'
  have hp : n'.id = i ∧ n'.Pledged := r.pledged_node (State.node?_eq_some.mpr hlife)
  have hhard : r.hard (t + 1) i = ⟨n'.term, n'.vote⟩ := by
    rw [hard, hlife]
    exact hp.2.hard
  obtain ⟨-, hterm, hgrant⟩ := Action.wp_ok (Node.goes_onRequest m request) hx
  refine ⟨hterm.trans (by rw [hhard]), fun q T hq hT => ?_⟩
  obtain ⟨hqterm, hvote⟩ := hgrant q T hq hT
  have hT' : T = n'.term := by
    rw [hT] at hterm
    exact hterm
  exact ⟨hqterm.trans hT'.symm, by rw [hhard, hvote, hT']⟩

theorem Backs.stored_some (h : r.Backs i T c) : ∃ t, r.hard t i = ⟨T, some c⟩ := by
  cases h with
  | granted hreply => exact ⟨_, (hreply.stored.2 _ T rfl rfl).2⟩
  | @stood t n hn hterm hrole =>
    refine ⟨t, ?_⟩
    obtain ⟨rfl, hp⟩ := r.pledged_node hn
    rw [hard, State.node?_eq_some.mp hn]
    exact hp.hard.trans (by rw [hterm, hp.self hrole])
  | stored hstored => exact ⟨_, hstored⟩

/-- A member is for one candidate a term, every term that it tells is stored, and it never tells an older one again. -/
theorem one_vote_per_term (r : OpenRun σ μ) (i : NodeId) :
    (∀ T c c', r.Backs i T c → r.Backs i T c' → c = c') ∧
    (∀ t q T, r.Replies t i (.vote q) (.vote ⟨T, true⟩) → q.term = T) ∧
    (∀ t request reply, r.Replies t i request reply → reply.term ≤ (r.hard (t + 1) i).term) ∧
    (∀ t t' request request' reply reply', t ≤ t' → r.Replies t i request reply →
      r.Replies t' i request' reply' → reply.term ≤ reply'.term) := by
  refine ⟨fun T c c' hc hc' => ?_, fun t q T h => (h.stored.2 q T rfl rfl).1,
    fun t request reply h => h.stored.1.le, fun t t' request request' reply reply' hle h h' => ?_⟩
  · obtain ⟨t, ht⟩ := hc.stored_some
    obtain ⟨t', ht'⟩ := hc'.stored_some
    rcases le_total t t' with hle | hle
    · have hsame := (r.hard_precedes i hle).vote_eq (by rw [ht, ht']) (by rw [ht])
      rw [ht'] at hsame
      exact (Option.some.inj hsame).symm
    · have hsame := (r.hard_precedes i hle).vote_eq (by rw [ht, ht']) (by rw [ht'])
      rw [ht] at hsame
      exact Option.some.inj hsame
  · rw [h.stored.1, h'.stored.1]
    exact (r.hard_precedes i (Nat.succ_le_succ hle)).term_le

/-- Member 1 votes for member 2, crashes and boots again, and then both other members ask for its vote. -/
def voter : OpenRun MemoryStore Journal :=
  .play { life := fun _ => .down {} }
    [.boot 1 [2, 3] {} {} ⟨0, 0⟩, .deliver 2 ⟨1, .vote ⟨1, 2, 0, 0⟩⟩ ⟨0, 0⟩, .crash 1,
      .boot 1 [2, 3] {} {} ⟨0, 0⟩, .deliver 3 ⟨1, .vote ⟨1, 3, 0, 0⟩⟩ ⟨0, 0⟩,
      .deliver 2 ⟨1, .vote ⟨1, 2, 0, 0⟩⟩ ⟨0, 0⟩]
    (fun _ => ⟨{}, rfl⟩) (by simp [Possible])

theorem one_vote_per_term_voter :
    voter.Replies 1 1 (.vote ⟨1, 2, 0, 0⟩) (.vote ⟨1, true⟩) ∧
      voter.Replies 4 1 (.vote ⟨1, 3, 0, 0⟩) (.vote ⟨1, false⟩) ∧
      voter.Replies 5 1 (.vote ⟨1, 2, 0, 0⟩) (.vote ⟨1, true⟩) ∧
      (∀ c, voter.Backs 1 1 c → c = 2) ∧ 1 ≤ (voter.hard 2 1).term := by
  have hfirst : voter.Replies 1 1 (.vote ⟨1, 2, 0, 0⟩) (.vote ⟨1, true⟩) :=
    ⟨2, ⟨0, 0⟩, rfl, by decide_cbv⟩
  have hrefused : voter.Replies 4 1 (.vote ⟨1, 3, 0, 0⟩) (.vote ⟨1, false⟩) :=
    ⟨3, ⟨0, 0⟩, rfl, by decide_cbv⟩
  have hagain : voter.Replies 5 1 (.vote ⟨1, 2, 0, 0⟩) (.vote ⟨1, true⟩) :=
    ⟨2, ⟨0, 0⟩, rfl, by decide_cbv⟩
  obtain ⟨honce, -, hstored, -⟩ := voter.one_vote_per_term 1
  exact ⟨hfirst, hrefused, hagain, fun c hc => honce 1 c 2 hc (.granted hagain),
    hstored 1 _ _ hfirst⟩

end OpenRun

end Protocol

end RaftNode
