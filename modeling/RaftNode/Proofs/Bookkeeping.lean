import RaftNode.Proofs.Ballots
import RaftNode.Proofs.Safety
/-!
# The books of a leader

What a leader has noted of its peers is true of their stores, and in one term of office it never notes less than
before.
-/
namespace RaftNode

open RaftNode.Node (Step Steps Occasion)

variable {σ μ : Type} {n n' : Node σ μ} {T : Term} {r : Replication} {i : NodeId}
  {o : Occasion}

theorem Node.replication?_eq_some : n.replication? = some r ↔ n.role = .leader r := by
  unfold Node.replication?
  split <;> simp_all

/-! ## One term of office -/

variable [LogStore σ] [StateMachine μ]

/-- What a leader keeps from step to step, and whatever accesses to its store succeed. -/
structure Node.Lasting (P : Node σ μ → Prop) : Prop where
  step : ∀ {o n n'}, P n → Step o n n' → n.role.kind = .leader → n'.role.kind = .leader → P n'
  store : ∀ {n : Node σ μ} (store : σ), P n → P { n with log := { n.log with store } }

omit [LogStore σ] [StateMachine μ] in
/-- A node that has led term `T` with `P`: it still does, or it will not lead that term again. -/
def Node.HasLed (T : Term) (P : Node σ μ → Prop) (n : Node σ μ) : Prop :=
  T < n.term ∨ n.term = T ∧ (n.role.kind = .follower ∨ n.role.kind = .leader ∧ P n)

variable {P : Node σ μ → Prop}

theorem Node.HasLed.step (hP : Node.Lasting P) (h : n.HasLed T P) (hs : Step o n n') : n'.HasLed T P := by
  have hstep := hs
  cases hs with
  | enter leader hterm => exact Or.inl (h.elim hterm.trans' fun ht => ht.1 ▸ hterm)
  | stand => exact Or.inl (h.elim Nat.lt_succ_of_lt fun ht => ht.1 ▸ Nat.lt_succ_self n.term)
  | follow leader => exact h.imp_right fun ht => ⟨ht.1, Or.inl rfl⟩
  | count _ _ hrole | elect hrole =>
    -- a candidate of that term has never led it
    have hcandidate : n.role.kind = .candidate := by rw [hrole]; rfl
    refine h.imp_right fun ht => ?_
    obtain ⟨-, hf | ⟨hl, -⟩⟩ := ht
    · cases hcandidate.symm.trans hf
    · cases hcandidate.symm.trans hl
  | view hrole =>
    have hleader : n.role.kind = .leader := by rw [hrole]; rfl
    refine h.imp_right fun ht => ?_
    obtain ⟨hterm, hf | ⟨-, hp⟩⟩ := ht
    · cases hleader.symm.trans hf
    · exact ⟨hterm, Or.inr ⟨rfl, hP.step hp hstep hleader rfl⟩⟩
  | wait | vote | append | commit | reconcile | install | apply | compact =>
    refine h.imp_right fun ht => ⟨ht.1, ht.2.imp_right fun hl => ?_⟩
    exact ⟨hl.1, hP.step hl.2 hstep hl.1 hl.1⟩

theorem Node.HasLed.steps (hP : Node.Lasting P) (h : n.HasLed T P) (hs : Steps o n n') : n'.HasLed T P := by
  induction hs with
  | refl => exact h
  | tail _ hstep ih => exact ih.step hP hstep

namespace Protocol

variable [LawfulStore σ]

/-- The same of a life, in which a node may go down and boot again. -/
def LifeHasLed (T : Term) (P : Node σ μ → Prop) : Life σ μ → Prop
  | .up n => n.HasLed T P
  | .down store => T ≤ (kept store).hard.term

theorem Turn.hasLed {a b : Life σ μ} {event : Option (Moment × Occasion)} (hP : Node.Lasting P)
    (h : Turn event i a b) (ha : LifePledged i a) (hl : LifeHasLed T P a) : LifeHasLed T P b := by
  have hterm : T ≤ (kept (storeOf a)).hard.term := by
    cases a with
    | up n =>
      rw [storeOf, ha.2.hard]
      exact hl.elim le_of_lt fun ht => ht.1.ge
    | down store => exact hl
  have hlater := hterm.trans (h.pledged ha).2.term_le
  cases h with
  | rest => exact hl
  | @disturb _ store hstore =>
    cases a with
    | up n => exact hl.imp_right fun ht => ⟨ht.1, ht.2.imp_right fun hp => ⟨hp.1, hP.store store hp.2⟩⟩
    | down store => exact hlater
  | crash | refuse | halt => exact hlater
  | boot hboot =>
    obtain ⟨-, hp, hrole, -⟩ := Action.wp_ok (Node.wp_boot_pledged _ _ _ _ _ _) hboot
    rw [storeOf, hp.hard] at hlater
    refine hlater.lt_or_eq.imp id fun ht => ⟨ht.symm, Or.inl ?_⟩
    rw [hrole]
    rfl
  | go _ hrun => exact Node.HasLed.steps hP hl hrun.steps

variable {members : Finset NodeId} {H : ℕ → History} {t u : ℕ}

/-- What a leader keeps from step to step is true of it for as long as it leads the term. -/
theorem OpenRun.lasts (run : OpenRun σ μ) (hP : Node.Lasting P) (htu : t ≤ u) (hn : (run.state t).life i = .up n)
    (hr : n.role.kind = .leader) (hp : P n) (hn' : (run.state u).life i = .up n') (hterm : n'.term = n.term)
    (hr' : n'.role.kind = .leader) : P n' := by
  have hled : ∀ v, t ≤ v → LifeHasLed n.term P ((run.state v).life i) := by
    intro v hv
    induction v, hv using Nat.le_induction with
    | base =>
      rw [hn]
      exact Or.inr ⟨rfl, Or.inr ⟨hr, hp⟩⟩
    | succ v _ ih => exact (run.turn v i).hasLed hP (run.pledged v i) ih
  have hlast := hled u htu
  rw [hn'] at hlast
  obtain hlt | ⟨-, hf | ⟨-, hp'⟩⟩ := hlast
  · lia
  · rw [hr'] at hf
    cases hf
  · exact hp'

omit [LawfulStore σ] in
/-- A leader's view of its peers only gets better. -/
theorem lasting_grows (r : Replication) :
    Node.Lasting fun n : Node σ μ => ∃ r', n.role = .leader r' ∧ r.Grows r' where
  step := by
    rintro o n n' ⟨r₁, hrole, hgrown⟩ hs hl hl'
    cases hs with
    | enter | follow | stand | count => cases hl'
    | elect hrole' =>
      rw [hrole'] at hl
      cases hl
    | @view r₀ r' hrole' hgrows =>
      obtain rfl := Role.leader.inj (hrole.symm.trans hrole')
      exact ⟨r', rfl, hgrown.trans hgrows⟩
    | wait | vote | append | commit | reconcile | install | apply | compact => exact ⟨r₁, hrole, hgrown⟩
  store _ hp := hp

/-! ## What is noted and what is stored -/

theorem Run.node?_eq_some {run : Run members σ μ} (hn : run.node? t i = some n) :
    (run.state t).life i = .up n :=
  State.node?_eq_some.mp hn

/-- What the store of a member holds at a moment. -/
def Run.durable (run : Run members σ μ) (t : ℕ) (v : NodeId) : Persisted :=
  kept (storeOf ((run.state t).life v))

/-- A member in the leader's term has stored what it has acknowledged of the leader's log. -/
theorem Chronicle.acked_stored {run : Run members σ μ} (hc : Chronicle run H) {peer : NodeId}
    (hterm : (run.durable t peer).hard.term = T) {k : Index} (hk : k ≤ (H t).acked peer T) :
    (run.durable t peer).StandsFor ((H t).log peer) ∧
      ((H t).led T).take k <+: (H t).log peer := by
  have hs : Stored members (H t) peer (run.durable t peer) := ((hc.accounts t).life peer).stored
  refine ⟨hs.log, ?_⟩
  obtain hp | ⟨W, hlt, hle, -⟩ := (hc.sound t).acks.retained peer T k hk
  · exact hp
  · rw [hs.term, hterm] at hle
    lia

/-- A leader has a note of every peer. If the peer is in the leader's term, its store has what is noted, entry by entry
or as a snapshot; the next request is for what comes then; and what is noted stays noted for as long as the leader
leads that term. -/
theorem Run.bookkeeping (run : Run members σ μ) (hn : run.node? t i = some n) {view : Replication}
    (hview : n.replication? = some view) {peer : NodeId} (hpeer : peer ∈ members)
    (hne : peer ≠ i) :
    ∃ p, view.find? peer = some p ∧
      ((run.durable t peer).hard.term = n.term → ∀ k ≤ p.matchIndex,
        k ≤ (run.durable t peer).covered ∨ ∃ e ∈ (run.durable t peer).entries,
          e.index = k ∧ ∀ f, n.log.entry? k = some f → f = e) ∧
      p.matchIndex < p.nextIndex ∧ p.nextIndex ≤ n.log.lastIndex + 1 ∧
      ∀ u n' view', t ≤ u → run.node? u i = some n' → n'.replication? = some view' →
        n'.term = n.term → ∃ p', view'.find? peer = some p' ∧ p.matchIndex ≤ p'.matchIndex := by
  obtain ⟨H, hc⟩ := run.exists_chronicle
  have hrole := Node.replication?_eq_some.mp hview
  have hr := hc.runs hn
  have hg := hr.leads hrole
  obtain ⟨p, hp⟩ := hg.find? hr.toKeeps hpeer hne
  have htracks := hg.tracks _ (Replication.mem_of_find? hp)
  have hled := hr.log_eq_led (hc.sound t) hg.office
  have hwithin := htracks.within
  refine ⟨p, hp, fun hterm k hk => ?_, htracks.ahead, by rwa [hr.log.lastIndex], ?_⟩
  · obtain ⟨hstands, hpre⟩ := hc.acked_stored hterm htracks.matched
    rw [← hled] at hpre
    by_cases hcov : k ≤ (run.durable t peer).covered
    · exact Or.inl hcov
    right
    -- the entry at `k` is in both full logs, since the leader's log is at least that long
    have hlen : p.matchIndex ≤ ((H t).log i).length := by
      have := htracks.ahead
      lia
    have hlt : k - 1 < ((H t).log i).length := by lia
    let e := ((H t).log i)[k - 1]
    have he : ((H t).log i)[k - 1]? = some e := List.getElem?_eq_getElem hlt
    have hpeer : ((H t).log peer)[k - 1]? = some e := by
      obtain ⟨rest, hrest⟩ := hpre
      rw [← hrest, List.getElem?_append_left (by rw [List.length_take]; lia),
        List.getElem?_take_of_lt (by lia), he]
    refine ⟨e, ?_, ?_, fun f hf => ?_⟩
    · rw [hstands.entries]
      refine List.mem_iff_getElem?.mpr ⟨k - 1 - (run.durable t peer).covered, ?_⟩
      rw [List.getElem?_drop, ← hpeer]
      congr 1
      lia
    · have := hstands.numbered _ _ hpeer
      lia
    · obtain ⟨-, hf⟩ := hr.log.entry?_eq_some.mp hf
      exact Option.some.inj (hf.symm.trans he)
  · intro u n' view' htu hn' hview' hterm
    have hrole' := Node.replication?_eq_some.mp hview'
    have hgrows := run.toOpenRun.lasts (lasting_grows view) htu (Run.node?_eq_some hn) (by rw [hrole]; rfl)
      ⟨view, hrole, .refl view⟩ (Run.node?_eq_some hn') hterm (by rw [hrole']; rfl)
    obtain ⟨later, hlater, hgrows⟩ := hgrows
    obtain rfl := Role.leader.inj (hlater.symm.trans hrole')
    exact hgrows peer p hp

/-- Member 1 has noted that member 2 stores the first entry. -/
theorem bookkeeping_succession : ∃ n view p, successionRun.node? 9 1 = some n ∧
    n.replication? = some view ∧ view.find? 2 = some p ∧ p.matchIndex = 1 ∧
      p.nextIndex ≤ n.log.lastIndex + 1 ∧
      ((successionRun.durable 9 2).covered < 1 →
        ∃ e ∈ (successionRun.durable 9 2).entries, e.index = 1) := by
  obtain ⟨view, hview, hmatch⟩ : ∃ view,
      (successionRun.node? 9 1).bind Node.replication? = some view ∧
        (view.find? 2).map Progress.matchIndex = some 1 := exists_of_any (by decide_cbv)
  obtain ⟨n, hn, hview⟩ := Option.bind_eq_some_iff.mp hview
  have hterm : (successionRun.durable 9 2).hard.term = n.term := by
    have : (successionRun.node? 9 1).map Node.term =
        some (successionRun.durable 9 2).hard.term := by decide_cbv
    rw [hn] at this
    exact (Option.some.inj this).symm
  have hpeer : (2 : NodeId) ∈ ({1, 2, 3} : Finset NodeId) := by decide
  obtain ⟨p, hp, hstored, -, hnext, -⟩ := successionRun.bookkeeping hn hview hpeer (by decide)
  rw [hp] at hmatch
  have hmatch : p.matchIndex = 1 := Option.some.inj hmatch
  refine ⟨n, view, p, hn, hview, hp, hmatch, hnext, fun hcov => ?_⟩
  obtain hle | ⟨e, he, hi, -⟩ := hstored hterm 1 hmatch.ge
  · lia
  · exact ⟨e, he, hi⟩

end Protocol

end RaftNode
