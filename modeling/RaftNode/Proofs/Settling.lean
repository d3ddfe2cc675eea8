import Mathlib
import RaftNode.Machine.KeyValue
import RaftNode.Proofs.Waiting
/-!
# Settling proposals

After an event the loop applies what is committed, answers whoever waited for it, and drops those who wait in vain.
-/
namespace RaftNode.Server

open RaftNode.Action (wp)

variable {σ μ : Type} [LogStore σ] [StateMachine μ] {past : List (Taken σ μ)} {p : Taken σ μ}
  {s s' : Server σ μ} {t : Ticket} {r : Except NodeError Bytes} {w : Waiter} {x : Entry}
  {a : Applied} {as : List Applied} {n n₁ n' : Node σ μ}

/-! ## Answering those who waited -/

/-- One waiter has an index for itself. -/
theorem InOrder.countP_remove {ws : List Waiter} {i : Index} (h : InOrder ws)
    (hw : ws.find? (fun v => v.index = i) = some w) (q : Waiter → Bool) :
    ws.countP q = (ws.filter fun v => v.index ≠ i).countP q + if q w then 1 else 0 := by
  induction ws with
  | nil => cases hw
  | cons v ws ih =>
    obtain ⟨hv, hws⟩ := List.pairwise_cons.mp h
    by_cases hi : v.index = i
    · have hsame : v = w := by simpa [hi] using hw
      have hothers : ws.filter (fun v => v.index ≠ i) = ws := by
        rw [List.filter_eq_self]
        intro u hu
        have := hv u hu
        simp only [ne_eq, decide_eq_true_eq]
        lia
      rw [List.filter_cons_of_neg (by simpa using hi), hothers, List.countP_cons, hsame]
    · rw [List.find?_cons_of_neg (by simpa using hi)] at hw
      rw [List.filter_cons_of_pos (by simpa using hi), List.countP_cons, List.countP_cons,
        ih hws hw]
      lia

/-- Whoever waits for the applied entry hears of its output; if the entry is of another term, that leadership was
lost. -/
theorem Accounted.wp_conclude (h : Accounted past s) (hsorted : InOrder s.waiters)
    (ha : ∀ w ∈ s.waiters, w.index = a.index → w.term = a.term →
      Explained past w.ticket (a.output.mapError .machine)) :
    wp (conclude a) (fun _ s' => Accounted past s' ∧ s'.node = s.node ∧ s'.running = s.running ∧
      s'.waiters = s.waiters.filter fun v => v.index ≠ a.index) (fun _ _ => False) s := by
  rw [conclude, Action.wp_bind, Action.wp_get]
  split
  · rename_i hnone
    refine ⟨h, rfl, rfl, (List.filter_eq_self.mpr fun v hv => ?_).symm⟩
    simpa using List.find?_eq_none.mp hnone v hv
  · rename_i w hw
    have hmem := List.mem_of_find?_eq_some hw
    have hindex : w.index = a.index := by simpa using List.find?_some hw
    rw [Action.wp_bind, Action.wp_set, Server.answer, Action.wp_modify]
    refine ⟨⟨fun t => ?_, fun t r hr => ?_⟩, rfl, rfl, rfl⟩
    · have hbalance := h.balance t
      have hone := hsorted.countP_remove hw fun v => v.ticket = t
      rw [waiting, hone] at hbalance
      rw [← hbalance, answered, waiting, answered, Server.emit, List.countP_append,
        List.countP_singleton]
      simp only [Effect.answers]
      lia
    · rcases List.mem_append.mp hr with hr | hr
      · exact h.explained t r hr
      · cases List.mem_singleton.mp hr
        split
        · exact ha w hmem hindex ‹_›
        · rintro ⟨⟩

/-- All who waited for what was applied are answered, and only they. -/
theorem Accounted.wp_conclude_all (h : Accounted past s) (hsorted : InOrder s.waiters)
    (ha : ∀ w ∈ s.waiters, ∀ a ∈ as, w.index = a.index → w.term = a.term →
      Explained past w.ticket (a.output.mapError .machine)) :
    wp (as.forM conclude) (fun _ s' => Accounted past s' ∧ s'.node = s.node ∧
      s'.running = s.running ∧ InOrder s'.waiters ∧
      ∀ w ∈ s'.waiters, w ∈ s.waiters ∧ ∀ a ∈ as, w.index ≠ a.index) (fun _ _ => False) s := by
  induction as generalizing s with
  | nil => exact ⟨h, rfl, rfl, hsorted, fun w hw => ⟨hw, by simp⟩⟩
  | cons a as ih =>
    rw [show (a :: as).forM conclude = (do conclude a; as.forM conclude) from rfl, Action.wp_bind]
    refine Action.wp_mono (h.wp_conclude hsorted fun w hw => ha w hw a List.mem_cons_self) ?_
      fun _ _ => False.elim
    rintro - s₁ ⟨h₁, hnode, hrunning, hwaiters⟩
    have hmem : ∀ w ∈ s₁.waiters, w ∈ s.waiters ∧ w.index ≠ a.index := by
      intro w hw
      rw [hwaiters] at hw
      simpa using List.mem_filter.mp hw
    have hsorted₁ : InOrder s₁.waiters := hwaiters ▸ hsorted.filter _
    refine Action.wp_mono (ih h₁ hsorted₁ fun w hw b hb =>
      ha w (hmem w hw).1 b (List.mem_cons_of_mem a hb)) ?_ fun _ _ => False.elim
    rintro - s' ⟨h', hnode', hrunning', hsorted', hothers⟩
    refine ⟨h', hnode'.trans hnode, hrunning'.trans hrunning, hsorted', fun w hw => ?_⟩
    obtain ⟨hw₁, hrest⟩ := hothers w hw
    refine ⟨(hmem w hw₁).1, fun b hb => ?_⟩
    rcases List.mem_cons.mp hb with rfl | hb
    · exact (hmem w hw₁).2
    · exact hrest b hb

/-! ## Applying what is committed -/

/-- Why whoever waits for an applied entry is told its output. -/
theorem Ready.concluded (h : Ready (past ++ [p]) p s) (hrun : p.server.running = true)
    (hhandled : handle p.moment p.event p.server = .ok () s) (happlies : Node.Applies s.node as n')
    (hw : w ∈ s.waiters) (ha : a ∈ as) (hindex : w.index = a.index) (hterm : w.term = a.term) :
    Concluded (past ++ [p]) w.ticket (a.output.mapError .machine) := by
  obtain ⟨x, hwaits, hexpects⟩ := h.expects w hw
  obtain ⟨q, hq, happends⟩ := hwaits.appended
  obtain ⟨y, hexecutes, hyi, hyt, hy⟩ := happlies.executes h.tidy ha
  obtain ⟨j, hj⟩ := List.mem_iff_getElem?.mp hq
  have hlast : (past ++ [p])[past.length]? = some p := by simp
  refine ⟨j, past.length, q, p, x, y, a.output, hj, hlast, ?_, happends,
    ⟨hrun, s, hhandled, hexecutes⟩, ?_, ?_, rfl, ?_⟩
  · have hlow := (List.getElem?_eq_some_iff.mp hj).1
    rw [List.length_append, List.length_singleton] at hlow
    lia
  · rw [hyi, ← hindex, hwaits.index]
  · rw [hyt, ← hterm, hwaits.term]
  · exact hexpects.replaced y (hindex ▸ hy) (hyt.trans hterm.symm)

/-- Whoever is not answered waits for an entry that is still ahead. -/
theorem Expects.ahead (h : Expects p n w x) (hn : n.log.Tidy) (hx : x.isNoop = false)
    (happlies : Node.Applies n as n₁) (hsnaps : Node.Snaps n₁ n') (hl : n'.isLeader = true)
    (hrest : ∀ a ∈ as, w.index ≠ a.index) : Ahead n' w x := by
  obtain ⟨hrole₁, hterm₁, hlog₁⟩ := happlies.same
  obtain ⟨hrole', hterm', happlied'⟩ := hsnaps.same
  have hahead : Ahead n w x := by
    apply h.leads
    rw [Node.isLeader, ← hrole₁, ← hrole']
    exact hl
  have hunapplied : n₁.log.lastApplied < w.index := by
    by_contra hle
    obtain ⟨y, hy, hnoop | ⟨a, ha, hai⟩⟩ :=
      happlies.covers hn hahead.unapplied (not_lt.mp hle)
    · cases Option.some.inj (hy.symm.trans hahead.held)
      rw [hx] at hnoop
      cases hnoop
    · exact hrest a ha hai.symm
  refine ⟨hahead.current.trans (hterm'.trans hterm₁).symm, happlied' ▸ hunapplied, ?_⟩
  rw [hsnaps.entry? hunapplied, hlog₁]
  exact hahead.held

theorem Attentive.ended (h : Accounted past s) (hr : s.running = false) (hw : s.waiters = []) :
    Attentive past s where
  toAccounted := h
  tidy hrun := by
    rw [hr] at hrun
    cases hrun
  sorted := by
    rw [hw]
    exact .nil
  stopped _ := hw
  awaits w hmem := by
    rw [hw] at hmem
    cases hmem

/-- What is committed is applied, and whoever waited for it or for nothing is answered. -/
theorem Ready.wp_settle (h : Ready (past ++ [p]) p s) (hrun : p.server.running = true)
    (hhandled : handle p.moment p.event p.server = .ok () s) :
    wp settle (fun _ s' => Attentive (past ++ [p]) s')
      (fun f s' => f.halts = true ∧ Accounted (past ++ [p]) s') s := by
  rw [settle, Action.wp_bind, wp_onNode]
  refine Action.wp_mono (Node.wp_applyCommitted s.node) ?_ ?_
  · rintro as n' ⟨n₁, happlies, hsnaps⟩
    have htidy := (hsnaps.advances (happlies.advances h.tidy).1).1
    rw [Action.wp_bind]
    refine Action.wp_mono ((h.toAccounted.silent (.node s n')).wp_conclude_all h.sorted
      fun w hw a ha hindex hterm _ =>
        Or.inr (h.concluded hrun hhandled happlies hw ha hindex hterm)) ?_ fun _ _ => False.elim
    rintro - s₁ ⟨haccounted, hnode, hrunning, hsorted, hrest⟩
    rw [Action.wp_bind, Action.wp_get, Action.wp_ite]
    split
    · rename_i hdeposed
      rw [Action.wp_modify]
      refine ⟨haccounted.failWaiters (by rintro _ ⟨⟩), fun _ => ?_, .nil, fun _ => rfl, ?_⟩
      · exact hnode ▸ htidy
      · rintro _ ⟨⟩
    · rename_i hleads
      refine ⟨haccounted, fun _ => hnode ▸ htidy, hsorted, fun hstopped => ?_, fun w hw => ?_⟩
      · have := h.running.symm.trans (hrunning.symm.trans hstopped)
        cases this
      · obtain ⟨hmem, hothers⟩ := hrest w hw
        obtain ⟨x, hwaits, hexpects⟩ := h.expects w hmem
        have hl : n'.isLeader = true := by simpa [hnode] using hleads
        rw [hnode]
        exact ⟨x, hwaits, hl, hexpects.ahead h.tidy hwaits.command happlies hsnaps hl hothers⟩
  · rintro f n' ⟨as, n₁, -, hf, -⟩
    exact ⟨hf, h.toAccounted.silent (.node s n')⟩

/-! ## One event -/

/-- The loop ends, and nobody waits any longer. -/
theorem Accounted.ends (h : Accounted past s) {e : NodeError} (he : ¬ IsOutcome (.error e))
    {published : Status} :
    Attentive past { s.failWaiters (fun _ => e) with running := false, published } := by
  obtain ⟨hbalance, hexplained⟩ := h.failWaiters fun _ => he
  exact .ended ⟨hbalance, hexplained⟩ rfl rfl

theorem Attentive.turn (h : Attentive past s) (hrun : s.running = true) (m : Moment) {e : Event}
    (he : e.Consecutive) : Attentive (past ++ [⟨s, m, e⟩]) (s.turn m e) := by
  rw [Server.turn]
  split
  · rename_i hshutdown
    subst hshutdown
    exact (h.toAccounted.event fun _ => rfl).ends (by rintro ⟨⟩)
  · have hturn : wp (do handle m e; settle : ServerAction σ μ Unit)
        (fun _ s' => Attentive (past ++ [⟨s, m, e⟩]) s')
        (fun f s' => f.halts = true ∧ Accounted (past ++ [⟨s, m, e⟩]) s') s := by
      rw [Action.wp_bind]
      refine Action.wp_mono (Action.wp_and (Action.wp_self _ _) (h.handles hrun m he)) ?_ ?_
      · rintro ⟨⟩ s₁ ⟨hhandled, hready⟩
        exact hready.wp_settle hrun hhandled
      · exact fun _ _ hf => hf.2
    split
    · rename_i s' hs'
      have hattentive := Action.wp_ok hturn hs'
      exact { hattentive with toAccounted := hattentive.toAccounted.silent (.step rfl rfl rfl) }
    · rename_i e s' hs'
      obtain ⟨hf, haccounted⟩ := Action.wp_error hturn hs'
      rw [if_pos (show e.isFatal = true from hf)]
      exact haccounted.ends (halts_silent hf)
    · rename_i s' hs'
      obtain ⟨hf, haccounted⟩ := Action.wp_error hturn hs'
      exact haccounted.ends (halts_silent hf)

/-- An event that comes too late. -/
theorem Attentive.late (h : Attentive past s) (hrun : s.running = false) (m : Moment) (e : Event) :
    Attentive (past ++ [⟨s, m, e⟩]) (s.emit e.refusal) := by
  refine .ended ?_ hrun (h.stopped hrun)
  cases e with
  | proposeAndWait ticket command => exact h.toAccounted.answer (fun _ => rfl) (by rintro ⟨⟩)
  | request ticket q =>
    exact (h.toAccounted.silent ((Silent.node s s.node).answer (by rintro _ ⟨⟩))).event fun _ => rfl
  | propose ticket command =>
    exact (h.toAccounted.silent ((Silent.node s s.node).answer (by rintro _ ⟨⟩))).event fun _ => rfl
  | takeSnapshot ticket =>
    exact (h.toAccounted.silent ((Silent.node s s.node).answer (by rintro _ ⟨⟩))).event fun _ => rfl
  | response _ | heartbeat | electionTimeout | shutdown =>
    exact (h.toAccounted.silent ((Silent.node s s.node).emit (by rintro _ ⟨⟩))).event fun _ => rfl

theorem Attentive.receive (h : Attentive past s) (m : Moment) {e : Event} (he : e.Consecutive) :
    Attentive (past ++ [⟨s, m, e⟩]) (s.receive m e) := by
  rw [Server.receive]
  split
  · rename_i hrun
    exact h.turn hrun m he
  · rename_i hstopped
    exact h.late (by simpa using hstopped) m e

/-- Whatever happens to the store. -/
theorem Attentive.disturb (h : Attentive past s) (store : σ) :
    Attentive past { s with node := { s.node with log := { s.node.log with store } } } := by
  refine ⟨h.toAccounted.silent (.node s _), fun hrun => ?_, h.sorted, h.stopped, fun w hw => ?_⟩
  · obtain ⟨hnumbered, hcompacted, happlied, hheld⟩ := h.tidy hrun
    exact ⟨hnumbered, hcompacted, happlied, hheld⟩
  · obtain ⟨x, hwaits, hl, hcurrent, hunapplied, hheld⟩ := h.awaits w hw
    exact ⟨x, hwaits, hl, hcurrent, hunapplied, hheld⟩

/-! ## Every event -/

theorem Serves.attentive {s₀ : Server σ μ} (h₀ : Attentive [] s₀) (h : Serves s₀ past s) :
    Attentive past s := by
  induction h with
  | start => exact h₀
  | event _ m he ih => exact ih.receive m he
  | disturb _ store ih => exact ih.disturb store

theorem attentive_start {n : Node σ μ} (hn : n.log.Tidy) (now : Nat) :
    Attentive [] (start n now) where
  balance _ := rfl
  explained _ _ hr := by cases hr
  tidy _ := hn
  sorted := .nil
  stopped _ := rfl
  awaits _ hw := by cases hw

/-- Every caller who asked is answered or waits, and nobody waits when the loop has ended. The outcome of a command is
that of an applied entry with the index and the term of the one appended for it. Whoever still waits does so for a
leader whose log has that entry ahead. -/
theorem Serves.answered_once {id : NodeId} {peers : List NodeId} {machine : μ} {config : Config}
    {m : Moment} {store store' : σ} {n : Node σ μ} {now : Nat} (hs : Node.Contiguous store)
    (hboot : Node.boot id peers machine config m store = .ok n store')
    (h : Serves (Server.start n now) past s) :
    (∀ t, s.answered t + s.waiting t = asked past t) ∧ (s.running = false → s.waiters = []) ∧
    (∀ t r, .answer t (.output r) ∈ s.effects → IsOutcome r →
      (∃ p ∈ past, p.Refuses t r) ∨ Concluded past t r) ∧
    (s.running = true → ∀ w ∈ s.waiters, s.node.isLeader = true ∧
      s.node.log.lastApplied < w.index ∧ w.term = s.node.term ∧
      ∃ x, (∃ p ∈ past, p.Appends w.ticket x) ∧ x.index = w.index ∧ x.term = w.term ∧
        s.node.log.entry? w.index = some x) := by
  have hattentive := h.attentive (attentive_start (Node.tidy_of_boot hs hboot).1 now)
  refine ⟨hattentive.balance, hattentive.stopped, hattentive.explained, fun _ w hw => ?_⟩
  obtain ⟨x, hwaits, hl, hahead⟩ := hattentive.awaits w hw
  exact ⟨hl, hahead.unapplied, hahead.current, x, hwaits.appended, hwaits.index, hwaits.term,
    hahead.held⟩

/-! ## A command whose entry gave way to another -/

/-- The events come one after another, all at one moment. -/
def take (m : Moment) : List Event → Server σ μ → Server σ μ
  | [], s => s
  | e :: es, s => take m es (s.receive m e)

def taken (m : Moment) : List Event → Server σ μ → List (Taken σ μ)
  | [], _ => []
  | e :: es, s => ⟨s, m, e⟩ :: taken m es (s.receive m e)

theorem Serves.take {s₀ : Server σ μ} (h : Serves s₀ past s) (m : Moment) {es : List Event}
    (hes : ∀ e ∈ es, e.Consecutive) : Serves s₀ (past ++ taken m es s) (s.take m es) := by
  induction es generalizing past s with
  | nil => rwa [taken, List.append_nil]
  | cons e es ih =>
    have hrest := ih (h.event m (hes e List.mem_cons_self)) fun e he =>
      hes e (List.mem_cons_of_mem _ he)
    rwa [List.append_assoc] at hrest

def novice : Node MemoryStore KeyValue where
  id := 1
  peers := [2, 3]
  config := {}
  term := 0
  vote := none
  log := { store := {} }
  role := .follower none
  machine := {}
  electionDeadline := 300
  appliedSinceSnapshot := 0

theorem novice_boots : Node.boot 1 [2, 3] {} {} {} {} = .ok novice {} := rfl

def setCommand : Bytes := Bytes.ofString "SET a 1"

def deleteCommand : Bytes := Bytes.ofString "DELETE b"

/-- The node is elected, and a caller proposes a command and waits for its output. -/
def proposal : List Event :=
  [.electionTimeout, .response (.vote 2 1 ⟨1, true⟩), .proposeAndWait 7 setCommand]

/-- A majority stores the entry. -/
def stored : List Event := proposal ++
  [.response (.append 2 ⟨1, 0, 1⟩ ⟨1, true, none⟩), .response (.append 2 ⟨1, 1, 1⟩ ⟨1, true, none⟩)]

/-- Another leader of the same term, with an entry of its own at that index. -/
def usurped : List Event := proposal ++
  [.request 8 (.append ⟨1, 3, 0, 0, [⟨1, 0, []⟩, ⟨2, 1, deleteCommand⟩], 2⟩)]

theorem stored_consecutive : ∀ e ∈ stored, e.Consecutive := by
  simp [stored, proposal, Event.Consecutive]

theorem usurped_consecutive : ∀ e ∈ usurped, e.Consecutive := by
  have hrequest : (Request.append ⟨1, 3, 0, 0, [⟨1, 0, []⟩, ⟨2, 1, deleteCommand⟩], 2⟩).Consecutive := by
    rintro (_ | _ | k) e he
    · cases he
      rfl
    · cases he
      rfl
    · cases he
  simpa [usurped, proposal, Event.Consecutive] using hrequest

theorem answers_stored :
    Node.Contiguous ({} : MemoryStore) ∧ Node.boot 1 [2, 3] {} {} {} {} = .ok novice {} ∧
      Serves (Server.start novice 0) (taken {} stored (Server.start novice 0))
        ((Server.start novice 0).take {} stored) ∧
      .answer 7 (.output (.ok [])) ∈ ((Server.start novice 0).take {} stored).effects ∧
      Concluded (taken {} stored (Server.start novice 0)) 7 (.ok []) := by
  have hserves : Serves (Server.start novice 0) (taken {} stored (Server.start novice 0))
      ((Server.start novice 0).take {} stored) := .take .start {} stored_consecutive
  have hanswer : ((Server.start novice 0).take {} stored).effects.getLast? =
      some (.answer 7 (.output (.ok []))) := by cbv
  have hmem := List.mem_of_getLast? hanswer
  refine ⟨Node.empty_contiguous, novice_boots, hserves, hmem, ?_⟩
  obtain ⟨-, -, hexplained, -⟩ := Serves.answered_once Node.empty_contiguous novice_boots hserves
  obtain ⟨p, -, command, reason, -, -, hr⟩ | hconcluded := hexplained 7 _ hmem trivial
  · cases hr
  · exact hconcluded

/-- The caller who proposed to set a key is told that a key to delete was not found. -/
theorem answered_in_place_of_another :
    Node.Contiguous ({} : MemoryStore) ∧ Node.boot 1 [2, 3] {} {} {} {} = .ok novice {} ∧
      Serves (Server.start novice 0) (taken {} usurped (Server.start novice 0))
        ((Server.start novice 0).take {} usurped) ∧
      .answer 7 (.output (.error (.machine "NOT_FOUND"))) ∈
        ((Server.start novice 0).take {} usurped).effects ∧
      (∀ command, .proposeAndWait 7 command ∈ usurped → command = setCommand) ∧
      ∀ p ∈ taken {} usurped (Server.start novice 0), ∀ y output,
        p.Executes y output → y.command ≠ setCommand := by
  have hserves : Serves (Server.start novice 0) (taken {} usurped (Server.start novice 0))
      ((Server.start novice 0).take {} usurped) := .take .start {} usurped_consecutive
  have hanswer : ((Server.start novice 0).take {} usurped).effects[5]? =
      some (.answer 7 (.output (.error (.machine "NOT_FOUND")))) := by cbv
  have hcommitted : (taken {} usurped (Server.start novice 0)).all (fun p =>
      ((handle p.moment p.event).after p.server).node.log.committed.all fun y =>
        y.command ≠ setCommand) = true := by cbv
  refine ⟨Node.empty_contiguous, novice_boots, hserves, List.mem_of_getElem? hanswer, ?_, ?_⟩
  · simp [usurped, proposal]
  · rintro p hp y output ⟨-, s, hs, hexecutes⟩
    have hy := hexecutes.committed
    have hafter : (handle p.moment p.event).after p.server = s := by rw [Action.after, hs]
    rw [← hafter] at hy
    exact of_decide_eq_true (List.all_eq_true.mp (List.all_eq_true.mp hcommitted p hp) y hy)

end RaftNode.Server
