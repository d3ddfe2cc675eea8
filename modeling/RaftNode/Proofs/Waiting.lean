import RaftNode.Server
import RaftNode.Proofs.Heeding
/-!
# Answers to proposals

A caller who proposes a command and waits for its output is answered once: with the output of an entry that has the
index and the term of the entry appended for the command, or with an error that says nothing of the command. As long
as the loop goes on, whoever waits does so for a leader that still has the entry and has not applied it.
-/
namespace RaftNode

open RaftNode.Action (wp)

variable {σ μ : Type}

/-! ## What is asked and answered -/

/-- An event that reached the loop, when it did and what it found. -/
structure Taken (σ μ : Type) where
  server : Server σ μ
  moment : Moment
  event : Event

def Event.asks (t : Ticket) : Event → Bool
  | .proposeAndWait ticket _ => ticket = t
  | _ => false

def Event.batch : Event → List Entry
  | .request _ q => q.batch
  | _ => []

def Event.Consecutive : Event → Prop
  | .request _ q => q.Consecutive
  | _ => True

/-- An answer to a caller who waits for an output. -/
def Effect.answers (t : Ticket) : Effect → Bool
  | .answer ticket (.output _) => ticket = t
  | _ => false

/-- An answer that tells of the command: its output, or the error that the machine refused it with. -/
def IsOutcome : Except NodeError Bytes → Prop
  | .ok _ | .error (.machine _) => True
  | .error _ => False

def Server.asked (past : List (Taken σ μ)) (t : Ticket) : Nat := past.countP fun p => p.event.asks t

def Server.answered (s : Server σ μ) (t : Ticket) : Nat := s.effects.countP (Effect.answers t)

def Server.waiting (s : Server σ μ) (t : Ticket) : Nat := s.waiters.countP fun w => w.ticket = t

namespace Taken

variable [LogStore σ] [StateMachine μ]

/-- A command that was appended, by the leader of the entry's term. -/
structure Appends (p : Taken σ μ) (t : Ticket) (x : Entry) : Prop where
  event : p.event = .proposeAndWait t x.command
  term : x.term = p.server.node.term
  node : ∃ n, Node.propose x.command p.server.node = .ok x.index n ∧ n.log.entry? x.index = some x

/-- A command that the machine refused before it was appended. -/
def Refuses (p : Taken σ μ) (t : Ticket) (r : Except NodeError Bytes) : Prop :=
  ∃ command reason, p.event = .proposeAndWait t command ∧
    StateMachine.validate p.server.node.machine command = .error reason ∧
    r = .error (.machine reason)

/-- A committed entry that was applied at the end of the event. -/
def Executes (p : Taken σ μ) (x : Entry) (output : Output) : Prop :=
  p.server.running = true ∧
    ∃ s, Server.handle p.moment p.event p.server = .ok () s ∧ s.node.Executes x output

/-- An entry that a leader was handed while it led the entry's term. -/
structure Hands (p : Taken σ μ) (x : Entry) : Prop where
  leads : p.server.node.isLeader = true
  term : p.server.node.term = x.term
  batch : x ∈ p.event.batch

end Taken

namespace Server

variable [LogStore σ] [StateMachine μ] {past : List (Taken σ μ)} {p : Taken σ μ} {s s' : Server σ μ}
  {t : Ticket} {r : Except NodeError Bytes} {w : Waiter} {x : Entry}

/-- The outcome of a command that was appended: an entry with its index and term was applied, and it is the very entry
unless another one was handed to the leader in that event. -/
def Concluded (past : List (Taken σ μ)) (t : Ticket) (r : Except NodeError Bytes) : Prop :=
  ∃ (j k : ℕ) (p q : Taken σ μ) (x y : Entry) (output : Output),
    past[j]? = some p ∧ past[k]? = some q ∧ j ≤ k ∧ p.Appends t x ∧ q.Executes y output ∧
    y.index = x.index ∧ y.term = x.term ∧ r = output.mapError .machine ∧ (y = x ∨ q.Hands y)

/-- Where an answer comes from. -/
def Explained (past : List (Taken σ μ)) (t : Ticket) (r : Except NodeError Bytes) : Prop :=
  IsOutcome r → (∃ p ∈ past, p.Refuses t r) ∨ Concluded past t r

/-- The events that a loop has taken, and where they have led it. -/
inductive Serves (s₀ : Server σ μ) : List (Taken σ μ) → Server σ μ → Prop
  | start : Serves s₀ [] s₀
  | event {past : List (Taken σ μ)} {s : Server σ μ} (h : Serves s₀ past s) (m : Moment) {e : Event}
      (he : e.Consecutive) : Serves s₀ (past ++ [⟨s, m, e⟩]) (s.receive m e)
  | disturb {past : List (Taken σ μ)} {s : Server σ μ} (h : Serves s₀ past s) (store : σ) :
      Serves s₀ past { s with node := { s.node with log := { s.node.log with store } } }

/-! ## Accounts -/

/-- Every question is answered or waits, and every outcome has its explanation. -/
structure Accounted (past : List (Taken σ μ)) (s : Server σ μ) : Prop where
  balance : ∀ t, s.answered t + s.waiting t = asked past t
  explained : ∀ t r, Effect.answer t (.output r) ∈ s.effects → Explained past t r

theorem Concluded.mono (h : Concluded past t r) (p : Taken σ μ) : Concluded (past ++ [p]) t r := by
  obtain ⟨j, k, q, q', x, y, output, hj, hk, hrest⟩ := h
  refine ⟨j, k, q, q', x, y, output, ?_, ?_, hrest⟩
  · rw [List.getElem?_append_left (List.getElem?_eq_some_iff.mp hj).1]
    exact hj
  · rw [List.getElem?_append_left (List.getElem?_eq_some_iff.mp hk).1]
    exact hk

theorem Explained.mono (h : Explained past t r) (p : Taken σ μ) : Explained (past ++ [p]) t r := by
  intro hr
  obtain ⟨q, hq, hrefuses⟩ | hconcluded := h hr
  · exact Or.inl ⟨q, List.mem_append_left _ hq, hrefuses⟩
  · exact Or.inr (hconcluded.mono p)

omit [LogStore σ] [StateMachine μ] in
theorem asked_append (past : List (Taken σ μ)) (p : Taken σ μ) (t : Ticket) :
    asked (past ++ [p]) t = asked past t + if p.event.asks t then 1 else 0 := by
  rw [asked, asked, List.countP_append]
  simp

/-- An event that asks nothing. -/
theorem Accounted.event (h : Accounted past s) (hp : ∀ t, p.event.asks t = false) :
    Accounted (past ++ [p]) s where
  balance t := by
    rw [asked_append, hp t]
    exact h.balance t
  explained t r hr := (h.explained t r hr).mono p

/-- Nobody who waits for an output is answered. -/
structure Silent (s s' : Server σ μ) : Prop where
  waiters : s'.waiters = s.waiters
  running : s'.running = s.running
  effects : ∃ es, s'.effects = s.effects ++ es ∧ ∀ e ∈ es, ∀ t, e.answers t = false

omit [LogStore σ] [StateMachine μ] in
theorem Silent.step (hw : s'.waiters = s.waiters) (hr : s'.running = s.running)
    (he : s'.effects = s.effects) : Silent s s' :=
  ⟨hw, hr, [], by simp [he], by simp⟩

omit [LogStore σ] [StateMachine μ] in
theorem Silent.node (s : Server σ μ) (n : Node σ μ) : Silent s { s with node := n } :=
  .step rfl rfl rfl

omit [LogStore σ] [StateMachine μ] in
theorem Silent.emit {es : List Effect} (h : Silent s s')
    (hes : ∀ e ∈ es, ∀ t, e.answers t = false) : Silent s (s'.emit es) where
  waiters := h.waiters
  running := h.running
  effects := by
    obtain ⟨es', hes', hsilent⟩ := h.effects
    refine ⟨es' ++ es, ?_, fun e he => ?_⟩
    · rw [Server.emit, hes', List.append_assoc]
    · exact (List.mem_append.mp he).elim (hsilent e) (hes e)

omit [LogStore σ] [StateMachine μ] in
theorem Silent.send (h : Silent s s') (messages : List Outbound) :
    Silent s (s'.emit (messages.map .send)) := by
  refine h.emit fun e he t => ?_
  obtain ⟨m, -, rfl⟩ := List.mem_map.mp he
  rfl

omit [LogStore σ] [StateMachine μ] in
theorem Silent.answer {a : Answer} (h : Silent s s') (ha : ∀ r, a ≠ .output r) :
    Silent s (s'.emit [.answer t a]) := by
  refine h.emit fun e he t' => ?_
  cases List.mem_singleton.mp he
  cases a with
  | output r => exact absurd rfl (ha r)
  | reply _ | index _ | snapshot _ => rfl

theorem Accounted.silent (h : Accounted past s) (hs : Silent s s') : Accounted past s' := by
  obtain ⟨hw, -, es, hes, hsilent⟩ := hs
  refine ⟨fun t => ?_, fun t r hr => ?_⟩
  · have hnone : es.countP (Effect.answers t) = 0 := by
      rw [List.countP_eq_zero]
      intro e he
      simp [hsilent e he t]
    rw [answered, waiting, hw, hes, List.countP_append, hnone]
    exact h.balance t
  · rw [hes] at hr
    rcases List.mem_append.mp hr with hr | hr
    · exact h.explained t r hr
    · have := hsilent _ hr t
      simp [Effect.answers] at this

/-- Everyone who waits is answered, and told of no outcome. -/
theorem Accounted.failWaiters (h : Accounted past s) {reason : Waiter → NodeError}
    (hreason : ∀ w, ¬ IsOutcome (.error (reason w))) : Accounted past (s.failWaiters reason) where
  balance t := by
    have hmoved : (s.waiters.map fun w => Effect.answer w.ticket (.output (.error (reason w)))).countP
        (Effect.answers t) = s.waiting t := by
      rw [List.countP_map]
      rfl
    have hbalance := h.balance t
    rw [answered, waiting, Server.failWaiters, Server.emit, List.countP_append, hmoved]
    exact hbalance
  explained t r hr := by
    rcases List.mem_append.mp hr with hr | hr
    · exact h.explained t r hr
    · obtain ⟨w, -, hw⟩ := List.mem_map.mp hr
      cases hw
      exact fun houtcome => absurd houtcome (hreason w)

/-- The question of this very event is answered. -/
theorem Accounted.answer (h : Accounted past s) (hp : ∀ t', p.event.asks t' = decide (t = t'))
    (hr : Explained (past ++ [p]) t r) : Accounted (past ++ [p]) (s.emit [.answer t (.output r)]) where
  balance t' := by
    have hbalance := h.balance t'
    rw [answered, waiting, Server.emit, List.countP_append, asked_append, hp t', ← hbalance,
      List.countP_singleton]
    simp only [Effect.answers, answered, waiting]
    lia
  explained t' r' hr' := by
    rcases List.mem_append.mp hr' with hr' | hr'
    · exact (h.explained t' r' hr').mono p
    · cases List.mem_singleton.mp hr'
      exact hr

/-! ## Who waits -/

/-- The caller waits for an entry that was appended for its command. -/
structure WaitsFor (past : List (Taken σ μ)) (w : Waiter) (x : Entry) : Prop where
  appended : ∃ p ∈ past, p.Appends w.ticket x
  command : x.isNoop = false
  index : x.index = w.index
  term : x.term = w.term

/-- The entry is ahead, in the log of the leader of its term. -/
structure Ahead (n : Node σ μ) (w : Waiter) (x : Entry) : Prop where
  current : w.term = n.term
  unapplied : n.log.lastApplied < w.index
  held : n.log.entry? w.index = some x

/-- After an event: if the node still leads, the entry is ahead; and if another entry with its term took its place,
then it was handed to the leader in this event. -/
structure Expects (p : Taken σ μ) (n : Node σ μ) (w : Waiter) (x : Entry) : Prop where
  leads : n.isLeader = true → Ahead n w x
  replaced : ∀ y, n.log.entry? w.index = some y → y.term = w.term → y = x ∨ p.Hands y

def InOrder (ws : List Waiter) : Prop := ws.Pairwise fun v w => v.index < w.index

/-- The loop between two events. -/
structure Attentive (past : List (Taken σ μ)) (s : Server σ μ) : Prop extends Accounted past s where
  tidy : s.running = true → s.node.log.Tidy
  sorted : InOrder s.waiters
  stopped : s.running = false → s.waiters = []
  awaits : ∀ w ∈ s.waiters, ∃ x, WaitsFor past w x ∧ s.node.isLeader = true ∧ Ahead s.node w x

/-- The loop when it has handled an event and not yet applied what is committed. -/
structure Ready (past : List (Taken σ μ)) (p : Taken σ μ) (s : Server σ μ) : Prop
    extends Accounted past s where
  running : s.running = true
  tidy : s.node.log.Tidy
  sorted : InOrder s.waiters
  expects : ∀ w ∈ s.waiters, ∃ x, WaitsFor past w x ∧ Expects p s.node w x

theorem WaitsFor.mono (h : WaitsFor past w x) (p : Taken σ μ) : WaitsFor (past ++ [p]) w x := by
  obtain ⟨q, hq, happends⟩ := h.appended
  exact { h with appended := ⟨q, List.mem_append_left _ hq, happends⟩ }

/-- Whoever waits when an event comes knows what to expect of it. -/
theorem Attentive.expects (h : Attentive past s) {m : Moment} {e : Event} {n : Node σ μ}
    (hn : Node.Heeds e.batch s.node n) (hw : w ∈ s.waiters) :
    ∃ x, WaitsFor (past ++ [⟨s, m, e⟩]) w x ∧ Expects ⟨s, m, e⟩ n w x := by
  obtain ⟨x, hwaits, hleads, hahead⟩ := h.awaits w hw
  refine ⟨x, hwaits.mono _, fun hl => ?_, fun y hy hterm => ?_⟩
  · obtain ⟨hterm, happlied, hkept⟩ := hn.leads hleads hl
    exact ⟨hahead.current.trans hterm.symm, happlied ▸ hahead.unapplied,
      hkept _ _ hahead.unapplied hahead.held⟩
  · obtain hsame | hbatch := hn.entries _ _ _ hahead.unapplied hahead.held hy
    · exact Or.inl hsame
    · exact Or.inr ⟨hleads, hahead.current.symm.trans hterm.symm, hbatch⟩

/-- An event after which the same callers wait. -/
theorem Attentive.ready (h : Attentive past s) (hrun : s.running = true) {m : Moment} {e : Event}
    (hasks : ∀ t, e.asks t = false) (hn : Node.Heeds e.batch s.node s'.node) (hs : Silent s s') :
    Ready (past ++ [⟨s, m, e⟩]) ⟨s, m, e⟩ s' where
  toAccounted := (h.toAccounted.silent hs).event hasks
  running := hs.running.trans hrun
  tidy := hn.tidy
  sorted := hs.waiters ▸ h.sorted
  expects _ hmem := h.expects hn (hs.waiters ▸ hmem)

/-! ## Handling an event -/

/-- What a caller is told of a step that failed. -/
def told : Fault NodeError → NodeError
  | .error e => e
  | .abort => .stopped

/-- What ends the loop says nothing of a command. -/
theorem halts_silent {f : Fault NodeError} (hf : f.halts = true) : ¬ IsOutcome (.error (told f)) := by
  rintro houtcome
  cases f with
  | abort => cases houtcome
  | error e =>
    cases e with
    | machine reason => cases hf
    | _ => cases houtcome

omit [LogStore σ] [StateMachine μ] in
@[simp] theorem wp_onNode {α : Type} (step : NodeAction σ μ α) {Q : α → Server σ μ → Prop}
    {E : Fault NodeError → Server σ μ → Prop} : wp (onNode step) Q E s ↔
      wp step (fun a n => Q a { s with node := n }) (fun f n => E f { s with node := n }) s.node :=
  Action.wp_within_part node _ step

omit [LogStore σ] [StateMachine μ] in
/-- The caller is answered either way, and only a fatal error goes on to the loop. -/
theorem wp_respond {α : Type} {ticket : Ticket} {wrap : Except NodeError α → Answer}
    {step : ServerAction σ μ α} {Q : Unit → Server σ μ → Prop}
    {E : Fault NodeError → Server σ μ → Prop}
    (h : wp step (fun a s => Q () (s.emit [.answer ticket (wrap (.ok a))]))
      (fun f s => if f.halts = true then E f (s.emit [.answer ticket (wrap (.error (told f)))])
        else Q () (s.emit [.answer ticket (wrap (.error (told f)))])) s) :
    wp (respond ticket wrap step) Q E s := by
  unfold wp respond at *
  cases hstep : step s with
  | ok a s' =>
    rw [hstep] at h
    exact h
  | error f s' =>
    rw [hstep] at h
    cases f with
    | abort => exact h
    | error e =>
      cases hfatal : e.isFatal <;> simpa [Fault.halts, told, hfatal] using h

theorem wp_proposeAndWait {ticket : Ticket} {m : Moment} {command : Bytes}
    {Q : Unit → Server σ μ → Prop} {E : Fault NodeError → Server σ μ → Prop}
    (h : wp (propose m command) (fun i s => wp (wait ⟨i, s.node.term, ticket⟩) Q E s)
      (fun f s => if f.halts = true then E f (s.emit [.answer ticket (.output (.error (told f)))])
        else Q () (s.emit [.answer ticket (.output (.error (told f)))])) s) :
    wp (proposeAndWait m ticket command) Q E s := by
  unfold wp proposeAndWait at *
  cases hstep : propose m command s with
  | ok a s' =>
    rw [hstep] at h
    exact h
  | error f s' =>
    rw [hstep] at h
    cases f with
    | abort => exact h
    | error e =>
      cases hfatal : e.isFatal <;> simpa [Fault.halts, told, hfatal] using h

/-- A command is appended and sent, or it is refused, or the loop ends. -/
theorem wp_propose_node (m : Moment) (command : Bytes) (s : Server σ μ) :
    wp (propose m command)
      (fun i s' => ∃ (n₁ n₂ : Node σ μ) (messages : List Outbound),
        Node.propose command s.node = .ok i n₁ ∧ Node.Proposes s.node command i n₁ ∧
        Node.Plains False n₁ n₂ ∧ n₂.term = n₁.term ∧
        s' = { s with node := n₂ }.emit (messages.map .send))
      (fun f s' => (f.halts = true ∧ ∃ n, s' = { s with node := n }) ∨
        s' = s ∧ Node.Refuses s.node command f) s := by
  rw [propose, Action.wp_bind, wp_onNode]
  refine Action.wp_mono (Action.wp_and (Action.wp_self _ _) (Node.wp_propose command s.node)) ?_ ?_
  · rintro i n₁ ⟨hpropose, hproposes⟩
    rw [Action.wp_bind, wp_onNode]
    have hplain : Node.Leads False n₁ (Node.replicate m) n₁ := Node.isPlain_replicate m n₁
    refine Action.wp_mono (Action.wp_and hplain (Node.wp_replicate_same m n₁)) ?_ ?_
    · rintro messages n₂ ⟨hplains, hterm, -⟩
      exact ⟨n₁, n₂, messages, hpropose, hproposes, hplains, hterm, rfl⟩
    · rintro f n₂ ⟨hstops, -⟩
      exact Or.inl ⟨hstops.halts, n₂, rfl⟩
  · rintro f n ⟨-, hstops | ⟨rfl, hrefuses⟩⟩
    · exact Or.inl ⟨hstops.halts, n, rfl⟩
    · exact Or.inr ⟨rfl, hrefuses⟩

theorem filter_thirds (ws : List Waiter) (i : Index) (q : Waiter → Bool) :
    (ws.filter fun v => v.index = i).countP q + ((ws.filter fun v => v.index < i).countP q +
      (ws.filter fun v => i < v.index).countP q) = ws.countP q := by
  induction ws with
  | nil => rfl
  | cons v ws ih =>
    rcases lt_trichotomy v.index i with h | h | h
    · simp only [List.filter_cons, List.countP_cons, h, h.ne, h.not_gt, decide_true, decide_false,
        if_true]
      lia
    · simp only [List.filter_cons, List.countP_cons, h, lt_irrefl, decide_true, decide_false,
        if_true]
      lia
    · simp only [List.filter_cons, List.countP_cons, h, h.ne', h.not_gt, decide_true, decide_false,
        if_true]
      lia

/-- The waiter has its place. Whoever waited there is told that nobody will answer. -/
theorem Accounted.wp_wait (h : Accounted past s)
    (hp : ∀ t, p.event.asks t = decide (w.ticket = t)) :
    wp (wait w) (fun _ s' => Accounted (past ++ [p]) s' ∧ s'.node = s.node ∧
        s'.running = s.running ∧ (∀ v ∈ s'.waiters, v = w ∨ v ∈ s.waiters) ∧
        (InOrder s.waiters → InOrder s'.waiters)) (fun _ _ => False) s := by
  rw [wait, Action.wp_bind, Action.wp_get, Action.wp_set]
  refine ⟨⟨fun t => ?_, fun t r hr => ?_⟩, rfl, rfl, fun v hv => ?_, fun hsorted => ?_⟩
  · have hthirds := filter_thirds s.waiters w.index fun v => v.ticket = t
    have hbalance := h.balance t
    rw [answered, waiting, Server.emit, asked_append, hp t]
    simp only [List.countP_append, List.countP_map, List.countP_cons]
    unfold answered waiting at hbalance
    simp only [Function.comp_def, Effect.answers, decide_eq_true_eq] at hthirds ⊢
    lia
  · rcases List.mem_append.mp hr with hr | hr
    · exact (h.explained t r hr).mono p
    · obtain ⟨v, -, hv⟩ := List.mem_map.mp hr
      cases hv
      rintro ⟨⟩
  · rcases List.mem_append.mp hv with hv | hv
    · exact Or.inr (List.mem_of_mem_filter hv)
    · rcases List.mem_cons.mp hv with rfl | hv
      · exact Or.inl rfl
      · exact Or.inr (List.mem_of_mem_filter hv)
  · refine List.pairwise_append.mpr ⟨hsorted.filter _, ?_, ?_⟩
    · refine List.pairwise_cons.mpr ⟨fun v hv => ?_, hsorted.filter _⟩
      simpa using (List.mem_filter.mp hv).2
    · intro u hu v hv
      have hless : u.index < w.index := by simpa using (List.mem_filter.mp hu).2
      rcases List.mem_cons.mp hv with rfl | hv
      · exact hless
      · have hmore : w.index < v.index := by simpa using (List.mem_filter.mp hv).2
        exact hless.trans hmore

/-- The event is handled, and the loop is ready to apply what is committed; or it ends. -/
def Handles (past : List (Taken σ μ)) (p : Taken σ μ) (x : ServerAction σ μ Unit)
    (s : Server σ μ) : Prop :=
  wp x (fun _ s' => Ready (past ++ [p]) p s')
    (fun f s' => f.halts = true ∧ Accounted (past ++ [p]) s') s

/-- A step of the node whose messages are sent. -/
theorem Attentive.handles_send (h : Attentive past s) (hrun : s.running = true) {m : Moment}
    {e : Event} (hasks : ∀ t, e.asks t = false) {s₁ : Server σ μ} (hs : Silent s s₁)
    {step : NodeAction σ μ (List Outbound)}
    (hstep : wp step (fun _ n => Node.Heeds e.batch s.node n) (fun f _ => f.halts = true) s₁.node) :
    Handles past ⟨s, m, e⟩ (do send (← onNode step)) s₁ := by
  rw [Handles, Action.wp_bind, wp_onNode]
  refine Action.wp_mono hstep ?_ ?_
  · intro messages n hheeds
    refine h.ready hrun hasks hheeds (Silent.send ?_ messages)
    exact ⟨hs.waiters, hs.running, hs.effects⟩
  · intro f n hf
    have hsilent : Silent s { s₁ with node := n } := ⟨hs.waiters, hs.running, hs.effects⟩
    exact ⟨hf, (h.toAccounted.silent hsilent).event hasks⟩

/-- A step whose result is no output. -/
theorem Attentive.handles_respond (h : Attentive past s) (hrun : s.running = true) {m : Moment}
    {e : Event} (hasks : ∀ t, e.asks t = false) {α : Type} {wrap : Except NodeError α → Answer}
    (hwrap : ∀ r r', wrap r ≠ .output r') {step : ServerAction σ μ α}
    (hstep : wp step (fun _ s' => Node.Heeds e.batch s.node s'.node ∧ Silent s s')
      (fun f s' => Silent s s' ∧ (f.halts = true ∨ Node.Heeds e.batch s.node s'.node)) s) :
    Handles past ⟨s, m, e⟩ (respond t wrap step) s := by
  refine wp_respond (Action.wp_mono hstep ?_ ?_)
  · rintro a s' ⟨hheeds, hs⟩
    exact h.ready hrun hasks hheeds (hs.answer (hwrap _))
  · rintro f s' ⟨hs, hf⟩
    have hs' : Silent s (s'.emit [.answer t (wrap (.error (told f)))]) := hs.answer (hwrap _)
    split
    · exact ⟨‹_›, (h.toAccounted.silent hs').event hasks⟩
    · exact h.ready hrun hasks (hf.resolve_left ‹_›) hs'

omit [LogStore σ] in
theorem refuses_halts {n : Node σ μ} {command : Bytes} {f : Fault NodeError}
    (h : Node.Refuses n command f) : f.halts = false := by
  cases h <;> rfl

/-- A command is appended, or refused. -/
theorem Attentive.handles_propose (h : Attentive past s) (hrun : s.running = true) (m : Moment)
    (ticket : Ticket) (command : Bytes) :
    Handles past ⟨s, m, .propose ticket command⟩ (respond ticket .index (propose m command)) s := by
  refine h.handles_respond hrun (fun _ => rfl) (by rintro _ _ ⟨⟩)
    (Action.wp_mono (wp_propose_node m command s) ?_ ?_)
  · rintro i _ ⟨n₁, n₂, messages, -, hproposes, hplains, -, rfl⟩
    exact ⟨hproposes.heeds hplains (h.tidy hrun), (Silent.node s n₂).send messages⟩
  · rintro f _ (⟨hf, n, rfl⟩ | ⟨rfl, -⟩)
    · exact ⟨.node s n, Or.inl hf⟩
    · exact ⟨.step rfl rfl rfl, Or.inr (Node.heeds_refl (h.tidy hrun))⟩

/-- The command of a caller who waits. -/
theorem Attentive.handles_proposeAndWait (h : Attentive past s) (hrun : s.running = true)
    (m : Moment) (ticket : Ticket) (command : Bytes) :
    Handles past ⟨s, m, .proposeAndWait ticket command⟩ (proposeAndWait m ticket command) s := by
  have htidy := h.tidy hrun
  refine wp_proposeAndWait (Action.wp_mono (wp_propose_node m command s) ?_ ?_)
  · rintro i _ ⟨n₁, n₂, messages, hpropose, hproposes, hplains, hterm, rfl⟩
    obtain ⟨hentry, happlied, -, hterm₁⟩ := hproposes.entry? htidy
    have hheeds : Node.Heeds (Event.proposeAndWait ticket command).batch s.node n₂ :=
      hproposes.heeds hplains htidy
    have hprolongs := hplains.prolongs (hproposes.plains.prolongs htidy).tidy
    have hheld := hprolongs.entry? hentry
    have hsilent := h.toAccounted.silent ((Silent.node s n₂).send messages)
    refine Action.wp_mono (hsilent.wp_wait (p := ⟨s, m, .proposeAndWait ticket command⟩)
      fun _ => rfl) ?_ fun _ _ => False.elim
    rintro - s' ⟨haccounted, hnode, hrunning, hmem, hsorted⟩
    refine ⟨haccounted, hrunning.trans hrun, hnode ▸ hprolongs.tidy, hsorted h.sorted,
      fun v hv => ?_⟩
    rw [hnode]
    rcases hmem v hv with rfl | hv
    · refine ⟨⟨i, s.node.term, command⟩, ⟨⟨_, List.mem_append_right _ (List.mem_singleton_self _),
        rfl, rfl, n₁, hpropose, hentry⟩, hproposes.nonempty, rfl, (hterm.trans hterm₁).symm⟩,
        fun _ => ⟨rfl, ?_, hheld⟩, fun y hy _ => Or.inl ?_⟩
      · exact hprolongs.applied ▸ happlied
      · exact Option.some.inj (hy.symm.trans hheld)
    · exact h.expects hheeds hv
  · rintro f s' (⟨hf, n, rfl⟩ | ⟨hs', hrefuses⟩)
    · have hsilent := h.toAccounted.silent (.node s n)
      rw [if_pos hf]
      exact ⟨hf, hsilent.answer (fun _ => rfl) fun houtcome => (halts_silent hf houtcome).elim⟩
    · subst hs'
      rw [if_neg (by simp [refuses_halts hrefuses])]
      have hheeds : Node.Heeds (Event.batch (.proposeAndWait ticket command)) s'.node s'.node :=
        Node.heeds_refl htidy
      refine ⟨h.toAccounted.answer (fun _ => rfl) ?_, hrun, htidy, h.sorted,
        fun _ hv => h.expects hheeds hv⟩
      cases hrefuses with
      | notLeader _ => rintro ⟨⟩
      | empty _ => rintro ⟨⟩
      | @invalid reason hmachine =>
        exact fun _ => Or.inl ⟨_, List.mem_append_right _ (List.mem_singleton_self _), command,
          reason, rfl, hmachine, rfl⟩

theorem Attentive.handles (h : Attentive past s) (hrun : s.running = true) (m : Moment) {e : Event}
    (he : e.Consecutive) : Handles past ⟨s, m, e⟩ (handle m e) s := by
  have htidy := h.tidy hrun
  have hrefl : Silent s s := .step rfl rfl rfl
  cases e with
  | request ticket q =>
    refine h.handles_respond hrun (fun _ => rfl) (by rintro _ _ ⟨⟩) ?_
    rw [wp_onNode]
    exact Action.wp_mono (Node.heeds_onRequest m he htidy)
      (fun _ _ hheeds => ⟨hheeds, .step rfl rfl rfl⟩) fun _ _ hf => ⟨.step rfl rfl rfl, Or.inl hf⟩
  | response r =>
    exact h.handles_send hrun (fun _ => rfl) hrefl ((Node.leads_onResponse m r s.node).heeds htidy)
  | propose ticket command => exact h.handles_propose hrun m ticket command
  | proposeAndWait ticket command => exact h.handles_proposeAndWait hrun m ticket command
  | takeSnapshot ticket =>
    refine h.handles_respond hrun (fun _ => rfl) (by rintro _ _ ⟨⟩) ?_
    rw [wp_onNode]
    exact Action.wp_mono (Node.wp_takeSnapshot s.node)
      (fun _ _ hsnaps => ⟨hsnaps.heeds htidy, .step rfl rfl rfl⟩)
      fun _ _ hf => ⟨.step rfl rfl rfl, Or.inl hf.1⟩
  | heartbeat =>
    have hlate : Silent s { s with
        nextBeat := beatAfter s.nextBeat m.now s.node.config.heartbeat } := .step rfl rfl rfl
    exact h.handles_send (e := .heartbeat) hrun (fun _ => rfl) hlate
      (Node.Leads.heeds (Node.isPlain_heartbeat m s.node) htidy)
  | electionTimeout =>
    exact h.handles_send hrun (fun _ => rfl) hrefl
      (Node.Leads.heeds (Node.leads_startElection m s.node) htidy)
  | shutdown => exact h.ready hrun (fun _ => rfl) (Node.heeds_refl htidy) hrefl

end Server

end RaftNode
