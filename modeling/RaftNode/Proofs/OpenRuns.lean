import RaftNode.Proofs.Protocol
import RaftNode.Proofs.Steps
/-!
# Runs among strangers

A run in which requests and responses may be anything at all, and what one event does to one member: it passes, it
halts the member, or the member crashes or boots.
-/
namespace RaftNode.Protocol

open RaftNode.Action (wp)

variable {σ μ : Type} [LogStore σ] [StateMachine μ]

/-- The request that an event hands to a member. -/
def Event.input (i : NodeId) : Event σ μ → Option Request
  | .deliver _ message _ => if message.target = i then some message.request else none
  | _ => none

/-- What an event is to a member, and when. -/
def Event.occasion (i : NodeId) : Event σ μ → Option (Moment × Node.Occasion)
  | .act v c m => if v = i then some (m, .act c) else none
  | .deliver _ message m => if message.target = i then some (m, .request message.request) else none
  | .answer v r m => if v = i then some (m, .response r) else none
  | .giveUp v message m => if v = i then some (m, .response message.lost) else none
  | .boot .. | .crash _ | .disturb .. | .idle => none

variable [LawfulStore σ]

/-- What an event can do to member `i`. -/
inductive Turn (event : Option (Moment × Node.Occasion)) (i : NodeId) : Life σ μ → Life σ μ → Prop
  | rest (life : Life σ μ) : Turn event i life life
  | disturb {life : Life σ μ} {store : σ} (hstore : kept store = kept (storeOf life)) :
      Turn event i life (withStore store life)
  | crash (life : Life σ μ) : Turn event i life (.down (storeOf life))
  | boot {life : Life σ μ} {peers : List NodeId} {machine : μ} {config : Config} {m : Moment}
      {n : Node σ μ} {store : σ}
      (hboot : Node.boot i peers machine config m (storeOf life) = .ok n store) :
      Turn event i life (.up n)
  | refuse {life : Life σ μ} {peers : List NodeId} {machine : μ} {config : Config} {m : Moment}
      {f : Fault NodeError} {store : σ}
      (hboot : Node.boot i peers machine config m (storeOf life) = .error f store) :
      Turn event i life (.down store)
  | go {n n' : Node σ μ} {m : Moment} {o : Node.Occasion} (ho : event = some (m, o))
      (hrun : o.Passes m n n') : Turn event i (.up n) (.up n')
  | halt {n n' : Node σ μ} {m : Moment} {o : Node.Occasion} {f : Fault NodeError}
      (ho : event = some (m, o)) (hf : f.halts = true) (hrun : o.run m n = .error f n') :
      Turn event i (.up n) (.down n'.log.store)

section

omit [LawfulStore σ]

variable {α : Type} {s : State σ μ} {i j : NodeId} {x : NodeAction σ μ α}

omit [LogStore σ] [StateMachine μ] in
theorem perform_life_ne (s : State σ μ) (x : NodeAction σ μ α) (hne : j ≠ i) :
    (perform s i x).2.life j = s.life j := by
  unfold perform
  split
  · rfl
  · split
    · exact Function.update_of_ne hne _ _
    · exact Function.update_of_ne hne _ _

omit [LogStore σ] [StateMachine μ] in
/-- Who returns something has come to the end of the event. -/
theorem perform_some {a : α} (h : (perform s i x).1 = some a) :
    ∃ n n', s.life i = .up n ∧ x n = .ok a n' ∧ (perform s i x).2.life i = .up n' := by
  unfold perform at *
  split at h
  · cases h
  · rename_i n hn
    split at h
    · rename_i a' n' hx
      obtain rfl := Option.some.inj h
      exact ⟨n, n', hn, hx, Function.update_self ..⟩
    · cases h

end

variable {α : Type} {s : State σ μ} {i : NodeId} {x : NodeAction σ μ α} {m : Moment}
  {o : Node.Occasion}

theorem turn_perform (hx : o.run m = (fun _ => ()) <$> x) :
    Turn (some (m, o)) i (s.life i) ((perform s i x).2.life i) := by
  cases hl : s.life i with
  | down store =>
    rw [perform_down hl, hl]
    exact .rest _
  | up n =>
    have hrun : o.run m n = ((fun _ => ()) <$> x : NodeAction σ μ Unit) n := by rw [hx]
    simp only [Functor.map, EStateM.map] at hrun
    cases hr : x n with
    | ok a n' =>
      rw [perform_ok hl hr]
      simp only [Function.update_self]
      exact .go rfl (Or.inl (by rw [hrun, hr]))
    | error f n' =>
      rw [perform_error hl hr]
      simp only [Function.update_self]
      have herror : o.run m n = .error f n' := by rw [hrun, hr]
      cases hf : f.halts with
      | true => exact .halt rfl hf herror
      | false => exact .go rfl (Or.inr ⟨f, hf, herror⟩)

/-- A step of member `v`, whoever looks at it. -/
theorem turn_step (hx : o.run m = (fun _ => ()) <$> x) (v : NodeId) :
    Turn (if v = i then some (m, o) else none) i (s.life i) ((perform s v x).2.life i) := by
  by_cases hv : v = i
  · subst hv
    rw [if_pos rfl]
    exact turn_perform hx
  · rw [perform_life_ne s x (Ne.symm hv)]
    exact .rest _

/-- Messages may be forged, but what is stored changes only as a node writes it. -/
def Possible (s : State σ μ) : Event σ μ → Prop
  | .disturb i store => kept store = kept (storeOf (s.life i))
  | _ => True

/-- What any event does to any member. -/
theorem turn_next {e : Event σ μ} (he : Possible s e) (i : NodeId) :
    Turn (e.occasion i) i (s.life i) ((next s e).life i) := by
  cases e with
  | boot v peers machine config m =>
    by_cases hi : i = v
    · subst hi
      simp only [next]
      split
      · rename_i n store hboot
        simp only [Function.update_self]
        exact .boot hboot
      · rename_i f store hboot
        simp only [Function.update_self]
        exact .refuse hboot
    · simp only [next]
      split
      · simp only [Function.update_of_ne hi]
        exact .rest _
      · simp only [Function.update_of_ne hi]
        exact .rest _
  | crash v =>
    by_cases hi : i = v
    · subst hi
      simp only [next, Function.update_self]
      exact .crash _
    · simp only [next, Function.update_of_ne hi]
      exact .rest _
  | disturb v store =>
    by_cases hi : i = v
    · subst hi
      simp only [next, Function.update_self]
      exact .disturb he
    · simp only [next, Function.update_of_ne hi]
      exact .rest _
  | act v c m => exact turn_step (o := .act c) rfl v
  | deliver sender message m => exact turn_step (o := .request message.request) rfl message.target
  | answer v r m => exact turn_step (o := .response r) rfl v
  | giveUp v message m => exact turn_step (o := .response message.lost) rfl v
  | idle => exact .rest _

/-- Nodes that start from whatever their stores hold, and meet whatever messages there are. -/
structure OpenRun (σ μ : Type) [LogStore σ] [LawfulStore σ] [StateMachine μ] where
  state : ℕ → State σ μ
  event : ℕ → Event σ μ
  start : ∀ i, ∃ store, (state 0).life i = .down store
  valid : ∀ t, Possible (state t) (event t) ∧ state (t + 1) = next (state t) (event t)

omit [StateMachine μ] in
theorem Enabled.possible {members : Finset NodeId} {e : Event σ μ} (h : Enabled members s e) :
    Possible s e := by
  cases e <;> trivial

/-- Members of a cluster are nodes that meet no forged messages. -/
def Run.toOpenRun {members : Finset NodeId} (r : Run members σ μ) : OpenRun σ μ where
  state := r.state
  event := r.event
  start i := (r.start.down i).imp fun _ h => h.1
  valid t := ⟨(r.valid t).1.possible, (r.valid t).2⟩

/-- The run that goes through some events, none of which is a disturbance, and then rests. -/
def OpenRun.play (s : State σ μ) (es : List (Event σ μ))
    (hs : ∀ i, ∃ store, s.life i = .down store) (hes : ∀ e ∈ es, ∀ s, Possible s e) :
    OpenRun σ μ where
  state t := (es.take t).foldl next s
  event t := es.getD t .idle
  start := hs
  valid t := by
    refine ⟨?_, foldl_take_succ s es t⟩
    rw [List.getD_eq_getElem?_getD]
    cases he : es[t]? with
    | none => trivial
    | some e => exact hes e (List.mem_of_getElem? he) _

theorem OpenRun.turn (r : OpenRun σ μ) (t : ℕ) (i : NodeId) :
    Turn ((r.event t).occasion i) i ((r.state t).life i) ((r.state (t + 1)).life i) := by
  rw [(r.valid t).2]
  exact turn_next (r.valid t).1 i

/-- What member `i` has when it boots, and keeps for as long as it is up, whatever happens to it and to its store. -/
structure OpenRun.Upholds (r : OpenRun σ μ) (i : NodeId) (P : ℕ → Node σ μ → Prop) : Prop where
  boot : ∀ {t peers machine config m store n store'}, Node.boot i peers machine config m store = .ok n store' → P t n
  rest : ∀ {t n}, P t n → P (t + 1) n
  store : ∀ {t n} (store : σ), P t n → P t { n with log := { n.log with store } }
  go : ∀ {t n n' m o}, (r.event t).occasion i = some (m, o) → P t n → o.Passes m n n' → P (t + 1) n'

theorem OpenRun.Upholds.node {r : OpenRun σ μ} {P : ℕ → Node σ μ → Prop} (h : r.Upholds i P) {t : ℕ} {n : Node σ μ}
    (hn : (r.state t).node? i = some n) : P t n := by
  induction t generalizing n with
  | zero =>
    obtain ⟨store, hdown⟩ := r.start i
    cases hdown.symm.trans (State.node?_eq_some.mp hn)
  | succ t ih =>
    have hup : ∀ {n₀ : Node σ μ}, (r.state t).life i = .up n₀ → P t n₀ := fun hl => ih (State.node?_eq_some.mpr hl)
    have hturn := r.turn t i
    rw [State.node?_eq_some.mp hn] at hturn
    generalize (r.state t).life i = before at hturn hup
    generalize hafter : Life.up n = after at hturn
    cases hturn with
    | rest => exact h.rest (hup hafter.symm)
    | @disturb _ store =>
      cases before with
      | up n₀ =>
        obtain rfl := Life.up.inj hafter
        exact h.rest (h.store store (hup rfl))
      | down => cases hafter
    | boot hboot =>
      obtain rfl := Life.up.inj hafter
      exact h.boot hboot
    | go ho hrun =>
      obtain rfl := Life.up.inj hafter
      exact h.go ho (hup rfl) hrun
    | crash | refuse | halt => cases hafter

end RaftNode.Protocol
