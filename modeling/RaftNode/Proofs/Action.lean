import RaftNode.Error
/-!
# Reasoning about actions

An action ends with a result or early with a fault, and leaves a state either way. `wp` asks for both endings,
so a statement about a step also says what a step that fails halfway leaves behind.
-/
namespace RaftNode.Action

variable {ε ε' σ τ α β : Type}

/-- From `s` the action ends with `Q`, or early with `E`. -/
def wp (x : Action ε σ α) (Q : α → σ → Prop) (E : Fault ε → σ → Prop) (s : σ) : Prop :=
  match x s with
  | .ok a t => Q a t
  | .error f t => E f t

variable {Q : α → σ → Prop} {E : Fault ε → σ → Prop} {s : σ}

theorem wp_mono {x : Action ε σ α} {Q' : α → σ → Prop} {E' : Fault ε → σ → Prop}
    (h : wp x Q E s) (hq : ∀ a t, Q a t → Q' a t) (he : ∀ f t, E f t → E' f t) : wp x Q' E' s := by
  unfold wp at *
  split at h
  · exact hq _ _ h
  · exact he _ _ h

theorem wp_imp {x : Action ε σ α} {Q' : α → σ → Prop} (h : wp x Q E s)
    (hq : ∀ a t, Q a t → Q' a t) : wp x Q' E s :=
  wp_mono h hq fun _ _ he => he

theorem wp_and {x : Action ε σ α} {Q' : α → σ → Prop} {E' : Fault ε → σ → Prop} (h : wp x Q E s)
    (h' : wp x Q' E' s) : wp x (fun a t => Q a t ∧ Q' a t) (fun f t => E f t ∧ E' f t) s := by
  unfold wp at *
  cases hx : x s <;> rw [hx] at h h' <;> exact ⟨h, h'⟩

@[simp] theorem wp_trivial (x : Action ε σ α) (s : σ) : wp x (fun _ _ => True) (fun _ _ => True) s := by
  unfold wp
  split <;> trivial

theorem wp_self (x : Action ε σ α) (s : σ) :
    wp x (fun a t => x s = .ok a t) (fun f t => x s = .error f t) s := by
  unfold wp
  split
  · assumption
  · assumption

/-- What a run of the action shows, once its `wp` is known. -/
theorem wp_ok {x : Action ε σ α} {a : α} {t : σ} (h : wp x Q E s) (hx : x s = .ok a t) : Q a t := by
  simpa [wp, hx] using h

theorem wp_error {x : Action ε σ α} {f : Fault ε} {t : σ} (h : wp x Q E s)
    (hx : x s = .error f t) : E f t := by
  simpa [wp, hx] using h

/-- An action with no early end has a result. -/
theorem wp_exists {x : Action ε σ α} (h : wp x Q (fun _ _ => False) s) :
    ∃ a t, x s = .ok a t ∧ Q a t := by
  cases hx : x s with
  | ok a t => exact ⟨a, t, rfl, wp_ok h hx⟩
  | error f t => exact (wp_error h hx).elim

/-- An action that cannot come to its end. -/
theorem wp_exists_error {x : Action ε σ α} (h : wp x (fun _ _ => False) E s) :
    ∃ f t, x s = .error f t ∧ E f t := by
  cases hx : x s with
  | ok a t => exact (wp_ok h hx).elim
  | error f t => exact ⟨f, t, rfl, wp_error h hx⟩

/-- An action with but one ending, an early one. -/
theorem eq_error_of_wp {x : Action ε σ α} {f : Fault ε} {t : σ}
    (h : wp x (fun _ _ => False) (fun f' t' => f' = f ∧ t' = t) s) : x s = .error f t := by
  obtain ⟨_, _, hx, rfl, rfl⟩ := wp_exists_error h
  exact hx

@[simp] theorem wp_pure (a : α) : wp (pure a : Action ε σ α) Q E s ↔ Q a s := Iff.rfl

@[simp] theorem wp_bind (x : Action ε σ β) (f : β → Action ε σ α) :
    wp (x >>= f) Q E s ↔ wp x (fun b t => wp (f b) Q E t) E s := by
  simp only [wp, bind, EStateM.bind]
  cases x s <;> rfl

/-- What the first step ends with is what the rest starts from. -/
theorem wp_seq {x : Action ε σ β} {f : β → Action ε σ α} {R : β → σ → Prop} (hx : wp x R E s)
    (hf : ∀ b t, R b t → wp (f b) Q E t) : wp (x >>= f) Q E s := by
  rw [wp_bind]
  exact wp_mono hx hf fun _ _ he => he

@[simp] theorem wp_map (x : Action ε σ β) (f : β → α) :
    wp (f <$> x) Q E s ↔ wp x (fun b t => Q (f b) t) E s := by
  simp only [wp, Functor.map, EStateM.map]
  cases x s <;> rfl

@[simp] theorem wp_get {Q : σ → σ → Prop} : wp (get : Action ε σ σ) Q E s ↔ Q s s := Iff.rfl

@[simp] theorem wp_set (t : σ) {Q : PUnit → σ → Prop} :
    wp (set t : Action ε σ PUnit) Q E s ↔ Q ⟨⟩ t := Iff.rfl

@[simp] theorem wp_modify (f : σ → σ) {Q : PUnit → σ → Prop} :
    wp (modify f : Action ε σ PUnit) Q E s ↔ Q ⟨⟩ (f s) := Iff.rfl

@[simp] theorem wp_fail (e : ε) : wp (fail e : Action ε σ α) Q E s ↔ E (.error e) s := Iff.rfl

@[simp] theorem wp_abort : wp (abort : Action ε σ α) Q E s ↔ E .abort s := Iff.rfl

@[simp] theorem wp_ite (p : Prop) [Decidable p] (x y : Action ε σ α) :
    wp (if p then x else y) Q E s ↔ if p then wp x Q E s else wp y Q E s := by
  split <;> rfl

@[simp] theorem wp_require (p : Prop) [Decidable p] {Q : Unit → σ → Prop} :
    wp (require p : Action ε σ Unit) Q E s ↔ if p then Q () s else E .abort s := by
  simp [require]

@[simp] theorem wp_add (a b : Nat) {Q : Nat → σ → Prop} :
    wp (add a b : Action ε σ Nat) Q E s ↔ if a + b < wordLimit then Q (a + b) s else E .abort s := by
  simp [add]

@[simp] theorem wp_sub (a b : Nat) {Q : Nat → σ → Prop} :
    wp (sub a b : Action ε σ Nat) Q E s ↔ if b ≤ a then Q (a - b) s else E .abort s := by
  simp [sub]

@[simp] theorem wp_within (get : σ → τ) (set : τ → σ → σ) (onError : ε' → ε) (x : Action ε' τ α) :
    wp (within get set onError x) Q E s ↔
      wp x (fun a t => Q a (set t s)) (fun f t => E (f.map onError) (set t s)) (get s) := by
  simp only [wp, within]
  cases x (get s) <;> rfl

/-- A step on a part of the state, with the errors of the whole. -/
theorem wp_within_part (get : σ → τ) (set : τ → σ → σ) (x : Action ε τ α) :
    wp (within get set (fun e => e) x) Q E s ↔
      wp x (fun a t => Q a (set t s)) (fun f t => E f (set t s)) (get s) := by
  have hid : ∀ f : Fault ε, f.map (fun e => e) = f := by
    intro f
    cases f with
    | error e => rfl
    | abort => rfl
  simp only [wp_within, hid]

/-- The state that an action leaves, however it ends. -/
def after (x : Action ε σ α) (s : σ) : σ :=
  match x s with
  | .ok _ t => t
  | .error _ t => t

theorem wp_after (x : Action ε σ α) (s : σ) :
    wp x (fun _ t => t = x.after s) (fun _ t => t = x.after s) s := by
  unfold wp after
  cases x s <;> rfl

theorem of_after {x : Action ε σ α} {P : σ → Prop} (h : wp x (fun _ => P) (fun _ => P) s) :
    P (x.after s) := by
  unfold wp at h
  unfold after
  cases hx : x s <;> simpa [hx] using h

end RaftNode.Action
