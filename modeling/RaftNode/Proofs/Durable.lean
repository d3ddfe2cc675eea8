import RaftNode.Proofs.Action
import RaftNode.Store.Recorded
/-!
# What a store promises

A write that is reported done has happened; one that ends early has happened, or in part, or not at all. Which
writes end early is the store's affair.
-/
namespace RaftNode

/-- The effect of a write on what a store holds. -/
def Write.change : Write → Persisted → Persisted
  | .hard h, p => { p with hard := h }
  | .append es, p => { p with entries := p.entries ++ es }
  | .truncate i, p => { p with entries := p.entries.filter fun e => e.index < i }
  | .install s, p =>
    { p with snapshot := some s, entries := p.entries.filter fun e => s.index < e.index }

/-- How far a write may have come when it ends early: only an append has parts. -/
inductive Write.PartOf : Write → Write → Prop
  | whole (w : Write) : PartOf w w
  | entries {es all : List Entry} (h : es <+: all) : PartOf (.append es) (.append all)

/-- What may be left of `p` by a write that ends early. -/
def Write.Interrupted (w : Write) (p q : Persisted) : Prop :=
  q = p ∨ ∃ v : Write, v.PartOf w ∧ q = v.change p

def Write.perform {σ : Type} [LogStore σ] : Write → StoreAction σ Unit
  | .hard h => LogStore.saveHard h
  | .append es => LogStore.append es
  | .truncate i => LogStore.truncate i
  | .install s => LogStore.install s

open RaftNode.Action (wp)

/-- A write is durable when it returns, an install is one change, and boot gets back the last durable state. -/
class LawfulStore (σ : Type) [LogStore σ] where
  /-- What would be loaded. -/
  kept : σ → Persisted
  perform : ∀ (w : Write) s,
    wp w.perform (fun _ t => kept t = w.change (kept s))
      (fun _ t => w.Interrupted (kept s) (kept t)) s
  load : ∀ s,
    wp LogStore.load (fun p t => p = kept s ∧ kept t = kept s) (fun _ t => kept t = kept s) s
  /-- A snapshot may be unreadable for a while, but another one is never read in its place. -/
  loadSnapshot : ∀ s snap, LogStore.loadSnapshot s = .ok (some snap) → (kept s).snapshot = some snap

export LawfulStore (kept)

/-- Writes happen as a whole until they begin to fail; from then on none changes anything. What is stored can
always be read. -/
class FailStop (σ : Type) [LogStore σ] [LawfulStore σ] where
  failed : σ → Prop
  perform : ∀ (w : Write) s,
    wp w.perform (fun _ t => ¬ failed s ∧ kept t = w.change (kept s))
      (fun f t => f ≠ .abort ∧ failed t ∧ kept t = kept s) s
  load : ∀ s, wp LogStore.load (fun _ t => failed s → failed t) (fun _ _ => False) s

export FailStop (failed)

theorem MemoryStore.perform_eq (w : Write) : w.perform = MemoryStore.write w.change := by
  cases w <;> rfl

instance : LawfulStore MemoryStore where
  kept := MemoryStore.kept
  perform w s := by
    rw [MemoryStore.perform_eq]
    unfold wp MemoryStore.write
    cases s.failWrites
    · rfl
    · exact Or.inl rfl
  load s := ⟨rfl, rfl⟩
  loadSnapshot s snap h := Except.ok.inj h

instance : FailStop MemoryStore where
  failed s := s.failWrites = true
  perform w s := by
    rw [MemoryStore.perform_eq]
    unfold wp MemoryStore.write
    cases hs : s.failWrites
    · exact ⟨Bool.false_ne_true, rfl⟩
    · exact ⟨by rintro ⟨⟩, hs, rfl⟩
  load _ := fun h => h

namespace Recorded

variable {σ : Type} [LogStore σ] [LawfulStore σ]

theorem wp_pass (w : Write) (s : Recorded σ) :
    wp (pass w w.perform) (fun _ t => kept t.inner = w.change (kept s.inner))
      (fun _ t => w.Interrupted (kept s.inner) (kept t.inner)) s := by
  simp only [pass, Action.wp_bind, Action.wp_get]
  split
  · exact Or.inl rfl
  · simp only [Action.wp_bind, Action.wp_modify, onInner, Action.wp_within]
    exact LawfulStore.perform w s.inner

instance : LawfulStore (Recorded σ) where
  kept s := kept s.inner
  perform w s := by cases w <;> exact wp_pass _ s
  load s := by
    simp only [LogStore.load, onInner, Action.wp_within]
    exact LawfulStore.load s.inner
  loadSnapshot s snap h := by
    simp only [LogStore.loadSnapshot] at h
    split at h
    · cases h
    · exact LawfulStore.loadSnapshot s.inner snap h

theorem wp_pass_failStop [FailStop σ] (w : Write) (s : Recorded σ) :
    wp (pass w w.perform)
      (fun _ t => ¬ (s.budget = some 0 ∨ failed s.inner) ∧ kept t.inner = w.change (kept s.inner))
      (fun f t => f ≠ .abort ∧ (t.budget = some 0 ∨ failed t.inner) ∧ kept t.inner = kept s.inner)
      s := by
  simp only [pass, Action.wp_bind, Action.wp_get]
  split
  · rename_i hb
    exact ⟨by rintro ⟨⟩, Or.inl hb, rfl⟩
  · rename_i hb
    simp only [Action.wp_bind, Action.wp_modify, onInner, Action.wp_within]
    refine Action.wp_mono (FailStop.perform w s.inner) ?_ ?_
    · rintro - t ⟨hs, ht⟩
      exact ⟨not_or.mpr ⟨hb, hs⟩, ht⟩
    · rintro f t ⟨hf, ht, hk⟩
      refine ⟨?_, Or.inr ht, hk⟩
      cases f
      · rintro ⟨⟩
      · exact absurd rfl hf

instance [FailStop σ] : FailStop (Recorded σ) where
  failed s := s.budget = some 0 ∨ failed s.inner
  perform w s := by cases w <;> exact wp_pass_failStop _ s
  load s := by
    simp only [LogStore.load, onInner, Action.wp_within]
    exact Action.wp_imp (FailStop.load s.inner) fun _ _ ht => Or.imp_right ht

end Recorded

end RaftNode
