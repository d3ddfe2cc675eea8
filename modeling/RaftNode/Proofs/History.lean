import RaftNode.Proofs.FullLog
import Mathlib.Data.Finset.Card
/-!
# History of a cluster

What has happened that no member may forget: the votes, the leaders and their logs, and what members have
acknowledged. The fields about a member say what its store holds; those about a term keep the past.
-/
namespace RaftNode

structure History where
  term : NodeId → Term
  /-- The full log. -/
  log : NodeId → List Entry
  vote : NodeId → Term → Option NodeId
  /-- The log with which a member stood for election. -/
  stood : NodeId → Term → List Entry
  leader : Term → Option NodeId
  voters : Term → Finset NodeId
  /-- The log of the leader, which only grows. -/
  led : Term → List Entry
  /-- How much of the leader's log a member has acknowledged. -/
  acked : NodeId → Term → Index

namespace History

variable {h h' : History} {F G P : List Entry} {T U : Term} {i v c l : NodeId} {k : Index}

def initial : History :=
  ⟨fun _ => 0, fun _ => [], fun _ _ => none, fun _ _ => [], fun _ => none, fun _ => ∅, fun _ => [],
    fun _ _ => 0⟩

/-! ## What every log is made of -/

/-- An entry of a term is only ever found behind the beginning that its leader had before it. -/
def Path (h : History) (F : List Entry) : Prop :=
  ∀ k e, F[k]? = some e → F.take (k + 1) <+: h.led e.term

theorem path_nil : h.Path [] := by
  intro k e he
  simp at he

theorem Path.isPrefix (hF : h.Path F) (hP : P <+: F) : h.Path P := by
  intro k e he
  have hk := (List.getElem?_eq_some_iff.mp he).1
  rw [← take_of_isPrefix hP (by omega)]
  refine hF k e ?_
  obtain ⟨rest, rfl⟩ := hP
  rwa [List.getElem?_append_left hk]

theorem Path.isPrefix_led (hF : h.Path F) (hne : F ≠ []) : F <+: h.led (endTerm F) := by
  rcases List.eq_nil_or_concat' F with rfl | ⟨init, e, rfl⟩
  · exact absurd rfl hne
  · have := hF init.length e (by simp)
    rwa [List.take_of_length_le (by simp), ← endTerm_concat init e] at this

theorem Path.concat (hF : h.Path F) {e : Entry} (he : F ++ [e] <+: h.led e.term) :
    h.Path (F ++ [e]) := by
  intro k a ha
  rcases Nat.lt_or_ge k F.length with hk | hk
  · rw [List.getElem?_append_left hk] at ha
    rw [List.take_append_of_le_length (by omega)]
    exact hF k a ha
  · have hlt := (List.getElem?_eq_some_iff.mp ha).1
    have : k = F.length := by simp at hlt; omega
    subst this
    obtain rfl : e = a := by simpa using ha
    rwa [List.take_of_length_le (by simp)]

theorem Path.agrees (hF : h.Path F) (hG : h.Path G) : Agrees F G := by
  intro i hi hi' ht
  cases i with
  | zero => simp
  | succ k =>
    obtain ⟨a, ha⟩ : ∃ a, F[k]? = some a := ⟨F[k], List.getElem?_eq_getElem (by omega)⟩
    obtain ⟨b, hb⟩ : ∃ b, G[k]? = some b := ⟨G[k], List.getElem?_eq_getElem (by omega)⟩
    rw [endTerm_take_succ ha, endTerm_take_succ hb] at ht
    have hpa := hF k a ha
    have hpb := hG k b hb
    rw [ht] at hpa
    have hlen : (F.take (k + 1)).length = (G.take (k + 1)).length := by
      rw [List.length_take_of_le hi, List.length_take_of_le hi']
    exact (List.prefix_of_prefix_length_le hpa hpb hlen.le).eq_of_length hlen

theorem Path.follows {F' : List Entry} (hF : h.Path F) (hG : h.Path G) (hf : Follows G F F') :
    h.Path F' :=
  hf.source.elim hF.isPrefix hG.isPrefix

/-! ## What holds of every history -/

structure Paths (h : History) : Prop where
  numbered : ∀ T, Numbered (h.led T)
  ascending : ∀ T, Ascending (h.led T)
  led : ∀ T, h.Path (h.led T)
  led_term : ∀ T, ∀ e ∈ h.led T, e.term ≤ T
  log : ∀ v, h.Path (h.log v)
  log_term : ∀ v, ∀ e ∈ h.log v, e.term ≤ h.term v
  stood : ∀ c T, h.Path (h.stood c T)
  stood_term : ∀ c T, ∀ e ∈ h.stood c T, e.term < T

structure Ballots (h : History) : Prop where
  reached : ∀ v T c, h.vote v T = some c → T ≤ h.term v
  /-- Whoever gets a vote has stood, with its own vote first. -/
  stood : ∀ v T c, h.vote v T = some c → h.vote c T = some c

structure Offices (members : Finset NodeId) (h : History) : Prop where
  vacant : ∀ T, h.leader T = none → h.led T = []
  elected : ∀ T l, h.leader T = some l → h.voters T ⊆ members ∧
    majority members.card ≤ (h.voters T).card ∧ ∀ v ∈ h.voters T, h.vote v T = some l
  began : ∀ T l, h.leader T = some l → h.stood l T <+: h.led T
  leads : ∀ T l, h.leader T = some l → h.term l = T → h.log l = h.led T

/-- A leader of term `U` does not have `P`. -/
def Lacks (h : History) (P : List Entry) (U : Term) : Prop := h.leader U ≠ none ∧ ¬ P <+: h.led U

/-- `F` still has `P` of term `T`, unless a leader between the terms `T` and `U` lacks it. -/
def Carries (h : History) (P : List Entry) (T : Term) (F : List Entry) (U : Term) : Prop :=
  P <+: F ∨ ∃ W, T < W ∧ W < U ∧ h.Lacks P W

structure Acks (h : History) : Prop where
  within : ∀ v T, h.acked v T ≤ (h.led T).length
  reached : ∀ v T, 0 < h.acked v T → T ≤ h.term v
  retained : ∀ v T k, k ≤ h.acked v T → h.Carries ((h.led T).take k) T (h.log v) (h.term v + 1)
  /-- Only the votes that decided an election count, and those of an election still undecided. -/
  voted : ∀ v c U T k, h.vote v U = some c → v ∈ h.voters U ∨ h.leader U = none → T < U →
    k ≤ h.acked v T → endTerm ((h.led T).take k) = T →
      h.Carries ((h.led T).take k) T (h.stood c U) U

structure Sound (members : Finset NodeId) (h : History) : Prop where
  paths : Paths h
  ballots : Ballots h
  offices : Offices members h
  acks : Acks h

theorem Path.numbered (hs : Paths h) (hF : h.Path F) : Numbered F := by
  rcases eq_or_ne F [] with rfl | hne
  · intro k e he
    simp at he
  · exact (hs.numbered _).isPrefix (hF.isPrefix_led hne)

theorem Path.ascending (hs : Paths h) (hF : h.Path F) : Ascending F := by
  rcases eq_or_ne F [] with rfl | hne
  · exact List.Pairwise.nil
  · exact (hs.ascending _).isPrefix (hF.isPrefix_led hne)

theorem initial_sound (members : Finset NodeId) : Sound members initial where
  paths := by constructor <;> simp [initial, Numbered, Ascending, path_nil]
  ballots := by constructor <;> simp [initial]
  offices := by constructor <;> simp [initial]
  acks := by constructor <;> simp [initial, Carries]

/-! ## How a history grows -/

/-- What is known of a history stays true as more happens. -/
structure Extends (h h' : History) : Prop where
  term : ∀ v, h.term v ≤ h'.term v
  vote : ∀ v T c, h.vote v T = some c → h'.vote v T = some c
  stood : ∀ c T, h.vote c T = some c → h'.stood c T = h.stood c T
  leader : ∀ T l, h.leader T = some l → h'.leader T = some l
  led : ∀ T, h.led T <+: h'.led T
  /-- A leader adds entries of its own term only. -/
  grown : ∀ T P, h.leader T ≠ none → P <+: h'.led T → (∀ e ∈ P, e.term < T) → P <+: h.led T
  acked : ∀ v T, h.acked v T ≤ h'.acked v T

/-- Only member `i` has moved. -/
structure Frame (i : NodeId) (h h' : History) : Prop where
  term : ∀ v, v ≠ i → h'.term v = h.term v
  log : ∀ v, v ≠ i → h'.log v = h.log v
  vote : ∀ v, v ≠ i → h'.vote v = h.vote v
  leader : ∀ v T, v ≠ i → h'.leader T = some v → h.leader T = some v

theorem Extends.refl (h : History) : Extends h h :=
  ⟨fun _ => le_rfl, fun _ _ _ e => e, fun _ _ _ => rfl, fun _ _ e => e,
    fun _ => List.prefix_refl _, fun _ _ _ hP _ => hP, fun _ _ => le_rfl⟩

theorem Extends.trans {h₁ h₂ h₃ : History} (a : Extends h₁ h₂) (b : Extends h₂ h₃) :
    Extends h₁ h₃ where
  term v := (a.term v).trans (b.term v)
  vote v T c e := b.vote v T c (a.vote v T c e)
  stood c T e := (b.stood c T (a.vote c T c e)).trans (a.stood c T e)
  leader T l e := b.leader T l (a.leader T l e)
  led T := (a.led T).trans (b.led T)
  grown T P hl hP ht := by
    obtain ⟨l, e⟩ := Option.ne_none_iff_exists'.mp hl
    exact a.grown T P hl (b.grown T P (by simp [a.leader T l e]) hP ht) ht
  acked v T := (a.acked v T).trans (b.acked v T)

theorem Frame.refl (i : NodeId) (h : History) : Frame i h h :=
  ⟨fun _ _ => rfl, fun _ _ => rfl, fun _ _ => rfl, fun _ _ _ e => e⟩

theorem Frame.trans {h₁ h₂ h₃ : History} (a : Frame i h₁ h₂) (b : Frame i h₂ h₃) :
    Frame i h₁ h₃ where
  term v hv := (b.term v hv).trans (a.term v hv)
  log v hv := (b.log v hv).trans (a.log v hv)
  vote v hv := (b.vote v hv).trans (a.vote v hv)
  leader v T hv e := a.leader v T hv (b.leader v T hv e)

theorem Extends.path (hx : Extends h h') (hF : h.Path F) : h'.Path F := fun k e he =>
  (hF k e he).trans (hx.led _)

theorem Extends.take_led (hx : Extends h h') (hk : k ≤ (h.led T).length) :
    (h'.led T).take k = (h.led T).take k :=
  take_of_isPrefix (hx.led T) hk

theorem Extends.carries (hx : Extends h h') (hP : ∀ e ∈ P, e.term ≤ T) (hc : h.Carries P T F U) :
    h'.Carries P T F U := by
  refine hc.imp_right ?_
  rintro ⟨W, hT, hU, hl, hlacks⟩
  refine ⟨W, hT, hU, ?_, fun hp => hlacks (hx.grown W P hl hp fun e he => ?_)⟩
  · obtain ⟨l, e⟩ := Option.ne_none_iff_exists'.mp hl
    simp [hx.leader W l e]
  · exact (hP e he).trans_lt hT

theorem Carries.mono (hc : h.Carries P T F U) {U' : Term} (hF : P <+: F → P <+: G)
    (hU : U ≤ U') : h.Carries P T G U' :=
  hc.imp hF fun ⟨W, hT, hW, hl⟩ => ⟨W, hT, hW.trans_le hU, hl⟩

end History

end RaftNode
