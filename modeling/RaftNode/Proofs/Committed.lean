import RaftNode.Proofs.HistorySteps
/-!
# What a cluster has committed

A leader's own entry is chosen once a majority has acknowledged its log up to there. Every later leader had all
of it when it stood, so committed beginnings of logs never disagree.
-/
namespace RaftNode.History

variable {members : Finset NodeId} {h h' : History} {C D : List Entry} {T U : Term}
  {i l : NodeId} {k : Index} {Q R : Finset NodeId}

theorem majorities_intersect (hQ : Q ⊆ members) (hR : R ⊆ members)
    (hcQ : majority members.card ≤ Q.card) (hcR : majority members.card ≤ R.card) :
    ∃ v ∈ Q, v ∈ R := by
  have hlt : members.card < Q.card + R.card := by
    unfold majority at hcQ hcR
    omega
  obtain ⟨v, hv⟩ := Finset.inter_nonempty_of_card_lt_card_add_card hQ hR hlt
  exact ⟨v, (Finset.mem_inter.mp hv).1, (Finset.mem_inter.mp hv).2⟩

/-- Whoever has the votes of a majority is the only one to win the term. -/
theorem Sound.winner_unique (hs : Sound members h) (hl : h.leader T = some l) (hQ : Q ⊆ members)
    (hcard : majority members.card ≤ Q.card) (hvote : ∀ v ∈ Q, h.vote v T = some i) : l = i := by
  obtain ⟨hsub, hmaj, helected⟩ := hs.offices.elected T l hl
  obtain ⟨v, hv, hv'⟩ := majorities_intersect hsub hQ hmaj hcard
  exact Option.some.inj ((helected v hv).symm.trans (hvote v hv'))

structure Chosen (members : Finset NodeId) (h : History) (T : Term) (k : Index) : Prop where
  own : endTerm ((h.led T).take k) = T
  quorum : ∃ Q ⊆ members, majority members.card ≤ Q.card ∧ ∀ v ∈ Q, k ≤ h.acked v T

theorem Chosen.within (hs : Sound members h) (hc : Chosen members h T k) :
    k ≤ (h.led T).length := by
  obtain ⟨Q, -, hcard, hack⟩ := hc.quorum
  obtain ⟨v, hv⟩ := Finset.card_pos.mp ((Nat.succ_pos _).trans_le hcard)
  exact (hack v hv).trans (hs.acks.within v T)

theorem Chosen.extends (hs : Sound members h) (hx : Extends h h') (hc : Chosen members h T k) :
    Chosen members h' T k := by
  constructor
  · rw [hx.take_led (hc.within hs)]
    exact hc.own
  · obtain ⟨Q, hQ, hcard, hack⟩ := hc.quorum
    exact ⟨Q, hQ, hcard, fun v hv => (hack v hv).trans (hx.acked v T)⟩

/-- By induction on the later term: a leader between that lacked the entry would have to lack it itself, for the
voters of either election and those who acknowledged the entry have a member in common. -/
theorem Sound.chosen_isPrefix_stood (hs : Sound members h) (hc : Chosen members h T k)
    (hl : h.leader U = some l) (hTU : T < U) : (h.led T).take k <+: h.stood l U := by
  induction U using Nat.strong_induction_on generalizing l with
  | _ U ih =>
    obtain ⟨Q, hQ, hcard, hack⟩ := hc.quorum
    obtain ⟨hsub, hmaj, hvote⟩ := hs.offices.elected U l hl
    obtain ⟨v, hv, hv'⟩ := majorities_intersect hsub hQ hmaj hcard
    rcases hs.acks.voted v l U T k (hvote v hv) (Or.inl hv) hTU (hack v hv') hc.own with
      hp | ⟨W, hTW, hWU, hleader, hlacks⟩
    · exact hp
    · obtain ⟨m, hm⟩ := Option.ne_none_iff_exists'.mp hleader
      exact absurd ((ih W hWU hm hTW).trans (hs.offices.began W m hm)) hlacks

/-- `C` is the beginning of what was chosen in a term up to `T`. -/
def Committed (members : Finset NodeId) (h : History) (T : Term) (C : List Entry) : Prop :=
  C = [] ∨ ∃ S, S ≤ T ∧ ∃ k, Chosen members h S k ∧ C <+: (h.led S).take k

theorem committed_nil (members : Finset NodeId) (h : History) (T : Term) :
    Committed members h T [] := Or.inl rfl

theorem Committed.isPrefix (hc : Committed members h T C) (hD : D <+: C) :
    Committed members h T D := by
  rcases hc with rfl | ⟨S, hS, k, hk, hp⟩
  · exact Or.inl (List.prefix_nil.mp hD)
  · exact Or.inr ⟨S, hS, k, hk, hD.trans hp⟩

theorem Committed.later (hc : Committed members h T C) (hT : T ≤ U) : Committed members h U C :=
  hc.imp_right fun ⟨S, hS, rest⟩ => ⟨S, hS.trans hT, rest⟩

theorem Committed.extends (hs : Sound members h) (hx : Extends h h')
    (hc : Committed members h T C) : Committed members h' T C := by
  refine hc.imp_right fun ⟨S, hS, k, hk, hp⟩ => ⟨S, hS, k, hk.extends hs hx, ?_⟩
  rwa [hx.take_led (hk.within hs)]

theorem Committed.isPrefix_stood (hs : Sound members h) (hc : Committed members h T C)
    (hl : h.leader U = some l) (hTU : T < U) : C <+: h.stood l U := by
  rcases hc with rfl | ⟨S, hS, k, hk, hp⟩
  · exact List.nil_prefix
  · exact hp.trans (hs.chosen_isPrefix_stood hk hl (hS.trans_lt hTU))

theorem Committed.isPrefix_led (hs : Sound members h) (hc : Committed members h T C)
    (hl : h.leader U = some l) (hTU : T ≤ U) : C <+: h.led U := by
  rcases hc with rfl | ⟨S, hS, k, hk, hp⟩
  · exact List.nil_prefix
  · rcases (hS.trans hTU).eq_or_lt with rfl | hlt
    · exact hp.trans (List.take_prefix _ _)
    · exact (hp.trans (hs.chosen_isPrefix_stood hk hl hlt)).trans (hs.offices.began U l hl)

/-- Of two committed beginnings one continues the other. -/
theorem Committed.comparable (hs : Sound members h) (hC : Committed members h T C)
    (hD : Committed members h U D) : C <+: D ∨ D <+: C := by
  have hin : ∀ {T C}, Committed members h T C → C ≠ [] →
      ∃ S l, h.leader S = some l ∧ Committed members h S C ∧ C <+: h.led S := by
    rintro T C (rfl | ⟨S, hS, k, hk, hp⟩) hne
    · exact absurd rfl hne
    · have hled := hp.trans (List.take_prefix k _)
      obtain ⟨l, hl⟩ := Option.ne_none_iff_exists'.mp fun hnone => hne
        (List.prefix_nil.mp (hs.offices.vacant S hnone ▸ hled))
      exact ⟨S, l, hl, Or.inr ⟨S, le_rfl, k, hk, hp⟩, hled⟩
  rcases eq_or_ne C [] with rfl | hC0
  · exact Or.inl List.nil_prefix
  rcases eq_or_ne D [] with rfl | hD0
  · exact Or.inr List.nil_prefix
  obtain ⟨S, l, hl, hCS, hCled⟩ := hin hC hC0
  obtain ⟨S', l', hl', hDS, hDled⟩ := hin hD hD0
  rcases le_total S S' with hle | hle
  · exact List.prefix_or_prefix_of_prefix (hCS.isPrefix_led hs hl' hle) hDled
  · exact List.prefix_or_prefix_of_prefix hCled (hDS.isPrefix_led hs hl hle)

end RaftNode.History
