import RaftNode.Proofs.History
/-!
# Moves of one member

How a history grows when a member adopts a term, votes, stands, wins, proposes, follows or acknowledges. Each
move keeps what holds of every history.
-/
namespace RaftNode.History

variable {members : Finset NodeId} {h h' : History} {F G P : List Entry} {T U : Term}
  {i v c l : NodeId} {k : Index} {Q : Finset NodeId}

theorem Offices.voters_nonempty (ho : Offices members h) (hl : h.leader T = some l) :
    ∃ v ∈ h.voters T, h.vote v T = some l := by
  obtain ⟨-, hcard, hvote⟩ := ho.elected T l hl
  obtain ⟨v, hv⟩ := Finset.card_pos.mp ((Nat.succ_pos _).trans_le hcard)
  exact ⟨v, hv, hvote v hv⟩

theorem Sound.leader_stood (hs : Sound members h) (hl : h.leader T = some l) :
    h.vote l T = some l := by
  obtain ⟨v, -, hv⟩ := hs.offices.voters_nonempty hl
  exact hs.ballots.stood v T l hv

theorem Sound.leader_reached (hs : Sound members h) (hl : h.leader T = some l) : T ≤ h.term l :=
  hs.ballots.reached l T l (hs.leader_stood hl)

theorem Sound.mem_take_led (hs : Sound members h) (k : Index) :
    ∀ e ∈ (h.led T).take k, e.term ≤ T := fun e he =>
  hs.paths.led_term T e (List.mem_of_mem_take he)

/-- Member `i` has moved, and the history is as sound as before. -/
structure Moves (members : Finset NodeId) (i : NodeId) (h h' : History) : Prop where
  sound : Sound members h'
  grows : Extends h h'
  frame : Frame i h h'

theorem Moves.refl (hs : Sound members h) : Moves members i h h := ⟨hs, .refl h, .refl i h⟩

theorem Moves.trans {h₁ h₂ h₃ : History} (a : Moves members i h₁ h₂) (b : Moves members i h₂ h₃) :
    Moves members i h₁ h₃ :=
  ⟨b.sound, a.grows.trans b.grows, a.frame.trans b.frame⟩

/-! ## Terms -/

def adopt (h : History) (i : NodeId) (T : Term) : History :=
  { h with term := Function.update h.term i T }

theorem adopt_extends (hT : h.term i ≤ T) : Extends h (h.adopt i T) :=
  { Extends.refl h with
    term := fun v => by
      by_cases hv : v = i
      · subst hv; simpa [adopt] using hT
      · simp [adopt, hv] }

theorem Sound.adopt (hs : Sound members h) (hT : h.term i ≤ T) :
    Moves members i h (h.adopt i T) := by
  have hx := adopt_extends hT
  refine ⟨⟨{ hs.paths with log_term := ?_ }, { hs.ballots with reached := ?_ },
    { hs.offices with leads := ?_ },
    { hs.acks with reached := ?_, retained := ?_, voted := hs.acks.voted }⟩, hx, ?_⟩
  · exact fun v e he => (hs.paths.log_term v e he).trans (hx.term v)
  · exact fun v U c hv => (hs.ballots.reached v U c hv).trans (hx.term v)
  · intro U l hl ht
    refine hs.offices.leads U l hl ((hx.term l).trans_eq ht |>.antisymm ?_)
    exact hs.leader_reached hl
  · exact fun v U hv => (hs.acks.reached v U hv).trans (hx.term v)
  · intro v U k hk
    exact (hs.acks.retained v U k hk).mono (fun hp => hp) (Nat.succ_le_succ (hx.term v))
  · exact { Frame.refl i h with term := fun v hv => by simp [History.adopt, hv] }

/-! ## Votes -/

def cast (h : History) (i c : NodeId) : NodeId → Term → Option NodeId :=
  Function.update h.vote i (Function.update (h.vote i) (h.term i) (some c))

theorem cast_of_some (hfree : h.vote i (h.term i) = none) {a : NodeId}
    (hv : h.vote v U = some a) : h.cast i c v U = some a := by
  by_cases hi : v = i
  · subst hi
    by_cases hU : U = h.term v
    · subst hU
      rw [hfree] at hv
      cases hv
    · simpa [cast, hU] using hv
  · simpa [cast, hi] using hv

theorem cast_cases {a : NodeId} (hv : h.cast i c v U = some a) :
    v = i ∧ U = h.term i ∧ a = c ∨ h.vote v U = some a := by
  by_cases hi : v = i
  · subst hi
    by_cases hU : U = h.term v
    · subst hU
      exact Or.inl ⟨rfl, rfl, by simpa [cast] using hv.symm⟩
    · exact Or.inr (by simpa [cast, hU] using hv)
  · exact Or.inr (by simpa [cast, hi] using hv)

/-- What member `i` has acknowledged, it still has when it votes in an election that is undecided. -/
theorem Sound.carries_voting (hs : Sound members h) (hfree : h.vote i (h.term i) = none)
    (hvoted : i ∈ h.voters (h.term i) ∨ h.leader (h.term i) = none) (hk : k ≤ h.acked i T) :
    h.Carries ((h.led T).take k) T (h.log i) (h.term i) := by
  have hnone : h.leader (h.term i) = none := by
    by_contra hne
    obtain ⟨l, hl⟩ := Option.ne_none_iff_exists'.mp hne
    have := (hs.offices.elected _ l hl).2.2 i (hvoted.resolve_right hne)
    simp [hfree] at this
  refine (hs.acks.retained i T k hk).imp_right ?_
  rintro ⟨W, hT, hW, hlacks⟩
  refine ⟨W, hT, lt_of_le_of_ne (Nat.lt_succ_iff.mp hW) ?_, hlacks⟩
  rintro rfl
  exact hlacks.1 hnone

/-- What the vote rule is for: a log that is up to date carries what the voter's log carries. -/
theorem Sound.carries_up_to_date (hs : Sound members h) (hF : h.Path F) (hG : h.Path G)
    (hGU : ∀ e ∈ G, e.term < U) (hk : k ≤ (h.led T).length)
    (hown : endTerm ((h.led T).take k) = T) (hp : (h.led T).take k <+: F)
    (hup : endTerm F < endTerm G ∨ endTerm G = endTerm F ∧ F.length ≤ G.length) :
    h.Carries ((h.led T).take k) T G U := by
  rcases eq_or_ne G [] with rfl | hne
  · left
    rcases hup with hlt | ⟨-, hle⟩
    · simp at hlt
    · rw [List.length_eq_zero_iff.mp (Nat.le_zero.mp hle)] at hp
      exact hp
  have hGled := hG.isPrefix_led hne
  have hTF : T ≤ endTerm F := by
    rw [← hown]
    exact (hF.ascending hs.paths).endTerm_mono hp
  have hTG : T ≤ endTerm G := hTF.trans (by rcases hup with hlt | ⟨heq, -⟩ <;> lia)
  have hlen : ((h.led T).take k).length = k := List.length_take_of_le hk
  rcases hTG.eq_or_lt with heq | hlt
  · -- both logs end in an entry of the same leader, so the longer one has the shorter one in it
    left
    rw [← heq] at hGled
    rcases hup with hlt | ⟨hend, hle⟩
    · lia
    · exact List.prefix_of_prefix_length_le (List.take_prefix _ _) hGled
        (hp.length_le.trans hle)
  · by_cases hpl : (h.led T).take k <+: h.led (endTerm G)
    · left
      refine List.prefix_of_prefix_length_le hpl hGled ?_
      by_contra hshort
      have hGp := List.prefix_of_prefix_length_le hGled hpl (by omega)
      have hle := endTerm_le fun e he => hs.mem_take_led (T := T) k e (hGp.mem he)
      lia
    · refine Or.inr ⟨endTerm G, hlt, ?_, ?_, hpl⟩
      · obtain ⟨init, e, rfl⟩ := (List.eq_nil_or_concat' G).resolve_left hne
        simpa using hGU e (by simp)
      · intro hnone
        rw [hs.offices.vacant _ hnone] at hGled
        exact hne (List.prefix_nil.mp hGled)

theorem Sound.cast_ballots (hs : Sound members h) (hfree : h.vote i (h.term i) = none)
    (hc : h.cast i c c (h.term i) = some c) : Ballots { h with vote := h.cast i c } where
  reached v U a hv := by
    rcases cast_cases hv with ⟨rfl, rfl, rfl⟩ | hv
    · exact le_rfl
    · exact hs.ballots.reached v U a hv
  stood v U a hv := by
    rcases cast_cases hv with ⟨rfl, rfl, rfl⟩ | hv
    · exact hc
    · exact cast_of_some hfree (hs.ballots.stood v U a hv)

theorem Sound.cast_elected (hs : Sound members h) (hfree : h.vote i (h.term i) = none)
    (hl : h.leader T = some l) : h.voters T ⊆ members ∧
      majority members.card ≤ (h.voters T).card ∧ ∀ v ∈ h.voters T, h.cast i c v T = some l := by
  obtain ⟨hsub, hcard, hvote⟩ := hs.offices.elected T l hl
  exact ⟨hsub, hcard, fun v hv => cast_of_some hfree (hvote v hv)⟩

def grant (h : History) (i c : NodeId) : History := { h with vote := h.cast i c }

theorem Sound.grant (hs : Sound members h) (hfree : h.vote i (h.term i) = none)
    (hc : h.vote c (h.term i) = some c)
    (hup : endTerm (h.log i) < endTerm (h.stood c (h.term i)) ∨
      endTerm (h.stood c (h.term i)) = endTerm (h.log i) ∧
        (h.log i).length ≤ (h.stood c (h.term i)).length) :
    Moves members i h (h.grant i c) := by
  refine ⟨⟨{ hs.paths with }, hs.cast_ballots hfree (cast_of_some hfree hc),
    { hs.offices with elected := fun U l hl => hs.cast_elected hfree hl },
    { hs.acks with voted := ?_ }⟩,
    { Extends.refl h with vote := fun v U a hv => cast_of_some hfree hv },
    { Frame.refl i h with vote := fun v hv => by simp [History.grant, cast, hv] }⟩
  · intro v a U T k hv hvoted hT hk hown
    rcases cast_cases hv with ⟨rfl, rfl, rfl⟩ | hv
    · rcases hs.carries_voting hfree hvoted hk with hp | hlacks
      · exact hs.carries_up_to_date (hs.paths.log v) (hs.paths.stood a _)
          (hs.paths.stood_term a _) (hk.trans (hs.acks.within v T)) hown hp hup
      · exact Or.inr hlacks
    · exact hs.acks.voted v a U T k hv hvoted hT hk hown

def stand (h : History) (i : NodeId) : History :=
  { h with
    vote := h.cast i i
    stood := Function.update h.stood i (Function.update (h.stood i) (h.term i) (h.log i)) }

theorem stand_stood (h : History) (i c : NodeId) (U : Term) :
    (h.stand i).stood c U = if c = i ∧ U = h.term i then h.log i else h.stood c U := by
  by_cases hc : c = i
  · subst hc
    by_cases hU : U = h.term c <;> simp [stand, hU]
  · simp [stand, hc]

theorem Sound.stand (hs : Sound members h) (hfree : h.vote i (h.term i) = none)
    (hnew : ∀ e ∈ h.log i, e.term < h.term i) : Moves members i h (h.stand i) := by
  have hkept : ∀ c U, h.vote c U = some c → (h.stand i).stood c U = h.stood c U := by
    intro c U hc
    rw [stand_stood, if_neg]
    rintro ⟨rfl, rfl⟩
    simp [hfree] at hc
  have hself : h.cast i i i (h.term i) = some i := by simp [cast]
  refine ⟨⟨{ hs.paths with stood := ?_, stood_term := ?_ },
    { hs.cast_ballots hfree hself with },
    { hs.offices with elected := fun U l hl => hs.cast_elected hfree hl, began := ?_ },
    { hs.acks with voted := ?_ }⟩,
    { Extends.refl h with vote := fun v U a hv => cast_of_some hfree hv, stood := hkept },
    { Frame.refl i h with vote := fun v hv => by simp [History.stand, cast, hv] }⟩
  · intro c U
    rw [stand_stood]
    split
    · exact hs.paths.log i
    · exact hs.paths.stood c U
  · intro c U
    rw [stand_stood]
    split
    · rename_i heq
      exact heq.2 ▸ hnew
    · exact hs.paths.stood_term c U
  · intro U l hl
    rw [hkept l U (hs.leader_stood hl)]
    exact hs.offices.began U l hl
  · intro v a U T k hv hvoted hT hk hown
    rcases cast_cases hv with ⟨rfl, rfl, rfl⟩ | hv
    · rw [stand_stood, if_pos ⟨rfl, rfl⟩]
      exact hs.carries_voting hfree hvoted hk
    · rw [hkept a U (hs.ballots.stood v U a hv)]
      exact hs.acks.voted v a U T k hv hvoted hT hk hown

/-! ## Office -/

def elect (h : History) (i : NodeId) (Q : Finset NodeId) : History :=
  { h with
    leader := Function.update h.leader (h.term i) (some i)
    voters := Function.update h.voters (h.term i) Q
    led := Function.update h.led (h.term i) (h.log i) }

theorem elect_led (h : History) (i : NodeId) (Q : Finset NodeId) (U : Term) :
    (h.elect i Q).led U = if U = h.term i then h.log i else h.led U := by
  by_cases hU : U = h.term i <;> simp [elect, hU]

theorem elect_leader (h : History) (i : NodeId) (Q : Finset NodeId) (U : Term) :
    (h.elect i Q).leader U = if U = h.term i then some i else h.leader U := by
  by_cases hU : U = h.term i <;> simp [elect, hU]

theorem elect_voters (h : History) (i : NodeId) (Q : Finset NodeId) (U : Term) :
    (h.elect i Q).voters U = if U = h.term i then Q else h.voters U := by
  by_cases hU : U = h.term i <;> simp [elect, hU]

theorem elect_extends (hs : Sound members h) (hvacant : h.leader (h.term i) = none)
    (Q : Finset NodeId) : Extends h (h.elect i Q) where
  term _ := le_rfl
  vote _ _ _ hv := hv
  stood _ _ _ := rfl
  leader U l hl := by
    rw [elect_leader, if_neg]
    · exact hl
    · rintro rfl
      simp [hvacant] at hl
  led U := by
    rw [elect_led]
    split
    · rename_i hU
      subst hU
      rw [hs.offices.vacant _ hvacant]
      exact List.nil_prefix
    · exact List.prefix_refl _
  grown U P hl hP _ := by
    rw [elect_led, if_neg] at hP
    · exact hP
    · rintro rfl
      exact hl hvacant
  acked _ _ := le_rfl

theorem Sound.take_acked (hs : Sound members h) (hx : Extends h h') (hk : k ≤ h.acked v T) :
    (h'.led T).take k = (h.led T).take k :=
  hx.take_led (hk.trans (hs.acks.within v T))

theorem Sound.carries_acked (hs : Sound members h) (hx : Extends h h') (hk : k ≤ h.acked v T)
    (hc : h.Carries ((h.led T).take k) T F U) : h'.Carries ((h'.led T).take k) T F U := by
  rw [hs.take_acked hx hk]
  exact hx.carries (hs.mem_take_led k) hc

theorem elect_led_of {R : Term → List Entry → Prop} (hnew : R (h.term i) (h.log i))
    (hold : ∀ U, R U (h.led U)) (U : Term) : R U ((h.elect i Q).led U) := by
  rw [elect_led]
  split
  · rename_i hU
    exact hU ▸ hnew
  · exact hold U

/-- A leader's log is one more log; what holds of all logs holds of it too. -/
theorem Sound.elect_paths (hs : Sound members h) (hx : Extends h (h.elect i Q)) :
    Paths (h.elect i Q) where
  numbered := elect_led_of (R := fun _ => Numbered) ((hs.paths.log i).numbered hs.paths)
    hs.paths.numbered
  ascending := elect_led_of (R := fun _ => Ascending) ((hs.paths.log i).ascending hs.paths)
    hs.paths.ascending
  led := elect_led_of (R := fun _ => (h.elect i Q).Path) (hx.path (hs.paths.log i))
    fun U => hx.path (hs.paths.led U)
  led_term := elect_led_of (R := fun U F => ∀ e ∈ F, e.term ≤ U) (hs.paths.log_term i)
    hs.paths.led_term
  log v := hx.path (hs.paths.log v)
  log_term := hs.paths.log_term
  stood c U := hx.path (hs.paths.stood c U)
  stood_term := hs.paths.stood_term

theorem Sound.elect_offices (hs : Sound members h) (hstood : h.stood i (h.term i) = h.log i)
    (hQ : Q ⊆ members) (hcard : majority members.card ≤ Q.card)
    (hvote : ∀ v ∈ Q, h.vote v (h.term i) = some i) : Offices members (h.elect i Q) where
  vacant U := by
    rw [elect_leader, elect_led]
    split
    · simp
    · exact hs.offices.vacant U
  elected U := by
    rw [elect_leader, elect_voters]
    split
    · rename_i hU
      rintro l ⟨⟩
      exact ⟨hQ, hcard, hU ▸ hvote⟩
    · exact hs.offices.elected U
  began U := by
    rw [elect_leader, elect_led]
    split
    · rename_i hU
      rintro l ⟨⟩
      exact hU ▸ hstood ▸ List.prefix_refl _
    · exact hs.offices.began U
  leads U := by
    rw [elect_leader, elect_led]
    split
    · rintro l ⟨⟩ -
      rfl
    · exact hs.offices.leads U

theorem Sound.elect_acks (hs : Sound members h) (hx : Extends h (h.elect i Q))
    (hvacant : h.leader (h.term i) = none) : Acks (h.elect i Q) where
  within v T := (hs.acks.within v T).trans (hx.led T).length_le
  reached := hs.acks.reached
  retained v T k hk := hs.carries_acked hx hk (hs.acks.retained v T k hk)
  voted v c U T k hv hvoted hT hk hown := by
    refine hs.carries_acked hx hk (hs.acks.voted v c U T k hv ?_ hT hk ?_)
    · rw [elect_voters, elect_leader] at hvoted
      split at hvoted
      · rename_i hU
        exact Or.inr (hU ▸ hvacant)
      · exact hvoted
    · rwa [hs.take_acked hx hk] at hown

theorem Sound.elect (hs : Sound members h) (hvacant : h.leader (h.term i) = none)
    (hstood : h.stood i (h.term i) = h.log i) (hQ : Q ⊆ members)
    (hcard : majority members.card ≤ Q.card) (hvote : ∀ v ∈ Q, h.vote v (h.term i) = some i) :
    Moves members i h (h.elect i Q) := by
  have hx := elect_extends hs hvacant Q
  refine ⟨⟨hs.elect_paths hx, { hs.ballots with }, hs.elect_offices hstood hQ hcard hvote,
    hs.elect_acks hx hvacant⟩, hx, { Frame.refl i h with leader := fun v U hv hl => ?_ }⟩
  rw [elect_leader] at hl
  split at hl
  · cases hl
    exact absurd rfl hv
  · exact hl

/-! ## Growing the leader's log -/

def propose (h : History) (i : NodeId) (command : Bytes) : History :=
  let F := h.log i ++ [⟨(h.log i).length + 1, h.term i, command⟩]
  { h with
    log := Function.update h.log i F
    led := Function.update h.led (h.term i) F }

variable {command : Bytes}

theorem propose_led (hl : h.log i = h.led (h.term i)) (U : Term) :
    (h.propose i command).led U = h.led U ++
      if U = h.term i then [⟨(h.log i).length + 1, U, command⟩] else [] := by
  by_cases hU : U = h.term i
  · subst hU
    simp [propose, hl]
  · simp [propose, hU]

theorem propose_log (h : History) (i : NodeId) (command : Bytes) (v : NodeId) :
    (h.propose i command).log v = h.log v ++
      if v = i then [⟨(h.log i).length + 1, h.term i, command⟩] else [] := by
  by_cases hv : v = i
  · subst hv
    simp [propose]
  · simp [propose, hv]

theorem propose_extends (hl : h.log i = h.led (h.term i)) : Extends h (h.propose i command) where
  term _ := le_rfl
  vote _ _ _ hv := hv
  stood _ _ _ := rfl
  leader _ _ e := e
  led U := by
    rw [propose_led hl]
    exact List.prefix_append _ _
  grown U P _ hP ht := by
    rw [propose_led hl] at hP
    split at hP
    · rcases List.prefix_concat_iff.mp hP with rfl | hP
      · have := ht ⟨(h.log i).length + 1, U, command⟩ (by simp)
        simp at this
      · exact hP
    · rwa [List.append_nil] at hP
  acked _ _ := le_rfl

theorem propose_led_of {R : Term → List Entry → Prop} (hl : h.log i = h.led (h.term i))
    (hnew : R (h.term i) (h.led (h.term i) ++ [⟨(h.log i).length + 1, h.term i, command⟩]))
    (hold : ∀ U, R U (h.led U)) (U : Term) : R U ((h.propose i command).led U) := by
  rw [propose_led hl]
  split
  · rename_i hU
    subst hU
    exact hnew
  · rw [List.append_nil]
    exact hold U

theorem propose_log_of {R : NodeId → List Entry → Prop}
    (hnew : R i (h.log i ++ [⟨(h.log i).length + 1, h.term i, command⟩]))
    (hold : ∀ v, R v (h.log v)) (v : NodeId) : R v ((h.propose i command).log v) := by
  rw [propose_log]
  split
  · rename_i hv
    subst hv
    exact hnew
  · rw [List.append_nil]
    exact hold v

theorem Sound.propose_paths (hs : Sound members h) (hl : h.log i = h.led (h.term i)) :
    Paths (h.propose i command) := by
  have hx : Extends h (h.propose i command) := propose_extends hl
  have hpath : (h.propose i command).Path
      (h.led (h.term i) ++ [⟨(h.log i).length + 1, h.term i, command⟩]) := by
    refine (hx.path (hs.paths.led _)).concat ?_
    rw [propose_led hl, if_pos rfl]
  have hterm : ∀ e ∈ h.led (h.term i) ++ [⟨(h.log i).length + 1, h.term i, command⟩],
      e.term ≤ h.term i := by
    intro e he
    rcases List.mem_append.mp he with he | he
    · exact hs.paths.led_term _ e he
    · rw [List.mem_singleton.mp he]
  exact {
    numbered := propose_led_of (R := fun _ => Numbered) hl
      (by rw [hl]; exact (hs.paths.numbered _).concat _ _) hs.paths.numbered
    ascending := propose_led_of (R := fun _ => Ascending) hl
      ((hs.paths.ascending _).concat (hs.paths.led_term _)) hs.paths.ascending
    led := propose_led_of (R := fun _ => (h.propose i command).Path) hl hpath
      fun U => hx.path (hs.paths.led U)
    led_term := propose_led_of (R := fun U F => ∀ e ∈ F, e.term ≤ U) hl hterm hs.paths.led_term
    log := propose_log_of (R := fun _ => (h.propose i command).Path) (by rwa [← hl] at hpath)
      fun v => hx.path (hs.paths.log v)
    log_term := propose_log_of (R := fun v F => ∀ e ∈ F, e.term ≤ h.term v)
      (by rwa [← hl] at hterm) hs.paths.log_term
    stood := fun c U => hx.path (hs.paths.stood c U)
    stood_term := hs.paths.stood_term }

theorem Sound.propose (hs : Sound members h) (hlead : h.leader (h.term i) = some i)
    (command : Bytes) : Moves members i h (h.propose i command) := by
  have hl := hs.offices.leads _ i hlead rfl
  have hx : Extends h (h.propose i command) := propose_extends hl
  refine ⟨⟨hs.propose_paths hl, { hs.ballots with },
    { hs.offices with vacant := ?_, began := ?_, leads := ?_ },
    ⟨fun v T => (hs.acks.within v T).trans (hx.led T).length_le, hs.acks.reached, ?_, ?_⟩⟩, hx,
    { Frame.refl i h with log := fun v hv => by rw [propose_log, if_neg hv, List.append_nil] }⟩
  · intro U hnone
    rw [propose_led hl, if_neg, List.append_nil]
    · exact hs.offices.vacant U hnone
    · rintro rfl
      exact absurd (hnone.symm.trans hlead) (by simp)
  · exact fun U l hU => (hs.offices.began U l hU).trans (hx.led U)
  · intro U l hU ht
    change h.term l = U at ht
    subst ht
    rw [propose_led hl, propose_log, hs.offices.leads _ l hU rfl]
    by_cases hv : l = i
    · subst hv
      simp
    · rw [if_neg hv, if_neg]
      intro hsame
      rw [hsame] at hU
      exact hv (Option.some.inj (hU.symm.trans hlead))
  · intro v T k hk
    refine hs.carries_acked hx hk ((hs.acks.retained v T k hk).mono (fun hp => ?_) le_rfl)
    rw [propose_log]
    exact hp.trans (List.prefix_append _ _)
  · intro v c U T k hv hvoted hT hk hown
    rw [hs.take_acked hx hk] at hown
    exact hs.carries_acked hx hk (hs.acks.voted v c U T k hv hvoted hT hk hown)

/-! ## Following -/

def follow (h : History) (i : NodeId) (F : List Entry) : History :=
  { h with log := Function.update h.log i F }

theorem follow_log (h : History) (i : NodeId) (F : List Entry) (v : NodeId) :
    (h.follow i F).log v = if v = i then F else h.log v := by
  by_cases hv : v = i <;> simp [follow, hv]

/-- What a member has acknowledged and gives up, the leader of its present term lacks. -/
theorem Sound.follow_retained (hs : Sound members h) (hl : h.leader (h.term i) = some l)
    (hF : Follows (h.led (h.term i)) (h.log i) F) (hk : k ≤ h.acked i T) :
    h.Carries ((h.led T).take k) T F (h.term i + 1) := by
  rcases hs.acks.retained i T k hk with hp | hlacks
  · by_cases hshared : (h.led T).take k <+: h.led (h.term i)
    · exact Or.inl (hF.shared _ hp hshared)
    · have hpos : 0 < h.acked i T := by
        by_contra hzero
        rw [show k = 0 by lia] at hshared
        exact hshared List.nil_prefix
      have hne : T ≠ h.term i := by
        rintro rfl
        exact hshared (List.take_prefix _ _)
      have hlt := (hs.acks.reached i T hpos).lt_of_ne hne
      exact Or.inr ⟨h.term i, hlt, Nat.lt_succ_self _, Option.ne_none_iff_exists'.mpr ⟨l, hl⟩,
        hshared⟩
  · exact Or.inr hlacks

/-- A member follows another as the leader of its term. -/
theorem Sound.follow (hs : Sound members h) (hl : h.leader (h.term i) = some l) (hne : l ≠ i)
    (hF : Follows (h.led (h.term i)) (h.log i) F) : Moves members i h (h.follow i F) := by
  refine ⟨⟨{ hs.paths with log := ?_, log_term := ?_ }, { hs.ballots with },
    { hs.offices with leads := ?_ }, { hs.acks with retained := ?_ }⟩, { Extends.refl h with },
    { Frame.refl i h with log := fun v hv => by rw [follow_log, if_neg hv] }⟩
  · intro v
    rw [follow_log]
    split
    · exact (hs.paths.log i).follows (hs.paths.led _) hF
    · exact hs.paths.log v
  · intro v e he
    rw [follow_log] at he
    split at he
    · rename_i hv
      subst hv
      rcases hF.source with hp | hp
      · exact hs.paths.log_term v e (hp.mem he)
      · exact hs.paths.led_term _ e (hp.mem he)
    · exact hs.paths.log_term v e he
  · intro U a hU ht
    rw [follow_log, if_neg]
    · exact hs.offices.leads U a hU ht
    · rintro rfl
      change h.term a = U at ht
      subst ht
      exact hne (Option.some.inj (hl.symm.trans hU))
  · intro v T k (hk : k ≤ h.acked v T)
    rw [follow_log]
    split
    · rename_i hv
      subst hv
      exact hs.follow_retained hl hF hk
    · exact hs.acks.retained v T k hk

def ack (h : History) (i : NodeId) (k : Index) : History :=
  { h with
    acked := Function.update h.acked i
      (Function.update (h.acked i) (h.term i) (max (h.acked i (h.term i)) k)) }

theorem ack_acked (h : History) (i : NodeId) (k : Index) (v : NodeId) (T : Term) :
    (h.ack i k).acked v T =
      if v = i ∧ T = h.term i then max (h.acked v T) k else h.acked v T := by
  by_cases hv : v = i
  · subst hv
    by_cases hT : T = h.term v <;> simp [ack, hT]
  · simp [ack, hv]

theorem le_acked_ack (h : History) (i : NodeId) (k : Index) :
    k ≤ (h.ack i k).acked i (h.term i) := by
  rw [ack_acked, if_pos ⟨rfl, rfl⟩]
  exact le_max_right _ _

theorem Sound.ack_acks (hs : Sound members h) (hk : k ≤ (h.led (h.term i)).length)
    (hp : (h.led (h.term i)).take k <+: h.log i) : Acks (h.ack i k) where
  within v T := by
    rw [ack_acked]
    split
    · rename_i heq
      obtain ⟨rfl, rfl⟩ := heq
      exact max_le (hs.acks.within v _) hk
    · exact hs.acks.within v T
  reached v T := by
    rw [ack_acked]
    split
    · rename_i heq
      obtain ⟨rfl, rfl⟩ := heq
      exact fun _ => le_rfl
    · exact hs.acks.reached v T
  retained v T j := by
    rw [ack_acked]
    split
    · rename_i heq
      obtain ⟨rfl, rfl⟩ := heq
      intro hj
      rcases le_max_iff.mp hj with hj | hj
      · exact hs.acks.retained v _ j hj
      · exact Or.inl ((List.take_prefix_take_left hj).trans hp)
    · exact hs.acks.retained v T j
  voted v c U T j hv hvoted hT := by
    rw [ack_acked]
    split
    · -- no vote of a later term has been cast yet
      rename_i heq
      obtain ⟨rfl, rfl⟩ := heq
      exact absurd (hs.ballots.reached v U c hv) (Nat.not_le.mpr hT)
    · exact hs.acks.voted v c U T j hv hvoted hT

/-- To acknowledge what is shared with the leader of the term. -/
theorem Sound.ack (hs : Sound members h) (hk : k ≤ (h.led (h.term i)).length)
    (hp : (h.led (h.term i)).take k <+: h.log i) : Moves members i h (h.ack i k) := by
  refine ⟨⟨{ hs.paths with }, { hs.ballots with }, { hs.offices with }, hs.ack_acks hk hp⟩,
    { Extends.refl h with acked := ?_ }, { Frame.refl i h with }⟩
  intro v T
  rw [ack_acked]
  split
  · exact le_max_left _ _
  · exact le_rfl

end RaftNode.History
