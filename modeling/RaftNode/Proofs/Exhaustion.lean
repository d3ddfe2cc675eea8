import RaftNode.Proofs.Headroom
import RaftNode.Proofs.Positions
/-!
# Counters that run out

No handler compares a number of a message with the limit before it adds to it, so a message can drive a node there: at
once, or with a number that is kept and added to later. What is said of one event in `Headroom` is said here of a
sequence of them, from an empty store on: at which sums a node aborts, and how far from the limit all messages have to
stay for it to meet none.
-/
namespace RaftNode.Node

open RaftNode.Action (wp)

variable {σ μ : Type} [LogStore σ] [StateMachine μ] {o : Occasion} {n : Node σ μ}

/-! ## Sequences of events -/

section Sequences

variable (hσ : NeverAborts σ) {events : List (Moment × Occasion)}

include hσ

theorem fits_left (hn : n.Fits) (hevents : ∀ e ∈ events, e.2.Fits) : (n.left events).Fits := by
  induction events generalizing n with
  | nil => exact hn
  | cons e rest ih =>
    obtain ⟨he, hrest⟩ := List.forall_mem_cons.mp hevents
    exact ih (climbs_after hσ hn he e.1).fits hrest

/-- An event raises what bounds the term and the indexes by no more than one. -/
theorem below_left (hn : n.Fits) (hevents : ∀ e ∈ events, e.2.Fits) {t i k : Nat}
    (hmessages : ∀ e ∈ events, e.2.Below t i) (h : n.Below (t + k) (i + k)) :
    (n.left events).Below (t + k + events.length) (i + k + events.length) := by
  induction events generalizing n k with
  | nil => exact h
  | cons e rest ih =>
    obtain ⟨he, hrest⟩ := List.forall_mem_cons.mp hevents
    obtain ⟨hm, hms⟩ := List.forall_mem_cons.mp hmessages
    have hclimbs := climbs_after hσ hn he e.1
    have hnext := hclimbs.below _ _ (hm.mono (Nat.le_add_right t k) (Nat.le_add_right i k)) h
    have hall := ih hclimbs.fits hrest (k := k + 1) hms hnext
    rw [List.length_cons, Nat.add_comm rest.length, ← add_assoc, ← add_assoc]
    exact hall

theorem sequence_left (hn : n.Fits) (hevents : ∀ e ∈ events, e.2.Fits)
    (hordered : ∀ e ∈ events, e.2.Consecutive) (h : n.log.InSequence) : (n.left events).log.InSequence := by
  induction events generalizing n with
  | nil => exact h
  | cons e rest ih =>
    obtain ⟨he, hrest⟩ := List.forall_mem_cons.mp hevents
    obtain ⟨ho, hos⟩ := List.forall_mem_cons.mp hordered
    have hclimbs := climbs_after hσ hn he e.1
    exact ih hclimbs.fits hrest hos (hclimbs.sequence ho h)

end Sequences

omit [LogStore σ] [StateMachine μ] in
/-- Messages that stay this far from the limit leave room for every sum. -/
theorem not_overruns {t i : Nat} (hn : n.Below t i) (ho : o.Below t i) (ht : t < wordLimit) (hi : i < wordLimit) :
    ¬ n.Overruns o := by
  have hlast := hn.log.lastIndex
  have hterm := hn.term
  have hsnapshot := hn.log.snapshot
  intro h
  cases h with
  | term _ hfull => lia
  | alone _ _ hfull => lia
  | office _ _ _ _ hfull => lia
  | append _ hfull =>
    cases hfull with
    | batch hfull =>
      have := ho.2.1
      lia
    | hint _ _ hfull => lia
  | install _ hfull =>
    have := hfull.full
    have := ho.2
    lia
  | stored _ _ _ _ _ hfull =>
    have := ho.2.1
    lia
  | rejected _ _ _ _ _ hhint hfull =>
    have := ho.2.2 _ hhint
    lia
  | installed _ _ _ hfull =>
    have := ho.2
    lia

/-! ## Sums that fail -/

/-- The store takes a term and a vote. -/
def Stores (n : Node σ μ) : Prop := ∀ hard, ∃ s, LogStore.saveHard hard n.log.store = .ok () s

omit [StateMachine μ] in
theorem wp_saveHard_stores (hard : HardState) (n : Node σ μ) : wp (Log.saveHard hard)
    (fun _ l => ∃ s, l = { n.log with store := s }) (fun _ _ => ¬ n.Stores) n.log := by
  rw [Log.saveHard, Log.onStore, Action.wp_within]
  refine Action.wp_mono (Action.wp_self (LogStore.saveHard hard) n.log.store) (fun _ s _ => ⟨s, rfl⟩) ?_
  intro f s hs hstores
  obtain ⟨s', hs'⟩ := hstores hard
  rw [hs] at hs'
  cases hs'

omit [StateMachine μ] in
theorem wp_follow_stores (m : Moment) (term : Term) (leader : NodeId) (n : Node σ μ) : wp (follow m term leader)
    (fun _ n' => ∃ s, n'.log = { n.log with store := s }) (fun _ _ => ¬ n.Stores) n :=
  wp_follow_of_saveHard (wp_saveHard_stores ⟨term, none⟩ n) ⟨n.log.store, rfl⟩ m leader

omit [StateMachine μ] in
theorem wp_becomeLeader_full (m : Moment) (hrole : n.role.kind = .candidate)
    (hfull : wordLimit ≤ n.log.lastIndex + 1) : wp (becomeLeader m) (fun _ _ => False) (fun f _ => f = .abort) n := by
  rw [becomeLeader, Action.wp_bind, Action.wp_get, Action.wp_bind]
  refine Action.wp_mono (Replication.wp_start_same n.peers n.log.lastIndex m.now) ?_ fun _ _ h => h.1
  rintro r n rfl
  rw [Action.wp_bind, wp_setRole (by rw [hrole]; rfl), Action.wp_bind, wp_onLog, wp,
    Log.append_overflows n.term [] hfull]

/-- An event that forms such a sum neither ignores nor refuses the message. -/
theorem wp_overruns (h : n.Overruns o) (m : Moment) :
    wp (o.handle m) (fun _ _ => False) (fun f _ => n.Stores → f = .abort) n := by
  cases h with
  | term hrole hfull =>
    rw [Occasion.handle, Action.wp_map, startElection, Action.wp_bind, Action.wp_get, Action.wp_ite,
      if_neg (by simp [hrole]), Action.wp_bind, Action.wp_add, if_neg (not_lt.mpr hfull)]
    exact fun _ => rfl
  | alone hrole hmajority hfull =>
    rw [Occasion.handle, Action.wp_map, startElection, Action.wp_bind, Action.wp_get, Action.wp_ite,
      if_neg (by simp [hrole]), Action.wp_bind, Action.wp_add]
    by_cases hroom : n.term + 1 < wordLimit
    · rw [if_pos hroom, Action.wp_bind, adopt, Action.wp_bind, Action.wp_modify, wp_onLog]
      refine Action.wp_mono (wp_saveHard_stores ⟨n.term + 1, some n.id⟩ n) ?_ fun _ _ hno h => absurd h hno
      rintro - _ ⟨s, rfl⟩
      rw [Action.wp_bind, wp_setRole (mayBecome_candidate hrole), Action.wp_bind, resetDeadline, Action.wp_modify,
        Action.wp_ite, if_pos hmajority]
      refine Action.wp_mono (wp_becomeLeader_full m ?_ ?_) (fun _ _ h => h) fun _ _ h _ => h
      · rfl
      · exact hfull
    · rw [if_neg hroom]
      exact fun _ => rfl
  | office hrole hterm hgranted hmajority hfull =>
    rw [Occasion.handle, Action.wp_map, onResponse, onVoteReply, Action.wp_bind, Action.wp_get, Action.wp_ite,
      if_neg (not_lt.mpr hterm), Action.wp_ite, if_neg (by simp [hgranted]), hrole]
    dsimp only
    rw [Action.wp_bind, Action.wp_set, Action.wp_ite, if_pos hmajority]
    refine Action.wp_mono (wp_becomeLeader_full m ?_ ?_) (fun _ _ h => h) fun _ _ h _ => h
    · rfl
    · exact hfull
  | @append q hterm hfull =>
    rw [Occasion.handle, Action.wp_map, onRequest, Action.wp_bind, onAppendRequest, Action.wp_bind, Action.wp_get,
      Action.wp_ite, if_neg (not_lt.mpr hterm), Action.wp_bind]
    refine Action.wp_mono (wp_follow_stores m q.term q.leader n) ?_ fun _ _ hno h => absurd h hno
    rintro - n₁ ⟨s, hlog⟩
    have hfull₁ : n₁.log.ReconcileOverflows q.prevIndex q.prevTerm q.entries.length := by
      rw [hlog]
      cases hfull with
      | batch h => exact .batch h
      | hint ht hne h => exact .hint ht hne h
    rw [Action.wp_bind, Action.wp_get, Log.reconcile_overflows hfull₁]
    exact fun _ => rfl
  | @install q hterm hfull =>
    rw [Occasion.handle, Action.wp_map, onRequest, Action.wp_bind, onInstallRequest, Action.wp_bind, Action.wp_get,
      Action.wp_ite, if_neg (not_lt.mpr hterm), Action.wp_bind]
    refine Action.wp_mono (wp_follow_stores m q.term q.leader n) ?_ fun _ _ hno h => absurd h hno
    rintro - n₁ ⟨s, hlog⟩
    have hfull₁ : n₁.log.InstallOverflows q.index q.snapshotTerm := by
      rw [hlog]
      exact ⟨hfull.ahead, hfull.differs, hfull.full⟩
    have habort : Log.install ⟨q.index, q.snapshotTerm, q.data⟩ n₁.log = .error .abort n₁.log :=
      Log.install_overflows hfull₁
    rw [Action.wp_bind, wp_onLog, wp, habort]
    exact fun _ => rfl
  | stored hrole hpeer hterm hsent hsuccess hfull =>
    rw [Occasion.handle, Action.wp_map, onResponse, onAppendReply, Action.wp_bind, Action.wp_get, Action.wp_ite,
      if_neg (not_lt.mpr hterm), Action.wp_ite, if_neg (not_not.mpr hsent), hrole]
    dsimp only
    rw [Action.wp_ite, if_pos hsuccess, Action.wp_bind, wp, Replication.onAppendSuccess_overflows hpeer hfull]
    exact fun _ => rfl
  | rejected hrole hpeer hterm hsent hsuccess hhint hfull =>
    rw [Occasion.handle, Action.wp_map, onResponse, onAppendReply, Action.wp_bind, Action.wp_get, Action.wp_ite,
      if_neg (not_lt.mpr hterm), Action.wp_ite, if_neg (not_not.mpr hsent), hrole]
    dsimp only
    rw [Action.wp_ite, if_neg (by simp [hsuccess]), Action.wp_bind, wp, hhint,
      Replication.onAppendReject_overflows hpeer hfull]
    exact fun _ => rfl
  | installed hrole hpeer hterm hfull =>
    rw [Occasion.handle, Action.wp_map, onResponse, onInstallReply, Action.wp_bind, Action.wp_get, Action.wp_ite,
      if_neg (not_lt.mpr hterm), Action.wp_ite, if_neg (not_not.mpr rfl), hrole]
    dsimp only
    rw [Action.wp_bind, wp, Replication.onInstalled, Replication.confirm_overflows hpeer hfull]
    exact fun _ => rfl

/-! ## From an empty store -/

section Empty

variable {store t t' : σ} {id : NodeId} {peers : List NodeId} {machine : μ} {config : Config} {m₀ m : Moment}

omit [StateMachine μ] in
theorem wp_boot_empty (hempty : LogStore.load store = .ok {} t) :
    wp (Log.boot : Action NodeError σ (Log.Recovered σ))
      (fun r _ => r.hard.term = 0 ∧ r.log.InSequence ∧ ∀ b, 0 < b → r.log.Below b) (fun _ _ => True) store := by
  simp only [Log.boot, Action.wp_bind, Action.wp_within]
  refine Action.wp_mono (Action.wp_self LogStore.load store) ?_ fun _ _ _ => trivial
  intro p s hload
  rw [hempty] at hload
  cases hload
  exact ⟨rfl, .nil 0, fun b hb => ⟨hb, hb, hb, by rintro _ ⟨⟩⟩⟩

/-- A node over an empty store has no number but zero. -/
theorem zero_of_boot (hempty : LogStore.load store = .ok {} t)
    (hboot : boot id peers machine config m₀ store = .ok n t') :
    n.isLeader = false ∧ n.log.InSequence ∧ ∀ t i, 0 < t → 0 < i → n.Below t i := by
  have hwp : wp (boot id peers machine config m₀)
      (fun n _ => n.isLeader = false ∧ n.log.InSequence ∧ ∀ t i, 0 < t → 0 < i → n.Below t i)
      (fun _ _ => True) store := by
    rw [boot, Action.wp_bind]
    refine Action.wp_imp (wp_boot_empty hempty) ?_
    rintro r s ⟨hterm, hsequence, hbelow⟩
    split
    · rename_i n hn
      obtain ⟨machine', -, rfl⟩ := ofRecovered_ok hn
      exact ⟨rfl, hsequence, fun t i ht hi => ⟨hterm ▸ ht, hbelow i hi⟩⟩
    · trivial
  have hn := Action.wp_ok hwp hboot
  exact hn

/-- Wherever the events since a node was booted from an empty store have led it, its term does not go back, and an event
from outside aborts at a sum that does not fit and at every such sum. Entries that are not numbered one by one are the
only other reason. There is no such sum while all messages stay so far from the limit that each event can add one. -/
theorem counters_overrun (hσ : NeverAborts σ) (hempty : LogStore.load store = .ok {} t)
    (hboot : boot id peers machine config m₀ store = .ok n t') {events : List (Moment × Occasion)}
    (hevents : ∀ e ∈ events, e.2.Fits) {o : Occasion} (ho : o.Fits) (hout : o.Outward) :
    (n.left events).Fits ∧
    (n.left events).term ≤ ((o.handle m).after (n.left events)).term ∧
    ((n.left events).Overruns o → ∃ f n', o.handle m (n.left events) = .error f n' ∧
      ((n.left events).Stores → f = .abort)) ∧
    (∀ n', o.handle m (n.left events) = .error .abort n' → (n.left events).Overruns o ∨ n'.Lacks o) ∧
    ((∀ e ∈ events, e.2.Consecutive) → o.Consecutive →
      ∀ n', o.handle m (n.left events) = .error .abort n' → (n.left events).Overruns o) ∧
    ∀ T I, 0 < T → 0 < I → (∀ e ∈ events, e.2.Below T I) → o.Below T I →
      T + events.length < wordLimit → I + events.length < wordLimit → ¬ (n.left events).Overruns o := by
  obtain ⟨hrole, hsequence, hzero⟩ := zero_of_boot hempty hboot
  have hn : n.Fits := {
    hzero wordLimit wordLimit (by decide) (by decide) with
    view := fun r hr => by simp [isLeader, hr, Role.kind] at hrole }
  have hfits := fits_left hσ hn hevents
  have hblames : ∀ n', o.handle m (n.left events) = .error .abort n' → (n.left events).Blames o n' :=
    fun n' hn' => (Action.wp_error (counts_handle hσ hfits ho m) hn').2 rfl hout
  refine ⟨hfits, (climbs_after hσ hfits ho m).term, fun h => ?_, fun n' hn' => ?_, fun hordered ho' n' hn' => ?_, ?_⟩
  · obtain ⟨f, n', hf, hwhy⟩ := Action.wp_exists_error (wp_overruns h m)
    exact ⟨f, n', hf, hwhy⟩
  · exact (hblames n' hn').imp_right And.left
  · refine (hblames n' hn').resolve_right fun hgaps => hgaps.2 ⟨ho', ?_⟩
    exact sequence_left hσ hn hevents hordered hsequence
  · intro T I hT hI hmessages hmessage hroomT hroomI
    have hbelow := below_left hσ hn hevents (k := 0) hmessages (hzero T I hT hI)
    exact not_overruns hbelow (hmessage.mono (Nat.le_add_right _ _) (Nat.le_add_right _ _)) hroomT hroomI

end Empty

/-- The entry before the batch is the last that there can be. -/
def farAppend : AppendRequest := ⟨1, 2, wordLimit - 1, 0, [⟨1, 1, [97]⟩], 0⟩

def informing : List (Moment × Occasion) := [({}, .request (.append threeCommitted))]

theorem informing_fits : ∀ e ∈ informing, e.2.Fits := by
  rintro _ (_ | ⟨_, ⟨⟩⟩)
  simp only [Occasion.Fits, LawfulWire.Fits]
  decide

theorem farAppend_fits : (Occasion.request (.append farAppend)).Fits := by
  simp only [Occasion.Fits, LawfulWire.Fits]
  decide

theorem informing_below : ∀ e ∈ informing, e.2.Below 2 4 := by
  rintro _ (_ | ⟨_, ⟨⟩⟩)
  simp only [Occasion.Below]
  decide

/-- There is room for a candidacy behind three entries. A batch behind the last index there can be is not refused. -/
theorem counters_overrun_informed : NeverAborts MemoryStore ∧ LogStore.load ({} : MemoryStore) = .ok {} {} ∧
    boot 1 [2, 3] {} {} {} {} = .ok newcomer {} ∧ (∀ e ∈ informing, e.2.Fits) ∧
    (Occasion.request (.append farAppend)).Fits ∧ (Occasion.request (.append farAppend)).Outward ∧
    ¬ (newcomer.left informing).Overruns (.act .stand) ∧
    ∃ n', (Occasion.request (.append farAppend)).handle {} (newcomer.left informing) = .error .abort n' := by
  have hσ : NeverAborts MemoryStore := neverAborts_of_failStop
  obtain ⟨-, -, -, -, -, hroom⟩ := counters_overrun (m := {}) hσ rfl newcomer_boots informing_fits
    (o := .act .stand) trivial trivial
  obtain ⟨-, -, hends, -⟩ := counters_overrun (m := {}) hσ rfl newcomer_boots informing_fits farAppend_fits trivial
  refine ⟨hσ, rfl, newcomer_boots, informing_fits, farAppend_fits, trivial, ?_, ?_⟩
  · exact hroom 2 4 (by decide) (by decide) informing_below trivial (by decide) (by decide)
  · obtain ⟨f, n', hn', hf⟩ := hends (.append (by decide) (.batch (by decide)))
    obtain rfl := hf fun _ => ⟨_, rfl⟩
    exact ⟨n', hn'⟩

/-- Its term is the last that there can be. -/
def lastTermVote : VoteRequest := ⟨wordLimit - 1, 2, 0, 0⟩

/-- The first message is not refused but aborts at once. The second is taken for good, and the next timeout aborts. -/
theorem message_overruns_counter : boot 1 [2, 3] {} {} {} {} = .ok newcomer {} ∧
    (Occasion.request (.append farAppend)).Fits ∧ (Occasion.request (.vote lastTermVote)).Fits ∧
    (∃ n', (Occasion.request (.append farAppend)).handle {} newcomer = .error .abort n') ∧
    ∃ n' n'', (Occasion.request (.vote lastTermVote)).handle {} newcomer =
        .ok (.reply (.vote ⟨wordLimit - 1, true⟩)) n' ∧ (Occasion.act .stand).handle {} n' = .error .abort n'' := by
  refine ⟨newcomer_boots, farAppend_fits, ?_, ⟨_, rfl⟩, _, _, rfl, rfl⟩
  simp only [Occasion.Fits, LawfulWire.Fits]
  decide

end RaftNode.Node
