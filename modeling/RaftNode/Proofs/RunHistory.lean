import RaftNode.Proofs.Elections
import RaftNode.Proofs.Following
import RaftNode.Proofs.Protocol
/-!
# The history of a run

Every moment of a run has a history that accounts for all members and for all messages on their way, and the
history of a later moment continues that of an earlier one.
-/
namespace RaftNode.Protocol

open RaftNode.Action (wp)
open History (Sound Moves Extends Committed)

variable {σ μ : Type} [LogStore σ] [LawfulStore σ] {members : Finset NodeId} {h h' : History}
  {i : NodeId} {n : Node σ μ} {s : State σ μ} {α : Type}

def Lives (members : Finset NodeId) (h : History) (i : NodeId) : Life σ μ → Prop
  | .up n => Runs members h i n
  | .down store => Stored members h i (kept store)

structure Accounts (members : Finset NodeId) (h : History) (s : State σ μ) : Prop where
  life : ∀ i, Lives members h i (s.life i)
  sent : ∀ p ∈ s.sent, Sends members h p.1 p.2
  answers : ∀ p ∈ s.answers, Learns members h p.1 p.2

theorem Lives.stored {l : Life σ μ} (hl : Lives members h i l) :
    Stored members h i (kept (storeOf l)) := by
  cases l with
  | up n => exact Keeps.stored (Runs.toKeeps hl)
  | down store => exact hl

theorem accounts_initial [StateMachine μ] (hs : Initial s) :
    Accounts members History.initial s where
  life i := by
    obtain ⟨store, hl, hk⟩ := hs.down i
    rw [hl, Lives, hk]
    refine ⟨rfl, rfl, ⟨?_, le_rfl, rfl, rfl⟩, History.committed_nil _ _ _⟩
    intro k e he
    cases he
  sent p hp := by
    rw [hs.sent] at hp
    cases hp
  answers p hp := by
    rw [hs.answers] at hp
    cases hp

/-- One member has moved on, the others and all messages are accounted for as before. -/
theorem Accounts.update (hs : Sound members h) (ha : Accounts members h s)
    (hm : Moves members i h h') {l : Life σ μ} (hl : Lives members h' i l) :
    Accounts members h' { s with life := Function.update s.life i l } where
  life v := by
    dsimp only
    by_cases hv : v = i
    · subst hv
      rwa [Function.update_self]
    · rw [Function.update_of_ne hv]
      have := ha.life v
      cases hlife : s.life v with
      | up n =>
        rw [hlife] at this
        exact Runs.frame hs hm hv this
      | down store =>
        rw [hlife] at this
        exact Stored.frame hs hm hv this
  sent p hp := (ha.sent p hp).extends hs hm.grows
  answers p hp := (ha.answers p hp).extends hm.grows

/-! ## Steps of a node -/

/-- A step ends in a running node and `Q`, in a halted node, or with an error that changes nothing. -/
def Steps (members : Finset NodeId) (h : History) (i : NodeId) (x : NodeAction σ μ α)
    (Q : History → α → Prop) (n : Node σ μ) : Prop :=
  wp x (fun a n' => ∃ h', Moves members i h h' ∧ Runs members h' i n' ∧ Q h' a)
    (fun f n' => Halted members h i f n' ∨ f.halts = false ∧ n' = n) n

theorem Steps.of_evolves {x : NodeAction σ μ α} {Q : History → α → Prop}
    (hx : Evolves members h i x (fun h' a n' => Runs members h' i n' ∧ Q h' a) n) :
    Steps members h i x Q n :=
  Action.wp_mono hx (fun _ _ h => h) fun _ _ => Or.inl

theorem Steps.of_wp (hs : Sound members h) {x : NodeAction σ μ α} {Q : History → α → Prop}
    (hx : wp x (fun a n' => Runs members h i n' ∧ Q h a) (Halted members h i) n) :
    Steps members h i x Q n :=
  Action.wp_mono hx (fun _ _ hn => ⟨h, .refl hs, hn⟩) fun _ _ => Or.inl

theorem Steps.returning {β : Type} {x : NodeAction σ μ α} {Q : History → α → Prop}
    {R : History → β → Prop} {f : α → β} (hx : Steps members h i x Q n)
    (hf : ∀ h' a, Q h' a → R h' (f a)) : Steps members h i (do return f (← x)) R n := by
  refine Action.wp_seq hx ?_
  rintro a n' ⟨h', hm, hr, hq⟩
  exact ⟨h', hm, hr, hf h' a hq⟩

/-- A step whose result is not sent to anybody. -/
theorem Steps.silent {x : NodeAction σ μ α}
    (hx : wp x (fun _ n' => ∃ h', Moves members i h h' ∧ Runs members h' i n')
      (fun f n' => Halted members h i f n' ∨ f.halts = false ∧ n' = n) n) :
    Steps members h i ((fun _ => ([] : List Outbound)) <$> x)
      (fun h' qs => SendsAll members h' i qs) n := by
  rw [Steps, Action.wp_map]
  refine Action.wp_imp hx ?_
  rintro _ n' ⟨h', hm, hr⟩
  exact ⟨h', hm, hr, .nil⟩

theorem Accounts.perform (hs : Sound members h) (ha : Accounts members h s)
    {x : NodeAction σ μ α} {Q : History → α → Prop}
    (hx : ∀ n, Runs members h i n → Steps members h i x Q n) :
    ∃ h', Moves members i h h' ∧ Accounts members h' (perform s i x).2 ∧
      ∀ a, (perform s i x).1 = some a → Q h' a := by
  cases hlife : s.life i with
  | down store =>
    rw [perform_down hlife]
    exact ⟨h, .refl hs, ha, nofun⟩
  | up n =>
    have hr : Runs members h i n := by
      have := ha.life i
      rwa [hlife] at this
    have hstep := hx n hr
    cases hres : x n with
    | ok a n' =>
      obtain ⟨h', hm, hr', hq⟩ := Action.wp_ok hstep hres
      rw [perform_ok hlife hres]
      exact ⟨h', hm, ha.update hs hm (l := .up n') hr', fun b hb => Option.some.inj hb ▸ hq⟩
    | error f n' =>
      rw [perform_error hlife hres]
      rcases Action.wp_error hstep hres with ⟨hf, h', hm, hstored⟩ | ⟨hf, rfl⟩
      · rw [hf]
        exact ⟨h', hm, ha.update hs hm (l := .down _) hstored, nofun⟩
      · rw [hf]
        exact ⟨h, .refl hs, ha.update hs (.refl hs) (l := .up _) hr, nofun⟩

theorem Accounts.send (hs : Sound members h) (ha : Accounts members h s)
    {x : NodeAction σ μ (List Outbound)}
    (hx : ∀ n, Runs members h i n →
      Steps members h i x (fun h' qs => SendsAll members h' i qs) n) :
    ∃ h', Moves members i h h' ∧ Accounts members h' (send s i x) := by
  obtain ⟨h', hm, ha', hq⟩ := ha.perform hs hx
  refine ⟨h', hm, { ha' with sent := fun p hp => ?_ }⟩
  rcases mem_sent_send hp with hold | ⟨qs, hres, rfl, hnew⟩
  · exact ha'.sent p hold
  · exact hq qs hres p.2 hnew

variable [StateMachine μ]

theorem steps_command (hs : Sound members h) (hr : Runs members h i n) (m : Moment)
    (c : Command) :
    Steps members h i (c.run m) (fun h' qs => SendsAll members h' i qs) n := by
  cases c with
  | stand => exact .of_evolves (hr.startElection hs m)
  | heartbeat => exact .of_wp hs (hr.wp_heartbeat hs m)
  | replicate => exact .of_wp hs (hr.wp_replicate hs m)
  | propose command => exact .silent (hr.wp_propose hs command)
  | apply =>
    exact .silent (Action.wp_mono (hr.wp_applyCommitted hs)
      (fun _ _ hr' => ⟨h, .refl hs, hr'⟩) fun _ _ => Or.inl)
  | snapshot =>
    exact .silent (Action.wp_mono (hr.wp_takeSnapshot hs)
      (fun _ _ hr' => ⟨h, .refl hs, hr'⟩) fun _ _ => Or.inl)

theorem steps_request (hs : Sound members h) (hr : Runs members h i n) (m : Moment)
    {sender : NodeId} {request : Request} (hq : Requests members h sender request)
    (hne : sender ≠ i) : Steps members h i (Node.onRequest m request)
      (fun h' a => ∀ r, Outbound.response? ⟨i, request⟩ a = some r → Learns members h' sender r)
      n := by
  cases request with
  | vote q =>
    refine (Steps.of_evolves (hr.onVoteRequest hs m hq)).returning fun h' a ha r he => ?_
    obtain rfl := Option.some.inj he
    exact fun hgranted => ⟨hr.member, ha hgranted⟩
  | append q =>
    refine (Steps.of_evolves (hr.onAppendRequest hs m hq hne)).returning fun h' a ha r he => ?_
    obtain rfl := Option.some.inj he
    exact ha
  | install q =>
    refine (Steps.of_evolves (hr.onInstallRequest hs m hq hne)).returning fun h' a ha r he => ?_
    obtain rfl := Option.some.inj he
    exact ha

omit [StateMachine μ] in
theorem steps_response (hs : Sound members h) (hr : Runs members h i n) (m : Moment)
    {r : Response} (hl : Learns members h i r) : Steps members h i (Node.onResponse m r)
      (fun h' qs => SendsAll members h' i qs) n := by
  cases r with
  | vote peer T r => exact .of_evolves (hr.onVoteReply hs m hl)
  | append peer sent r => exact .of_evolves (hr.onAppendReply hs m hl)
  | install peer T index r => exact .of_evolves (hr.onInstallReply hs m hl)
  | unreachable peer T =>
    refine .of_wp hs ?_
    rw [Node.onResponse]
    exact Action.wp_seq (hr.wp_onUnreachable peer T) fun _ _ hr' => ⟨hr', .nil⟩

/-! ## Booting -/

theorem wp_boot (hs : Sound members h) {store : σ} (hp : Stored members h i (kept store))
    (hi : i ∈ members) {peers : List NodeId} (hd : peers.Nodup)
    (hpeers : peers.toFinset = members.erase i) (machine : μ) (config : Config) (m : Moment) :
    wp (Node.boot i peers machine config m) (fun n _ => Runs members h i n)
      (fun _ t => Stored members h i (kept t)) store := by
  have hfilter : peers.filter (fun p => p ≠ i) = peers := List.filter_eq_self.mpr fun p hp => by
    have : p ∈ members.erase i := hpeers ▸ List.mem_toFinset.mpr hp
    simpa using (Finset.mem_erase.mp this).1
  rw [Node.boot, Action.wp_bind]
  refine Action.wp_mono (Log.wp_boot hp.log ((hs.paths.log i).ascending hs.paths)) ?_
    fun _ t he => he ▸ hp
  rintro r t ⟨hkept, rfl, hlog, hcommit, hhard⟩
  split
  · rename_i n hn
    obtain ⟨machine', -, rfl⟩ := Node.ofRecovered_ok hn
    rw [hfilter]
    refine ⟨{
      id := rfl, member := hi, distinct := hd, others := hpeers, log := hlog
      term := by rw [hhard]; exact hp.term
      vote := by rw [hhard]; exact hp.vote
      hard := by rw [hkept, hhard]
      committed := ?_ }, trivial⟩
    rw [hhard]
    exact hcommit ▸ hp.covered
  · rw [Action.wp_fail, hkept]
    exact hp

/-! ## Events and runs -/

theorem Accounts.boot (hs : Sound members h) (ha : Accounts members h s) (hi : i ∈ members)
    {peers : List NodeId} (hd : peers.Nodup) (hpeers : peers.toFinset = members.erase i)
    (machine : μ) (config : Config) (m : Moment) :
    Accounts members h (next s (.boot i peers machine config m)) := by
  have hboot := wp_boot hs (ha.life i).stored hi hd hpeers machine config m
  simp only [next]
  split
  · rename_i hres
    have hr := Action.wp_ok hboot hres
    exact ha.update hs (.refl hs) (l := .up _) hr
  · rename_i hres
    have hp := Action.wp_error hboot hres
    exact ha.update hs (.refl hs) (l := .down _) hp

omit [StateMachine μ] in
theorem Accounts.disturb (hs : Sound members h) (ha : Accounts members h s) {store : σ}
    (hstore : kept store = kept (storeOf (s.life i))) : Accounts members h
      { s with life := Function.update s.life i (withStore store (s.life i)) } := by
  refine ha.update hs (.refl hs) ?_
  have hl := ha.life i
  cases hlife : s.life i with
  | down st =>
    rw [hlife] at hstore hl
    rw [Lives] at hl
    rwa [withStore, Lives, hstore]
  | up n =>
    rw [hlife] at hstore hl
    exact Runs.withLog hl (hl.log.withStore hstore) (congrArg Persisted.hard hstore) rfl

/-- What one event preserves. -/
theorem Accounts.next (hs : Sound members h) (ha : Accounts members h s) {e : Event σ μ}
    (he : Enabled members s e) :
    ∃ h', Sound members h' ∧ Extends h h' ∧ Accounts members h' (next s e) := by
  cases e with
  | boot i peers machine config m =>
    exact ⟨h, hs, .refl h, ha.boot hs he.1 he.2.1 he.2.2 machine config m⟩
  | crash i =>
    exact ⟨h, hs, .refl h, ha.update hs (.refl hs) (l := .down _) (ha.life i).stored⟩
  | disturb i store => exact ⟨h, hs, .refl h, ha.disturb hs he⟩
  | act i c m =>
    obtain ⟨h', hm, ha'⟩ := ha.send hs (x := c.run m) fun n hr => steps_command hs hr m c
    exact ⟨h', hm.sound, hm.grows, ha'⟩
  | deliver sender message m =>
    have hsends := ha.sent _ he
    have hne : sender ≠ message.target := fun e => (Finset.mem_erase.mp hsends.target).1 e.symm
    obtain ⟨h', hm, ha', hq⟩ := ha.perform hs (i := message.target) fun n hr =>
      steps_request hs hr m hsends.request hne
    refine ⟨h', hm.sound, hm.grows, { ha' with answers := fun p hp => ?_ }⟩
    rcases List.mem_append.mp hp with hp | hp
    · exact ha'.answers p hp
    · obtain ⟨r, hr, rfl⟩ := Option.map_eq_some_iff.mp (Option.mem_toList.mp hp)
      obtain ⟨a, hreply, hresponse⟩ := Option.bind_eq_some_iff.mp hr
      exact hq a hreply r hresponse
  | answer i r m =>
    obtain ⟨h', hm, ha'⟩ := ha.send hs (x := Node.onResponse m r) fun n hr =>
      steps_response hs hr m (ha.answers _ he)
    exact ⟨h', hm.sound, hm.grows, ha'⟩
  | giveUp sender message m =>
    obtain ⟨h', hm, ha'⟩ := ha.send hs (x := Node.onResponse m message.lost) fun n hr =>
      steps_response hs hr m trivial
    exact ⟨h', hm.sound, hm.grows, ha'⟩
  | idle => exact ⟨h, hs, .refl h, ha⟩

/-- The histories of a run, one for every moment. -/
structure Chronicle (r : Run members σ μ) (H : ℕ → History) : Prop where
  sound : ∀ t, Sound members (H t)
  accounts : ∀ t, Accounts members (H t) (r.state t)
  grows : ∀ {t u}, t ≤ u → Extends (H t) (H u)

theorem Run.exists_chronicle (r : Run members σ μ) : ∃ H, Chronicle r H := by
  let Told (t : ℕ) := { h : History // Sound members h ∧ Accounts members h (r.state t) }
  have hnext : ∀ t (h : Told t), ∃ h' : Told (t + 1), Extends h.1 h'.1 := by
    rintro t ⟨h, hs, ha⟩
    obtain ⟨h', hs', hx, ha'⟩ := ha.next hs (r.valid t).1
    rw [← (r.valid t).2] at ha'
    exact ⟨⟨h', hs', ha'⟩, hx⟩
  let H : ∀ t, Told t := fun t => Nat.rec
    ⟨History.initial, History.initial_sound members, accounts_initial r.start⟩
    (fun t h => Classical.choose (hnext t h)) t
  refine ⟨fun t => (H t).1, fun t => (H t).2.1, fun t => (H t).2.2, fun {t u} htu => ?_⟩
  induction htu with
  | refl => exact .refl _
  | step _ ih => exact ih.trans (Classical.choose_spec (hnext _ _))

end RaftNode.Protocol
