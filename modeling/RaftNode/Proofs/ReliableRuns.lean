import RaftNode.Machine.KeyValue
import RaftNode.Proofs.OpenRuns
import RaftNode.Proofs.Safety
import RaftNode.Proofs.Unbroken
/-!
# Runs over reliable stores

Every snapshot of a run, kept or on its way, was taken of a machine. So no event halts a member whose store works,
as long as terms and indexes stay within the 64 bits, and a member can always boot.
-/
namespace RaftNode

open RaftNode.Action (wp)
open History (Sound)

variable {σ μ : Type} [LogStore σ] [LawfulStore σ] [StateMachine μ] [LawfulMachine μ]
  {members : Finset NodeId} {h : History} {i s : NodeId} {n : Node σ μ} {X : Prop} {α : Type}

/-- The next term and the next index stay within the 64 bits. -/
structure Node.HasRoom (n : Node σ μ) : Prop where
  term : n.term + 1 < wordLimit
  index : n.log.lastIndex + 1 < wordLimit

/-- So do the indexes that a message speaks of, and the one after a snapshot. -/
def Request.HasRoom : Request → Prop
  | .vote _ => True
  | .append q => q.prevIndex + q.entries.length < wordLimit
  | .install q => q.index + 1 < wordLimit

omit [LogStore σ] [LawfulStore σ] [StateMachine μ] [LawfulMachine μ] in
theorem Node.full_of_index (hX : ¬ n.HasRoom → X) (hle : wordLimit ≤ n.log.lastIndex + 1) : X :=
  hX fun hroom => absurd hroom.index (not_lt.mpr hle)

theorem Node.Fares.silent {x : NodeAction σ μ α} {P : α → Node σ μ → Prop}
    (hx : Node.Fares X x P n) :
    Node.Fares X ((fun _ => []) <$> x) (fun qs _ => Portable μ qs) n := by
  rw [Node.Fares, Action.wp_map]
  refine Action.wp_imp hx ?_
  rintro _ n' ⟨hn', hs, -⟩
  exact ⟨hn', hs, portable_nil⟩

namespace Runs

theorem fares_command (hs : Sound members h) (hr : Runs members h i n) (hn : n.Sane)
    (hX : ¬ n.HasRoom → X) (m : Moment) (c : Protocol.Command) :
    Node.Fares X (c.run m) (fun qs _ => Portable μ qs) n := by
  have hI : wordLimit ≤ n.log.lastIndex + 1 → X := Node.full_of_index hX
  cases c with
  | stand =>
    exact hr.fares_startElection hs hn (fun hle => hX fun hroom => absurd hroom.term (not_lt.mpr hle))
      hI m
  | heartbeat => exact fares_heartbeat hs hr hn m
  | replicate => exact fares_replicate hs hr hn m
  | propose command => exact (fares_propose hs hr hn hI command).silent
  | apply => exact (hr.fares_applyCommitted hs hn hI).silent
  | snapshot => exact (hr.fares_takeSnapshot hn).silent

theorem fares_onRequest (hs : Sound members h) (hr : Runs members h i n) (hn : n.Sane)
    (hX : ¬ n.HasRoom → X) (m : Moment) {request : Request}
    (hq : Requests members h s request) (hdata : request.Describes μ)
    (hX' : ¬ request.HasRoom → X) :
    Node.Fares X (Node.onRequest m request) (fun _ _ => True) n := by
  cases request with
  | vote q => exact (Node.fares_onVoteRequest hn m q).seq fun _ _ hn' _ => .pure hn' trivial
  | append q =>
    exact (hr.fares_onAppendRequest hs hn (Node.full_of_index hX) m hq fun hle =>
      hX' (not_lt.mpr hle)).seq fun _ _ hn' _ => .pure hn' trivial
  | install q =>
    exact (hr.fares_onInstallRequest hs hn m hdata fun hle => hX' (not_lt.mpr hle)).seq
      fun _ _ hn' _ => .pure hn' trivial

theorem fares_onResponse (hs : Sound members h) (hr : Runs members h i n) (hn : n.Sane)
    (hX : ¬ n.HasRoom → X) (m : Moment) {r : Response} (hl : Learns members h i r) :
    Node.Fares X (Node.onResponse m r) (fun qs _ => Portable μ qs) n := by
  have hI : wordLimit ≤ n.log.lastIndex + 1 → X := Node.full_of_index hX
  cases r with
  | vote peer sentTerm r => exact hr.fares_onVoteReply hs hn hI m hl
  | append peer sent r => exact hr.fares_onAppendReply hs hn hI m hl
  | install peer sentTerm index r => exact hr.fares_onInstallReply hs hn hI m hl
  | unreachable peer sentTerm =>
    exact (Node.fares_onUnreachable hn peer sentTerm).seq fun _ _ hn' _ => .pure hn' portable_nil

end Runs

/-- How an action ends early, if it does. -/
def Action.fault? {ε τ : Type} (x : Action ε τ α) (s : τ) : Option (Fault ε) :=
  match x s with
  | .ok .. => none
  | .error f _ => some f

theorem Action.wp_fault? {ε τ : Type} {x : Action ε τ α} {s : τ} {Q : α → τ → Prop}
    {E : Fault ε → τ → Prop} (hx : wp x Q E s) {f : Fault ε} (hf : x.fault? s = some f) :
    ∃ t, E f t := by
  unfold Action.fault? at hf
  split at hf
  · cases hf
  · rename_i f' t hr
    obtain rfl := Option.some.inj hf
    exact ⟨t, Action.wp_error hx hr⟩

namespace Protocol

section

variable {σ μ : Type} [LogStore σ] [StateMachine μ]

/-- The member whose program runs in an event. -/
def Event.member? : Event σ μ → Option NodeId
  | .boot i .. | .act i .. | .answer i .. => some i
  | .deliver _ message _ => some message.target
  | .giveUp sender .. => some sender
  | .crash _ | .disturb .. | .idle => none

/-- How an event ends early at a member, if it does. -/
def Life.fault? (x : NodeAction σ μ α) : Life σ μ → Option (Fault NodeError)
  | .up n => x.fault? n
  | .down _ => none

/-- How an event ends early, if it does. -/
def Event.fault? (s : State σ μ) : Event σ μ → Option (Fault NodeError)
  | .boot i peers machine config m =>
    Action.fault? (Node.boot i peers machine config m) (storeOf (s.life i))
  | .act i c m => Life.fault? (c.run m) (s.life i)
  | .deliver _ message m => Life.fault? (Node.onRequest m message.request) (s.life message.target)
  | .answer i r m => Life.fault? (Node.onResponse m r) (s.life i)
  | .giveUp sender message m => Life.fault? (Node.onResponse m message.lost) (s.life sender)
  | .crash _ | .disturb .. | .idle => none

/-- Terms and indexes in the event stay within the 64 bits. -/
structure Event.HasRoom (s : State σ μ) (e : Event σ μ) : Prop where
  member : ∀ i n, e.member? = some i → s.life i = .up n → n.HasRoom
  request : ∀ i q, e.input i = some q → q.HasRoom

end

/-- A member boots with a machine that its program can hold. -/
def Event.Fit : Event σ μ → Prop
  | .boot _ _ machine _ _ => RaftNode.Fit machine
  | _ => True

def LifeSane : Life σ μ → Prop
  | .up n => n.Sane
  | .down store => (kept store).Describes μ

/-- All machines, and all snapshots of machines, are what they should be. -/
structure Healthy (s : State σ μ) : Prop where
  life : ∀ i, LifeSane (s.life i)
  sent : ∀ p ∈ s.sent, p.2.request.Describes μ

variable {st : State σ μ} {e : Event σ μ}

theorem LifeSane.describes {l : Life σ μ} (hl : LifeSane l) : (kept (storeOf l)).Describes μ := by
  cases l with
  | up n => exact Node.Sane.snapshot hl
  | down store => exact hl

/-- What a handler never does to a node whose store works, an event never does to a member. -/
theorem LifeSane.mild {l : Life σ μ} (hl : LifeSane l) (hlives : Lives members h i l)
    (hstore : Reliable (storeOf l)) {x : NodeAction σ μ α} {P : α → Node σ μ → Prop}
    (hx : ∀ n, l = .up n → Runs members h i n → n.Sane → Node.Fares X x P n)
    {f : Fault NodeError} (hf : Life.fault? x l = some f) : f.Mild X := by
  cases l with
  | down store => cases hf
  | up n =>
    obtain ⟨n', -, hmild⟩ := Action.wp_fault? (hx n rfl hlives hl) hf
    exact hmild hstore

theorem healthy_initial (hs : Initial st) : Healthy st where
  life i := by
    obtain ⟨store, hl, hk⟩ := hs.down i
    rw [hl, LifeSane, hk]
    exact nofun
  sent p hp := by
    rw [hs.sent] at hp
    cases hp

namespace Healthy

theorem update (hh : Healthy st) {l : Life σ μ} (hl : LifeSane l) :
    Healthy { st with life := Function.update st.life i l } where
  life v := by
    dsimp only
    by_cases hv : v = i
    · subst hv
      rwa [Function.update_self]
    · rw [Function.update_of_ne hv]
      exact hh.life v
  sent := hh.sent

/-- What one step of one member preserves. -/
theorem perform (hh : Healthy st) (ha : Accounts members h st) {x : NodeAction σ μ α}
    {Q : History → α → Prop} {P : α → Prop}
    (hx : ∀ n, Runs members h i n → Steps members h i x Q n)
    (hf : ∀ n, Runs members h i n → n.Sane → Node.Fares True x (fun a _ => P a) n) :
    Healthy (perform st i x).2 ∧ ∀ a, (Protocol.perform st i x).1 = some a → P a := by
  have hlives := ha.life i
  have hsane := hh.life i
  cases hlife : st.life i with
  | down store =>
    rw [perform_down hlife]
    exact ⟨hh, nofun⟩
  | up n =>
    rw [hlife] at hlives hsane
    have hfares := hf n hlives hsane
    cases hres : x n with
    | ok a n' =>
      obtain ⟨hn', -, hP⟩ := Action.wp_ok hfares hres
      rw [perform_ok hlife hres]
      exact ⟨hh.update (l := .up n') hn', fun b hb => Option.some.inj hb ▸ hP⟩
    | error f n' =>
      rw [perform_error hlife hres]
      refine ⟨hh.update ?_, nofun⟩
      -- an error that does not halt the node leaves it as it was
      rcases Action.wp_error (hx n hlives) hres with ⟨hhalts, -⟩ | ⟨hgo, rfl⟩
      · rw [if_pos hhalts]
        exact (Action.wp_error hfares hres).1
      · rw [hgo]
        exact hsane

theorem send (hh : Healthy st) (ha : Accounts members h st) {x : NodeAction σ μ (List Outbound)}
    {Q : History → List Outbound → Prop}
    (hx : ∀ n, Runs members h i n → Steps members h i x Q n)
    (hf : ∀ n, Runs members h i n → n.Sane → Node.Fares True x (fun qs _ => Portable μ qs) n) :
    Healthy (send st i x) := by
  obtain ⟨hh', hqs⟩ := hh.perform ha hx hf
  refine ⟨hh'.life, fun p hp => ?_⟩
  rcases mem_sent_send hp with hold | ⟨qs, hres, -, hnew⟩
  · exact hh'.sent p hold
  · exact hqs qs hres p.2 hnew

theorem wp_boot (hs : Sound members h) (ha : Accounts members h st) (hh : Healthy st)
    {machine : μ} (hfit : RaftNode.Fit machine) (i : NodeId) (peers : List NodeId)
    (config : Config) (m : Moment) :
    wp (Node.boot i peers machine config m) (fun n _ => n.Sane)
      (fun _ t => (kept t).Describes μ ∧ ¬ Reliable (storeOf (st.life i))) (storeOf (st.life i)) :=
  Node.wp_boot_sane (hh.life i).describes (ha.life i).stored.log
    ((hs.paths.log i).ascending hs.paths) hfit peers config m

/-- What one event preserves. -/
theorem next (hs : Sound members h) (ha : Accounts members h st) (hh : Healthy st)
    (he : Enabled members st e) (hfit : e.Fit) : Healthy (next st e) := by
  cases e with
  | boot i peers machine config m =>
    have hboot := wp_boot hs ha hh hfit i peers config m
    simp only [Protocol.next]
    split
    · rename_i hres
      have hn := Action.wp_ok hboot hres
      exact hh.update (l := .up _) hn
    · rename_i hres
      exact hh.update (l := .down _) (Action.wp_error hboot hres).1
  | crash i => exact hh.update (l := .down _) (hh.life i).describes
  | disturb i store =>
    refine hh.update ?_
    have hkept : (kept store).Describes μ := by
      rw [show kept store = _ from he]
      exact (hh.life i).describes
    have hsane := hh.life i
    cases hlife : st.life i with
    | up n =>
      rw [hlife] at hsane
      exact Node.Sane.mk hsane.machine hkept
    | down _ => exact hkept
  | act i c m =>
    exact hh.send ha (fun n hr => steps_command hs hr m c)
      fun n hr hn => hr.fares_command hs hn (fun _ => trivial) m c
  | deliver sender message m =>
    have hsends := ha.sent _ he
    have hne : sender ≠ message.target := fun e => (Finset.mem_erase.mp hsends.target).1 e.symm
    have hh' := (hh.perform ha (fun n hr => steps_request hs hr m hsends.request hne)
      fun n hr hn => hr.fares_onRequest hs hn (fun _ => trivial) m hsends.request (hh.sent _ he)
        fun _ => trivial).1
    exact ⟨hh'.life, hh'.sent⟩
  | answer i r m =>
    exact hh.send ha (fun n hr => steps_response hs hr m (ha.answers _ he))
      fun n hr hn => hr.fares_onResponse hs hn (fun _ => trivial) m (ha.answers _ he)
  | giveUp sender message m =>
    have hl : Learns members h sender message.lost := trivial
    exact hh.send ha (fun n hr => steps_response hs hr m hl)
      fun n hr hn => hr.fares_onResponse hs hn (fun _ => trivial) m hl
  | idle => exact hh

/-- No event halts a member whose store works, unless a number grows out of its 64 bits. -/
theorem mild_fault (hs : Sound members h) (ha : Accounts members h st) (hh : Healthy st)
    (he : Enabled members st e) (hfit : e.Fit) {i : NodeId} (hi : e.member? = some i)
    (hstore : Reliable (storeOf (st.life i))) {f : Fault NodeError} (hf : e.fault? st = some f) :
    f.Mild (¬ e.HasRoom st) := by
  have hroom : ∀ n, st.life i = .up n → ¬ n.HasRoom → ¬ e.HasRoom st :=
    fun n hlife hn hroom => hn (hroom.member i n hi hlife)
  cases e with
  | boot j peers machine config m =>
    obtain rfl := Option.some.inj hi
    obtain ⟨t, -, hfail⟩ := Action.wp_fault? (wp_boot hs ha hh hfit j peers config m) hf
    exact absurd hstore hfail
  | act j c m =>
    obtain rfl := Option.some.inj hi
    exact (hh.life j).mild (ha.life j) hstore
      (fun n hlife hr hn => hr.fares_command hs hn (hroom n hlife) m c) hf
  | deliver sender message m =>
    obtain rfl := Option.some.inj hi
    have hrequest : ¬ message.request.HasRoom → ¬ Event.HasRoom st (.deliver sender message m) :=
      fun hn hroom => hn (hroom.request message.target _ (if_pos rfl))
    exact (hh.life _).mild (ha.life _) hstore
      (fun n hlife hr hn => hr.fares_onRequest hs hn (hroom n hlife) m (ha.sent _ he).request
        (hh.sent _ he) hrequest) hf
  | answer j r m =>
    obtain rfl := Option.some.inj hi
    exact (hh.life j).mild (ha.life j) hstore
      (fun n hlife hr hn => hr.fares_onResponse hs hn (hroom n hlife) m (ha.answers _ he)) hf
  | giveUp sender message m =>
    obtain rfl := Option.some.inj hi
    have hl : Learns members h sender message.lost := trivial
    exact (hh.life sender).mild (ha.life sender) hstore
      (fun n hlife hr hn => hr.fares_onResponse hs hn (hroom n hlife) m hl) hf
  | crash _ => cases hi
  | disturb _ _ => cases hi
  | idle => cases hi

end Healthy

variable {r : Run members σ μ} {H : ℕ → History}

theorem Chronicle.healthy (hc : Chronicle r H) (hfit : ∀ t, (r.event t).Fit) (t : ℕ) :
    Healthy (r.state t) := by
  induction t with
  | zero => exact healthy_initial r.start
  | succ t ih =>
    rw [(r.valid t).2]
    exact ih.next (hc.sound t) (hc.accounts t) (r.valid t).1 (hfit t)

/-- Member 2 crashes between the two writes of its first vote, boots and votes again, so that member 1 leads. -/
def interruption : List (Event (Recorded MemoryStore) KeyValue) := [
  .boot 1 [2, 3] {} {} {},
  .boot 2 [1, 3] {} {} {},
  .act 1 .stand {},
  .disturb 2 { inner := {}, budget := some 1 },
  .deliver 1 ⟨2, .vote ⟨1, 1, 0, 0⟩⟩ {},
  .disturb 2 { inner := { kept := { hard := ⟨1, none⟩ } } },
  .boot 2 [1, 3] {} {} {},
  .deliver 1 ⟨2, .vote ⟨1, 1, 0, 0⟩⟩ {},
  .answer 1 (.vote 2 1 ⟨1, true⟩) {}]

def resting : State (Recorded MemoryStore) KeyValue := { life := fun _ => .down { inner := {} } }

theorem resting_initial : Initial resting := ⟨fun _ => ⟨{ inner := {} }, rfl, rfl⟩, rfl, rfl⟩

theorem interruption_playable : Playable {1, 2, 3} resting interruption := by decide +kernel

def interruptedRun : Run {1, 2, 3} (Recorded MemoryStore) KeyValue :=
  .play resting_initial interruption_playable

theorem interrupted_fit (t : ℕ) : (interruptedRun.event t).Fit := by
  have hfresh : Fit ({} : KeyValue) := ⟨List.Pairwise.nil, by decide⟩
  have hall : ∀ e ∈ interruption, e.Fit := by
    simp only [interruption, List.forall_mem_cons]
    exact ⟨hfresh, hfresh, trivial, trivial, trivial, trivial, hfresh, trivial, trivial, nofun⟩
  change (interruption.getD t .idle).Fit
  rw [List.getD_eq_getElem?_getD]
  cases he : interruption[t]? with
  | none => trivial
  | some e => exact hall e (List.mem_of_getElem? he)

theorem interrupted_hasRoom : (interruptedRun.event 7).HasRoom (interruptedRun.state 7) where
  member i n hi hlife := by
    obtain rfl := Option.some.inj hi
    obtain ⟨n', hn', hterm, hindex⟩ : ∃ n, interruptedRun.node? 7 2 = some n ∧
        n.term + 1 < wordLimit ∧ n.log.lastIndex + 1 < wordLimit :=
      exists_of_any (by decide +kernel)
    rw [Run.node?, State.node?, show (interruptedRun.state 7).life 2 = .up n from hlife] at hn'
    obtain rfl := Option.some.inj hn'
    exact ⟨hterm, hindex⟩
  request i q hq := by
    rw [show interruptedRun.event 7 = .deliver 1 ⟨2, .vote ⟨1, 1, 0, 0⟩⟩ {} from rfl,
      Event.input] at hq
    split at hq
    · obtain rfl := Option.some.inj hq
      trivial
    · cases hq

/-- Over a reliable store no event of a member ends with a fatal error, whatever happened before, and none aborts
while terms and indexes stay within the 64 bits. A member that boots comes up. -/
theorem Run.no_fatal_error (r : Run members σ μ) (hfit : ∀ t, (r.event t).Fit) {t : ℕ} {i : NodeId}
    (hi : (r.event t).member? = some i) (hstore : Reliable (storeOf ((r.state t).life i))) :
    (∀ e, (r.event t).fault? (r.state t) = some (.error e) → e.isFatal = false) ∧
    ((r.event t).HasRoom (r.state t) → (r.event t).fault? (r.state t) ≠ some .abort) ∧
    ∀ peers machine config m, r.event t = .boot i peers machine config m →
      ∃ n, r.node? (t + 1) i = some n := by
  obtain ⟨H, hc⟩ := r.exists_chronicle
  have hmild : ∀ f, (r.event t).fault? (r.state t) = some f →
      f.Mild (¬ (r.event t).HasRoom (r.state t)) := fun f =>
    (hc.healthy hfit t).mild_fault (hc.sound t) (hc.accounts t) (r.valid t).1 (hfit t) hi hstore
  refine ⟨fun e he => ?_, fun hroom habort => ?_, fun peers machine config m hboot => ?_⟩
  · obtain hgo | ⟨hne, -⟩ := hmild _ he
    · exact hgo
    · cases hne
  · obtain hgo | ⟨-, hfull⟩ := hmild _ habort
    · cases hgo
    · exact hfull hroom
  · have hwp := Healthy.wp_boot (hc.sound t) (hc.accounts t) (hc.healthy hfit t)
      (hboot ▸ hfit t : Event.Fit (.boot i peers machine config m)) i peers config m
    rw [Run.node?, (r.valid t).2, hboot, State.node?]
    simp only [next]
    cases hres : Node.boot i peers machine config m (storeOf ((r.state t).life i)) with
    | ok n t' => exact ⟨n, by simp only [Function.update_self]⟩
    | error f t' => exact absurd hstore (Action.wp_error hwp hres).2

/-- Member 2 boots after the crash, and is asked for its vote again. -/
theorem no_fatal_error_interrupted : (∃ n, interruptedRun.node? 7 2 = some n) ∧
    (interruptedRun.event 7).member? = some 2 ∧
    Reliable (storeOf ((interruptedRun.state 7).life 2)) ∧
    (∀ e, (interruptedRun.event 7).fault? (interruptedRun.state 7) = some (.error e) →
      e.isFatal = false) ∧
    (interruptedRun.event 7).fault? (interruptedRun.state 7) ≠ some .abort := by
  have hdown : Reliable (storeOf ((interruptedRun.state 6).life 2)) :=
    reliable_recorded (reliable_memory (by decide +kernel)) (by decide +kernel) (by decide +kernel)
  have hup : Reliable (storeOf ((interruptedRun.state 7).life 2)) :=
    reliable_recorded (reliable_memory (by decide +kernel)) (by decide +kernel) (by decide +kernel)
  obtain ⟨-, -, hboot⟩ := interruptedRun.no_fatal_error interrupted_fit rfl hdown
  obtain ⟨hfatal, habort, -⟩ := interruptedRun.no_fatal_error interrupted_fit rfl hup
  exact ⟨hboot _ _ _ _ rfl, rfl, hup, hfatal, habort interrupted_hasRoom⟩

end Protocol

end RaftNode
