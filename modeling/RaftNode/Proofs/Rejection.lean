import Mathlib
import RaftNode.Machine.KeyValue
import RaftNode.Proofs.Ballots
import RaftNode.Proofs.Replying
/-!
# Snapshots that a machine rejects

A snapshot from a leader is stored before the machine is asked to restore it. If the machine rejects it, the node halts,
and the snapshot stays: every boot from then on meets it again, and what it took the place of is gone.
-/
namespace RaftNode

open RaftNode.Action (wp)
open RaftNode.Node (Occasion)

variable {σ μ : Type} [LogStore σ] [StateMachine μ]

namespace StateMachine

/-- What a snapshot restores does not depend on the state that it replaces. -/
def Blind (μ : Type) [StateMachine μ] : Prop :=
  ∀ (old old' : μ) (data : Bytes), restore old data = restore old' data

theorem blind_journal : Blind Journal := fun _ _ _ => rfl

theorem blind_keyValue : Blind KeyValue := fun _ _ _ => rfl

/-- Every machine can take its state from the data. -/
def Restores (μ : Type) [StateMachine μ] (data : Bytes) : Prop :=
  ∀ old : μ, ∃ machine, restore old data = .ok machine

variable {data : Bytes} {old : μ}

theorem Blind.restores (h : Blind μ) {machine : μ} (hr : restore old data = .ok machine) : Restores μ data :=
  fun other => ⟨machine, (h other old data).trans hr⟩

theorem not_restores {reason : String} (hr : restore old data = .error reason) : ¬ Restores μ data := by
  intro h
  obtain ⟨machine, hok⟩ := h old
  rw [hr] at hok
  cases hok

end StateMachine

open StateMachine (Blind Restores)

/-! ## Booting -/

/-- A faithful store is opened with the snapshot that it holds. -/
theorem Log.wp_boot_faithful {Holds : σ → Persisted → Prop} (hstore : Faithful Holds) {s : σ} {p : Persisted}
    (hs : Holds s p) : wp (Log.boot : Action NodeError σ (Log.Recovered σ)) (fun r _ => r.snapshot = p.snapshot)
      (fun _ _ => False) s := by
  simp only [Log.boot, Action.wp_bind, Action.wp_within]
  refine Action.wp_imp (hstore.load hs) ?_
  rintro _ t ⟨rfl, ht⟩
  split
  · rename_i stale _
    rw [Action.wp_bind, Action.wp_within]
    exact Action.wp_imp (hstore.perform ht (w := .truncate stale.index) trivial) fun _ _ _ => rfl
  · rfl

theorem Log.snapshotIndex_le_of_termAt? {τ : Type} {l : Log τ} {i : Index} {t : Term} (h : l.termAt? i = some t) :
    l.snapshotIndex ≤ i := by
  by_contra hlt
  have hlow : i < l.snapshotIndex := by lia
  rw [Log.termAt?, if_neg hlow.ne, Log.entry?, if_pos hlow.le] at h
  cases h

/-- Over a store that works, a snapshot is taken over or left alone. -/
theorem Log.wp_install_reliable {τ : Type} [LogStore τ] [LawfulStore τ] {l : Log τ} (hl : Reliable l.store)
    (snap : Snapshot) : wp (Log.install snap)
      (fun taken l' => if taken then Reliable l'.store ∧ (kept l'.store).snapshot = some snap ∧
        ∀ e ∈ (kept l'.store).entries, snap.index < e.index else l' = l)
      (fun f l' => f = .abort ∧ l' = l) l := by
  have hkeeps : ∀ {p : Persisted} {s : τ}, kept s = (Write.install snap).change p →
      (kept s).snapshot = some snap ∧ ∀ e ∈ (kept s).entries, snap.index < e.index := by
    intro p s hkept
    rw [hkept]
    exact ⟨rfl, fun e he => of_decide_eq_true (List.mem_filter.mp he).2⟩
  simp only [Log.install, Action.wp_bind, Action.wp_get, Action.wp_ite, Action.wp_modify, Action.wp_pure,
    Action.wp_add, Action.wp_sub]
  split
  · trivial
  split
  · rename_i hterm
    refine Log.completes_write hl (.install snap) fun s hs hkept => ?_
    rw [if_pos (Log.snapshotIndex_le_of_termAt? hterm)]
    exact ⟨hs, hkeeps hkept⟩
  · split
    · refine Log.completes_write hl (.truncate (snap.index + 1)) fun s hs _ => ?_
      exact Log.completes_write hs (.install snap) fun s' hs' hkept => ⟨hs', hkeeps hkept⟩
    · exact ⟨trivial, trivial⟩

namespace Node

/-- Whoever boots from the store comes up. -/
def Bootable (μ : Type) [StateMachine μ] (store : σ) : Prop :=
  ∀ (id : NodeId) (peers : List NodeId) (machine : μ) (config : Config) (m : Moment),
    ∃ n t, boot id peers machine config m store = .ok n t

omit [LogStore σ] in
theorem exists_ofRecovered {r : Log.Recovered σ} {machine : μ}
    (h : ∀ snap, r.snapshot = some snap → Restores μ snap.data) (id : NodeId) (peers : List NodeId) (config : Config)
    (m : Moment) : ∃ n, ofRecovered id peers r machine config m = .ok n := by
  unfold ofRecovered
  cases hsnap : r.snapshot with
  | none => exact ⟨_, rfl⟩
  | some snap =>
    obtain ⟨restored, hrestore⟩ := h snap hsnap machine
    dsimp only
    rw [hrestore]
    exact ⟨_, rfl⟩

/-- Whoever boots from a store with a snapshot has restored it. -/
theorem wp_boot_restores {store : σ} {snap : Snapshot} {P : σ → Prop}
    (h : wp Log.boot (fun r t => r.snapshot = some snap ∧ P t) (fun (_ : Fault NodeError) t => P t) store)
    (id : NodeId) (peers : List NodeId) (machine : μ) (config : Config) (m : Moment) :
    wp (boot id peers machine config m)
      (fun _ t => P t ∧ ∃ restored, StateMachine.restore machine snap.data = .ok restored) (fun _ t => P t) store := by
  rw [boot, Action.wp_bind]
  refine Action.wp_imp h ?_
  rintro r t ⟨hsnap, ht⟩
  split
  · rename_i n hn
    obtain ⟨restored, ⟨hnone, -⟩ | ⟨snap', hsome, hrestore⟩, -⟩ := ofRecovered_ok hn
    · rw [hsnap] at hnone
      cases hnone
    · rw [hsnap] at hsome
      cases hsome
      exact ⟨ht, restored, hrestore⟩
  · exact ht

/-- It depends on the snapshot alone whether a store can be booted from. -/
theorem bootable_iff {Holds : σ → Persisted → Prop} (hstore : Faithful Holds) {s : σ} {p : Persisted}
    (hs : Holds s p) : Bootable μ s ↔ ∀ snap, p.snapshot = some snap → Restores μ snap.data := by
  constructor
  · intro h snap hsome old
    obtain ⟨n, t, hboot⟩ := h 0 [] old {} {}
    have hopen : wp Log.boot (fun r _ => r.snapshot = some snap ∧ True) (fun (_ : Fault NodeError) _ => True) s :=
      Action.wp_mono (Log.wp_boot_faithful hstore hs) (fun _ _ hr => ⟨hr.trans hsome, trivial⟩) fun _ _ => False.elim
    exact (Action.wp_ok (wp_boot_restores hopen 0 [] old {} {}) hboot).2
  · intro h id peers machine config m
    have hwp : wp (boot id peers machine config m) (fun _ _ => True) (fun _ _ => False) s := by
      rw [boot, Action.wp_bind]
      refine Action.wp_imp (Log.wp_boot_faithful hstore hs) ?_
      intro r t hsnap
      obtain ⟨n, hn⟩ := exists_ofRecovered (r := r) (fun snap he => h snap (hsnap ▸ he)) id peers config m
      rw [hn]
      trivial
    obtain ⟨n, t, hboot, -⟩ := Action.wp_exists hwp
    exact ⟨n, t, hboot⟩

/-! ## One request -/

variable {n : Node σ μ} {q : InstallRequest}

/-- The request ends with the error that its data cannot be restored. -/
def Rejects (n : Node σ μ) (m : Moment) (q : InstallRequest) : Prop :=
  ∃ reason n', onInstallRequest m q n = .error (.error (.snapshotCorruption reason)) n'

theorem after_onRequest_install (m : Moment) (q : InstallRequest) (n : Node σ μ) :
    (onRequest m (.install q)).after n = (onInstallRequest m q).after n := by
  simp only [onRequest, Action.after, bind, EStateM.bind]
  cases onInstallRequest m q n <;> rfl

/-- The two stages of a request, `P` of the log until the snapshot is taken over and `Q` from then on: the machine is
asked in the second. -/
theorem wp_onInstallRequest_stages {P Q : Log σ → Prop} (h : P n.log)
    (hsave : ∀ l, P l → wp (Log.saveHard ⟨q.term, none⟩) (fun _ l' => P l') (fun _ _ => False) l)
    (hinstall : ∀ l, P l → wp (Log.install ⟨q.index, q.snapshotTerm, q.data⟩)
      (fun taken l' => if taken then Q l' else P l') (fun f l' => f = .abort ∧ P l') l) (m : Moment) :
    wp (onInstallRequest m q)
      (fun _ n' => P n'.log ∨ Q n'.log ∧ ∃ machine, StateMachine.restore n.machine q.data = .ok machine)
      (fun f n' => f = .abort ∧ P n'.log ∨ ∃ reason, f = .error (.snapshotCorruption reason) ∧
        StateMachine.restore n.machine q.data = .error reason ∧ Q n'.log) n := by
  rw [onInstallRequest, Action.wp_bind, Action.wp_get, Action.wp_ite]
  split
  · exact Or.inl h
  rw [Action.wp_bind]
  refine Action.wp_mono (Action.wp_and (wp_follow_of_saveHard (hsave _ h) h m q.leader)
    (wp_follow_turns m q.term q.leader n)) ?_ fun _ _ hf => hf.1.elim
  rintro - n₁ ⟨h₁, hturns⟩
  rw [Action.wp_bind, wp_onLog]
  refine Action.wp_mono (hinstall _ h₁) ?_ fun _ _ hf => Or.inl hf
  rintro taken l htaken
  simp only [Action.wp_ite, Action.wp_bind, Action.wp_get, Action.wp_pure]
  cases taken with
  | false => exact Or.inl htaken
  | true =>
    rw [if_pos rfl, hturns.machine]
    split
    · rename_i reason hreason
      exact Or.inr ⟨reason, rfl, hreason, htaken⟩
    · rename_i machine hmachine
      exact Or.inr ⟨htaken, machine, hmachine⟩

theorem bootable_after_stages (hμ : Blind μ) {P Q : Log σ → Prop} (h : P n.log)
    (hsave : ∀ l, P l → wp (Log.saveHard ⟨q.term, none⟩) (fun _ l' => P l') (fun _ _ => False) l)
    (hinstall : ∀ l, P l → wp (Log.install ⟨q.index, q.snapshotTerm, q.data⟩)
      (fun taken l' => if taken then Q l' else P l') (fun f l' => f = .abort ∧ P l') l)
    (hold : ∀ l, P l → Bootable μ l.store) (hnew : ∀ l, Q l → (Bootable μ l.store ↔ Restores μ q.data)) (m : Moment) :
    (Bootable μ ((onInstallRequest m q).after n).log.store ↔ ¬ n.Rejects m q) ∧
      (n.Rejects m q → Q ((onInstallRequest m q).after n).log ∧ ¬ Restores μ q.data) := by
  have hwp := wp_onInstallRequest_stages h hsave hinstall m
  have hfine : ∀ {n' : Node σ μ}, (onInstallRequest m q).after n = n' → Bootable μ n'.log.store → ¬ n.Rejects m q →
      (Bootable μ ((onInstallRequest m q).after n).log.store ↔ ¬ n.Rejects m q) ∧
        (n.Rejects m q → Q ((onInstallRequest m q).after n).log ∧ ¬ Restores μ q.data) := by
    rintro _ rfl hboot hnot
    exact ⟨iff_of_true hboot hnot, fun hr => absurd hr hnot⟩
  cases hx : onInstallRequest m q n with
  | ok a n' =>
    have hafter : (onInstallRequest m q).after n = n' := by rw [Action.after, hx]
    refine hfine hafter ?_ ?_
    · obtain hP | ⟨hQ, machine, hmachine⟩ := Action.wp_ok hwp hx
      · exact hold _ hP
      · exact (hnew _ hQ).mpr (hμ.restores hmachine)
    · rintro ⟨reason, n'', he⟩
      rw [hx] at he
      cases he
  | error f n' =>
    have hafter : (onInstallRequest m q).after n = n' := by rw [Action.after, hx]
    obtain ⟨rfl, hP⟩ | ⟨reason, rfl, hreason, hQ⟩ := Action.wp_error hwp hx
    · refine hfine hafter (hold _ hP) ?_
      rintro ⟨reason, n'', he⟩
      rw [hx] at he
      cases he
    · have hnot := StateMachine.not_restores hreason
      rw [hafter]
      exact ⟨iff_of_false (fun hb => hnot ((hnew _ hQ).mp hb)) (fun hr => hr ⟨reason, n', hx⟩), fun _ => ⟨hQ, hnot⟩⟩

/-- The store has the snapshot of a request, and nothing that the snapshot covers. -/
structure Covered (q : InstallRequest) (p : Persisted) : Prop where
  snapshot : p.snapshot = some ⟨q.index, q.snapshotTerm, q.data⟩
  entries : ∀ e ∈ p.entries, q.index < e.index

/-- The store of a log, in memory or in files, can be booted from after the request if and only if the machine has not
rejected the snapshot. -/
theorem bootable_after_install_backed {Holds : σ → Persisted → Prop} (hstore : Faithful Holds) (hμ : Blind μ)
    {p : Persisted} (hl : n.log.Tidy) (hb : n.log.Backed Holds p) (hboot : Bootable μ n.log.store)
    (hterm : q.term < wordLimit) (hsnap : q.snapshotTerm < wordLimit) (hroom : q.index + 1 < wordLimit) (m : Moment) :
    (Bootable μ ((onInstallRequest m q).after n).log.store ↔ ¬ n.Rejects m q) ∧
      (n.Rejects m q → (∃ p', Holds ((onInstallRequest m q).after n).log.store p' ∧ Covered q p') ∧
        ¬ Restores μ q.data) := by
  have hfits : LawfulWire.Fits (⟨q.index, q.snapshotTerm, q.data⟩ : Snapshot) :=
    ⟨show q.index < wordLimit by lia, hsnap⟩
  refine bootable_after_stages hμ (P := fun l => l.Tidy ∧ ∃ hard, l.Backed Holds { p with hard })
    (Q := fun l => ∃ p', Holds l.store p' ∧ Covered q p') ⟨hl, p.hard, hb⟩ ?save ?install ?old ?new m
  case save =>
    rintro l ⟨htidy, hard, hbacked⟩
    have hnew : LawfulWire.Fits (⟨q.term, none⟩ : HardState) := ⟨hterm, by simp⟩
    refine Log.wp_onStore_obliging hstore.toObliging hbacked.holds (w := .hard ⟨q.term, none⟩) hnew fun s hs => ?_
    exact ⟨htidy.withStore s, _, hs, hbacked.entries, hbacked.covered⟩
  case install =>
    rintro l ⟨htidy, hard, hbacked⟩
    refine Action.wp_mono (hbacked.wp_install hstore.toObliging htidy hfits hroom) ?_ fun _ _ => False.elim
    rintro taken l' ⟨p', hbacked', htaken⟩
    cases taken with
    | false =>
      obtain ⟨rfl, rfl⟩ := htaken
      exact ⟨htidy, hard, hbacked⟩
    | true => exact ⟨p', hbacked'.holds, htaken.1, htaken.2⟩
  case old =>
    rintro l ⟨-, hard, hbacked⟩
    exact (bootable_iff hstore hbacked.holds).mpr ((bootable_iff hstore hb.holds).mp hboot)
  case new =>
    rintro l ⟨p', hs, hcovered⟩
    rw [bootable_iff hstore hs, hcovered.snapshot]
    exact ⟨fun h => h _ rfl, fun h _ he => Option.some.inj he ▸ h⟩

variable [LawfulStore σ]

/-- The store of a node that works, whatever its log holds, can be booted from after the request if and only if the
machine has not rejected the snapshot. -/
theorem bootable_after_install_reliable (hμ : Blind μ) (hs : Reliable n.log.store) (hboot : Bootable μ n.log.store)
    (m : Moment) :
    (Bootable μ ((onInstallRequest m q).after n).log.store ↔ ¬ n.Rejects m q) ∧
      (n.Rejects m q → Covered q (kept ((onInstallRequest m q).after n).log.store) ∧ ¬ Restores μ q.data) := by
  have hstore := faithful_reliable (σ := σ)
  have hstages := bootable_after_stages hμ (n := n) (q := q)
    (P := fun l => Reliable l.store ∧ (kept l.store).snapshot = (kept n.log.store).snapshot)
    (Q := fun l => Reliable l.store ∧ Covered q (kept l.store)) ⟨hs, rfl⟩ ?save ?install ?old ?new m
  · exact ⟨hstages.1, fun hr => ⟨(hstages.2 hr).1.2, (hstages.2 hr).2⟩⟩
  case save =>
    rintro l ⟨hl, hsnap⟩
    exact Log.completes_write hl (.hard ⟨q.term, none⟩) fun s hs hkept => ⟨hs, hkept ▸ hsnap⟩
  case install =>
    rintro l ⟨hl, hsnap⟩
    refine Action.wp_mono (Log.wp_install_reliable hl ⟨q.index, q.snapshotTerm, q.data⟩) ?_ ?_
    · rintro taken l' htaken
      cases taken with
      | false =>
        obtain rfl := htaken
        exact ⟨hl, hsnap⟩
      | true => exact ⟨htaken.1, htaken.2.1, htaken.2.2⟩
    · rintro f l' ⟨rfl, rfl⟩
      exact ⟨rfl, hl, hsnap⟩
  case old =>
    rintro l ⟨hl, hsnap⟩
    rw [bootable_iff hstore ⟨hl, rfl⟩, hsnap]
    exact (bootable_iff hstore ⟨hs, rfl⟩).mp hboot
  case new =>
    rintro l ⟨hl, hcovered⟩
    rw [bootable_iff hstore ⟨hl, rfl⟩, hcovered.snapshot]
    exact ⟨fun h => h _ rfl, fun h _ he => Option.some.inj he ▸ h⟩

end Node

/-! ## Runs -/

namespace Protocol

variable [LawfulStore σ] {i : NodeId} {event : Option (Moment × Occasion)} {snap : Snapshot}

/-- A member that is down, with a snapshot in its store. -/
def LifeBarred (snap : Snapshot) : Life σ μ → Prop
  | .up _ => False
  | .down store => (kept store).snapshot = some snap

omit [StateMachine μ] in
theorem wp_boot_barred {store : σ} (h : (kept store).snapshot = some snap) :
    wp Log.boot (fun r t => r.snapshot = some snap ∧ (kept t).snapshot = some snap)
      (fun (_ : Fault NodeError) t => (kept t).snapshot = some snap) store :=
  Action.wp_imp (Log.wp_boot_maintains (Persisted.steady_same snap).truncate h)
    fun _ _ hr => ⟨hr.2.2.2.trans h, hr.2.1⟩

/-- Nothing brings a member up again from a snapshot that cannot be restored. -/
theorem Turn.barred {a b : Life σ μ} (h : Turn event i a b) (hsnap : ¬ Restores μ snap.data) (hμ : Blind μ)
    (ha : LifeBarred snap a) : LifeBarred snap b := by
  cases h with
  | rest => exact ha
  | disturb hstore =>
    cases a with
    | up n => exact ha
    | down store => exact (congrArg Persisted.snapshot hstore).trans ha
  | crash =>
    cases a with
    | up n => exact ha.elim
    | down store => exact ha
  | boot hboot =>
    cases a with
    | up n => exact ha.elim
    | down store =>
      obtain ⟨-, restored, hrestore⟩ := Action.wp_ok (Node.wp_boot_restores (wp_boot_barred ha) _ _ _ _ _) hboot
      exact (hsnap (hμ.restores hrestore)).elim
  | refuse hboot =>
    cases a with
    | up n => exact ha.elim
    | down store =>
      have hkept := Action.wp_error (Node.wp_boot_restores (wp_boot_barred ha) _ _ _ _ _) hboot
      exact hkept
  | go | halt => exact ha.elim

omit [LogStore σ] [StateMachine μ] [LawfulStore σ] in
/-- What the step of a member leaves in its store, however it ends. -/
theorem storeOf_perform {α : Type} {s : State σ μ} {x : NodeAction σ μ α} {n : Node σ μ} (hl : s.life i = .up n) :
    storeOf ((perform s i x).2.life i) = (x.after n).log.store := by
  cases hx : x n with
  | ok a n' =>
    rw [perform_ok hl hx, Action.after, hx]
    simp [storeOf]
  | error f n' =>
    rw [perform_error hl hx, Action.after, hx]
    cases f.halts <;> simp [storeOf]

namespace OpenRun

variable {t : ℕ} {n : Node σ μ} {q : InstallRequest}

/-- Three entries are covered by something that is no snapshot. -/
def garbage : InstallRequest := ⟨1, 2, 3, 1, [110, 111]⟩

/-- A member whose store works and can be booted from is sent a snapshot. Its store can be booted from afterwards if
and only if the machine has not rejected the snapshot. If it has, the store holds that snapshot, in place of the one it
had and of the entries up to there, and the member never comes up again. -/
theorem rejection_is_final (r : OpenRun σ μ) (hμ : Blind μ) (hn : (r.state t).node? i = some n)
    (hs : Reliable n.log.store) (hboot : Node.Bootable μ n.log.store) {sender : NodeId} {m : Moment}
    (he : r.event t = .deliver sender ⟨i, .install q⟩ m) :
    (Node.Bootable μ (storeOf ((r.state (t + 1)).life i)) ↔ ¬ n.Rejects m q) ∧
      (n.Rejects m q → Node.Covered q (kept (storeOf ((r.state (t + 1)).life i))) ∧
        ∀ u, t < u → (r.state u).node? i = none) := by
  have hlife := State.node?_eq_some.mp hn
  have hnext : (r.state (t + 1)).life i = (perform (r.state t) i (Node.onRequest m (.install q))).2.life i := by
    rw [(r.valid t).2, he]
    rfl
  have hstore : storeOf ((r.state (t + 1)).life i) = ((Node.onInstallRequest m q).after n).log.store := by
    rw [hnext, storeOf_perform hlife, Node.after_onRequest_install]
  obtain ⟨hiff, hrejects⟩ := Node.bootable_after_install_reliable (q := q) hμ hs hboot m
  rw [hstore]
  refine ⟨hiff, fun hr => ⟨(hrejects hr).1, fun u hu => ?_⟩⟩
  have hbarred : LifeBarred ⟨q.index, q.snapshotTerm, q.data⟩ ((r.state u).life i) := by
    induction u, hu using Nat.le_induction with
    | base =>
      obtain ⟨reason, n', hx⟩ := hr
      have hcovered := (hrejects ⟨reason, n', hx⟩).1.snapshot
      rw [Action.after, hx] at hcovered
      have hrequest : Node.onRequest m (.install q) n = .error (.error (.snapshotCorruption reason)) n' := by
        simp only [Node.onRequest, bind, EStateM.bind, hx]
      rw [hnext, perform_halt hlife hrequest rfl]
      exact hcovered
    | succ u _ ih => exact (r.turn u i).barred (hrejects hr).2 hμ ih
  refine Option.eq_none_iff_forall_ne_some.mpr fun n' hup => ?_
  rw [State.node?_eq_some.mp hup] at hbarred
  exact hbarred

/-- A follower has three committed entries, and then its leader sends a snapshot that is none. The follower tries to
boot again. -/
def spoiling : List (Event MemoryStore Journal) :=
  [.boot 1 [2, 3] {} {} {}, .deliver 2 ⟨1, .append Node.threeCommitted⟩ {}, .deliver 2 ⟨1, .install garbage⟩ {},
    .boot 1 [2, 3] {} {} {}]

theorem spoiling_possible : ∀ e ∈ spoiling, ∀ s, Possible s e := by simp [spoiling, Possible]

def unstarted : State MemoryStore Journal := { life := fun _ => .down {} }

theorem unstarted_down (i : NodeId) : ∃ store, unstarted.life i = .down store := ⟨{}, rfl⟩

def spoiled : OpenRun MemoryStore Journal := .play unstarted spoiling unstarted_down spoiling_possible

theorem spoiled_informed : (spoiled.state 2).node? 1 = some Node.informed := rfl

theorem informed_reliable : Reliable Node.informed.log.store := reliable_memory rfl

theorem informed_bootable : Node.Bootable Journal Node.informed.log.store :=
  (Node.bootable_iff faithful_reliable ⟨informed_reliable, rfl⟩).mpr (by rintro snap ⟨⟩)

theorem informed_rejects : Node.informed.Rejects {} garbage := ⟨_, _, by cbv⟩

theorem rejection_is_final_spoiled : Blind Journal ∧ (spoiled.state 2).node? 1 = some Node.informed ∧
    Reliable Node.informed.log.store ∧ Node.Bootable Journal Node.informed.log.store ∧
    Node.informed.Rejects {} garbage ∧ ¬ Node.Bootable Journal (storeOf ((spoiled.state 3).life 1)) ∧
    ∀ u, 2 < u → (spoiled.state u).node? 1 = none := by
  obtain ⟨hiff, hfinal⟩ := spoiled.rejection_is_final StateMachine.blind_journal spoiled_informed informed_reliable
    informed_bootable (q := garbage) rfl
  exact ⟨StateMachine.blind_journal, spoiled_informed, informed_reliable, informed_bootable, informed_rejects,
    fun hb => hiff.mp hb informed_rejects, (hfinal informed_rejects).2⟩

/-- Three committed entries were stored, and the store could be booted from. After the snapshot it holds none of them,
and the node does not come up from it. -/
theorem rejected_snapshot_ruins_store : (spoiled.state 2).node? 1 = some Node.informed ∧
    Node.informed.log.commitIndex = 3 ∧ (kept Node.informed.log.store).entries.length = 3 ∧
    (∃ n t, Node.boot 1 [2, 3] ({} : Journal) {} {} Node.informed.log.store = .ok n t) ∧
    Node.informed.Rejects {} garbage ∧
    (kept (storeOf ((spoiled.state 3).life 1))).entries = [] ∧
    (∃ f t, Node.boot 1 [2, 3] ({} : Journal) {} {} (storeOf ((spoiled.state 3).life 1)) = .error f t) ∧
    (spoiled.state 4).node? 1 = none :=
  ⟨spoiled_informed, rfl, rfl, ⟨_, _, rfl⟩, informed_rejects, by cbv, ⟨_, _, by cbv⟩, by cbv⟩

end OpenRun

end Protocol

end RaftNode
