import Mathlib
import RaftNode.Proofs.Handlers
import RaftNode.Proofs.Machines
import RaftNode.Proofs.OpenRuns
/-!
# Three ways to one machine

A machine takes its entries one by one, or it starts from a snapshot of its own node, or it is given the snapshot of
a leader. Whichever way it came, it is the machine that took every entry up to the one applied last, once and in
order, and so is the machine that the stored snapshot gives back, in whichever order its members are written.
-/
namespace RaftNode

open RaftNode.Action (wp)

variable {σ μ : Type} [StateMachine μ]

/-! ## Replaying -/

/-- The machine after the first entries of `H`. -/
def replay (fresh : μ) (H : List Entry) (k : Nat) : μ :=
  (StateMachine.applyAll fresh (H.take k)).2

/-- What a machine holds, apart from the index that it counts. An index past the last one takes effect. -/
class CountingMachine (μ : Type) [StateMachine μ] where
  Content : Type
  content : μ → Content
  position : μ → Index
  effect : Bytes → Content → Content
  apply : ∀ (m : μ) {i : Index} (command : Bytes), position m < i →
    content (StateMachine.apply m i command).2 = effect command (content m) ∧
      position (StateMachine.apply m i command).2 = i

export CountingMachine (content position effect)

instance : CountingMachine Journal where
  Content := List String
  content := Journal.applied
  position := Journal.lastIndex
  effect command texts := texts ++ [Utf8.decodeLossy command]
  apply m i command hi := by
    simp only [StateMachine.apply, Journal.apply]
    rw [if_neg (by lia)]
    exact ⟨rfl, rfl⟩

/-- The effect of a command on a table; a text that is no command has none. -/
def KeyValue.change (command : Bytes) (t : Table) : Table :=
  match Command.parse command with
  | .error _ => t
  | .ok c => (c.run t).2

instance : CountingMachine KeyValue where
  Content := Table
  content := KeyValue.table
  position := KeyValue.lastApplied
  effect := KeyValue.change
  apply m i command hi := by
    simp only [StateMachine.apply, KeyValue.apply, KeyValue.change]
    rw [if_neg (by lia)]
    cases KeyValue.Command.parse command with
    | error e => exact ⟨rfl, rfl⟩
    | ok c => exact ⟨rfl, rfl⟩

namespace StateMachine

variable {m fresh : μ} {F G H : List Entry} {k s : Nat} {e : Entry}

theorem applyAll_append (m : μ) (F G : List Entry) :
    (applyAll m (F ++ G)).2 = (applyAll (applyAll m F).2 G).2 := by
  induction F generalizing m with
  | nil => rfl
  | cons e F ih =>
    rw [List.cons_append, applyAll, applyAll]
    split
    · exact ih m
    · exact ih _

theorem replay_succ (he : H[k]? = some e) : replay fresh H (k + 1) =
    if e.isNoop then replay fresh H k else (apply (replay fresh H k) e.index e.command).2 := by
  rw [replay, List.take_add_one, he, applyAll_append]
  simp only [Option.toList_some, applyAll]
  split <;> rfl

theorem replay_of_le (hk : H.length ≤ k) : replay fresh H (k + 1) = replay fresh H k := by
  rw [replay, replay, List.take_of_length_le (by lia), List.take_of_length_le hk]

theorem fit_replay [LawfulMachine μ] (hH : Numbered H) (hfits : H.length < wordLimit)
    (hfresh : Fit fresh) (k : Nat) : Fit (replay fresh H k) := by
  induction k with
  | zero => exact hfresh
  | succ k ih =>
    cases he : H[k]? with
    | none =>
      rw [replay_of_le (List.getElem?_eq_none_iff.mp he)]
      exact ih
    | some e =>
      have hlt := (List.getElem?_eq_some_iff.mp he).1
      have hindex := hH k e he
      rw [replay_succ he]
      split
      · exact ih
      · exact LawfulMachine.apply _ ih (by lia)

/-- Every command takes effect once. -/
theorem content_applyAll [CountingMachine μ] (hF : NumberedFrom s F) (hm : position m ≤ s) :
    content (applyAll m F).2 =
      (F.filter fun e => !e.isNoop).foldl (fun c e => effect e.command c) (content m) := by
  induction F generalizing m s with
  | nil => rfl
  | cons e F ih =>
    have hindex := hF.head
    rw [applyAll]
    by_cases hnoop : e.isNoop = true
    · rw [if_pos hnoop, List.filter_cons_of_neg (by simp [hnoop])]
      exact ih hF.tail (by lia)
    · obtain ⟨hcontent, hposition⟩ := CountingMachine.apply m e.command
        (show position m < e.index by lia)
      rw [if_neg hnoop, List.filter_cons_of_pos (by simpa using hnoop), List.foldl_cons, ← hcontent]
      exact ih hF.tail (by lia)

end StateMachine

open StateMachine (replay_succ fit_replay)

/-! ## What a node reflects -/

variable [PortrayedMachine μ]

/-- A portrait of the machine after the entries that the snapshot covers, with the term of the last one. -/
structure Portrays (fresh : μ) (H : List Entry) (snap : Snapshot) : Prop where
  held : snap.index ≤ H.length
  term : snap.term = endTerm (H.take snap.index)
  data : Portrait (replay fresh H snap.index) snap.data

variable [LogStore σ] [LawfulStore σ]

/-- The snapshot that a store keeps, if there is one, portrays the machine. -/
def KeepsPortrait (fresh : μ) (H : List Entry) (store : σ) : Prop :=
  ∀ snap, (kept store).snapshot = some snap → Portrays fresh H snap

/-- The committed entries that are at hand are entries of `H`. -/
def Log.CommitsIn (H : List Entry) (l : Log σ) : Prop :=
  ∀ i ≤ l.commitIndex, ∀ e ∈ l.entry? i, H[i - 1]? = some e

omit [StateMachine μ] [PortrayedMachine μ] [LogStore σ] [LawfulStore σ] in
/-- The next entry to be applied is the next entry of `H`. -/
theorem Log.CommitsIn.nextCommitted {l l' : Log σ} {e : Entry} {H : List Entry}
    (hc : l.CommitsIn H) (hH : Numbered H) (hlog : Log.nextCommitted l = .ok (some e) l') :
    H[l.lastApplied]? = some e ∧ l.lastApplied < l.commitIndex ∧
      l' = { l with lastApplied := l.lastApplied + 1 } := by
  obtain ⟨hless, he, rfl⟩ := Log.nextCommitted_eq_some hlog
  have hentry : H[l.lastApplied]? = some e := by
    have := hc (l.lastApplied + 1) hless e he
    rwa [Nat.add_sub_cancel] at this
  exact ⟨hentry, hless, by rw [hH _ _ hentry]⟩

theorem Log.Grows.preserves {I : Persisted → Prop} {G : Snapshot → Prop} {l l' : Log σ}
    (hI : Persisted.Steady I G) (hhard : ∀ hard, (Write.hard hard).Preserves I) (h : Log.Grows l l')
    (hl : I (kept l.store)) : I (kept l'.store) := by
  have hafter : ∀ {α : Type} {op : LogAction σ α}, Log.Maintains I op l →
      I (kept (op.after l).store) := fun hop =>
    Action.of_after (P := fun l' => I (kept l'.store)) (Action.wp_mono hop (fun _ _ h => h)
      fun _ _ h => h.2)
  cases h with
  | hard hard => exact hafter (Log.Maintains.write (w := .hard hard) (hhard hard) hl)
  | append term command => exact hafter (Log.Maintains.appendAsLeader (hI.append _) hl)
  | commit i => exact hafter (Log.Maintains.setCommitIndex hl i)

namespace Node

variable {fresh : μ} {H : List Entry} {n n' n₁ : Node σ μ} {free : Prop} {as : List Applied}

/-- The machine took every entry up to the one applied last, and the stored snapshot portrays it. -/
structure Reflects (fresh : μ) (H : List Entry) (n : Node σ μ) : Prop where
  applied : n.log.lastApplied ≤ n.log.commitIndex
  held : n.log.lastApplied ≤ H.length
  machine : n.machine = replay fresh H n.log.lastApplied
  store : KeepsPortrait fresh H n.log.store

/-- An event that the node comes out of reflecting `H`. One that ends early leaves a portrait in the store, or
everything as it was. -/
def Reflecting {α : Type} (fresh : μ) (H : List Entry) (x : NodeAction σ μ α) (n : Node σ μ) :
    Prop :=
  wp x (fun _ n' => Reflects fresh H n')
    (fun f n' => f.halts = true ∧ KeepsPortrait fresh H n'.log.store ∨ n' = n) n

/-- An operation of the log that applies nothing. -/
theorem Reflects.stays {log : Log σ} (h : Reflects fresh H n) (hlog : n.log.Stays log)
    (hstore : KeepsPortrait fresh H log.store) : Reflects fresh H { n with log } where
  applied := hlog.applied.trans_le (h.applied.trans hlog.commit)
  held := hlog.applied.trans_le h.held
  machine := by
    rw [hlog.applied]
    exact h.machine
  store := hstore

theorem Reflects.plains (h : Reflects fresh H n) (hp : Plains free n n') :
    Reflects fresh H n' := by
  induction hp with
  | refl => exact h
  | tail _ hstep ih =>
    cases hstep with
    | turn hlog hmachine _ =>
      refine ⟨?_, ?_, ?_, ?_⟩
      · rw [hlog]
        exact ih.applied
      · rw [hlog]
        exact ih.held
      · rw [hmachine, hlog]
        exact ih.machine
      · rw [hlog]
        exact ih.store
    | office _ _ => exact ⟨ih.applied, ih.held, ih.machine, ih.store⟩
    | grow hgrows =>
      refine ih.stays ?_ (hgrows.preserves (Persisted.steady_snapshot _)
        (Write.preserves_snapshot _) ih.store)
      cases hgrows.grown with
      | store s => exact ⟨rfl, le_rfl⟩
      | append s term command => exact ⟨rfl, le_rfl⟩
      | commit hle _ => exact ⟨rfl, hle⟩

theorem Reflects.stops {f : Fault NodeError} (h : Reflects fresh H n) (hs : Stops free n f n') :
    f.halts = true ∧ KeepsPortrait fresh H n'.log.store := by
  obtain ⟨hhalts, n₁, hp, hlog⟩ := hs
  rw [hlog]
  exact ⟨hhalts, (h.plains hp).store⟩

theorem Reflects.leads {α : Type} {x : NodeAction σ μ α} (h : Reflects fresh H n)
    (hx : Leads free n x n) : Reflecting fresh H x n :=
  Action.wp_mono hx (fun _ _ hp => h.plains hp) fun _ _ hs => Or.inl (h.stops hs)

theorem Reflects.onAppendRequest (h : Reflects fresh H n) (m : Moment) (q : AppendRequest) :
    Reflecting fresh H (onAppendRequest m q) n := by
  have hmaintains : ∀ n₁ : Node σ μ, Reflects fresh H n₁ →
      wp (Log.reconcile q.prevIndex q.prevTerm q.entries q.commit)
        (fun _ l => KeepsPortrait fresh H l.store)
        (fun f l => f.halts = true ∧ KeepsPortrait fresh H l.store ∨
          l = n₁.log ∧ ∃ i hint, f = .error (.logConflict i hint)) n₁.log := fun n₁ h₁ =>
    Log.wp_reconcile_maintains (Persisted.steady_snapshot _).truncate
      (fun es _ => (Persisted.steady_snapshot _).append es) h₁.store _ _ _
  refine Action.wp_mono (wp_onAppendRequest m q n) ?_ ?_
  · rintro - n' (rfl | ⟨n₁, haccepts, rfl | ⟨i, log, hlog, rfl⟩⟩)
    · exact h
    · exact h.plains haccepts.plains
    · have h₁ := h.plains haccepts.plains
      have hstays := Action.wp_ok (Log.wp_reconcile_refused _ _ _ _ n₁.log) hlog
      have hstore := Action.wp_ok (hmaintains n₁ h₁) hlog
      exact h₁.stays hstays hstore
  · rintro f n' (hs | ⟨hf, n₁, haccepts, hlog⟩)
    · exact Or.inl (h.stops hs)
    · have h₁ := h.plains haccepts.plains
      obtain hkept | ⟨hsame, -⟩ := Action.wp_error (hmaintains n₁ h₁) hlog
      · exact Or.inl hkept
      · exact Or.inl ⟨hf, hsame ▸ h₁.store⟩

/-- A snapshot that portrays the machine is as good as the entries that it covers. -/
theorem Reflects.onInstallRequest (h : Reflects fresh H n)
    (hfit : ∀ k, Fit (replay fresh H k)) (m : Moment) {q : InstallRequest}
    (hq : Portrays fresh H ⟨q.index, q.snapshotTerm, q.data⟩) :
    Reflecting fresh H (onInstallRequest m q) n := by
  have hmaintains : ∀ n₁ : Node σ μ, Reflects fresh H n₁ →
      Log.Maintains (fun p => ∀ snap, p.snapshot = some snap → Portrays fresh H snap)
        (Log.install ⟨q.index, q.snapshotTerm, q.data⟩) n₁.log := fun n₁ h₁ =>
    Log.Maintains.install (Persisted.steady_snapshot _).truncate ((Persisted.steady_snapshot _).install _ hq) h₁.store
  refine Action.wp_mono (wp_onInstallRequest m q n) ?_ ?_
  · rintro - n' (⟨rfl, -⟩ | ⟨n₁, haccepts, ⟨rfl, -⟩ | ⟨log, machine, hlog, hmachine, rfl⟩⟩)
    · exact h
    · exact h.plains haccepts.plains
    · have h₁ := h.plains haccepts.plains
      have hstore := (hmaintains n₁ h₁).ok hlog
      obtain ⟨-, s, rfl⟩ := (Action.wp_ok (Log.wp_install_memory _ n₁.log) hlog).2 rfl
      refine ⟨le_max_right _ _, hq.held, ?_, hstore⟩
      rw [PortrayedMachine.restore_portrait _ (hfit q.index) hq.data] at hmachine
      exact (Except.ok.inj hmachine).symm
  · rintro f n' (hs | ⟨hf, n₁, haccepts, hlog | hlog⟩)
    · exact Or.inl (h.stops hs)
    · exact Or.inl ((hmaintains n₁ (h.plains haccepts.plains)).error hlog)
    · exact Or.inl ⟨hf, (hmaintains n₁ (h.plains haccepts.plains)).ok hlog⟩

theorem Reflects.applies (h : Reflects fresh H n) (hH : Numbered H) (hc : n.log.CommitsIn H)
    (ha : Applies n as n') : Reflects fresh H n' ∧ n'.log.CommitsIn H := by
  induction ha with
  | done n => exact ⟨h, hc⟩
  | skip hlog hnoop _ ih =>
    obtain ⟨hentry, hless, rfl⟩ := hc.nextCommitted hH hlog
    refine ih ⟨hless, (List.getElem?_eq_some_iff.mp hentry).1, ?_, h.store⟩ hc
    rw [replay_succ hentry, if_pos hnoop]
    exact h.machine
  | apply hlog hnoop happly _ ih =>
    obtain ⟨hentry, hless, rfl⟩ := hc.nextCommitted hH hlog
    refine ih ⟨hless, (List.getElem?_eq_some_iff.mp hentry).1, ?_, h.store⟩ hc
    rw [replay_succ hentry, if_neg (by simp [hnoop]), ← h.machine, happly]

/-- A snapshot of what is applied portrays the machine. -/
theorem Reflects.portrays (h : Reflects fresh H n) (hc : n.log.CommitsIn H) {term : Term}
    (hnew : n.log.snapshotIndex < n.log.lastApplied)
    (hterm : n.log.termAt? n.log.lastApplied = some term) :
    Portrays fresh H ⟨n.log.lastApplied, term, StateMachine.snapshot n.machine⟩ := by
  refine ⟨h.held, ?_, h.machine ▸ PortrayedMachine.portrait_snapshot n.machine⟩
  rw [Log.termAt?, if_neg (by lia)] at hterm
  obtain ⟨e, he, rfl⟩ := Option.map_eq_some_iff.mp hterm
  have hentry := hc _ h.applied e he
  have hlast := endTerm_take_succ hentry
  rw [show n.log.lastApplied - 1 + 1 = n.log.lastApplied by lia] at hlast
  exact hlast.symm

theorem Reflects.compact (h : Reflects fresh H n) (hc : n.log.CommitsIn H) {term : Term}
    (hnew : n.log.snapshotIndex < n.log.lastApplied)
    (hterm : n.log.termAt? n.log.lastApplied = some term) :
    Log.Maintains (fun p => ∀ snap, p.snapshot = some snap → Portrays fresh H snap)
      (Log.compact ⟨n.log.lastApplied, term, StateMachine.snapshot n.machine⟩) n.log :=
  Log.Maintains.compact ((Persisted.steady_snapshot _).install _ (h.portrays hc hnew hterm)) h.store

theorem Reflects.snaps (h : Reflects fresh H n) (hc : n.log.CommitsIn H) (hs : Snaps n n') :
    Reflects fresh H n' := by
  cases hs with
  | none => exact h
  | snap hnew hterm hlog =>
    have hstore := (h.compact hc hnew hterm).ok hlog
    obtain ⟨-, rfl | ⟨-, s, rfl⟩⟩ := Action.wp_ok (Log.wp_compact_memory _ n.log) hlog
    · exact ⟨h.applied, h.held, h.machine, hstore⟩
    · exact ⟨h.applied, h.held, h.machine, hstore⟩

theorem Reflects.snapFails {f : Fault NodeError} (h : Reflects fresh H n) (hc : n.log.CommitsIn H)
    (hs : SnapFails n f n') : f.halts = true ∧ KeepsPortrait fresh H n'.log.store := by
  obtain ⟨hf, hlog | ⟨term, hnew, hterm, hlog⟩⟩ := hs
  · rw [hlog]
    exact ⟨hf, h.store⟩
  · exact (h.compact hc hnew hterm).error hlog

/-! ## Any event -/

theorem Reflects.command (h : Reflects fresh H n) (hH : Numbered H) (hc : n.log.CommitsIn H)
    (c : Protocol.Command) (m : Moment) : Reflecting fresh H (c.run m) n := by
  cases c with
  | stand => exact h.leads (leads_startElection m n)
  | heartbeat => exact h.leads (isPlain_heartbeat m n : Leads False n _ n)
  | replicate => exact h.leads (isPlain_replicate m n : Leads False n _ n)
  | propose command =>
    rw [Protocol.Command.run, Reflecting, Action.wp_map]
    refine Action.wp_mono (wp_propose command n) (fun _ _ hp => h.plains hp.plains) ?_
    rintro f n' (hs | ⟨rfl, -⟩)
    · exact Or.inl (h.stops hs)
    · exact Or.inr rfl
  | apply =>
    rw [Protocol.Command.run, Reflecting, Action.wp_map]
    refine Action.wp_mono (wp_applyCommitted n) ?_ ?_
    · rintro as n' ⟨n₁, happlies, hsnaps⟩
      obtain ⟨h₁, hc₁⟩ := h.applies hH hc happlies
      exact h₁.snaps hc₁ hsnaps
    · rintro f n' ⟨as, n₁, happlies, hfails⟩
      obtain ⟨h₁, hc₁⟩ := h.applies hH hc happlies
      exact Or.inl (h₁.snapFails hc₁ hfails)
  | snapshot =>
    rw [Protocol.Command.run, Reflecting, Action.wp_map]
    exact Action.wp_mono (wp_takeSnapshot n) (fun _ _ => h.snaps hc)
      fun _ _ hs => Or.inl (h.snapFails hc hs)

theorem Reflects.onRequest (h : Reflects fresh H n)
    (hfit : ∀ k, Fit (replay fresh H k)) (m : Moment) {request : Request}
    (hq : ∀ q, request = .install q → Portrays fresh H ⟨q.index, q.snapshotTerm, q.data⟩) :
    Reflecting fresh H (onRequest m request) n := by
  cases request with
  | vote q =>
    rw [Node.onRequest, Reflecting, Action.wp_bind]
    exact h.leads (isPlain_onVoteRequest m q n : Leads False n _ n)
  | append q =>
    rw [Node.onRequest, Reflecting, Action.wp_bind]
    exact h.onAppendRequest m q
  | install q =>
    rw [Node.onRequest, Reflecting, Action.wp_bind]
    exact h.onInstallRequest hfit m (hq q rfl)

/-- A node boots with the machine of its own snapshot, or with the one at hand. -/
theorem wp_boot_reflects (hfit : ∀ k, Fit (replay fresh H k)) {store : σ}
    (hs : KeepsPortrait fresh H store) (id : NodeId) (peers : List NodeId) (config : Config)
    (m : Moment) : wp (boot id peers fresh config m) (fun n _ => Reflects fresh H n)
      (fun _ t => KeepsPortrait fresh H t) store := by
  have hpositions : wp (Log.boot : Action NodeError σ (Log.Recovered σ))
      (fun r _ => r.log.lastApplied = (r.snapshot.map Snapshot.index).getD 0 ∧
        r.log.commitIndex = r.log.lastApplied) (fun _ _ => True) store := by
    simp only [Log.boot, Action.wp_bind, Action.wp_within]
    refine Action.wp_mono (Action.wp_trivial _ _) (fun p t _ => ?_) fun _ _ _ => trivial
    split
    · rw [Action.wp_bind, Action.wp_within]
      exact Action.wp_mono (Action.wp_trivial _ _) (fun _ _ _ => ⟨rfl, rfl⟩) fun _ _ _ => trivial
    · exact ⟨rfl, rfl⟩
  refine Action.wp_seq (Action.wp_mono (Action.wp_and
    (Log.wp_boot_maintains (Persisted.steady_snapshot _).truncate hs) hpositions)
    (fun _ _ hq => hq) fun _ _ hf => hf.1) ?_
  rintro r t ⟨⟨rfl, hkept, -, hsnap⟩, happlied, hcommit⟩
  split
  · rename_i n hn
    obtain ⟨machine, hmachine, rfl⟩ := ofRecovered_ok hn
    refine ⟨hcommit.ge, ?_, ?_, hkept⟩
    · obtain ⟨hnone, rfl⟩ | ⟨snap, hsome, -⟩ := hmachine
      · dsimp only
        rw [happlied, hnone]
        exact Nat.zero_le _
      · dsimp only
        rw [happlied, hsome]
        exact (hs snap (hsnap ▸ hsome)).held
    · obtain ⟨hnone, rfl⟩ | ⟨snap, hsome, hrestore⟩ := hmachine
      · dsimp only
        rw [happlied, hnone]
        rfl
      · dsimp only
        have hdata := (hs snap (hsnap ▸ hsome)).data
        rw [PortrayedMachine.restore_portrait _ (hfit snap.index) hdata] at hrestore
        rw [happlied, hsome]
        exact (Except.ok.inj hrestore).symm
  · exact hkept

end Node

/-! ## Runs -/

namespace Protocol

variable {fresh : μ} {H : List Entry} {s : State σ μ} {i : NodeId} {α : Type}

/-- A node that is up reflects `H`, and the store of one that is down keeps a portrait. -/
def LifeReflects (fresh : μ) (H : List Entry) : Life σ μ → Prop
  | .up n => n.Reflects fresh H
  | .down store => KeepsPortrait fresh H store

theorem LifeReflects.store {l : Life σ μ} (h : LifeReflects fresh H l) :
    KeepsPortrait fresh H (storeOf l) := by
  cases l with
  | up n =>
    have hn : n.Reflects fresh H := h
    exact hn.store
  | down store => exact h

theorem LifeReflects.perform {x : NodeAction σ μ α} (h : LifeReflects fresh H (s.life i))
    (hx : ∀ n, s.life i = .up n → Node.Reflecting fresh H x n) :
    LifeReflects fresh H ((perform s i x).2.life i) := by
  cases hl : s.life i with
  | down store =>
    rw [perform_down hl]
    exact h
  | up n =>
    have hn : n.Reflects fresh H := by rwa [hl] at h
    cases hr : x n with
    | ok a n' =>
      rw [perform_ok hl hr]
      simp only [Function.update_self]
      have hn' := Action.wp_ok (hx n hl) hr
      exact hn'
    | error f n' =>
      rw [perform_error hl hr]
      simp only [Function.update_self]
      obtain ⟨hf, hstore⟩ | rfl := Action.wp_error (hx n hl) hr
      · rw [if_pos hf]
        exact hstore
      · split
        · exact hn.store
        · exact hn

/-- What member `i` is told, in a run in which `H` is committed. -/
structure Tells (fresh : μ) (H : List Entry) (i : NodeId) (e : Event σ μ) : Prop where
  boot : ∀ peers machine config m, e = .boot i peers machine config m → machine = fresh
  install : ∀ q, e.input i = some (.install q) →
    Portrays fresh H ⟨q.index, q.snapshotTerm, q.data⟩

theorem LifeReflects.boot (h : LifeReflects fresh H (s.life i))
    (hfit : ∀ k, Fit (replay fresh H k)) (peers : List NodeId) (config : Config) (m : Moment) :
    LifeReflects fresh H ((next s (.boot i peers fresh config m)).life i) := by
  have hboot := Node.wp_boot_reflects hfit h.store i peers config m
  simp only [Protocol.next]
  split
  · rename_i n t hn
    simp only [Function.update_self]
    have hup := Action.wp_ok hboot hn
    exact hup
  · rename_i f t hf
    simp only [Function.update_self]
    have hdown := Action.wp_error hboot hf
    exact hdown

/-- Only what is kept of a snapshot matters. -/
theorem LifeReflects.disturb (h : LifeReflects fresh H (s.life i)) {store : σ}
    (hsame : kept store = kept (storeOf (s.life i))) :
    LifeReflects fresh H ((next s (.disturb i store)).life i) := by
  have hkept : KeepsPortrait fresh H store := by
    intro snap hsnap
    rw [hsame] at hsnap
    exact h.store snap hsnap
  simp only [Protocol.next, Function.update_self]
  cases hl : s.life i with
  | down _ => exact hkept
  | up n =>
    rw [hl] at h
    exact ⟨h.applied, h.held, h.machine, hkept⟩

theorem LifeReflects.next (h : LifeReflects fresh H (s.life i))
    (hH : Numbered H) (hfit : ∀ k, Fit (replay fresh H k)) {e : Event σ μ} (he : Possible s e)
    (htells : Tells fresh H i e) (hc : ∀ n, s.life i = .up n → n.log.CommitsIn H) :
    LifeReflects fresh H ((next s e).life i) := by
  have hother : ∀ {v : NodeId} {l : Life σ μ}, i ≠ v →
      LifeReflects fresh H (Function.update s.life v l i) := by
    intro v l hne
    rw [Function.update_of_ne hne]
    exact h
  have hstep : ∀ {α : Type} {v : NodeId} {x : NodeAction σ μ α},
      (∀ n, s.life i = .up n → Node.Reflecting fresh H x n) →
      LifeReflects fresh H ((Protocol.perform s v x).2.life i) := by
    intro α v x hx
    by_cases hi : i = v
    · subst hi
      exact h.perform hx
    · rw [perform_life_ne s x hi]
      exact h
  have hup : ∀ n, s.life i = .up n → n.Reflects fresh H := by
    intro n hn
    rwa [hn] at h
  cases e with
  | boot v peers machine config m =>
    by_cases hi : i = v
    · subst hi
      obtain rfl := htells.boot peers machine config m rfl
      exact h.boot hfit peers config m
    · simp only [Protocol.next]
      split
      · exact hother hi
      · exact hother hi
  | crash v =>
    by_cases hi : i = v
    · subst hi
      simp only [Protocol.next, Function.update_self]
      exact h.store
    · exact hother hi
  | disturb v store =>
    by_cases hi : i = v
    · subst hi
      exact h.disturb he
    · exact hother hi
  | act v c m => exact hstep fun n hn => (hup n hn).command hH (hc n hn) c m
  | deliver sender message m =>
    by_cases hi : message.target = i
    · refine hstep fun n hn => (hup n hn).onRequest hfit m fun q hq => ?_
      exact htells.install q (by rw [Event.input, if_pos hi, hq])
    · have hne : i ≠ message.target := fun heq => hi heq.symm
      change LifeReflects fresh H ((Protocol.perform s message.target _).2.life i)
      rw [perform_life_ne s _ hne]
      exact h
  | answer v r m => exact hstep fun n hn => (hup n hn).leads (Node.leads_onResponse m r n)
  | giveUp v message m => exact hstep fun n hn => (hup n hn).leads (Node.leads_onResponse m _ n)
  | idle => exact h

/-- A run of member `i` in which only entries of `H` are committed, snapshots portray the machine after the entries
of `H` that they cover, and every boot has a fresh machine. -/
structure OpenRun.Replays (r : OpenRun σ μ) (i : NodeId) (fresh : μ) (H : List Entry) : Prop where
  numbered : Numbered H
  start : KeepsPortrait fresh H (storeOf ((r.state 0).life i))
  tells : ∀ t, Tells fresh H i (r.event t)
  committed : ∀ t n, (r.state t).node? i = some n → n.log.CommitsIn H

/-- Compaction, snapshots of a leader and restarts cannot be told from the machine, which took the commands of all
entries up to the one applied last, once and in order; nor from the snapshot that is kept, which is a portrait of the
machine that took the entries it covers. -/
theorem OpenRun.replayed [CountingMachine μ] (r : OpenRun σ μ) (hfresh : Fit fresh)
    (hempty : position fresh = 0) (hH : H.length < wordLimit) (hr : r.Replays i fresh H) (t : ℕ) :
    (∀ n, (r.state t).node? i = some n →
      n.log.lastApplied ≤ H.length ∧
      n.machine = replay fresh H n.log.lastApplied ∧
      content n.machine = ((H.take n.log.lastApplied).filter fun e => !e.isNoop).foldl
        (fun c e => effect e.command c) (content fresh)) ∧
    ∀ snap, (kept (storeOf ((r.state t).life i))).snapshot = some snap →
      snap.index ≤ H.length ∧ snap.term = endTerm (H.take snap.index) ∧
      Portrait (replay fresh H snap.index) snap.data := by
  have hfit := fit_replay hr.numbered hH hfresh
  have hlife : LifeReflects fresh H ((r.state t).life i) := by
    induction t with
    | zero =>
      obtain ⟨store, hstore⟩ := r.start i
      have hkept := hr.start
      rw [hstore] at hkept ⊢
      exact hkept
    | succ t ih =>
      obtain ⟨hpossible, hnext⟩ := r.valid t
      rw [hnext]
      refine ih.next hr.numbered hfit hpossible (hr.tells t) fun n hn => ?_
      refine hr.committed t n ?_
      rw [State.node?, hn]
  refine ⟨fun n hn => ?_, fun snap hsnap => ?_⟩
  · have hn' : n.Reflects fresh H := by
      unfold State.node? at hn
      split at hn
      · rename_i n' hl
        cases hn
        rwa [hl] at hlife
      · cases hn
    refine ⟨hn'.held, hn'.machine, ?_⟩
    rw [hn'.machine, replay]
    refine StateMachine.content_applyAll (s := 0) ?_ hempty.le
    intro k e he
    have := hr.numbered.isPrefix (List.take_prefix _ H) k e he
    lia
  · obtain ⟨hheld, hterm, hdata⟩ := hlife.store snap hsnap
    exact ⟨hheld, hterm, hdata⟩

/-! ## A member that restarts and is overtaken -/

def tableHistory : List Entry := [⟨1, 1, []⟩, ⟨2, 1, Bytes.ofString "SET a 1"⟩,
  ⟨3, 1, Bytes.ofString "SET b 2"⟩, ⟨4, 1, Bytes.ofString "DELETE a"⟩, ⟨5, 1, Bytes.ofString "SET a 3"⟩]

/-- A leader's snapshot of all entries, its members not in the order of their keys. -/
def overtakingSnapshot : InstallRequest :=
  ⟨1, 2, 5, 1, StateMachine.snapshot (⟨[("b", "2"), ("a", "3")], 5⟩ : KeyValue)⟩

/-- Two entries are applied and compacted, a third is applied after a crash, and the leader sends a snapshot of all
five. -/
def restarts : List (Event MemoryStore KeyValue) := [
  .boot 1 [2, 3] {} {} {},
  .deliver 2 ⟨1, .append ⟨1, 2, 0, 0, tableHistory.take 3, 2⟩⟩ {},
  .act 1 .apply {},
  .act 1 .snapshot {},
  .crash 1,
  .boot 1 [2, 3] {} {} {},
  .deliver 2 ⟨1, .append ⟨1, 2, 3, 1, [], 3⟩⟩ {},
  .act 1 .apply {},
  .deliver 2 ⟨1, .install overtakingSnapshot⟩ {}]

def restarted : OpenRun MemoryStore KeyValue :=
  .play { life := fun _ => .down {} } restarts (fun _ => ⟨{}, rfl⟩) (by simp [restarts, Possible])

instance (H : List Entry) (l : Log MemoryStore) : Decidable (l.CommitsIn H) :=
  inferInstanceAs (Decidable (∀ i ≤ l.commitIndex, ∀ e ∈ l.entry? i, H[i - 1]? = some e))

theorem restarted_commits (t : ℕ) :
    ∀ n ∈ (restarted.state t).node? 1, n.log.CommitsIn tableHistory := by
  have hfirst : ∀ t < 10, ∀ n ∈ (restarted.state t).node? 1, n.log.CommitsIn tableHistory := by
    decide +kernel
  by_cases ht : t < 10
  · exact hfirst t ht
  · have hlast : restarted.state t = restarted.state 9 := by
      change (restarts.take t).foldl next _ = (restarts.take 9).foldl next _
      rw [List.take_of_length_le (by simp [restarts]; lia),
        List.take_of_length_le (by simp [restarts])]
    rw [hlast]
    exact hfirst 9 (by decide)

theorem overtakingSnapshot_portrays : Portrays ({} : KeyValue) tableHistory
    ⟨overtakingSnapshot.index, overtakingSnapshot.snapshotTerm, overtakingSnapshot.data⟩ where
  held := by decide
  term := rfl
  data := by
    have hreplay : replay ({} : KeyValue) tableHistory overtakingSnapshot.index =
        ⟨[("a", "3"), ("b", "2")], 5⟩ := by decide +kernel
    dsimp only
    rw [hreplay]
    exact ⟨[("b", "2"), ("a", "3")], List.Perm.swap _ _ _, rfl⟩

theorem restarted_tells (t : ℕ) : Tells ({} : KeyValue) tableHistory 1 (restarted.event t) := by
  have hboot : Tells ({} : KeyValue) tableHistory 1
      (.boot 1 [2, 3] {} {} {} : Event MemoryStore KeyValue) := by
    constructor
    · rintro _ _ _ _ ⟨⟩
      rfl
    · rintro _ ⟨⟩
  have hact : ∀ c, Tells ({} : KeyValue) tableHistory 1
      (.act 1 c {} : Event MemoryStore KeyValue) := by
    intro c
    constructor
    · rintro _ _ _ _ ⟨⟩
    · rintro _ ⟨⟩
  have happend : ∀ q, Tells ({} : KeyValue) tableHistory 1
      (.deliver 2 ⟨1, .append q⟩ {} : Event MemoryStore KeyValue) := by
    intro q
    constructor
    · rintro _ _ _ _ ⟨⟩
    · rintro _ ⟨⟩
  have hcrash : Tells ({} : KeyValue) tableHistory 1 (.crash 1 : Event MemoryStore KeyValue) := by
    constructor
    · rintro _ _ _ _ ⟨⟩
    · rintro _ ⟨⟩
  have hinstall : Tells ({} : KeyValue) tableHistory 1
      (.deliver 2 ⟨1, .install overtakingSnapshot⟩ {} : Event MemoryStore KeyValue) := by
    constructor
    · rintro _ _ _ _ ⟨⟩
    · rintro _ ⟨⟩
      exact overtakingSnapshot_portrays
  have hall : ∀ e ∈ restarts, Tells ({} : KeyValue) tableHistory 1 e := by
    simp only [restarts, List.forall_mem_cons]
    exact ⟨hboot, happend _, hact _, hact _, hcrash, hboot, happend _, hact _, hinstall,
      List.forall_mem_nil _⟩
  change Tells _ _ 1 (restarts.getD t .idle)
  rw [List.getD_eq_getElem?_getD]
  cases he : restarts[t]? with
  | none =>
    constructor
    · rintro _ _ _ _ ⟨⟩
    · rintro _ ⟨⟩
  | some e => exact hall e (List.mem_of_getElem? he)

theorem restarted_replays : restarted.Replays 1 {} tableHistory where
  numbered := by
    rintro (_ | _ | _ | _ | _ | k) e he
    · cases he
      rfl
    · cases he
      rfl
    · cases he
      rfl
    · cases he
      rfl
    · cases he
      rfl
    · cases he
  start := by
    rintro snap ⟨⟩
  tells := restarted_tells
  committed t n hn := restarted_commits t n hn

/-- The store keeps the snapshot as the leader wrote it, which is not how the machine would write it. -/
theorem replayed_restarted :
    Fit ({} : KeyValue) ∧ position ({} : KeyValue) = 0 ∧ tableHistory.length < wordLimit ∧
      restarted.Replays 1 {} tableHistory ∧
      ∃ n, (restarted.state 9).node? 1 = some n ∧ n.log.lastApplied = 5 ∧
        n.machine = replay {} tableHistory 5 ∧ n.machine.table = [("a", "3"), ("b", "2")] ∧
        ∃ snap, (kept (storeOf ((restarted.state 9).life 1))).snapshot = some snap ∧
          Portrait n.machine snap.data ∧ snap.data ≠ StateMachine.snapshot n.machine := by
  have hfit : Fit ({} : KeyValue) := ⟨List.Pairwise.nil, by decide⟩
  have hlength : tableHistory.length < wordLimit := by decide
  obtain ⟨n, hn, happlied, htable, hdata⟩ : ∃ n, (restarted.state 9).node? 1 = some n ∧
      n.log.lastApplied = 5 ∧ n.machine.table = [("a", "3"), ("b", "2")] ∧
      overtakingSnapshot.data ≠ StateMachine.snapshot n.machine := by
    have hany : ((restarted.state 9).node? 1).any
        (fun n => n.log.lastApplied = 5 ∧ n.machine.table = [("a", "3"), ("b", "2")] ∧
          overtakingSnapshot.data ≠ StateMachine.snapshot n.machine) = true := by decide +kernel
    obtain ⟨n, hn, h⟩ := (Option.any_eq_true _ _).mp hany
    exact ⟨n, hn, of_decide_eq_true h⟩
  have hsnap : (kept (storeOf ((restarted.state 9).life 1))).snapshot =
      some ⟨5, 1, overtakingSnapshot.data⟩ := by decide +kernel
  obtain ⟨hnode, hstore⟩ := restarted.replayed hfit rfl hlength restarted_replays 9
  obtain ⟨-, hmachine, -⟩ := hnode n hn
  obtain ⟨-, -, hportrait⟩ := hstore _ hsnap
  rw [happlied] at hmachine
  exact ⟨hfit, rfl, hlength, restarted_replays, n, hn, happlied, hmachine, htable, _, hsnap,
    hmachine ▸ hportrait, hdata⟩

end Protocol

end RaftNode
