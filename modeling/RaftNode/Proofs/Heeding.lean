import RaftNode.Proofs.Positions
/-!
# What becomes of entries that are not applied yet

A leader keeps every entry that it has not applied, and stays in its term. Who follows may lose entries, to those of
a batch, and gains no other in their place. What is applied is what the log holds.
-/
namespace RaftNode

open RaftNode.Action (wp)

def Request.batch : Request → List Entry
  | .append q => q.entries
  | .vote _ | .install _ => []

/-- The committed entries behind the snapshot. -/
def Log.committed {σ : Type} (l : Log σ) : List Entry :=
  l.entries.take (l.commitIndex - l.snapshotIndex)

namespace Node

variable {σ μ : Type} [LogStore σ] {n n' n₁ : Node σ μ} {free : Prop} {as : List Applied}
  {a : Applied} {batch : List Entry} {x : Entry} {i : Index} {output : Output}

/-- How a node comes out of an event that brings a batch: it keeps what is not applied as long as it leads, and an
entry may only give way to one of the batch. -/
structure Heeds (batch : List Entry) (n n' : Node σ μ) : Prop where
  tidy : n'.log.Tidy
  leads : n.isLeader = true → n'.isLeader = true → n'.term = n.term ∧
    n'.log.lastApplied = n.log.lastApplied ∧ ∀ i x, n.log.lastApplied < i →
      n.log.entry? i = some x → n'.log.entry? i = some x
  entries : ∀ i x y, n.log.lastApplied < i → n.log.entry? i = some x →
    n'.log.entry? i = some y → y = x ∨ y ∈ batch

omit [LogStore σ] in
theorem heeds_refl (hn : n.log.Tidy) : Heeds batch n n where
  tidy := hn
  leads _ _ := ⟨rfl, rfl, fun _ _ _ hx => hx⟩
  entries _ _ _ _ hx hy := Or.inl (Option.some.inj (hy.symm.trans hx))

/-- Who leads afterwards has led before, or was free to take office. -/
theorem Plains.office (h : Plains free n n') (hl : n'.isLeader = true) :
    free ∨ n.isLeader = true ∧ n'.term = n.term := by
  induction h with
  | refl => exact Or.inr ⟨hl, rfl⟩
  | tail _ hstep ih =>
    cases hstep with
    | turn _ _ hoffice =>
      obtain ⟨hl₁, hterm⟩ := hoffice hl
      obtain hfree | ⟨hl₀, hterm₀⟩ := ih hl₁
      · exact Or.inl hfree
      · exact Or.inr ⟨hl₀, hterm.trans hterm₀⟩
    | office _ hfree => exact Or.inl hfree
    | grow _ => exact ih hl

theorem Plains.heeds (h : Plains (n.isLeader = false) n n') (hn : n.log.Tidy) :
    Heeds batch n n' := by
  have hprolongs := h.prolongs hn
  refine ⟨hprolongs.tidy, fun hl hl' => ?_, fun i x y _ hx hy => ?_⟩
  · obtain hfree | ⟨-, hterm⟩ := h.office hl'
    · rw [hfree] at hl
      cases hl
    · exact ⟨hterm, hprolongs.applied, fun i x _ hx => hprolongs.entry? hx⟩
  · exact Or.inl (Option.some.inj (hy.symm.trans (hprolongs.entry? hx)))

theorem Leads.heeds {α : Type} {step : NodeAction σ μ α}
    (h : Leads (n.isLeader = false) n step n) (hn : n.log.Tidy) :
    wp step (fun _ n' => Heeds batch n n') (fun f _ => f.halts = true) n :=
  Action.wp_mono h (fun _ _ hp => hp.heeds hn) fun _ _ hs => hs.halts

/-- A leader that accepts another one follows. -/
theorem Accepts.heeds {term : Term} (h : Accepts n term n₁) (htidy : n'.log.Tidy)
    (hfollows : n'.isLeader = false)
    (hentries : ∀ i x y, n₁.log.lastApplied < i → n₁.log.entry? i = some x →
      n'.log.entry? i = some y → y = x ∨ y ∈ batch) : Heeds batch n n' := by
  obtain ⟨s, hs⟩ := h.log
  rw [hs] at hentries
  refine ⟨htidy, fun _ hl => ?_, hentries⟩
  rw [hfollows] at hl
  cases hl

variable [StateMachine μ]

theorem heeds_onRequest (m : Moment) {q : Request} (hq : q.Consecutive) (hn : n.log.Tidy) :
    wp (onRequest m q) (fun _ n' => Heeds q.batch n n') (fun f _ => f.halts = true) n := by
  cases q with
  | vote q =>
    rw [onRequest, Action.wp_bind]
    exact Leads.heeds (isPlain_onVoteRequest m q n) hn
  | append q =>
    rw [onRequest, Action.wp_bind]
    refine Action.wp_mono (wp_onAppendRequest m q n) ?_ ?_
    · rintro - n' (rfl | ⟨n₁, haccepts, rfl | ⟨i, log, hlog, rfl⟩⟩)
      · exact heeds_refl hn
      · exact (haccepts.plains.mono False.elim).heeds hn
      · have ht := (haccepts.plains.prolongs hn).tidy
        have hmerged := Action.wp_ok (ht.wp_reconcile hq q.prevTerm q.commit) hlog
        refine haccepts.heeds hmerged.tidy haccepts.follows fun i x y _ hx hy => ?_
        obtain hsame | hbatch := hmerged.entry? ht hy
        · exact Or.inl (Option.some.inj (hsame.symm.trans hx))
        · exact Or.inr hbatch
    · rintro f n' (hs | ⟨hf, -⟩)
      · exact hs.halts
      · exact hf
  | install q =>
    rw [onRequest, Action.wp_bind]
    refine Action.wp_mono (wp_onInstallRequest m q n) ?_ ?_
    · rintro - n' (⟨rfl, -⟩ | ⟨n₁, haccepts, ⟨rfl, -⟩ | ⟨log, machine, hlog, -, rfl⟩⟩)
      · exact heeds_refl hn
      · exact (haccepts.plains.mono False.elim).heeds hn
      · have ht := (haccepts.plains.prolongs hn).tidy
        obtain ⟨hnew, s, rfl⟩ := (Action.wp_ok (Log.wp_install_memory _ n₁.log) hlog).2 rfl
        refine haccepts.heeds (ht.install hnew s).1 haccepts.follows fun i x y _ hx hy => ?_
        refine Or.inl ?_
        obtain ⟨hmem, hi⟩ := (ht.install hnew s).1.entry?_eq_some.mp hy
        have hkept : y ∈ n₁.log.entries := by
          unfold Log.installed at hmem
          dsimp only at hmem
          split at hmem
          · exact List.mem_of_mem_drop hmem
          · cases hmem
        exact Option.some.inj ((ht.entry?_eq_some.mpr ⟨hkept, hi⟩).symm.trans hx)
    · rintro f n' (hs | ⟨hf, -⟩)
      · exact hs.halts
      · exact hf

/-- To compact the log changes nothing behind what is applied. -/
theorem Snaps.entry? (h : Snaps n n') (hi : n.log.lastApplied < i) :
    n'.log.entry? i = n.log.entry? i := by
  cases h with
  | none => rfl
  | snap hnew _ hlog =>
    obtain ⟨-, rfl | ⟨-, s, rfl⟩⟩ := Action.wp_ok (Log.wp_compact_memory _ n.log) hlog
    · rfl
    · exact Log.entry?_drop hnew.le rfl hi

theorem Snaps.same (h : Snaps n n') : n'.role = n.role ∧ n'.term = n.term ∧
    n'.log.lastApplied = n.log.lastApplied := by
  cases h with
  | none => exact ⟨rfl, rfl, rfl⟩
  | snap _ _ hlog =>
    obtain ⟨-, rfl | ⟨-, s, rfl⟩⟩ := Action.wp_ok (Log.wp_compact_memory _ n.log) hlog
    · exact ⟨rfl, rfl, rfl⟩
    · exact ⟨rfl, rfl, rfl⟩

theorem Snaps.heeds (h : Snaps n n') (hn : n.log.Tidy) : Heeds batch n n' := by
  obtain ⟨-, hterm, happlied⟩ := h.same
  refine ⟨(h.advances hn).1, fun _ _ => ⟨hterm, happlied, fun i x hi hx => ?_⟩,
    fun i x y hi hx hy => ?_⟩
  · rw [h.entry? hi]
    exact hx
  · rw [h.entry? hi] at hy
    exact Or.inl (Option.some.inj (hy.symm.trans hx))

omit [StateMachine μ] in
/-- A request to a peer changes nothing but what the leader knows of its peers. -/
theorem wp_replicate_same (m : Moment) (n : Node σ μ) : wp (replicate m)
    (fun _ n' => n'.term = n.term ∧ n'.isLeader = n.isLeader) (fun _ _ => True) n := by
  have hpeer : ∀ (peer : NodeId) (n₁ : Node σ μ), n₁.term = n.term ∧ n₁.isLeader = n.isLeader →
      wp (requestFor m peer) (fun _ n' => n'.term = n.term ∧ n'.isLeader = n.isLeader)
        (fun _ _ => True) n₁ := by
    intro peer n₁ h₁
    rw [requestFor, Action.wp_bind, Action.wp_get]
    split
    · rename_i r hrole
      split
      · trivial
      · exact h₁
      · rw [Action.wp_bind, Action.wp_set]
        refine ⟨h₁.1, ?_⟩
        rw [← h₁.2, isLeader, isLeader, hrole]
        rfl
    · exact h₁
  have hpeers : ∀ (names : List NodeId) (n₁ : Node σ μ),
      n₁.term = n.term ∧ n₁.isLeader = n.isLeader →
      wp (requestsFor m names) (fun _ n' => n'.term = n.term ∧ n'.isLeader = n.isLeader)
        (fun _ _ => True) n₁ := by
    intro names
    induction names with
    | nil => exact fun _ h₁ => h₁
    | cons peer rest ih =>
      intro n₁ h₁
      refine Action.wp_seq (hpeer peer n₁ h₁) fun _ n₂ h₂ => ?_
      exact Action.wp_seq (ih n₂ h₂) fun _ _ h₃ => h₃
  exact hpeers n.peers n ⟨rfl, rfl⟩

omit [StateMachine μ] in
/-- The entry of a proposal is the last of the log. -/
theorem Proposes.entry? {command : Bytes} (h : Proposes n command i n') (hn : n.log.Tidy) :
    n'.log.entry? i = some ⟨i, n.term, command⟩ ∧ n'.log.lastApplied < i ∧ n'.isLeader = true ∧
      n'.term = n.term := by
  have hprolongs := h.plains.prolongs hn
  have hheld := hn.held
  have happlied := hprolongs.applied
  have hindex := h.index
  obtain ⟨s, c, hn'⟩ := h.node
  refine ⟨hprolongs.tidy.entry?_eq_some.mpr ⟨?_, rfl⟩, by lia, ?_, ?_⟩
  · rw [hn']
    exact List.mem_append_right _ (List.mem_singleton.mpr rfl)
  · rw [hn']
    exact h.leads
  · rw [hn']

omit [StateMachine μ] in
theorem Proposes.heeds {command : Bytes} (h : Proposes n command i n₁) (hp : Plains False n₁ n')
    (hn : n.log.Tidy) : Heeds batch n n' :=
  Plains.heeds (.mono False.elim (h.plains.trans hp)) hn

/-! ## What is applied -/

/-- From here on the node comes to apply the entry, with that output. -/
def Executes (n : Node σ μ) (x : Entry) (output : Output) : Prop :=
  ∃ as n₁ log, Applies n as n₁ ∧ Log.nextCommitted n₁.log = .ok (some x) log ∧
    x.isNoop = false ∧ (StateMachine.apply n₁.machine x.index x.command).1 = output

omit [LogStore σ] in
theorem Executes.skip {e : Entry} {log : Log σ}
    (hlog : Log.nextCommitted n.log = .ok (some e) log) (hnoop : e.isNoop = true)
    (h : Executes { n with log, appliedSinceSnapshot := n.appliedSinceSnapshot + 1 } x output) :
    Executes n x output := by
  obtain ⟨as, n₁, log₁, happlies, hx⟩ := h
  exact ⟨as, n₁, log₁, .skip hlog hnoop happlies, hx⟩

omit [LogStore σ] in
theorem Executes.after {e : Entry} {log : Log σ} {out : Output} {machine : μ}
    (hlog : Log.nextCommitted n.log = .ok (some e) log) (hnoop : e.isNoop = false)
    (happly : StateMachine.apply n.machine e.index e.command = (out, machine))
    (h : Executes
      { n with log, machine, appliedSinceSnapshot := n.appliedSinceSnapshot + 1 } x output) :
    Executes n x output := by
  obtain ⟨as, n₁, log₁, happlies, hx⟩ := h
  exact ⟨_, n₁, log₁, .apply hlog hnoop happly happlies, hx⟩

omit [LogStore σ] in
/-- Applying moves on through the log, which stays what it is. -/
theorem Applies.same (h : Applies n as n') : n'.role = n.role ∧ n'.term = n.term ∧
    n'.log = { n.log with lastApplied := n'.log.lastApplied } := by
  induction h with
  | done n => exact ⟨rfl, rfl, rfl⟩
  | skip hlog _ _ ih =>
    obtain ⟨-, -, rfl⟩ := Log.nextCommitted_eq_some hlog
    exact ih
  | apply hlog _ _ _ ih =>
    obtain ⟨-, -, rfl⟩ := Log.nextCommitted_eq_some hlog
    exact ih

omit [LogStore σ] in
/-- What is applied is committed. -/
theorem Executes.committed (h : n.Executes x output) : x ∈ n.log.committed := by
  obtain ⟨as, n₁, log, happlies, hlog, -, -⟩ := h
  obtain ⟨-, -, hsame⟩ := happlies.same
  obtain ⟨hless, hentry, -⟩ := Log.nextCommitted_eq_some hlog
  rw [hsame] at hless hentry
  dsimp only at hless
  obtain ⟨hi, hx⟩ := Log.getElem?_of_entry? hentry
  dsimp only at hi hx
  rw [← List.getElem?_take_of_lt (j := n.log.commitIndex - n.log.snapshotIndex) (by lia)] at hx
  exact List.mem_of_getElem? hx

omit [LogStore σ] in
/-- Every output is that of an entry in the log. -/
theorem Applies.executes (h : Applies n as n') (hn : n.log.Tidy) (ha : a ∈ as) :
    ∃ x, n.Executes x a.output ∧ x.index = a.index ∧ x.term = a.term ∧
      n.log.entry? a.index = some x := by
  induction h with
  | done n => cases ha
  | skip hlog hnoop _ ih =>
    obtain ⟨x, hx, hi, hterm, hentry⟩ := ih (hn.nextCommitted hlog).1 ha
    refine ⟨x, hx.skip hlog hnoop, hi, hterm, ?_⟩
    obtain ⟨-, -, rfl⟩ := Log.nextCommitted_eq_some hlog
    exact hentry
  | @apply n _ e _ _ output _ hlog hnoop happly _ ih =>
    rcases List.mem_cons.mp ha with rfl | ha
    · refine ⟨e, ⟨[], n, _, .done n, hlog, hnoop, by rw [happly]⟩, rfl, rfl, ?_⟩
      obtain ⟨-, he, -⟩ := Log.nextCommitted_eq_some hlog
      rw [← (hn.entry?_eq_some.mp he).2] at he
      exact he
    · obtain ⟨x, hx, hi, hterm, hentry⟩ := ih (hn.nextCommitted hlog).1 ha
      refine ⟨x, hx.after hlog hnoop happly, hi, hterm, ?_⟩
      obtain ⟨-, -, rfl⟩ := Log.nextCommitted_eq_some hlog
      exact hentry

omit [LogStore σ] in
/-- No entry with a command is left out. -/
theorem Applies.covers (h : Applies n as n') (hn : n.log.Tidy) (hlow : n.log.lastApplied < i)
    (hhigh : i ≤ n'.log.lastApplied) :
    ∃ x, n.log.entry? i = some x ∧ (x.isNoop = true ∨ ∃ a ∈ as, a.index = i) := by
  induction h with
  | done n => lia
  | @skip n _ e _ _ hlog hnoop _ ih =>
    obtain ⟨hless, he, hnext⟩ := Log.nextCommitted_eq_some hlog
    have hindex := (hn.entry?_eq_some.mp he).2
    have ht := (hn.nextCommitted hlog).1
    by_cases hi : i = n.log.lastApplied + 1
    · subst hi
      exact ⟨e, he, Or.inl hnoop⟩
    · rw [hnext] at ih ht
      exact ih ht (by dsimp only; lia) hhigh
  | @apply n _ e _ _ _ _ hlog hnoop _ _ ih =>
    obtain ⟨hless, he, hnext⟩ := Log.nextCommitted_eq_some hlog
    have hindex := (hn.entry?_eq_some.mp he).2
    have ht := (hn.nextCommitted hlog).1
    by_cases hi : i = n.log.lastApplied + 1
    · subst hi
      exact ⟨e, he, Or.inr ⟨_, List.mem_cons_self, hindex⟩⟩
    · rw [hnext] at ih ht
      obtain ⟨x, hx, hnoop' | ⟨a, ha, hai⟩⟩ := ih ht (by dsimp only; lia) hhigh
      · exact ⟨x, hx, Or.inl hnoop'⟩
      · exact ⟨x, hx, Or.inr ⟨a, List.mem_cons_of_mem _ ha, hai⟩⟩

end Node

end RaftNode
