import RaftNode.Proofs.Mirror
/-!
# Write-ahead agreement

Any sequence of operations on a log, over a store whose writes may begin to fail at any point. The store never
holds anything but a beginning of the log, and all of it unless an install failed between its two writes.
-/
namespace RaftNode.Log

open RaftNode.Action (wp)

/-- What can be asked of a log, opening it left aside. -/
inductive Operation where
  | append (term : Term) (command : Bytes)
  | reconcile (prevIndex : Index) (prevTerm : Term) (batch : List Entry) (leaderCommit : Index)
  | setCommitIndex (i : Index)
  | nextCommitted
  | install (snap : Snapshot)
  | compact (snap : Snapshot)

namespace Operation

def isInstall : Operation → Bool
  | install _ => true
  | _ => false

/-- What callers promise. Indexes stay below the largest number of 64 bits. -/
def Fits {σ : Type} (l : Log σ) : Operation → Prop
  | append .. => l.lastIndex + 2 < wordLimit
  | reconcile prevIndex _ batch _ =>
    NumberedFrom prevIndex batch ∧ prevIndex + batch.length + 1 < wordLimit
  | setCommitIndex i => i ≤ l.lastIndex
  | nextCommitted => True
  | install snap => snap.index + 1 < wordLimit
  | compact snap => snap.index ≤ l.lastApplied

def run {σ : Type} [LogStore σ] : Operation → LogAction σ Unit
  | append term command => (fun _ => ()) <$> Log.appendAsLeader term command
  | reconcile prevIndex prevTerm batch leaderCommit =>
    (fun _ => ()) <$> Log.reconcile prevIndex prevTerm batch leaderCommit
  | setCommitIndex i => Log.setCommitIndex i
  | nextCommitted => (fun _ => ()) <$> Log.nextCommitted
  | install snap => (fun _ => ()) <$> Log.install snap
  | compact snap => Log.compact snap

end Operation

variable {σ : Type} [LogStore σ] [LawfulStore σ] [FailStop σ] {l l' : Log σ} {op : Operation}
  {torn : Bool}

/-- What one operation preserves. -/
theorem Mirrors.wp_operation (h : Mirrors l) (hop : op.Fits l) :
    wp op.run (fun _ l' => Retains l l')
      (fun f l' => f ≠ .abort ∧ Mirrors l' ∧
        (op.isInstall = false ∨ kept l'.store = kept l.store → Whole l → Whole l')) l := by
  have hfails : ∀ f l', Fails l f l' → f ≠ .abort ∧ Mirrors l' ∧
      (op.isInstall = false ∨ kept l'.store = kept l.store → Whole l → Whole l') :=
    fun f l' hf => ⟨hf.reported, hf.mirrors, fun _ => hf.whole⟩
  cases op with
  | append term command =>
    rw [Operation.run, Action.wp_map]
    exact Action.wp_mono (h.wp_appendAsLeader term command hop) (fun _ _ hr => hr) hfails
  | reconcile prevIndex prevTerm batch leaderCommit =>
    rw [Operation.run, Action.wp_map]
    exact Action.wp_mono (h.wp_reconcile hop.1 hop.2 prevTerm leaderCommit) (fun _ _ hr => hr) hfails
  | setCommitIndex i => exact h.wp_setCommitIndex hop fun c hr => hr
  | nextCommitted =>
    rw [Operation.run, Action.wp_map]
    exact Action.wp_mono h.wp_nextCommitted (fun _ _ hr => hr) hfails
  | install snap =>
    rw [Operation.run, Action.wp_map]
    refine Action.wp_mono (h.wp_install hop) (fun _ _ hr => hr) ?_
    rintro f l' ⟨hf, hm, he⟩
    refine ⟨hf, hm, ?_⟩
    rintro (hkind | hsame) hw
    · cases hkind
    · rw [Whole, hsame, he]
      exact hw
  | compact snap => exact Action.wp_mono (h.wp_compact hop) (fun _ _ hr => hr) hfails

/-- The logs that operations lead to. The mark says whether an install that failed has changed the store since the
log was opened. -/
inductive Reached : Bool → Log σ → Prop
  | opened {s t : σ} {r : Recovered σ} (hs : Orderly (kept s)) (hr : boot s = .ok r t) :
      Reached false r.log
  | reopened {torn : Bool} {l : Log σ} {t : σ} {r : Recovered σ} (h : Reached torn l)
      (hr : boot l.store = .ok r t) : Reached false r.log
  | done {torn : Bool} {l l' : Log σ} (h : Reached torn l) (op : Operation) (hop : op.Fits l)
      (hr : op.run l = .ok () l') : Reached torn l'
  | failed {torn : Bool} {l l' : Log σ} (h : Reached torn l) (op : Operation) (hop : op.Fits l)
      {e : NodeError} (hr : op.run l = .error (.error e) l')
      (hi : op.isInstall = false ∨ kept l'.store = kept l.store) : Reached torn l'
  | tore {torn : Bool} {l l' : Log σ} (h : Reached torn l) (op : Operation) (hop : op.Fits l)
      {e : NodeError} (hr : op.run l = .error (.error e) l') : Reached true l'

/-- What any sequence of operations preserves. -/
theorem Reached.mirrors (h : Reached torn l) : Mirrors l ∧ (torn = false → Whole l) := by
  induction h with
  | opened hs hr =>
    obtain ⟨hm, hw, -⟩ := Action.wp_ok hs.wp_boot hr
    exact ⟨hm, fun _ => hw⟩
  | reopened _ hr ih =>
    obtain ⟨hm, hw, -⟩ := Action.wp_ok ih.1.orderly.wp_boot hr
    exact ⟨hm, fun _ => hw⟩
  | done _ _ hop hr ih =>
    have hkept := Action.wp_ok (ih.1.wp_operation hop) hr
    exact ⟨hkept.mirrors, fun ht => hkept.whole (ih.2 ht)⟩
  | failed _ _ hop hr hi ih =>
    obtain ⟨-, hm, hw⟩ := Action.wp_error (ih.1.wp_operation hop) hr
    exact ⟨hm, fun ht => hw hi (ih.2 ht)⟩
  | tore _ _ hop hr ih =>
    obtain ⟨-, hm, -⟩ := Action.wp_error (ih.1.wp_operation hop) hr
    exact ⟨hm, fun ht => absurd ht.symm Bool.false_ne_true⟩

/-- The entries are numbered on from the snapshot, so that each is found at its own index; the store has the same
snapshot and a beginning of the entries; no operation aborts; and to open the log again gives the same log, unless
an install that failed has changed the store. -/
theorem Reached.write_ahead (h : Reached torn l) :
    (∀ k e, l.entries[k]? = some e → e.index = l.snapshotIndex + 1 + k) ∧
    (∀ i e, l.entry? i = some e ↔ e ∈ l.entries ∧ e.index = i) ∧
    (∀ i t, l.termAt? i = some t ↔
      i = l.snapshotIndex ∧ t = l.snapshotTerm ∨ ∃ e ∈ l.entries, e.index = i ∧ e.term = t) ∧
    (∀ start most, l.snapshotIndex < start →
      l.entriesFrom start most = (l.entries.filter fun e => start ≤ e.index).take most) ∧
    ((kept l.store).covered = l.snapshotIndex ∧ (kept l.store).coveredTerm = l.snapshotTerm ∧
      (kept l.store).entries <+: l.entries) ∧
    (∀ (op : Operation) l', op.Fits l → op.run l ≠ .error .abort l') ∧
    (torn = false → (l.snapshotTerm :: l.entries.map Entry.term).Pairwise (· ≤ ·) →
      ∃ r t, boot l.store = .ok r t ∧ r.log.snapshotIndex = l.snapshotIndex ∧
        r.log.snapshotTerm = l.snapshotTerm ∧ r.log.entries = l.entries) := by
  obtain ⟨hm, hw⟩ := h.mirrors
  refine ⟨hm.numbered, fun i e => hm.entry?, fun i t => hm.termAt?,
    fun start most hs => hm.entriesFrom hs most, ⟨hm.covered, hm.coveredTerm, hm.stored⟩, ?_, ?_⟩
  · intro op l' hop hrun
    exact (Action.wp_error (hm.wp_operation hop) hrun).1 rfl
  · intro ht hterms
    exact Action.wp_exists (hm.wp_reopen (hw ht) hterms)

/-- Three writes pass: two entries, and the first of the two writes of an install. -/
def shortLived : Recorded MemoryStore := { inner := {}, budget := some 3 }

def twoEntries : Log (Recorded MemoryStore) where
  store := {
    inner := { kept := { entries := [⟨1, 1, []⟩, ⟨2, 1, []⟩] } }, budget := some 1
    writes := [.append [⟨1, 1, []⟩], .append [⟨2, 1, []⟩]] }
  entries := [⟨1, 1, []⟩, ⟨2, 1, []⟩]

theorem twoEntries_reached : Reached false twoEntries := by
  have hempty : Reached false (⟨shortLived, [], 0, 0, 0, 0⟩ : Log (Recorded MemoryStore)) :=
    .opened (s := shortLived) (r := ⟨_, {}, none⟩) ⟨.nil _, by decide⟩ rfl
  refine .done (.done hempty (.append 1 []) ?_ rfl) (.append 1 []) ?_ rfl
  · change _ < _
    decide
  · change _ < _
    decide

theorem write_ahead_twoEntries : Reached false twoEntries ∧
    (twoEntries.snapshotTerm :: twoEntries.entries.map Entry.term).Pairwise (· ≤ ·) ∧
    ∃ r t, boot twoEntries.store = .ok r t ∧ r.log.entries = twoEntries.entries := by
  have hterms : (twoEntries.snapshotTerm :: twoEntries.entries.map Entry.term).Pairwise (· ≤ ·) := by
    decide
  obtain ⟨-, -, -, -, -, -, hopen⟩ := Reached.write_ahead twoEntries_reached
  obtain ⟨r, t, hr, -, -, he⟩ := hopen rfl hterms
  exact ⟨twoEntries_reached, hterms, r, t, hr, he⟩

/-- The snapshot of another log, which ends before the second entry does. -/
def foreign : Snapshot := ⟨1, 2, []⟩

/-- The store after the first write of an install. -/
def halfInstalled : Log (Recorded MemoryStore) where
  store := {
    inner := { kept := { entries := [⟨1, 1, []⟩] } }, budget := some 0
    writes := [.append [⟨1, 1, []⟩], .append [⟨2, 1, []⟩], .truncate 2] }
  entries := [⟨1, 1, []⟩, ⟨2, 1, []⟩]

/-- After an install that failed between its two writes even an operation that succeeds, here a heartbeat, leaves a
log that the store does not hold in full. -/
theorem not_whole_after_torn_install :
    ¬ ∀ (torn : Bool) (l l' : Log (Recorded MemoryStore)) (op : Operation), Reached torn l →
      op.Fits l → op.run l = .ok () l' →
      (l'.snapshotTerm :: l'.entries.map Entry.term).Pairwise (· ≤ ·) →
      ∃ r t, boot l'.store = .ok r t ∧ r.log.entries = l'.entries := by
  intro hall
  have hreached : Reached true halfInstalled :=
    .tore twoEntries_reached (.install foreign) (by change _ < _; decide) rfl
  have hbeat : (Operation.reconcile 2 1 [] 0).Fits halfInstalled := by
    refine ⟨.nil _, ?_⟩
    decide
  obtain ⟨r, t, hr, he⟩ := hall true halfInstalled halfInstalled (.reconcile 2 1 [] 0) hreached hbeat
    rfl (by decide)
  have hlost : boot halfInstalled.store = .ok
      (⟨⟨halfInstalled.store, [⟨1, 1, []⟩], 0, 0, 0, 0⟩, {}, none⟩ : Recovered (Recorded MemoryStore))
      halfInstalled.store := rfl
  obtain ⟨rfl, -⟩ := EStateM.Result.ok.inj (hlost.symm.trans hr)
  exact absurd he (by decide)

end RaftNode.Log
