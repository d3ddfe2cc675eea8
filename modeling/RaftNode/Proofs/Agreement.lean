import RaftNode.Proofs.Filled
import RaftNode.Proofs.Reliable
/-!
# Stores of either kind agree

A log writes to its store in a certain way: entries follow those that are there, and a snapshot never goes back behind
the one that is there. A store that is written to so gives back what was written, as long as nothing fails. Whether it
keeps that in memory or in files cannot be told from what it answers.
-/
namespace RaftNode

open RaftNode.Action (wp)

/-! ## Writes of a log -/

/-- The index of the last entry; without entries, of the snapshot. -/
def Persisted.lastIndex (p : Persisted) : Index := (p.entries.getLast?.map Entry.index).getD p.covered

/-- What a log writes to a store that holds `p`. -/
def Write.Issued (p : Persisted) : Write → Prop
  | .hard h => LawfulWire.Fits h
  | .append es => NumberedFrom p.lastIndex es ∧ ∀ e ∈ es, LawfulWire.Fits e
  | .truncate _ => True
  | .install snap => p.covered ≤ snap.index ∧ LawfulWire.Fits snap

/-- The entries follow each other, and the first of them the snapshot. -/
def Persisted.Sound (p : Persisted) : Prop := NumberedFrom p.covered p.entries

variable {p : Persisted} {w : Write}

theorem Write.Issued.fits (h : w.Issued p) : w.Fits := by
  cases w with
  | hard hard => exact h
  | append es => exact h.2
  | truncate i => trivial
  | install snap => exact h.2

theorem Persisted.Sound.lastIndex (h : p.Sound) : p.lastIndex = p.covered + p.entries.length := by
  rcases List.eq_nil_or_concat' p.entries with hnil | ⟨front, e, hcat⟩
  · simp [Persisted.lastIndex, hnil]
  · have hindex := h front.length e (by simp [hcat])
    simp only [Persisted.lastIndex, hcat, List.getLast?_concat, Option.map_some, Option.getD_some,
      List.length_append, List.length_singleton]
    lia

theorem Persisted.Sound.change (h : p.Sound) (hw : w.Issued p) : (w.change p).Sound := by
  cases w with
  | hard hard => exact h
  | append es => exact NumberedFrom.append h (h.lastIndex ▸ hw.1)
  | truncate i =>
    change NumberedFrom p.covered (p.entries.filter _)
    rw [NumberedFrom.filter_below h]
    exact NumberedFrom.take h _
  | install snap =>
    change NumberedFrom snap.index (p.entries.filter _)
    rw [NumberedFrom.filter_above h]
    have hdrop := NumberedFrom.drop h (snap.index - p.covered)
    rwa [show p.covered + (snap.index - p.covered) = snap.index from Nat.add_sub_cancel' hw.1] at hdrop

/-! ## Stores that give back what was written -/

/-- While `Holds s p`, the store `s` takes what a log writes to one that holds `p`. -/
structure Obliging {σ : Type} [LogStore σ] (Holds : σ → Persisted → Prop) : Prop where
  perform : ∀ {s p w}, Holds s p → Write.Issued p w →
    wp w.perform (fun _ t => Holds t (w.change p)) (fun _ _ => False) s

/-- While `Holds s p`, it also gives back `p`. -/
structure Faithful {σ : Type} [LogStore σ] (Holds : σ → Persisted → Prop) : Prop extends Obliging Holds where
  load : ∀ {s p}, Holds s p → wp LogStore.load (fun q t => q = p ∧ Holds t p) (fun _ _ => False) s
  loadSnapshot : ∀ {s p}, Holds s p → LogStore.loadSnapshot s = .ok p.snapshot

/-- A store that keeps working, whatever is written. -/
theorem faithful_reliable {σ : Type} [LogStore σ] [LawfulStore σ] :
    Faithful fun (s : σ) p => Reliable s ∧ kept s = p where
  perform := by
    rintro s _ w ⟨hs, rfl⟩ -
    exact hs.perform w
  load := by
    rintro s _ ⟨hs, rfl⟩
    refine Action.wp_imp hs.load ?_
    rintro _ t ⟨ht, rfl, hkept⟩
    exact ⟨rfl, ht, hkept⟩
  loadSnapshot := by
    rintro s _ ⟨hs, rfl⟩
    exact hs.serves.loadSnapshot

namespace FileStore

/-- Files that hold a log. -/
structure HoldsFiles (s : FileStore) (p : Persisted) : Prop extends Files s p where
  sound : p.Sound

/-- The snapshot covers none of the entries. -/
theorem loaded_of_sound (h : p.Sound) : loaded p = p := by
  have hall : p.entries.filter (fun e => p.covered < e.index) = p.entries :=
    List.filter_eq_self.mpr fun e he => decide_eq_true (NumberedFrom.mem_index h he).1
  obtain ⟨hard, snapshot, entries⟩ := p
  exact congrArg (Persisted.mk hard snapshot) hall

theorem faithful_files : Faithful HoldsFiles where
  perform := by
    rintro s p w ⟨hfiles, hsound⟩ hw
    refine Action.wp_mono (hfiles.wp_perform hw.fits) ?_ ?_
    · intro _ t ht
      exact ⟨ht, hsound.change hw⟩
    · intro _ _ hgap
      exact hgap (adjacent_of_numbered hsound)
  load := by
    rintro s p ⟨hfiles, hsound⟩
    have heq := loaded_of_sound hsound
    have hload := hfiles.load_eq (adjacent_of_numbered hsound) (heq.symm ▸ hsound)
    change wp FileStore.load _ _ s
    rw [wp, hload]
    exact ⟨heq, hfiles, hsound⟩
  loadSnapshot h := h.toFiles.loadSnapshot

/-- The directory, opened again. -/
def reopened (s : FileStore) : FileStore := { disk := { folder := s.disk.folder } }

theorem HoldsFiles.reopened {s : FileStore} (h : HoldsFiles s p) : HoldsFiles s.reopened p where
  power := rfl
  writable name hname := ⟨rfl, (h.writable name hname).free⟩
  hardFile := h.hardFile
  snapshotFile := h.snapshotFile
  logFile := h.logFile
  hardFits := h.hardFits
  snapshotFits := h.snapshotFits
  logFits := h.logFits
  sound := h.sound

end FileStore

/-! ## Calls and what they return -/

/-- A call on a store, or a restart between two calls. -/
inductive StoreCall where
  | write (w : Write)
  | load
  | loadSnapshot
  | reopen
  deriving DecidableEq, Repr

inductive StoreAnswer where
  | done
  | persisted (p : Persisted)
  | snapshot (snap : Option Snapshot)
  deriving DecidableEq, Repr

namespace StoreCall

/-- A call as a log makes it on a store that holds `p`. -/
def Issued (p : Persisted) : StoreCall → Prop
  | .write w => w.Issued p
  | _ => True

def change : StoreCall → Persisted → Persisted
  | .write w, p => w.change p
  | _, p => p

/-- What a store that holds `p` has to answer. -/
def answer (p : Persisted) : StoreCall → StoreAnswer
  | .write _ | .reopen => .done
  | .load => .persisted p
  | .loadSnapshot => .snapshot p.snapshot

variable {σ : Type} [LogStore σ]

/-- What a call returns, and the store that it leaves. -/
def run (reopened : σ → σ) (s : σ) : StoreCall → Except (Fault StoreError) StoreAnswer × σ
  | .write w =>
    match w.perform s with
    | .ok () t => (.ok .done, t)
    | .error f t => (.error f, t)
  | .load =>
    match LogStore.load s with
    | .ok q t => (.ok (.persisted q), t)
    | .error f t => (.error f, t)
  | .loadSnapshot => (((LogStore.loadSnapshot s).map .snapshot).mapError .error, s)
  | .reopen => (.ok .done, reopened s)

/-- What the calls return one after another. -/
def answers (reopened : σ → σ) : σ → List StoreCall → List (Except (Fault StoreError) StoreAnswer)
  | _, [] => []
  | s, c :: calls => (c.run reopened s).1 :: answers reopened (c.run reopened s).2 calls

/-- Each call is one that a log makes after those before it. -/
def AllIssued : Persisted → List StoreCall → Prop
  | _, [] => True
  | p, c :: calls => c.Issued p ∧ AllIssued (c.change p) calls

/-- What the calls have to return. -/
def expected : Persisted → List StoreCall → List StoreAnswer
  | _, [] => []
  | p, c :: calls => c.answer p :: expected (c.change p) calls

/-! ## Agreement -/

variable {Holds : σ → Persisted → Prop} {reopened : σ → σ} {s : σ} {p : Persisted} {calls : List StoreCall}

theorem run_of_faithful (h : Faithful Holds) (hreopened : ∀ {s p}, Holds s p → Holds (reopened s) p)
    (hs : Holds s p) {c : StoreCall} (hc : c.Issued p) :
    (c.run reopened s).1 = .ok (c.answer p) ∧ Holds (c.run reopened s).2 (c.change p) := by
  cases c with
  | write w =>
    obtain ⟨_, t, hrun, ht⟩ := Action.wp_exists (h.perform hs hc)
    rw [run, hrun]
    exact ⟨rfl, ht⟩
  | load =>
    obtain ⟨_, t, hrun, rfl, ht⟩ := Action.wp_exists (h.load hs)
    rw [run, hrun]
    exact ⟨rfl, ht⟩
  | loadSnapshot =>
    rw [run, h.loadSnapshot hs]
    exact ⟨rfl, hs⟩
  | reopen => exact ⟨rfl, hreopened hs⟩

theorem answers_of_faithful (h : Faithful Holds) (hreopened : ∀ {s p}, Holds s p → Holds (reopened s) p)
    (hs : Holds s p) (hcalls : AllIssued p calls) :
    answers reopened s calls = (expected p calls).map .ok := by
  induction calls generalizing s p with
  | nil => rfl
  | cons c calls ih =>
    obtain ⟨hc, hrest⟩ := hcalls
    obtain ⟨hanswer, hnext⟩ := run_of_faithful h hreopened hs hc
    rw [answers, hanswer, ih hnext hrest]
    rfl

/-- Files answer as memory does, and no call fails. -/
theorem stores_agree {s : FileStore} (hs : s.Fresh) (hcalls : AllIssued {} calls) :
    answers FileStore.reopened s calls = answers id ({} : MemoryStore) calls ∧
      ∀ a ∈ answers FileStore.reopened s calls, ∃ r, a = .ok r := by
  have hfiles : answers FileStore.reopened s calls = (expected {} calls).map .ok :=
    answers_of_faithful FileStore.faithful_files FileStore.HoldsFiles.reopened ⟨hs.files, .nil 0⟩ hcalls
  have hmemory : answers id ({} : MemoryStore) calls = (expected {} calls).map .ok :=
    answers_of_faithful faithful_reliable id ⟨reliable_memory rfl, rfl⟩ hcalls
  rw [hfiles, hmemory]
  refine ⟨rfl, ?_⟩
  intro a ha
  obtain ⟨r, -, rfl⟩ := List.mem_map.mp ha
  exact ⟨r, rfl⟩

/-- A log is cut back, compacted, and then overtaken by a snapshot that is far ahead of it. -/
def overtaken : List StoreCall :=
  [.write (.hard ⟨1, some 2⟩), .write (.append [⟨1, 1, [97]⟩, ⟨2, 1, []⟩, ⟨3, 1, [0, 255]⟩]), .reopen,
    .write (.truncate 3), .load, .write (.install ⟨1, 1, [7]⟩), .loadSnapshot,
    .write (.append [⟨3, wordLimit - 1, [98]⟩]), .write (.install ⟨9, 4, []⟩), .reopen,
    .write (.append [⟨10, 4, [99]⟩]), .load]

theorem overtaken_issued : AllIssued {} overtaken := by
  have hfirst : NumberedFrom 0 [⟨1, 1, [97]⟩, ⟨2, 1, []⟩, ⟨3, 1, [0, 255]⟩] :=
    .cons rfl (.cons rfl (.singleton 1 [0, 255]))
  have hfits : ∀ e ∈ [(⟨1, 1, [97]⟩ : Entry), ⟨2, 1, []⟩, ⟨3, 1, [0, 255]⟩], LawfulWire.Fits e := by
    simp only [LawfulWire.Fits]
    decide
  refine ⟨⟨by decide, by decide⟩, ⟨hfirst, hfits⟩, trivial, trivial, trivial, ?_, trivial, ?_, ?_, trivial, ?_, trivial,
    trivial⟩
  · exact ⟨Nat.zero_le 1, by decide, by decide⟩
  · exact ⟨.singleton (wordLimit - 1) [98], by simp only [LawfulWire.Fits]; decide⟩
  · exact ⟨by decide, by decide, by decide⟩
  · exact ⟨.singleton 4 [99], by simp only [LawfulWire.Fits]; decide⟩

theorem stores_agree_overtaken : FileStore.Fresh {} ∧ AllIssued {} overtaken ∧
    answers FileStore.reopened {} overtaken = answers id ({} : MemoryStore) overtaken ∧
    (answers FileStore.reopened {} overtaken).getLast? =
      some (.ok (.persisted ⟨⟨1, some 2⟩, some ⟨9, 4, []⟩, [⟨10, 4, [99]⟩]⟩)) := by
  obtain ⟨hagree, -⟩ := stores_agree FileStore.fresh_empty overtaken_issued
  refine ⟨FileStore.fresh_empty, overtaken_issued, hagree, ?_⟩
  rw [hagree]
  rfl

end StoreCall

end RaftNode
