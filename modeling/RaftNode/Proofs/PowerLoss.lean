import RaftNode.Proofs.Directory
import RaftNode.Proofs.InMemory
/-!
# Snapshots and power loss

A log comes to stand behind a snapshot by an install or by compaction. Wherever power is lost meanwhile, the directory
opens again as the log was before, or as it is when all is done; an install of a snapshot that the log disagrees with
may also have cut off the entries behind it.
-/
namespace RaftNode

open RaftNode.Action (wp)

/-- The entries that boot keeps: those before the first that is older than the snapshot. -/
def Persisted.kept (p : Persisted) : List Entry := p.entries.takeWhile fun e => p.coveredTerm ≤ e.term

/-- Behind them stands nothing, or an older one. -/
theorem Persisted.exists_rest (p : Persisted) :
    ∃ rest, p.entries = p.kept ++ rest ∧ ∀ e ∈ rest.head?, e.term < p.coveredTerm := by
  refine ⟨p.entries.dropWhile fun e => p.coveredTerm ≤ e.term, List.takeWhile_append_dropWhile.symm, ?_⟩
  intro e he
  have hnot := List.head?_dropWhile_not (fun e : Entry => decide (p.coveredTerm ≤ e.term)) p.entries
  rw [Option.mem_def.mp he] at hnot
  simpa using hnot

/-- The first entry that boot finds behind them. -/
theorem Persisted.head?_rest {p : Persisted} {rest : List Entry} (h : p.entries = p.kept ++ rest) :
    (p.entries.drop (p.entries.takeWhile fun e =>
      (p.snapshot.map Snapshot.term).getD 0 ≤ e.term).length).head? = rest.head? := by
  change (p.entries.drop p.kept.length).head? = rest.head?
  rw [h, List.drop_left]

theorem Persisted.le_of_mem_kept {p : Persisted} {e : Entry} (he : e ∈ p.kept) :
    p.coveredTerm ≤ e.term := by
  rw [kept] at he
  simpa using List.mem_takeWhile_imp he

theorem Persisted.kept_eq {p : Persisted} (h : ∀ e ∈ p.entries, p.coveredTerm ≤ e.term) :
    p.kept = p.entries :=
  List.takeWhile_eq_self_iff.mpr fun e he => decide_eq_true (h e he)

namespace FileStore

variable {s : FileStore} {hard : HardState} {snapshot : Option Snapshot} {F : List Entry}
  {p : Persisted} {r : Log.Recovered FileStore}

/-- The directory when there is power again. -/
def rested (s : FileStore) : FileStore := { disk := { s.disk with fuse := none } }

/-- The directory opens with this log and what goes with it. -/
def Opens (s : FileStore) (r : Log.Recovered FileStore) : Prop := ∃ t, Log.boot s.rested = .ok r t

/-- It opens, and then it opens the same again and nothing is written. -/
structure Reopens (s : FileStore) (r : Log.Recovered FileStore) : Prop where
  first : Log.boot s.rested = .ok r r.log.store
  again : Log.boot r.log.store = .ok r r.log.store

theorem Contains.rested (h : Contains s hard snapshot F) : Contains s.rested hard snapshot F :=
  h.spares (.of_folder [] rfl rfl) (by simp) (by simp) (by simp)

theorem Contains.of_rested (h : Contains s.rested hard snapshot F) : Contains s hard snapshot F :=
  h.spares (.of_folder [] rfl rfl) (by simp) (by simp) (by simp)

theorem Gapped.not_opens (h : Gapped s) : ¬ Opens s r := by
  have hrested : Gapped s.rested := h
  have hwp : wp Log.boot (fun _ _ => False) (fun _ _ => True) s.rested := by
    rw [Log.boot, Action.wp_bind, Action.wp_within]
    exact Action.wp_mono hrested.wp_load (fun _ _ => False.elim) fun _ _ h => h
  rintro ⟨t, hr⟩
  exact Action.wp_ok hwp hr

/-- A log over what a directory stands for. -/
def recovered (s : FileStore) (p : Persisted) : Log.Recovered FileStore where
  log := ⟨s, p.kept, p.covered, p.coveredTerm, p.covered, p.covered⟩
  hard := p.hard
  snapshot := p.snapshot

/-- It stands for this, and opening it writes nothing. -/
def Steady (s : FileStore) (p : Persisted) : Prop := Log.boot s = .ok (recovered s p) s

theorem Contains.steady (h : Contains s hard snapshot F) (hholds : HoldsLog s F false)
    (hp : persisted hard snapshot F = p) (hnum : NumberedFrom p.covered p.entries)
    (hkept : p.kept = p.entries) : Steady s p := by
  subst hp
  have hread : wp readLog (fun es s' => es = F ∧ s' = s) (fun _ _ => False) s :=
    hholds.wp_readLog (fun _ => ⟨rfl, rfl⟩) (by rintro ⟨⟩)
  have hwp : wp Log.boot (fun r s' => r = recovered s (persisted hard snapshot F) ∧ s' = s)
      (fun _ _ => False) s := by
    rw [Log.boot, Action.wp_bind, Action.wp_within]
    refine Action.wp_mono (h.wp_load hnum hread) ?_ fun _ _ => False.elim
    rintro q s' ⟨rfl, rfl⟩
    have hentries : (persisted hard snapshot F).entries = (persisted hard snapshot F).kept ++ [] := by
      rw [hkept, List.append_nil]
    dsimp only
    rw [Persisted.head?_rest hentries]
    exact ⟨rfl, rfl⟩
  obtain ⟨r, s', hboot, rfl, rfl⟩ := Action.wp_exists hwp
  exact hboot

/-- What is older than the snapshot is cut off, and then opening writes nothing. -/
theorem Contains.wp_drop_stale (h : Contains s hard snapshot F) (hholds : HoldsLog s F false)
    (hfuse : s.disk.fuse = none) (hp : persisted hard snapshot F = p)
    (hnum : NumberedFrom p.covered p.entries) {e : Entry} {rest : List Entry}
    (hentries : p.entries = p.kept ++ e :: rest) (hold : e.term < p.coveredTerm) :
    wp (truncate e.index) (fun _ t => Steady t p) (fun _ _ => False) s := by
  have hmem : e ∈ p.entries := by
    rw [hentries]
    exact List.mem_append_right _ List.mem_cons_self
  have hwritable : Disk.Writable "log" s.disk := h.stale (hp.symm ▸ ⟨e, hmem, hold⟩)
  have hindex : e.index = p.covered + 1 + p.kept.length := by
    refine hnum _ e ?_
    rw [hentries, List.getElem?_append_right le_rfl, Nat.sub_self]
    rfl
  have hbelow : p.entries.filter (fun a => a.index < e.index) = p.kept := by
    rw [hnum.filter_below, hindex, show p.covered + 1 + p.kept.length - p.covered - 1 =
      p.kept.length by lia, hentries, List.take_left]
  -- what the directory stands for afterwards
  have hcut : persisted hard snapshot (F.filter fun a => a.index < e.index) =
      { p with entries := p.kept } := by
    rw [← hbelow, ← hp, persisted, List.filter_comm]
    rfl
  have hkept : ({ p with entries := p.kept } : Persisted).kept = p.kept :=
    Persisted.kept_eq fun a ha => Persisted.le_of_mem_kept (p := p) ha
  have hnum' : NumberedFrom p.covered p.kept := by
    have htake := hnum.take p.kept.length
    rwa [hentries, List.take_left] at htake
  refine Action.wp_imp (h.wp_truncate_lasting (k := none) hholds hwritable hfuse) ?_
  rintro - t ⟨ht, hreplaced, -⟩
  have hholds' := h.holds_replaced hreplaced (List.filter_subset_self _)
    (h.adjacent.filter_below e.index)
  have hsteady : Steady t { p with entries := p.kept } := ht.steady hholds' hcut hnum' hkept
  have hrecovered : recovered t { p with entries := p.kept } = recovered t p := by
    rw [recovered, hkept]
    rfl
  rwa [Steady, hrecovered] at hsteady

/-- Boot mends a torn file and drops what is older than the snapshot, and after that there is nothing to mend. -/
theorem Contains.reopens (h : Contains s hard snapshot F) (hp : persisted hard snapshot F = p)
    (hnum : NumberedFrom p.covered p.entries) : ∃ t, Reopens s (recovered t p) := by
  obtain ⟨rest, hentries, hrest⟩ := p.exists_rest
  have hwp : wp Log.boot (fun r t => r = recovered t p ∧ Steady t p)
      (fun _ _ => False) s.rested := by
    rw [Log.boot, Action.wp_bind, Action.wp_within]
    have hload := h.rested.wp_load (hp.symm ▸ hnum) (h.rested.wp_readLog_powered rfl)
    refine Action.wp_mono hload ?_ fun _ _ => False.elim
    rintro q s₁ ⟨rfl, h₁, hholds₁, hfuse₁⟩
    rw [hp]
    dsimp only
    rw [Persisted.head?_rest hentries]
    cases rest with
    | nil =>
      have hkept : p.kept = p.entries := by rw [hentries, List.append_nil]
      exact ⟨rfl, h₁.steady hholds₁ hp hnum hkept⟩
    | cons e rest =>
      have hdrop := h₁.wp_drop_stale hholds₁ hfuse₁ hp hnum hentries (hrest e rfl)
      change wp (Action.within id _ _ (FileStore.truncate e.index) >>= _) _ _ _
      rw [Action.wp_bind, Action.wp_within]
      refine Action.wp_mono hdrop ?_ fun _ _ => False.elim
      intro _ s₂ hsteady
      exact ⟨rfl, hsteady⟩
  obtain ⟨r, t, hboot, rfl, hagain⟩ := Action.wp_exists hwp
  exact ⟨t, hboot, hagain⟩

/-- A truncation that succeeds has rewritten the log file. -/
theorem HoldsLog.wp_truncate_writable (h : HoldsLog s F false) (i : Index) :
    wp (truncate i) (fun _ _ => Disk.Writable "log" s.disk) (fun _ _ => True) s := by
  rw [truncate, Action.wp_bind]
  refine h.wp_readLog (fun _ => ?_) (by rintro ⟨⟩)
  exact Action.wp_mono (wp_replace "log" _ s) (fun _ _ h => h.2) fun _ _ _ => trivial

/-- What a directory contains that opens. -/
theorem Opens.contains (h : Opens s r) :
    ∃ F, Contains s r.hard r.snapshot F ∧
      NumberedFrom (persisted r.hard r.snapshot F).covered (persisted r.hard r.snapshot F).entries := by
  have hwp : wp Log.boot
      (fun r _ => ∃ F, Contains s.rested r.hard r.snapshot F ∧
        NumberedFrom (persisted r.hard r.snapshot F).covered (persisted r.hard r.snapshot F).entries)
      (fun _ _ => True) s.rested := by
    rw [Log.boot, Action.wp_bind, Action.wp_within]
    refine Action.wp_mono (wp_load_holds s.rested) ?_ fun _ _ _ => trivial
    rintro p s₁ ⟨F, torn, hp, hnum, hhard, hsnapshot, hholds, hwhole, htorn⟩
    have hcontains (hstale : (∃ e ∈ p.entries, e.term < p.coveredTerm) →
        Disk.Writable "log" s.rested.disk) : Contains s.rested p.hard p.snapshot F :=
      ⟨hhard, hsnapshot, ⟨torn, hholds, fun ht => (htorn ht).1⟩, hp ▸ hstale⟩
    have hnumbered : NumberedFrom (persisted p.hard p.snapshot F).covered
      (persisted p.hard p.snapshot F).entries := hp ▸ hnum
    obtain ⟨rest, hentries, hrest⟩ := p.exists_rest
    dsimp only
    rw [Persisted.head?_rest hentries]
    cases rest with
    | nil =>
      refine ⟨F, hcontains ?_, hnumbered⟩
      rintro ⟨e, he, hterm⟩
      rw [hentries, List.append_nil] at he
      exact absurd hterm (not_lt.mpr (Persisted.le_of_mem_kept he))
    | cons e rest =>
      have htruncate : wp (truncate e.index) (fun _ _ => Disk.Writable "log" s.rested.disk)
          (fun _ _ => True) s₁ := by
        cases torn with
        | false => exact hwhole rfl ▸ hholds.wp_truncate_writable e.index
        | true => exact Action.wp_mono (Action.wp_trivial _ _) (fun _ _ _ => (htorn rfl).1) fun _ _ h => h
      change wp (Action.within id _ _ (truncate e.index) >>= _) _ _ _
      rw [Action.wp_bind, Action.wp_within]
      refine Action.wp_mono htruncate ?_ fun _ _ h => h
      intro _ s₂ hwritable
      exact ⟨F, hcontains fun _ => hwritable, hnumbered⟩
  obtain ⟨t, hr⟩ := h
  obtain ⟨F, hF, hnum⟩ := Action.wp_ok hwp hr
  exact ⟨F, hF.of_rested, hnum⟩

end FileStore

/-! ## Logs over directories -/

namespace Log

variable {l l' : Log FileStore} {r : Recovered FileStore} {p : Persisted} {snap : Snapshot}
  {F G : List Entry} {hard : HardState} {snapshot : Option Snapshot}

/-- The same entries behind the same snapshot. -/
structure Alike (l l' : Log FileStore) : Prop where
  entries : l.entries = l'.entries
  snapshotIndex : l.snapshotIndex = l'.snapshotIndex
  snapshotTerm : l.snapshotTerm = l'.snapshotTerm

/-- The directory of the log opens as the log stands. -/
structure Stands (l : Log FileStore) (r : Recovered FileStore) : Prop where
  opens : FileStore.Opens l.store r
  alike : Alike r.log l

/-- Terms never decrease, from that of the snapshot on. -/
def Ascends (l : Log FileStore) : Prop :=
  (l.snapshotTerm :: l.entries.map Entry.term).Pairwise (· ≤ ·)

/-- How a log comes to stand behind a snapshot. -/
inductive Move where
  | install
  | compact

def Move.run (snap : Snapshot) : Move → LogAction FileStore Unit
  | .install => (fun _ => ()) <$> Log.install snap
  | .compact => Log.compact snap

/-- A log is compacted at an index that is applied, with the term it has there. -/
def Move.Allowed (l : Log FileStore) (snap : Snapshot) : Move → Prop
  | .install => True
  | .compact => snap.index ≤ l.lastApplied ∧ l.termAt? snap.index = some snap.term

/-- The log when all is done. What is applied or compacted already is not touched. -/
def Move.complete (l : Log FileStore) (snap : Snapshot) : Move → Log FileStore
  | .install => if snap.index ≤ l.lastApplied then l else l.installed snap l.store
  | .compact => if snap.index ≤ l.snapshotIndex then l else l.compacted snap l.store

theorem Alike.refl (l : Log FileStore) : Alike l l := ⟨rfl, rfl, rfl⟩

theorem Alike.trans {l'' : Log FileStore} (h : Alike l l') (h' : Alike l' l'') : Alike l l'' :=
  ⟨h.entries.trans h'.entries, h.snapshotIndex.trans h'.snapshotIndex,
    h.snapshotTerm.trans h'.snapshotTerm⟩

theorem Alike.symm (h : Alike l l') : Alike l' l :=
  ⟨h.entries.symm, h.snapshotIndex.symm, h.snapshotTerm.symm⟩

/-- What the files of the log hold: all that the log keeps, and perhaps more behind it or covered by the snapshot. -/
structure Rests (l : Log FileStore) (p : Persisted) (F : List Entry) : Prop where
  contains : FileStore.Contains l.store p.hard p.snapshot F
  persisted : FileStore.persisted p.hard p.snapshot F = p
  numbered : NumberedFrom p.covered p.entries
  entries : l.entries = p.kept
  snapshotIndex : l.snapshotIndex = p.covered
  snapshotTerm : l.snapshotTerm = p.coveredTerm

theorem Stands.rests (h : Stands l r) :
    ∃ F, Rests l (FileStore.persisted r.hard r.snapshot F) F := by
  obtain ⟨F, hcontains, hnum⟩ := h.opens.contains
  obtain ⟨s, hfirst, -⟩ := hcontains.reopens rfl hnum
  obtain ⟨t, hopen⟩ := h.opens
  have hr := EStateM.Result.ok.inj (hfirst.symm.trans hopen)
  have halike := h.alike
  rw [← hr.1] at halike
  exact ⟨F, hcontains, rfl, hnum, halike.entries.symm, halike.snapshotIndex.symm,
    halike.snapshotTerm.symm⟩

theorem Rests.logNumbered (h : Rests l p F) : NumberedFrom l.snapshotIndex l.entries := by
  obtain ⟨rest, hentries, -⟩ := p.exists_rest
  have htake := h.numbered.take p.kept.length
  rwa [hentries, List.take_left, ← h.entries, ← h.snapshotIndex] at htake

/-- What stands behind a later snapshot in the files. -/
theorem Rests.entries_behind (h : Rests l p F) (hnew : l.snapshotIndex < snap.index) :
    (FileStore.persisted p.hard (some snap) F).entries =
      p.entries.drop (snap.index - l.snapshotIndex) := by
  have hentries : p.entries = F.filter fun e => p.covered < e.index :=
    congrArg Persisted.entries h.persisted.symm
  have hcovered := h.snapshotIndex
  rw [hcovered, ← h.numbered.filter_above, hentries, List.filter_filter]
  refine List.filter_congr fun e _ => ?_
  rw [Bool.eq_iff_iff]
  simp only [Bool.and_eq_true, decide_eq_true_eq, Option.map_some, Option.getD_some]
  lia

/-- A log that agrees with a snapshot reaches as far, and nothing in it is older behind the snapshot. -/
theorem agrees (hasc : l.Ascends) (hnew : l.snapshotIndex < snap.index) (hterm : l.termAt? snap.index = some snap.term) :
    snap.index - l.snapshotIndex ≤ l.entries.length ∧ l.snapshotTerm ≤ snap.term ∧
      ∀ e ∈ l.entries.drop (snap.index - l.snapshotIndex), snap.term ≤ e.term := by
  rw [termAt?_of_lt hnew, entry?, if_neg (not_le.mpr hnew)] at hterm
  obtain ⟨a, ha, hat⟩ := Option.map_eq_some_iff.mp hterm
  obtain ⟨hless, -⟩ := List.getElem?_eq_some_iff.mp ha
  have hlength : snap.index - l.snapshotIndex ≤ l.entries.length := by lia
  obtain ⟨hfirst, hpairs⟩ := List.pairwise_cons.mp hasc
  rw [List.pairwise_map] at hpairs
  refine ⟨hlength, ?_, fun e he => ?_⟩
  · rw [← hat]
    exact hfirst _ (List.mem_map_of_mem (List.mem_of_getElem? ha))
  · rw [← List.take_append_drop (snap.index - l.snapshotIndex) l.entries,
      List.pairwise_append] at hpairs
    have htake : (l.entries.take (snap.index - l.snapshotIndex))[snap.index - l.snapshotIndex - 1]? =
        some a := by
      rw [List.getElem?_take_of_lt (by lia)]
      exact ha
    exact hat ▸ hpairs.2.2 a (List.mem_of_getElem? htake) e he

/-- The new snapshot, and behind it in the files what an install keeps. -/
structure Covers (l : Log FileStore) (snap : Snapshot) (hard : HardState) (F : List Entry) : Prop where
  numbered : NumberedFrom snap.index (FileStore.persisted hard (some snap) F).entries
  kept : (FileStore.persisted hard (some snap) F).kept = (l.installed snap l.store).entries

/-- If the log agrees with the snapshot, the log file may stay as it is for now. -/
theorem Rests.covers (h : Rests l p F) (hasc : l.Ascends) (hnew : l.snapshotIndex < snap.index)
    (hterm : l.termAt? snap.index = some snap.term) : Covers l snap p.hard F ∧
      ((∃ e ∈ (FileStore.persisted p.hard (some snap) F).entries, e.term < snap.term) →
        Disk.Writable "log" l.store.disk) := by
  obtain ⟨hlength, hlow, hdrop⟩ := agrees hasc hnew hterm
  obtain ⟨rest, hentries, hrest⟩ := p.exists_rest
  have hinstalled : (l.installed snap l.store).entries = l.entries.drop (snap.index - l.snapshotIndex) :=
    if_pos hterm
  have hbehind : (FileStore.persisted p.hard (some snap) F).entries =
      l.entries.drop (snap.index - l.snapshotIndex) ++ rest := by
    rw [h.entries_behind hnew, hentries, ← h.entries, List.drop_append_of_le_length hlength]
  refine ⟨⟨?_, ?_⟩, ?_⟩
  · have hindex : p.covered + (snap.index - l.snapshotIndex) = snap.index := by
      have hcovered := h.snapshotIndex
      lia
    have hdropped := h.numbered.drop (snap.index - l.snapshotIndex)
    rwa [hindex, ← h.entries_behind hnew] at hdropped
  · have hnone : rest.takeWhile (fun e => decide (snap.term ≤ e.term)) = [] := by
      cases rest with
      | nil => rfl
      | cons e rest =>
        have hold := hrest e rfl
        rw [← h.snapshotTerm] at hold
        exact List.takeWhile_cons_of_neg (by simpa using hold.trans_le hlow)
    change (FileStore.persisted p.hard (some snap) F).entries.takeWhile _ = _
    rw [hbehind, hinstalled, List.takeWhile_append_of_pos]
    · exact (congrArg _ hnone).trans (List.append_nil _)
    · exact fun e he => decide_eq_true (hdrop e he)
  · rintro ⟨e, he, hold⟩
    rw [hbehind, List.mem_append] at he
    rcases he with he | he
    · exact absurd hold (not_lt.mpr (hdrop e he))
    · -- the first entry behind the log is older than the snapshot that stands
      cases rest with
      | nil => cases he
      | cons first rest =>
        refine h.contains.stale ⟨first, ?_, ?_⟩
        · rw [h.persisted, hentries]
          exact List.mem_append_right _ List.mem_cons_self
        · rw [h.persisted]
          exact hrest first rfl

/-- What a truncation to the end of a snapshot leaves. -/
theorem Rests.cut (h : Rests l p F) (snap : Snapshot) :
    FileStore.persisted p.hard p.snapshot (F.filter fun e => e.index < snap.index + 1) =
        { p with entries := p.entries.filter fun e => e.index < snap.index + 1 } ∧
      NumberedFrom p.covered (p.entries.filter fun e => e.index < snap.index + 1) ∧
      ({ p with entries := p.entries.filter fun e => e.index < snap.index + 1 } : Persisted).kept =
        l.entries.filter fun e => e.index ≤ snap.index := by
  have hbelow := h.numbered.filter_below (snap.index + 1)
  refine ⟨?_, ?_, ?_⟩
  · have hentries : p.entries = F.filter fun e => p.covered < e.index :=
      congrArg Persisted.entries h.persisted.symm
    rw [hentries, FileStore.persisted, List.filter_comm]
    rfl
  · rw [hbelow]
    exact h.numbered.take _
  · have hcovered := h.snapshotIndex
    calc ({ p with entries := p.entries.filter fun e => e.index < snap.index + 1 } : Persisted).kept
        = (p.entries.take (snap.index + 1 - p.covered - 1)).takeWhile fun e => p.coveredTerm ≤ e.term := by
          rw [← hbelow]
          rfl
      _ = p.kept.take (snap.index + 1 - p.covered - 1) := List.take_takeWhile.symm
      _ = l.entries.take (snap.index + 1 - l.snapshotIndex - 1) := by rw [h.entries, hcovered]
      _ = l.entries.filter fun e => e.index < snap.index + 1 := (h.logNumbered.filter_below _).symm
      _ = l.entries.filter fun e => e.index ≤ snap.index :=
          List.filter_congr fun e _ => by simp only [Nat.lt_succ_iff]

/-! ## What power loss may leave -/

variable {s : FileStore}

/-- The new snapshot is stored, and the log file holds what is kept behind it. -/
def Done (l : Log FileStore) (snap : Snapshot) (hard : HardState) (s : FileStore) : Prop :=
  ∃ F, FileStore.Contains s hard (some snap) F ∧ Covers l snap hard F

/-- The files as they were, the log file cut at the end of the snapshot, or all that has to be done. -/
inductive Leaves (l : Log FileStore) (snap : Snapshot) (p : Persisted) (F : List Entry)
    (s : FileStore) : Prop
  | before (h : FileStore.Contains s p.hard p.snapshot F)
  | cut (h : FileStore.Contains s p.hard p.snapshot (F.filter fun e => e.index < snap.index + 1))
    (hdiffers : l.termAt? snap.index ≠ some snap.term)
  | done (h : Done l snap p.hard s)

theorem Covers.filter (h : Covers l snap hard F) :
    Covers l snap hard (F.filter fun e => snap.index < e.index) := by
  have htwice : FileStore.persisted hard (some snap) (F.filter fun e => snap.index < e.index) =
      FileStore.persisted hard (some snap) F := by
    simp [FileStore.persisted, List.filter_filter]
  exact ⟨htwice ▸ h.numbered, htwice ▸ h.kept⟩

/-- If the log disagrees with the snapshot, nothing is kept behind it once the log file is cut. -/
theorem covers_cut (hterm : l.termAt? snap.index ≠ some snap.term) (hard : HardState)
    (F : List Entry) : Covers l snap hard (F.filter fun e => e.index < snap.index + 1) ∧
      (FileStore.persisted hard (some snap) (F.filter fun e => e.index < snap.index + 1)).entries =
        [] := by
  have hnone : (FileStore.persisted hard (some snap)
      (F.filter fun e => e.index < snap.index + 1)).entries = [] := by
    change List.filter _ (List.filter _ F) = []
    rw [List.filter_filter, List.filter_eq_nil_iff]
    intro e _
    simp only [Option.map_some, Option.getD_some, Bool.and_eq_true, decide_eq_true_eq]
    lia
  refine ⟨⟨hnone ▸ .nil _, ?_⟩, hnone⟩
  rw [Persisted.kept, hnone, installed, if_neg hterm]
  rfl

/-- The snapshot is stored, and then the log file is rewritten. -/
theorem wp_keepSnapshot (h : FileStore.Contains s hard snapshot F) (hsnap : LawfulWire.Fits snap)
    (hstale : (∃ e ∈ (FileStore.persisted hard (some snap) F).entries, e.term < snap.term) →
      Disk.Writable "log" s.disk) (hcovers : Covers l snap hard F) :
    wp (LogStore.install snap) (fun _ s' => Done l snap hard s')
      (fun _ s' => FileStore.Contains s' hard snapshot F ∨ Done l snap hard s') s := by
  refine Action.wp_mono (h.wp_install hsnap hstale) ?_ ?_
  · intro _ s' hs'
    exact ⟨_, hs', hcovers.filter⟩
  · rintro _ s' (hs' | hs' | hs')
    · exact Or.inl hs'
    · exact Or.inr ⟨F, hs', hcovers⟩
    · exact Or.inr ⟨_, hs', hcovers.filter⟩

theorem Rests.wp_install (h : Rests l p F) (hcompacted : l.snapshotIndex ≤ l.lastApplied)
    (hasc : l.Ascends) (hsnap : LawfulWire.Fits snap) :
    wp (install snap)
      (fun _ l' => l' = l ∧ snap.index ≤ l.lastApplied ∨
        l.lastApplied < snap.index ∧ ∃ s, l' = l.installed snap s ∧ Done l snap p.hard s)
      (fun _ l' => l.lastApplied < snap.index ∧ Leaves l snap p F l'.store) l := by
  simp only [install, onStore, Action.wp_bind, Action.wp_get, Action.wp_ite, Action.wp_modify,
    Action.wp_pure, Action.wp_within]
  split
  · rename_i hold
    exact Or.inl ⟨trivial, hold⟩
  rename_i hold
  have hahead : l.lastApplied < snap.index := not_le.mp hold
  have hnew : l.snapshotIndex < snap.index := by lia
  split
  · rename_i hterm
    obtain ⟨hcovers, hstale⟩ := h.covers hasc hnew hterm
    refine Action.wp_mono (wp_keepSnapshot h.contains hsnap hstale hcovers) ?_ ?_
    · intro _ s' hdone
      rw [Action.wp_sub]
      split
      · refine Or.inr ⟨hahead, s', ?_, hdone⟩
        rw [installed, if_pos hterm]
      · exact ⟨hahead, .done hdone⟩
    · rintro _ s' (hs' | hdone)
      · exact ⟨hahead, .before hs'⟩
      · exact ⟨hahead, .done hdone⟩
  · rename_i hterm
    rw [Action.wp_add]
    split
    · refine Action.wp_mono (h.contains.wp_truncate (snap.index + 1)) ?_ ?_
      · intro _ s₁ h₁
        obtain ⟨hcovers, hnone⟩ := covers_cut hterm p.hard F
        have hstale : (∃ e ∈ (FileStore.persisted p.hard (some snap)
            (F.filter fun e => e.index < snap.index + 1)).entries, e.term < snap.term) →
            Disk.Writable "log" s₁.disk := by
          rintro ⟨e, he, -⟩
          rw [hnone] at he
          cases he
        refine Action.wp_mono (wp_keepSnapshot h₁ hsnap hstale hcovers) ?_ ?_
        · intro _ s' hdone
          refine Or.inr ⟨hahead, s', ?_, hdone⟩
          rw [installed, if_neg hterm]
        · rintro _ s' (hs' | hdone)
          · exact ⟨hahead, .cut hs' hterm⟩
          · exact ⟨hahead, .done hdone⟩
      · rintro _ s₁ (h₁ | h₁)
        · exact ⟨hahead, .before h₁⟩
        · exact ⟨hahead, .cut h₁ hterm⟩
    · exact ⟨hahead, .before h.contains⟩

theorem Rests.wp_compact (h : Rests l p F) (hasc : l.Ascends) (hsnap : LawfulWire.Fits snap)
    (happlied : snap.index ≤ l.lastApplied) (hterm : l.termAt? snap.index = some snap.term) :
    wp (compact snap)
      (fun _ l' => l' = l ∧ snap.index ≤ l.snapshotIndex ∨
        l.snapshotIndex < snap.index ∧ ∃ s, l' = l.compacted snap s ∧ Done l snap p.hard s)
      (fun _ l' => l.snapshotIndex < snap.index ∧ Leaves l snap p F l'.store) l := by
  simp only [compact, onStore, Action.wp_bind, Action.wp_get, Action.wp_require, Action.wp_ite,
    Action.wp_pure, Action.wp_modify, Action.wp_within, if_pos happlied]
  split
  · rename_i hold
    exact Or.inl ⟨trivial, hold⟩
  · rename_i hold
    have hnew : l.snapshotIndex < snap.index := not_le.mp hold
    obtain ⟨hcovers, hstale⟩ := h.covers hasc hnew hterm
    refine Action.wp_mono (wp_keepSnapshot h.contains hsnap hstale hcovers) ?_ ?_
    · intro _ s' hdone
      split
      · exact Or.inr ⟨hnew, s', rfl, hdone⟩
      · exact ⟨hnew, .done hdone⟩
    · rintro _ s' (hs' | hdone)
      · exact ⟨hnew, .before hs'⟩
      · exact ⟨hnew, .done hdone⟩

/-- Either there is nothing to do, or the log is done when the move ends, and something is left behind if it ends
early. -/
theorem Rests.wp_move (h : Rests l p F) (hcompacted : l.snapshotIndex ≤ l.lastApplied)
    (hasc : l.Ascends) (hsnap : LawfulWire.Fits snap) {m : Move} (hm : m.Allowed l snap) :
    wp (m.run snap)
      (fun _ l' => l' = l ∧ m.complete l snap = l ∨ l.snapshotIndex < snap.index ∧
        Alike (l.installed snap l.store) (m.complete l snap) ∧ Alike l' (m.complete l snap) ∧
        Done l snap p.hard l'.store)
      (fun _ l' => l.snapshotIndex < snap.index ∧
        Alike (l.installed snap l.store) (m.complete l snap) ∧ Leaves l snap p F l'.store) l := by
  cases m with
  | install =>
    have hcomplete : l.lastApplied < snap.index →
        Move.install.complete l snap = l.installed snap l.store := fun hahead => if_neg (by lia)
    rw [Move.run, Action.wp_map]
    refine Action.wp_mono (h.wp_install hcompacted hasc hsnap) ?_ ?_
    · rintro _ l' (⟨rfl, hold⟩ | ⟨hahead, s, rfl, hdone⟩)
      · exact Or.inl ⟨rfl, if_pos hold⟩
      · rw [hcomplete hahead]
        exact Or.inr ⟨by lia, .refl _, ⟨rfl, rfl, rfl⟩, hdone⟩
    · rintro _ l' ⟨hahead, hleaves⟩
      rw [hcomplete hahead]
      exact ⟨by lia, .refl _, hleaves⟩
  | compact =>
    have hcomplete : l.snapshotIndex < snap.index →
        Move.compact.complete l snap = l.compacted snap l.store := fun hnew => if_neg (by lia)
    have halike : Alike (l.installed snap l.store) (l.compacted snap l.store) :=
      ⟨if_pos hm.2, rfl, rfl⟩
    refine Action.wp_mono (h.wp_compact hasc hsnap hm.1 hm.2) ?_ ?_
    · rintro _ l' (⟨rfl, hold⟩ | ⟨hnew, s, rfl, hdone⟩)
      · exact Or.inl ⟨rfl, if_pos hold⟩
      · rw [hcomplete hnew]
        exact Or.inr ⟨hnew, halike, ⟨rfl, rfl, rfl⟩, hdone⟩
    · rintro _ l' ⟨hnew, hleaves⟩
      rw [hcomplete hnew]
      exact ⟨hnew, halike, hleaves⟩

/-! ## Opening again -/

/-- What the directory opens with if it holds what it did. -/
theorem Rests.reopens (h : Rests l p F) (hs : FileStore.Contains s p.hard p.snapshot F) :
    ∃ r, FileStore.Reopens s r ∧ r.hard = p.hard ∧ Alike r.log l ∧ r.snapshot = p.snapshot := by
  obtain ⟨t, ht⟩ := hs.reopens h.persisted h.numbered
  exact ⟨_, ht, rfl, ⟨h.entries.symm, h.snapshotIndex.symm, h.snapshotTerm.symm⟩, rfl⟩

/-- What it opens with if the entries behind the snapshot's end are gone. -/
theorem Rests.reopens_cut (h : Rests l p F) (hs : FileStore.Contains s p.hard p.snapshot
    (F.filter fun e => e.index < snap.index + 1)) :
    ∃ r, FileStore.Reopens s r ∧ r.hard = p.hard ∧
      Alike r.log { l with entries := l.entries.filter fun e => e.index ≤ snap.index } ∧
      r.snapshot = p.snapshot := by
  obtain ⟨hp, hnum, hkept⟩ := h.cut snap
  obtain ⟨t, ht⟩ := hs.reopens hp hnum
  exact ⟨_, ht, rfl, ⟨hkept, h.snapshotIndex.symm, h.snapshotTerm.symm⟩, rfl⟩

theorem Done.reopens (h : Done l snap hard s) :
    ∃ r, FileStore.Reopens s r ∧ r.hard = hard ∧ Alike r.log (l.installed snap l.store) ∧
      r.snapshot = some snap := by
  obtain ⟨F, hs, hcovers⟩ := h
  obtain ⟨t, ht⟩ := hs.reopens rfl hcovers.numbered
  exact ⟨_, ht, rfl, ⟨hcovers.kept, rfl, rfl⟩, rfl⟩

/-- The log as it was, cut at the end of a snapshot that it disagrees with there, or behind the snapshot. -/
def Survives (l : Log FileStore) (snap : Snapshot) (snapshot : Option Snapshot) (l' : Log FileStore)
    (r : Recovered FileStore) : Prop :=
  Alike r.log l ∧ r.snapshot = snapshot ∨
    l.termAt? snap.index ≠ some snap.term ∧ r.snapshot = snapshot ∧
      Alike r.log { l with entries := l.entries.filter fun e => e.index ≤ snap.index } ∨
    Alike r.log l' ∧ r.snapshot = some snap

theorem Leaves.reopens (h : Leaves l snap p F s) (hl : Rests l p F)
    (hl' : Alike (l.installed snap l.store) l') :
    ∃ r, FileStore.Reopens s r ∧ r.hard = p.hard ∧ Survives l snap p.snapshot l' r := by
  cases h with
  | before h =>
    obtain ⟨r, hr, hhard, hrest⟩ := hl.reopens h
    exact ⟨r, hr, hhard, Or.inl hrest⟩
  | cut h hdiffers =>
    obtain ⟨r, hr, hhard, halike, hsnapshot⟩ := hl.reopens_cut h
    exact ⟨r, hr, hhard, Or.inr (Or.inl ⟨hdiffers, hsnapshot, halike⟩)⟩
  | done h =>
    obtain ⟨r, hr, hhard, halike, hsnapshot⟩ := h.reopens
    exact ⟨r, hr, hhard, Or.inr (Or.inr ⟨halike.trans hl', hsnapshot⟩)⟩

/-- Behind the new snapshot stand only entries that the complete call keeps. -/
theorem Survives.kept (h : Survives l snap snapshot l' r) (hnew : l.snapshotIndex < snap.index)
    (hr : r.log.snapshotIndex = snap.index) : r.log.entries = l'.entries := by
  obtain ⟨hsame, -⟩ | ⟨-, -, hcut⟩ | ⟨hdone, -⟩ := h
  · have hindex := hsame.snapshotIndex
    lia
  · have hindex : r.log.snapshotIndex = l.snapshotIndex := hcut.snapshotIndex
    lia
  · exact hdone.entries

/-- A directory that opens as the log stands opens again wherever power is lost in an install or a compaction, and a
second time without being written: as the log was, as it is when all is done, or cut at the end of a snapshot that it
disagrees with there. Behind the new snapshot stand only entries that the complete call keeps, and a call that comes
to its end leaves the log that is opened. -/
theorem Stands.survives {r₀ : Recovered FileStore} (h : Stands l r₀)
    (hcompacted : l.snapshotIndex ≤ l.lastApplied) (hasc : l.Ascends)
    (hsnap : LawfulWire.Fits snap) {m : Move} (hm : m.Allowed l snap) :
    ∃ r, FileStore.Reopens ((m.run snap).after l).store r ∧ r.hard = r₀.hard ∧
      Survives l snap r₀.snapshot (m.complete l snap) r ∧
      (l.snapshotIndex < snap.index → r.log.snapshotIndex = snap.index →
        r.log.entries = (m.complete l snap).entries) ∧
      ∀ l', m.run snap l = .ok () l' → Alike r.log l' ∧ Alike l' (m.complete l snap) := by
  obtain ⟨F, hrests⟩ := h.rests
  have hmove := hrests.wp_move hcompacted hasc hsnap hm
  cases hrun : m.run snap l with
  | ok u l' =>
    rw [Action.after, hrun]
    obtain ⟨rfl, hcomplete⟩ | ⟨hnew, hinstalled, hl', hdone⟩ := Action.wp_ok hmove hrun
    · -- there was nothing to do
      obtain ⟨r, hr, hhard, halike, hsnapshot⟩ := hrests.reopens hrests.contains
      rw [hcomplete]
      have hsurvives : Survives l' snap r₀.snapshot l' r := Or.inl ⟨halike, hsnapshot⟩
      refine ⟨r, hr, hhard, hsurvives, hsurvives.kept, ?_⟩
      rintro _ ⟨⟩
      exact ⟨halike, .refl _⟩
    · obtain ⟨r, hr, hhard, halike, hsnapshot⟩ := hdone.reopens
      have hcomplete := halike.trans hinstalled
      have hsurvives : Survives l snap r₀.snapshot (m.complete l snap) r :=
        Or.inr (Or.inr ⟨hcomplete, hsnapshot⟩)
      refine ⟨r, hr, hhard, hsurvives, hsurvives.kept, ?_⟩
      rintro _ ⟨⟩
      exact ⟨hcomplete.trans hl'.symm, hl'⟩
  | error f l' =>
    rw [Action.after, hrun]
    obtain ⟨hnew, hinstalled, hleaves⟩ := Action.wp_error hmove hrun
    obtain ⟨r, hr, hhard, hsurvives⟩ := hleaves.reopens hrests hinstalled
    refine ⟨r, hr, hhard, hsurvives, hsurvives.kept, ?_⟩
    rintro _ ⟨⟩

/-! ## Entries that are left behind -/

def firstEntries : List Entry := [⟨1, 1, [97]⟩, ⟨2, 1, [98]⟩]

/-- The snapshot of a log that is ahead. -/
def tenth : Snapshot := ⟨10, 3, [115]⟩

def twentieth : Snapshot := ⟨20, 3, [116]⟩

/-- Power that lasts for one file of an install. -/
def forSnapshot : Option Nat :=
  Disk.lasting 1 (Disk.lasting (Record.line tenth).length (Disk.lasting 1 (some 0)))

/-- There is power for a truncation and for the first file of an install. -/
def shortOfPower : Log FileStore where
  store := { disk := {
    folder := [("log", .file (FileStore.logText firstEntries))]
    fuse := Disk.lasting 1 (Disk.lasting (FileStore.logText firstEntries).length
      (Disk.lasting 1 forSnapshot)) } }
  entries := firstEntries

theorem firstEntries_fit : ∀ e ∈ firstEntries, LawfulWire.Fits e := by
  rintro _ (_ | ⟨_, _ | ⟨_, ⟨⟩⟩⟩)
  · exact ⟨by decide, by decide⟩
  · exact ⟨by decide, by decide⟩

theorem firstEntries_adjacent : FileStore.Adjacent firstEntries :=
  .cons_cons rfl (.singleton _)

theorem shortOfPower_holds : FileStore.HoldsLog shortOfPower.store firstEntries false :=
  Or.inr ⟨_, rfl, FileStore.legible_logText firstEntries_fit firstEntries_adjacent⟩

theorem shortOfPower_writable : Disk.Writable "log" shortOfPower.store.disk := ⟨rfl, by rintro _ ⟨⟩⟩

theorem shortOfPower_contains : FileStore.Contains shortOfPower.store {} none firstEntries :=
  ⟨⟨none, rfl, rfl⟩, rfl, ⟨false, shortOfPower_holds, fun _ => shortOfPower_writable⟩,
    fun _ => shortOfPower_writable⟩

theorem shortOfPower_numbered : NumberedFrom 0 firstEntries :=
  FileStore.numbered_of_adjacent firstEntries_adjacent (by rintro e ⟨⟩; rfl)

theorem shortOfPower_stands : ∃ r, Stands shortOfPower r := by
  obtain ⟨t, ht⟩ := shortOfPower_contains.reopens rfl shortOfPower_numbered
  exact ⟨_, ⟨_, ht.first⟩, rfl, rfl, rfl⟩

theorem shortOfPower_ascends : shortOfPower.Ascends := by
  unfold Ascends
  decide

theorem tenth_fits : LawfulWire.Fits tenth := ⟨by decide, by decide⟩

theorem survives_shortOfPower :
    ∃ r₀, Stands shortOfPower r₀ ∧ shortOfPower.snapshotIndex ≤ shortOfPower.lastApplied ∧
      shortOfPower.Ascends ∧ LawfulWire.Fits tenth ∧ Move.install.Allowed shortOfPower tenth ∧
      ∃ r, FileStore.Reopens ((Move.install.run tenth).after shortOfPower).store r ∧
        Survives shortOfPower tenth r₀.snapshot (Move.install.complete shortOfPower tenth) r := by
  obtain ⟨r₀, hstands⟩ := shortOfPower_stands
  obtain ⟨r, hr, -, hsurvives, -⟩ :=
    Stands.survives (m := .install) hstands le_rfl shortOfPower_ascends tenth_fits trivial
  exact ⟨r₀, hstands, le_rfl, shortOfPower_ascends, tenth_fits, trivial, r, hr, hsurvives⟩

/-- Power is lost when the snapshot is stored and the log file is not rewritten. -/
theorem shortOfPower_left :
    wp (install tenth) (fun _ _ => False)
      (fun _ l' => FileStore.Contains l'.store {} (some tenth) firstEntries ∧
        l'.store.disk.folder.find? "log" = some (.file (FileStore.logText firstEntries)))
      shortOfPower := by
  simp only [install, onStore, Action.wp_bind, Action.wp_get, Action.wp_ite, Action.wp_add,
    Action.wp_modify, Action.wp_pure, Action.wp_within]
  rw [if_neg (by decide), if_neg (by decide), if_pos (by decide)]
  have htruncate := shortOfPower_contains.wp_truncate_lasting (i := 11) (k := forSnapshot)
    shortOfPower_holds shortOfPower_writable rfl
  refine Action.wp_mono htruncate ?_ fun _ _ => False.elim
  rintro - s ⟨hs, hlog, hfuse⟩
  have hholds : FileStore.HoldsLog s firstEntries false :=
    shortOfPower_contains.holds_replaced hlog (List.Subset.refl _) firstEntries_adjacent
  have hother : ∀ name ∉ ["log", "log.tmp"], s.disk.folder.find? name = none := by
    intro name hname
    rw [hlog.spares.others name hname]
    simp only [List.mem_cons, not_or] at hname
    change List.lookup name [("log", _)] = none
    rw [List.lookup_cons, beq_false_of_ne hname.1]
    rfl
  have hwritable : Disk.Writable "snapshot" s.disk := by
    refine ⟨hlog.spares.sync, fun members => ?_⟩
    rw [hother _ (by decide)]
    rintro ⟨⟩
  have hfile : ∀ members, s.disk.folder.find? "snapshot" ≠ some (.folder members) := by
    intro members
    rw [hother _ (by decide)]
    rintro ⟨⟩
  have hinstall := hs.wp_install_short hholds tenth_fits (by rintro ⟨e, ⟨⟩, -⟩) hwritable hfuse hfile
  refine Action.wp_mono hinstall (fun _ _ => False.elim) ?_
  rintro - s' ⟨hs', hsame⟩
  exact ⟨hs', hsame.trans hlog.file⟩

/-- What is appended behind a snapshot stands in the log file behind the entries that the snapshot covers. -/
theorem wp_append_behind (hfuse : l.store.disk.fuse = none)
    (hfile : l.store.disk.folder.find? "log" = some (.file (FileStore.logText F)))
    (hroom : l.lastIndex + 1 < wordLimit) (term : Term) (command : Bytes) :
    wp (appendAsLeader term command)
      (fun i l' => i = l.lastIndex + 1 ∧
        (∃ s, l' = { l with store := s, entries := l.entries ++ [⟨i, term, command⟩] }) ∧
        l'.store.disk.folder.find? "log" =
          some (.file (FileStore.logText (F ++ [⟨i, term, command⟩]))))
      (fun _ _ => False) l := by
  simp only [appendAsLeader, onStore, Action.wp_bind, Action.wp_get, Action.wp_add,
    Action.wp_modify, Action.wp_pure, Action.wp_within]
  rw [if_pos hroom]
  generalize he : (⟨l.lastIndex + 1, term, command⟩ : Entry) = e
  change wp (FileStore.append [e]) _ _ _
  simp only [FileStore.append, FileStore.onDisk, Disk.ensure, List.isEmpty_cons, hfile,
    Option.isNone_some, Bool.false_eq_true, if_false, Action.wp_bind, Action.wp_get,
    Action.wp_within, Action.wp_pure]
  refine Action.wp_imp (Disk.wp_extend_powered hfuse hfile _) ?_
  rintro - _ rfl
  refine ⟨trivial, ⟨_, rfl⟩, ?_⟩
  dsimp only
  rw [Folder.find?_put_self, FileStore.logText, FileStore.logText, ← List.flatMap_append]
  rfl

/-- An install of a snapshot that the log disagrees with reads the log file first. -/
theorem wp_install_gapped (h : FileStore.Gapped l.store)
    (hdiffers : l.termAt? snap.index ≠ some snap.term) :
    wp (install snap) (fun _ l' => l'.store = l.store) (fun _ l' => l'.store = l.store) l := by
  simp only [install, onStore, Action.wp_bind, Action.wp_get, Action.wp_ite, Action.wp_add,
    Action.wp_modify, Action.wp_pure, Action.wp_within, if_neg hdiffers]
  split
  · trivial
  split
  · change wp (FileStore.truncate _) _ _ _
    rw [FileStore.truncate, Action.wp_bind]
    refine Action.wp_mono h.wp_readLog (fun _ _ => False.elim) ?_
    rintro - _ rfl
    rfl
  · trivial

/-- A log right behind the snapshot. -/
def behindTenth (s : FileStore) (es : List Entry) : Log FileStore := ⟨s, es, 10, 3, 10, 10⟩

def eleventh : Entry := ⟨11, 3, [99]⟩

theorem eleventh_fits : LawfulWire.Fits eleventh := ⟨by decide, by decide⟩

theorem behindTenth_ascends (s : FileStore) : (behindTenth s [eleventh]).Ascends :=
  List.pairwise_pair.mpr le_rfl

theorem gapped_eleventh {s : FileStore} (h : s.disk.folder.find? "log" =
    some (.file (FileStore.logText (firstEntries ++ [eleventh])))) : FileStore.Gapped s := by
  refine ⟨_, h, ?_, ?_⟩
  · intro e he
    rcases List.mem_append.mp he with he | he
    · exact firstEntries_fit e he
    · obtain rfl := List.mem_singleton.mp he
      exact eleventh_fits
  · intro hadjacent
    cases hadjacent with
    | cons_cons _ hrest =>
      cases hrest with
      | cons_cons hgap _ => exact absurd hgap (by decide)

theorem shortOfPower_after :
    FileStore.Contains ((Move.install.run tenth).after shortOfPower).store {} (some tenth)
        firstEntries ∧
      ((Move.install.run tenth).after shortOfPower).store.disk.folder.find? "log" =
        some (.file (FileStore.logText firstEntries)) := by
  refine Action.of_after (P := fun l' : Log FileStore =>
    FileStore.Contains l'.store {} (some tenth) firstEntries ∧
      l'.store.disk.folder.find? "log" = some (.file (FileStore.logText firstEntries))) ?_
  rw [Move.run, Action.wp_map]
  exact Action.wp_mono shortOfPower_left (fun _ _ => False.elim) fun _ _ h => h

/-- The directory opens with no entry, and the next one is appended behind those that the snapshot covers. -/
theorem append_leaves_gap (hcontains : FileStore.Contains s {} (some tenth) firstEntries)
    (hfile : s.disk.folder.find? "log" = some (.file (FileStore.logText firstEntries))) :
    FileStore.Reopens s ⟨behindTenth s.rested [], {}, some tenth⟩ ∧
      ∃ s', appendAsLeader 3 [99] (behindTenth s.rested []) = .ok 11 (behindTenth s' [eleventh]) ∧
        FileStore.Gapped s' := by
  have hholds : FileStore.HoldsLog s.rested firstEntries false :=
    Or.inr ⟨_, hfile, FileStore.legible_logText firstEntries_fit firstEntries_adjacent⟩
  have hsteady : Log.boot s.rested =
      .ok (⟨behindTenth s.rested [], {}, some tenth⟩ : Recovered FileStore) s.rested :=
    hcontains.rested.steady hholds rfl (.nil 10) rfl
  have hroom : (behindTenth s.rested []).lastIndex + 1 < wordLimit := by
    change 10 + 1 < wordLimit
    decide
  obtain ⟨i, l', happend, hi, ⟨s', hl'⟩, hlog⟩ :=
    Action.wp_exists (wp_append_behind (l := behindTenth s.rested []) rfl hfile hroom 3 [99])
  obtain rfl : i = 11 := hi
  obtain rfl : l' = behindTenth s' [eleventh] := hl'
  exact ⟨⟨hsteady, hsteady⟩, s', happend, gapped_eleventh hlog⟩

theorem gapped_after_install (h : FileStore.Gapped s) :
    ((Move.install.run twentieth).after (behindTenth s [eleventh])).store = s := by
  refine Action.of_after (P := fun l : Log FileStore => l.store = s) ?_
  rw [Move.run, Action.wp_map]
  exact wp_install_gapped h (by rintro ⟨⟩)

/-- Power is lost within an install. The directory opens again, an entry is appended to the log, and from then on
no other install succeeds and the directory does not open. -/
theorem append_after_power_loss :
    (∃ r₀, Stands shortOfPower r₀) ∧
      ∃ r l', FileStore.Reopens ((Move.install.run tenth).after shortOfPower).store r ∧
        appendAsLeader 3 [99] r.log = .ok 11 l' ∧ l'.snapshotIndex ≤ l'.lastApplied ∧ l'.Ascends ∧
        LawfulWire.Fits twentieth ∧ Move.install.Allowed l' twentieth ∧
        ∀ r', ¬ FileStore.Opens ((Move.install.run twentieth).after l').store r' := by
  obtain ⟨hcontains, hfile⟩ := shortOfPower_after
  obtain ⟨hreopens, s', happend, hgap⟩ := append_leaves_gap hcontains hfile
  refine ⟨shortOfPower_stands, _, behindTenth s' [eleventh], hreopens, happend, le_rfl,
    behindTenth_ascends s', ⟨by decide, by decide⟩, trivial, fun r' => ?_⟩
  rw [gapped_after_install hgap]
  exact hgap.not_opens

end Log

end RaftNode
