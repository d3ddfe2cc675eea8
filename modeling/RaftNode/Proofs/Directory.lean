import RaftNode.Proofs.Files
import RaftNode.Proofs.Mirror
import RaftNode.Proofs.Ranges
import Mathlib.Data.List.Chain
/-!
# The directory of a store

What is read from a directory is a matter of its three files. A write that power loss cuts short leaves the directory
as it was or as the whole write leaves it, and an install may also leave its snapshot behind with the old log file.
-/
namespace RaftNode.FileStore

open RaftNode.Action (wp)

variable {s s' : FileStore} {hard : HardState} {snapshot : Option Snapshot} {snap : Snapshot}
  {F G : List Entry} {i : Index} {content : Bytes} {torn : Bool}

/-! ## Adjacent entries -/

/-- Each entry has the index after that of the one before. -/
def Adjacent (F : List Entry) : Prop := F.IsChain fun a b => b.index = a.index + 1

theorem Adjacent.ascending (h : Adjacent F) : F.Pairwise fun a b => a.index < b.index := by
  have hchain : F.IsChain fun a b => a.index < b.index := List.IsChain.imp (fun a b hab => by lia) h
  have : Trans (fun a b : Entry => a.index < b.index) (fun a b : Entry => a.index < b.index)
      (fun a b : Entry => a.index < b.index) := ⟨fun hab hbc => hab.trans hbc⟩
  exact List.isChain_iff_pairwise.mp hchain

/-- The entries below an index come first. -/
theorem Adjacent.filter_below (h : Adjacent F) (i : Index) :
    Adjacent (F.filter fun e => e.index < i) := by
  refine List.IsChain.prefix h ?_
  have hF := h.ascending
  clear h
  induction F with
  | nil => exact List.nil_prefix
  | cons a F ih =>
    obtain ⟨ha, hrest⟩ := List.pairwise_cons.mp hF
    by_cases hi : a.index < i
    · rw [List.filter_cons_of_pos (by simpa using hi)]
      exact (List.prefix_cons_inj a).mpr (ih hrest)
    · rw [List.filter_eq_nil_iff.mpr]
      · exact List.nil_prefix
      · intro b hb
        have hab : a.index ≤ b.index := by
          rcases List.mem_cons.mp hb with rfl | hb
          · exact le_rfl
          · exact (ha b hb).le
        simpa using (not_lt.mp hi).trans hab

/-- The entries above an index come last. -/
theorem Adjacent.filter_above (h : Adjacent F) (i : Index) :
    Adjacent (F.filter fun e => i < e.index) := by
  refine List.IsChain.suffix h ?_
  have hF := h.ascending
  clear h
  induction F with
  | nil => exact List.nil_suffix
  | cons a F ih =>
    obtain ⟨ha, hrest⟩ := List.pairwise_cons.mp hF
    by_cases hi : i < a.index
    · rw [List.filter_eq_self.mpr]
      intro b hb
      have hab : a.index ≤ b.index := by
        rcases List.mem_cons.mp hb with rfl | hb
        · exact le_rfl
        · exact (ha b hb).le
      simpa using hi.trans_le hab
    · rw [List.filter_cons_of_neg (by simpa using hi)]
      exact (ih hrest).trans (List.suffix_cons a F)

theorem wp_checkAdjacent (F : List Entry) (s : FileStore) :
    wp (checkAdjacent F) (fun _ s' => s' = s ∧ Adjacent F) (fun _ s' => s' = s) s := by
  induction F with
  | nil => exact ⟨rfl, .nil⟩
  | cons a F ih =>
    cases F with
    | nil => exact ⟨rfl, .singleton a⟩
    | cons b F =>
      rw [checkAdjacent, Action.wp_bind, Action.wp_add]
      split
      · rw [Action.wp_ite]
        split
        · rename_i hb
          refine Action.wp_imp ih ?_
          rintro - _ ⟨rfl, hF⟩
          exact ⟨rfl, .cons_cons hb hF⟩
        · rfl
      · rfl

theorem checkAdjacent_ok (h : Adjacent F) (hF : ∀ e ∈ F, LawfulWire.Fits e) :
    checkAdjacent F s = .ok () s := by
  induction F with
  | nil => rfl
  | cons a F ih =>
    cases F with
    | nil => rfl
    | cons b F =>
      obtain ⟨hb, hrest⟩ := List.isChain_cons_cons.mp h
      have hroom : a.index + 1 < wordLimit := hb ▸ (hF b (by simp)).1
      have hstep : checkAdjacent (b :: F) s = .ok () s :=
        ih hrest fun e he => hF e (List.mem_cons_of_mem a he)
      rw [checkAdjacent, Action.add, if_pos hroom]
      change (if b.index = a.index + 1 then checkAdjacent (b :: F) else _) s = _
      rw [if_pos hb, hstep]

theorem numbered_of_adjacent (h : Adjacent F) {s : Index} (hfirst : ∀ e ∈ F.head?, e.index = s + 1) :
    NumberedFrom s F := by
  induction F generalizing s with
  | nil => exact .nil s
  | cons a F ih =>
    have ha : a.index = s + 1 := hfirst a rfl
    rintro (_ | k) e he
    · cases he
      exact ha
    · have hrest : NumberedFrom (s + 1) F := by
        refine ih (List.IsChain.tail h) fun b hb => ?_
        obtain ⟨rest, rfl⟩ := List.head?_eq_some_iff.mp hb
        rw [(List.isChain_cons_cons.mp h).1, ha]
      have := hrest k e he
      lia

/-! ## The log file -/

/-- A file from which these entries are read. It is torn if its end is dropped. -/
structure Legible (content : Bytes) (F : List Entry) (torn : Bool) : Prop where
  text : (Utf8.decode? content).isSome = true
  lines : ∃ cut, entriesOfLines 1 (Bytes.splitLines content).1 = .ok (F, cut) ∧
    (cut || !(Bytes.splitLines content).2.isEmpty) = torn
  adjacent : Adjacent F

/-- The log file, if there is one, holds these entries. -/
def HoldsLog (s : FileStore) (F : List Entry) (torn : Bool) : Prop :=
  (F = [] ∧ torn = false ∧ s.disk.folder.find? "log" = none) ∨
    ∃ content, s.disk.folder.find? "log" = some (.file content) ∧ Legible content F torn

theorem legible_logText (hF : ∀ e ∈ F, LawfulWire.Fits e) (h : Adjacent F) :
    Legible (logText F) F false where
  text := decode?_logText F
  lines := by
    rw [splitLines_logText]
    exact ⟨false, entriesOfLines_encode hF 1, rfl⟩
  adjacent := h

theorem HoldsLog.congr (h : HoldsLog s F torn)
    (hsame : s'.disk.folder.find? "log" = s.disk.folder.find? "log") : HoldsLog s' F torn := by
  rwa [HoldsLog, hsame]

theorem HoldsLog.adjacent (h : HoldsLog s F torn) : Adjacent F := by
  obtain ⟨rfl, -⟩ | ⟨content, -, hlegible⟩ := h
  · exact .nil
  · exact hlegible.adjacent

theorem HoldsLog.fits (h : HoldsLog s F torn) : ∀ e ∈ F, LawfulWire.Fits e := by
  obtain ⟨rfl, -⟩ | ⟨content, -, -, ⟨cut, hlines, -⟩, -⟩ := h
  · rintro e ⟨⟩
  · exact entriesOfLines_fits hlines

theorem HoldsLog.not_folder (h : HoldsLog s F torn) (members : List (String × FileNode)) :
    s.disk.folder.find? "log" ≠ some (.folder members) := by
  obtain ⟨-, -, hnone⟩ | ⟨content, hfile, -⟩ := h
  · rw [hnone]
    rintro ⟨⟩
  · rw [hfile]
    rintro ⟨⟩

/-- Reading gives the entries, and rewrites the file if it is torn. -/
theorem HoldsLog.wp_readLog (h : HoldsLog s F torn) {Q : List Entry → FileStore → Prop}
    {E : Fault StoreError → FileStore → Prop} (hwhole : torn = false → Q F s)
    (htorn : torn = true → wp (replaceLog F) (fun _ s' => Q F s') E s) : wp readLog Q E s := by
  have hadjacent := h.adjacent
  have hfits := h.fits
  rw [readLog, Action.wp_bind, Action.wp_get]
  obtain ⟨rfl, rfl, hnone⟩ | ⟨content, hfile, htext, ⟨cut, hlines, rfl⟩, -⟩ := h
  · have hread : s.disk.readText? "log" = .ok none := by
      simp [Disk.readText?, Disk.read?, hnone, bind, Except.bind]
    rw [hread]
    exact hwhole rfl
  · have hread : s.disk.readText? "log" = .ok (some content) := by
      simp [Disk.readText?, Disk.read?, hfile, htext, bind, Except.bind]
    rw [hread]
    dsimp only
    rw [hlines]
    dsimp only
    rw [Action.wp_bind, wp, checkAdjacent_ok hadjacent hfits]
    dsimp only
    rw [Action.wp_ite]
    split
    · rename_i hcut
      rw [Action.wp_bind]
      exact htorn hcut
    · rename_i hcut
      exact hwhole (Bool.eq_false_iff.mpr hcut)

theorem HoldsLog.readLog (h : HoldsLog s F false) : readLog s = .ok F s := by
  have hwp : wp FileStore.readLog (fun es s' => es = F ∧ s' = s) (fun _ _ => False) s :=
    h.wp_readLog (fun _ => ⟨rfl, rfl⟩) (by rintro ⟨⟩)
  obtain ⟨es, s', hread, rfl, rfl⟩ := Action.wp_exists hwp
  exact hread

theorem wp_replace (name : String) (content : Bytes) (s : FileStore) :
    wp (onDisk (Disk.replace name content))
      (fun _ s' => Disk.Replaced name content s.disk s'.disk ∧ Disk.Writable name s.disk)
      (fun _ s' => Disk.Spares [Disk.temporary name] s.disk s'.disk ∨
        Disk.Replaced name content s.disk s'.disk) s := by
  rw [onDisk, Action.wp_within]
  exact Disk.wp_replace name content s.disk

/-- What a file that has been read holds. -/
theorem wp_readLog_holds (s : FileStore) :
    wp readLog
      (fun F s' => ∃ torn, HoldsLog s F torn ∧ (torn = false → s' = s) ∧
        (torn = true → Disk.Writable "log" s.disk ∧
          Disk.Replaced "log" (logText F) s.disk s'.disk))
      (fun _ _ => True) s := by
  rw [readLog, Action.wp_bind, Action.wp_get]
  split
  · trivial
  · rename_i hread
    exact ⟨false, Or.inl ⟨rfl, rfl, Disk.readText?_none hread⟩, fun _ => rfl, by rintro ⟨⟩⟩
  · rename_i content hread
    obtain ⟨hfile, htext⟩ := Disk.readText?_some hread
    dsimp only
    split
    · trivial
    · rename_i F cut hlines
      refine Action.wp_seq (Action.wp_mono (wp_checkAdjacent F s) (fun _ _ h => h)
        fun _ _ _ => trivial) ?_
      rintro - _ ⟨rfl, hadjacent⟩
      rw [Action.wp_ite]
      split
      · rename_i hcut
        rw [Action.wp_bind]
        refine Action.wp_mono (wp_replace "log" (logText F) _) ?_ fun _ _ _ => trivial
        rintro - s' ⟨hreplaced, hwritable⟩
        exact ⟨true, Or.inr ⟨content, hfile, htext, ⟨cut, hlines, hcut⟩, hadjacent⟩, by rintro ⟨⟩,
          fun _ => ⟨hwritable, hreplaced⟩⟩
      · rename_i hcut
        exact ⟨false, Or.inr ⟨content, hfile, htext, ⟨cut, hlines, Bool.eq_false_iff.mpr hcut⟩,
          hadjacent⟩, fun _ => rfl, by rintro ⟨⟩⟩

/-- An entry is missing in the middle of the log file. -/
def Gapped (s : FileStore) : Prop :=
  ∃ F, s.disk.folder.find? "log" = some (.file (logText F)) ∧ (∀ e ∈ F, LawfulWire.Fits e) ∧
    ¬ Adjacent F

theorem Gapped.wp_readLog (h : Gapped s) :
    wp FileStore.readLog (fun _ _ => False) (fun _ s' => s' = s) s := by
  obtain ⟨F, hfile, hF, hgap⟩ := h
  have hread : s.disk.readText? "log" = .ok (some (logText F)) := by
    simp [Disk.readText?, Disk.read?, hfile, decode?_logText, bind, Except.bind]
  rw [FileStore.readLog, Action.wp_bind, Action.wp_get, hread]
  dsimp only
  rw [splitLines_logText]
  dsimp only
  rw [entriesOfLines_encode hF]
  dsimp only
  rw [Action.wp_bind]
  refine Action.wp_mono (wp_checkAdjacent F s) ?_ fun _ _ h => h
  rintro - _ ⟨-, hadjacent⟩
  exact (hgap hadjacent).elim

/-! ## The three files -/

/-- What a directory stands for: the entries that its snapshot covers do not count. -/
def persisted (hard : HardState) (snapshot : Option Snapshot) (F : List Entry) : Persisted where
  hard := hard
  snapshot := snapshot
  entries := F.filter fun e => (snapshot.map Snapshot.index).getD 0 < e.index

/-- What is read from the files of a directory. If boot has to rewrite the log file, it can: because the file is torn, or
because entries in it are older than the snapshot. -/
structure Contains (s : FileStore) (hard : HardState) (snapshot : Option Snapshot)
    (F : List Entry) : Prop where
  hardFile : ∃ h : Option HardState, Record.read? "hard_state" s.disk = .ok h ∧ h.getD {} = hard
  snapshotFile : s.loadSnapshot = .ok snapshot
  log : ∃ torn, HoldsLog s F torn ∧ (torn = true → Disk.Writable "log" s.disk)
  stale : (∃ e ∈ (persisted hard snapshot F).entries, e.term < (persisted hard snapshot F).coveredTerm) →
    Disk.Writable "log" s.disk

theorem loadSnapshot_congr
    (h : s'.disk.folder.find? "snapshot" = s.disk.folder.find? "snapshot") :
    s'.loadSnapshot = s.loadSnapshot := by
  rw [loadSnapshot, loadSnapshot, Record.read?_congr h]

theorem Contains.hardFile_congr (h : Contains s hard snapshot F)
    (hsame : s'.disk.folder.find? "hard_state" = s.disk.folder.find? "hard_state") :
    ∃ h : Option HardState, Record.read? "hard_state" s'.disk = .ok h ∧ h.getD {} = hard := by
  rw [Record.read?_congr hsame]
  exact h.hardFile

theorem Contains.adjacent (h : Contains s hard snapshot F) : Adjacent F := by
  obtain ⟨torn, hlog, -⟩ := h.log
  exact hlog.adjacent

theorem Contains.fits (h : Contains s hard snapshot F) : ∀ e ∈ F, LawfulWire.Fits e := by
  obtain ⟨torn, hlog, -⟩ := h.log
  exact hlog.fits

/-- Other files do not matter. -/
theorem Contains.spares {names : List String} (h : Contains s hard snapshot F)
    (hs : Disk.Spares names s.disk s'.disk) (hhard : "hard_state" ∉ names)
    (hsnapshot : "snapshot" ∉ names) (hlog : "log" ∉ names) : Contains s' hard snapshot F where
  hardFile := h.hardFile_congr (hs.others _ hhard)
  snapshotFile := (loadSnapshot_congr (hs.others _ hsnapshot)).trans h.snapshotFile
  log := by
    obtain ⟨torn, hholds, hwritable⟩ := h.log
    exact ⟨torn, hholds.congr (hs.others _ hlog), fun ht => (hwritable ht).spares hs⟩
  stale hold := (h.stale hold).spares hs

theorem Contains.replaceLog (h : Contains s hard snapshot F)
    (hs : Disk.Replaced "log" (logText G) s.disk s'.disk) (hsub : G ⊆ F) (hG : Adjacent G) :
    Contains s' hard snapshot G where
  hardFile := h.hardFile_congr (hs.spares.others _ (by decide))
  snapshotFile := (loadSnapshot_congr (hs.spares.others _ (by decide))).trans h.snapshotFile
  log := by
    have hfits : ∀ e ∈ G, LawfulWire.Fits e := fun e he => h.fits e (hsub he)
    exact ⟨false, Or.inr ⟨_, hs.file, legible_logText hfits hG⟩, by rintro ⟨⟩⟩
  stale := by
    rintro ⟨e, he, hterm⟩
    obtain ⟨hmem, hbehind⟩ := List.mem_filter.mp he
    exact (h.stale ⟨e, List.mem_filter.mpr ⟨hsub hmem, hbehind⟩, hterm⟩).spares hs.spares

theorem Contains.holds_replaced (h : Contains s hard snapshot F)
    (hs : Disk.Replaced "log" (logText G) s.disk s'.disk) (hsub : G ⊆ F) (hG : Adjacent G) :
    HoldsLog s' G false :=
  Or.inr ⟨_, hs.file, legible_logText (fun e he => h.fits e (hsub he)) hG⟩

theorem Contains.replaceSnapshot (h : Contains s hard snapshot F)
    (hs : Disk.Replaced "snapshot" (Record.line snap) s.disk s'.disk) (hsnap : LawfulWire.Fits snap)
    (hstale : (∃ e ∈ (persisted hard (some snap) F).entries, e.term < snap.term) →
      Disk.Writable "log" s.disk) : Contains s' hard (some snap) F where
  hardFile := h.hardFile_congr (hs.spares.others _ (by decide))
  snapshotFile := by
    rw [loadSnapshot, Record.read?_line hsnap hs.file]
    rfl
  log := by
    obtain ⟨torn, hholds, hwritable⟩ := h.log
    exact ⟨torn, hholds.congr (hs.spares.others _ (by decide)),
      fun ht => (hwritable ht).spares hs.spares⟩
  stale hold := (hstale hold).spares hs.spares

/-! ## Writes that may be cut short -/

theorem Contains.wp_readLog (h : Contains s hard snapshot F) :
    wp readLog (fun es s' => es = F ∧ Contains s' hard snapshot F)
      (fun _ s' => Contains s' hard snapshot F) s := by
  obtain ⟨torn, hholds, -⟩ := h.log
  refine hholds.wp_readLog (fun _ => ⟨rfl, h⟩) fun _ => ?_
  refine Action.wp_mono (wp_replace "log" _ s) ?_ ?_
  · rintro _ s' ⟨hs, -⟩
    exact ⟨rfl, h.replaceLog hs (List.Subset.refl F) h.adjacent⟩
  · rintro _ s' (hs | hs)
    · exact h.spares hs (by decide) (by decide) (by decide)
    · exact h.replaceLog hs (List.Subset.refl F) h.adjacent

/-- The log file is rewritten with some of its entries. -/
theorem Contains.wp_rewrite (h : Contains s hard snapshot F) {keep : Entry → Bool}
    (hkeep : Adjacent (F.filter keep)) :
    wp (do FileStore.replaceLog ((← FileStore.readLog).filter keep))
      (fun _ s' => Contains s' hard snapshot (F.filter keep))
      (fun _ s' => Contains s' hard snapshot F ∨ Contains s' hard snapshot (F.filter keep)) s := by
  rw [Action.wp_bind]
  refine Action.wp_mono h.wp_readLog ?_ fun _ _ => Or.inl
  rintro _ s₁ ⟨rfl, h₁⟩
  refine Action.wp_mono (wp_replace "log" _ _) ?_ ?_
  · rintro _ s' ⟨hs, -⟩
    exact h₁.replaceLog hs (List.filter_subset_self _) hkeep
  · rintro _ s' (hs | hs)
    · exact Or.inl (h₁.spares hs (by decide) (by decide) (by decide))
    · exact Or.inr (h₁.replaceLog hs (List.filter_subset_self _) hkeep)

theorem Contains.wp_truncate (h : Contains s hard snapshot F) (i : Index) :
    wp (truncate i) (fun _ s' => Contains s' hard snapshot (F.filter fun e => e.index < i))
      (fun _ s' => Contains s' hard snapshot F ∨
        Contains s' hard snapshot (F.filter fun e => e.index < i)) s :=
  h.wp_rewrite (h.adjacent.filter_below i)

theorem Contains.wp_install (h : Contains s hard snapshot F) (hsnap : LawfulWire.Fits snap)
    (hstale : (∃ e ∈ (persisted hard (some snap) F).entries, e.term < snap.term) →
      Disk.Writable "log" s.disk) :
    wp (install snap)
      (fun _ s' => Contains s' hard (some snap) (F.filter fun e => snap.index < e.index))
      (fun _ s' => Contains s' hard snapshot F ∨ Contains s' hard (some snap) F ∨
        Contains s' hard (some snap) (F.filter fun e => snap.index < e.index)) s := by
  rw [install, Action.wp_bind]
  refine Action.wp_mono (wp_replace "snapshot" _ s) ?_ ?_
  · rintro _ s₁ ⟨hs₁, -⟩
    have h₁ := h.replaceSnapshot hs₁ hsnap hstale
    exact Action.wp_mono (h₁.wp_rewrite (h₁.adjacent.filter_above snap.index))
      (fun _ _ h => h) fun _ _ => Or.inr
  · rintro _ s' (hs | hs)
    · exact Or.inl (h.spares hs (by decide) (by decide) (by decide))
    · exact Or.inr (Or.inl (h.replaceSnapshot hs hsnap hstale))

/-! ## Writes with power -/

theorem wp_replace_lasting {name : String} {k : Option Nat} (hs : Disk.Writable name s.disk)
    (hfuse : s.disk.fuse = Disk.lasting 1 (Disk.lasting content.length (Disk.lasting 1 k)))
    (hfile : ∀ members, s.disk.folder.find? name ≠ some (.folder members)) :
    wp (onDisk (Disk.replace name content))
      (fun _ s' => Disk.Replaced name content s.disk s'.disk ∧ s'.disk.fuse = k)
      (fun _ _ => False) s := by
  rw [onDisk, Action.wp_within]
  exact hs.wp_replace hfuse hfile

/-- A torn file is mended. -/
theorem Contains.wp_readLog_powered (h : Contains s hard snapshot F) (hfuse : s.disk.fuse = none) :
    wp readLog
      (fun es s' => es = F ∧ Contains s' hard snapshot F ∧ HoldsLog s' F false ∧ s'.disk.fuse = none)
      (fun _ _ => False) s := by
  obtain ⟨torn, hholds, hwritable⟩ := h.log
  refine hholds.wp_readLog ?_ fun ht => ?_
  · rintro rfl
    exact ⟨rfl, h, hholds, hfuse⟩
  · refine Action.wp_imp (wp_replace_lasting (k := none) (hwritable ht) hfuse hholds.not_folder) ?_
    rintro _ s' ⟨hs, hfuse'⟩
    exact ⟨rfl, h.replaceLog hs (List.Subset.refl F) h.adjacent,
      h.holds_replaced hs (List.Subset.refl F) h.adjacent, hfuse'⟩

theorem Contains.wp_truncate_lasting {k : Option Nat} (h : Contains s hard snapshot F)
    (hholds : HoldsLog s F false) (hs : Disk.Writable "log" s.disk)
    (hfuse : s.disk.fuse = Disk.lasting 1 (Disk.lasting
      (logText (F.filter fun e => e.index < i)).length (Disk.lasting 1 k))) :
    wp (truncate i)
      (fun _ s' => Contains s' hard snapshot (F.filter fun e => e.index < i) ∧
        Disk.Replaced "log" (logText (F.filter fun e => e.index < i)) s.disk s'.disk ∧
        s'.disk.fuse = k)
      (fun _ _ => False) s := by
  rw [truncate, Action.wp_bind]
  refine hholds.wp_readLog (fun _ => ?_) (by rintro ⟨⟩)
  refine Action.wp_imp (wp_replace_lasting hs hfuse hholds.not_folder) ?_
  rintro _ s' ⟨hreplaced, hfuse'⟩
  exact ⟨h.replaceLog hreplaced (List.filter_subset_self _) (h.adjacent.filter_below i), hreplaced, hfuse'⟩

/-- An install with power for its first file only leaves the snapshot, and the log file is not touched. -/
theorem Contains.wp_install_short (h : Contains s hard snapshot F) (hholds : HoldsLog s F false)
    (hsnap : LawfulWire.Fits snap)
    (hstale : (∃ e ∈ (persisted hard (some snap) F).entries, e.term < snap.term) →
      Disk.Writable "log" s.disk)
    (hs : Disk.Writable "snapshot" s.disk)
    (hfuse : s.disk.fuse =
      Disk.lasting 1 (Disk.lasting (Record.line snap).length (Disk.lasting 1 (some 0))))
    (hfile : ∀ members, s.disk.folder.find? "snapshot" ≠ some (.folder members)) :
    wp (install snap) (fun _ _ => False)
      (fun _ s' => Contains s' hard (some snap) F ∧
        s'.disk.folder.find? "log" = s.disk.folder.find? "log") s := by
  rw [install, Action.wp_bind]
  refine Action.wp_mono (wp_replace_lasting hs hfuse hfile) ?_ fun _ _ => False.elim
  rintro - s₁ ⟨hreplaced, hfuse₁⟩
  have h₁ : Contains s₁ hard (some snap) F := h.replaceSnapshot hreplaced hsnap hstale
  have hlog : s₁.disk.folder.find? "log" = s.disk.folder.find? "log" :=
    hreplaced.spares.others _ (by decide)
  rw [Action.wp_bind]
  refine (hholds.congr hlog).wp_readLog (fun _ => ?_) (by rintro ⟨⟩)
  rw [FileStore.replaceLog, onDisk, Action.wp_within]
  refine Action.wp_mono (Disk.wp_replace_lost hfuse₁) (fun _ _ => id) ?_
  intro _ d hd
  have hcontains : Contains ⟨d⟩ hard (some snap) F := h₁.spares hd (by simp) (by simp) (by simp)
  exact ⟨hcontains, (hd.others _ (by simp)).trans hlog⟩

/-! ## Loading -/

/-- A load is a matter of what is read from each of the three files. -/
theorem wp_load_of_read {R : FileStore → Prop}
    (hhard : ∃ h : Option HardState, Record.read? "hard_state" s.disk = .ok h ∧ h.getD {} = hard)
    (hsnapshot : s.loadSnapshot = .ok snapshot)
    (hnum : NumberedFrom (persisted hard snapshot F).covered (persisted hard snapshot F).entries)
    (hlog : wp readLog (fun es s' => es = F ∧ R s') (fun _ _ => False) s) :
    wp load (fun p s' => p = persisted hard snapshot F ∧ R s') (fun _ _ => False) s := by
  obtain ⟨hs, hread, hhard⟩ := hhard
  rw [load, Action.wp_bind, Action.wp_get, hread]
  dsimp only
  rw [hsnapshot]
  dsimp only
  rw [Action.wp_bind]
  refine Action.wp_mono hlog ?_ fun _ _ => False.elim
  rintro _ s' ⟨rfl, hR⟩
  change NumberedFrom _ (List.filter _ _) at hnum
  split
  · rename_i first hfirst
    obtain ⟨rest, hrest⟩ := List.head?_eq_some_iff.mp hfirst
    rw [hrest] at hnum
    have hindex : first.index = (snapshot.map Snapshot.index).getD 0 + 1 := hnum.head
    rw [Action.wp_ite, if_pos hindex, Action.wp_pure, ← hhard]
    exact ⟨rfl, hR⟩
  · rw [Action.wp_pure, ← hhard]
    exact ⟨rfl, hR⟩

theorem Contains.wp_load {R : FileStore → Prop} (h : Contains s hard snapshot F)
    (hnum : NumberedFrom (persisted hard snapshot F).covered (persisted hard snapshot F).entries)
    (hlog : wp readLog (fun es s' => es = F ∧ R s') (fun _ _ => False) s) :
    wp load (fun p s' => p = persisted hard snapshot F ∧ R s') (fun _ _ => False) s :=
  wp_load_of_read h.hardFile h.snapshotFile hnum hlog

theorem Gapped.wp_load (h : Gapped s) : wp FileStore.load (fun _ _ => False) (fun _ _ => True) s := by
  rw [FileStore.load, Action.wp_bind, Action.wp_get]
  split
  · trivial
  split
  · trivial
  dsimp only
  rw [Action.wp_bind]
  exact Action.wp_mono h.wp_readLog (fun _ _ => False.elim) fun _ _ _ => trivial

/-- What a directory holds that has been loaded. -/
theorem wp_load_holds (s : FileStore) :
    wp load
      (fun p s' => ∃ F torn, p = persisted p.hard p.snapshot F ∧ NumberedFrom p.covered p.entries ∧
        (∃ h : Option HardState, Record.read? "hard_state" s.disk = .ok h ∧ h.getD {} = p.hard) ∧
        s.loadSnapshot = .ok p.snapshot ∧ HoldsLog s F torn ∧ (torn = false → s' = s) ∧
        (torn = true → Disk.Writable "log" s.disk ∧
          Disk.Replaced "log" (logText F) s.disk s'.disk))
      (fun _ _ => True) s := by
  rw [load, Action.wp_bind, Action.wp_get]
  split
  · trivial
  rename_i hard hhard
  split
  · trivial
  rename_i snapshot hsnapshot
  dsimp only
  rw [Action.wp_bind]
  refine Action.wp_mono (wp_readLog_holds s) ?_ fun _ _ _ => trivial
  rintro F s' ⟨torn, hholds, hwhole, htorn⟩
  have hadjacent := hholds.adjacent.filter_above ((snapshot.map Snapshot.index).getD 0)
  split
  · rename_i first hfirst
    rw [Action.wp_ite]
    split
    · rename_i hindex
      refine ⟨F, torn, rfl, numbered_of_adjacent hadjacent fun e he => ?_, ⟨hard, hhard, rfl⟩,
        hsnapshot, hholds, hwhole, htorn⟩
      rw [hfirst] at he
      cases he
      exact hindex
    · trivial
  · rename_i hnone
    refine ⟨F, torn, rfl, numbered_of_adjacent hadjacent fun e he => ?_, ⟨hard, hhard, rfl⟩,
      hsnapshot, hholds, hwhole, htorn⟩
    rw [hnone] at he
    cases he

end RaftNode.FileStore
