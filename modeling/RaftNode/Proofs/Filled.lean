import RaftNode.Proofs.Directory
/-!
# Directories as the store leaves them

Only the store has written to such a directory, and all that it did there has succeeded. Each of its three files is
then exactly as it was last written, whatever the writes were.
-/
namespace RaftNode

open RaftNode.Action (wp)

/-- The numbers that a write stores have 64 bits. -/
def Write.Fits : Write → Prop
  | .hard h => LawfulWire.Fits h
  | .append es => ∀ e ∈ es, LawfulWire.Fits e
  | .truncate _ => True
  | .install snap => LawfulWire.Fits snap

theorem Record.read?_missing {α : Type} [Wire α] {name : String} {d : Disk} (hfile : d.folder.find? name = none) :
    (read? name d : Except RecordError (Option α)) = .ok none := by
  have hread : d.readText? name = .ok none := by
    simp [Disk.readText?, Disk.read?, hfile, bind, Except.bind]
  rw [read?, hread]
  rfl

namespace Disk

variable {d : Disk} {name : String} {old : Option Bytes}

theorem wp_ensure_powered (hfuse : d.fuse = none) (hfile : d.folder.find? name = old.map .file) :
    wp (ensure name)
      (fun _ d' => d'.folder.find? name = some (.file (old.getD [])) ∧ Spares [name] d d' ∧ d'.fuse = none)
      (fun _ _ => False) d := by
  rw [ensure, Action.wp_bind, Action.wp_get, hfile]
  cases old with
  | none =>
    refine Action.wp_imp (wp_step_lasting (k := none) _ hfuse) ?_
    rintro _ _ rfl
    exact ⟨Folder.find?_put_self _ _ _, .put rfl rfl, rfl⟩
  | some content => exact ⟨hfile, .refl _ d, hfuse⟩

/-- Bytes are added to a file, which is made if there is none. -/
theorem wp_grow (hfuse : d.fuse = none) (hsync : d.syncFault = none)
    (hfile : d.folder.find? name = old.map .file) (bytes : Bytes) (created : Bool) :
    wp (do ensure name; extend name bytes; if created then sync)
      (fun _ d' => d'.folder.find? name = some (.file (old.getD [] ++ bytes)) ∧ Spares [name] d d' ∧ d'.fuse = none)
      (fun _ _ => False) d := by
  rw [Action.wp_bind]
  refine Action.wp_imp (wp_ensure_powered hfuse hfile) ?_
  rintro _ d₁ ⟨hfile₁, hspares₁, hfuse₁⟩
  rw [Action.wp_bind]
  refine Action.wp_imp (wp_extend_powered hfuse₁ hfile₁ bytes) ?_
  intro _ d₂ hd₂
  have hfile₂ : d₂.folder.find? name = some (.file (old.getD [] ++ bytes)) := by
    rw [hd₂, Folder.find?_put_self]
  have hspares₂ : Spares [name] d d₂ := by
    rw [hd₂]
    exact hspares₁.trans (.put rfl rfl)
  have hfuse₂ : d₂.fuse = none := by
    rw [hd₂]
    exact hfuse₁
  rw [Action.wp_ite]
  split
  · rw [sync, Action.wp_bind, Action.wp_get, hspares₂.sync, hsync]
    exact ⟨hfile₂, hspares₂, hfuse₂⟩
  · exact ⟨hfile₂, hspares₂, hfuse₂⟩

end Disk

namespace FileStore

variable {s s' : FileStore} {p q : Persisted} {name : String} {content : Bytes} {hard : HardState}
  {snap : Snapshot} {F G : List Entry} {torn : Bool}

/-- The names of the files that a store keeps. -/
def names : List String := ["hard_state", "snapshot", "log"]

/-- There is power, and nothing is in the way of a write. -/
structure Ready (s : FileStore) : Prop where
  power : s.disk.fuse = none
  writable : ∀ name ∈ names, Disk.Writable name s.disk

/-- The files of a directory hold these values, each written as a whole. -/
structure Files (s : FileStore) (p : Persisted) : Prop extends Ready s where
  hardFile : ∃ h : Option HardState, h.getD {} = p.hard ∧
    s.disk.folder.find? "hard_state" = h.map fun h => .file (Record.line h)
  snapshotFile : s.disk.folder.find? "snapshot" = p.snapshot.map fun snap => .file (Record.line snap)
  logFile : ∃ F : Option (List Entry), F.getD [] = p.entries ∧
    s.disk.folder.find? "log" = F.map fun F => .file (logText F)
  hardFits : LawfulWire.Fits p.hard
  snapshotFits : ∀ snap ∈ p.snapshot, LawfulWire.Fits snap
  logFits : ∀ e ∈ p.entries, LawfulWire.Fits e

/-- The store has written nothing yet, and nothing is in its way. -/
structure Fresh (s : FileStore) : Prop extends Ready s where
  unused : ∀ name ∈ names, s.disk.folder.find? name = none

/-- A directory that was fresh, and what successful operations of the store have written to it since. Nothing is asked
of their arguments but that their numbers have 64 bits. -/
inductive Filled : FileStore → Persisted → Prop
  | fresh {s : FileStore} (h : Fresh s) : Filled s {}
  | write {s s' : FileStore} {p : Persisted} (h : Filled s p) {w : Write} (hw : w.Fits)
    (hrun : w.perform s = .ok () s') : Filled s' (w.change p)
  | load {s s' : FileStore} {p q : Persisted} (h : Filled s p) (hrun : LogStore.load s = .ok q s') : Filled s' p

theorem adjacent_of_numbered {F : List Entry} {i : Index} (h : NumberedFrom i F) : Adjacent F := by
  induction F generalizing i with
  | nil => exact .nil
  | cons a F ih =>
    cases F with
    | nil => exact .singleton a
    | cons b F =>
      have ha := h.head
      have hb := h.tail.head
      exact .cons_cons (by lia) (ih h.tail)

/-! ## Files changed from outside -/

/-- The directory with a file that something else has written. -/
def withFile (s : FileStore) (name : String) (content : Bytes) : FileStore :=
  { disk := { s.disk with folder := s.disk.folder.put name (.file content) } }

@[simp] theorem withFile_find? (s : FileStore) (name : String) (content : Bytes) :
    (s.withFile name content).disk.folder.find? name = some (.file content) := Folder.find?_put_self _ _ _

theorem withFile_spares (s : FileStore) (name : String) (content : Bytes) :
    Disk.Spares [name] s.disk (s.withFile name content).disk := .put rfl rfl

theorem withFile_find?_of_ne (s : FileStore) (content : Bytes) {other : String} (h : other ≠ name) :
    (s.withFile name content).disk.folder.find? other = s.disk.folder.find? other := Folder.find?_put_of_ne h

theorem Ready.withFile (h : Ready s) (name : String) (content : Bytes) : Ready (s.withFile name content) where
  power := h.power
  writable other hother := (h.writable other hother).spares (withFile_spares s name content)

/-! ## Reading -/

theorem Files.read_hard (h : Files s p) :
    ∃ o : Option HardState, Record.read? "hard_state" s.disk = .ok o ∧ o.getD {} = p.hard := by
  obtain ⟨o, ho, hfile⟩ := h.hardFile
  refine ⟨o, ?_, ho⟩
  cases o with
  | none => exact Record.read?_missing hfile
  | some hard =>
    obtain rfl : hard = p.hard := ho
    exact Record.read?_line h.hardFits hfile

theorem Files.loadSnapshot (h : Files s p) : s.loadSnapshot = .ok p.snapshot := by
  have hread : Record.read? "snapshot" s.disk = .ok p.snapshot := by
    have hfile := h.snapshotFile
    cases hsnap : p.snapshot with
    | none =>
      rw [hsnap] at hfile
      exact Record.read?_missing hfile
    | some snap =>
      rw [hsnap] at hfile
      exact Record.read?_line (h.snapshotFits snap hsnap) hfile
  rw [FileStore.loadSnapshot, hread]
  rfl

theorem Files.holdsLog (h : Files s p) (hadjacent : Adjacent p.entries) : HoldsLog s p.entries false := by
  obtain ⟨F, hF, hfile⟩ := h.logFile
  cases F with
  | none => exact Or.inl ⟨hF.symm, rfl, hfile⟩
  | some F =>
    obtain rfl : F = p.entries := hF
    exact Or.inr ⟨_, hfile, legible_logText h.logFits hadjacent⟩

theorem Files.find?_log (h : Files s p) (hne : p.entries ≠ []) :
    s.disk.folder.find? "log" = some (.file (logText p.entries)) := by
  obtain ⟨F, hF, hfile⟩ := h.logFile
  cases F with
  | none => exact absurd hF.symm hne
  | some F =>
    obtain rfl : F = p.entries := hF
    exact hfile

/-- Nothing but what was written is read. -/
theorem Files.eq_of_holdsLog (h : Files s p) (hholds : HoldsLog s F torn) : F = p.entries ∧ torn = false := by
  obtain ⟨G, hG, hfile⟩ := h.logFile
  cases G with
  | none =>
    obtain ⟨rfl, rfl, -⟩ | ⟨content, hcontent, -⟩ := hholds
    · exact ⟨hG, rfl⟩
    · rw [hfile] at hcontent
      cases hcontent
  | some G =>
    obtain rfl : G = p.entries := hG
    obtain ⟨-, -, hnone⟩ | ⟨content, hcontent, -, ⟨cut, hlines, rfl⟩, -⟩ := hholds
    · rw [hfile] at hnone
      cases hnone
    · rw [hfile] at hcontent
      cases hcontent
      rw [splitLines_logText] at hlines ⊢
      rw [entriesOfLines_encode h.logFits] at hlines
      cases hlines
      exact ⟨rfl, rfl⟩

theorem Files.contains (h : Files s p) (hadjacent : Adjacent p.entries) :
    Contains s p.hard p.snapshot p.entries where
  hardFile := h.read_hard
  snapshotFile := h.loadSnapshot
  log := ⟨false, h.holdsLog hadjacent, by rintro ⟨⟩⟩
  stale _ := h.writable "log" (by simp [names])

/-- Without adjacent entries there is a log file, and it has a gap. -/
theorem Files.gapped (h : Files s p) (hgap : ¬ Adjacent p.entries) : Gapped s := by
  obtain ⟨F, hF, hfile⟩ := h.logFile
  cases F with
  | none =>
    rw [← hF] at hgap
    exact absurd .nil hgap
  | some F =>
    obtain rfl : F = p.entries := hF
    exact ⟨_, hfile, h.logFits, hgap⟩

theorem Files.wp_readLog (h : Files s p) :
    wp readLog (fun F s' => F = p.entries ∧ s' = s) (fun _ _ => ¬ Adjacent p.entries) s := by
  by_cases hadjacent : Adjacent p.entries
  · exact (h.holdsLog hadjacent).wp_readLog (fun _ => ⟨rfl, rfl⟩) (by rintro ⟨⟩)
  · exact Action.wp_mono (h.gapped hadjacent).wp_readLog (fun _ _ => False.elim) fun _ _ _ => hadjacent

/-! ## Writing -/

theorem Ready.replace (h : Ready s) (hreplaced : Disk.Replaced name content s.disk s'.disk)
    (hfuse : s'.disk.fuse = none) : Ready s' where
  power := hfuse
  writable other hother := (h.writable other hother).spares hreplaced.spares

theorem Ready.wp_replace (h : Ready s) (hname : name ∈ names)
    (hfile : ∀ members, s.disk.folder.find? name ≠ some (.folder members)) (content : Bytes) :
    wp (onDisk (Disk.replace name content))
      (fun _ s' => Ready s' ∧ Disk.Replaced name content s.disk s'.disk) (fun _ _ => False) s := by
  refine Action.wp_imp (wp_replace_lasting (k := none) (h.writable name hname) h.power hfile) ?_
  rintro _ s' ⟨hreplaced, hfuse⟩
  exact ⟨h.replace hreplaced hfuse, hreplaced⟩

/-- Where a file may stand there is no folder. -/
theorem ne_folder {α : Type} {o : Option α} {text : α → Bytes} {node : Option FileNode}
    (h : node = o.map fun a => .file (text a)) (members : List (String × FileNode)) :
    node ≠ some (.folder members) := by
  cases o <;> simp [h]

theorem Files.wp_saveHard (h : Files s p) (hfits : LawfulWire.Fits hard) :
    wp (onDisk (Disk.replace "hard_state" (Record.line hard))) (fun _ s' => Files s' { p with hard := hard })
      (fun _ _ => False) s := by
  obtain ⟨o, -, hfile⟩ := h.hardFile
  refine Action.wp_imp (h.toReady.wp_replace (by simp [names]) (ne_folder hfile) _) ?_
  rintro _ s' ⟨hready, hreplaced⟩
  refine { h with toReady := hready, hardFile := ⟨some hard, rfl, hreplaced.file⟩, snapshotFile := ?_,
                  logFile := ?_, hardFits := hfits }
  · rw [hreplaced.spares.others _ (by decide)]
    exact h.snapshotFile
  · rw [hreplaced.spares.others _ (by decide)]
    exact h.logFile

theorem Files.wp_replaceSnapshot (h : Files s p) (hfits : LawfulWire.Fits snap) :
    wp (onDisk (Disk.replace "snapshot" (Record.line snap))) (fun _ s' => Files s' { p with snapshot := some snap })
      (fun _ _ => False) s := by
  refine Action.wp_imp (h.toReady.wp_replace (by simp [names]) (ne_folder h.snapshotFile) _) ?_
  rintro _ s' ⟨hready, hreplaced⟩
  refine { h with toReady := hready, hardFile := ?_, snapshotFile := hreplaced.file, logFile := ?_,
                  snapshotFits := ?_ }
  · rw [hreplaced.spares.others _ (by decide)]
    exact h.hardFile
  · rw [hreplaced.spares.others _ (by decide)]
    exact h.logFile
  · rintro _ ⟨⟩
    exact hfits

theorem Files.wp_replaceLog (h : Files s p) (hfits : ∀ e ∈ G, LawfulWire.Fits e) :
    wp (replaceLog G) (fun _ s' => Files s' { p with entries := G }) (fun _ _ => False) s := by
  obtain ⟨F, -, hfile⟩ := h.logFile
  refine Action.wp_imp (h.toReady.wp_replace (by simp [names]) (ne_folder hfile) _) ?_
  rintro _ s' ⟨hready, hreplaced⟩
  refine { h with toReady := hready, hardFile := ?_, snapshotFile := ?_, logFile := ⟨some G, rfl, hreplaced.file⟩,
                  logFits := hfits }
  · rw [hreplaced.spares.others _ (by decide)]
    exact h.hardFile
  · rw [hreplaced.spares.others _ (by decide)]
    exact h.snapshotFile

/-- The log file is rewritten with some of its entries, unless it has a gap. -/
theorem Files.wp_rewrite (h : Files s p) (keep : Entry → Bool) :
    wp (do FileStore.replaceLog ((← FileStore.readLog).filter keep))
      (fun _ s' => Files s' { p with entries := p.entries.filter keep }) (fun _ _ => ¬ Adjacent p.entries) s := by
  rw [Action.wp_bind]
  refine Action.wp_imp h.wp_readLog ?_
  rintro _ _ ⟨rfl, rfl⟩
  have hfits : ∀ e ∈ p.entries.filter keep, LawfulWire.Fits e := fun e he => h.logFits e (List.mem_of_mem_filter he)
  exact Action.wp_mono (h.wp_replaceLog hfits) (fun _ _ hs => hs) fun _ _ => False.elim

theorem logText_append (F G : List Entry) : logText (F ++ G) = logText F ++ logText G := List.flatMap_append

theorem Files.wp_append (h : Files s p) (hfits : ∀ e ∈ G, LawfulWire.Fits e) :
    wp (append G) (fun _ s' => Files s' { p with entries := p.entries ++ G }) (fun _ _ => False) s := by
  rw [FileStore.append, Action.wp_ite]
  split
  · rename_i hnil
    rw [List.isEmpty_iff.mp hnil, List.append_nil, Action.wp_pure]
    exact h
  · have hsync : s.disk.syncFault = none := (h.writable "log" (by simp [names])).sync
    obtain ⟨F, hF, hfile⟩ := h.logFile
    have hold : s.disk.folder.find? "log" = (F.map logText).map .file := by
      rw [hfile, Option.map_map]
      rfl
    have htext : (F.map logText).getD [] = logText p.entries := by
      rw [← hF]
      cases F <;> rfl
    rw [Action.wp_bind, Action.wp_get, onDisk, Action.wp_within]
    refine Action.wp_imp (Disk.wp_grow h.power hsync hold (logText G) _) ?_
    rintro _ d ⟨hgrown, hspares, hfuse⟩
    rw [htext, ← logText_append] at hgrown
    exact {
      power := hfuse
      writable := fun name hname => (h.writable name hname).spares hspares
      hardFile := by
        rw [hspares.others _ (by decide)]
        exact h.hardFile
      snapshotFile := by
        rw [hspares.others _ (by decide)]
        exact h.snapshotFile
      logFile := ⟨some (p.entries ++ G), rfl, hgrown⟩
      hardFits := h.hardFits
      snapshotFits := h.snapshotFits
      logFits := List.forall_mem_append.mpr ⟨h.logFits, hfits⟩ }

theorem Files.wp_perform (h : Files s p) {w : Write} (hw : w.Fits) :
    wp w.perform (fun _ s' => Files s' (w.change p)) (fun _ _ => ¬ Adjacent p.entries) s := by
  cases w with
  | hard hard => exact Action.wp_mono (h.wp_saveHard hw) (fun _ _ hs => hs) fun _ _ => False.elim
  | append es => exact Action.wp_mono (h.wp_append hw) (fun _ _ hs => hs) fun _ _ => False.elim
  | truncate i => exact h.wp_rewrite _
  | install snap =>
    change wp (onDisk (Disk.replace "snapshot" (Record.line snap)) >>= fun _ => _) _ _ s
    rw [Action.wp_bind]
    refine Action.wp_mono (h.wp_replaceSnapshot hw) ?_ fun _ _ => False.elim
    intro _ s₁ h₁
    exact h₁.wp_rewrite _

/-! ## Loading -/

/-- What is read from files that hold `p`: the entries that the snapshot covers do not count. -/
def loaded (p : Persisted) : Persisted := persisted p.hard p.snapshot p.entries

/-- A load that succeeds leaves all as it is. -/
theorem Files.wp_load (h : Files s p) :
    wp load
      (fun q s' => q = loaded p ∧ s' = s ∧ Adjacent p.entries ∧ NumberedFrom p.covered q.entries)
      (fun _ _ => True) s := by
  refine Action.wp_imp (wp_load_holds s) ?_
  rintro q s' ⟨F, torn, hq, hnum, ⟨o, hread, ho⟩, hsnapshot, hholds, hwhole, -⟩
  obtain ⟨o', hread', ho'⟩ := h.read_hard
  obtain ⟨rfl, rfl⟩ := h.eq_of_holdsLog hholds
  have hhard : q.hard = p.hard := by
    rw [hread'] at hread
    cases hread
    exact ho.symm.trans ho'
  have hsame : q.snapshot = p.snapshot := by
    rw [h.loadSnapshot] at hsnapshot
    exact (Except.ok.inj hsnapshot).symm
  refine ⟨?_, hwhole rfl, hholds.adjacent, ?_⟩
  · rw [hq, hhard, hsame]
    rfl
  · rwa [Persisted.covered, hsame] at hnum

/-- A load succeeds if the entries follow each other, and the first one that counts follows the snapshot. -/
theorem Files.load_eq (h : Files s p) (hadjacent : Adjacent p.entries)
    (hnum : NumberedFrom p.covered (loaded p).entries) : load s = .ok (loaded p) s := by
  have hread : wp readLog (fun es s' => es = p.entries ∧ s' = s) (fun _ _ => False) s :=
    (h.holdsLog hadjacent).wp_readLog (fun _ => ⟨rfl, rfl⟩) (by rintro ⟨⟩)
  obtain ⟨q, s', hload, rfl, rfl⟩ := Action.wp_exists ((h.contains hadjacent).wp_load hnum hread)
  exact hload

/-! ## What successful operations leave -/

theorem fresh_empty : Fresh {} where
  power := rfl
  writable _ _ := ⟨rfl, by rintro members ⟨⟩⟩
  unused _ _ := rfl

theorem Fresh.files (h : Fresh s) : Files s {} where
  toReady := h.toReady
  hardFile := ⟨none, rfl, h.unused _ (by simp [names])⟩
  snapshotFile := h.unused _ (by simp [names])
  logFile := ⟨none, rfl, h.unused _ (by simp [names])⟩
  hardFits := ⟨by decide, by rintro v ⟨⟩⟩
  snapshotFits := by rintro snap ⟨⟩
  logFits := List.forall_mem_nil _

theorem Filled.files (h : Filled s p) : Files s p := by
  induction h with
  | fresh h => exact h.files
  | write h hw hrun ih =>
    have hfiles := Action.wp_ok (ih.wp_perform hw) hrun
    exact hfiles
  | load h hrun ih =>
    obtain ⟨-, rfl, -⟩ := Action.wp_ok ih.wp_load hrun
    exact ih

end FileStore

end RaftNode
