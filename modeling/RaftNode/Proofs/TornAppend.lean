import RaftNode.Proofs.Filled
import RaftNode.Proofs.Solid
/-!
# Appends that are cut short

Power loss leaves a beginning of what an append writes, cut at any byte. The next load finds the entries whose lines are
whole, behind all that were there before, and trims the file to them. From then on it is as if just these had been
appended.
-/
namespace RaftNode

open RaftNode.Action (wp)

theorem Folder.put_put (f : Folder) (name : String) (old new : FileNode) :
    (f.put name old).put name new = f.put name new := by
  induction f with
  | nil => simp [put]
  | cons m f ih =>
    obtain ⟨n, node⟩ := m
    by_cases hn : n = name
    · simp [put, hn]
    · simp [put, hn, ih]

/-- However an extension ends, the bytes that it added are the first ones. -/
theorem Disk.wp_extend_part {d : Disk} {name : String} {content : Bytes}
    (hfile : d.folder.find? name = some (.file content)) (bytes : Bytes) {P : Folder → Prop}
    (hP : ∀ n, P (d.folder.put name (.file (content ++ bytes.take n)))) :
    wp (extend name bytes) (fun _ d' => P d'.folder) (fun _ d' => P d'.folder) d := by
  rw [extend, Action.wp_bind]
  refine Action.wp_mono (wp_burn bytes.length d) ?_ fun _ _ => False.elim
  rintro n _ ⟨k, rfl⟩
  rw [Action.wp_bind, Action.wp_modify, Action.wp_ite]
  dsimp only
  rw [hfile]
  split
  · exact hP n
  · exact hP n

namespace FileStore

variable {s : FileStore} {p : Persisted} {batch next : List Entry} {F : List Entry} {rest : Bytes}

/-- The entries of a batch whose lines lie wholly within the first `n` bytes of its text. -/
def within : List Entry → Nat → List Entry
  | [], _ => []
  | e :: es, n => if (Record.line e).length ≤ n then e :: within es (n - (Record.line e).length) else []

def logContent (s : FileStore) : Bytes :=
  match s.disk.folder.find? "log" with
  | some (.file content) => content
  | _ => []

/-- The directory with the first `n` bytes of the text of a batch at the end of its log file. -/
def cutShort (s : FileStore) (batch : List Entry) (n : Nat) : FileStore :=
  s.withFile "log" (s.logContent ++ (logText batch).take n)

/-- The batch goes on where the log ends. The log file may hold entries that the snapshot covers, but no gap. -/
structure Continues (p : Persisted) (batch : List Entry) : Prop where
  file : Adjacent (p.entries ++ batch)
  log : NumberedFrom p.covered ((loaded p).entries ++ batch)

/-! ## The text of a batch, cut -/

theorem within_isPrefix (batch : List Entry) (n : Nat) : within batch n <+: batch := by
  induction batch generalizing n with
  | nil => exact List.nil_prefix
  | cons e es ih =>
    rw [within]
    split
    · exact (List.prefix_cons_inj e).mpr (ih _)
    · exact List.nil_prefix

theorem logText_ascii (F : List Entry) : ∀ b ∈ logText F, b.toNat < 0x80 := by
  intro b hb
  obtain ⟨e, -, hline⟩ := List.mem_flatMap.mp hb
  rcases List.mem_append.mp hline with hrecord | hfeed
  · exact Record.encode_ascii e b hrecord
  · rw [List.mem_singleton.mp hfeed]
    decide

/-- Behind the whole lines stands a part of the next one. -/
theorem take_logText (batch : List Entry) (n : Nat) :
    ∃ rest, (logText batch).take n = logText (within batch n) ++ rest ∧ (0x0A : UInt8) ∉ rest := by
  induction batch generalizing n with
  | nil => exact ⟨[], by simp [logText, within], by simp⟩
  | cons e es ih =>
    have htext : logText (e :: es) = Record.line e ++ logText es := rfl
    rw [htext, List.take_append, within]
    split
    · rename_i hwhole
      obtain ⟨rest, hrest, hfeed⟩ := ih (n - (Record.line e).length)
      refine ⟨rest, ?_, hfeed⟩
      rw [hrest, List.take_of_length_le hwhole, ← List.append_assoc]
      rfl
    · rename_i hcut
      have hlength : (Record.line e).length = (Record.encode e).length + 1 := by simp [Record.line]
      refine ⟨(Record.encode e).take n, ?_, fun hmem => Record.encode_line e (List.mem_of_mem_take hmem)⟩
      rw [show n - (Record.line e).length = 0 by omega, List.take_zero, List.append_nil, Record.line,
        List.take_append_of_le_length (by omega)]
      rfl

theorem splitLines_unended (h : (0x0A : UInt8) ∉ rest) : Bytes.splitLines rest = ([], rest) := by
  induction rest with
  | nil => rfl
  | cons b rest ih =>
    have hb : b ≠ 0x0A := by
      rintro rfl
      exact h List.mem_cons_self
    rw [Bytes.splitLines, if_neg hb, ih fun hmem => h (List.mem_cons_of_mem b hmem)]

theorem splitLines_logText_append (F : List Entry) (rest : Bytes) :
    Bytes.splitLines (logText F ++ rest) =
      (F.map Record.encode ++ (Bytes.splitLines rest).1, (Bytes.splitLines rest).2) := by
  induction F with
  | nil => rfl
  | cons e es ih =>
    have hline : logText (e :: es) ++ rest = Record.encode e ++ 0x0A :: (logText es ++ rest) := by
      simp [logText, Record.line]
    rw [hline, Bytes.splitLines_line (Record.encode_line e), ih]
    rfl

/-- A file of whole lines and a part of one more is read, and that part is dropped. -/
theorem legible_cut (hF : ∀ e ∈ F, LawfulWire.Fits e) (hadjacent : Adjacent F)
    (hascii : ∀ b ∈ rest, b.toNat < 0x80) (hfeed : (0x0A : UInt8) ∉ rest) :
    Legible (logText F ++ rest) F (!rest.isEmpty) where
  text := by
    rw [Utf8.decode?_ascii (List.forall_mem_append.mpr ⟨logText_ascii F, hascii⟩)]
    rfl
  lines := by
    rw [splitLines_logText_append, splitLines_unended hfeed, List.append_nil]
    exact ⟨false, entriesOfLines_encode hF 1, rfl⟩
  adjacent := hadjacent

/-- An append that power loss cuts short leaves nothing else behind. -/
theorem wp_append_part (s : FileStore) (batch : List Entry) :
    wp (append batch) (fun _ _ => True)
      (fun _ t => t.disk.folder = s.disk.folder ∨ ∃ n, t.disk.folder = (s.cutShort batch n).disk.folder) s := by
  rw [append, Action.wp_ite]
  split
  · trivial
  rw [Action.wp_bind, Action.wp_get, onDisk, Action.wp_within]
  -- what is left once the file is there
  have hrest {content : Bytes} {d : Disk} (created : Bool)
      (hfile : d.folder.find? "log" = some (.file content))
      (hput : ∀ n, d.folder.put "log" (.file (content ++ (logText batch).take n)) = (s.cutShort batch n).disk.folder) :
      wp (do Disk.extend "log" (logText batch); if created then Disk.sync) (fun _ _ => True)
        (fun _ d' => d'.folder = s.disk.folder ∨ ∃ n, d'.folder = (s.cutShort batch n).disk.folder) d := by
    refine Action.wp_mono (Q := fun _ _ => True) ?_ (fun _ _ h => h) fun _ _ h => Or.inr h
    refine Action.wp_seq (Action.wp_mono (Disk.wp_extend_part hfile _ (P := fun f =>
      ∃ n, f = (s.cutShort batch n).disk.folder) fun n => ⟨n, hput n⟩) (fun _ _ h => h) fun _ _ h => h) ?_
    intro _ d' hd'
    rw [Action.wp_ite]
    split
    · refine Action.wp_mono (Disk.wp_sync d') (fun _ _ _ => trivial) ?_
      rintro _ _ rfl
      exact hd'
    · trivial
  rw [Action.wp_bind, Disk.ensure, Action.wp_bind, Action.wp_get]
  split
  · exact Or.inl rfl
  · rename_i content hfile
    apply hrest _ hfile
    intro n
    rw [cutShort, withFile, logContent, hfile]
  · rename_i hnone
    refine Action.wp_mono (Disk.wp_step _ s.disk) ?_ ?_
    · rintro _ _ ⟨k, rfl⟩
      apply hrest _ (Folder.find?_put_self _ _ _)
      intro n
      rw [cutShort, withFile, logContent, hnone, Folder.put_put]
    · rintro _ _ ⟨k, rfl⟩
      exact Or.inl rfl

/-! ## Batches that continue a log -/

theorem Continues.isPrefix (h : Continues p batch) (hnext : next <+: batch) : Continues p next := by
  obtain ⟨rest, rfl⟩ := hnext
  constructor
  · exact List.IsChain.prefix h.file (by simp)
  · have htake := h.log.take ((loaded p).entries ++ next).length
    rwa [← List.append_assoc, List.take_left] at htake

/-- The entries of the batch count, for the snapshot does not cover them. -/
theorem Continues.loaded_eq (h : Continues p batch) :
    loaded ((Write.append batch).change p) = (Write.append batch).change (loaded p) := by
  have hcount : batch.filter (fun e => p.covered < e.index) = batch := by
    apply List.filter_eq_self.mpr
    intro e he
    exact decide_eq_true (h.log.mem_index (List.mem_append_right _ he)).1
  have hentries : (p.entries ++ batch).filter (fun e => p.covered < e.index) =
      p.entries.filter (fun e => p.covered < e.index) ++ batch := by
    rw [List.filter_append, hcount]
  exact congrArg (Persisted.mk p.hard p.snapshot) hentries

/-- The log is in order without the batch. -/
theorem Continues.alone (h : Continues p batch) : Continues p [] := h.isPrefix List.nil_prefix

theorem Continues.numbered (h : Continues p batch) :
    NumberedFrom p.covered (loaded ((Write.append batch).change p)).entries := by
  rw [h.loaded_eq]
  exact h.log

theorem Files.load_continued (h : Files s ((Write.append batch).change p)) (hbatch : Continues p batch) :
    load s = .ok ((Write.append batch).change (loaded p)) s := by
  rw [← hbatch.loaded_eq]
  exact h.load_eq hbatch.file hbatch.numbered

/-! ## Loading after power loss -/

theorem Files.logContent_eq (h : Files s p) : s.logContent = logText p.entries := by
  obtain ⟨F, hF, hfile⟩ := h.logFile
  rw [← hF, logContent, hfile]
  cases F <;> rfl

/-- Reading a log file of whole lines and a part of one more leaves the whole lines, and the other files alone. -/
theorem Files.wp_readLog_trimmed (h : Files s p) (hF : ∀ e ∈ F, LawfulWire.Fits e) (hadjacent : Adjacent F)
    (hascii : ∀ b ∈ rest, b.toNat < 0x80) (hfeed : (0x0A : UInt8) ∉ rest) :
    wp readLog (fun es t => es = F ∧ Files t { p with entries := F }) (fun _ _ => False)
      (s.withFile "log" (logText F ++ rest)) := by
  have hspares := withFile_spares s "log" (logText F ++ rest)
  have hready := h.toReady.withFile "log" (logText F ++ rest)
  have hfile := withFile_find? s "log" (logText F ++ rest)
  have hholds : HoldsLog (s.withFile "log" (logText F ++ rest)) F (!rest.isEmpty) :=
    Or.inr ⟨_, hfile, legible_cut hF hadjacent hascii hfeed⟩
  have hfiles {t : FileStore} (ht : Disk.Spares ["log", Disk.temporary "log"] s.disk t.disk) (hr : Ready t)
      (hlog : t.disk.folder.find? "log" = some (.file (logText F))) : Files t { p with entries := F } := by
    refine { h with toReady := hr, hardFile := ?_, snapshotFile := ?_, logFile := ⟨some F, rfl, hlog⟩, logFits := hF }
    · rw [ht.others _ (by decide)]
      exact h.hardFile
    · rw [ht.others _ (by decide)]
      exact h.snapshotFile
  apply hholds.wp_readLog
  · intro hwhole
    have hnil : rest = [] := by simpa using hwhole
    refine ⟨rfl, hfiles (hspares.mono (by simp)) hready ?_⟩
    rw [hfile, hnil, List.append_nil]
  · intro _
    refine Action.wp_imp (hready.wp_replace (by simp [names]) hholds.not_folder _) ?_
    rintro _ t ⟨ht, hreplaced⟩
    exact ⟨rfl, hfiles ((hspares.mono (by simp)).trans hreplaced.spares) ht hreplaced.file⟩

theorem Files.wp_load_trimmed (h : Files s p) (hF : ∀ e ∈ F, LawfulWire.Fits e) (hadjacent : Adjacent F)
    (hnum : NumberedFrom p.covered (loaded { p with entries := F }).entries) (hascii : ∀ b ∈ rest, b.toNat < 0x80)
    (hfeed : (0x0A : UInt8) ∉ rest) :
    wp load (fun q t => q = loaded { p with entries := F } ∧ Files t { p with entries := F }) (fun _ _ => False)
      (s.withFile "log" (logText F ++ rest)) := by
  have hhard : ∃ o : Option HardState,
      Record.read? "hard_state" (s.withFile "log" (logText F ++ rest)).disk = .ok o ∧ o.getD {} = p.hard := by
    rw [Record.read?_congr (withFile_find?_of_ne s _ (by decide))]
    exact h.read_hard
  have hsnapshot : (s.withFile "log" (logText F ++ rest)).loadSnapshot = .ok p.snapshot := by
    rw [loadSnapshot_congr (withFile_find?_of_ne s _ (by decide))]
    exact h.loadSnapshot
  exact wp_load_of_read hhard hsnapshot hnum (h.wp_readLog_trimmed hF hadjacent hascii hfeed)

/-- A load finds what is whole, and leaves the files as if just that had been appended. -/
theorem Files.wp_load_cut (h : Files s p) (hfits : ∀ e ∈ batch, LawfulWire.Fits e) (hbatch : Continues p batch)
    (n : Nat) :
    wp load
      (fun q t => q = (Write.append (within batch n)).change (loaded p) ∧
        Files t ((Write.append (within batch n)).change p))
      (fun _ _ => False) (s.cutShort batch n) := by
  have hwithin := hbatch.isPrefix (within_isPrefix batch n)
  have hfound : ∀ e ∈ p.entries ++ within batch n, LawfulWire.Fits e :=
    List.forall_mem_append.mpr ⟨h.logFits, fun e he => hfits e ((within_isPrefix batch n).subset he)⟩
  obtain ⟨rest, hrest, hfeed⟩ := take_logText batch n
  have hascii : ∀ b ∈ rest, b.toNat < 0x80 := by
    intro b hb
    apply logText_ascii batch b
    apply List.mem_of_mem_take
    rw [hrest]
    exact List.mem_append_right _ hb
  have hload := h.wp_load_trimmed hfound hwithin.file hwithin.numbered hascii hfeed
  rw [logText_append, List.append_assoc, ← hrest, ← h.logContent_eq] at hload
  rw [← hwithin.loaded_eq]
  exact hload

/-- Of an append that was cut short, the next load returns the entries whose lines are whole, behind all that were there
before. It leaves a log file of whole lines. Another load changes nothing, and another append goes on from there. -/
theorem load_after_torn_append (h : Filled s p) (hfits : ∀ e ∈ batch, LawfulWire.Fits e) (hbatch : Continues p batch)
    (n : Nat) :
    load s = .ok (loaded p) s ∧
      ∃ t, load (s.cutShort batch n) = .ok ((Write.append (within batch n)).change (loaded p)) t ∧
        t.logContent = logText (p.entries ++ within batch n) ∧ Adjacent (p.entries ++ within batch n) ∧
        load t = .ok ((Write.append (within batch n)).change (loaded p)) t ∧
        ∀ next, (∀ e ∈ next, LawfulWire.Fits e) → Continues ((Write.append (within batch n)).change p) next →
          ∃ t', append next t = .ok () t' ∧
            load t' = .ok ((Write.append (within batch n ++ next)).change (loaded p)) t' := by
  have hfiles := h.files
  have hwithin := hbatch.isPrefix (within_isPrefix batch n)
  have hbefore : load s = .ok (loaded p) s :=
    hfiles.load_eq (by simpa using hbatch.alone.file) (by simpa using hbatch.alone.log)
  obtain ⟨q, t, hload, rfl, ht⟩ := Action.wp_exists (hfiles.wp_load_cut hfits hbatch n)
  refine ⟨hbefore, t, hload, ht.logContent_eq, hwithin.file, ht.load_continued hwithin, ?_⟩
  intro next hnext hcontinues
  obtain ⟨_, t', happend, ht'⟩ := Action.wp_exists (ht.wp_append hnext)
  have hagain := Files.load_continued ht' hcontinues
  rw [hwithin.loaded_eq] at hagain
  refine ⟨t', happend, hagain.trans ?_⟩
  simp only [Write.change, List.append_assoc]

def firstEntry : Entry := ⟨1, 1, [97]⟩

def secondEntry : Entry := ⟨2, 1, []⟩

def thirdEntry : Entry := ⟨3, 2, [98]⟩

/-- The line of the second entry, and five bytes of the line of the third. -/
def upToThird : Nat := (Record.line secondEntry).length + 5

theorem within_upToThird : within [secondEntry, thirdEntry] upToThird = [secondEntry] := by
  have hsum (m : Nat) : (Bytes.hexDigits 8 m).length = 8 := rfl
  have hshort : ¬ (Record.line thirdEntry).length ≤ 5 := by
    rw [Record.line, Record.encode, Record.withChecksum, List.length_append, List.length_append, List.length_cons, hsum]
    omega
  rw [within, upToThird, if_pos (Nat.le_add_right _ 5), Nat.add_sub_cancel_left, within, if_neg hshort]

theorem load_after_torn_append_third :
    ∃ s, Filled s ⟨{}, none, [firstEntry]⟩ ∧ (∀ e ∈ [secondEntry, thirdEntry], LawfulWire.Fits e) ∧
      Continues ⟨{}, none, [firstEntry]⟩ [secondEntry, thirdEntry] ∧
      ∃ t, load (s.cutShort [secondEntry, thirdEntry] upToThird) = .ok ⟨{}, none, [firstEntry, secondEntry]⟩ t ∧
        t.logContent = logText [firstEntry, secondEntry] ∧
        ∃ t', append [thirdEntry] t = .ok () t' ∧
          load t' = .ok ⟨{}, none, [firstEntry, secondEntry, thirdEntry]⟩ t' := by
  have hall : ∀ e ∈ [firstEntry, secondEntry, thirdEntry], LawfulWire.Fits e := by
    simp only [LawfulWire.Fits]
    decide
  have hnum : NumberedFrom 0 [firstEntry, secondEntry, thirdEntry] := .cons rfl (.cons rfl (.singleton 2 [98]))
  have hadjacent := adjacent_of_numbered hnum
  have hfirst : ∀ e ∈ [firstEntry], LawfulWire.Fits e := fun e he => hall e (by simp_all)
  have hfits : ∀ e ∈ [secondEntry, thirdEntry], LawfulWire.Fits e := fun e he => hall e (by simp_all)
  have hthird : ∀ e ∈ [thirdEntry], LawfulWire.Fits e := fun e he => hall e (by simp_all)
  have hbatch : Continues ⟨{}, none, [firstEntry]⟩ [secondEntry, thirdEntry] := ⟨hadjacent, hnum⟩
  obtain ⟨_, s, happend, -⟩ := Action.wp_exists (fresh_empty.files.wp_append hfirst)
  have hs : Filled s ⟨{}, none, [firstEntry]⟩ := .write (.fresh fresh_empty) (w := .append [firstEntry]) hfirst happend
  obtain ⟨-, t, hload, hcontent, -, -, hnext⟩ := load_after_torn_append hs hfits hbatch upToThird
  rw [within_upToThird] at hload hcontent hnext
  obtain ⟨t', happend', hload'⟩ := hnext [thirdEntry] hthird ⟨hadjacent, hnum⟩
  exact ⟨s, hs, hfits, hbatch, t, hload, hcontent, t', happend', hload'⟩

end FileStore

end RaftNode
