import RaftNode.Proofs.Filled
import RaftNode.Proofs.Formats
/-!
# Whose folder it is

Nodes open one folder again and again. A run on the folder ends with the record of a clean end or in a crash, power may
be lost at any step of a call, and other nodes may try the folder at any moment. The folder belongs to the node whose
record was the first to reach the disk, and its record counts the openings and tells how the last run ended.
-/
namespace RaftNode

open RaftNode.Action (wp)
open LawfulWire (Fits)

/-- Two values whose records are the same line are the same. -/
theorem Record.line_injective {α : Type} [Wire α] [LawfulWire α] {a b : α} (ha : Fits a) (hb : Fits b)
    (h : line a = line b) : a = b := by
  have hencode : encode a = encode b := List.append_cancel_right h
  have hdecode : decode (encode a) = (.ok b : Except RecordError α) := by
    rw [hencode, decode_encode hb]
  rw [decode_encode ha] at hdecode
  exact Except.ok.inj hdecode

namespace SystemStore

/-! ## One call -/

variable {path : String} {node : NodeId} {now : String} {d d' : Disk} {s : SystemStore}

/-- The record of the file `system` is replaced by another one, and nothing else is touched for good. -/
abbrev Rewritten (r : SystemRecord) (d d' : Disk) : Prop := Disk.Replaced "system" (Record.line r) d d'

/-- Nothing but the file that replaces `system` is touched. -/
abbrev Untouched (d d' : Disk) : Prop := Disk.Spares [Disk.temporary "system"] d d'

/-- The fault is not that the folder belongs to another node. -/
def Faults (e : Fault NodeError) : Prop := ∀ text, e ≠ .error (.identity text)

/-- What a node that opens a folder stores in it. -/
def begun (node : NodeId) (now : String) (count : Nat) : SystemRecord :=
  { node, lifecycle := .running, bootCount := count, lastStartedAt := now }

/-- The number of openings that a record counts. -/
def count (prev : Option SystemRecord) : Nat := (prev.map SystemRecord.bootCount).getD 0

/-- Whether a record was left by a run that did not end cleanly. -/
def unclean (prev : Option SystemRecord) : Bool := prev.any fun r => r.lifecycle = .running

theorem wp_save (s : SystemStore) (d : Disk) :
    wp s.save (fun _ d' => Rewritten s.record d d')
      (fun e d' => Faults e ∧ (Untouched d d' ∨ Rewritten s.record d d')) d := by
  rw [save, Action.wp_within]
  refine Action.wp_mono (Disk.wp_replace "system" (Record.line s.record) d) (fun _ _ h => h.1) ?_
  intro e d' hd'
  refine ⟨fun text => ?_, hd'⟩
  cases e with
  | error e => rintro ⟨⟩
  | abort => rintro ⟨⟩

/-- A record is saved as a whole or not at all. -/
theorem save_after (s : SystemStore) (d : Disk) :
    Untouched d (s.save.after d) ∨ Rewritten s.record d (s.save.after d) :=
  Action.of_after (P := fun d' => Untouched d d' ∨ Rewritten s.record d d')
    (Action.wp_mono (wp_save s d) (fun _ _ h => Or.inr h) fun _ _ h => h.2)

theorem wp_save_powered (s : SystemStore) (hfuse : d.fuse = none) (hwritable : Disk.Writable "system" d)
    (hfile : ∀ members, d.folder.find? "system" ≠ some (.folder members)) :
    wp s.save (fun _ d' => Rewritten s.record d d') (fun _ _ => False) d := by
  rw [save, Action.wp_within]
  exact Action.wp_mono (hwritable.wp_replace (k := none) hfuse hfile) (fun _ _ h => h.1) fun _ _ => False.elim

theorem wp_start (count : Nat) (crashed : Bool) (d : Disk) :
    wp (boot.start node now count crashed)
      (fun s d' => s = ⟨begun node now count, crashed⟩ ∧ Rewritten (begun node now count) d d')
      (fun e d' => Faults e ∧ (Untouched d d' ∨ Rewritten (begun node now count) d d')) d := by
  rw [boot.start, Action.wp_bind]
  exact Action.wp_imp (wp_save _ d) fun _ _ h => ⟨rfl, h⟩

/-- A folder that is new to its owner or has its record is opened, unless the count is at its end or power is lost. -/
theorem wp_boot_own {prev : Option SystemRecord} (hread : Record.read? "system" d = .ok prev)
    (hown : ∀ r ∈ prev, r.node = node) :
    wp (boot path node now)
      (fun s d' => s = ⟨begun node now (count prev + 1), unclean prev⟩ ∧ count prev + 1 < wordLimit ∧
        Rewritten (begun node now (count prev + 1)) d d')
      (fun e d' => Faults e ∧ (Untouched d d' ∨
        count prev + 1 < wordLimit ∧ Rewritten (begun node now (count prev + 1)) d d')) d := by
  rw [boot, Action.wp_bind, Action.wp_get, hread]
  cases prev with
  | none =>
    have hroom : count none + 1 < wordLimit := by decide
    exact Action.wp_mono (wp_start 1 false d) (fun _ _ h => ⟨h.1, hroom, h.2⟩)
      fun _ _ h => ⟨h.1, h.2.imp_right fun h => ⟨hroom, h⟩⟩
  | some r =>
    have hunclean : unclean (some r) = decide (r.lifecycle = .running) := rfl
    dsimp only
    rw [Action.wp_ite, if_pos (hown r rfl), Action.wp_bind, Action.wp_add, hunclean]
    split
    · rename_i hroom
      exact Action.wp_mono (wp_start (r.bootCount + 1) _ d) (fun _ _ h => ⟨h.1, hroom, h.2⟩)
        fun _ _ h => ⟨h.1, h.2.imp_right fun h => ⟨hroom, h⟩⟩
    · exact ⟨fun text => by rintro ⟨⟩, Or.inl (.refl _ d)⟩

/-- The same of the disk that an opening leaves, however it ends. -/
theorem boot_after {prev : Option SystemRecord} (hread : Record.read? "system" d = .ok prev)
    (hown : ∀ r ∈ prev, r.node = node) :
    Untouched d ((boot path node now).after d) ∨
      count prev + 1 < wordLimit ∧ Rewritten (begun node now (count prev + 1)) d ((boot path node now).after d) :=
  Action.of_after (P := fun d' => Untouched d d' ∨
      count prev + 1 < wordLimit ∧ Rewritten (begun node now (count prev + 1)) d d')
    (Action.wp_mono (wp_boot_own hread hown) (fun _ _ h => Or.inr h.2) fun _ _ h => h.2)

theorem wp_boot_powered {prev : Option SystemRecord} (hread : Record.read? "system" d = .ok prev)
    (hown : ∀ r ∈ prev, r.node = node) (hroom : count prev + 1 < wordLimit) (hfuse : d.fuse = none)
    (hwritable : Disk.Writable "system" d)
    (hfile : ∀ members, d.folder.find? "system" ≠ some (.folder members)) :
    wp (boot path node now) (fun _ _ => True) (fun _ _ => False) d := by
  have hstart : ∀ count crashed,
      wp (boot.start node now count crashed) (fun _ _ => True) (fun _ _ => False) d := by
    intro count crashed
    rw [boot.start, Action.wp_bind]
    exact Action.wp_imp (wp_save_powered _ hfuse hwritable hfile) fun _ _ _ => trivial
  rw [boot, Action.wp_bind, Action.wp_get, hread]
  cases prev with
  | none => exact hstart 1 false
  | some r =>
    have hroom' : r.bootCount + 1 < wordLimit := hroom
    dsimp only
    rw [Action.wp_ite, if_pos (hown r rfl), Action.wp_bind, Action.wp_add, if_pos hroom']
    exact hstart _ _

/-- What a node is told whose folder belongs to another one. -/
def disowned (path : String) (owner node : NodeId) : NodeError :=
  .identity ("data directory " ++ path ++ " belongs to node " ++ toString owner ++ ", not " ++ toString node)

/-- The folder of another node is left as it is. -/
theorem boot_foreign {r : SystemRecord} (hread : Record.read? "system" d = .ok (some r)) (hnode : r.node ≠ node) :
    boot path node now d = .error (.error (disowned path r.node node)) d := by
  apply Action.eq_error_of_wp
  rw [boot, Action.wp_bind, Action.wp_get, hread]
  dsimp only
  rw [Action.wp_ite, if_neg hnode, Action.wp_fail]
  exact ⟨rfl, rfl⟩

/-! ## Histories -/

/-- A call on the folder, and the disk that it found. What goes wrong during the call is part of the disk: when power is
lost, and whether the folder can be kept. -/
inductive Visit where
  | opens (node : NodeId) (now : Time.Stamp) (d : Disk)
  | stops (s : SystemStore) (d : Disk)

/-- The bytes of the record file. -/
def recordFile (d : Disk) : Option Bytes :=
  match d.folder.find? "system" with
  | some (.file content) => some content
  | _ => none

namespace Visit

def before : Visit → Disk
  | opens _ _ d => d
  | stops _ d => d

def after (path : String) : Visit → Disk
  | opens node now d => (boot path node now.text).after d
  | stops s d => s.stopped.save.after d

/-- Whether the record that the call writes reached the disk. -/
def reaches (path : String) (v : Visit) : Bool := recordFile (v.after path) ≠ recordFile v.before

/-- The node that opens the folder, if the call is an opening. -/
def opener? : Visit → Option NodeId
  | opens node _ _ => some node
  | stops _ _ => none

/-- The run on the folder after the call. -/
def tenant (path : String) (tenant : Option SystemStore) : Visit → Option SystemStore
  | opens node now d =>
    match boot path node now.text d with
    | .ok s _ => some s
    | .error _ _ => tenant
  | stops _ _ => none

/-- Other nodes may open a folder during a run on it; the one that runs may end its run. -/
def Allowed (tenant : Option SystemStore) : Visit → Prop
  | opens node _ _ => node < wordLimit ∧ ∀ s ∈ tenant, s.record.node ≠ node
  | stops s _ => tenant = some s

end Visit

/-- The calls whose records reached the disk. -/
def reaching (path : String) (past : List Visit) : List Visit := past.filter fun v => v.reaches path

/-- The nodes whose openings reached the disk. -/
def openers (path : String) (past : List Visit) : List NodeId := (reaching path past).filterMap Visit.opener?

/-- The first of them. -/
def owner? (path : String) (past : List Visit) : Option NodeId := (openers path past).head?

/-- What happened to a folder that was empty at first, the folder, and the run on it. -/
inductive History (path : String) : List Visit → Folder → Option SystemStore → Prop where
  | empty : History path [] [] none
  | visits {past tenant} (v : Visit) (h : History path past v.before.folder tenant) (hv : v.Allowed tenant) :
      History path (past ++ [v]) (v.after path).folder (v.tenant path tenant)
  | crashes {past f tenant} (h : History path past f tenant) : History path past f none

/-! ## What reaches the disk -/

section Reaching

variable {past : List Visit} {v : Visit} {r : SystemRecord} {prev : Option SystemRecord}

theorem recordFile_eq (h : d.folder.find? "system" = prev.map fun r => .file (Record.line r)) :
    recordFile d = prev.map Record.line := by
  rw [recordFile, h]
  cases prev <;> rfl

theorem Untouched.file (h : Untouched d d') : d'.folder.find? "system" = d.folder.find? "system" :=
  h.others "system" (by decide)

theorem not_reaches_of_untouched (h : Untouched v.before (v.after path)) : v.reaches path = false := by
  rw [Visit.reaches, recordFile, recordFile, Untouched.file h]
  simp

/-- A record that differs from the one before it. -/
theorem reaches_of_rewritten (hprev : v.before.folder.find? "system" = prev.map fun r => .file (Record.line r))
    (hfits : ∀ p ∈ prev, Fits p) (hr : Fits r) (hnew : ∀ p ∈ prev, p ≠ r)
    (h : Rewritten r v.before (v.after path)) : v.reaches path = true := by
  have hafter : recordFile (v.after path) = some (Record.line r) := by
    rw [recordFile, h.file]
  rw [Visit.reaches, hafter, recordFile_eq hprev, decide_eq_true_eq]
  cases prev with
  | none => rintro ⟨⟩
  | some p =>
    intro hline
    exact hnew p rfl (Record.line_injective (hfits p rfl) hr (Option.some.inj hline.symm))

theorem reaching_concat_of_reaches (h : v.reaches path = true) :
    reaching path (past ++ [v]) = reaching path past ++ [v] := by
  rw [reaching, reaching, List.filter_append, List.filter_singleton, h]
  rfl

theorem reaching_concat_of_not (h : v.reaches path = false) :
    reaching path (past ++ [v]) = reaching path past := by
  rw [reaching, reaching, List.filter_append, List.filter_singleton, h]
  exact List.append_nil _

end Reaching

namespace Visit

variable {stamp : Time.Stamp} {e : Fault NodeError}

theorem after_of_ok (h : boot path node stamp.text d = .ok s d') : (opens node stamp d).after path = d' := by
  rw [after, Action.after, h]

theorem after_of_error (h : boot path node stamp.text d = .error e d') : (opens node stamp d).after path = d' := by
  rw [after, Action.after, h]

end Visit

/-! ## What the record says -/

/-- The record on the disk is the account of what happened. -/
structure Accounts (path : String) (past : List Visit) (f : Folder) (tenant : Option SystemStore)
    (prev : Option SystemRecord) : Prop where
  file : f.find? "system" = prev.map fun r => .file (Record.line r)
  temporary : ∀ members, f.find? (Disk.temporary "system") ≠ some (.folder members)
  fits : ∀ r ∈ prev, Fits r
  counts : count prev = (openers path past).length
  names : owner? path past = prev.map SystemRecord.node
  openers_eq : ∀ node ∈ openers path past, owner? path past = some node
  tells : unclean prev = ((reaching path past).getLast?.bind Visit.opener?).isSome
  running : ∀ s ∈ tenant, prev = some s.record ∧ s.record.lifecycle = .running

namespace Accounts

variable {past : List Visit} {f : Folder} {tenant : Option SystemStore} {prev : Option SystemRecord}
  {stamp : Time.Stamp} {v : Visit}

theorem empty (path : String) : Accounts path [] [] none none where
  file := rfl
  temporary _ := by rintro ⟨⟩
  fits _ := by rintro ⟨⟩
  counts := rfl
  names := rfl
  openers_eq _ h := absurd h List.not_mem_nil
  tells := rfl
  running _ := by rintro ⟨⟩

theorem crashed (h : Accounts path past f tenant prev) : Accounts path past f none prev :=
  { h with running := fun _ hs => by cases hs }

theorem read (h : Accounts path past d.folder tenant prev) : Record.read? "system" d = .ok prev := by
  cases prev with
  | none => exact Record.read?_missing h.file
  | some r => exact Record.read?_line (h.fits r rfl) h.file

theorem not_folder (h : Accounts path past f tenant prev) (members : Folder) :
    f.find? "system" ≠ some (.folder members) := by
  rw [h.file]
  cases prev <;> rintro ⟨⟩

theorem not_folder_of_spares (h : Accounts path past d.folder tenant prev) {names : List String}
    (hspares : Disk.Spares names d d') (members : Folder) :
    d'.folder.find? (Disk.temporary "system") ≠ some (.folder members) :=
  fun hfolder => h.temporary members (hspares.folders _ _ hfolder)

/-- A call that left no record. -/
theorem untouched (h : Accounts path past v.before.folder tenant prev) (hd : Untouched v.before (v.after path)) :
    Accounts path (past ++ [v]) (v.after path).folder tenant prev := by
  have hreaching : reaching path (past ++ [v]) = reaching path past :=
    reaching_concat_of_not (not_reaches_of_untouched hd)
  exact {
    h with
    file := (Untouched.file hd).trans h.file
    temporary := h.not_folder_of_spares hd
    counts := by rw [openers, hreaching]; exact h.counts
    names := by rw [owner?, openers, hreaching]; exact h.names
    openers_eq := by rw [owner?, openers, hreaching]; exact h.openers_eq
    tells := by rw [hreaching]; exact h.tells }

theorem reached (h : Accounts path past v.before.folder tenant prev) {r : SystemRecord} (hr : Fits r)
    (hnew : ∀ p ∈ prev, p ≠ r) (hd : Rewritten r v.before (v.after path)) :
    v.reaches path = true ∧ reaching path (past ++ [v]) = reaching path past ++ [v] := by
  have hreaches := reaches_of_rewritten h.file h.fits hr hnew hd
  exact ⟨hreaches, reaching_concat_of_reaches hreaches⟩

/-- An opening that left its record. -/
theorem opened (h : Accounts path past d.folder tenant prev) (hnode : node < wordLimit)
    (hown : ∀ r ∈ prev, r.node = node) (hroom : count prev + 1 < wordLimit)
    (hd : Rewritten (begun node stamp.text (count prev + 1)) d ((Visit.opens node stamp d).after path))
    {next : Option SystemStore} (hnext : ∀ s ∈ next, s.record = begun node stamp.text (count prev + 1)) :
    (Visit.opens node stamp d).reaches path = true ∧
      Accounts path (past ++ [.opens node stamp d]) ((Visit.opens node stamp d).after path).folder next
        (some (begun node stamp.text (count prev + 1))) := by
  have hfits : Fits (begun node stamp.text (count prev + 1)) := ⟨hnode, hroom, stamp, rfl⟩
  have hnew : ∀ p ∈ prev, p ≠ begun node stamp.text (count prev + 1) := by
    rintro p rfl heq
    exact absurd (congrArg SystemRecord.bootCount heq) (Nat.ne_of_lt (Nat.lt_succ_self p.bootCount))
  obtain ⟨hreaches, hreaching⟩ := h.reached (v := .opens node stamp d) hfits hnew hd
  have hopeners : openers path (past ++ [.opens node stamp d]) = openers path past ++ [node] := by
    rw [openers, hreaching, List.filterMap_append]
    rfl
  have howner : owner? path (past ++ [.opens node stamp d]) = some node := by
    have hpast : (openers path past).head? = prev.map SystemRecord.node := h.names
    rw [owner?, hopeners, List.head?_append, hpast]
    cases prev with
    | none => rfl
    | some r => exact congrArg some (hown r rfl)
  refine ⟨hreaches, ?_⟩
  exact {
    file := hd.file
    temporary := h.not_folder_of_spares hd.spares
    fits := by
      rintro r ⟨⟩
      exact hfits
    counts := by
      rw [hopeners, List.length_append, ← h.counts]
      rfl
    names := howner
    openers_eq := by
      intro n hn
      rw [howner]
      rw [hopeners, List.mem_append, List.mem_singleton] at hn
      rcases hn with hn | rfl
      · have hname := h.openers_eq n hn
        rw [h.names, Option.map_eq_some_iff] at hname
        obtain ⟨r, hr, rfl⟩ := hname
        rw [hown r hr]
      · rfl
    tells := by
      rw [hreaching, List.getLast?_concat]
      rfl
    running := fun s hs => by rw [hnext s hs]; exact ⟨rfl, rfl⟩ }

/-- The end of a run that left its record. -/
theorem stopped (h : Accounts path past d.folder (some s) prev)
    (hd : Rewritten s.stopped.record d ((Visit.stops s d).after path)) :
    (Visit.stops s d).reaches path = true ∧
      Accounts path (past ++ [.stops s d]) ((Visit.stops s d).after path).folder none
        (some s.stopped.record) := by
  obtain ⟨rfl, hrunning⟩ := h.running s rfl
  have hfits : Fits s.stopped.record := h.fits s.record rfl
  have hnew : ∀ p ∈ some s.record, p ≠ s.stopped.record := by
    rintro p ⟨⟩ heq
    have hlifecycle : s.record.lifecycle = .stopped := congrArg SystemRecord.lifecycle heq
    rw [hrunning] at hlifecycle
    cases hlifecycle
  obtain ⟨hreaches, hreaching⟩ := h.reached (v := .stops s d) hfits hnew hd
  have hopeners : openers path (past ++ [.stops s d]) = openers path past := by
    rw [openers, hreaching, List.filterMap_append]
    exact List.append_nil _
  refine ⟨hreaches, ?_⟩
  exact {
    file := hd.file
    temporary := h.not_folder_of_spares hd.spares
    fits := by
      rintro r ⟨⟩
      exact hfits
    counts := by rw [hopeners]; exact h.counts
    names := by rw [owner?, hopeners]; exact h.names
    openers_eq := by rw [owner?, hopeners]; exact h.openers_eq
    tells := by
      rw [hreaching, List.getLast?_concat]
      rfl
    running := fun _ hs => by cases hs }

end Accounts

theorem Accounts.own_or_refused {past : List Visit} {tenant : Option SystemStore} {prev : Option SystemRecord}
    (h : Accounts path past d.folder tenant prev) (node : NodeId) (now : String) :
    (∀ r ∈ prev, r.node = node) ∨
      ∃ owner, boot path node now d = .error (.error (disowned path owner node)) d := by
  cases prev with
  | none => exact Or.inl fun _ hr => by cases hr
  | some r =>
    by_cases hnode : r.node = node
    · left
      rintro _ ⟨⟩
      exact hnode
    · exact Or.inr ⟨r.node, boot_foreign h.read hnode⟩

theorem Accounts.opens {past : List Visit} {tenant : Option SystemStore} {prev : Option SystemRecord}
    {stamp : Time.Stamp} (h : Accounts path past d.folder tenant prev) (hnode : node < wordLimit)
    (hfree : ∀ s ∈ tenant, s.record.node ≠ node) :
    ∃ prev, Accounts path (past ++ [.opens node stamp d]) ((Visit.opens node stamp d).after path).folder
      ((Visit.opens node stamp d).tenant path tenant) prev := by
  rcases h.own_or_refused node stamp.text with hown | ⟨owner, hboot⟩
  · cases hboot : boot path node stamp.text d with
    | ok s d' =>
      obtain ⟨rfl, hroom, hd⟩ := Action.wp_ok (wp_boot_own h.read hown) hboot
      rw [Visit.tenant, hboot]
      rw [← Visit.after_of_ok hboot] at hd
      refine ⟨_, (h.opened hnode hown hroom hd ?_).2⟩
      rintro s ⟨⟩
      rfl
    | error e d' =>
      obtain ⟨-, hd⟩ := Action.wp_error (wp_boot_own h.read hown) hboot
      rw [Visit.tenant, hboot]
      rw [← Visit.after_of_error hboot] at hd
      rcases hd with hd | ⟨hroom, hd⟩
      · exact ⟨prev, h.untouched hd⟩
      · refine ⟨_, (h.opened hnode hown hroom hd fun s hs => ?_).2⟩
        -- the node whose run it is does not open the folder
        exact absurd (hown s.record (h.running s hs).1) (hfree s hs)
  · have hd : Untouched d ((Visit.opens node stamp d).after path) := by
      rw [Visit.after_of_error hboot]
      exact .refl _ d
    rw [Visit.tenant, hboot]
    exact ⟨_, h.untouched hd⟩

theorem Accounts.stops {past : List Visit} {prev : Option SystemRecord}
    (h : Accounts path past d.folder (some s) prev) :
    ∃ prev, Accounts path (past ++ [.stops s d]) ((Visit.stops s d).after path).folder none prev := by
  rcases save_after s.stopped d with hd | hd
  · exact ⟨prev, (h.untouched (v := .stops s d) hd).crashed⟩
  · exact ⟨_, (h.stopped hd).2⟩

theorem History.accounts {past : List Visit} {f : Folder} {tenant : Option SystemStore}
    (h : History path past f tenant) : ∃ prev, Accounts path past f tenant prev := by
  induction h with
  | empty => exact ⟨none, .empty path⟩
  | visits v _ hv ih =>
    obtain ⟨prev, ih⟩ := ih
    cases v with
    | opens node now d => exact ih.opens hv.1 hv.2
    | stops s d =>
      obtain rfl := hv
      exact ih.stops
  | crashes _ ih =>
    obtain ⟨prev, ih⟩ := ih
    exact ⟨prev, ih.crashed⟩

/-! ## The next call -/

/-- What happens when a node opens the folder after all that. -/
structure Opening (path : String) (past : List Visit) (node : NodeId) (now : Time.Stamp) (d : Disk) : Prop where
  /-- The folder of another node is refused, and left as it is. -/
  foreign : ∀ owner ∈ owner? path past, owner ≠ node →
    boot path node now.text d = .error (.error (disowned path owner node)) d
  own : (∀ owner ∈ owner? path past, owner = node) →
    ∀ text d', boot path node now.text d ≠ .error (.error (.identity text)) d'
  /-- The owner opens its folder unless power is lost, the folder cannot be kept, or the count is at its end. -/
  powered : (∀ owner ∈ owner? path past, owner = node) → (openers path past).length + 1 < wordLimit →
    d.fuse = none → d.syncFault = none → ∃ s d', boot path node now.text d = .ok s d'
  /-- The openings whose records reach the disk are counted from one on. -/
  reached : (Visit.opens node now d).reaches path = true →
    recordFile ((Visit.opens node now d).after path) =
      some (Record.line (begun node now.text ((openers path past).length + 1)))
  /-- A crash is reported if the last record to reach the disk was that of an opening. -/
  opened : ∀ s d', boot path node now.text d = .ok s d' →
    (Visit.opens node now d).reaches path = true ∧
      s.record = begun node now.text ((openers path past).length + 1) ∧
      (s.crashed = true ↔ ∃ v ∈ (reaching path past).getLast?, ∃ node, v.opener? = some node)

/-- What happens when a run on the folder ends with the record of a clean end. -/
structure Ending (path : String) (s : SystemStore) (d : Disk) : Prop where
  reached : (Visit.stops s d).reaches path = true →
    recordFile ((Visit.stops s d).after path) = some (Record.line s.stopped.record)
  stopped : ∀ d', s.stopped.save d = .ok () d' → (Visit.stops s d).reaches path = true
  powered : d.fuse = none → d.syncFault = none → ∃ d', s.stopped.save d = .ok () d'

section Next

variable {past : List Visit} {tenant : Option SystemStore} {prev : Option SystemRecord} {stamp : Time.Stamp}

theorem Accounts.opening (h : Accounts path past d.folder tenant prev) (hnode : node < wordLimit) :
    Opening path past node stamp d := by
  have hown : (∀ owner ∈ owner? path past, owner = node) → ∀ r ∈ prev, r.node = node := by
    intro hown r hr
    refine hown r.node ?_
    rw [h.names, hr]
    rfl
  exact {
    foreign := by
      intro owner howner hforeign
      rw [h.names] at howner
      obtain ⟨r, rfl, rfl⟩ := Option.map_eq_some_iff.mp howner
      exact boot_foreign h.read hforeign
    own := by
      intro hown' text d' hboot
      exact (Action.wp_error (wp_boot_own h.read (hown hown')) hboot).1 text rfl
    powered := by
      intro hown' hroom hfuse hsync
      rw [← h.counts] at hroom
      obtain ⟨s, d', hboot, -⟩ := Action.wp_exists (wp_boot_powered h.read (hown hown') hroom hfuse
        ⟨hsync, h.temporary⟩ h.not_folder)
      exact ⟨s, d', hboot⟩
    reached := by
      intro hreaches
      rcases h.own_or_refused node stamp.text with hown | ⟨owner, hboot⟩
      · rcases boot_after h.read hown with hd | ⟨-, hd⟩
        · rw [not_reaches_of_untouched (v := .opens node stamp d) hd] at hreaches
          cases hreaches
        · rw [← h.counts, recordFile, Visit.after, hd.file]
      · rw [Visit.reaches, Visit.after_of_error hboot, Visit.before, decide_eq_true_eq] at hreaches
        exact absurd rfl hreaches
    opened := by
      intro s d' hboot
      rcases h.own_or_refused node stamp.text with hown | ⟨owner, hrefused⟩
      · obtain ⟨rfl, hroom, hd⟩ := Action.wp_ok (wp_boot_own h.read hown) hboot
        rw [← Visit.after_of_ok hboot] at hd
        have hnone : ∀ s ∈ (none : Option SystemStore), s.record = begun node stamp.text (count prev + 1) := by
          rintro _ ⟨⟩
        refine ⟨(h.opened hnode hown hroom hd hnone).1, ?_, ?_⟩
        · rw [h.counts]
        · rw [h.tells, Option.isSome_iff_exists]
          simp only [Option.bind_eq_some_iff, Option.mem_def]
          constructor
          · rintro ⟨n, v, hv, hn⟩
            exact ⟨v, hv, n, hn⟩
          · rintro ⟨v, hv, n, hn⟩
            exact ⟨n, v, hv, hn⟩
      · rw [hrefused] at hboot
        cases hboot }

theorem Accounts.ending (h : Accounts path past d.folder (some s) prev) : Ending path s d where
  reached := by
    intro hreaches
    rcases save_after s.stopped d with hd | hd
    · rw [not_reaches_of_untouched (v := .stops s d) hd] at hreaches
      cases hreaches
    · rw [recordFile, Visit.after, hd.file]
  stopped := by
    intro d' hsave
    have hafter : (Visit.stops s d).after path = d' := by
      rw [Visit.after, Action.after, hsave]
    have hd := Action.wp_ok (wp_save s.stopped d) hsave
    rw [← hafter] at hd
    exact (h.stopped hd).1
  powered := by
    intro hfuse hsync
    obtain ⟨_, d', hsave, -⟩ := Action.wp_exists (wp_save_powered s.stopped hfuse ⟨hsync, h.temporary⟩ h.not_folder)
    exact ⟨d', hsave⟩

end Next

/-- Whatever happened to a folder, it belongs to one node from its first record on, every other node is refused, the
openings are counted, and the next one is told whether the run before it ended. -/
theorem History.owned_and_counted {past : List Visit} {tenant : Option SystemStore}
    (h : History path past d.folder tenant) :
    (∀ node ∈ openers path past, owner? path past = some node) ∧
    (∀ owner ∈ owner? path past, ∃ r : SystemRecord, recordFile d = some (Record.line r) ∧ r.node = owner) ∧
    (∀ node now, node < wordLimit → Opening path past node now d) ∧
    ∀ s ∈ tenant, Ending path s d := by
  obtain ⟨prev, h⟩ := h.accounts
  refine ⟨h.openers_eq, fun owner howner => ?_, fun node now hnode => h.opening hnode, fun s hs => ?_⟩
  · rw [h.names] at howner
    obtain ⟨r, rfl, hr⟩ := Option.map_eq_some_iff.mp howner
    exact ⟨r, recordFile_eq h.file, hr⟩
  · obtain rfl : tenant = some s := hs
    exact h.ending

/-- Node 3 loses power while it writes its record. -/
def tornVisit : Visit := .opens 3 leapSecond { fuse := some 40 }

/-- Then node 2 opens the folder. -/
def wholeVisit : Visit := .opens 2 leapSecond { folder := (tornVisit.after "d").folder }

/-- Node 2 crashes. Its folder is refused to node 3, though that was the first to open it, and the second opening of
node 2 reports the crash. -/
theorem owned_and_counted_torn :
    let d : Disk := { folder := (wholeVisit.after "d").folder }
    History "d" [tornVisit, wholeVisit] d.folder none ∧
    boot "d" 3 leapSecond.text d =
      .error (.error (.identity "data directory d belongs to node 2, not 3")) d ∧
    ∃ s d', boot "d" 2 leapSecond.text d = .ok s d' ∧ s.record.bootCount = 2 ∧ s.crashed = true := by
  intro d
  have torn : History "d" [tornVisit] (tornVisit.after "d").folder (tornVisit.tenant "d" none) :=
    .visits tornVisit .empty ⟨by decide, by decide⟩
  have whole := History.visits wholeVisit torn ⟨by decide, by decide +kernel⟩
  have hreaching : reaching "d" [tornVisit, wholeVisit] = [wholeVisit] := by
    have htorn : tornVisit.reaches "d" = false := by decide +kernel
    have hwhole : wholeVisit.reaches "d" = true := by decide +kernel
    simp [reaching, htorn, hwhole]
  have hopeners : openers "d" [tornVisit, wholeVisit] = [2] := by
    rw [openers, hreaching]
    rfl
  have howner : owner? "d" [tornVisit, wholeVisit] = some 2 := by
    rw [owner?, hopeners]
    rfl
  have history : History "d" [tornVisit, wholeVisit] d.folder none := whole.crashes
  obtain ⟨-, -, hopening, -⟩ := history.owned_and_counted
  refine ⟨history, (hopening 3 leapSecond (by decide)).foreign 2 howner (by decide), ?_⟩
  have hown : ∀ owner ∈ owner? "d" [tornVisit, wholeVisit], owner = 2 := by
    rw [howner]
    rintro _ ⟨⟩
    rfl
  have hopening := hopening 2 leapSecond (by decide)
  obtain ⟨s, d', hboot⟩ := hopening.powered hown (by rw [hopeners]; decide) rfl rfl
  obtain ⟨-, hrecord, hcrashed⟩ := hopening.opened s d' hboot
  refine ⟨s, d', hboot, ?_, hcrashed.mpr ⟨wholeVisit, ?_, 2, rfl⟩⟩
  · rw [hrecord, hopeners]
    rfl
  · rw [hreaching]
    rfl

end SystemStore

end RaftNode
