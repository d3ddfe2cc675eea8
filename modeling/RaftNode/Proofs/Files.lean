import RaftNode.Proofs.Records
import RaftNode.Proofs.Action
/-!
# Replacing files

A file is replaced through a temporary one, so power loss leaves either the old content or the new, and no other
file is touched.
-/
namespace RaftNode

open RaftNode.Action (wp)

/-! ## Folders -/

namespace Folder

variable {f : Folder} {name other : String} {node : FileNode}

@[simp] theorem find?_put_self (f : Folder) (name : String) (node : FileNode) :
    (f.put name node).find? name = some node := by
  induction f with
  | nil => simp [put, find?]
  | cons m f ih =>
    obtain ⟨n, old⟩ := m
    unfold put
    split
    · subst_vars
      simp [find?]
    · rename_i hne
      simpa [find?, List.lookup_cons, beq_false_of_ne (Ne.symm hne)] using ih

theorem find?_put_of_ne (h : other ≠ name) : (f.put name node).find? other = f.find? other := by
  induction f with
  | nil => simp [put, find?, h]
  | cons m f ih =>
    obtain ⟨n, old⟩ := m
    unfold put
    split
    · subst_vars
      simp [find?, List.lookup_cons, beq_false_of_ne h]
    · by_cases hn : other = n
      · subst hn
        simp [find?]
      · simpa [find?, List.lookup_cons, beq_false_of_ne hn] using ih

theorem find?_erase_self (f : Folder) (name : String) : (f.erase name).find? name = none := by
  induction f with
  | nil => rfl
  | cons m f ih =>
    obtain ⟨n, old⟩ := m
    simp only [erase, find?] at ih ⊢
    by_cases hn : n = name
    · rw [List.filter_cons_of_neg (by simpa using hn), ih]
    · rw [List.filter_cons_of_pos (by simpa using hn), List.lookup_cons,
        beq_false_of_ne (Ne.symm hn), ih]

theorem find?_erase_of_ne (h : other ≠ name) : (f.erase name).find? other = f.find? other := by
  induction f with
  | nil => rfl
  | cons m f ih =>
    obtain ⟨n, old⟩ := m
    simp only [erase, find?] at ih ⊢
    by_cases hn : n = name
    · subst hn
      rw [List.filter_cons_of_neg (by simp), ih, List.lookup_cons, beq_false_of_ne h]
    · rw [List.filter_cons_of_pos (by simpa using hn), List.lookup_cons, List.lookup_cons, ih]

end Folder

/-! ## One step -/

namespace Disk

variable {d d' d'' : Disk} {name : String} {content bytes : Bytes}

/-- Nothing changes but what has these names, and no folder is made. -/
structure Spares (names : List String) (d d' : Disk) : Prop where
  others : ∀ name ∉ names, d'.folder.find? name = d.folder.find? name
  folders : ∀ name members, d'.folder.find? name = some (.folder members) →
    d.folder.find? name = some (.folder members)
  sync : d'.syncFault = d.syncFault

theorem Spares.of_folder (names : List String) (hfolder : d'.folder = d.folder)
    (hsync : d'.syncFault = d.syncFault) : Spares names d d' where
  others name _ := by rw [hfolder]
  folders name members h := by rwa [← hfolder]
  sync := hsync

theorem Spares.refl (names : List String) (d : Disk) : Spares names d d := .of_folder names rfl rfl

theorem Spares.trans {names : List String} (h : Spares names d d') (h' : Spares names d' d'') :
    Spares names d d'' where
  others name hname := (h'.others name hname).trans (h.others name hname)
  folders name members hfolder := h.folders name members (h'.folders name members hfolder)
  sync := h'.sync.trans h.sync

theorem Spares.mono {names more : List String} (h : Spares names d d') (hsub : names ⊆ more) :
    Spares more d d' where
  others name hname := h.others name fun hmem => hname (hsub hmem)
  folders := h.folders
  sync := h.sync

theorem Spares.put (hfolder : d'.folder = d.folder.put name (.file content))
    (hsync : d'.syncFault = d.syncFault) : Spares [name] d d' where
  others other hother := by
    rw [hfolder, Folder.find?_put_of_ne (by simpa using hother)]
  folders other members h := by
    by_cases hname : other = name
    · rw [hfolder, hname, Folder.find?_put_self] at h
      cases h
    · rwa [hfolder, Folder.find?_put_of_ne hname] at h
  sync := hsync

theorem readText?_none (h : d.readText? name = .ok none) : d.folder.find? name = none := by
  unfold readText? read? at h
  split at h
  · assumption
  · simp only [bind, Except.bind] at h
    split at h <;> cases h
  · cases h

theorem readText?_some (h : d.readText? name = .ok (some content)) :
    d.folder.find? name = some (.file content) ∧ (Utf8.decode? content).isSome = true := by
  unfold readText? read? at h
  split at h
  · cases h
  · simp only [bind, Except.bind] at h
    split at h
    · cases h
      exact ⟨‹_›, ‹_›⟩
    · cases h
  · cases h

theorem wp_burn (n : Nat) (d : Disk) :
    wp (burn n) (fun _ d' => ∃ k, d' = { d with fuse := k }) (fun _ _ => False) d := by
  obtain ⟨folder, fuse, syncFault⟩ := d
  cases fuse with
  | none => exact ⟨none, rfl⟩
  | some left => exact ⟨some (left - n), rfl⟩

theorem wp_step (change : Folder → Folder) (d : Disk) :
    wp (step change) (fun _ d' => ∃ k, d' = { d with folder := change d.folder, fuse := k })
      (fun _ d' => ∃ k, d' = { d with fuse := k }) d := by
  rw [step, Action.wp_bind]
  refine Action.wp_mono (wp_burn 1 d) ?_ fun _ _ => False.elim
  rintro _ _ ⟨k, rfl⟩
  rw [Action.wp_ite]
  split
  · exact ⟨k, rfl⟩
  · exact ⟨k, rfl⟩

theorem wp_create (name : String) (d : Disk) :
    wp (create name)
      (fun _ d' => (∀ members, d.folder.find? name ≠ some (.folder members)) ∧
        ∃ k, d' = { d with folder := d.folder.put name (.file []), fuse := k })
      (fun _ d' => ∃ k, d' = { d with fuse := k }) d := by
  rw [create, Action.wp_bind, Action.wp_get]
  split
  · exact ⟨d.fuse, rfl⟩
  · rename_i hfile
    exact Action.wp_imp (wp_step _ d) fun _ _ hd => ⟨hfile, hd⟩

theorem wp_extend (hfile : d.folder.find? name = some (.file content)) (bytes : Bytes) :
    wp (extend name bytes)
      (fun _ d' => ∃ k, d' =
        { d with folder := d.folder.put name (.file (content ++ bytes)), fuse := k })
      (fun _ d' => Spares [name] d d') d := by
  rw [extend, Action.wp_bind]
  refine Action.wp_mono (wp_burn bytes.length d) ?_ fun _ _ => False.elim
  rintro n _ ⟨k, rfl⟩
  rw [Action.wp_bind, Action.wp_modify, Action.wp_ite]
  dsimp only
  rw [hfile]
  split
  · rename_i hn
    rw [Action.wp_pure, hn, List.take_length]
    exact ⟨k, rfl⟩
  · exact .put rfl rfl

theorem wp_rename {source target : String}
    (hfile : d.folder.find? source = some (.file content)) :
    wp (rename source target)
      (fun _ d' => Spares [target, source] d d' ∧ d'.folder.find? target = some (.file content))
      (fun _ d' => ∃ k, d' = { d with fuse := k }) d := by
  rw [rename, Action.wp_bind, Action.wp_get]
  dsimp only
  rw [hfile]
  split
  · exact ⟨d.fuse, rfl⟩
  · rename_i hnode _
    cases hnode
    refine Action.wp_imp (wp_step _ d) ?_
    rintro - _ ⟨k, rfl⟩
    refine ⟨⟨fun other hother => ?_, fun other members h => ?_, rfl⟩, Folder.find?_put_self _ _ _⟩
    · simp only [List.mem_cons, List.not_mem_nil, or_false, not_or] at hother
      rw [Folder.find?_put_of_ne hother.1, Folder.find?_erase_of_ne hother.2]
    · by_cases htarget : other = target
      · rw [htarget, Folder.find?_put_self] at h
        cases h
      · rw [Folder.find?_put_of_ne htarget] at h
        by_cases hsource : other = source
        · rw [hsource, Folder.find?_erase_self] at h
          cases h
        · rwa [Folder.find?_erase_of_ne hsource] at h
  · rename_i hnode
    cases hnode

theorem wp_sync (d : Disk) :
    wp sync (fun _ d' => d' = d ∧ d.syncFault = none) (fun _ d' => d' = d) d := by
  rw [sync, Action.wp_bind, Action.wp_get]
  split
  · rfl
  · exact ⟨rfl, ‹_›⟩

/-! ## Replacing a file -/

/-- The file has its new content, and all others but the temporary one are what they were. -/
structure Replaced (name : String) (content : Bytes) (d d' : Disk) : Prop where
  spares : Spares [name, temporary name] d d'
  file : d'.folder.find? name = some (.file content)

/-- Nothing but power loss is in the way of replacing the file. -/
structure Writable (name : String) (d : Disk) : Prop where
  sync : d.syncFault = none
  free : ∀ members, d.folder.find? (temporary name) ≠ some (.folder members)

theorem Writable.spares {names : List String} (h : Writable name d) (hs : Spares names d d') :
    Writable name d' where
  sync := hs.sync.trans h.sync
  free members hfolder := h.free members (hs.folders _ members hfolder)

theorem wp_replace (name : String) (content : Bytes) (d : Disk) :
    wp (replace name content) (fun _ d' => Replaced name content d d' ∧ Writable name d)
      (fun _ d' => Spares [temporary name] d d' ∨ Replaced name content d d') d := by
  rw [replace, Action.wp_bind]
  refine Action.wp_mono (wp_create (temporary name) d) ?_ ?_
  · rintro _ d₁ ⟨hfree, k₁, hd₁⟩
    have hspares₁ : Spares [temporary name] d d₁ := by
      rw [hd₁]
      exact .put rfl rfl
    have hfile₁ : d₁.folder.find? (temporary name) = some (.file []) := by
      rw [hd₁, Folder.find?_put_self]
    rw [Action.wp_bind]
    refine Action.wp_mono (wp_extend hfile₁ content) ?_ fun _ _ h => Or.inl (hspares₁.trans h)
    rintro _ d₂ ⟨k₂, hd₂⟩
    have hspares₂ : Spares [temporary name] d d₂ := by
      rw [hd₂]
      exact hspares₁.trans (.put rfl rfl)
    have hfile₂ : d₂.folder.find? (temporary name) = some (.file content) := by
      rw [hd₂, Folder.find?_put_self, List.nil_append]
    rw [Action.wp_bind]
    refine Action.wp_mono (wp_rename hfile₂) ?_ ?_
    · rintro _ d₃ ⟨hspares₃, hfile₃⟩
      have hreplaced : Replaced name content d d₃ :=
        ⟨(hspares₂.mono (by simp)).trans hspares₃, hfile₃⟩
      refine Action.wp_mono (wp_sync d₃) ?_ ?_
      · rintro _ _ ⟨rfl, hsync⟩
        exact ⟨hreplaced, hreplaced.spares.sync.symm.trans hsync, hfree⟩
      · rintro _ _ rfl
        exact Or.inr hreplaced
    · rintro _ d₃ ⟨k₃, hd₃⟩
      rw [hd₃]
      exact Or.inl (hspares₂.trans (.of_folder _ rfl rfl))
  · rintro _ d₁ ⟨k₁, hd₁⟩
    rw [hd₁]
    exact Or.inl (.of_folder _ rfl rfl)

/-! ## With power for so much -/

/-- Power lasts for these steps, and then as long as `k` says. -/
def lasting (n : Nat) (k : Option Nat) : Option Nat := k.map fun k => n + k

theorem burn_lasting {n : Nat} {k : Option Nat} (h : d.fuse = lasting n k) :
    burn n d = .ok n { d with fuse := k } := by
  obtain ⟨folder, fuse, syncFault⟩ := d
  obtain rfl : fuse = lasting n k := h
  cases k with
  | none => rfl
  | some k =>
    change EStateM.Result.ok (min n (n + k)) (Disk.mk folder (some (n + k - n)) syncFault) = _
    rw [Nat.min_eq_left (Nat.le_add_right n k), Nat.add_sub_cancel_left]

theorem wp_step_lasting {k : Option Nat} (change : Folder → Folder) (h : d.fuse = lasting 1 k) :
    wp (step change) (fun _ d' => d' = { d with folder := change d.folder, fuse := k })
      (fun _ _ => False) d := by
  rw [step, Action.wp_bind, wp, burn_lasting h]
  rfl

/-- A file is replaced if power lasts for all its bytes and for two steps more. -/
theorem Writable.wp_replace {k : Option Nat} (h : Writable name d)
    (hfuse : d.fuse = lasting 1 (lasting content.length (lasting 1 k)))
    (hfile : ∀ members, d.folder.find? name ≠ some (.folder members)) :
    wp (replace name content) (fun _ d' => Replaced name content d d' ∧ d'.fuse = k)
      (fun _ _ => False) d := by
  have hname : name ≠ temporary name := by
    intro h
    have hlength : name.length = (name ++ ".tmp").length := congrArg String.length h
    rw [String.length_append] at hlength
    exact absurd hlength (by simp)
  have hlasts : wp (replace name content) (fun _ d' => d'.fuse = k) (fun _ _ => False) d := by
    rw [replace, create, Action.wp_bind, Action.wp_bind, Action.wp_get]
    split
    · rename_i hfolder
      exact (h.free _ hfolder).elim
    refine Action.wp_mono (wp_step_lasting _ hfuse) ?_ fun _ _ => False.elim
    rintro _ _ rfl
    rw [Action.wp_bind, extend, Action.wp_bind, wp, burn_lasting rfl]
    dsimp only
    rw [Action.wp_bind, Action.wp_modify, Action.wp_ite, if_pos rfl, Action.wp_pure]
    dsimp only
    rw [Folder.find?_put_self]
    dsimp only
    rw [Action.wp_bind, rename, Action.wp_bind, Action.wp_get]
    dsimp only
    rw [Folder.find?_put_self, Folder.find?_put_of_ne hname, Folder.find?_put_of_ne hname]
    split
    · rename_i hnode
      exact (hfile _ hnode).elim
    · refine Action.wp_mono (wp_step_lasting _ rfl) ?_ fun _ _ => False.elim
      rintro _ _ rfl
      rw [Disk.sync, Action.wp_bind, Action.wp_get]
      dsimp only
      rw [h.sync]
      rfl
    · rename_i hnone
      cases hnone
  exact Action.wp_mono (Action.wp_and (Disk.wp_replace name content d) hlasts)
    (fun _ _ h => ⟨h.1.1, h.2⟩) fun _ _ h => h.2

/-- A file is not touched when there is no power left. -/
theorem wp_replace_lost (hfuse : d.fuse = some 0) :
    wp (replace name content) (fun _ _ => False) (fun _ d' => Spares [] d d') d := by
  rw [replace, create, Action.wp_bind, Action.wp_bind, Action.wp_get]
  split
  · exact .refl [] d
  · rw [step, Action.wp_bind, wp, burn, hfuse]
    exact .of_folder [] rfl rfl

/-- What there is power for is added to a file as a whole. -/
theorem wp_extend_powered (hfuse : d.fuse = none)
    (hfile : d.folder.find? name = some (.file content)) (bytes : Bytes) :
    wp (extend name bytes)
      (fun _ d' => d' = { d with folder := d.folder.put name (.file (content ++ bytes)) })
      (fun _ _ => False) d := by
  rw [extend, Action.wp_bind, wp, burn_lasting (k := none) hfuse]
  dsimp only
  rw [Action.wp_bind, Action.wp_modify, Action.wp_ite, if_pos rfl, Action.wp_pure, hfile,
    List.take_length, hfuse]

end Disk

end RaftNode
