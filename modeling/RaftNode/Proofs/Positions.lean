import Mathlib
import RaftNode.Machine.Journal
import RaftNode.Proofs.Handlers
import RaftNode.Proofs.Protocol
/-!
# Positions

Snapshot, applied, committed, last: the order of these positions in the log of a node, and how far they can be relied
on to grow. An append is refused if it would take a committed entry away. An install is not: one that ends before what
is committed, with a term that the log does not have there, takes away what is committed and not applied.
-/
namespace RaftNode

open RaftNode.Action (wp)

/-- The entries of a batch follow each other. -/
def Request.Consecutive : Request → Prop
  | .append q => NumberedFrom q.prevIndex q.entries
  | .vote _ | .install _ => True

namespace Log

variable {σ : Type} {l l' l'' : Log σ} {batch : List Entry} {snap : Snapshot} {e : Entry}
  {i : Index}

/-- The order of the positions. -/
structure InOrder (l : Log σ) : Prop where
  compacted : l.snapshotIndex ≤ l.lastApplied
  applied : l.lastApplied ≤ l.commitIndex
  committed : l.commitIndex ≤ l.lastIndex

/-- No position goes back, and what is committed stays: behind the snapshot as the entry it was, and at its end with
the same term. -/
structure Advances (l l' : Log σ) : Prop where
  snapshot : l.snapshotIndex ≤ l'.snapshotIndex
  applied : l.lastApplied ≤ l'.lastApplied
  commit : l.commitIndex ≤ l'.commitIndex
  entries : ∀ i, l'.snapshotIndex < i → i ≤ l.commitIndex → l'.entry? i = l.entry? i
  covered : l'.snapshotIndex ≤ l.commitIndex →
    l.termAt? l'.snapshotIndex = some l'.snapshotTerm

/-- A snapshot that ends where the log has a committed entry of another term, not applied yet. -/
structure Contradicts (l : Log σ) (snap : Snapshot) : Prop where
  ahead : l.lastApplied < snap.index
  committed : snap.index ≤ l.commitIndex
  differs : l.termAt? snap.index ≠ some snap.term

theorem Advances.refl (l : Log σ) : Advances l l :=
  ⟨le_rfl, le_rfl, le_rfl, fun _ _ _ => rfl, fun _ => l.termAt?_snapshot⟩

theorem Advances.termAt? (h : Advances l l') (hlow : l'.snapshotIndex ≤ i)
    (hi : i ≤ l.commitIndex) : l'.termAt? i = l.termAt? i := by
  rcases hlow.eq_or_lt with rfl | hlt
  · rw [l'.termAt?_snapshot, h.covered hi]
  · rw [termAt?_of_lt hlt, termAt?_of_lt (h.snapshot.trans_lt hlt), h.entries i hlt hi]

theorem Advances.trans (h : Advances l l') (h' : Advances l' l'') : Advances l l'' where
  snapshot := h.snapshot.trans h'.snapshot
  applied := h.applied.trans h'.applied
  commit := h.commit.trans h'.commit
  entries i hlow hi :=
    (h'.entries i hlow (hi.trans h.commit)).trans (h.entries i (h'.snapshot.trans_lt hlow) hi)
  covered hle := by
    rw [← h'.covered (hle.trans h.commit), h.termAt? h'.snapshot hle]

/-! ## One operation -/

theorem Tidy.inOrder (h : Tidy l) (hb : Bounded l) : InOrder l := ⟨h.compacted, h.applied, hb⟩

/-- Entries that are the same up to what is committed. -/
theorem Carries.advances (h : Carries l l') {k : Nat}
    (hk : l.commitIndex ≤ l.snapshotIndex + k) (hsame : l'.entries.take k = l.entries.take k) :
    Advances l l' := by
  refine ⟨h.snapshotIndex.ge, h.applied.ge, h.commit, fun i hlow hi => ?_, fun _ => ?_⟩
  · rw [Log.entry?, Log.entry?, h.snapshotIndex]
    split
    · rfl
    · rw [← List.getElem?_take_of_lt (l := l'.entries) (j := k) (by lia), hsame,
        List.getElem?_take_of_lt (by lia)]
  · rw [h.snapshotIndex, h.snapshotTerm]
    exact l.termAt?_snapshot

theorem Carries.bounded (h : Carries l l') (hb : l.commitIndex ≤ l'.lastIndex) : Bounded l' := by
  rcases h.within with hsame | hwithin
  · rw [Bounded, hsame]
    exact hb
  · exact hwithin

theorem Prolongs.advances (h : Prolongs l l') (hl : Tidy l) (hb : Bounded l) :
    Advances l l' ∧ Bounded l' := by
  have hlast := hl.lastIndex
  unfold Bounded at hb
  refine ⟨h.toCarries.advances (k := l.entries.length) (by lia) ?_,
    h.toCarries.bounded (hb.trans (h.lastIndex hl))⟩
  rw [List.take_length]
  exact take_length_of_isPrefix h.entries

theorem Merged.advances (h : Merged batch l l') (hl : Tidy l) (hb : Bounded l) :
    Advances l l' ∧ Bounded l' := by
  obtain ⟨k, fresh, hentries, -, hk⟩ := h.entries
  have hlast := hl.lastIndex
  have hlast' := h.tidy.lastIndex
  have hsnap := h.snapshotIndex
  unfold Bounded at hb
  have hlen : (l.entries.take k).length ≤ l'.entries.length := by
    rw [hentries, List.length_append]
    lia
  have hkept : l.commitIndex ≤ l.snapshotIndex + (l.entries.take k).length := by
    rw [List.length_take]
    lia
  refine ⟨h.toCarries.advances (k := (l.entries.take k).length) hkept ?_,
    h.toCarries.bounded (by lia)⟩
  rw [hentries, List.take_left]
  exact (take_length_of_isPrefix (List.take_prefix k l.entries)).symm

/-- The next entry is applied. -/
theorem Tidy.nextCommitted (h : Tidy l) (hlog : nextCommitted l = .ok (some e) l') :
    Tidy l' ∧ (Bounded l → Bounded l') ∧ Advances l l' := by
  obtain ⟨hless, he, rfl⟩ := nextCommitted_eq_some hlog
  obtain ⟨hmem, hindex⟩ := h.entry?_eq_some.mp he
  have hhigh := h.numbered.mem_index hmem
  have hlast := h.lastIndex
  have hcompacted := h.compacted
  refine ⟨⟨h.numbered, ?_, ?_, ?_⟩, fun hb => hb,
    le_rfl, ?_, le_rfl, fun _ _ _ => rfl, fun _ => l.termAt?_snapshot⟩
  · dsimp only
    lia
  · dsimp only
    lia
  · change e.index ≤ l.lastIndex
    lia
  · dsimp only
    lia

/-- The part of a log behind a snapshot. -/
theorem lastIndex_drop (h : NumberedFrom l.snapshotIndex l.entries)
    (hlow : l.snapshotIndex ≤ i) (hi : i ≤ l.lastIndex) :
    i + (l.entries.drop (i - l.snapshotIndex)).length = l.lastIndex := by
  have hlast := lastIndex_of_numbered h
  rw [List.length_drop]
  lia

theorem numbered_drop (h : NumberedFrom l.snapshotIndex l.entries) (hlow : l.snapshotIndex ≤ i) :
    NumberedFrom i (l.entries.drop (i - l.snapshotIndex)) := by
  have := h.drop (i - l.snapshotIndex)
  rwa [show l.snapshotIndex + (i - l.snapshotIndex) = i by lia] at this

theorem entry?_drop (hlow : l.snapshotIndex ≤ l'.snapshotIndex)
    (he : l'.entries = l.entries.drop (l'.snapshotIndex - l.snapshotIndex))
    (hi : l'.snapshotIndex < i) : l'.entry? i = l.entry? i := by
  rw [Log.entry?, Log.entry?, if_neg (by lia), if_neg (by lia), he, List.getElem?_drop,
    show l'.snapshotIndex - l.snapshotIndex + (i - l'.snapshotIndex - 1) =
      i - l.snapshotIndex - 1 by lia]

/-- The log is compacted behind what is applied. -/
theorem Tidy.compact (h : Tidy l) (happlied : snap.index ≤ l.lastApplied)
    (hnew : l.snapshotIndex < snap.index) (hterm : l.termAt? snap.index = some snap.term) (s : σ) :
    Tidy (l.compacted snap s) ∧ (Bounded l → Bounded (l.compacted snap s)) ∧
      Advances l (l.compacted snap s) := by
  have hheld := h.held
  have hnum : NumberedFrom (l.compacted snap s).snapshotIndex (l.compacted snap s).entries :=
    numbered_drop h.numbered hnew.le
  have hlast : (l.compacted snap s).lastIndex = l.lastIndex := by
    rw [lastIndex_of_numbered hnum]
    exact lastIndex_drop h.numbered hnew.le (happlied.trans hheld)
  refine ⟨⟨hnum, happlied, h.applied, hlast ▸ hheld⟩, fun hb => ?_,
    hnew.le, le_rfl, le_rfl, fun i hlow _ => ?_, fun _ => hterm⟩
  · rw [Bounded, hlast]
    exact hb
  · exact entry?_drop hnew.le rfl hlow

/-- Taking a snapshot over puts the log in order behind it. The positions stay in order, and the log advances, unless
the snapshot contradicts it. -/
theorem Tidy.install (h : Tidy l) (hnew : l.lastApplied < snap.index) (s : σ) :
    Tidy (l.installed snap s) ∧ (Bounded l →
      (Bounded (l.installed snap s) ∧ Advances l (l.installed snap s) ↔ ¬ Contradicts l snap)) := by
  have hcompacted := h.compacted
  by_cases hterm : l.termAt? snap.index = some snap.term
  · obtain ⟨hlow, hhigh⟩ := h.termAt?_isSome.mp (by rw [hterm]; rfl)
    have hentries : (l.installed snap s).entries = l.entries.drop (snap.index - l.snapshotIndex) :=
      if_pos hterm
    have hnum : NumberedFrom (l.installed snap s).snapshotIndex (l.installed snap s).entries := by
      rw [hentries]
      exact numbered_drop h.numbered hlow
    have hlast : (l.installed snap s).lastIndex = l.lastIndex := by
      rw [lastIndex_of_numbered hnum, hentries]
      exact lastIndex_drop h.numbered hlow hhigh
    refine ⟨⟨hnum, le_rfl, le_max_right _ _, hlast ▸ hhigh⟩, fun hb => ?_⟩
    refine iff_of_true ⟨?_, hlow, hnew.le, le_max_left _ _, fun i hi _ => ?_, fun _ => hterm⟩
      fun hc => hc.differs hterm
    · rw [Bounded, hlast]
      exact max_le hb hhigh
    · exact entry?_drop hlow hentries hi
  · have hentries : (l.installed snap s).entries = [] := if_neg hterm
    have hnum : NumberedFrom (l.installed snap s).snapshotIndex (l.installed snap s).entries := by
      rw [hentries]
      exact .nil _
    have hlast : (l.installed snap s).lastIndex = snap.index := by
      rw [lastIndex_of_numbered hnum, hentries]
      rfl
    refine ⟨⟨hnum, le_rfl, le_max_right _ _, hlast.ge⟩, fun hb => ?_⟩
    constructor
    · rintro ⟨-, hadvances⟩ hc
      exact hterm (hadvances.covered hc.committed)
    · intro hc
      have hbeyond : l.commitIndex < snap.index := by
        by_contra hle
        exact hc ⟨hnew, by lia, hterm⟩
      refine ⟨?_, ?_, hnew.le, le_max_left _ _, fun i hi hcommit => ?_, fun hle => ?_⟩
      · rw [Bounded, hlast]
        exact max_le hbeyond.le le_rfl
      · change l.snapshotIndex ≤ snap.index
        lia
      · change snap.index < i at hi
        lia
      · change snap.index ≤ l.commitIndex at hle
        lia

end Log

namespace Node

variable {σ μ : Type} {n n' n₁ : Node σ μ} {free : Prop} {as : List Applied}

/-! ## One event -/

theorem Plains.prolongs [LogStore σ] (h : Plains free n n') (hn : n.log.Tidy) :
    n.log.Prolongs n'.log := by
  induction h with
  | refl => exact hn.prolongs
  | tail _ hstep ih =>
    cases hstep with
    | turn hlog _ _ =>
      rw [hlog]
      exact ih
    | office _ _ => exact ih
    | grow hgrows => exact ih.trans (hgrows.grown.prolongs ih.tidy)

variable [StateMachine μ]

theorem Applies.advances (h : Applies n as n') (hn : n.log.Tidy) :
    n'.log.Tidy ∧ (n.log.Bounded → n'.log.Bounded) ∧ n.log.Advances n'.log := by
  induction h with
  | done n => exact ⟨hn, fun hb => hb, .refl _⟩
  | skip hlog _ _ ih =>
    obtain ⟨ht, hb, ha⟩ := hn.nextCommitted hlog
    obtain ⟨ht', hb', ha'⟩ := ih ht
    exact ⟨ht', fun h => hb' (hb h), ha.trans ha'⟩
  | apply hlog _ _ _ ih =>
    obtain ⟨ht, hb, ha⟩ := hn.nextCommitted hlog
    obtain ⟨ht', hb', ha'⟩ := ih ht
    exact ⟨ht', fun h => hb' (hb h), ha.trans ha'⟩

variable [LogStore σ]

theorem Snaps.advances (h : Snaps n n') (hn : n.log.Tidy) :
    n'.log.Tidy ∧ (n.log.Bounded → n'.log.Bounded) ∧ n.log.Advances n'.log := by
  cases h with
  | none => exact ⟨hn, fun hb => hb, .refl _⟩
  | snap _ hterm hlog =>
    obtain ⟨happlied, rfl | ⟨hnew, s, rfl⟩⟩ := Action.wp_ok (Log.wp_compact_memory _ n.log) hlog
    · exact ⟨hn, fun hb => hb, .refl _⟩
    · exact hn.compact happlied hnew hterm s

def Occasion.Consecutive : Occasion → Prop
  | .request q => q.Consecutive
  | .act _ | .response _ => True

/-- A snapshot arrives from a leader who is not outdated, and it contradicts the log. -/
def Occasion.Contradicts (n : Node σ μ) : Occasion → Prop
  | .request (.install q) =>
    n.term ≤ q.term ∧ n.log.Contradicts ⟨q.index, q.snapshotTerm, q.data⟩
  | _ => False

/-- How the log upholds in an event that comes to its end. -/
def Upholds (contradicts : Prop) (n n' : Node σ μ) : Prop :=
  n'.log.Tidy ∧ (n.log.Bounded → (n'.log.Bounded ∧ n.log.Advances n'.log ↔ ¬ contradicts))

omit [StateMachine μ] [LogStore σ] in
theorem Upholds.of_advances {contradicts : Prop} (hn : n'.log.Tidy)
    (hb : n.log.Bounded → n'.log.Bounded ∧ n.log.Advances n'.log) (hc : ¬ contradicts) :
    Upholds contradicts n n' :=
  ⟨hn, fun h => iff_of_true (hb h) hc⟩

omit [StateMachine μ] in
theorem Plains.upholds {contradicts : Prop} (h : Plains free n n') (hn : n.log.Tidy)
    (hc : ¬ contradicts) : Upholds contradicts n n' := by
  have hprolongs := h.prolongs hn
  refine .of_advances hprolongs.tidy (fun hb => ?_) hc
  obtain ⟨hadvances, hbounded⟩ := hprolongs.advances hn hb
  exact ⟨hbounded, hadvances⟩

theorem upholds_command (c : Protocol.Command) (m : Moment) (hn : n.log.Tidy) :
    wp (c.run m) (fun _ n' => Upholds False n n') (fun f n' => f.halts = true ∨ n' = n) n := by
  have hplain : ∀ (free : Prop) {x : NodeAction σ μ (List Outbound)}, Leads free n x n →
      wp x (fun _ n' => Upholds False n n') (fun f n' => f.halts = true ∨ n' = n) n := fun _ _ hx =>
    Action.wp_mono hx (fun _ _ h => h.upholds hn not_false) fun _ _ h => Or.inl h.halts
  cases c with
  | stand => exact hplain _ (leads_startElection m n)
  | heartbeat => exact hplain False (isPlain_heartbeat m n)
  | replicate => exact hplain False (isPlain_replicate m n)
  | propose command =>
    rw [Protocol.Command.run, Action.wp_map]
    refine Action.wp_mono (wp_propose command n) (fun _ _ h => h.plains.upholds hn not_false) ?_
    rintro f n' (h | ⟨rfl, -⟩)
    · exact Or.inl h.halts
    · exact Or.inr rfl
  | apply =>
    rw [Protocol.Command.run, Action.wp_map]
    refine Action.wp_mono (wp_applyCommitted n) ?_ ?_
    · rintro as n' ⟨n₁, happlies, hsnaps⟩
      obtain ⟨ht, hb, ha⟩ := happlies.advances hn
      obtain ⟨ht', hb', ha'⟩ := hsnaps.advances ht
      exact .of_advances ht' (fun h => ⟨hb' (hb h), ha.trans ha'⟩) not_false
    · rintro f n' ⟨-, -, -, hf, -⟩
      exact Or.inl hf
  | snapshot =>
    rw [Protocol.Command.run, Action.wp_map]
    refine Action.wp_mono (wp_takeSnapshot n) ?_ fun _ _ h => Or.inl h.1
    intro _ n' hsnaps
    obtain ⟨ht, hb, ha⟩ := hsnaps.advances hn
    exact .of_advances ht (fun h => ⟨hb h, ha⟩) not_false

omit [StateMachine μ] in
theorem upholds_onAppendRequest (m : Moment) {q : AppendRequest} (hn : n.log.Tidy)
    (hq : NumberedFrom q.prevIndex q.entries) :
    wp (onAppendRequest m q) (fun _ n' => Upholds False n n') (fun f _ => f.halts = true) n := by
  refine Action.wp_mono (wp_onAppendRequest m q n) ?_ ?_
  · rintro - n' (rfl | ⟨n₁, haccepts, rfl | ⟨i, log, hlog, rfl⟩⟩)
    · exact .of_advances hn (fun hb => ⟨hb, .refl _⟩) not_false
    · exact haccepts.plains.upholds hn not_false
    · obtain ⟨s, hs⟩ := haccepts.log
      have ht : n₁.log.Tidy := hs ▸ hn.withStore s
      have hmerged := Action.wp_ok (ht.wp_reconcile hq q.prevTerm q.commit) hlog
      refine .of_advances hmerged.tidy (fun hb => ?_) not_false
      obtain ⟨ha, hb'⟩ := hmerged.advances ht (by rw [hs]; exact hb)
      rw [hs] at ha
      exact ⟨hb', ha.snapshot, ha.applied, ha.commit, ha.entries, ha.covered⟩
  · rintro f n' (h | ⟨hf, -⟩)
    · exact h.halts
    · exact hf

theorem upholds_onInstallRequest (m : Moment) (q : InstallRequest) (hn : n.log.Tidy) :
    wp (onInstallRequest m q) (fun _ n' => Upholds ((Occasion.request (.install q)).Contradicts n) n n')
      (fun f _ => f.halts = true) n := by
  refine Action.wp_mono (wp_onInstallRequest m q n) ?_ ?_
  · rintro - n' (⟨rfl, hold⟩ | ⟨n₁, haccepts, ⟨rfl, hold⟩ | ⟨log, machine, hlog, -, rfl⟩⟩)
    · refine .of_advances hn (fun hb => ⟨hb, .refl _⟩) ?_
      rintro ⟨hterm, -⟩
      lia
    · refine haccepts.plains.upholds hn ?_
      rintro ⟨-, hahead, -, -⟩
      obtain ⟨s, hs⟩ := haccepts.log
      rw [hs] at hold
      dsimp only at hahead hold
      lia
    · obtain ⟨hnew, s, rfl⟩ := (Action.wp_ok (Log.wp_install_memory _ n₁.log) hlog).2 rfl
      obtain ⟨s₁, hs₁⟩ := haccepts.log
      rw [hs₁] at hnew ⊢
      let snap : Snapshot := ⟨q.index, q.snapshotTerm, q.data⟩
      have hahead : n.log.lastApplied < snap.index := hnew
      obtain ⟨ht, hiff⟩ := hn.install hahead s
      refine ⟨ht, fun hb => (hiff hb).trans (not_congr ⟨fun h => ⟨haccepts.current, h⟩, fun h => h.2⟩)⟩
  · rintro f n' (h | ⟨hf, -⟩)
    · exact h.halts
    · exact hf

/-- The log fares well in every event that comes to its end, unless a snapshot contradicts it. -/
theorem upholds_occasion (m : Moment) {o : Occasion} (ho : o.Consecutive) (hn : n.log.Tidy) :
    wp (o.run m) (fun _ n' => Upholds (o.Contradicts n) n n')
      (fun f n' => f.halts = true ∨ n' = n) n := by
  have hplain : ∀ (free : Prop) {α : Type} {x : NodeAction σ μ α}, Leads free n x n →
      wp x (fun _ n' => Upholds False n n') (fun f n' => f.halts = true ∨ n' = n) n := fun _ _ _ hx =>
    Action.wp_mono hx (fun _ _ h => h.upholds hn not_false) fun _ _ h => Or.inl h.halts
  cases o with
  | act c =>
    rw [Occasion.run, Action.wp_map]
    exact upholds_command c m hn
  | response r =>
    rw [Occasion.run, Action.wp_map]
    exact hplain _ (leads_onResponse m r n)
  | request q =>
    rw [Occasion.run, Action.wp_map]
    cases q with
    | vote q =>
      rw [onRequest, Action.wp_bind]
      exact hplain False (isPlain_onVoteRequest m q n)
    | append q =>
      rw [onRequest, Action.wp_bind]
      exact Action.wp_mono (upholds_onAppendRequest m hn ho) (fun _ _ h => h) fun _ _ => Or.inl
    | install q =>
      rw [onRequest, Action.wp_bind]
      exact Action.wp_mono (upholds_onInstallRequest m q hn) (fun _ _ h => h) fun _ _ => Or.inl

/-! ## A run -/

/-- The run of one node: whatever happens to it, in any order, while its store does what it likes. An event that
ends with an error which is not fatal leaves it running. -/
inductive Becomes (n : Node σ μ) : Node σ μ → Prop
  | refl : Becomes n n
  | disturb {n' : Node σ μ} (h : Becomes n n') (s : σ) :
      Becomes n { n' with log := { n'.log with store := s } }
  | go {n' n'' : Node σ μ} (h : Becomes n n') {o : Occasion} {m : Moment} (ho : o.Consecutive)
      (hc : ¬ o.Contradicts n') (hrun : o.run m n' = .ok () n'') : Becomes n n''
  | refuse {n' n'' : Node σ μ} (h : Becomes n n') {o : Occasion} {m : Moment} (ho : o.Consecutive)
      {f : Fault NodeError} (hf : f.halts = false) (hrun : o.run m n' = .error f n'') :
      Becomes n n''

theorem Becomes.advances (h : Becomes n n') (hn : n.log.Tidy) (hb : n.log.Bounded) :
    n'.log.Tidy ∧ n'.log.Bounded ∧ n.log.Advances n'.log := by
  induction h with
  | refl => exact ⟨hn, hb, .refl _⟩
  | disturb _ s ih =>
    obtain ⟨ht, hb, ha⟩ := ih
    exact ⟨ht.withStore s, hb, ha.snapshot, ha.applied, ha.commit, ha.entries, ha.covered⟩
  | go _ ho hc hrun ih =>
    obtain ⟨ht, hb, ha⟩ := ih
    obtain ⟨ht', hiff⟩ := Action.wp_ok (upholds_occasion _ ho ht) hrun
    obtain ⟨hb', ha'⟩ := (hiff hb).mpr hc
    exact ⟨ht', hb', ha.trans ha'⟩
  | refuse _ ho hf hrun ih =>
    obtain hhalts | rfl := Action.wp_error (upholds_occasion _ ho ih.1) hrun
    · rw [hf] at hhalts
      cases hhalts
    · exact ih

/-- A store whose entries follow its snapshot. -/
def Contiguous (store : σ) : Prop :=
  ∀ p t, LogStore.load store = .ok p t → NumberedFrom p.covered p.entries

omit [StateMachine μ] in
/-- A log is opened in order. -/
theorem wp_boot_tidy {store : σ} (hs : Contiguous store) :
    wp (Log.boot : Action NodeError σ (Log.Recovered σ))
      (fun r _ => r.log.Tidy ∧ r.log.Bounded) (fun _ _ => True) store := by
  have hkept : ∀ (p : Persisted) (t : σ) (K : List Entry), NumberedFrom p.covered p.entries →
      K <+: p.entries → Log.Tidy (⟨t, K, p.covered, p.coveredTerm, p.covered, p.covered⟩ : Log σ) ∧
        Log.Bounded (⟨t, K, p.covered, p.coveredTerm, p.covered, p.covered⟩ : Log σ) := by
    intro p t K hp hK
    have hnum : NumberedFrom p.covered K := by
      rw [← take_length_of_isPrefix hK]
      exact hp.take _
    have hlast := Log.lastIndex_of_numbered
      (l := ⟨t, K, p.covered, p.coveredTerm, p.covered, p.covered⟩) hnum
    have hle : p.covered ≤
        (⟨t, K, p.covered, p.coveredTerm, p.covered, p.covered⟩ : Log σ).lastIndex := by
      rw [hlast]
      exact Nat.le_add_right _ _
    exact ⟨⟨hnum, le_rfl, le_rfl, hle⟩, hle⟩
  simp only [Log.boot, Action.wp_bind, Action.wp_within]
  refine Action.wp_mono (Action.wp_self LogStore.load store) ?_ fun _ _ _ => trivial
  intro p t hload
  have hnum := hs p t hload
  split
  · rw [Action.wp_bind, Action.wp_within]
    exact Action.wp_mono (Action.wp_trivial _ _)
      (fun _ t' _ => hkept p t' _ hnum (List.takeWhile_prefix _)) fun _ _ _ => trivial
  · exact hkept p t _ hnum (List.takeWhile_prefix _)

theorem tidy_of_boot {id : NodeId} {peers : List NodeId} {machine : μ} {config : Config} {m : Moment}
    {store t : σ} (hs : Contiguous store) (hboot : boot id peers machine config m store = .ok n t) :
    n.log.Tidy ∧ n.log.Bounded := by
  have hwp : wp (boot id peers machine config m) (fun n _ => n.log.Tidy ∧ n.log.Bounded)
      (fun _ _ => True) store := by
    rw [boot, Action.wp_bind]
    refine Action.wp_imp (wp_boot_tidy hs) ?_
    intro r t hr
    split
    · rename_i n hn
      obtain ⟨machine', -, rfl⟩ := ofRecovered_ok hn
      exact hr
    · trivial
  have hn := Action.wp_ok hwp hboot
  exact hn

/-- In the run of a node that no snapshot contradicted so far, the positions are in order and the log has only advanced
since boot. The next event keeps that up if and only if it brings no snapshot that contradicts the log. -/
theorem Becomes.advances_iff {id : NodeId} {peers : List NodeId} {machine : μ} {config : Config}
    {m₀ m : Moment} {store t : σ} {n₀ : Node σ μ} (hs : Contiguous store)
    (hboot : boot id peers machine config m₀ store = .ok n₀ t) (hn : Becomes n₀ n) {o : Occasion}
    (ho : o.Consecutive) (hrun : o.run m n = .ok () n') :
    n.log.InOrder ∧ n₀.log.Advances n.log ∧
      (n'.log.InOrder ∧ n.log.Advances n'.log ↔ ¬ o.Contradicts n) := by
  obtain ⟨ht₀, hb₀⟩ := tidy_of_boot hs hboot
  obtain ⟨ht, hb, ha⟩ := hn.advances ht₀ hb₀
  obtain ⟨ht', hiff⟩ := Action.wp_ok (upholds_occasion m ho ht) hrun
  refine ⟨ht.inOrder hb, ha, ?_⟩
  rw [← hiff hb]
  constructor
  · rintro ⟨hin, ha'⟩
    exact ⟨hin.committed, ha'⟩
  · rintro ⟨hb', ha'⟩
    exact ⟨ht'.inOrder hb', ha'⟩

/-! ## A snapshot that takes committed entries away -/

def newcomer : Node MemoryStore Journal where
  id := 1
  peers := [2, 3]
  config := {}
  term := 0
  vote := none
  log := { store := {} }
  role := .follower none
  machine := {}
  electionDeadline := 300
  appliedSinceSnapshot := 0

def threeCommitted : AppendRequest := ⟨1, 2, 0, 0, [⟨1, 1, [97]⟩, ⟨2, 1, [98]⟩, ⟨3, 1, [99]⟩], 3⟩

/-- Three entries are committed, and none is applied yet. -/
def informed : Node MemoryStore Journal := { newcomer with
  term := 1, role := .follower (some 2),
  log := {
    store := { kept := { hard := ⟨1, none⟩, entries := threeCommitted.entries } },
    entries := threeCommitted.entries, commitIndex := 3 } }

def foreignSnapshot : InstallRequest :=
  ⟨1, 2, 2, 9, StateMachine.snapshot ({ lastIndex := 2, applied := ["x", "y"] } : Journal)⟩

/-- The snapshot ends at the second entry, with another term. -/
def misled : Node MemoryStore Journal := { informed with
  log := {
    store := { kept := { hard := ⟨1, none⟩, snapshot := some ⟨2, 9, foreignSnapshot.data⟩ } },
    snapshotIndex := 2, snapshotTerm := 9, commitIndex := 3, lastApplied := 2 },
  machine := { lastIndex := 2, applied := ["x", "y"] } }

theorem newcomer_boots : boot 1 [2, 3] {} {} {} {} = .ok newcomer {} := rfl

theorem threeCommitted_consecutive :
    (Occasion.request (.append threeCommitted)).Consecutive :=
  .cons rfl (.cons rfl (.cons rfl (.nil 3)))

theorem newcomer_informed :
    (Occasion.request (.append threeCommitted)).run {} newcomer = .ok () informed := rfl

theorem informed_misled :
    (Occasion.request (.install foreignSnapshot)).run {} informed = .ok () misled := by cbv

theorem newcomer_becomes_informed : Becomes newcomer informed :=
  .go .refl threeCommitted_consecutive not_false newcomer_informed

theorem empty_contiguous : Contiguous ({} : MemoryStore) := by
  rintro p t ⟨⟩
  exact .nil 0

theorem advances_iff_informed :
    Contiguous ({} : MemoryStore) ∧ boot 1 [2, 3] {} {} {} {} = .ok newcomer {} ∧
      Becomes newcomer newcomer ∧ (Occasion.request (.append threeCommitted)).Consecutive ∧
      (Occasion.request (.append threeCommitted)).run {} newcomer = .ok () informed ∧
      informed.log.InOrder ∧ newcomer.log.Advances informed.log :=
  ⟨empty_contiguous, newcomer_boots, .refl, threeCommitted_consecutive, newcomer_informed,
    (Becomes.advances_iff empty_contiguous newcomer_boots .refl threeCommitted_consecutive
      newcomer_informed).2.2.mpr not_false⟩

/-- The request is accepted, an entry that was committed is gone, and the commit index is past the end of the log. -/
theorem install_undoes_commit : boot 1 [2, 3] {} {} {} {} = .ok newcomer {} ∧
    Becomes newcomer informed ∧ informed.log.InOrder ∧
    (Occasion.request (.install foreignSnapshot)).run {} informed = .ok () misled ∧
    informed.log.commitIndex = 3 ∧ informed.log.entry? 3 = some ⟨3, 1, [99]⟩ ∧
    misled.log.commitIndex = 3 ∧ misled.log.lastIndex = 2 ∧ misled.log.entry? 3 = none :=
  ⟨newcomer_boots, newcomer_becomes_informed, ⟨by decide, by decide, by decide⟩, informed_misled,
    rfl, rfl, rfl, rfl, rfl⟩

end Node

end RaftNode
