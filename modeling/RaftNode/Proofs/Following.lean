import RaftNode.Proofs.Messages
/-!
# Following a leader

What a member takes over from the leader of its term, and what it does with what is committed. Its own committed
beginning is in the leader's log, so following never gives that up.
-/
namespace RaftNode

open RaftNode.Action (wp)
open History (Sound Moves Committed)

variable {σ μ : Type} [LogStore σ] [LawfulStore σ] {members : Finset NodeId} {h h' : History}
  {i s : NodeId} {n n' : Node σ μ} {T : Term} {F : List Entry}

/-- The history when a member follows the leader of its term. -/
theorem Keeps.follows (hs : Sound members h) (hk : Keeps members h i n)
    (hl : h.leader n.term = some s) (hne : s ≠ i) (hF : Follows (h.led n.term) (h.log i) F) :
    Moves members i h (h.follow i F) ∧ (h.follow i F).log i = F ∧
      F.take n.log.commitIndex = (h.log i).take n.log.commitIndex := by
  have hlen : ((h.log i).take n.log.commitIndex).length = n.log.commitIndex :=
    List.length_take_of_le hk.log.held
  have hkept := hF.shared _ (List.take_prefix _ _) (hk.committed.isPrefix_led hs hl le_rfl)
  refine ⟨?_, by simp [History.follow], ?_⟩
  · rw [← hk.term] at hl hF
    exact hs.follow hl hne hF
  · rw [take_of_isPrefix hkept hlen.ge, List.take_of_length_le hlen.le]

theorem Keeps.halted_following (hs : Sound members h) (hk : Keeps members h i n)
    (hl : h.leader n.term = some s) (hne : s ≠ i) {f : Fault NodeError} {l : Log σ}
    (hleft : Log.Left n.log (Follows (h.led n.term) (h.log i)) f l) :
    Halted members h i f { n with log := l } := by
  obtain ⟨hf, hhard, hcov, F, hF, hstands⟩ := hleft
  obtain ⟨hm, hlog, hsame⟩ := hk.follows hs hl hne hF
  refine ⟨hf, _, hm, hk.stored_changed hs hm rfl rfl hhard ?_ hcov ?_⟩
  · rw [hlog]
    exact hstands
  · rw [hlog]
    exact hsame

/-- A follower holds the leader's log up to `P` and says so. -/
theorem Runs.acknowledge (hs : Sound members h) (hr : Runs members h i n) {P : List Entry}
    (hP : P <+: h.led n.term) (hlog : P <+: h.log i) (hrole : ∃ l, n.role = .follower l) :
    ∃ h', Moves members i h h' ∧ Runs members h' i n ∧ P.length ≤ h'.acked i n.term := by
  have hm := hs.ack (i := i) (k := P.length) (by rw [hr.term]; exact hP.length_le) (by
    rw [hr.term, take_length_of_isPrefix hP]
    exact hlog)
  refine ⟨_, hm, ⟨{ hr.toKeeps with committed := hr.committed.extends hs hm.grows }, ?_⟩, ?_⟩
  · obtain ⟨l, hl⟩ := hrole
    rw [Holds, hl]
    trivial
  · rw [← hr.term]
    exact History.le_acked_ack h i _

/-- A follower's log has become `F`, which has all that the request told of the leader's log. -/
theorem Runs.followed (hs : Sound members h) (hr : Runs members h i n)
    (hl : h.leader n.term = some s) (hne : s ≠ i) (hrole : ∃ l, n.role = .follower l)
    (hF : Follows (h.led n.term) (h.log i) F) {l : Log σ} (hlog : l.Shows F)
    (hhard : (kept l.store).hard = (kept n.log.store).hard) {c : Index}
    (hcommit : l.commitIndex = max n.log.commitIndex c) (hc : Committed members h n.term (F.take c))
    {P : List Entry} (hP : P <+: h.led n.term) (hPF : P <+: F) :
    ∃ h', Moves members i h h' ∧ Runs members h' i { n with log := l } ∧
      P.length ≤ h'.acked i n.term := by
  obtain ⟨hm, hF', hsame⟩ := hr.follows hs hl hne hF
  have hcommitted : Committed members h n.term (F.take l.commitIndex) := by
    rw [hcommit]
    rcases max_choice n.log.commitIndex c with e | e
    · rw [e, hsame]
      exact hr.committed
    · rwa [e]
  have hr' : Runs members (h.follow i F) i { n with log := l } := by
    refine ⟨{ hr.toKeeps with hard := hhard.trans hr.hard, log := ?_, committed := ?_ }, ?_⟩
    · rwa [hF']
    · rw [hF']
      exact hcommitted.extends hs hm.grows
    · obtain ⟨leader, hleader⟩ := hrole
      rw [Holds, show Node.role { n with log := _ } = .follower leader from hleader]
      trivial
  obtain ⟨h', hm', hr'', hack⟩ := hr'.acknowledge hm.sound hP (by rwa [hF']) hrole
  exact ⟨h', hm.trans hm', hr'', hack⟩

/-! ## Entries -/

/-- The commit index follows the leader's through entries that are now here. -/
theorem SendsEntries.committed_here {q : AppendRequest} (hq : SendsEntries members h s q)
    {B : List Entry} (hB : B <+: h.led q.term) (hF : B <+: F) {c : Index}
    (hc : c ≤ min q.commit B.length) : Committed members h q.term (F.take c) := by
  refine hq.committed.isPrefix ?_
  rw [take_of_isPrefix hF (by lia), ← take_of_isPrefix hB (by lia)]
  exact List.take_prefix_take_left (by lia)

theorem Runs.reconcile (hs : Sound members h) (hr : Runs members h i n) {q : AppendRequest}
    (hq : SendsEntries members h s q) (hne : s ≠ i) (hterm : n.term = q.term)
    (hrole : ∃ l, n.role = .follower l) :
    wp (Log.reconcile q.prevIndex q.prevTerm q.entries q.commit)
      (fun _ l => ∃ h', Moves members i h h' ∧ Runs members h' i { n with log := l } ∧
        q.prevIndex + q.entries.length ≤ h'.acked i q.term)
      (fun f l => (∃ a hint, f = .error (.logConflict a hint) ∧ hint ≤ q.prevIndex ∧ l = n.log) ∨
        Halted members h i f { n with log := l }) n.log := by
  obtain ⟨P, hP, hend, hB⟩ := hq.entries
  have hlead := hq.office
  have hled := hr.committed.isPrefix_led hs (hterm ▸ hlead) le_rfl
  rw [← hterm] at hlead hB
  rw [← hP, ← hend]
  refine Action.wp_mono (hr.log.wp_reconcile (hs.paths.numbered _)
    ((hs.paths.log i).agrees (hs.paths.led _)) hled hB q.commit) ?_ ?_
  · rintro _ l ⟨rfl, hhard, hcommit, F, hl, hBF, hF⟩
    have hc : Committed members h n.term
        (F.take (min q.commit (P.length + q.entries.length))) := by
      rw [hterm] at hB ⊢
      exact hq.committed_here hB hBF (by rw [List.length_append])
    obtain ⟨h', hm, hr', hack⟩ := hr.followed hs hlead hne hrole hF hl hhard hcommit hc hB hBF
    rw [List.length_append] at hack
    exact ⟨h', hm, hr', hterm ▸ hack⟩
  · exact fun f l => Or.imp_right (hr.halted_following hs hlead hne)

theorem Runs.onAppendRequest (hs : Sound members h) (hr : Runs members h i n) (m : Moment)
    {q : AppendRequest} (hq : SendsEntries members h s q) (hne : s ≠ i) :
    Evolves members h i (Node.onAppendRequest m q)
      (fun h' a n' => Runs members h' i n' ∧ Acknowledges h' i q.sent a) n := by
  rw [Evolves, Node.onAppendRequest, Action.wp_bind, Action.wp_get, Action.wp_ite]
  split
  · refine ⟨h, .refl hs, hr, fun hg => absurd hg Bool.false_ne_true, hq.prevIndex_le, ?_⟩
    rintro _ ⟨⟩
  rename_i hold
  refine Action.wp_seq (hr.follow hs m (by lia) q.leader) ?_
  rintro - n₁ ⟨h₁, hm₁, hr₁, ht, hrole⟩
  refine Evolves.after hm₁ ?_
  have hrec := hr₁.reconcile hm₁.sound (hq.extends hs hm₁.grows) hne ht hrole
  rw [Evolves, Action.wp_bind, Action.wp_get]
  split
  · rename_i log hres
    obtain ⟨h', hm', hr', hack⟩ := Action.wp_ok hrec hres
    have hq' := hq.extends hs (hm₁.trans hm').grows
    refine ⟨h', hm', hr', fun _ => hack, hq'.prevIndex_le, ?_⟩
    rintro _ ⟨⟩
  · rename_i hint log hres
    rcases Action.wp_error hrec hres with ⟨_, _, hf, hhint, rfl⟩ | hhalt
    · obtain ⟨-, rfl⟩ := NodeError.logConflict.inj (Fault.error.inj hf)
      exact ⟨h₁, .refl hm₁.sound, hr₁, fun hg => absurd hg Bool.false_ne_true,
        (hq.extends hs hm₁.grows).prevIndex_le, fun _ e => Option.some.inj e ▸ hhint⟩
    · exact absurd hhalt.1 Bool.false_ne_true
  · rename_i f log hother hres
    rcases Action.wp_error hrec hres with ⟨a, hint, rfl, -, -⟩ | hhalt
    · exact absurd rfl (hother a hint)
    · exact hhalt

/-! ## Snapshots -/

theorem Runs.install (hs : Sound members h) (hr : Runs members h i n) {q : InstallRequest}
    (hq : SendsSnapshot members h s q) (hne : s ≠ i) (hterm : n.term = q.term)
    (hrole : ∃ l, n.role = .follower l) :
    wp (Log.install ⟨q.index, q.snapshotTerm, q.data⟩)
      (fun _ l => ∃ h', Moves members i h h' ∧ Runs members h' i { n with log := l } ∧
        q.index ≤ h'.acked i q.term)
      (fun f l => Halted members h i f { n with log := l }) n.log := by
  obtain ⟨C, hC, hend, hCled, hcommitted⟩ := hq.covers
  have hlead := hq.office
  have hled := hr.committed.isPrefix_led hs (hterm ▸ hlead) le_rfl
  rw [← hterm] at hlead hCled hcommitted ⊢
  refine Action.wp_mono (hr.log.wp_install (hs.paths.numbered _)
    ((hs.paths.log i).agrees (hs.paths.led _)) hled hCled hC.symm hend.symm) ?_ ?_
  · rintro _ l ⟨hhard, hcommit, F, hl, hCF, hF⟩
    have hc : Committed members h n.term (F.take q.index) := by
      rwa [← hC, take_length_of_isPrefix hCF]
    obtain ⟨h', hm, hr', hack⟩ := hr.followed hs hlead hne hrole hF hl hhard hcommit hc hCled hCF
    exact ⟨h', hm, hr', hC ▸ hack⟩
  · rintro f l (hleft | ⟨hf, hhard, hcov, F, ⟨hCF, hF⟩, hstands⟩)
    · exact hr.halted_following hs hlead hne hleft
    · obtain ⟨hm, hlog, -⟩ := hr.follows hs hlead hne hF
      have hhard' := hhard.trans hr.hard
      refine ⟨hf, _, hm, ?_, ?_, ?_, ?_⟩
      · rw [hhard']
        exact hr.term
      · rw [hhard']
        exact hr.vote
      · rw [hlog]
        exact hstands
      · rw [hhard', hlog, hcov]
        dsimp only
        rw [← hC, take_length_of_isPrefix hCF]
        exact hcommitted.extends hs hm.grows

theorem Runs.onInstallRequest [StateMachine μ] (hs : Sound members h) (hr : Runs members h i n)
    (m : Moment) {q : InstallRequest} (hq : SendsSnapshot members h s q) (hne : s ≠ i) :
    Evolves members h i (Node.onInstallRequest m q)
      (fun h' a n' => Runs members h' i n' ∧ (a.term ≤ q.term → q.index ≤ h'.acked i q.term))
      n := by
  rw [Evolves, Node.onInstallRequest, Action.wp_bind, Action.wp_get, Action.wp_ite]
  split
  · rename_i hold
    exact ⟨h, .refl hs, hr, fun hle => absurd hle (by dsimp only; lia)⟩
  rename_i hold
  refine Action.wp_seq (hr.follow hs m (by lia) q.leader) ?_
  rintro - n₁ ⟨h₁, hm₁, hr₁, ht, hrole⟩
  refine Evolves.after hm₁ ?_
  rw [Evolves, Action.wp_bind, wp_onLog]
  refine Action.wp_imp (hr₁.install hm₁.sound (hq.extends hs hm₁.grows) hne ht hrole) ?_
  rintro b log ⟨h', hm', hr', hack⟩
  simp only [Action.wp_ite, Action.wp_bind, Action.wp_get, Action.wp_pure]
  split
  · split
    · exact .after hm' (hr'.halted hm'.sound rfl)
    · exact ⟨h', hm', ⟨{ hr'.toKeeps with }, hr'.role⟩, fun _ => hack⟩
  · exact ⟨h', hm', hr', fun _ => hack⟩

/-- The log changed in a way that its full log does not show. -/
theorem Runs.withLog (hr : Runs members h i n) {l : Log σ} (hl : l.Shows (h.log i))
    (hhard : (kept l.store).hard = (kept n.log.store).hard)
    (hcommit : l.commitIndex = n.log.commitIndex) : Runs members h i { n with log := l } :=
  ⟨{ hr.toKeeps with
    hard := hhard.trans hr.hard
    log := hl
    committed := by rw [hcommit]; exact hr.committed }, hr.role⟩

theorem Keeps.halted_same (hs : Sound members h) (hk : Keeps members h i n) {f : Fault NodeError}
    {l : Log σ} (hleft : Log.Left n.log (· = h.log i) f l) :
    Halted members h i f { n with log := l } := by
  obtain ⟨hf, hhard, hcov, F, rfl, hstands⟩ := hleft
  exact ⟨hf, h, .refl hs, hk.stored_changed hs (.refl hs) rfl rfl hhard hstands hcov rfl⟩

variable [StateMachine μ]

theorem Runs.wp_takeSnapshot (hs : Sound members h) (hr : Runs members h i n) :
    wp Node.takeSnapshot (fun _ n' => Runs members h i n') (Halted members h i) n := by
  rw [Node.takeSnapshot, Action.wp_bind, Action.wp_get, Action.wp_ite]
  split
  · exact hr
  split
  · exact hr.halted hs rfl
  · rename_i term hterm
    obtain ⟨-, -, hend⟩ := hr.log.termAt?_eq_some.mp hterm
    rw [Action.wp_bind, wp_onLog]
    refine Action.wp_mono (hr.log.wp_compact le_rfl hend.symm) ?_ fun _ _ => hr.halted_same hs
    rintro - l ⟨hhard, hcommit, hl⟩
    have hr' := hr.withLog hl hhard hcommit
    exact ⟨{ hr'.toKeeps with }, hr'.role⟩

/-! ## Applying -/

theorem Runs.wp_applyNext (hs : Sound members h) (count : Nat) (hr : Runs members h i n) :
    wp (Node.applyNext count) (fun _ n' => Runs members h i n') (Halted members h i) n := by
  induction count generalizing n with
  | zero => exact hr
  | succ count ih =>
    rw [Node.applyNext, Action.wp_bind, wp_onLog]
    refine Action.wp_mono hr.log.wp_nextCommitted ?_ fun _ _ => hr.halted_same hs
    rintro e l ⟨hstore, hcommit, hl⟩
    have hr' := hr.withLog hl (by rw [hstore]) hcommit
    cases e with
    | none => exact hr'
    | some e =>
      dsimp only
      rw [Action.wp_bind, Action.wp_modify, Action.wp_ite]
      split
      · exact ih ⟨{ hr'.toKeeps with }, hr'.role⟩
      · rw [Action.wp_bind, Action.wp_get, Action.wp_bind, Action.wp_set]
        exact Action.wp_seq (ih ⟨{ hr'.toKeeps with }, hr'.role⟩) fun _ _ hn => hn

theorem Runs.wp_applyCommitted (hs : Sound members h) (hr : Runs members h i n) :
    wp Node.applyCommitted (fun _ n' => Runs members h i n') (Halted members h i) n := by
  rw [Node.applyCommitted, Action.wp_bind, Action.wp_get]
  refine Action.wp_seq (hr.wp_applyNext hs _) ?_
  intro applied n' hr'
  rw [Action.wp_bind, Action.wp_get]
  simp only [Action.wp_ite, Action.wp_bind, Action.wp_pure]
  split
  · exact hr'.wp_takeSnapshot hs
  · exact hr'

end RaftNode
