import RaftNode.Proofs.Barrier
import RaftNode.Proofs.Sums
/-!
# Headroom

Terms and indexes have 64 bits, and a node aborts where a sum of them does not fit. Here is every sum that an event can
fail at, and how far each handler lets the numbers of a node climb, however it ends.
-/
namespace RaftNode.Node

open RaftNode.Action (wp)

variable {σ μ : Type}

/-! ## Numbers -/

namespace Occasion

/-- The numbers of a message have 64 bits. -/
def Fits : Occasion → Prop
  | .act _ => True
  | .request (.vote q) => LawfulWire.Fits q
  | .request (.append q) => LawfulWire.Fits q
  | .request (.install q) => LawfulWire.Fits q
  | .response (.vote _ sentTerm r) => sentTerm < wordLimit ∧ LawfulWire.Fits r
  | .response (.append _ sent r) =>
    (sent.term < wordLimit ∧ sent.prevIndex < wordLimit ∧ sent.count < wordLimit) ∧ LawfulWire.Fits r
  | .response (.install _ sentTerm index r) => (sentTerm < wordLimit ∧ index < wordLimit) ∧ LawfulWire.Fits r
  | .response (.unreachable _ sentTerm) => sentTerm < wordLimit

/-- A message tells of terms below `t` and of indexes below `i`; an append also ends below `i`. -/
def Below (t i : Nat) : Occasion → Prop
  | .act _ | .response (.unreachable _ _) => True
  | .request (.vote q) => q.term < t
  | .request (.append q) =>
    q.term < t ∧ q.prevIndex + q.entries.length < i ∧ ∀ e ∈ q.entries, e.index < i
  | .request (.install q) => q.term < t ∧ q.index < i
  | .response (.vote _ _ r) => r.term < t
  | .response (.append _ sent r) =>
    r.term < t ∧ sent.prevIndex + sent.count < i ∧ ∀ hint ∈ r.matchHint, hint < i
  | .response (.install _ _ index r) => r.term < t ∧ index < i

theorem Below.mono {t t' i i' : Nat} {o : Occasion} (h : o.Below t i) (ht : t ≤ t') (hi : i ≤ i') : o.Below t' i' := by
  rcases o with c | ⟨q | q | q⟩ | ⟨_, _, r⟩ | ⟨_, sent, r⟩ | ⟨_, _, index, r⟩ | ⟨_, _⟩
  · trivial
  · exact h.trans_le ht
  · exact ⟨h.1.trans_le ht, h.2.1.trans_le hi, fun e he => (h.2.2 e he).trans_le hi⟩
  · exact ⟨h.1.trans_le ht, h.2.trans_le hi⟩
  · exact h.trans_le ht
  · exact ⟨h.1.trans_le ht, h.2.1.trans_le hi, fun i' hi' => (h.2.2 i' hi').trans_le hi⟩
  · exact ⟨h.1.trans_le ht, h.2.trans_le hi⟩
  · trivial

/-- The message tells this term. -/
structure Tells (o : Occasion) (term : Term) : Prop where
  fits : term < wordLimit
  below : ∀ t i, o.Below t i → term < t

theorem Fits.tells_request {q : Request} (h : (request q).Fits) : (request q).Tells q.term := by
  cases q with
  | vote q => exact ⟨h.1, fun _ _ ho => ho⟩
  | append q => exact ⟨h.1.1, fun _ _ ho => ho.1⟩
  | install q => exact ⟨h.1, fun _ _ ho => ho.1⟩

theorem Fits.tells_response {r : Response} {told : Term} (h : (response r).Fits) (hr : r.toldTerm? = some told) :
    (response r).Tells told := by
  cases r with
  | vote _ _ r =>
    cases hr
    exact ⟨h.2, fun _ _ ho => ho⟩
  | append _ _ r =>
    cases hr
    exact ⟨h.2.1, fun _ _ ho => ho.1⟩
  | install _ _ _ r =>
    cases hr
    exact ⟨h.2, fun _ _ ho => ho.1⟩
  | unreachable => cases hr

/-- What comes to a node from outside: a timeout, a request or a response. -/
def Outward : Occasion → Prop
  | .act .stand | .request _ | .response _ => True
  | .act _ => False

end Occasion

/-- The term of the node is below `t`, and the numbers of its log are below `i`. -/
structure Below (n : Node σ μ) (t i : Nat) : Prop where
  term : n.term < t
  log : n.log.Below i

/-- Every number that the node keeps has 64 bits. -/
structure Fits (n : Node σ μ) : Prop extends n.Below wordLimit wordLimit where
  view : ∀ r, n.role = .leader r → r.Fits

/-- A sum that the event forms leaves the 64 bits. -/
inductive Overruns (n : Node σ μ) : Occasion → Prop
  | term (hrole : n.isLeader = false) (hfull : wordLimit ≤ n.term + 1) : Overruns n (.act .stand)
  | alone (hrole : n.isLeader = false) (hmajority : n.hasMajority 1 = true) (hfull : wordLimit ≤ n.log.lastIndex + 1) :
      Overruns n (.act .stand)
  | office {votes : List NodeId} {peer : NodeId} {r : VoteReply} (hrole : n.role = .candidate votes)
      (hterm : r.term ≤ n.term) (hgranted : r.granted = true)
      (hmajority : n.hasMajority (if votes.contains peer then votes else votes ++ [peer]).length = true)
      (hfull : wordLimit ≤ n.log.lastIndex + 1) : Overruns n (.response (.vote peer n.term r))
  | append {q : AppendRequest} (hterm : n.term ≤ q.term)
      (hfull : n.log.ReconcileOverflows q.prevIndex q.prevTerm q.entries.length) : Overruns n (.request (.append q))
  | install {q : InstallRequest} (hterm : n.term ≤ q.term) (hfull : n.log.InstallOverflows q.index q.snapshotTerm) :
      Overruns n (.request (.install q))
  | stored {view : Replication} {peer : NodeId} {sent : AppendSent} {r : AppendReply} (hrole : n.role = .leader view)
      (hpeer : (view.find? peer).isSome) (hterm : r.term ≤ n.term) (hsent : sent.term = n.term)
      (hsuccess : r.success = true) (hfull : wordLimit ≤ sent.prevIndex + sent.count + 1) :
      Overruns n (.response (.append peer sent r))
  | rejected {view : Replication} {peer : NodeId} {sent : AppendSent} {r : AppendReply} {hint : Index}
      (hrole : n.role = .leader view) (hpeer : (view.find? peer).isSome) (hterm : r.term ≤ n.term)
      (hsent : sent.term = n.term) (hsuccess : r.success = false) (hhint : r.matchHint = some hint)
      (hfull : wordLimit ≤ hint + 1) : Overruns n (.response (.append peer sent r))
  | installed {view : Replication} {peer : NodeId} {index : Index} {r : InstallReply} (hrole : n.role = .leader view)
      (hpeer : (view.find? peer).isSome) (hterm : r.term ≤ n.term) (hfull : wordLimit ≤ index + 1) :
      Overruns n (.response (.install peer n.term index r))

/-- The log of the node ends before an index that the event asks it for. This is no sum; it happens if the entries of a
log or of a batch are not numbered one by one. -/
inductive Lacks (n : Node σ μ) : Occasion → Prop
  | append {q : AppendRequest} (h : n.log.EndsBefore q.entries (min q.commit (q.prevIndex + q.entries.length))) :
      Lacks n (.request (.append q))
  | count {view : Replication} {r : Response} (hrole : n.role = .leader view)
      (hterm : n.log.termAt? (view.majorityMatch n.log.lastIndex) = some n.term)
      (hlast : n.log.lastIndex < view.majorityMatch n.log.lastIndex) : Lacks n (.response r)

/-- Numbers of the node go up, each by no more than this, or to one that the message brought. -/
structure Climbs (o : Occasion) (dt di : Nat) (n n' : Node σ μ) : Prop where
  fits : n'.Fits
  term : n.term ≤ n'.term
  below : ∀ t i, o.Below t i → n.Below t i → n'.Below (t + dt) (i + di)
  sequence : o.Consecutive → n.log.InSequence → n'.log.InSequence

variable {o : Occasion} {n n' n₁ : Node σ μ} {dt di dt' di' : Nat}

namespace Climbs

theorem refl (o : Occasion) (hn : n.Fits) : Climbs o 0 0 n n :=
  ⟨hn, le_rfl, fun _ _ _ h => h, fun _ h => h⟩

theorem trans (h : Climbs o dt di n n₁) (h' : Climbs o dt' di' n₁ n') : Climbs o (dt + dt') (di + di') n n' where
  fits := h'.fits
  term := h.term.trans h'.term
  below t i ho hn := by
    rw [← add_assoc, ← add_assoc]
    exact h'.below _ _ (ho.mono (Nat.le_add_right _ _) (Nat.le_add_right _ _)) (h.below t i ho hn)
  sequence ho hn := h'.sequence ho (h.sequence ho hn)

theorem mono (h : Climbs o dt di n n') (ht : dt ≤ dt') (hi : di ≤ di') : Climbs o dt' di' n n' where
  fits := h.fits
  term := h.term
  below t i ho hn := by
    obtain ⟨hterm, hlog⟩ := h.below t i ho hn
    exact ⟨by lia, hlog.mono (by lia)⟩
  sequence := h.sequence

/-- Neither the term nor the log has changed. -/
theorem turn (hn : n.Fits) (hterm : n'.term = n.term) (hlog : n'.log = n.log)
    (hview : ∀ r, n'.role = .leader r → r.Fits) : Climbs o 0 0 n n' where
  fits := ⟨⟨hterm ▸ hn.term, hlog ▸ hn.log⟩, hview⟩
  term := hterm.ge
  below _ _ _ h := ⟨hterm ▸ h.term, hlog ▸ h.log⟩
  sequence _ h := hlog ▸ h

theorem log (hn : n.Fits) {log : Log σ} (hfits : log.Below wordLimit)
    (hbelow : ∀ t i, o.Below t i → n.log.Below i → log.Below (i + di))
    (hsequence : o.Consecutive → n.log.InSequence → log.InSequence) : Climbs o 0 di n { n with log } where
  fits := ⟨⟨hn.term, hfits⟩, hn.view⟩
  term := le_rfl
  below t i ho h := ⟨h.term, hbelow t i ho h.log⟩
  sequence := hsequence

theorem narrows (hn : n.Fits) {log : Log σ} (h : n.log.Narrows log) : Climbs o 0 0 n { n with log } :=
  .log hn (h.below _ hn.log) (fun _ i _ => h.below i) fun _ => h.sequence

end Climbs

/-! ## Pieces of an event -/

variable {α β : Type} {X : Node σ μ → Prop} {x : NodeAction σ μ α} {f : α → NodeAction σ μ β}
  {R : α → Node σ μ → Prop} {Q : β → Node σ μ → Prop}

/-- However the action ends, the numbers have only climbed; and if it aborts, there is `X` to say why. -/
def Counts (o : Occasion) (dt di : Nat) (X : Node σ μ → Prop) (x : NodeAction σ μ α) (R : α → Node σ μ → Prop)
    (n : Node σ μ) : Prop :=
  wp x (fun a n' => Climbs o dt di n n' ∧ R a n') (fun f n' => Climbs o dt di n n' ∧ (f = .abort → X n')) n

theorem Counts.after (h : Climbs o dt di n n₁) {x : NodeAction σ μ β} (hx : Counts o dt' di' X x Q n₁) :
    wp x (fun b n' => Climbs o (dt + dt') (di + di') n n' ∧ Q b n')
      (fun f n' => Climbs o (dt + dt') (di + di') n n' ∧ (f = .abort → X n')) n₁ :=
  Action.wp_mono hx (fun _ _ hx => ⟨h.trans hx.1, hx.2⟩) fun _ _ hx => ⟨h.trans hx.1, hx.2⟩

theorem Counts.bind {t i : Nat} (hx : Counts o dt di X x R n)
    (hf : ∀ a n', n'.Fits → R a n' → Counts o t i X (f a) Q n') :
    Counts o (dt + t) (di + i) X (x >>= f) Q n := by
  rw [Counts, Action.wp_bind]
  refine Action.wp_mono hx (fun a n' h => (hf a n' h.1.fits h.2).after h.1) fun _ _ h => ?_
  exact ⟨h.1.mono (Nat.le_add_right _ _) (Nat.le_add_right _ _), h.2⟩

/-- The first action leaves the numbers alone. -/
theorem Counts.seq (hx : Counts o 0 0 X x R n) (hf : ∀ a n', n'.Fits → R a n' → Counts o dt di X (f a) Q n') :
    Counts o dt di X (x >>= f) Q n := by
  have h := hx.bind hf
  rwa [Nat.zero_add, Nat.zero_add] at h

theorem Counts.mono (hx : Counts o dt di X x R n) (ht : dt ≤ dt') (hi : di ≤ di') {X' : Node σ μ → Prop}
    (hX : ∀ n', X n' → X' n') : Counts o dt' di' X' x (fun _ _ => True) n :=
  Action.wp_mono hx (fun _ _ h => ⟨h.1.mono ht hi, trivial⟩) fun _ _ h => ⟨h.1.mono ht hi, fun hf => hX _ (h.2 hf)⟩

theorem Counts.pure (hn : n.Fits) {a : α} (ha : R a n) : Counts o 0 0 X (pure a) R n := ⟨.refl o hn, ha⟩

theorem Counts.fail (hn : n.Fits) (e : NodeError) : Counts o 0 0 X (Action.fail e) R n := ⟨.refl o hn, by rintro ⟨⟩⟩

/-- A step that changes neither the term nor the log, and then the rest. -/
theorem Counts.turn (hn : n.Fits) (hterm : n₁.term = n.term) (hlog : n₁.log = n.log)
    (hview : ∀ r, n₁.role = .leader r → r.Fits) (hx : n₁.Fits → Counts o dt di X x R n₁) :
    wp x (fun a n' => Climbs o dt di n n' ∧ R a n') (fun f n' => Climbs o dt di n n' ∧ (f = .abort → X n')) n₁ := by
  have hturn : Climbs o 0 0 n n₁ := .turn hn hterm hlog hview
  have h := (hx hturn.fits).after hturn
  rwa [Nat.zero_add, Nat.zero_add] at h

theorem Counts.setView (hn : n.Fits) {view : Replication} (hview : view.Fits)
    (hx : Fits { n with role := .leader view } → Counts o dt di X x R { n with role := .leader view }) :
    Counts o dt di X (do set { n with role := .leader view }; x) R n := by
  rw [Counts, Action.wp_bind, Action.wp_set]
  exact Counts.turn hn rfl rfl (by rintro r ⟨⟩; exact hview) hx

variable [LogStore σ]

theorem counts_requestFor (hn : n.Fits) (m : Moment) (peer : NodeId) :
    Counts o 0 0 X (requestFor m peer) (fun _ _ => True) n := by
  rw [Counts, requestFor, Action.wp_bind, Action.wp_get]
  split
  · rename_i r hrole
    split
    · exact Counts.fail hn _
    · exact ⟨.refl o hn, trivial⟩
    · rename_i q r' hq
      obtain ⟨p, request, -, -, -, -, rfl⟩ := Replication.nextRequest_eq_some hq
      have hview := (hn.view r hrole).update peer fun p hp => (⟨hp.next, hp.behind⟩ :
        Progress.Fits { p with inFlightSince := some m.now })
      exact Counts.setView hn hview fun hn => .pure hn trivial
  · exact ⟨.refl o hn, trivial⟩

theorem counts_requestTo (hn : n.Fits) (m : Moment) (peer : NodeId) :
    Counts o 0 0 X (do pure (← requestFor m peer).toList) (fun _ _ => True) n :=
  (counts_requestFor hn m peer).seq fun _ _ hn _ => .pure hn trivial

theorem counts_requestsFor (hn : n.Fits) (m : Moment) (names : List NodeId) :
    Counts o 0 0 X (requestsFor m names) (fun _ _ => True) n := by
  induction names generalizing n with
  | nil => exact .pure hn trivial
  | cons peer rest ih =>
    exact (counts_requestFor hn m peer).seq fun _ _ hn _ => (ih hn).seq fun _ _ hn _ => .pure hn trivial

theorem counts_replicate (hn : n.Fits) (m : Moment) : Counts o 0 0 X (replicate m) (fun _ _ => True) n := by
  rw [Counts, replicate, Action.wp_bind, Action.wp_get]
  exact counts_requestsFor hn m n.peers

theorem counts_heartbeat (hn : n.Fits) (m : Moment) : Counts o 0 0 X (heartbeat m) (fun _ _ => True) n := by
  rw [Counts, heartbeat, Action.wp_bind, Action.wp_get]
  split
  · rename_i r hrole
    have hview : (r.checkQuorum m.now n.config.electionMax).2.Fits := hn.view r hrole
    exact Counts.setView hn hview fun hn => counts_replicate hn m
  · exact ⟨.refl o hn, trivial⟩

omit [LogStore σ] in
/-- An operation of the log that puts no greater number into it. -/
theorem Counts.onLog (hn : n.Fits) {op : LogAction σ α} (hop : wp op (fun _ log => n.log.Narrows log)
    (fun f log => n.log.Narrows log ∧ (f = .abort → X { n with log })) n.log) :
    Counts o 0 0 X (Node.onLog op) (fun _ _ => True) n := by
  rw [Counts, wp_onLog]
  exact Action.wp_mono hop (fun _ _ h => ⟨.narrows hn h, trivial⟩) fun _ _ h => ⟨.narrows hn h.1, h.2⟩

omit [LogStore σ] in
/-- What is counted for a majority may lie beyond the log. -/
theorem counts_advanceCommit (hn : n.Fits)
    (hX : ∀ r, n.role = .leader r → n.log.termAt? (r.majorityMatch n.log.lastIndex) = some n.term →
      n.log.lastIndex < r.majorityMatch n.log.lastIndex → X n) :
    Counts o 0 0 X advanceCommit (fun _ _ => True) n := by
  rw [Counts, advanceCommit, Action.wp_bind, Action.wp_get]
  split
  · rename_i r hrole
    rw [Action.wp_ite]
    split
    · rename_i hnew
      simp only [Bool.and_eq_true, decide_eq_true_eq] at hnew
      refine Counts.onLog hn (Action.wp_mono (Log.wp_setCommitIndex_sums _ n.log) (fun _ _ h => h) ?_)
      rintro f _ ⟨rfl, hf⟩
      exact ⟨.refl n.log, fun h => hX r hrole hnew.2 (hf h)⟩
    · exact ⟨.refl o hn, trivial⟩
  · exact ⟨.refl o hn, trivial⟩

variable (hσ : NeverAborts σ)

include hσ

theorem counts_append (hn : n.Fits) (term : Term) (command : Bytes)
    (hX : wordLimit ≤ n.log.lastIndex + 1 → ∀ n', X n') :
    Counts o 0 1 X (onLog (Log.appendAsLeader term command)) (fun _ n' => ∃ s, n' = { n with log := { n.log with
      store := s, entries := n.log.entries ++ [⟨n.log.lastIndex + 1, term, command⟩] } }) n := by
  rw [Counts, wp_onLog]
  refine Action.wp_mono (Log.wp_appendAsLeader_sums hσ term command n.log) ?_ ?_
  · rintro i _ ⟨hroom, s, rfl⟩
    refine ⟨.log hn ?_ ?_ fun _ hl => ?_, s, rfl⟩
    · exact hn.log.append (by simpa using hroom) s
    · intro t i _ hl
      have hnext : n.log.lastIndex + 1 < i + 1 := Nat.succ_lt_succ hl.lastIndex
      exact (hl.mono (Nat.le_succ i)).append (by simpa using hnext) s
    · rw [Log.lastIndex_of_numbered hl]
      exact hl.append (.singleton term command)
  · rintro f _ ⟨hf, s, rfl⟩
    exact ⟨(Climbs.narrows hn (.withStore n.log s)).mono le_rfl (Nat.zero_le 1), fun h => hX (hf h) _⟩

theorem counts_becomeLeader (hn : n.Fits) (hrole : n.role.kind = .candidate)
    (hX : wordLimit ≤ n.log.lastIndex + 1 → ∀ n', X n') (m : Moment) :
    Counts o 0 1 X (becomeLeader m) (fun _ _ => True) n := by
  rw [Counts, becomeLeader, Action.wp_bind, Action.wp_get, Action.wp_bind]
  refine Action.wp_mono (Replication.wp_start_sums n.peers n.log.lastIndex m.now) ?_ ?_
  · rintro r n ⟨rfl, hview, hnone⟩
    rw [Action.wp_bind, wp_setRole (by rw [hrole]; rfl)]
    refine Counts.turn hn rfl rfl (by rintro _ ⟨⟩; exact hview) fun hn => ?_
    refine (counts_append hσ hn n.term [] hX).bind (t := 0) (i := 0) ?_
    rintro _ _ hn' ⟨s, rfl⟩
    refine (counts_advanceCommit hn' ?_).seq fun _ _ hn _ => counts_replicate hn m
    rintro _ ⟨⟩ - hlast
    refine absurd hlast (not_lt.mpr (Replication.majorityMatch_le fun p hp => ?_))
    rw [hnone p hp]
    exact Nat.zero_le _
  · rintro f n ⟨rfl, hfull⟩
    exact ⟨(Climbs.refl o hn).mono le_rfl (Nat.zero_le 1), fun _ => hX hfull _⟩

theorem counts_adopt (hn : n.Fits) {term : Term} {vote : Option NodeId} (hle : n.term ≤ term)
    (hfits : term < wordLimit) (hbelow : ∀ t i, o.Below t i → n.Below t i → term < t + dt) :
    Counts o dt 0 X (adopt term vote)
      (fun _ n' => ∃ s, n' = { n with term, vote, log := { n.log with store := s } }) n := by
  have hclimbs : ∀ s, Climbs o dt 0 n { n with term, vote, log := { n.log with store := s } } := fun s => {
    fits := ⟨⟨hfits, hn.log.withStore s⟩, hn.view⟩
    term := hle
    below := fun t i ho h => ⟨hbelow t i ho h, h.log.withStore s⟩
    sequence := fun _ h => h }
  simp only [Counts, adopt, Action.wp_bind, Action.wp_modify, wp_onLog]
  refine Action.wp_mono (Log.wp_saveHard_never hσ _ n.log) ?_ ?_
  · rintro - _ ⟨s, rfl⟩
    exact ⟨hclimbs s, s, rfl⟩
  · rintro f _ ⟨hf, s, rfl⟩
    exact ⟨hclimbs s, fun h => absurd h hf⟩

theorem counts_becomeFollower (hn : n.Fits) {term : Term} (hterm : o.Tells term) (m : Moment)
    (leader : Option NodeId) :
    Counts o 0 0 X (becomeFollower m term leader) (fun _ n' => ∃ s, n'.log = { n.log with store := s }) n := by
  rw [Counts, becomeFollower, Action.wp_bind, Action.wp_get, Action.wp_ite]
  split
  · rename_i hlt
    refine (counts_adopt hσ hn hlt.le hterm.fits fun t i ho _ => hterm.below t i ho).seq ?_
    rintro _ _ hn' ⟨s, rfl⟩
    rw [Counts, Action.wp_bind, wp_setRole (mayBecome_follower _), resetDeadline, Action.wp_modify]
    exact ⟨.turn hn' rfl rfl (by rintro _ ⟨⟩), s, rfl⟩
  · rw [Action.wp_bind, wp_setRole (mayBecome_follower _), resetDeadline, Action.wp_modify]
    exact ⟨.turn hn rfl rfl (by rintro _ ⟨⟩), n.log.store, rfl⟩

theorem counts_follow (hn : n.Fits) {term : Term} (hterm : o.Tells term) (m : Moment) (leader : NodeId) :
    Counts o 0 0 X (follow m term leader) (fun _ n' => ∃ s, n'.log = { n.log with store := s }) n := by
  rw [Counts, follow, Action.wp_bind, Action.wp_get, Action.wp_ite]
  split
  · exact counts_becomeFollower hσ hn hterm m (some leader)
  · rw [Action.wp_bind, wp_setRole (mayBecome_follower _), resetDeadline, Action.wp_modify]
    exact ⟨.turn hn rfl rfl (by rintro _ ⟨⟩), n.log.store, rfl⟩

theorem counts_stepDown (hn : n.Fits) {term : Term} (hterm : o.Tells term) (m : Moment) :
    Counts o 0 0 X (do becomeFollower m term none; pure ([] : List Outbound)) (fun _ _ => True) n :=
  (counts_becomeFollower hσ hn hterm m none).seq fun _ _ hn _ => .pure hn trivial

/-! ## Events -/

/-- Why an event aborts. -/
def Blames (n : Node σ μ) (o : Occasion) (n' : Node σ μ) : Prop :=
  n.Overruns o ∨ n'.Lacks o ∧ ¬ (o.Consecutive ∧ n.log.InSequence)

omit hσ [LogStore σ] in
/-- A count beyond the log is taken for one within it only if the log is not in sequence. -/
theorem lacks_count {view : Replication} {r : Response} (hrole : n'.role = .leader view)
    (hterm : n'.log.termAt? (view.majorityMatch n'.log.lastIndex) = some n'.term)
    (hlast : n'.log.lastIndex < view.majorityMatch n'.log.lastIndex) :
    n'.Lacks (.response r) ∧ ¬ ((Occasion.response r).Consecutive ∧ n'.log.InSequence) := by
  refine ⟨.count hrole hterm hlast, fun h => ?_⟩
  exact not_le.mpr hlast (h.2.le_lastIndex (by rw [hterm]; rfl))

theorem counts_startElection (hn : n.Fits) (m : Moment) :
    Counts (.act .stand) 1 1 (n.Blames (.act .stand)) (startElection m) (fun _ _ => True) n := by
  rw [Counts, startElection, Action.wp_bind, Action.wp_get, Action.wp_ite]
  split
  · exact ⟨(Climbs.refl _ hn).mono (Nat.zero_le 1) (Nat.zero_le 1), trivial⟩
  rename_i hleader
  have hfree : n.isLeader = false := by simpa using hleader
  rw [Action.wp_bind, Action.wp_add]
  split
  · rename_i hroom
    refine (counts_adopt hσ hn (Nat.le_succ _) hroom fun t i _ h => Nat.succ_lt_succ h.term).bind
      (t := 0) (i := 1) ?_
    rintro _ _ hn' ⟨s, rfl⟩
    rw [Counts, Action.wp_bind, wp_setRole (mayBecome_candidate hfree), Action.wp_bind, resetDeadline, Action.wp_modify]
    refine Counts.turn hn' rfl rfl (by rintro _ ⟨⟩) fun hn => ?_
    rw [Counts, Action.wp_ite]
    split
    · rename_i hmajority
      exact counts_becomeLeader hσ hn rfl (fun hfull _ => Or.inl (.alone hfree hmajority hfull)) m
    · exact ⟨(Climbs.refl _ hn).mono le_rfl (Nat.zero_le 1), trivial⟩
  · rename_i hfull
    exact ⟨(Climbs.refl _ hn).mono (Nat.zero_le 1) (Nat.zero_le 1),
      fun _ => Or.inl (.term hfree (not_lt.mp hfull))⟩

theorem counts_decideVote (hn : n.Fits) (m : Moment) (q : VoteRequest) :
    Counts o 0 0 X (decideVote m q) (fun _ _ => True) n := by
  rw [Counts, decideVote, Action.wp_bind, Action.wp_get, Action.wp_ite]
  split
  · simp only [Action.wp_ite]
    split
    · refine (counts_adopt hσ hn le_rfl hn.term fun _ _ _ h => h.term).seq fun _ n' hn' _ => ?_
      rw [Counts, Action.wp_bind, resetDeadline, Action.wp_modify]
      exact ⟨.turn hn' rfl rfl hn'.view, trivial⟩
    · rw [Action.wp_bind, resetDeadline, Action.wp_modify]
      exact ⟨.turn hn rfl rfl hn.view, trivial⟩
  · exact ⟨.refl o hn, trivial⟩

theorem counts_onVoteRequest (hn : n.Fits) (m : Moment) {q : VoteRequest}
    (ho : (Occasion.request (.vote q)).Fits) :
    Counts (.request (.vote q)) 0 0 X (onVoteRequest m q) (fun _ _ => True) n := by
  rw [Counts, onVoteRequest_eq, Action.wp_bind, Action.wp_get, Action.wp_ite]
  split
  · exact ⟨.refl _ hn, trivial⟩
  rw [Action.wp_bind, Action.wp_get, Action.wp_ite]
  split
  · exact (counts_becomeFollower hσ hn ho.tells_request m none).seq fun _ _ hn _ => counts_decideVote hσ hn m q
  · exact counts_decideVote hσ hn m q

theorem counts_onVoteReply (hn : n.Fits) (m : Moment) (peer : NodeId) {sentTerm : Term} {r : VoteReply}
    (ho : (Occasion.response (.vote peer sentTerm r)).Fits) :
    Counts (.response (.vote peer sentTerm r)) 0 1 (n.Blames (.response (.vote peer sentTerm r)))
      (onVoteReply m peer sentTerm r) (fun _ _ => True) n := by
  have hsame := (Climbs.refl (.response (.vote peer sentTerm r)) hn).mono le_rfl (Nat.zero_le 1)
  rw [Counts, onVoteReply, Action.wp_bind, Action.wp_get, Action.wp_ite]
  split
  · exact (counts_stepDown hσ hn (ho.tells_response rfl) m).mono le_rfl (Nat.zero_le 1) fun _ h => h
  rename_i hterm
  rw [Action.wp_ite]
  split
  · exact ⟨hsame, trivial⟩
  rename_i hcounts
  simp only [ne_eq, Bool.or_eq_true, decide_eq_true_eq, not_or, not_not, Bool.not_eq_true',
    Bool.not_eq_false] at hcounts
  obtain ⟨rfl, hgranted⟩ := hcounts
  split
  · rename_i votes hrole
    dsimp only
    have hoffice : n.hasMajority (if votes.contains peer then votes else votes ++ [peer]).length = true →
        wordLimit ≤ n.log.lastIndex + 1 → n.Overruns (.response (.vote peer n.term r)) :=
      .office hrole (not_lt.mp hterm) hgranted
    generalize (if votes.contains peer then votes else votes ++ [peer]) = votes' at hoffice ⊢
    rw [Action.wp_bind, Action.wp_set]
    refine Counts.turn hn rfl rfl (by rintro _ ⟨⟩) fun hn => ?_
    rw [Counts, Action.wp_ite]
    split
    · rename_i hmajority
      exact counts_becomeLeader hσ hn rfl (fun hfull _ => Or.inl (hoffice hmajority hfull)) m
    · exact ⟨(Climbs.refl _ hn).mono le_rfl (Nat.zero_le 1), trivial⟩
  · exact ⟨hsame, trivial⟩

theorem counts_onAppendRequest (hn : n.Fits) (m : Moment) {q : AppendRequest}
    (ho : (Occasion.request (.append q)).Fits) : Counts (.request (.append q)) 0 0 (n.Blames (.request (.append q)))
      (onAppendRequest m q) (fun _ _ => True) n := by
  rw [Counts, onAppendRequest, Action.wp_bind, Action.wp_get, Action.wp_ite]
  split
  · exact ⟨.refl _ hn, trivial⟩
  rename_i hterm
  refine (counts_follow hσ hn ho.tells_request m q.leader).seq ?_
  rintro _ n₁ hn₁ ⟨s, hlog⟩
  have hdraws : ∀ {log}, Log.Draws q.entries n₁.log log →
      (NumberedFrom q.prevIndex q.entries → n₁.log.InSequence → log.InSequence) →
      Climbs (.request (.append q)) 0 0 n₁ { n₁ with log } := fun h hsequence =>
    .log hn₁ (h _ (fun e he => (ho.2 e he).1) hn₁.log) (fun _ i hbelow hl => h i hbelow.2.2 hl) hsequence
  have hoverruns : n₁.log.ReconcileOverflows q.prevIndex q.prevTerm q.entries.length →
      n.Overruns (.request (.append q)) := by
    rw [hlog]
    rintro (hfull | ⟨ht, hne, hfull⟩)
    · exact .append (not_lt.mp hterm) (.batch hfull)
    · exact .append (not_lt.mp hterm) (.hint ht hne hfull)
  have hsums := Log.wp_reconcile_sums hσ hn₁.log.lastIndex q.prevIndex q.prevTerm q.entries q.commit
  have hsequence := fun (hb : NumberedFrom q.prevIndex q.entries) hl =>
    Log.wp_reconcile_sequence hσ hn₁.log.lastIndex hl hb q.prevTerm q.commit
  rw [Counts, Action.wp_bind, Action.wp_get]
  split
  · rename_i log hres
    have h := Action.wp_ok hsums hres
    refine ⟨hdraws h fun hb hl => ?_, trivial⟩
    have hkept := Action.wp_ok (hsequence hb hl) hres
    exact hkept
  · rename_i hint log hres
    have h := Action.wp_error hsums hres
    exact ⟨hdraws h.1 fun hb hl => (Action.wp_error (hsequence hb hl) hres).1, trivial⟩
  · rename_i f log hother hres
    obtain ⟨h, hwhy⟩ := Action.wp_error hsums hres
    refine ⟨hdraws h fun hb hl => (Action.wp_error (hsequence hb hl) hres).1, fun hf => ?_⟩
    obtain hfull | hends := hwhy hf
    · exact Or.inl (hoverruns hfull)
    · by_cases hseq : (Occasion.request (.append q)).Consecutive ∧ n.log.InSequence
      · have hl : n₁.log.InSequence := hlog ▸ hseq.2
        exact Or.inl (hoverruns ((Action.wp_error (hsequence hseq.1 hl) hres).2 hf))
      · exact Or.inr ⟨.append hends, hseq⟩

theorem counts_onAppendReply (hn : n.Fits) (m : Moment) (peer : NodeId) {sent : AppendSent} {r : AppendReply}
    (ho : (Occasion.response (.append peer sent r)).Fits) :
    Counts (.response (.append peer sent r)) 0 0 (n.Blames (.response (.append peer sent r)))
      (onAppendReply m peer sent r) (fun _ _ => True) n := by
  rw [Counts, onAppendReply, Action.wp_bind, Action.wp_get, Action.wp_ite]
  split
  · exact counts_stepDown hσ hn (ho.tells_response rfl) m
  rename_i hterm
  rw [Action.wp_ite]
  split
  · exact ⟨.refl _ hn, trivial⟩
  rename_i hsent
  split
  · rename_i view hrole
    rw [Action.wp_ite]
    split
    · rename_i hsuccess
      rw [Action.wp_bind]
      refine Action.wp_mono (Replication.wp_onAppendSuccess_sums (hn.view view hrole)) ?_ ?_
      · rintro view' n ⟨rfl, hview⟩
        refine Counts.setView hn hview fun hn => (counts_advanceCommit hn ?_).seq fun _ n' hn' _ => ?_
        · intro r' hrole' hterm' hlast
          exact Or.inr (lacks_count hrole' hterm' hlast)
        · rw [Counts, Action.wp_ite]
          split
          · exact counts_requestTo hn' m peer
          · exact ⟨.refl _ hn', trivial⟩
      · rintro f n ⟨rfl, hpeer, hfull⟩
        exact ⟨.refl _ hn, fun _ => Or.inl (.stored hrole hpeer (not_lt.mp hterm) (not_not.mp hsent) hsuccess hfull)⟩
    · rename_i hsuccess
      rw [Action.wp_bind]
      refine Action.wp_mono (Replication.wp_onAppendReject_sums (hn.view view hrole) ho.1.2.1) ?_ ?_
      · rintro view' n ⟨rfl, hview⟩
        exact Counts.setView hn hview fun hn => .pure hn trivial
      · rintro f n ⟨rfl, hpeer, hint, hhint, hfull⟩
        exact ⟨.refl _ hn, fun _ => Or.inl (.rejected hrole hpeer (not_lt.mp hterm) (not_not.mp hsent)
          (by simpa using hsuccess) hhint hfull)⟩
  · exact ⟨.refl _ hn, trivial⟩

omit hσ [LogStore σ] in
theorem counts_onUnreachable (hn : n.Fits) (peer : NodeId) (sentTerm : Term) :
    Counts o 0 0 X (onUnreachable peer sentTerm) (fun _ _ => True) n := by
  rw [Counts, onUnreachable, Action.wp_bind, Action.wp_get, Action.wp_ite]
  split
  · split
    · rename_i view hrole
      have hview := (hn.view view hrole).update peer fun p hp => (⟨hp.next, hp.behind⟩ :
        Progress.Fits { p with inFlightSince := none })
      exact ⟨.turn hn rfl rfl (by rintro _ ⟨⟩; exact hview), trivial⟩
    · exact ⟨.refl o hn, trivial⟩
  · exact ⟨.refl o hn, trivial⟩

theorem counts_onInstallReply (hn : n.Fits) (m : Moment) (peer : NodeId) {sentTerm : Term} {index : Index}
    {r : InstallReply} (ho : (Occasion.response (.install peer sentTerm index r)).Fits) :
    Counts (.response (.install peer sentTerm index r)) 0 0 (n.Blames (.response (.install peer sentTerm index r)))
      (onInstallReply m peer sentTerm index r) (fun _ _ => True) n := by
  rw [Counts, onInstallReply, Action.wp_bind, Action.wp_get, Action.wp_ite]
  split
  · exact counts_stepDown hσ hn (ho.tells_response rfl) m
  rename_i hterm
  rw [Action.wp_ite]
  split
  · exact ⟨.refl _ hn, trivial⟩
  rename_i hsent
  obtain rfl := not_not.mp hsent
  split
  · rename_i view hrole
    rw [Action.wp_bind]
    refine Action.wp_mono (Replication.wp_confirm_sums (hn.view view hrole)) ?_ ?_
    · rintro view' n ⟨rfl, hview⟩
      refine Counts.setView hn hview fun hn => (counts_advanceCommit hn ?_).seq fun _ n' hn' _ => ?_
      · intro r' hrole' hterm' hlast
        exact Or.inr (lacks_count hrole' hterm' hlast)
      · exact counts_requestTo hn' m peer
    · rintro f n ⟨rfl, hpeer, hfull⟩
      exact ⟨.refl _ hn, fun _ => Or.inl (.installed hrole hpeer (not_lt.mp hterm) hfull)⟩
  · exact ⟨.refl _ hn, trivial⟩

variable [StateMachine μ]

theorem counts_onInstallRequest (hn : n.Fits) (m : Moment) {q : InstallRequest}
    (ho : (Occasion.request (.install q)).Fits) :
    Counts (.request (.install q)) 0 0 (n.Blames (.request (.install q))) (onInstallRequest m q) (fun _ _ => True)
      n := by
  rw [Counts, onInstallRequest, Action.wp_bind, Action.wp_get, Action.wp_ite]
  split
  · exact ⟨.refl _ hn, trivial⟩
  rename_i hterm
  refine (counts_follow hσ hn ho.tells_request m q.leader).seq ?_
  rintro _ n₁ hn₁ ⟨s, hlog⟩
  rw [Counts, Action.wp_bind, wp_onLog]
  refine Action.wp_mono (Action.wp_and (Log.wp_install_numbers ⟨q.index, q.snapshotTerm, q.data⟩ n₁.log)
    (Log.wp_install_sums hσ ⟨q.index, q.snapshotTerm, q.data⟩ n₁.log)) ?_ ?_
  · rintro taken log ⟨⟨hbelow, hsequence⟩, -⟩
    have hclimbs : Climbs (.request (.install q)) 0 0 n₁ { n₁ with log } :=
      .log hn₁ (hbelow _ ho.2.2.1 hn₁.log) (fun _ i hq hl => hbelow i hq.2 hl) fun _ => hsequence
    simp only [Action.wp_ite, Action.wp_bind, Action.wp_get, Action.wp_pure]
    split
    · split
      · exact ⟨hclimbs, by rintro ⟨⟩⟩
      · rename_i machine _
        have hrestored : Climbs (.request (.install q)) 0 0 { n₁ with log }
            { n₁ with log, machine, appliedSinceSnapshot := 0 } := .turn hclimbs.fits rfl rfl hclimbs.fits.view
        exact ⟨hclimbs.trans hrestored, trivial⟩
    · exact ⟨hclimbs, trivial⟩
  · rintro f log ⟨hnarrows, hwhy⟩
    refine ⟨.narrows hn₁ hnarrows, fun hf => Or.inl ?_⟩
    obtain ⟨hahead, hdiffers, hfull⟩ := hwhy hf
    rw [hlog] at hahead hdiffers
    exact .install (not_lt.mp hterm) ⟨hahead, hdiffers, hfull⟩

theorem counts_propose (hn : n.Fits) (command : Bytes) :
    Counts o 0 1 (fun _ => True) (propose command) (fun _ _ => True) n := by
  have hrefused := (Climbs.refl o hn).mono le_rfl (Nat.zero_le 1)
  rw [Counts, propose, Action.wp_bind, Action.wp_get, Action.wp_ite]
  split
  · exact ⟨hrefused, by rintro ⟨⟩⟩
  rw [Action.wp_ite]
  split
  · exact ⟨hrefused, by rintro ⟨⟩⟩
  split
  · exact ⟨hrefused, by rintro ⟨⟩⟩
  · refine (counts_append hσ hn n.term command fun _ _ => trivial).bind (t := 0) (i := 0) ?_
    intro _ _ hn' _
    exact (counts_advanceCommit hn' fun _ _ _ _ => trivial).seq fun _ _ hn _ => .pure hn trivial

omit hσ in
theorem counts_takeSnapshot (hn : n.Fits) : Counts o 0 0 (fun _ => True) takeSnapshot (fun _ _ => True) n := by
  rw [Counts, takeSnapshot, Action.wp_bind, Action.wp_get, Action.wp_ite]
  split
  · exact ⟨.refl o hn, trivial⟩
  split
  · exact ⟨.refl o hn, by rintro ⟨⟩⟩
  · refine (Counts.onLog hn (Action.wp_mono (Log.wp_compact_narrows _ n.log) (fun _ _ h => h)
      fun _ _ h => ⟨h, fun _ => trivial⟩)).seq fun _ n' hn' _ => ?_
    exact ⟨.turn hn' rfl rfl hn'.view, trivial⟩

omit hσ [LogStore σ] in
theorem counts_applyNext (hn : n.Fits) (count : Nat) :
    Counts o 0 0 (fun _ => True) (applyNext count) (fun _ _ => True) n := by
  induction count generalizing n with
  | zero => exact .pure hn trivial
  | succ count ih =>
    refine (Counts.onLog hn (Action.wp_mono (Log.wp_nextCommitted_narrows n.log) (fun _ _ h => h) ?_)).seq ?_
    · rintro f _ rfl
      exact ⟨.refl n.log, fun _ => trivial⟩
    rintro (_ | e) n₁ hn₁ -
    · exact .pure hn₁ trivial
    · rw [Counts, Action.wp_bind, Action.wp_modify, Action.wp_ite]
      split
      · exact Counts.turn hn₁ rfl rfl hn₁.view ih
      · rw [Action.wp_bind, Action.wp_get, Action.wp_bind, Action.wp_set]
        exact Counts.turn hn₁ rfl rfl hn₁.view fun hn => (ih hn).seq fun _ _ hn _ => .pure hn trivial

omit hσ in
theorem counts_applyCommitted (hn : n.Fits) :
    Counts o 0 0 (fun _ => True) applyCommitted (fun _ _ => True) n := by
  rw [Counts, applyCommitted, Action.wp_bind, Action.wp_get]
  refine (counts_applyNext hn _).seq fun applied n' hn' _ => ?_
  rw [Counts, Action.wp_bind, Action.wp_get]
  simp only [Action.wp_ite, Action.wp_bind, Action.wp_pure]
  split
  · exact counts_takeSnapshot hn'
  · exact ⟨.refl o hn', trivial⟩

/-- What one event does to the numbers of a node, however it ends. -/
theorem counts_handle (hn : n.Fits) {o : Occasion} (ho : o.Fits) (m : Moment) :
    Counts o 1 1 (fun n' => o.Outward → n.Blames o n') (o.handle m) (fun _ _ => True) n := by
  have hmap : ∀ {γ δ : Type} {x : NodeAction σ μ γ} {Y : Node σ μ → Prop} {dt di : Nat} (g : γ → δ),
      Counts o dt di Y x (fun _ _ => True) n → dt ≤ 1 → di ≤ 1 → (∀ n', Y n' → o.Outward → n.Blames o n') →
        Counts o 1 1 (fun n' => o.Outward → n.Blames o n') (g <$> x) (fun _ _ => True) n := by
    intro γ δ x Y dt di g hx ht hi hY
    rw [Counts, Action.wp_map]
    exact hx.mono ht hi hY
  rcases o with (_ | _ | _ | command | _ | _) | ⟨q | q | q⟩ |
    ⟨peer, sentTerm, r⟩ | ⟨peer, sent, r⟩ | ⟨peer, sentTerm, index, r⟩ | ⟨peer, sentTerm⟩
  · exact hmap _ (counts_startElection hσ hn m) le_rfl le_rfl fun _ h _ => h
  · exact hmap _ (counts_heartbeat hn m) (Nat.zero_le 1) (Nat.zero_le 1) fun _ h _ => h
  · exact hmap _ (counts_replicate hn m) (Nat.zero_le 1) (Nat.zero_le 1) fun _ h _ => h
  · exact hmap _ (counts_propose hσ hn command) (Nat.zero_le 1) le_rfl fun _ _ => False.elim
  · exact hmap _ (counts_applyCommitted hn) (Nat.zero_le 1) (Nat.zero_le 1) fun _ _ => False.elim
  · exact hmap _ (counts_takeSnapshot hn) (Nat.zero_le 1) (Nat.zero_le 1) fun _ _ => False.elim
  · refine hmap _ ?_ (Nat.zero_le 1) (Nat.zero_le 1) fun _ h _ => h
    exact (counts_onVoteRequest hσ hn m ho).seq fun _ _ hn _ => .pure hn trivial
  · refine hmap _ ?_ (Nat.zero_le 1) (Nat.zero_le 1) fun _ h _ => h
    exact (counts_onAppendRequest hσ hn m ho).seq fun _ _ hn _ => .pure hn trivial
  · refine hmap _ ?_ (Nat.zero_le 1) (Nat.zero_le 1) fun _ h _ => h
    exact (counts_onInstallRequest hσ hn m ho).seq fun _ _ hn _ => .pure hn trivial
  · exact hmap _ (counts_onVoteReply hσ hn m peer ho) (Nat.zero_le 1) le_rfl fun _ h _ => h
  · exact hmap _ (counts_onAppendReply hσ hn m peer ho) (Nat.zero_le 1) (Nat.zero_le 1) fun _ h _ => h
  · exact hmap _ (counts_onInstallReply hσ hn m peer ho) (Nat.zero_le 1) (Nat.zero_le 1) fun _ h _ => h
  · refine hmap _ ?_ (Nat.zero_le 1) (Nat.zero_le 1) fun _ h _ => h
    exact (counts_onUnreachable hn peer sentTerm).seq fun _ _ hn _ => .pure hn trivial

theorem climbs_after (hn : n.Fits) (ho : o.Fits) (m : Moment) : Climbs o 1 1 n ((o.handle m).after n) :=
  Action.of_after (Action.wp_mono (counts_handle hσ hn ho m) (fun _ _ h => h.1) fun _ _ h => h.1)

end RaftNode.Node
