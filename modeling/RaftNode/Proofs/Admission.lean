import RaftNode.Machine.KeyValue
import RaftNode.Proofs.Bookkeeping
import RaftNode.Proofs.EventWrites
import RaftNode.Proofs.Excerpts
/-!
# What enters the logs

A command is checked once, by the leader that a client hands it to. Every entry in any log is one of those commands, or
it opens its term and has no command. What opens a term comes before all else of the term, so there is one such entry
at most.
-/
namespace RaftNode

open History (Sound Extends)

variable {h h' : History} {F G : List Entry} {d e : Entry} {k : ℕ} {T : Term}

/-! ## Stores that lose nothing -/

/-- Entries have been added at most, behind the same snapshot. -/
structure Persisted.Lengthens (p q : Persisted) : Prop where
  snapshot : q.snapshot = p.snapshot
  entries : p.entries <+: q.entries

theorem Persisted.Lengthens.refl (p : Persisted) : p.Lengthens p := ⟨rfl, List.prefix_refl _⟩

theorem Write.hard_preserves_lengthens (p : Persisted) (hard : HardState) :
    (Write.hard hard).Preserves p.Lengthens := by
  rintro q _ hq (rfl | ⟨_, ⟨⟩, rfl⟩) <;> exact ⟨hq.snapshot, hq.entries⟩

theorem Write.append_preserves_lengthens (p : Persisted) (es : List Entry) :
    (Write.append es).Preserves p.Lengthens := by
  rintro q _ hq (rfl | ⟨_, ⟨⟩ | ⟨-⟩, rfl⟩)
  · exact hq
  · exact ⟨hq.snapshot, hq.entries.trans (List.prefix_append _ _)⟩
  · exact ⟨hq.snapshot, hq.entries.trans (List.prefix_append _ _)⟩

/-- A longer store stands for a longer log. -/
theorem Persisted.Lengthens.isPrefix {p q : Persisted} (h : p.Lengthens q) (hp : p.StandsFor F)
    (hq : q.StandsFor G) (hFG : Agrees F G) : F <+: G := by
  have hcovered : q.covered = p.covered := by rw [covered, h.snapshot]; rfl
  have hterm : q.coveredTerm = p.coveredTerm := by rw [coveredTerm, h.snapshot]; rfl
  have hbefore : F.take p.covered = G.take p.covered := by
    refine hFG _ hp.covered_le (hcovered ▸ hq.covered_le) ?_
    rw [← hp.coveredTerm, ← hterm, hq.coveredTerm, hcovered]
  have hbehind : F.drop p.covered <+: G.drop p.covered := by
    rw [← hp.entries, ← hcovered, ← hq.entries]
    exact h.entries
  rw [← List.take_append_drop p.covered F, ← List.take_append_drop p.covered G, hbefore]
  exact (List.prefix_append_right_inj _).mpr hbehind

theorem Persisted.StandsFor.exists_getElem? {p : Persisted} (h : p.StandsFor F) (he : e ∈ p.entries) :
    ∃ k, F[k]? = some e ∧ e.index = k + 1 := by
  rw [h.entries] at he
  obtain ⟨k, hk⟩ := List.mem_iff_getElem?.mp (List.mem_of_mem_drop he)
  exact ⟨k, hk, h.numbered k e hk⟩

/-! ## The first entry of a term -/

namespace History

/-- The entry opens its term: what the leader of the term has before it is of earlier terms. -/
def Opens (h : History) (e : Entry) : Prop :=
  ∃ P, P <+: h.led e.term ∧ e.index = P.length + 1 ∧ ∀ d ∈ P, d.term < e.term

theorem Opens.extends (hx : Extends h h') (ho : h.Opens e) : h'.Opens e := by
  obtain ⟨P, hP, hrest⟩ := ho
  exact ⟨P, hP.trans (hx.led e.term), hrest⟩

/-- Nothing of the term is found before the entry that opens it, in any log. -/
theorem Opens.le (ho : h.Opens e) (hF : h.Path F) (hd : F[k]? = some d) (hterm : d.term = e.term) :
    e.index ≤ k + 1 := by
  obtain ⟨P, hP, hindex, hearlier⟩ := ho
  by_contra hbefore
  have hled : F.take (k + 1) <+: h.led e.term := hterm ▸ hF k d hd
  have hshort : F.take (k + 1) <+: P :=
    List.prefix_of_prefix_length_le hled hP ((List.length_take_le _ _).trans (by lia))
  have hmem : d ∈ F.take (k + 1) := List.mem_of_getElem? ((List.getElem?_take_of_lt (Nat.lt_succ_self k)).trans hd)
  exact (hearlier d (hshort.mem hmem)).ne hterm

/-- An entry right behind a log of earlier terms opens its own. -/
theorem Path.opens (hG : h.Path G) (hFG : F <+: G) (hearlier : ∀ d ∈ F, d.term < e.term)
    (he : G[F.length]? = some e) (hindex : e.index = F.length + 1) : h.Opens e := by
  refine ⟨F, ?_, hindex, hearlier⟩
  have hF : F <+: G.take (F.length + 1) := List.prefix_take_iff.mpr ⟨hFG, Nat.le_succ _⟩
  exact hF.trans (hG F.length e he)

end History

/-! ## Members -/

variable {σ μ : Type} [LogStore σ] [LawfulStore σ] {members : Finset NodeId} {i : NodeId} {n : Node σ μ}

/-- A node that may win a term has entries of earlier terms only. -/
theorem Node.Occasion.Wins.earlier {o : Node.Occasion} (hwins : o.Wins n T) (hs : Sound members h)
    (hr : Runs members h i n) : ∀ d ∈ h.log i, d.term < T := by
  cases hwins with
  | stand =>
    intro d hd
    have := hs.paths.log_term i d hd
    rw [hr.term] at this
    lia
  | count hrole =>
    have hc := hr.role
    rw [Holds, hrole] at hc
    rw [← hc.stood]
    exact hs.paths.stood_term i n.term

omit [LogStore σ] [LawfulStore σ] in
theorem Log.entriesFrom_subset (l : Log σ) (start : Index) (most : Nat) : l.entriesFrom start most ⊆ l.entries := by
  rw [Log.entriesFrom]
  split
  · exact List.nil_subset _
  · exact List.Subset.trans (List.take_subset _ _) (List.drop_subset _ _)

omit [LawfulStore σ] in
/-- What a leader sends is in its log. -/
theorem Node.Asks.subset {target : NodeId} {q : AppendRequest} (h : n.Asks ⟨target, .append q⟩) :
    q.entries ⊆ n.log.entries := by
  obtain ⟨v, hv⟩ | ⟨view, p, -, -, hrequest⟩ := h
  · cases hv
  · obtain ⟨-, snap, -, hq⟩ | ⟨-, prevTerm, -, hq⟩ := Replication.requestAt_eq_ok hrequest
    · cases hq
    · cases hq
      exact n.log.entriesFrom_subset _ _

variable [StateMachine μ]

/-- Why an entry is in a log. -/
inductive Admitted (μ : Type) [StateMachine μ] (h : History) (e : Entry) : Prop
  | opening (hnoop : e.isNoop = true) (hopens : h.Opens e)
  | command (hcommand : e.isNoop = false) {m : μ} (hvalid : StateMachine.validate m e.command = .ok ())

omit [LogStore σ] [LawfulStore σ] in
theorem Admitted.extends (hx : Extends h h') (he : Admitted μ h e) : Admitted μ h' e := by
  cases he with
  | opening hnoop hopens => exact .opening hnoop (hopens.extends hx)
  | command hcommand hvalid => exact .command hcommand hvalid

namespace Protocol

variable {s t : ℕ} {H : ℕ → History} {r : Run members σ μ}

/-- Every entry that is stored or on its way is admitted. -/
structure Run.Admits (r : Run members σ μ) (t : ℕ) (h : History) : Prop where
  stored : ∀ i, ∀ e ∈ (r.durable t i).entries, Admitted μ h e
  sent : ∀ p ∈ (r.state t).sent, ∀ q, p.2.request = .append q → ∀ e ∈ q.entries, Admitted μ h e

theorem Run.durable_of_node (hn : r.node? t i = some n) : r.durable t i = kept n.log.store := by
  rw [Run.durable, Run.node?_eq_some hn, storeOf]

theorem Chronicle.standsFor (hc : Chronicle r H) (t : ℕ) (i : NodeId) :
    (r.durable t i).StandsFor ((H t).log i) :=
  ((hc.accounts t).life i).stored.log

/-- A request that reaches a member was sent. -/
theorem Run.request_sent {m : Moment} {q : Request} (ho : (r.event t).occasion i = some (m, .request q)) :
    ∃ p ∈ (r.state t).sent, p.2.request = q := by
  have henabled := (r.valid t).1
  cases he : r.event t with
  | deliver sender message m' =>
    rw [he] at ho henabled
    simp only [Event.occasion, Option.ite_none_right_eq_some] at ho
    obtain ⟨-, ho⟩ := ho
    cases ho
    exact ⟨_, henabled, rfl⟩
  | act | answer | giveUp =>
    rw [he] at ho
    simp only [Event.occasion, Option.ite_none_right_eq_some] at ho
    cases ho.2
  | boot | crash | disturb | idle =>
    rw [he] at ho
    cases ho

/-- A member that takes office puts the entry that opens the term right behind the log that it has. -/
theorem Chronicle.opens (hc : Chronicle r H) (hn : r.node? t i = some n) {o : Node.Occasion} (hwins : o.Wins n T)
    (hlonger : (kept n.log.store).Lengthens (r.durable (t + 1) i))
    (he : ⟨n.log.lastIndex + 1, T, []⟩ ∈ (r.durable (t + 1) i).entries) :
    (H (t + 1)).Opens ⟨n.log.lastIndex + 1, T, []⟩ := by
  have hr := hc.runs hn
  have hstands := hc.standsFor (t + 1) i
  have hF : (H (t + 1)).Path ((H t).log i) := (hc.grows (Nat.le_succ t)).path ((hc.sound t).paths.log i)
  have hG : (H (t + 1)).Path ((H (t + 1)).log i) := (hc.sound (t + 1)).paths.log i
  obtain ⟨k, hk, hindex⟩ := hstands.exists_getElem? he
  rw [hr.log.lastIndex] at hk hindex ⊢
  obtain rfl : k = ((H t).log i).length := by
    dsimp only at hindex
    lia
  exact hG.opens (hlonger.isPrefix hr.log.stored hstands (hF.agrees hG)) (hwins.earlier (hc.sound t) hr) hk rfl

/-- What one event preserves of the stores. -/
theorem Chronicle.stored_next (hc : Chronicle r H) (h : r.Admits t (H t)) (i : NodeId) :
    ∀ e ∈ (r.durable (t + 1) i).entries, Admitted μ (H (t + 1)) e := by
  have hx := hc.grows (Nat.le_succ t)
  have hold : ∀ e ∈ (r.durable t i).entries, Admitted μ (H (t + 1)) e :=
    fun e he => (h.stored i e he).extends hx
  obtain hless | ⟨m, o, n, ho, hup, hwrites⟩ := (r.toOpenRun.turn t i).stored
  · exact fun e he => hold e (hless he)
  have hn : r.node? t i = some n := State.node?_eq_some.mpr hup
  rw [Run.durable_of_node hn] at hold
  -- an opening entry is admitted only once it is known where it was put
  have hentries := hwrites (fun p => ∀ e ∈ p.entries,
      Admitted μ (H (t + 1)) e ∨ ∃ T, o.Wins n T ∧ e = ⟨n.log.lastIndex + 1, T, []⟩)
    (fun w hw => Write.preserves_entries ?_) fun e he => Or.inl (hold e he)
  · intro e he
    obtain hadmitted | ⟨T, hwins, rfl⟩ := hentries e he
    · exact hadmitted
    · refine .opening rfl (hc.opens hn hwins (hwrites _ (fun w hw => ?_) (.refl _)) he)
      cases hw with
      | hard => exact Write.hard_preserves_lengthens _ _
      | opening => exact Write.append_preserves_lengthens _ _
      | propose | follow | cut | clear | install => cases hwins
      | snapshot hc => obtain rfl | rfl := hc <;> cases hwins
  · rintro es rfl e he
    cases hw with
    | opening hwins => exact Or.inr ⟨_, hwins, List.mem_singleton.mp he⟩
    | propose _ hcommand hvalid =>
      obtain rfl := List.mem_singleton.mp he
      exact Or.inl (.command hcommand hvalid)
    | follow hes =>
      obtain ⟨p, hp, hq⟩ := r.request_sent ho
      exact Or.inl ((h.sent p hp _ hq e (hes he)).extends hx)

/-- The entries of every member and of every request are admitted. -/
theorem Chronicle.admits (hc : Chronicle r H) (t : ℕ) : r.Admits t (H t) := by
  induction t with
  | zero =>
    refine ⟨fun i e he => ?_, fun p hp => ?_⟩
    · obtain ⟨store, hdown, hempty⟩ := r.start.down i
      rw [Run.durable, hdown, storeOf, hempty] at he
      cases he
    · rw [r.start.sent] at hp
      cases hp
  | succ t ih =>
    have hstored := hc.stored_next ih
    refine ⟨hstored, fun p hp q hq e he => ?_⟩
    obtain ⟨hsent, hasks⟩ := r.sent_succ t
    rw [hsent] at hp
    rcases List.mem_append.mp hp with hp | hp
    · exact (ih.sent p hp q hq e he).extends (hc.grows (Nat.le_succ t))
    · obtain ⟨n, hn, hasks⟩ := hasks p hp
      obtain ⟨i, target, request⟩ := p
      obtain rfl : request = .append q := hq
      refine hstored i e ?_
      rw [Run.durable_of_node hn, ← (hc.runs hn).log.entries]
      exact hasks.subset he

/-- Some member's log has the entry at that moment, in memory or in its store. -/
def Run.Bears (r : Run members σ μ) (t : ℕ) (e : Entry) : Prop :=
  ∃ i, e ∈ (r.durable t i).entries ∨ ∃ n, r.node? t i = some n ∧ e ∈ n.log.entries

theorem Chronicle.stored (hc : Chronicle r H) (he : r.Bears t e) : ∃ i, e ∈ (r.durable t i).entries := by
  obtain ⟨i, he | ⟨n, hn, he⟩⟩ := he
  · exact ⟨i, he⟩
  · rw [(hc.runs hn).log.entries, ← Run.durable_of_node hn] at he
    exact ⟨i, he⟩

theorem Chronicle.admitted (hc : Chronicle r H) (he : r.Bears t e) : Admitted μ (H t) e := by
  obtain ⟨i, he⟩ := hc.stored he
  exact (hc.admits t).stored i e he

/-- An entry without a command comes before all others of its term, in all logs and at all times. -/
theorem Chronicle.noop_le (hc : Chronicle r H) (he : r.Bears s e) (hd : r.Bears t d) (hnoop : e.isNoop = true)
    (hterm : d.term = e.term) : e.index ≤ d.index := by
  obtain ⟨i, hd⟩ := hc.stored hd
  obtain ⟨k, hk, hindex⟩ := (hc.standsFor t i).exists_getElem? hd
  cases hc.admitted he with
  | opening _ hopens =>
    rw [hindex]
    exact (hopens.extends (hc.grows (le_max_left s t))).le
      ((hc.grows (le_max_right s t)).path ((hc.sound t).paths.log i)) hk hterm
  | command hcommand =>
    rw [hnoop] at hcommand
    cases hcommand

end Protocol

/-! ## Refusals -/

namespace Node

omit [LawfulStore σ] in
theorem propose_of_follows {command : Bytes} (hfollows : n.isLeader = false) :
    propose command n = .error (.error (.notLeader n.leader?)) n := by
  refine Action.eq_error_of_wp ?_
  rw [propose, Action.wp_bind, Action.wp_get, Action.wp_ite, if_pos (by simp [hfollows])]
  exact ⟨rfl, rfl⟩

omit [LawfulStore σ] in
theorem propose_of_invalid {command : Bytes} (hleads : n.isLeader = true) (hcommand : command.isEmpty = false)
    {reason : String} (hinvalid : StateMachine.validate n.machine command = .error reason) :
    propose command n = .error (.error (.machine reason)) n := by
  refine Action.eq_error_of_wp ?_
  rw [propose, Action.wp_bind, Action.wp_get, Action.wp_ite, if_neg (by simp [hleads]), Action.wp_ite,
    if_neg (by simp [hcommand]), hinvalid]
  exact ⟨rfl, rfl⟩

end Node

/-! ## Key-value machines -/

namespace KeyValue

/-- What a machine of this kind accepts depends on the command alone. -/
theorem validate_eq_ok {m : KeyValue} {command : Bytes} :
    StateMachine.validate m command = .ok () ↔ ∃ c, Command.parse command = .ok c := by
  simp only [StateMachine.validate]
  cases Command.parse command <;> simp [Except.mapError, Except.map]

/-- A command that was accepted fails at most because its key is absent. -/
theorem apply_output {m m₁ m₂ : KeyValue} {i : Index} {command : Bytes} {output : Output}
    (h : StateMachine.validate m command = .ok ()) (happly : StateMachine.apply m₁ i command = (output, m₂)) :
    output = .ok [] ∨ output = .error "NOT_FOUND" := by
  obtain ⟨c, hc⟩ := validate_eq_ok.mp h
  obtain rfl : _ = output := congrArg Prod.fst happly
  simp only [StateMachine.apply, KeyValue.apply, hc]
  split
  · exact Or.inl rfl
  · cases c with
    | set key value => exact Or.inl rfl
    | delete key =>
      dsimp only [Command.run]
      split
      · exact Or.inl rfl
      · exact Or.inr rfl

end KeyValue

omit [LogStore σ] [LawfulStore σ] in
/-- Applying a log of accepted commands. -/
theorem Node.Applies.outputs {n n' : Node σ KeyValue} {as : List Applied} (h : Node.Applies n as n')
    (hvalid : ∀ e ∈ n.log.entries, e.isNoop = false → ∃ m : KeyValue, StateMachine.validate m e.command = .ok ()) :
    ∀ a ∈ as, a.output = .ok [] ∨ a.output = .error "NOT_FOUND" := by
  have hnext : ∀ {l l' : Log σ} {e : Entry}, Log.nextCommitted l = .ok (some e) l' →
      e ∈ l.entries ∧ l'.entries = l.entries := by
    intro l l' e hlog
    obtain ⟨-, he, rfl⟩ := Log.nextCommitted_eq_some hlog
    exact ⟨List.mem_of_getElem? (Log.getElem?_of_entry? he).2, rfl⟩
  induction h with
  | done n => exact List.forall_mem_nil _
  | skip hlog _ _ ih =>
    obtain ⟨-, hsame⟩ := hnext hlog
    exact ih (hsame ▸ hvalid)
  | apply hlog hcommand happly _ ih =>
    obtain ⟨he, hsame⟩ := hnext hlog
    refine List.forall_mem_cons.mpr ⟨?_, ih (hsame ▸ hvalid)⟩
    obtain ⟨m, hm⟩ := hvalid _ he hcommand
    exact KeyValue.apply_output hm happly

namespace Protocol

/-- Every entry in any log has no command or one that the machine accepts, and the one without a command comes first
in its term wherever the term is found. So nothing fails that is applied, but for an absent key; and a proposal that is
refused changes nothing. -/
theorem Run.logs_admitted (r : Run members σ KeyValue) :
    (∀ t e, r.Bears t e → e.isNoop = true ∨ ∀ m : KeyValue, StateMachine.validate m e.command = .ok ()) ∧
    (∀ s t e d, r.Bears s e → r.Bears t d → e.isNoop = true → d.term = e.term →
      e.index ≤ d.index ∧ (d.isNoop = true → d.index = e.index)) ∧
    (∀ t i n as n', r.node? t i = some n → Node.applyCommitted n = .ok as n' →
      ∀ a ∈ as, a.output = .ok [] ∨ a.output = .error "NOT_FOUND") ∧
    ∀ t i n command e n', r.node? t i = some n → Node.propose command n = .error (.error e) n' →
      ((∃ hint, e = .notLeader hint) ∨ e = .emptyCommand ∨ ∃ reason, e = .machine reason) → n' = n := by
  obtain ⟨H, hc⟩ := r.exists_chronicle
  refine ⟨fun t e he => ?_, fun s t e d he hd hnoop hterm => ?_, fun t i n as n' hn happly => ?_,
    fun t i n command e n' hn hpropose he => ?_⟩
  · cases hc.admitted he with
    | opening hnoop => exact Or.inl hnoop
    | command _ hvalid =>
      exact Or.inr fun m => KeyValue.validate_eq_ok.mpr (KeyValue.validate_eq_ok.mp hvalid)
  · refine ⟨hc.noop_le he hd hnoop hterm, fun hnoop' => ?_⟩
    exact (hc.noop_le hd he hnoop' hterm.symm).antisymm (hc.noop_le he hd hnoop hterm)
  · obtain ⟨n₁, happlies, -⟩ := Action.wp_ok (Node.wp_applyCommitted n) happly
    refine happlies.outputs fun e he hcommand => ?_
    cases hc.admitted ⟨i, Or.inr ⟨n, hn, he⟩⟩ with
    | opening hnoop =>
      rw [hnoop] at hcommand
      cases hcommand
    | command _ hvalid => exact ⟨_, hvalid⟩
  · obtain hstops | ⟨hsame, -⟩ := Action.wp_error (Node.wp_propose command n) hpropose
    · have hhalts := hstops.halts
      obtain ⟨hint, rfl⟩ | rfl | ⟨reason, rfl⟩ := he <;> cases hhalts
    · exact hsame

/-- Member 1 leads, with member 2 behind it, and is handed a command to store a text and one to delete it. -/
def orders : List (Event MemoryStore KeyValue) := [
  .boot 1 [2, 3] {} {} {},
  .boot 2 [1, 3] {} {} {},
  .act 1 .stand {},
  .deliver 1 ⟨2, .vote ⟨1, 1, 0, 0⟩⟩ {},
  .answer 1 (.vote 2 1 ⟨1, true⟩) {},
  .act 1 (.propose (Bytes.ofString "SET a b")) {},
  .act 1 (.propose (Bytes.ofString "DELETE a")) {},
  .deliver 1 ⟨2, .append ⟨1, 1, 0, 0, [⟨1, 1, []⟩], 0⟩⟩ {},
  .answer 1 (.append 2 ⟨1, 0, 1⟩ ⟨1, true, none⟩) {},
  .deliver 1 ⟨2, .append ⟨1, 1, 1, 1,
    [⟨2, 1, Bytes.ofString "SET a b"⟩, ⟨3, 1, Bytes.ofString "DELETE a"⟩], 1⟩⟩ {},
  .answer 1 (.append 2 ⟨1, 1, 2⟩ ⟨1, true, none⟩) {}]

theorem orders_initial : Initial ({ life := fun _ => .down {} } : State MemoryStore KeyValue) :=
  ⟨fun _ => ⟨{}, rfl, rfl⟩, rfl, rfl⟩

theorem orders_playable :
    Playable {1, 2, 3} ({ life := fun _ => .down {} } : State MemoryStore KeyValue) orders := by decide_cbv

def orderRun : Run {1, 2, 3} MemoryStore KeyValue := .play orders_initial orders_playable

/-- The orders are in both logs behind the entry that opens the term, and both are carried out. The follower refuses
any further one, and the leader one that its machine does not know. -/
theorem logs_admitted_orders :
    (∃ e d, orderRun.Bears 11 e ∧ orderRun.Bears 10 d ∧ e.isNoop = true ∧ d.term = e.term ∧ d.isNoop = false ∧
      e.index ≤ d.index ∧ (d.isNoop = true ∨ ∀ m : KeyValue, StateMachine.validate m d.command = .ok ())) ∧
    (∃ n as n', orderRun.node? 11 1 = some n ∧ Node.applyCommitted n = .ok as n' ∧ as.length = 2 ∧
      ∀ a ∈ as, a.output = .ok [] ∨ a.output = .error "NOT_FOUND") ∧
    (∃ n n', orderRun.node? 10 2 = some n ∧
      Node.propose (Bytes.ofString "SET a b") n = .error (.error (.notLeader n.leader?)) n' ∧ n' = n) ∧
    ∃ n reason n', orderRun.node? 11 1 = some n ∧
      Node.propose (Bytes.ofString "FROB z") n = .error (.error (.machine reason)) n' ∧ n' = n := by
  obtain ⟨hvalid, hfirst, houtputs, hunchanged⟩ := orderRun.logs_admitted
  obtain ⟨n, hn, hopening, hleads⟩ : ∃ n, orderRun.node? 11 1 = some n ∧ ⟨1, 1, []⟩ ∈ n.log.entries ∧
      n.isLeader = true := exists_of_any (by decide_cbv)
  obtain ⟨follower, hfollower, horder, hfollows⟩ : ∃ n, orderRun.node? 10 2 = some n ∧
      ⟨2, 1, Bytes.ofString "SET a b"⟩ ∈ n.log.entries ∧ n.isLeader = false := exists_of_any (by decide_cbv)
  have he : orderRun.Bears 11 ⟨1, 1, []⟩ := ⟨1, Or.inr ⟨n, hn, hopening⟩⟩
  have hd : orderRun.Bears 10 ⟨2, 1, Bytes.ofString "SET a b"⟩ := ⟨2, Or.inr ⟨follower, hfollower, horder⟩⟩
  have hcommand : Entry.isNoop ⟨2, 1, Bytes.ofString "SET a b"⟩ = false := by decide_cbv
  refine ⟨⟨_, _, he, hd, rfl, rfl, hcommand, (hfirst 11 10 _ _ he hd rfl rfl).1, hvalid 10 _ hd⟩, ?_, ?_, ?_⟩
  · obtain ⟨as, has, hcount⟩ : ∃ as, (perform (orderRun.state 11) 1 Node.applyCommitted).1 = some as ∧
        as.length = 2 := exists_of_any (by decide_cbv)
    obtain ⟨n, n', hup, happly, -⟩ := perform_some has
    have hn := State.node?_eq_some.mpr hup
    exact ⟨n, as, n', hn, happly, hcount, houtputs 11 1 n as n' hn happly⟩
  · have hrefused : Node.propose (Bytes.ofString "SET a b") follower =
        .error (.error (.notLeader follower.leader?)) follower := Node.propose_of_follows hfollows
    exact ⟨follower, _, hfollower, hrefused,
      hunchanged 10 2 follower _ _ _ hfollower hrefused (Or.inl ⟨_, rfl⟩)⟩
  · have hunknown : KeyValue.Command.parse (Bytes.ofString "FROB z") = .error (.unknown "FROB z") := by decide_cbv
    have hempty : List.isEmpty (Bytes.ofString "FROB z") = false := by decide_cbv
    have hinvalid : StateMachine.validate n.machine (Bytes.ofString "FROB z") =
        .error (KeyValue.CommandError.message (.unknown "FROB z")) := by
      simp only [StateMachine.validate, hunknown]
      rfl
    have hrefused := Node.propose_of_invalid hleads hempty hinvalid
    exact ⟨n, _, _, hn, hrefused, hunchanged 11 1 n _ _ _ hn hrefused (Or.inr (Or.inr ⟨_, rfl⟩))⟩

end Protocol

end RaftNode
