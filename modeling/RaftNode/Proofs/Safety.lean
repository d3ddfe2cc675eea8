import RaftNode.Machine.Journal
import RaftNode.Proofs.RunHistory
import Mathlib
/-!
# Safety of a run

What any two nodes show, at any two moments, is compared through the history of the later moment. A short run in
which one leader succeeds another shows that the hypotheses can be met.
-/
namespace RaftNode

open History (Sound Extends Committed)

variable {σ μ : Type} [LogStore σ] [LawfulStore σ] {members : Finset NodeId} {h : History}
  {i : NodeId} {n : Node σ μ} {C : List Entry}

theorem Runs.office_of_isLeader (hr : Runs members h i n) (hl : n.isLeader) :
    h.leader n.term = some i := by
  unfold Node.isLeader at hl
  cases hrole : n.role with
  | leader r => exact (hr.leads hrole).office
  | _ => simp [hrole, Role.kind] at hl

/-- A node has the last entry of any beginning of its full log, unless it is compacted away. -/
theorem Runs.holds_last (hr : Runs members h i n) {e : Entry} (hC : C ++ [e] <+: h.log i) :
    n.log.entry? (C.length + 1) = some e ∨ C.length + 1 ≤ n.log.snapshotIndex := by
  rw [hr.log.entry?]
  split
  · exact Or.inr ‹_›
  · left
    obtain ⟨rest, hrest⟩ := hC
    rw [← hrest, Nat.add_sub_cancel, List.append_assoc, List.getElem?_append_right le_rfl]
    simp

/-- Committed beginnings of one length are the same. -/
theorem History.Committed.eq_of_length {D : List Entry} {T U : Term} (hs : Sound members h)
    (hC : Committed members h T C) (hD : Committed members h U D) (hlen : C.length = D.length) :
    C = D := by
  rcases hC.comparable hs hD with hp | hp
  · exact hp.eq_of_length hlen
  · exact (hp.eq_of_length hlen.symm).symm

/-- A snapshot that is kept stands for a committed beginning. -/
theorem Stored.snapshot {p : Persisted} (hp : Stored members h i p) : ∃ C,
    Committed members h p.hard.term C ∧ C.length = p.covered ∧ endTerm C = p.coveredTerm :=
  ⟨_, hp.covered, List.length_take_of_le hp.log.covered_le, hp.log.coveredTerm.symm⟩

namespace Protocol

variable [StateMachine μ] {H : ℕ → History} {r : Run members σ μ} {s t u : ℕ} {a b : NodeId}
  {m : Node σ μ} {k : Index}

theorem Chronicle.runs (hc : Chronicle r H) (hn : r.node? t i = some n) :
    Runs members (H t) i n := by
  have hl := (hc.accounts t).life i
  rwa [State.node?_eq_some.mp hn] at hl

/-- What a node counts as committed is committed ever after. -/
theorem Chronicle.committed (hc : Chronicle r H) (hn : r.node? t i = some n) (htu : t ≤ u)
    (hk : k ≤ n.log.commitIndex) :
    Committed members (H u) n.term (((H t).log i).take k) ∧ (((H t).log i).take k).length = k := by
  have hr := hc.runs hn
  have hkept := hr.committed.isPrefix (List.take_prefix_take_left hk)
  exact ⟨hkept.extends (hc.sound t) (hc.grows htu),
    List.length_take_of_le (hk.trans hr.log.held)⟩

/-- Two nodes count the same entries as committed. -/
theorem Chronicle.committed_same (hc : Chronicle r H) (hm : r.node? s a = some m)
    (hn : r.node? t b = some n) (hkm : k ≤ m.log.commitIndex) (hkn : k ≤ n.log.commitIndex) :
    ((H s).log a).take k = ((H t).log b).take k := by
  obtain ⟨hC, hlen⟩ := hc.committed hm (le_max_left s t) hkm
  obtain ⟨hD, hlen'⟩ := hc.committed hn (le_max_right s t) hkn
  exact hC.eq_of_length (hc.sound _) hD (hlen.trans hlen'.symm)

/-- A leader of a later term has in its log what is committed. -/
theorem Chronicle.committed_led (hc : Chronicle r H) (hm : r.node? s a = some m)
    (hn : r.node? t b = some n) (hk : k ≤ m.log.commitIndex) (hl : n.isLeader)
    (hT : m.term < n.term) : ((H s).log a).take k <+: (H t).log b := by
  have hr := hc.runs hn
  have hoffice := hr.office_of_isLeader hl
  have hx := hc.grows (le_max_right s t)
  -- what the leader stood with no longer changes, so it may be looked up in the later history
  have hstood := (hc.committed hm (le_max_left s t) hk).1.isPrefix_stood (hc.sound _)
    (hx.leader _ _ hoffice) hT
  rw [hx.stood _ _ ((hc.sound t).leader_stood hoffice)] at hstood
  rw [hr.log_eq_led (hc.sound t) hoffice]
  exact hstood.trans ((hc.sound t).offices.began _ _ hoffice)

/-- Member 1 leads term 1, commits its first entry and compacts it away; member 2 has crashed after its vote;
member 3 starts late, gets the snapshot and votes for member 2, who leads term 2. -/
def succession : List (Event MemoryStore Journal) := [
  .boot 1 [2, 3] {} {} {},
  .boot 2 [1, 3] {} {} {},
  .act 1 .stand {},
  .deliver 1 ⟨2, .vote ⟨1, 1, 0, 0⟩⟩ {},
  .crash 2,
  .answer 1 (.vote 2 1 ⟨1, true⟩) {},
  .boot 2 [1, 3] {} {} {},
  .deliver 1 ⟨2, .append ⟨1, 1, 0, 0, [⟨1, 1, []⟩], 0⟩⟩ {},
  .answer 1 (.append 2 ⟨1, 0, 1⟩ ⟨1, true, none⟩) {},
  .act 1 .heartbeat { now := 1000 },
  .deliver 1 ⟨2, .append ⟨1, 1, 1, 1, [], 1⟩⟩ {},
  .act 1 .apply {},
  .act 1 .snapshot {},
  .boot 3 [1, 2] {} {} {},
  .act 1 .heartbeat { now := 2000 },
  .deliver 1 ⟨3, .install ⟨1, 1, 1, 1, StateMachine.snapshot ({} : Journal)⟩⟩ {},
  .act 2 .stand {},
  .deliver 2 ⟨3, .vote ⟨2, 2, 1, 1⟩⟩ {},
  .answer 2 (.vote 3 2 ⟨2, true⟩) {}]

def asleep : State MemoryStore Journal := { life := fun _ => .down {} }

theorem asleep_initial : Initial asleep := ⟨fun _ => ⟨{}, rfl, rfl⟩, rfl, rfl⟩

theorem succession_playable : Playable {1, 2, 3} asleep succession := by decide_cbv

def successionRun : Run {1, 2, 3} MemoryStore Journal := .play asleep_initial succession_playable

theorem exists_of_any {α : Type} {o : Option α} {p : α → Prop} [DecidablePred p]
    (h : o.any (fun a => p a) = true) : ∃ a, o = some a ∧ p a := by
  obtain ⟨a, ha, hp⟩ := (Option.any_eq_true _ _).mp h
  exact ⟨a, ha, of_decide_eq_true hp⟩

/-- Member 1 when its first entry is committed. -/
theorem succession_first : ∃ n, successionRun.node? 9 1 = some n ∧ n.isLeader ∧ n.term = 1 ∧
    1 ≤ n.log.commitIndex ∧ n.log.termAt? 1 = some 1 ∧ n.log.entry? 1 = some ⟨1, 1, []⟩ :=
  exists_of_any (by decide_cbv)

/-- Member 2 in office. -/
theorem succession_second : ∃ n, successionRun.node? 19 2 = some n ∧ n.isLeader ∧ n.term = 2 ∧
    1 ≤ n.log.commitIndex ∧ n.log.termAt? 1 = some 1 ∧ n.log.entry? 1 = some ⟨1, 1, []⟩ :=
  exists_of_any (by decide_cbv)

/-- No two different members ever lead the same term. -/
theorem Run.election_safety (r : Run members σ μ) {s t : ℕ} {a b : NodeId} {m n : Node σ μ}
    (hm : r.node? s a = some m) (hn : r.node? t b = some n) (hlm : m.isLeader) (hln : n.isLeader)
    (hterm : m.term = n.term) : a = b := by
  obtain ⟨H, hc⟩ := r.exists_chronicle
  have ha := (hc.grows (le_max_left s t)).leader _ _ ((hc.runs hm).office_of_isLeader hlm)
  have hb := (hc.grows (le_max_right s t)).leader _ _ ((hc.runs hn).office_of_isLeader hln)
  rw [hterm] at ha
  exact Option.some.inj (ha.symm.trans hb)

theorem election_safety_succession : ∃ m n, successionRun.node? 9 1 = some m ∧
    successionRun.node? 15 1 = some n ∧ m.isLeader ∧ n.isLeader ∧ m.term = n.term ∧ 1 = 1 := by
  obtain ⟨m, hm, hlead, hmt, -⟩ := succession_first
  obtain ⟨n, hn, hlead', hnt⟩ : ∃ n, successionRun.node? 15 1 = some n ∧ n.isLeader ∧ n.term = 1 :=
    exists_of_any (by decide_cbv)
  exact ⟨m, n, hm, hn, hlead, hlead', hmt.trans hnt.symm,
    successionRun.election_safety hm hn hlead hlead' (hmt.trans hnt.symm)⟩

/-- Two logs that agree on the term at an index agree on every entry up to there that both still hold. -/
theorem Run.log_matching (r : Run members σ μ) {s t : ℕ} {a b : NodeId} {m n : Node σ μ}
    (hm : r.node? s a = some m) (hn : r.node? t b = some n) {i : Index} {T : Term}
    (hmi : m.log.termAt? i = some T) (hni : n.log.termAt? i = some T) {j : Index} (hj : j ≤ i)
    {e f : Entry} (he : m.log.entry? j = some e) (hf : n.log.entry? j = some f) : e = f := by
  obtain ⟨H, hc⟩ := r.exists_chronicle
  have hrm := hc.runs hm
  have hrn := hc.runs hn
  have hF := (hc.grows (le_max_left s t)).path ((hc.sound s).paths.log a)
  have hG := (hc.grows (le_max_right s t)).path ((hc.sound t).paths.log b)
  obtain ⟨-, him, htm⟩ := hrm.log.termAt?_eq_some.mp hmi
  obtain ⟨-, hin, htn⟩ := hrn.log.termAt?_eq_some.mp hni
  have hsame := hF.agrees hG i him hin (htm.trans htn.symm)
  obtain ⟨hjm, he⟩ := hrm.log.entry?_eq_some.mp he
  obtain ⟨-, hf⟩ := hrn.log.entry?_eq_some.mp hf
  have hlt : j - 1 < i := by lia
  rw [← List.getElem?_take_of_lt hlt] at he hf
  rw [hsame] at he
  exact Option.some.inj (he.symm.trans hf)

theorem log_matching_succession : ∃ m n e f, successionRun.node? 9 1 = some m ∧
    successionRun.node? 19 2 = some n ∧ m.log.termAt? 1 = some 1 ∧ n.log.termAt? 1 = some 1 ∧
      m.log.entry? 1 = some e ∧ n.log.entry? 1 = some f ∧ e = f := by
  obtain ⟨m, hm, -, -, -, hmt, hme⟩ := succession_first
  obtain ⟨n, hn, -, -, -, hnt, hne⟩ := succession_second
  exact ⟨m, n, _, _, hm, hn, hmt, hnt, hme, hne,
    successionRun.log_matching hm hn hmt hnt le_rfl hme hne⟩

/-- For every index that a node counts as committed there is one entry: all nodes that count it as committed, and
all leaders of later terms, hold that entry or have compacted it away. -/
theorem Run.leader_completeness (r : Run members σ μ) {s : ℕ} {a : NodeId} {m : Node σ μ}
    (hm : r.node? s a = some m) {i : Index} (hi : i ≤ m.log.commitIndex) :
    ∃ e : Entry,
      (∀ t b n, r.node? t b = some n → i ≤ n.log.commitIndex →
        n.log.entry? i = some e ∨ i ≤ n.log.snapshotIndex) ∧
      ∀ t b n, r.node? t b = some n → n.isLeader → m.term < n.term →
        n.log.entry? i = some e ∨ i ≤ n.log.snapshotIndex := by
  obtain ⟨H, hc⟩ := r.exists_chronicle
  obtain ⟨-, hlen⟩ := hc.committed hm le_rfl hi
  rcases List.eq_nil_or_concat' (((H s).log a).take i) with hnil | ⟨init, e, hC⟩
  · -- there is no entry at index 0, and every log is compacted that far
    rw [hnil] at hlen
    subst hlen
    exact ⟨default, fun _ _ _ _ _ => Or.inr (Nat.zero_le _),
      fun _ _ _ _ _ _ => Or.inr (Nat.zero_le _)⟩
  have hindex : init.length + 1 = i := by simpa [hC] using hlen
  have hheld : ∀ {t b n}, r.node? t b = some n → ((H s).log a).take i <+: (H t).log b →
      n.log.entry? i = some e ∨ i ≤ n.log.snapshotIndex := by
    intro t b n hn hp
    rw [← hindex]
    exact (hc.runs hn).holds_last (hC ▸ hp)
  refine ⟨e, ?_, ?_⟩
  · intro t b n hn hin
    apply hheld hn
    rw [hc.committed_same hm hn hi hin]
    exact List.take_prefix _ _
  · intro t b n hn hl hT
    exact hheld hn (hc.committed_led hm hn hi hl hT)

theorem leader_completeness_succession : ∃ m n e, successionRun.node? 9 1 = some m ∧
    1 ≤ m.log.commitIndex ∧ successionRun.node? 19 2 = some n ∧ n.isLeader ∧ m.term < n.term ∧
      m.log.entry? 1 = some e ∧ (n.log.entry? 1 = some e ∨ 1 ≤ n.log.snapshotIndex) := by
  obtain ⟨m, hm, -, hmt, hmc, -, hme⟩ := succession_first
  obtain ⟨n, hn, hlead, hnt, -⟩ := succession_second
  have hterm : m.term < n.term := by lia
  obtain ⟨e, hheld, hled⟩ := successionRun.leader_completeness hm hmc
  rcases hheld 9 1 m hm hmc with he | hcompacted
  · exact ⟨m, n, e, hm, hmc, hn, hlead, hterm, he, hled 19 2 n hn hlead hterm⟩
  · rw [Log.entry?, if_pos hcompacted] at hme
    cases hme

/-- A snapshot at a moment of a run: kept by a member, shown by a node, or on its way. -/
inductive Run.HasSnapshot (r : Run members σ μ) (t : ℕ) : SnapshotPoint → Prop
  | kept {v : NodeId} {snap : Snapshot}
      (h : (kept (storeOf ((r.state t).life v))).snapshot = some snap) : HasSnapshot r t snap.point
  | shown {v : NodeId} {n : Node σ μ} (h : r.node? t v = some n) :
      HasSnapshot r t ⟨n.log.snapshotIndex, n.log.snapshotTerm⟩
  | sent {sender target : NodeId} {q : InstallRequest}
      (h : (sender, ⟨target, .install q⟩) ∈ (r.state t).sent) :
      HasSnapshot r t ⟨q.index, q.snapshotTerm⟩

theorem Chronicle.snapshot (hc : Chronicle r H) {p : SnapshotPoint} (hp : r.HasSnapshot t p) :
    ∃ T C, Committed members (H t) T C ∧ C.length = p.index ∧ endTerm C = p.term := by
  cases hp with
  | @kept v snap hsnap =>
    obtain ⟨C, hC, hlen, hend⟩ := ((hc.accounts t).life v).stored.snapshot
    refine ⟨_, C, hC, hlen.trans ?_, hend.trans ?_⟩
    · simp [Persisted.covered, hsnap, Snapshot.point]
    · simp [Persisted.coveredTerm, hsnap, Snapshot.point]
  | shown hn =>
    have hr := hc.runs hn
    obtain ⟨C, hC, hlen, hend⟩ := hr.stored.snapshot
    exact ⟨_, C, hC, hlen.trans hr.log.snapshotIndex.symm, hend.trans hr.log.snapshotTerm.symm⟩
  | sent hq =>
    obtain ⟨C, hlen, hend, -, hC⟩ := SendsSnapshot.covers ((hc.accounts t).sent _ hq).request
    exact ⟨_, C, hC, hlen, hend⟩

theorem Chronicle.committed_snapshot (hc : Chronicle r H) (hm : r.node? s a = some m)
    {p : SnapshotPoint} (hp : r.HasSnapshot t p) (hk : p.index ≤ m.log.commitIndex) :
    p.term = endTerm (((H s).log a).take p.index) := by
  obtain ⟨hC, hlen⟩ := hc.committed hm (le_max_left s t) hk
  obtain ⟨T, D, hD, hlen', hend⟩ := hc.snapshot hp
  have hD' := hD.extends (hc.sound t) (hc.grows (le_max_right s t))
  rw [hC.eq_of_length (hc.sound _) hD' (hlen.trans hlen'.symm), hend]

/-- Whatever two nodes count as committed at an index and still hold there is the same entry, and every snapshot
at that index carries the entry's term. -/
theorem Run.state_machine_safety (r : Run members σ μ) {s : ℕ} {a : NodeId} {m : Node σ μ}
    (hm : r.node? s a = some m) {i : Index} (hi : i ≤ m.log.commitIndex) {e : Entry}
    (he : m.log.entry? i = some e) :
    (∀ t b n f, r.node? t b = some n → i ≤ n.log.commitIndex → n.log.entry? i = some f → f = e) ∧
      ∀ t p, r.HasSnapshot t p → p.index = i → p.term = e.term := by
  obtain ⟨H, hc⟩ := r.exists_chronicle
  obtain ⟨hsnap, he⟩ := (hc.runs hm).log.entry?_eq_some.mp he
  have hlt : i - 1 < i := by lia
  constructor
  · intro t b n f hn hin hf
    obtain ⟨-, hf⟩ := (hc.runs hn).log.entry?_eq_some.mp hf
    rw [← List.getElem?_take_of_lt hlt] at he hf
    rw [hc.committed_same hm hn hi hin] at he
    exact Option.some.inj (hf.symm.trans he)
  · intro t p hp hpi
    subst hpi
    rw [hc.committed_snapshot hm hp hi, ← endTerm_take_succ he]
    congr 2
    lia

theorem state_machine_safety_succession : ∃ m n e f, successionRun.node? 9 1 = some m ∧
    successionRun.node? 19 2 = some n ∧ 1 ≤ m.log.commitIndex ∧ m.log.entry? 1 = some e ∧
      n.log.entry? 1 = some f ∧ f = e ∧ ∀ t p, successionRun.HasSnapshot t p → p.index = 1 →
        p.term = e.term := by
  obtain ⟨m, hm, -, -, hmc, -, hme⟩ := succession_first
  obtain ⟨n, hn, -, -, hnc, -, hne⟩ := succession_second
  obtain ⟨hsame, hsnap⟩ := successionRun.state_machine_safety hm hmc hme
  exact ⟨m, n, _, _, hm, hn, hmc, hme, hne, hsame 19 2 n _ hn hnc hne, hsnap⟩

end Protocol

end RaftNode
