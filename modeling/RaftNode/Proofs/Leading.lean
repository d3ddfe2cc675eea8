import RaftNode.Proofs.Messages
/-!
# In office

What a leader appends, sends and commits. It counts an entry as committed only from what members have
acknowledged, and its requests show its own log.
-/
namespace RaftNode

open RaftNode.Action (wp)
open History (Sound Moves Committed Chosen)

/-! ## Counting -/

/-- In a list that falls, what stands at a position is reached by so many. -/
theorem le_getElem_iff_of_falling {ranked : List Nat} (hs : ranked.Pairwise fun a b => b ≤ a) {k : Nat}
    (hk : k < ranked.length) (N : Nat) : N ≤ ranked[k] ↔ k < ranked.countP fun m => N ≤ m := by
  induction ranked generalizing k with
  | nil => simp at hk
  | cons a rest ih =>
    obtain ⟨ha, hrest⟩ := List.pairwise_cons.mp hs
    by_cases hN : N ≤ a
    · rw [List.countP_cons_of_pos (by simpa using hN)]
      cases k with
      | zero => simpa using hN
      | succ k =>
        have := ih hrest (k := k) (by simpa using hk)
        rw [List.getElem_cons_succ, this]
        omega
    · have hnone : (a :: rest).countP (fun m => N ≤ m) = 0 := by
        refine List.countP_eq_zero.mpr fun m hm => ?_
        rcases List.mem_cons.mp hm with rfl | hm
        · simpa using hN
        · have := ha m hm
          simp only [decide_eq_true_eq]
          omega
      have hle : (a :: rest)[k] ≤ a := by
        rcases List.mem_cons.mp (List.getElem_mem hk) with h | h
        · exact h.le
        · exact ha _ h
      rw [hnone]
      omega

/-- The index that is taken for stored by a majority is the highest that so many store. -/
theorem Replication.le_majorityMatch_iff (r : Replication) (last N : Index) :
    N ≤ r.majorityMatch last ↔ majority (r.peers.length + 1) ≤
      (last :: r.peers.map fun p => p.2.matchIndex).countP fun m => N ≤ m := by
  let all := last :: r.peers.map fun p => p.2.matchIndex
  let ranked := all.mergeSort fun a b => b ≤ a
  have hperm : ranked.Perm all := List.mergeSort_perm all _
  have hsorted : ranked.Pairwise fun a b => b ≤ a := by
    refine (List.pairwise_mergeSort (fun a b c hab hbc => ?_) (fun a b => ?_) all).imp
      fun h => of_decide_eq_true h
    · simp only [decide_eq_true_eq] at *
      exact hbc.trans hab
    · simpa using le_total b a
  have hlen : ranked.length = r.peers.length + 1 := by simp [hperm.length_eq, all]
  have hk : majority ranked.length - 1 < ranked.length := by
    rw [hlen, majority]
    omega
  have hmatch : r.majorityMatch last = ranked[majority ranked.length - 1] := by
    change ranked.getD _ 0 = _
    rw [List.getD_eq_getElem?_getD, List.getElem?_eq_getElem hk, Option.getD_some]
  have hpos : 0 < majority (r.peers.length + 1) := Nat.succ_pos _
  rw [hmatch, le_getElem_iff_of_falling hsorted hk, hperm.countP_eq, hlen, ← Nat.succ_le_iff,
    Nat.succ_eq_add_one, Nat.sub_add_cancel hpos]

theorem Replication.majorityMatch_counted (r : Replication) (last : Index) :
    majority (r.peers.length + 1) ≤
      (last :: r.peers.map fun p => p.2.matchIndex).countP fun m => r.majorityMatch last ≤ m :=
  (r.le_majorityMatch_iff last _).mp le_rfl

variable {σ μ : Type} [LogStore σ] [LawfulStore σ] {members : Finset NodeId} {h h' : History}
  {i : NodeId} {n n' : Node σ μ} {T : Term} {peers : List NodeId} {r : Replication}

theorem Keeps.card (hk : Keeps members h i n) : members.card = n.peers.length + 1 := by
  rw [← Finset.card_erase_add_one hk.member, ← hk.others, List.toFinset_card_of_nodup hk.distinct]

theorem Keeps.ne_self (hk : Keeps members h i n) : i ∉ n.peers := fun hi => by
  have := hk.others ▸ List.mem_toFinset.mpr hi
  simp at this

theorem Keeps.mem_members (hk : Keeps members h i n) {v : NodeId} (hv : v ∈ n.peers) :
    v ∈ members.erase i :=
  hk.others ▸ List.mem_toFinset.mpr hv

/-- What the leader counts is acknowledged by members of the cluster. -/
theorem Governs.quorum (hk : Keeps members h i n) (hg : Governs h i T n.peers r) :
    ∃ Q ⊆ members, majority members.card ≤ Q.card ∧
      ∀ v ∈ Q, r.majorityMatch (h.log i).length ≤ h.acked v T := by
  let c := r.majorityMatch (h.log i).length
  let known := (i, (h.log i).length) :: r.peers.map fun p => (p.1, p.2.matchIndex)
  have hnames : known.map Prod.fst = i :: n.peers := by
    simp [known, ← hg.peers, Function.comp_def]
  have hnodup : (known.map Prod.fst).Nodup := by
    rw [hnames]
    exact List.nodup_cons.mpr ⟨hk.ne_self, hk.distinct⟩
  let top := known.filter fun p => c ≤ p.2
  refine ⟨(top.map Prod.fst).toFinset, fun v hv => ?_, ?_, fun v hv => ?_⟩
  · obtain ⟨p, hp, rfl⟩ := List.mem_map.mp (List.mem_toFinset.mp hv)
    have hmem : p.1 ∈ i :: n.peers := hnames ▸ List.mem_map_of_mem (List.mem_of_mem_filter hp)
    rcases List.mem_cons.mp hmem with e | hmem
    · exact e ▸ hk.member
    · exact Finset.mem_of_mem_erase (hk.mem_members hmem)
  · rw [List.toFinset_card_of_nodup
      (hnodup.sublist ((List.filter_sublist (l := known)).map Prod.fst)), List.length_map,
      ← List.countP_eq_length_filter, hk.card, ← hg.peers, List.length_map]
    have hindexes : known.map Prod.snd =
        (h.log i).length :: r.peers.map fun p => p.2.matchIndex := by
      simp [known, Function.comp_def]
    have hcount := r.majorityMatch_counted (h.log i).length
    rwa [← hindexes, List.countP_map] at hcount
  · obtain ⟨p, hp, rfl⟩ := List.mem_map.mp (List.mem_toFinset.mp hv)
    obtain ⟨hp, hc⟩ := List.mem_filter.mp hp
    refine (of_decide_eq_true hc).trans ?_
    rcases List.mem_cons.mp hp with rfl | hp
    · exact hg.own
    · obtain ⟨q, hq, rfl⟩ := List.mem_map.mp hp
      exact (hg.tracks q hq).matched

/-! ## The view of the peers -/

theorem Replication.find?_of_mem {r : Replication} {peer : NodeId} {p : Progress}
    (hd : (r.peers.map Prod.fst).Nodup) (hp : (peer, p) ∈ r.peers) : r.find? peer = some p := by
  obtain ⟨before, after, e⟩ := List.append_of_mem hp
  refine List.lookup_eq_some_iff.mpr ⟨before, after, e, fun q hq => ?_⟩
  rw [e, List.map_append, List.nodup_append] at hd
  have hne := hd.2.2 q.1 (List.mem_map_of_mem hq) peer (by simp)
  simpa using hne.symm

theorem Replication.names_update (r : Replication) (peer : NodeId) (f : Progress → Progress) :
    (r.update peer f).peers.map Prod.fst = r.peers.map Prod.fst := by
  rw [Replication.update, List.map_map]
  refine List.map_congr_left fun p _ => ?_
  simp only [Function.comp]
  split <;> rfl

theorem Governs.update (hk : Keeps members h i n) (hg : Governs h i T n.peers r) {peer : NodeId}
    {f : Progress → Progress}
    (hf : ∀ p, r.find? peer = some p → Tracks h i T peer p → Tracks h i T peer (f p)) :
    Governs h i T n.peers (r.update peer f) where
  office := hg.office
  peers := (Replication.names_update r peer f).trans hg.peers
  tracks p hp := by
    obtain ⟨q, hq, rfl⟩ := List.mem_map.mp hp
    split
    · rename_i heq
      subst heq
      exact hf q.2 (Replication.find?_of_mem (hg.peers ▸ hk.distinct) hq) (hg.tracks q hq)
    · exact hg.tracks q hq
  own := hg.own

theorem Replication.mem_of_find? {r : Replication} {peer : NodeId} {p : Progress}
    (hp : r.find? peer = some p) : (peer, p) ∈ r.peers := by
  obtain ⟨before, after, e, -⟩ := List.lookup_eq_some_iff.mp hp
  rw [e]
  simp

theorem Governs.mem_peers (hg : Governs h i T peers r) {peer : NodeId} {p : Progress}
    (hp : r.find? peer = some p) : peer ∈ peers :=
  hg.peers ▸ List.mem_map_of_mem (Replication.mem_of_find? hp)

/-- A leader has a note of every other member. -/
theorem Governs.find? (hk : Keeps members h i n) (hg : Governs h i T n.peers r) {peer : NodeId}
    (hpeer : peer ∈ members) (hne : peer ≠ i) : ∃ p, r.find? peer = some p := by
  have hmem : peer ∈ n.peers :=
    List.mem_toFinset.mp (hk.others ▸ Finset.mem_erase.mpr ⟨hne, hpeer⟩)
  rw [← hg.peers] at hmem
  obtain ⟨q, hq, rfl⟩ := List.mem_map.mp hmem
  exact ⟨q.2, Replication.find?_of_mem (hg.peers ▸ hk.distinct) hq⟩

/-- A leader's log is the log of its term. -/
theorem Keeps.log_eq_led (hs : Sound members h) (hk : Keeps members h i n)
    (hl : h.leader n.term = some i) : h.log i = h.led n.term :=
  hs.offices.leads n.term i hl hk.term

theorem Governs.wp_confirm (hs : Sound members h) (hk : Keeps members h i n)
    (hg : Governs h i n.term n.peers r) {peer : NodeId} {index : Index} {now : Nat}
    (hack : index ≤ h.acked peer n.term) :
    wp (r.confirm peer index now) (fun r' n' => n' = n ∧ Governs h i n.term n.peers r')
      (Halted members h i) n := by
  unfold Replication.confirm
  split
  · exact ⟨rfl, hg⟩
  · rename_i p hp
    simp only [Action.wp_bind, Action.wp_add, Action.wp_pure]
    split
    · have hmatched : max p.matchIndex index ≤ h.acked peer n.term :=
        max_le (hg.tracks _ (Replication.mem_of_find? hp)).matched hack
      have hwithin := hmatched.trans (hs.acks.within peer n.term)
      rw [← hk.log_eq_led hs hg.office] at hwithin
      exact ⟨trivial, hg.update hk fun _ _ _ =>
        ⟨hmatched, Nat.lt_succ_self _, Nat.succ_le_succ hwithin⟩⟩
    · exact hk.halted hs rfl

theorem Governs.wp_onAppendSuccess (hs : Sound members h) (hk : Keeps members h i n)
    (hg : Governs h i n.term n.peers r) {peer : NodeId} {sent : AppendSent} {now : Nat}
    (hack : sent.prevIndex + sent.count ≤ h.acked peer n.term) :
    wp (r.onAppendSuccess peer sent now) (fun r' n' => n' = n ∧ Governs h i n.term n.peers r')
      (Halted members h i) n := by
  simp only [Replication.onAppendSuccess, Replication.lastSent, Action.wp_ite, Action.wp_bind,
    Action.wp_add, Action.wp_pure]
  split
  · exact ⟨trivial, hg⟩
  · split
    · exact hg.wp_confirm hs hk hack
    · exact hk.halted hs rfl

theorem Governs.wp_onAppendReject (hs : Sound members h) (hk : Keeps members h i n)
    (hg : Governs h i n.term n.peers r) {peer : NodeId} {sent : AppendSent} {reply : AppendReply}
    (hl : Acknowledges h peer sent reply) (hterm : sent.term = n.term) (now : Nat) :
    wp (r.onAppendReject peer sent reply.matchHint now)
      (fun r' n' => n' = n ∧ Governs h i n.term n.peers r') (Halted members h i) n := by
  have hwithin : sent.prevIndex ≤ (h.log i).length := by
    rw [hk.log_eq_led hs hg.office, ← hterm]
    exact hl.within
  have hupdate : ∀ {p proposed}, r.find? peer = some p → proposed ≤ (h.log i).length + 1 →
      Governs h i n.term n.peers (r.update peer fun q =>
        { q with nextIndex := max proposed (max (p.matchIndex + 1) 1), inFlightSince := none
                 lastContact := now }) := by
    intro p proposed hp hproposed
    refine hg.update hk fun q hq ht => ?_
    obtain rfl := Option.some.inj (hp.symm.trans hq)
    have hahead := ht.ahead
    have hnext := ht.within
    exact ⟨ht.matched, by dsimp only; lia, by dsimp only; lia⟩
  unfold Replication.onAppendReject
  split
  · exact ⟨rfl, hg⟩
  · rename_i p hp
    cases hhint : reply.matchHint with
    | none =>
      simp only [Action.wp_bind, Action.wp_add, Action.wp_pure]
      split
      · exact ⟨trivial, hupdate hp (by lia)⟩
      · exact hk.halted hs rfl
    | some hint =>
      have hle := hl.hint hint hhint
      simp only [Action.wp_bind, Action.wp_add, Action.wp_pure]
      split
      · split
        · exact ⟨trivial, hupdate hp (by lia)⟩
        · exact hk.halted hs rfl
      · exact hk.halted hs rfl

/-! ## Requests -/

omit [LawfulStore σ] in
theorem Log.loadSnapshot_isFatal {l : Log σ} {e : NodeError} (h : l.loadSnapshot = .error e) :
    e.isFatal = true := by
  unfold Log.loadSnapshot at h
  cases hload : LogStore.loadSnapshot l.store with
  | error e' =>
    rw [hload] at h
    cases h
    exact StoreError.halts (.error e')
  | ok o =>
    rw [hload] at h
    cases h

theorem Log.loadSnapshot_kept {l : Log σ} {snap : Snapshot} (h : l.loadSnapshot = .ok (some snap)) :
    (kept l.store).snapshot = some snap := by
  refine LawfulStore.loadSnapshot _ _ ?_
  unfold Log.loadSnapshot at h
  cases hload : LogStore.loadSnapshot l.store with
  | error e =>
    rw [hload] at h
    cases h
  | ok o =>
    rw [hload] at h
    cases h
    rfl

/-- The snapshot that a leader sends is the one its log stands on. -/
theorem Keeps.sendsSnapshot (hs : Sound members h) (hk : Keeps members h i n)
    (hl : h.leader n.term = some i) {snap : Snapshot}
    (hsnap : (kept n.log.store).snapshot = some snap) (leader : NodeId) : SendsSnapshot members h i
      ⟨n.term, leader, snap.index, snap.term, snap.data⟩ := by
  have hcov : snap.index = (kept n.log.store).covered := by simp [Persisted.covered, hsnap]
  have hterm : snap.term = (kept n.log.store).coveredTerm := by
    simp [Persisted.coveredTerm, hsnap]
  refine ⟨hl, (h.log i).take snap.index, ?_, ?_, ?_, ?_⟩
  · rw [List.length_take_of_le (hcov ▸ hk.log.stored.covered_le)]
  · rw [hterm, hcov]
    exact hk.log.stored.coveredTerm.symm
  · rw [← hk.log_eq_led hs hl]
    exact List.take_prefix _ _
  · rw [hcov]
    exact hk.committed.isPrefix (List.take_prefix_take_left hk.log.covered_le_commit)

theorem Keeps.sendsEntries (hs : Sound members h) (hk : Keeps members h i n)
    (hl : h.leader n.term = some i) {next : Index} (hnext : n.log.snapshotIndex < next) {t : Term}
    (ht : n.log.termAt? (next - 1) = some t) (leader : NodeId) (most : Nat) :
    SendsEntries members h i
      ⟨n.term, leader, next - 1, t, n.log.entriesFrom next most, n.log.commitIndex⟩ := by
  obtain ⟨-, hle, hend⟩ := hk.log.termAt?_eq_some.mp ht
  have hled := hk.log_eq_led hs hl
  refine ⟨hl, ⟨(h.log i).take (next - 1), List.length_take_of_le hle, hend, ?_⟩, ?_, ?_⟩
  · rw [hk.log.entriesFrom hnext, ← List.take_add, ← hled]
    exact List.take_prefix _ _
  · exact hled ▸ hk.log.held
  · exact hled ▸ hk.committed

theorem Keeps.requestAt (hs : Sound members h) (hk : Keeps members h i n)
    (hl : h.leader n.term = some i) (next : Index) (most : Nat) :
    (∀ q, Replication.requestAt next n.log n.term n.id most = .ok q → Requests members h i q) ∧
      ∀ e, Replication.requestAt next n.log n.term n.id most = .error e → e.isFatal = true := by
  unfold Replication.requestAt
  split
  · cases hload : n.log.loadSnapshot with
    | error e => exact ⟨nofun, fun e' he => Except.error.inj he ▸ Log.loadSnapshot_isFatal hload⟩
    | ok snap =>
      cases snap with
      | none => exact ⟨nofun, fun e he => Except.error.inj he ▸ rfl⟩
      | some snap =>
        refine ⟨fun q hq => ?_, nofun⟩
        obtain rfl := Except.ok.inj hq
        exact hk.sendsSnapshot hs hl (Log.loadSnapshot_kept hload) n.id
  · rename_i hnext
    cases ht : n.log.termAt? (next - 1) with
    | none =>
      simp only [ht]
      exact ⟨nofun, fun e he => Except.error.inj he ▸ rfl⟩
    | some t =>
      simp only [ht]
      refine ⟨fun q hq => ?_, nofun⟩
      obtain rfl := Except.ok.inj hq
      exact hk.sendsEntries hs hl (by lia) ht n.id most

theorem Runs.leads (hr : Runs members h i n) {r : Replication} (hrole : n.role = .leader r) :
    Governs h i n.term n.peers r := by
  have := hr.role
  rwa [Holds, hrole] at this

theorem Runs.withLeader (hr : Runs members h i n) {r : Replication}
    (hg : Governs h i n.term n.peers r) : Runs members h i { n with role := .leader r } :=
  ⟨{ hr.toKeeps with }, hg⟩

theorem Keeps.nextRequest (hs : Sound members h) (hk : Keeps members h i n)
    (hg : Governs h i n.term n.peers r) (peer : NodeId) (most now lostAfter : Nat) :
    (∀ q r', r.nextRequest peer n.log n.term n.id most now lostAfter = .ok (some (q, r')) →
      Sends members h i q ∧ Governs h i n.term n.peers r') ∧
    ∀ e, r.nextRequest peer n.log n.term n.id most now lostAfter = .error e →
      e.isFatal = true := by
  unfold Replication.nextRequest
  cases hp : r.find? peer with
  | none => exact ⟨nofun, nofun⟩
  | some p =>
    obtain ⟨hok, herror⟩ := hk.requestAt hs hg.office p.nextIndex most
    dsimp only
    split
    · exact ⟨nofun, nofun⟩
    · split
      · rename_i e he
        exact ⟨nofun, fun e' he' => Except.error.inj he' ▸ herror e he⟩
      · rename_i request hq
        refine ⟨fun q r' heq => ?_, nofun⟩
        obtain ⟨rfl, rfl⟩ := Prod.mk.inj (Option.some.inj (Except.ok.inj heq))
        exact ⟨⟨hk.mem_members (hg.mem_peers hp), hok _ hq⟩,
          hg.update hk fun _ _ hp => ⟨hp.matched, hp.ahead, hp.within⟩⟩

theorem Runs.wp_requestFor (hs : Sound members h) (hr : Runs members h i n) (m : Moment)
    (peer : NodeId) : wp (Node.requestFor m peer)
      (fun o n' => Runs members h i n' ∧ ∀ q ∈ o, Sends members h i q) (Halted members h i) n := by
  rw [Node.requestFor, Action.wp_bind, Action.wp_get]
  split
  · rename_i r hrole
    have hg := hr.leads hrole
    obtain ⟨hok, herror⟩ := hr.nextRequest hs hg peer n.config.maxEntries m.now n.config.electionMax
    split
    · rename_i e he
      exact hr.halted hs (herror e he)
    · exact ⟨hr, nofun⟩
    · rename_i q r' hq
      obtain ⟨hsends, hg'⟩ := hok q r' hq
      exact ⟨hr.withLeader hg', fun q' hq' => Option.some.inj hq' ▸ hsends⟩
  · exact ⟨hr, nofun⟩

theorem Runs.wp_requestTo (hs : Sound members h) (hr : Runs members h i n) (m : Moment)
    (peer : NodeId) : wp (do pure (← Node.requestFor m peer).toList)
      (fun qs n' => Runs members h i n' ∧ SendsAll members h i qs) (Halted members h i) n := by
  refine Action.wp_seq (hr.wp_requestFor hs m peer) ?_
  rintro o n' ⟨hr', ho⟩
  exact ⟨hr', fun q hq => ho q (Option.mem_toList.mp hq)⟩

theorem Runs.wp_requestsFor (hs : Sound members h) (m : Moment) (names : List NodeId)
    (hr : Runs members h i n) : wp (Node.requestsFor m names)
      (fun qs n' => Runs members h i n' ∧ SendsAll members h i qs) (Halted members h i) n := by
  induction names generalizing n with
  | nil => exact ⟨hr, .nil⟩
  | cons peer rest ih =>
    rw [Node.requestsFor]
    refine Action.wp_seq (hr.wp_requestFor hs m peer) ?_
    rintro o n₁ ⟨hr₁, ho⟩
    refine Action.wp_seq (ih hr₁) ?_
    rintro qs n₂ ⟨hr₂, hqs⟩
    refine ⟨hr₂, fun q hq => ?_⟩
    rcases List.mem_append.mp hq with hq | hq
    · exact ho q (Option.mem_toList.mp hq)
    · exact hqs q hq

theorem Runs.wp_replicate (hs : Sound members h) (hr : Runs members h i n) (m : Moment) :
    wp (Node.replicate m)
      (fun qs n' => Runs members h i n' ∧ SendsAll members h i qs) (Halted members h i) n := by
  rw [Node.replicate, Action.wp_bind, Action.wp_get]
  exact hr.wp_requestsFor hs m n.peers

theorem Runs.wp_heartbeat (hs : Sound members h) (hr : Runs members h i n) (m : Moment) :
    wp (Node.heartbeat m)
      (fun qs n' => Runs members h i n' ∧ SendsAll members h i qs) (Halted members h i) n := by
  rw [Node.heartbeat, Action.wp_bind, Action.wp_get]
  split
  · rename_i r hrole
    rw [Action.wp_bind, Action.wp_set]
    have hg := hr.leads hrole
    exact (hr.withLeader (r := (r.checkQuorum m.now n.config.electionMax).2)
      ⟨hg.office, hg.peers, hg.tracks, hg.own⟩).wp_replicate hs m
  · exact ⟨hr, .nil⟩

/-! ## Committing and appending -/

theorem Governs.chosen (hs : Sound members h) (hk : Keeps members h i n)
    (hg : Governs h i n.term n.peers r)
    (hown : endTerm ((h.log i).take (r.majorityMatch (h.log i).length)) = n.term) :
    Committed members h n.term ((h.log i).take (r.majorityMatch (h.log i).length)) := by
  have hled := hk.log_eq_led hs hg.office
  refine Or.inr ⟨n.term, le_rfl, r.majorityMatch (h.log i).length, ⟨?_, hg.quorum hk⟩, ?_⟩
  · exact hled ▸ hown
  · exact hled ▸ List.prefix_refl _

theorem Runs.wp_advanceCommit (hs : Sound members h) (hr : Runs members h i n) :
    wp Node.advanceCommit (fun _ n' => Runs members h i n') (Halted members h i) n := by
  rw [Node.advanceCommit, Action.wp_bind, Action.wp_get]
  split
  · rename_i r hrole
    have hg := hr.leads hrole
    rw [Action.wp_ite]
    split
    · rename_i hnew
      simp only [Bool.and_eq_true, decide_eq_true_eq, hr.log.lastIndex] at hnew
      obtain ⟨hlt, hterm⟩ := hnew
      obtain ⟨-, hle, hend⟩ := hr.log.termAt?_eq_some.mp hterm
      have hchosen := hg.chosen hs hr.toKeeps hend
      rw [wp_onLog, hr.log.lastIndex]
      refine hr.log.wp_setCommitIndex hle ⟨{ hr.toKeeps with
        log := hr.log.raise hle, committed := ?_ }, ?_⟩
      · rw [max_eq_right hlt.le]
        exact hchosen
      · exact hr.role
    · exact hr
  · exact hr

/-- A leader's new entry is acknowledged by the leader itself. -/
theorem Runs.append (hs : Sound members h) (hr : Runs members h i n) (hrole : n.role = .leader r)
    (command : Bytes) : Evolves members h i (Node.onLog (Log.appendAsLeader n.term command))
      (fun h' _ n' => Runs members h' i n' ∧ n'.role = n.role) n := by
  have hg := hr.leads hrole
  have hlead : h.leader (h.term i) = some i := by rw [hr.term]; exact hg.office
  have hled := hs.offices.leads _ i hlead rfl
  let h₁ := h.propose i command
  have hm₁ : Moves members i h h₁ := hs.propose hlead command
  have hlog : h₁.log i = h.log i ++ [⟨(h.log i).length + 1, n.term, command⟩] := by
    simp [h₁, History.propose, hr.term]
  have hsame : h₁.led (h₁.term i) = h₁.log i := by simp [h₁, History.propose]
  let h₂ := h₁.ack i (h₁.log i).length
  have hm₂ : Moves members i h₁ h₂ := hm₁.sound.ack (by rw [hsame]) (by rw [hsame]; simp)
  have htake : (h₁.log i).take n.log.commitIndex = (h.log i).take n.log.commitIndex := by
    rw [hlog, List.take_append_of_le_length (by exact hr.log.held)]
  rw [Evolves, wp_onLog]
  refine Action.wp_mono (hr.log.wp_appendAsLeader n.term command) ?_ ?_
  · rintro index l ⟨rfl, hc, hl⟩
    refine ⟨h₂, hm₁.trans hm₂, ⟨{ hr.toKeeps with hard := ?_, log := ?_, committed := ?_ }, ?_⟩, rfl⟩
    · exact hc.hard.trans hr.hard
    · exact hlog ▸ hl
    · rw [hc.commit]
      exact htake ▸ hr.committed.extends hs (hm₁.trans hm₂).grows
    · rw [Holds, show Node.role { n with log := l } = .leader r from hrole]
      refine ⟨hg.office, hg.peers, fun p hp => ?_, by
        rw [← hr.term]
        exact History.le_acked_ack h₁ i _⟩
      obtain ⟨hmatched, hahead, hwithin⟩ := hg.tracks p hp
      refine ⟨hmatched.trans (hm₂.grows.acked _ _), hahead, hwithin.trans ?_⟩
      change _ ≤ (h₁.log i).length + 1
      rw [hlog, List.length_append]
      lia
  · rintro f l ⟨hf, hhard, hcov, F, rfl | rfl, hstands⟩
    · exact ⟨hf, h, .refl hs, hr.stored_changed hs (.refl hs) rfl rfl hhard hstands hcov rfl⟩
    · rw [← hlog] at hstands
      exact ⟨hf, h₁, hm₁, hr.stored_changed hs hm₁ rfl rfl hhard hstands hcov htake⟩

theorem Runs.wp_propose [StateMachine μ] (hs : Sound members h) (hr : Runs members h i n)
    (command : Bytes) : wp (Node.propose command)
      (fun _ n' => ∃ h', Moves members i h h' ∧ Runs members h' i n')
      (fun f n' => Halted members h i f n' ∨ f.halts = false ∧ n' = n) n := by
  rw [Node.propose, Action.wp_bind, Action.wp_get, Action.wp_ite]
  split
  · exact Or.inr ⟨rfl, rfl⟩
  rename_i hleader
  rw [Action.wp_ite]
  split
  · exact Or.inr ⟨rfl, rfl⟩
  split
  · exact Or.inr ⟨rfl, rfl⟩
  obtain ⟨r, hrole⟩ : ∃ r, n.role = .leader r := by
    unfold Node.isLeader at hleader
    cases hrole : n.role <;> simp_all [Role.kind]
  have hevolves := (hr.append hs hrole command).bind
    (f := fun index => do Node.advanceCommit; pure index)
    (Q := fun h' _ n' => Runs members h' i n') fun h' index n' hm ⟨hr', _⟩ => ?_
  · exact Action.wp_mono hevolves (fun _ _ h => h) fun _ _ => Or.inl
  · exact .of_wp hm.sound (Action.wp_seq (hr'.wp_advanceCommit hm.sound) fun _ _ hr'' => hr'')

/-! ## Taking office -/

/-- A candidate with the votes of a majority takes office. -/
theorem Keeps.elect (hs : Sound members h) (hk : Keeps members h i n) {votes : List NodeId}
    (hc : Campaigns members h i n.term votes) (hmajority : n.hasMajority votes.length) :
    ∃ h', Moves members i h h' ∧ Keeps members h' i n ∧ h'.leader n.term = some i ∧
      (h'.log i).length ≤ h'.acked i n.term := by
  have hQ : votes.toFinset ⊆ members := fun v hv => (hc.voted v (List.mem_toFinset.mp hv)).1
  have hvote : ∀ v ∈ votes.toFinset, h.vote v (h.term i) = some i := fun v hv => by
    rw [hk.term]
    exact (hc.voted v (List.mem_toFinset.mp hv)).2
  have hcard : majority members.card ≤ votes.toFinset.card := by
    rw [List.toFinset_card_of_nodup hc.distinct, hk.card]
    exact of_decide_eq_true hmajority
  have hvacant : h.leader (h.term i) = none := by
    by_contra hne
    obtain ⟨l, hl⟩ := Option.ne_none_iff_exists'.mp hne
    have := hs.winner_unique hl hQ hcard hvote
    rw [hk.term, this] at hl
    exact hc.pending hl
  have hstood : h.stood i (h.term i) = h.log i := by rw [hk.term]; exact hc.stood
  let h₁ := h.elect i votes.toFinset
  have hm₁ : Moves members i h h₁ := hs.elect hvacant hstood hQ hcard hvote
  have hled : h₁.led (h₁.term i) = h₁.log i := by simp [h₁, History.elect]
  have hm₂ := hm₁.sound.ack (i := i) (k := (h₁.log i).length) (by rw [hled])
    (by rw [hled]; simp)
  refine ⟨_, hm₁.trans hm₂, { hk with committed := ?_ }, ?_, ?_⟩
  · exact hk.committed.extends hs (hm₁.trans hm₂).grows
  · simp [h₁, History.ack, History.elect, ← hk.term]
  · rw [← hk.term]
    exact History.le_acked_ack h₁ i _

theorem eraseDups_of_nodup {names : List NodeId} (hn : names.Nodup) : names.eraseDups = names := by
  induction names with
  | nil => rfl
  | cons a rest ih =>
    obtain ⟨ha, hrest⟩ := List.nodup_cons.mp hn
    have hkeep : rest.filter (fun b => !b == a) = rest := List.filter_eq_self.mpr fun b hb => by
      have : b ≠ a := fun e => ha (e ▸ hb)
      simpa using this
    rw [List.eraseDups_cons, hkeep, ih hrest]

/-- A new view has every peer once, and no peer is known to store anything. -/
theorem Replication.wp_start_fresh {τ : Type} {s : τ} {names : List NodeId} (hd : names.Nodup)
    (last now : Nat) :
    wp (Replication.start names last now)
      (fun r t => t = s ∧ r.peers.map Prod.fst = names ∧
        ∀ p ∈ r.peers, p.2.matchIndex = 0 ∧ p.2.nextIndex = last + 1)
      (fun f t => f = .abort ∧ t = s) s := by
  rw [Replication.start, eraseDups_of_nodup hd, Action.wp_ite]
  split
  · rename_i hempty
    exact ⟨rfl, (List.isEmpty_iff.mp hempty).symm, nofun⟩
  · rw [Action.wp_bind, Action.wp_add]
    split
    · refine ⟨rfl, by simp [Function.comp_def], fun p hp => ?_⟩
      obtain ⟨a, -, rfl⟩ := List.mem_map.mp hp
      exact ⟨rfl, rfl⟩
    · exact ⟨rfl, rfl⟩

theorem Keeps.wp_start (hs : Sound members h) (hk : Keeps members h i n) (last now : Nat) :
    wp (Replication.start n.peers last now)
      (fun r n' => n' = n ∧ r.peers.map Prod.fst = n.peers ∧
        ∀ p ∈ r.peers, p.2.matchIndex = 0 ∧ p.2.nextIndex = last + 1)
      (Halted members h i) n := by
  refine Action.wp_mono (Replication.wp_start_fresh hk.distinct last now) (fun _ _ h => h) ?_
  rintro f _ ⟨rfl, rfl⟩
  exact hk.halted hs rfl

/-- A leader starts with the view that its peers lack nothing. -/
theorem Keeps.inOffice (hk : Keeps members h i n) (hoffice : h.leader n.term = some i)
    (hown : (h.log i).length ≤ h.acked i n.term) (hpeers : r.peers.map Prod.fst = n.peers)
    (hstart : ∀ p ∈ r.peers, p.2.matchIndex = 0 ∧ p.2.nextIndex = n.log.lastIndex + 1) :
    Runs members h i { n with role := .leader r } := by
  refine ⟨{ hk with }, hoffice, hpeers, fun p hp => ?_, hown⟩
  obtain ⟨hmatch, hnext⟩ := hstart p hp
  rw [hk.log.lastIndex] at hnext
  exact ⟨by lia, by lia, hnext.le⟩

theorem Keeps.becomeLeader (hs : Sound members h) (hk : Keeps members h i n)
    {votes : List NodeId} (hc : Campaigns members h i n.term votes)
    (hmajority : n.hasMajority votes.length) (m : Moment) :
    Evolves members h i (Node.becomeLeader m)
      (fun h' qs n' => Runs members h' i n' ∧ SendsAll members h' i qs) n := by
  obtain ⟨h₁, hm₁, hk₁, hoffice, hown⟩ := hk.elect hs hc hmajority
  refine .after hm₁ ?_
  rw [Evolves, Node.becomeLeader, Action.wp_bind, Action.wp_get]
  refine Action.wp_seq (hk₁.wp_start hm₁.sound _ _) ?_
  rintro r n ⟨rfl, hpeers, hstart⟩
  rw [Action.wp_bind]
  refine hk₁.wp_setRole hm₁.sound _ fun _ => ?_
  have hr := hk₁.inOffice hoffice hown hpeers hstart
  have := (hr.append hm₁.sound rfl []).bind
    (f := fun _ => do Node.advanceCommit; Node.replicate m)
    (Q := fun h' qs n' => Runs members h' i n' ∧ SendsAll members h' i qs)
    fun h' index n' hm hr' => ?_
  · exact this
  · refine .of_wp hm.sound (Action.wp_seq (hr'.1.wp_advanceCommit hm.sound) ?_)
    exact fun _ _ hr'' => hr''.wp_replicate hm.sound m

/-! ## Replies -/

/-- What a node does on a reply of a newer term. -/
theorem Runs.stepDown (hs : Sound members h) (hr : Runs members h i n) (m : Moment) (T : Term) :
    Evolves members h i (do Node.becomeFollower m T none; pure ([] : List Outbound))
      (fun h' qs n' => Runs members h' i n' ∧ SendsAll members h' i qs) n :=
  (hr.becomeFollower hs m T none).bind fun _ _ _ hm hr' => .pure hm.sound ⟨hr'.1, .nil⟩

theorem Runs.onAppendReply (hs : Sound members h) (hr : Runs members h i n) (m : Moment)
    {peer : NodeId} {sent : AppendSent} {r : AppendReply}
    (hl : Learns members h i (.append peer sent r)) :
    Evolves members h i (Node.onAppendReply m peer sent r)
      (fun h' qs n' => Runs members h' i n' ∧ SendsAll members h' i qs) n := by
  rw [Evolves, Node.onAppendReply, Action.wp_bind, Action.wp_get, Action.wp_ite]
  split
  · exact hr.stepDown hs m r.term
  rw [Action.wp_ite]
  split
  · exact ⟨h, .refl hs, hr, .nil⟩
  rename_i hterm
  split
  · rename_i view hrole
    have hg := hr.leads hrole
    rw [Action.wp_ite]
    split
    · rename_i hsuccess
      have hack : sent.prevIndex + sent.count ≤ h.acked peer n.term := by
        have := hl.success hsuccess
        rwa [not_not.mp hterm] at this
      refine Action.wp_seq (hg.wp_onAppendSuccess hs hr.toKeeps hack) ?_
      rintro view' n ⟨rfl, hg'⟩
      rw [Action.wp_bind, Action.wp_set]
      refine Action.wp_seq ((hr.withLeader hg').wp_advanceCommit hs) ?_
      rintro - n₁ hr₁
      rw [Action.wp_ite]
      split
      · exact Evolves.of_wp hs (hr₁.wp_requestTo hs m peer)
      · exact ⟨h, .refl hs, hr₁, .nil⟩
    · refine Action.wp_seq (hg.wp_onAppendReject hs hr.toKeeps hl (not_not.mp hterm) m.now) ?_
      rintro view' n ⟨rfl, hg'⟩
      exact ⟨h, .refl hs, hr.withLeader hg', .nil⟩
  · exact ⟨h, .refl hs, hr, .nil⟩

theorem Runs.onInstallReply (hs : Sound members h) (hr : Runs members h i n) (m : Moment)
    {peer : NodeId} {sentTerm : Term} {index : Index} {r : InstallReply}
    (hl : Learns members h i (.install peer sentTerm index r)) :
    Evolves members h i (Node.onInstallReply m peer sentTerm index r)
      (fun h' qs n' => Runs members h' i n' ∧ SendsAll members h' i qs) n := by
  rw [Evolves, Node.onInstallReply, Action.wp_bind, Action.wp_get, Action.wp_ite]
  split
  · exact hr.stepDown hs m r.term
  rename_i hnewer
  rw [Action.wp_ite]
  split
  · exact ⟨h, .refl hs, hr, .nil⟩
  rename_i hterm
  split
  · rename_i view hrole
    -- an answer of a newer term would have been followed, so this one is of the term it was sent in
    have hack : index ≤ h.acked peer n.term := by
      have := hl (by lia)
      rwa [not_not.mp hterm] at this
    refine Action.wp_seq ((hr.leads hrole).wp_confirm hs hr.toKeeps hack) ?_
    rintro view' n ⟨rfl, hg'⟩
    rw [Action.wp_bind, Action.wp_set]
    refine Action.wp_seq ((hr.withLeader hg').wp_advanceCommit hs) ?_
    exact fun _ _ hr₁ => Evolves.of_wp hs (hr₁.wp_requestTo hs m peer)
  · exact ⟨h, .refl hs, hr, .nil⟩

theorem Runs.wp_onUnreachable (hr : Runs members h i n) (peer : NodeId) (sentTerm : Term) :
    wp (Node.onUnreachable peer sentTerm) (fun _ n' => Runs members h i n') (Halted members h i)
      n := by
  rw [Node.onUnreachable, Action.wp_bind, Action.wp_get, Action.wp_ite]
  split
  · split
    · rename_i view hrole
      exact hr.withLeader ((hr.leads hrole).update hr.toKeeps fun _ _ hp =>
        ⟨hp.matched, hp.ahead, hp.within⟩)
    · exact hr
  · exact hr

end RaftNode
