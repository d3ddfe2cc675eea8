import RaftNode.Proofs.Member
/-!
# What messages say

A message says something about the history that stays true for as long as the message may be on its way.
-/
namespace RaftNode

open History (Sound Moves Extends Committed)

variable {members : Finset NodeId} {h h' : History} {s : NodeId}

/-- The candidate's log is the one it stood with. -/
structure AsksVote (h : History) (s : NodeId) (q : VoteRequest) : Prop where
  candidate : q.candidate = s
  stood : h.vote s q.term = some s
  lastIndex : q.lastIndex = (h.stood s q.term).length
  lastTerm : q.lastTerm = endTerm (h.stood s q.term)

/-- The entries follow the beginning `P` of the leader's log. -/
structure SendsEntries (members : Finset NodeId) (h : History) (s : NodeId) (q : AppendRequest) :
    Prop where
  office : h.leader q.term = some s
  entries : ∃ P, P.length = q.prevIndex ∧ endTerm P = q.prevTerm ∧ P ++ q.entries <+: h.led q.term
  commit : q.commit ≤ (h.led q.term).length
  committed : Committed members h q.term ((h.led q.term).take q.commit)

/-- The snapshot stands for a committed beginning of the leader's log. -/
structure SendsSnapshot (members : Finset NodeId) (h : History) (s : NodeId)
    (q : InstallRequest) : Prop where
  office : h.leader q.term = some s
  covers : ∃ C, C.length = q.index ∧ endTerm C = q.snapshotTerm ∧ C <+: h.led q.term ∧
    Committed members h q.term C

def Requests (members : Finset NodeId) (h : History) (s : NodeId) : Request → Prop
  | .vote q => AsksVote h s q
  | .append q => SendsEntries members h s q
  | .install q => SendsSnapshot members h s q

/-- What `s` may send. -/
structure Sends (members : Finset NodeId) (h : History) (s : NodeId) (m : Outbound) : Prop where
  target : m.target ∈ members.erase s
  request : Requests members h s m.request

def SendsAll (members : Finset NodeId) (h : History) (s : NodeId) (ms : List Outbound) : Prop :=
  ∀ m ∈ ms, Sends members h s m

/-- An append was taken over as a whole, or else the follower hints at an index no higher than where it began. -/
structure Acknowledges (h : History) (peer : NodeId) (sent : AppendSent) (r : AppendReply) :
    Prop where
  success : r.success → sent.prevIndex + sent.count ≤ h.acked peer sent.term
  within : sent.prevIndex ≤ (h.led sent.term).length
  hint : ∀ i, r.matchHint = some i → i ≤ sent.prevIndex

/-- What `s` may be told. -/
def Learns (members : Finset NodeId) (h : History) (s : NodeId) : Response → Prop
  | .vote peer T r => r.granted → peer ∈ members ∧ h.vote peer T = some s
  | .append peer sent r => Acknowledges h peer sent r
  | .install peer T index r => r.term ≤ T → index ≤ h.acked peer T
  | .unreachable .. => True

theorem AsksVote.extends (hx : Extends h h') {q : VoteRequest} (hq : AsksVote h s q) :
    AsksVote h' s q := by
  have hstood := hx.stood s _ hq.stood
  exact { hq with
    stood := hx.vote _ _ _ hq.stood
    lastIndex := by rw [hstood]; exact hq.lastIndex
    lastTerm := by rw [hstood]; exact hq.lastTerm }

theorem SendsEntries.extends (hs : Sound members h) (hx : Extends h h') {q : AppendRequest}
    (hq : SendsEntries members h s q) : SendsEntries members h' s q := by
  obtain ⟨P, hP, ht, hp⟩ := hq.entries
  exact {
    office := hx.leader _ _ hq.office
    entries := ⟨P, hP, ht, hp.trans (hx.led _)⟩
    commit := hq.commit.trans (hx.led _).length_le
    committed := by rw [hx.take_led hq.commit]; exact hq.committed.extends hs hx }

theorem SendsEntries.prevIndex_le {q : AppendRequest} (hq : SendsEntries members h s q) :
    q.prevIndex ≤ (h.led q.term).length := by
  obtain ⟨P, hP, -, hp⟩ := hq.entries
  exact hP ▸ ((List.prefix_append P _).trans hp).length_le

theorem SendsSnapshot.extends (hs : Sound members h) (hx : Extends h h') {q : InstallRequest}
    (hq : SendsSnapshot members h s q) : SendsSnapshot members h' s q := by
  obtain ⟨C, hC, ht, hp, hc⟩ := hq.covers
  exact ⟨hx.leader _ _ hq.office, C, hC, ht, hp.trans (hx.led _), hc.extends hs hx⟩

theorem Sends.extends (hs : Sound members h) (hx : Extends h h') {m : Outbound}
    (hm : Sends members h s m) : Sends members h' s m := by
  refine ⟨hm.target, ?_⟩
  have hq := hm.request
  unfold Requests at *
  split at hq
  · exact hq.extends hx
  · exact hq.extends hs hx
  · exact hq.extends hs hx

theorem SendsAll.nil : SendsAll members h s [] :=
  List.forall_mem_nil _

theorem Learns.extends (hx : Extends h h') {r : Response} (hr : Learns members h s r) :
    Learns members h' s r := by
  cases r with
  | vote peer T r => exact fun hg => ⟨(hr hg).1, hx.vote _ _ _ (hr hg).2⟩
  | append peer sent r =>
    exact ⟨fun hg => (hr.success hg).trans (hx.acked _ _), hr.within.trans (hx.led _).length_le, hr.hint⟩
  | install peer T index r => exact fun hg => (hr hg).trans (hx.acked _ _)
  | unreachable peer T => trivial

end RaftNode
