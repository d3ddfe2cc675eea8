import RaftNode.Proofs.Ballots
/-!
# Votes that were heard

Whoever stands has collected its votes one by one, and whoever leads had a majority of them, in the term that it shows.
-/
namespace RaftNode

open RaftNode.Node (Step Steps Occasion)

variable {σ μ : Type} {n n' : Node σ μ} {o : Occasion} {heard heard' : Term → NodeId → Prop} {votes : List NodeId}
  {i : NodeId} {T : Term}

/-- A vote for term `T` comes in from `v`. -/
def Node.Occasion.Grants (o : Occasion) (T : Term) (v : NodeId) : Prop :=
  ∃ r, o = .response (.vote v T r) ∧ r.granted = true

/-- Different nodes: node `i` itself, and others whose votes for term `T` were heard. -/
structure Collected (heard : Term → NodeId → Prop) (i : NodeId) (T : Term) (votes : List NodeId) : Prop where
  distinct : votes.Nodup
  own : i ∈ votes
  heard : ∀ v ∈ votes, v ≠ i → heard T v

theorem Collected.mono (h : Collected heard i T votes) (hm : ∀ v, heard T v → heard' T v) :
    Collected heard' i T votes :=
  ⟨h.distinct, h.own, fun v hv hne => hm v (h.heard v hv hne)⟩

theorem Collected.single (i : NodeId) (T : Term) : Collected heard i T [i] :=
  ⟨List.nodup_singleton i, List.mem_singleton_self i, fun _ hv hne => absurd (List.mem_singleton.mp hv) hne⟩

theorem Collected.count (h : Collected heard i T votes) {peer : NodeId} (hpeer : heard T peer) :
    Collected heard i T (if votes.contains peer then votes else votes ++ [peer]) := by
  refine ⟨nodup_counted h.distinct peer, mem_counted.mpr (Or.inl h.own), fun v hv hne => ?_⟩
  obtain hv | rfl := mem_counted.mp hv
  · exact h.heard v hv hne
  · exact hpeer

namespace Node

/-- What there is behind the role of a node. -/
def Canvassed (heard : Term → NodeId → Prop) (n : Node σ μ) : Prop :=
  match n.role with
  | .follower _ => True
  | .candidate votes => Collected heard n.id n.term votes
  | .leader _ => ∃ votes, Collected heard n.id n.term votes ∧ majority (n.peers.length + 1) ≤ votes.length

theorem Canvassed.candidate (h : n.Canvassed heard) (hrole : n.role = .candidate votes) :
    Collected heard n.id n.term votes := by
  rwa [Canvassed, hrole] at h

theorem Canvassed.leader (h : n.Canvassed heard) {r : Replication} (hrole : n.role = .leader r) :
    ∃ votes, Collected heard n.id n.term votes ∧ majority (n.peers.length + 1) ≤ votes.length := by
  rwa [Canvassed, hrole] at h

theorem Canvassed.mono (h : n.Canvassed heard) (hm : ∀ T v, heard T v → heard' T v) : n.Canvassed heard' := by
  unfold Canvassed at *
  split at h
  · trivial
  · exact h.mono (hm _)
  · obtain ⟨votes, hvotes, hmajority⟩ := h
    exact ⟨votes, hvotes.mono (hm _), hmajority⟩

variable [LogStore σ] [StateMachine μ]

theorem Canvassed.step (h : n.Canvassed heard) (ho : ∀ T v, o.Grants T v → heard T v) (hs : Step o n n') :
    n'.Canvassed heard := by
  cases hs with
  | enter | follow => trivial
  | stand => exact .single _ _
  | count hcount hgranted hrole => exact (h.candidate hrole).count (ho _ _ ⟨_, hcount, hgranted⟩)
  | elect hrole hvotes => exact ⟨_, h.candidate hrole, of_decide_eq_true hvotes⟩
  | view hrole => exact h.leader hrole
  | wait | vote | append | commit | reconcile | install | apply | compact => exact h

theorem Canvassed.steps (h : n.Canvassed heard) (ho : ∀ T v, o.Grants T v → heard T v) (hs : Steps o n n') :
    n'.Canvassed heard := by
  induction hs with
  | refl => exact h
  | tail _ hstep ih => exact ih.step ho hstep

end Node

namespace Protocol

variable [LogStore σ] [LawfulStore σ] [StateMachine μ] {t : ℕ}

namespace OpenRun

/-- A vote of `v` for term `T` has come in at member `i` before moment `t`. -/
def Heard (r : OpenRun σ μ) (i : NodeId) (t : ℕ) (T : Term) (v : NodeId) : Prop :=
  ∃ u < t, ∃ m o, (r.event u).occasion i = some (m, o) ∧ o.Grants T v

theorem Heard.succ {r : OpenRun σ μ} {v : NodeId} (h : r.Heard i t T v) : r.Heard i (t + 1) T v := by
  obtain ⟨u, hu, hv⟩ := h
  exact ⟨u, hu.trans (Nat.lt_succ_self t), hv⟩

theorem upholds_canvassed (r : OpenRun σ μ) (i : NodeId) : r.Upholds i fun t n => n.Canvassed (r.Heard i t) where
  boot hboot := by
    obtain ⟨-, -, hrole, -⟩ := Action.wp_ok (Node.wp_boot_pledged _ _ _ _ _ _) hboot
    rw [Node.Canvassed, hrole]
    trivial
  rest hn := hn.mono fun _ _ => Heard.succ
  store _ hn := hn
  go ho hn hrun := by
    refine Node.Canvassed.steps (hn.mono fun _ _ => Heard.succ) ?_ hrun.steps
    intro T v hv
    exact ⟨_, Nat.lt_succ_self _, _, _, ho, hv⟩

theorem canvassed (r : OpenRun σ μ) (hn : (r.state t).node? i = some n) : n.Canvassed (r.Heard i t) :=
  (r.upholds_canvassed i).node hn

end OpenRun

end Protocol

end RaftNode
