import RaftNode.Store
/-!
# A store under observation

It notes every write before passing it on, and lets only so many pass. A node whose write is refused goes no
further in that event, so running an event with a budget of `n` and booting again is the same as a crash after
the `n`-th write of the event.
-/
namespace RaftNode

inductive Write where
  | hard (h : HardState)
  | append (entries : List Entry)
  | truncate (start : Index)
  | install (snapshot : Snapshot)
  deriving DecidableEq, Repr

structure Recorded (σ : Type) where
  inner : σ
  writes : List Write := []
  /-- How many more writes may pass, if there is a limit. -/
  budget : Option Nat := none
  /-- Whether the snapshot cannot be read back, except on boot. -/
  hideSnapshot : Bool := false
  deriving Repr

namespace Recorded

variable {σ : Type}

def onInner (step : StoreAction σ α) : StoreAction (Recorded σ) α :=
  Action.within Recorded.inner (fun i s => { s with inner := i }) id step

def pass (w : Write) (step : StoreAction σ Unit) : StoreAction (Recorded σ) Unit := do
  match (← get).budget with
  | some 0 => Action.fail (.io "crash")
  | budget =>
    modify fun s => { s with budget := budget.map (· - 1), writes := s.writes ++ [w] }
    onInner step

end Recorded

instance [LogStore σ] : LogStore (Recorded σ) where
  load := Recorded.onInner LogStore.load
  saveHard h := Recorded.pass (.hard h) (LogStore.saveHard h)
  append es := Recorded.pass (.append es) (LogStore.append es)
  truncate i := Recorded.pass (.truncate i) (LogStore.truncate i)
  install s := Recorded.pass (.install s) (LogStore.install s)
  loadSnapshot s := if s.hideSnapshot then .ok none else LogStore.loadSnapshot s.inner

end RaftNode
