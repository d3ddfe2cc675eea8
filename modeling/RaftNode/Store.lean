import RaftNode.Error
/-!
# Stores

A store keeps the term and vote, a snapshot and the log entries after it. A write that fails must not be
relied on. Nothing else of a node outlives a restart. The simplest store is the one in memory.
-/
namespace RaftNode

abbrev StoreAction (σ α : Type) := Action StoreError σ α

class LogStore (σ : Type) where
  load : StoreAction σ Persisted
  saveHard : HardState → StoreAction σ Unit
  append : List Entry → StoreAction σ Unit
  /-- Drops the entries at an index and above. -/
  truncate : Index → StoreAction σ Unit
  /-- Keeps a snapshot and drops the entries it covers. -/
  install : Snapshot → StoreAction σ Unit
  loadSnapshot : σ → Except StoreError (Option Snapshot)

/-! ## In memory -/

/-- It holds what it was last given. Writes can be made to fail; a failed write changes nothing. -/
structure MemoryStore where
  kept : Persisted := {}
  failWrites : Bool := false
  deriving DecidableEq, Repr, Inhabited

namespace MemoryStore

def write (change : Persisted → Persisted) : StoreAction MemoryStore Unit := fun s =>
  if s.failWrites then .error (.error (.io "injected write failure")) s
  else .ok () { s with kept := change s.kept }

end MemoryStore

instance : LogStore MemoryStore where
  load := fun s => .ok s.kept s
  saveHard h := MemoryStore.write fun p => { p with hard := h }
  append es := MemoryStore.write fun p => { p with entries := p.entries ++ es }
  truncate i := MemoryStore.write fun p => { p with entries := p.entries.filter fun e => e.index < i }
  install snap := MemoryStore.write fun p =>
    { p with snapshot := some snap, entries := p.entries.filter fun e => snap.index < e.index }
  loadSnapshot s := .ok s.kept.snapshot

end RaftNode
