import RaftNode.Store
/-!
# Replicated log

The entries after a snapshot, backed by a store. Every change reaches the store before it shows here, so
nothing is acknowledged or applied that a crash could lose.
-/
namespace RaftNode

structure Log (σ : Type) where
  store : σ
  /-- The entries after the snapshot; the one at position `k` has index `snapshotIndex + 1 + k`. -/
  entries : List Entry := []
  snapshotIndex : Index := 0
  snapshotTerm : Term := 0
  commitIndex : Index := 0
  lastApplied : Index := 0
  deriving Repr

abbrev LogAction (σ α : Type) := Action NodeError (Log σ) α

namespace Log

variable {σ : Type}

def onStore (step : StoreAction σ α) : LogAction σ α :=
  Action.within Log.store (fun s l => { l with store := s }) StoreError.toNodeError step

/-! ## What the log holds -/

def lastIndex (l : Log σ) : Index := (l.entries.getLast?.map Entry.index).getD l.snapshotIndex

def lastTerm (l : Log σ) : Term := (l.entries.getLast?.map Entry.term).getD l.snapshotTerm

/-- The entry at an index, unless it is absent or compacted away. -/
def entry? (l : Log σ) (i : Index) : Option Entry :=
  if i ≤ l.snapshotIndex then none else l.entries[i - l.snapshotIndex - 1]?

/-- The term at an index; the end of the snapshot still has one. -/
def termAt? (l : Log σ) (i : Index) : Option Term :=
  if i = l.snapshotIndex then some l.snapshotTerm else (l.entry? i).map Entry.term

/-- At most `most` entries from an index on, which must lie past the snapshot. -/
def entriesFrom (l : Log σ) (start : Index) (most : Nat) : List Entry :=
  if start ≤ l.snapshotIndex then [] else (l.entries.drop (start - l.snapshotIndex - 1)).take most

/-- The vote rule: a log is good enough if its last term is newer, or the same with at least our index. -/
def isUpToDate (l : Log σ) (lastTerm : Term) (lastIndex : Index) : Bool :=
  l.lastTerm < lastTerm || (lastTerm = l.lastTerm && l.lastIndex ≤ lastIndex)

/-! ## Opening -/

/-- What boot finds besides the log. -/
structure Recovered (σ : Type) where
  log : Log σ
  hard : HardState
  snapshot : Option Snapshot

/-- The store as it is left, and the log over it. Terms never decrease along a log, so an entry older than the
snapshot's term is left over from an install that did not finish, and it goes with all that follow it.
Commit and apply positions start again at the snapshot. -/
def boot [LogStore σ] : Action NodeError σ (Recovered σ) := do
  let p ← Action.within id (fun s _ => s) StoreError.toNodeError LogStore.load
  let index := (p.snapshot.map Snapshot.index).getD 0
  let term := (p.snapshot.map Snapshot.term).getD 0
  let kept := p.entries.takeWhile fun e => term ≤ e.term
  match (p.entries.drop kept.length).head? with
  | some stale => Action.within id (fun s _ => s) StoreError.toNodeError (LogStore.truncate stale.index)
  | none => pure ()
  let log : Log σ := {
    store := ← get, entries := kept, snapshotIndex := index, snapshotTerm := term,
    commitIndex := index, lastApplied := index }
  pure { log, hard := p.hard, snapshot := p.snapshot }

variable [LogStore σ]

def saveHard (h : HardState) : LogAction σ Unit := onStore (LogStore.saveHard h)

def loadSnapshot (l : Log σ) : Except NodeError (Option Snapshot) :=
  (LogStore.loadSnapshot l.store).mapError StoreError.toNodeError

/-! ## Growing -/

/-- Adds an entry of a leader's own term and returns its index. -/
def appendAsLeader (term : Term) (command : Bytes) : LogAction σ Index := do
  let index ← Action.add (← get).lastIndex 1
  let e : Entry := { index, term, command }
  onStore (LogStore.append [e])
  modify fun l => { l with entries := l.entries ++ [e] }
  pure index

/-- The first index, past the snapshot, of the run of entries of a term that ends at an index. -/
def firstOfRun (l : Log σ) (term : Term) : Index → Index
  | 0 => 0
  | i + 1 =>
    if l.snapshotIndex < i && l.termAt? i = some term then firstOfRun l term i else i + 1

/-- Raises the commit index, never past the last entry. -/
def setCommitIndex (i : Index) : LogAction σ Unit := do
  let l ← get
  Action.require (i ≤ l.lastIndex)
  if l.commitIndex < i then set { l with commitIndex := min i l.lastIndex }

/-- Drops the entries from an index on; a committed one is never dropped. -/
def truncateFrom (i : Index) : LogAction σ Unit := do
  let l ← get
  if i ≤ l.commitIndex then Action.fail (.committedConflict i l.commitIndex)
  else
    onStore (LogStore.truncate i)
    let _ ← Action.add (← Action.sub l.lastIndex i) 1
    modify fun l => { l with entries := l.entries.take (i - l.snapshotIndex - 1) }

/-- The part of a batch past what the log already holds. The first entry that disagrees with the log takes the
rest of the log away. -/
def dropKnown : List Entry → LogAction σ (List Entry)
  | [] => pure []
  | e :: rest => do
    match (← get).termAt? e.index with
    | some term =>
      if term = e.term then dropKnown rest
      else
        truncateFrom e.index
        pure (e :: rest)
    | none => pure (e :: rest)

/-- Takes over a leader's entries after `prevIndex`. The log must hold `prevTerm` there, or cover it by its
snapshot; otherwise nothing changes and the error hints where to try next. On success the commit index follows
the leader's as far as the batch reaches, and the index that the batch reaches is returned. -/
def reconcile (prevIndex : Index) (prevTerm : Term) (batch : List Entry) (leaderCommit : Index) :
    LogAction σ Index := do
  let lastNew ← Action.add prevIndex batch.length
  let l ← get
  let batch ←
    if prevIndex < l.snapshotIndex then pure (batch.drop (l.snapshotIndex - prevIndex))
    else
      match l.termAt? prevIndex with
      | none => Action.fail (.logConflict prevIndex l.lastIndex)
      | some term =>
        if term = prevTerm then pure batch
        else do
          let _ ← Action.add l.snapshotIndex 1
          Action.fail (.logConflict prevIndex (l.firstOfRun term prevIndex - 1))
  let fresh ← dropKnown batch
  if !fresh.isEmpty then
    onStore (LogStore.append fresh)
    modify fun l => { l with entries := l.entries ++ fresh }
  let target := min leaderCommit lastNew
  if (← get).commitIndex < target then setCommitIndex target
  pure lastNew

/-! ## Applying and compacting -/

/-- Hands out the next committed entry that is not applied yet, and counts it as applied. -/
def nextCommitted : LogAction σ (Option Entry) := do
  let l ← get
  if l.commitIndex ≤ l.lastApplied then pure none
  else
    match l.entry? (← Action.add l.lastApplied 1) with
    | none => pure none
    | some e =>
      set { l with lastApplied := e.index }
      pure (some e)

/-- Takes over a leader's snapshot. Nothing changes, and the answer is `false`, when what it covers is already
applied. The entries after it stay only if the log agrees with its last one. -/
def install (snap : Snapshot) : LogAction σ Bool := do
  let l ← get
  if snap.index ≤ l.lastApplied then pure false
  else
    if l.termAt? snap.index = some snap.term then
      onStore (LogStore.install snap)
      let covered ← Action.sub snap.index l.snapshotIndex
      modify fun l => { l with entries := l.entries.drop covered }
    else
      -- the stale entries go first: a crash in between must not leave them behind the snapshot
      onStore (LogStore.truncate (← Action.add snap.index 1))
      onStore (LogStore.install snap)
      modify fun l => { l with entries := [] }
    modify fun l => { l with
      snapshotIndex := snap.index, snapshotTerm := snap.term,
      commitIndex := max l.commitIndex snap.index, lastApplied := snap.index }
    pure true

/-- Keeps a snapshot of what is applied and drops the entries it covers. -/
def compact (snap : Snapshot) : LogAction σ Unit := do
  let l ← get
  Action.require (snap.index ≤ l.lastApplied)
  if snap.index ≤ l.snapshotIndex then pure ()
  else
    onStore (LogStore.install snap)
    Action.require (snap.index - l.snapshotIndex ≤ l.entries.length)
    modify fun l => { l with
      entries := l.entries.drop (snap.index - l.snapshotIndex),
      snapshotIndex := snap.index, snapshotTerm := snap.term }

end Log

end RaftNode
