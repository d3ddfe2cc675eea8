import RaftNode.Store
import RaftNode.Store.Record
/-!
# Store in files

Three files of one folder: `hard_state` and `snapshot` hold one record each and are replaced as a whole; `log`
holds a record a line and grows at its end. A last line that is damaged or not ended is left over from a write
that power loss cut short, so reading drops it and trims the file; damage anywhere else is an error.
-/
namespace RaftNode

structure FileStore where
  disk : Disk := {}
  deriving Repr, Inhabited

namespace FileStore

def onDisk (step : DiskAction α) : StoreAction FileStore α :=
  Action.within FileStore.disk (fun d s => { s with disk := d }) (fun e => .io e.message) step

def logText (es : List Entry) : Bytes := es.flatMap fun e => Record.line e

def replaceLog (es : List Entry) : StoreAction FileStore Unit :=
  onDisk (Disk.replace "log" (logText es))

/-- The entries of the ended lines from line number `n` on, and whether the last line was dropped. -/
def entriesOfLines : Nat → List Bytes → Except StoreError (List Entry × Bool)
  | _, [] => .ok ([], false)
  | n, line :: rest =>
    if Record.isBlank line then entriesOfLines (n + 1) rest
    else
      match Record.decode line with
      | .ok e => (entriesOfLines (n + 1) rest).map fun (es, torn) => (e :: es, torn)
      | .error e =>
        if rest.isEmpty then .ok ([], true)
        else .error (.corruption (s!"log line {n}: " ++ e.message))

def checkAdjacent : List Entry → StoreAction FileStore Unit
  | a :: b :: rest => do
    let next ← Action.add a.index 1
    if b.index = next then checkAdjacent (b :: rest)
    else Action.fail (.corruption (s!"log gap between index {a.index} and {b.index}"))
  | _ => pure ()

/-- The entries of the log file, which is trimmed if its end is torn. -/
def readLog : StoreAction FileStore (List Entry) := do
  match (← get).disk.readText? "log" with
  | .error e => Action.fail (.io e.message)
  | .ok none => pure []
  | .ok (some content) =>
    let (lines, unended) := Bytes.splitLines content
    match entriesOfLines 1 lines with
    | .error e => Action.fail e
    | .ok (es, torn) =>
      checkAdjacent es
      if torn || !unended.isEmpty then replaceLog es
      pure es

def loadSnapshot (s : FileStore) : Except StoreError (Option Snapshot) :=
  (Record.read? "snapshot" s.disk).mapError fun e => .snapshotCorruption e.message

def load : StoreAction FileStore Persisted := do
  let s ← get
  match (Record.read? "hard_state" s.disk : Except RecordError (Option HardState)) with
  | .error e => Action.fail (.corruption ("hard_state: " ++ e.message))
  | .ok hard =>
    match s.loadSnapshot with
    | .error e => Action.fail e
    | .ok snapshot =>
      let covered := (snapshot.map Snapshot.index).getD 0
      -- a snapshot may be kept before the entries it covers are dropped
      let entries := (← readLog).filter fun e => covered < e.index
      match entries.head? with
      | some first =>
        if first.index = covered + 1 then pure ()
        else Action.fail (.corruption (s!"log starts at index {first.index} but snapshot ends at {covered}"))
      | none => pure ()
      pure { hard := hard.getD {}, snapshot, entries }

def append (es : List Entry) : StoreAction FileStore Unit := do
  if es.isEmpty then pure ()
  else
    let created := ((← get).disk.folder.find? "log").isNone
    onDisk do
      Disk.ensure "log"
      Disk.extend "log" (logText es)
      if created then Disk.sync

def truncate (i : Index) : StoreAction FileStore Unit := do
  let es ← readLog
  replaceLog (es.filter fun e => e.index < i)

def install (snap : Snapshot) : StoreAction FileStore Unit := do
  onDisk (Disk.replace "snapshot" (Record.line snap))
  let es ← readLog
  replaceLog (es.filter fun e => snap.index < e.index)

end FileStore

instance : LogStore FileStore where
  load := FileStore.load
  saveHard h := FileStore.onDisk (Disk.replace "hard_state" (Record.line h))
  append := FileStore.append
  truncate := FileStore.truncate
  install := FileStore.install
  loadSnapshot := FileStore.loadSnapshot

end RaftNode
