import RaftNode.Store
import RaftNode.Store.File
/-!
# A store of either kind
-/
namespace RaftNode

inductive AnyStore where
  | memory (s : MemoryStore)
  | file (s : FileStore)
  deriving Repr, Inhabited

namespace AnyStore

def either (inMemory : StoreAction MemoryStore α) (inFiles : StoreAction FileStore α) :
    StoreAction AnyStore α
  | .memory s => match inMemory s with
    | .ok a s => .ok a (.memory s)
    | .error e s => .error e (.memory s)
  | .file s => match inFiles s with
    | .ok a s => .ok a (.file s)
    | .error e s => .error e (.file s)

end AnyStore

instance : LogStore AnyStore where
  load := AnyStore.either LogStore.load LogStore.load
  saveHard h := AnyStore.either (LogStore.saveHard h) (LogStore.saveHard h)
  append es := AnyStore.either (LogStore.append es) (LogStore.append es)
  truncate i := AnyStore.either (LogStore.truncate i) (LogStore.truncate i)
  install snap := AnyStore.either (LogStore.install snap) (LogStore.install snap)
  loadSnapshot
    | .memory s => LogStore.loadSnapshot s
    | .file s => LogStore.loadSnapshot s

end RaftNode
