import RaftNode.Address
import RaftNode.Config
import RaftNode.Entry
import RaftNode.OsError
import RaftNode.Toml.Reader
import RaftNode.Utf8
/-!
# Settings of a node

What operators write in TOML. Every setting has a default and unknown ones are passed over. Whether the
settings fit together is checked apart from reading them.
-/
namespace RaftNode

structure Peer where
  id : NodeId
  address : Address
  deriving DecidableEq, Repr

/-- Times in milliseconds. -/
structure Settings where
  node : NodeId := 1
  listen : Address := .v4 [127, 0, 0, 1] 7001
  dataFolder : String := "data"
  peers : List Peer := []
  heartbeat : Nat := 150
  electionMin : Nat := 300
  electionMax : Nat := 500
  snapshotThreshold : Nat := 1000
  maxEntries : Nat := 64
  rpcTimeout : Nat := 250
  logLevel : String := "info"
  deriving DecidableEq, Repr

inductive SettingsError where
  | unreadable (path : String) (e : OsError)
  | malformed
  | invalid (reason : String)
  deriving DecidableEq, Repr

def SettingsError.message : SettingsError → String
  | .unreadable path e => "failed to read config file " ++ path ++ ": " ++ e.message
  | .malformed => "failed to parse config file: not of the expected form"
  | .invalid reason => "invalid configuration: " ++ reason

namespace Settings

/-! ## Reading -/

def wordOf : Toml → Option Nat
  | .integer n => if 0 ≤ n then some n.toNat else none
  | _ => none

def textOf : Toml → Option String
  | .string s => some s
  | _ => none

def addressOf (v : Toml) : Option Address := (textOf v).bind Address.parse?

/-- A peer, written as a table or as an array of its two parts. -/
def peerOf : Toml → Option Peer
  | .table _ ms => ofMembers ms
  | .array (id :: address :: _) => do return ⟨← wordOf id, ← addressOf address⟩
  | _ => none
where
  ofMembers (ms : Toml.Members) : Option Peer := do
    return ⟨← (← Toml.find? "id" ms) |> wordOf, ← (← Toml.find? "addr" ms) |> addressOf⟩

def peersOf : Toml → Option (List Peer)
  | .array items => items.mapM peerOf
  | .tables latest before => (latest :: before).reverse.mapM peerOf.ofMembers
  | _ => none

def ofMembers (ms : Toml.Members) : Option Settings := do
  let get {α : Type} (key : String) (read : Toml → Option α) (default : α) : Option α :=
    match Toml.find? key ms with
    | some v => read v
    | none => some default
  let d : Settings := {}
  return {
    node := ← get "node_id" wordOf d.node
    listen := ← get "listen_addr" addressOf d.listen
    dataFolder := ← get "data_dir" textOf d.dataFolder
    peers := ← get "peers" peersOf d.peers
    heartbeat := ← get "heartbeat_interval_ms" wordOf d.heartbeat
    electionMin := ← get "election_timeout_min_ms" wordOf d.electionMin
    electionMax := ← get "election_timeout_max_ms" wordOf d.electionMax
    snapshotThreshold := ← get "snapshot_threshold" wordOf d.snapshotThreshold
    maxEntries := ← get "max_entries_per_append" wordOf d.maxEntries
    rpcTimeout := ← get "rpc_timeout_ms" wordOf d.rpcTimeout
    logLevel := ← get "log_level" textOf d.logLevel }

def ofText (text : String) : Except SettingsError Settings :=
  match (Toml.read text).bind ofMembers with
  | some s => .ok s
  | none => .error .malformed

def ofFile (path : String) (content : Except OsError Bytes) : Except SettingsError Settings :=
  match content with
  | .error e => .error (.unreadable path e)
  | .ok bytes =>
    match Utf8.decode? bytes with
    | some text => ofText text
    | none => .error (.unreadable path .notText)

/-! ## Checking -/

/-- Peers that are distinct and do not include the node. The first fault counts. -/
def checkPeers (node : NodeId) : List NodeId → List NodeId → Except SettingsError Unit
  | _, [] => .ok ()
  | seen, id :: rest =>
    if id = node then .error (.invalid (s!"node {node} lists itself as a peer"))
    else if seen.contains id then .error (.invalid (s!"duplicate peer id {id}"))
    else checkPeers node (id :: seen) rest

def peerIds (s : Settings) : List NodeId := s.peers.map Peer.id

def validate (s : Settings) : Except SettingsError Unit := do
  checkPeers s.node [] s.peerIds
  let require (p : Bool) (reason : String) : Except SettingsError Unit :=
    if p then .ok () else .error (.invalid reason)
  require (s.electionMin < s.electionMax)
    (s!"election_timeout_min_ms ({s.electionMin}) must be below election_timeout_max_ms ({s.electionMax})")
  require (0 < s.heartbeat && s.heartbeat < s.electionMin)
    (s!"heartbeat_interval_ms ({s.heartbeat}) must be positive and below election_timeout_min_ms " ++
      s!"({s.electionMin})")
  require (0 < s.maxEntries) "max_entries_per_append must be positive"
  require (0 < s.rpcTimeout && s.rpcTimeout ≤ s.electionMax)
    (s!"rpc_timeout_ms ({s.rpcTimeout}) must be positive and at most election_timeout_max_ms ({s.electionMax})")

def config (s : Settings) : Config where
  heartbeat := s.heartbeat
  electionMin := s.electionMin
  electionMax := s.electionMax
  snapshotThreshold := s.snapshotThreshold
  maxEntries := s.maxEntries
  rpcTimeout := s.rpcTimeout

end Settings

end RaftNode
