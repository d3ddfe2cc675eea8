import RaftNode.Settings
/-!
# The command line

`run` starts a node, `reset` erases what one stored. Arguments are read from the left. The value of an option
is looked at only when the next option begins or the line ends, so a word that fits nowhere is reported rather
than a bad value before it.
-/
namespace RaftNode

structure RunOptions where
  settingsFile : Option String := none
  node : Option NodeId := none
  listen : Option Address := none
  dataFolder : Option String := none
  peers : List Peer := []
  deriving DecidableEq, Repr

inductive Command where
  | run (o : RunOptions)
  | reset (dataFolder : String) (isConfirmed : Bool)
  deriving DecidableEq, Repr

inductive NoCommand where
  | helpWanted
  | versionWanted
  /-- It is wrong; `badPeer` tells what is wrong with a peer, if that is the reason. -/
  | misused (badPeer : Option String)
  deriving DecidableEq, Repr

namespace CommandLine

inductive Name where
  | config
  | nodeId
  | listen
  | dataDir
  | peer
  | yes
  | help
  deriving DecidableEq, Repr

def Name.text : Name → String
  | config => "config"
  | nodeId => "node-id"
  | listen => "listen"
  | dataDir => "data-dir"
  | peer => "peer"
  | yes => "yes"
  | help => "help"

def namesOfRun : List Name := [.config, .nodeId, .listen, .dataDir, .peer, .help]

def namesOfReset : List Name := [.dataDir, .yes, .help]

def usage : String :=
  "Usage: raft-node run [--config FILE] [--node-id N] [--listen ADDR] [--data-dir DIR] [--peer ID=ADDR]...\n" ++
  "       raft-node reset --data-dir DIR --yes"

structure Found where
  options : RunOptions := {}
  isConfirmed : Bool := false

/-- A peer given as `ID=ADDR`. -/
def parsePeer (text : String) : Except String Peer := do
  let cs := text.toList
  match cs.dropWhile (· ≠ '=') with
  | _ :: address =>
    let id := String.ofList (cs.takeWhile (· ≠ '='))
    let address := String.ofList address
    match parseWord id, Address.parse? address with
    | .error e, _ => .error ("invalid peer id '" ++ id ++ "': " ++ e.message)
    | .ok _, none => .error ("invalid peer address '" ++ address ++ "': invalid socket address syntax")
    | .ok id, some address => .ok ⟨id, address⟩
  | [] => .error ("expected ID=ADDR, got '" ++ text ++ "'")

def setOnce (old : Option α) (new : Option α) : Except NoCommand (Option α) :=
  match old, new with
  | none, some a => .ok (some a)
  | _, _ => .error (.misused none)

def store (f : Found) (name : Name) (value : String) : Except NoCommand Found := do
  let o := f.options
  let path := if value.isEmpty then none else some value
  match name with
  | .config => return { f with options := { o with settingsFile := ← setOnce o.settingsFile path } }
  | .nodeId => return { f with options := { o with node := ← setOnce o.node (parseWord value).toOption } }
  | .listen => return { f with options := { o with listen := ← setOnce o.listen (Address.parse? value) } }
  | .dataDir => return { f with options := { o with dataFolder := ← setOnce o.dataFolder path } }
  | .peer =>
    match parsePeer value with
    | .ok p => return { f with options := { o with peers := o.peers ++ [p] } }
    | .error reason => .error (.misused (some reason))
  | .yes | .help => .error (.misused none)

/-- An option whose name was read, and its value if that was read too. -/
abbrev Pending := Option (Name × Option String)

/-- Takes the option that was read last. -/
def resolve (f : Found) : Pending → Except NoCommand Found
  | none => .ok f
  | some (name, some value) => store f name value
  | some (_, none) => .error (.misused none)

def scan (names : List Name) (f : Found) (pending : Pending) : List String → Except NoCommand Found
  | [] => resolve f pending
  | word :: rest =>
    match word.toList, pending with
    -- no word may follow two dashes that stand alone
    | ['-', '-'], _ => if rest.isEmpty then resolve f pending else .error (.misused none)
    | '-' :: '-' :: long, _ =>
      let text := String.ofList (long.takeWhile (· ≠ '='))
      let value := match long.dropWhile (· ≠ '=') with
        | _ :: value => some (String.ofList value)
        | [] => none
      match names.find? fun n => n.text = text, value with
      | none, _ | some .yes, some _ | some .help, some _ => .error (.misused none)
      | some .help, none => do
        let _ ← resolve f pending
        .error .helpWanted
      | some .yes, none => do
        let f ← resolve f pending
        if f.isConfirmed then .error (.misused none) else scan names { f with isConfirmed := true } none rest
      | some name, some value => do scan names (← store (← resolve f pending) name value) none rest
      | some name, none => do scan names (← resolve f pending) (some (name, none)) rest
    | '-' :: 'h' :: _, _ => do
      let _ ← resolve f pending
      .error .helpWanted
    | '-' :: _ :: _, _ => .error (.misused none)
    | _, some (name, none) => scan names f (some (name, some word)) rest
    | _, _ => .error (.misused none)

def parse : List String → Except NoCommand Command
  | "run" :: rest => return .run (← scan namesOfRun {} none rest).options
  | "reset" :: rest => do
    let f ← scan namesOfReset {} none rest
    match f.options.dataFolder with
    | some folder => return .reset folder f.isConfirmed
    | none => .error (.misused none)
  | ["help"] | ["help", "run"] | ["help", "reset"] | ["help", "help"] => .error .helpWanted
  | "--help" :: _ => .error .helpWanted
  | "--version" :: _ => .error .versionWanted
  | word :: _ =>
    match word.toList with
    | '-' :: 'h' :: _ => .error .helpWanted
    | '-' :: 'V' :: _ => .error .versionWanted
    | _ => .error (.misused none)
  | [] => .error (.misused none)

/-- The settings a run asks for. Options of the line go before the file, and the file before the defaults. -/
def settingsOf (o : RunOptions) (read : String → Except OsError Bytes) : Except SettingsError Settings := do
  let s ← match o.settingsFile with
    | some path => Settings.ofFile path (read path)
    | none => .ok {}
  let s := { s with
    node := o.node.getD s.node
    listen := o.listen.getD s.listen
    dataFolder := o.dataFolder.getD s.dataFolder
    peers := if o.peers.isEmpty then s.peers else o.peers }
  s.validate
  return s

end CommandLine

end RaftNode
