import RaftNode.CommandLine
import RaftNode.Machine.KeyValue
import RaftNode.Server
import RaftNode.Store.File
import RaftNode.Store.System
/-!
# A node as a service

A node over its data folder, from the opening of the folder to the record of a clean end. What goes wrong is told
from the outside in: what was being done, then why it failed.
-/
namespace RaftNode

/-- How a command ends: its exit code, and what went wrong, if it can tell. -/
structure Exit where
  code : Nat
  chain : List String := []
  /-- What is wrong with a peer on the command line. -/
  badPeer : Option String := none
  deriving DecidableEq, Repr

namespace Exit

def success : Exit := { code := 0 }

def failure (chain : List String) : Exit := { code := 1, chain }

/-- The end of a command in the middle of something. -/
def during (doing : String) : Fault NodeError → Exit
  | .error e => failure [doing, e.message]
  | .abort => { code := 101 }

def unopened (reason : String) : Exit :=
  during "opening data directory" (.error (StoreError.io reason).toNodeError)

def unbound (a : Address) (reason : String) : Exit := failure ["binding " ++ a.toText, reason]

def ofNoCommand : NoCommand → Exit
  | .helpWanted | .versionWanted => success
  | .misused badPeer => { code := 2, badPeer }

def ofSettings (e : SettingsError) : Exit :=
  match e with
  | .unreadable _ cause => failure [e.message, cause.message]
  | _ => failure [e.message]

/-- The causes below what failed. A single one needs no number. -/
def reportCauses : List String → String
  | [] => ""
  | [cause] => "\n\nCaused by:\n    " ++ cause
  | causes =>
    "\n\nCaused by:" ++ String.join (causes.mapIdx fun i cause => "\n    " ++ toString i ++ ": " ++ cause)

def report? (e : Exit) : Option String :=
  match e.chain, e.badPeer with
  | what :: causes, _ => some ("Error: " ++ what ++ reportCauses causes)
  | [], some reason => some ("error: invalid value for --peer: " ++ reason)
  | [], none => none

end Exit

/-- A node that serves, and what its folder says of it. -/
structure Service where
  server : Server FileStore KeyValue
  system : SystemStore

namespace Service

def files (s : Service) : Folder := s.server.node.log.store.disk.folder

def folder (s : Service) (path : String) (root : Folder) : Folder :=
  root.replaceAt (root.home path) s.files

/-- Opens the data folder and boots a node over it. `bind` tells why an address cannot be listened on. -/
def start (c : Settings) (time : String) (m : Moment) (bind : Address → Option OsError) (root : Folder) :
    Except Exit Service × Folder :=
  match root.openAt c.dataFolder with
  | .error e => (.error (.unopened e.message), root)
  | .ok root =>
    match root.runAt c.dataFolder (SystemStore.boot c.dataFolder c.node time) with
    | (.error e, root) => (.error (.during "opening data directory" e), root)
    | (.ok system, root) =>
      let place := root.home c.dataFolder
      let inner := (root.enter place).toOption.getD []
      let syncFault := if c.dataFolder.isEmpty then some OsError.notFound else none
      match Log.boot (FileStore.mk { folder := inner, syncFault }) with
      | .error e store => (.error (.during "loading persisted state" e), root.replaceAt place store.disk.folder)
      | .ok r _ =>
        let root := root.replaceAt place r.log.store.disk.folder
        match Node.ofRecovered c.node c.peerIds r ({} : KeyValue) c.config m with
        | .error e => (.error (.during "restoring state machine" (.error e)), root)
        | .ok n =>
          match bind c.listen with
          | some e => (.error (.unbound c.listen e.message), root)
          | none => (.ok { server := Server.start n m.now, system }, root)

/-- Ends the service. A node that did not halt leaves the record of a clean end. -/
def finish (s : Service) (path : String) (root : Folder) : Exit × Folder :=
  let root := s.folder path root
  match s.server.published.halted with
  | some _ => ({ code := 1 }, root)
  | none =>
    match root.runAt path s.system.stopped.save with
    | (.ok _, root) => (.success, root)
    | (.error e, root) => (.during "recording clean shutdown" e, root)

/-- An event, and then those it brings about when no peer can be reached. -/
def receiveAlone (s : Service) (m : Moment) (e : Event) : Service :=
  let server := s.server.receive m e
  let losses := server.effects.filterMap fun
    | .send message => some (Event.response message.lost)
    | .answer _ _ => none
  let server := losses.foldl (fun server e => server.receive m e) server
  { s with server := { server with effects := [] } }

/-- When a service is asked to end. -/
structure Interrupt where
  /-- The file after whose appearance that happens. -/
  file : String
  delay : Nat

/-- Serves from `now` on without peers or clients, until the node halts or is interrupted. `due` is when the
interrupt comes, if that is settled. -/
def serveAlone (path : String) (root : Folder) (i : Option Interrupt) :
    (fuel : Nat) → (now : Nat) → (due : Option Nat) → Service → Option Service
  | 0, _, _, _ => none
  | fuel + 1, now, due, s =>
    let exists_ (i : Interrupt) : Bool := ((s.folder path root).node? i.file).isOk
    let due := match due, i with
      | none, some i => if exists_ i then some (now + i.delay) else none
      | due, _ => due
    match s.server.nextTimer with
    | none => some s
    | some t =>
      match due with
      | some d =>
        if d ≤ t then some (s.receiveAlone ⟨d, 0⟩ .shutdown)
        else serveAlone path root i fuel (max now t) due (s.receiveAlone ⟨max now t, 0⟩ s.server.timerEvent)
      | none => serveAlone path root i fuel (max now t) due (s.receiveAlone ⟨max now t, 0⟩ s.server.timerEvent)

/-- Runs a node whose peers cannot be reached. There is no exit within the given number of timer events if it
neither halts nor is interrupted. -/
def runAlone (c : Settings) (time : String) (bind : Address → Option OsError) (i : Option Interrupt) (fuel : Nat)
    (root : Folder) : Option Exit × Folder :=
  match start c time {} bind root with
  | (.error e, root) => (some e, root)
  | (.ok s, root) =>
    match serveAlone c.dataFolder root i fuel 0 none s with
    | none => (none, root)
    | some s =>
      let (e, root) := s.finish c.dataFolder root
      (some e, root)

/-! ## Erasing -/

/-- The files a node keeps in its folder, each followed by the one that replaces it. -/
def dataFiles : List String :=
  ["hard_state", "log", "snapshot", "system"].flatMap fun name => [name, Disk.temporary name]

/-- The same files in an order in which changes of them can be kept one after the other: a term before the entries
of that term, and a snapshot before the log without the entries it covers. -/
def keptInOrder : List String :=
  ["hard_state", "snapshot", "log", "system"].flatMap fun name => [name, Disk.temporary name]

/-- Removes files in order, passing over those that are missing. -/
def removeFiles (path : String) : List String → Folder → Exit × Folder
  | [], root => (.success, root)
  | name :: rest, root =>
    match root.removeAt (Path.join path name) with
    | .ok root => removeFiles path rest root
    | .error .notFound => removeFiles path rest root
    | .error e => (.failure ["removing " ++ Path.join path name, e.message], root)

/-- Erases what a node stored, if that is confirmed. -/
def reset (path : String) (isConfirmed : Bool) (root : Folder) : Exit × Folder :=
  if isConfirmed then removeFiles path dataFiles root
  else (.failure ["refusing to erase " ++ path ++ " without --yes"], root)

/-! ## Commands -/

/-- Carries out a command line in a folder, on a machine without a network. -/
def executeAlone (args : List String) (time : String) (i : Option Interrupt) (fuel : Nat) (root : Folder) :
    Option Exit × Folder :=
  match CommandLine.parse args with
  | .error e => (some (.ofNoCommand e), root)
  | .ok (.reset path isConfirmed) =>
    let (e, root) := reset path isConfirmed root
    (some e, root)
  | .ok (.run o) =>
    match CommandLine.settingsOf o fun path => root.contentAt path with
    | .error e => (some (.ofSettings e), root)
    | .ok c =>
      runAlone c time Address.fault? i fuel root

end Service

end RaftNode
