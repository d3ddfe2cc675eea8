import RaftNode.Folder.Change
import RaftNode.HttpCall
import RaftNode.Service
import Std.Async
import Std.Http
import Std.Time
/-!
# The program

Carries out what the service wants done: files are read and written, events come from timers, connections and
signals, and calls go out to the peers. What a step stored is written before its messages and answers leave.
-/
namespace RaftNode.Program

open Std Std.Async

/-! ## Files -/

/-- The number of a system error; some calls give it with the opposite sign. -/
def errorNumber? : IO.Error → Option Nat
  | .noFileOrDirectory _ n _ | .alreadyExists _ n _ | .inappropriateType _ n _ | .noSuchThing _ n _
  | .resourceBusy n _ | .unsupportedOperation n _ | .otherError n _ => some (min n (0 - n)).toNat
  | _ => none

def systemFault? (e : IO.Error) : Option OsError := (errorNumber? e).bind OsError.ofNumber?

def describe (e : IO.Error) : String :=
  match systemFault? e with
  | some fault => fault.message
  | none => toString e

/-- The bytes of a file, or why the system does not give them. Faults it has no name for end the program. -/
def contentOf (path : String) : IO (Except OsError Bytes) := do
  try
    return .ok (← IO.FS.readBinFile path).toList
  catch e =>
    match systemFault? e with
    | some fault => return .error fault
    | none => throw e

/-- What the data folder at a path holds. A path that leads through a file leads through one here too. -/
def survey (path : String) : IO Folder := do
  let mut files : Folder := []
  for name in Service.dataFiles do
    match ← contentOf (Path.join path name) with
    | .ok content => files := files.put name (.file content)
    | .error .isDirectory => files := files.put name (.folder [])
    | .error .notDirectory =>
      let parts := (Path.parts path).toOption.getD []
      match ← contentOf path with
      | .ok _ => return ((Folder.makeAll (Path.parent parts) []).bind (Folder.writeAt path [])).toOption.getD []
      | .error _ => return (parts.find? Path.isName).toList.map fun name => (name, .file [])
    | .error _ => pure ()
  let root := (Folder.openAt path []).toOption.getD []
  return root.replaceAt (root.home path) files

/-- The data folder within what was surveyed. -/
def filesAt (path : String) (root : Folder) : Folder := (root.enter (root.home path)).toOption.getD []

def carryOut (path : String) : Change → IO Unit
  | .replace name content => do
    let temporary := Path.join path (Disk.temporary name)
    IO.FS.writeBinFile temporary ⟨content.toArray⟩
    IO.FS.rename temporary (Path.join path name)
  | .extend name more => do
    let h ← IO.FS.Handle.mk (Path.join path name) .append
    h.write ⟨more.toArray⟩
    h.flush
  | .remove name => do
    try IO.FS.removeFile (Path.join path name)
    catch e => if systemFault? e ≠ some .notFound then throw e

/-- Makes the files in the data folder those that `new` holds. -/
def keep (path : String) (old new : Folder) : IO Unit :=
  (Change.between Service.keptInOrder old new).forM (carryOut path)

/-! ## The node at work -/

structure Work where
  service : Service
  nextTicket : Ticket := 0
  waiting : List (Ticket × IO.Promise Answer) := []

structure Shared where
  settings : Settings
  work : Mutex Work

def moment : IO Moment := return { now := ← IO.monoMsNow, draw := ← IO.rand 0 0x7FFFFFFF }

/-- What the node wants done outside, and the node without it. -/
def Work.release (w : Work) (server : Server FileStore KeyValue) : List Effect × Work :=
  (server.effects, { w with service := { w.service with server := { server with effects := [] } } })

/-- Lets the node take the event that is chosen, if one is, and gives what it wants done outside. A node whose
files cannot be written halts as it was before the event. -/
def step (s : Shared) (choose : Moment → Work → Option Event × Work) : IO (List Effect) := do
  let m ← moment
  s.work.atomically do
    let (event, w) := choose m (← get)
    match event with
    | none => set w; return []
    | some e =>
      let (effects, after) := w.release (w.service.server.receive m e)
      try
        keep s.settings.dataFolder w.service.files after.service.files
        set after
        return effects
      catch fault =>
        let cause := (StoreError.io (describe fault)).toNodeError
        let (effects, halted) := w.release (w.service.server.halt (some cause))
        set halted
        return effects ++ e.refusal

def socketAddress? : Address → Option Net.SocketAddress
  | .v4 [a, b, c, d] port => some (.v4 { addr := ⟨#v[a, b, c, d]⟩, port })
  | .v6 [a, b, c, d, e, f, g, h] _ port => some (.v6 { addr := ⟨#v[a, b, c, d, e, f, g, h]⟩, port })
  | _ => none

/-- What comes back on a connection until the other side ends it. -/
partial def receiveAll (client : TCP.Socket.Client) (received : Bytes) : Async Bytes := do
  match ← client.recv? 65536 with
  | some more => receiveAll client (received ++ more.toList)
  | none => return received

def exchange (s : Shared) (m : Outbound) : Async Bytes := do
  let address := (s.settings.peers.find? fun p => p.id = m.target).map Peer.address
  match address, address.bind socketAddress? with
  | some a, some socket =>
    let talk : Async Bytes := do
      let client ← TCP.Socket.Client.mk
      client.connect socket
      client.send ⟨(m.request.callText a).toArray⟩
      receiveAll client []
    let limit : Async Bytes := do
      sleep (Time.Millisecond.Offset.ofNat s.settings.config.rpcTimeout)
      return []
    try Async.race talk limit catch _ => return []
  | _, _ => return []

mutual

partial def perform (s : Shared) (effects : List Effect) : Async Unit :=
  effects.forM fun
    | .send m => background (do post s (.response (m.heard (← exchange s m))))
    | .answer ticket a => do
      let promise ← s.work.atomically do
        let w ← get
        set { w with waiting := w.waiting.filter fun p => p.1 ≠ ticket }
        return w.waiting.lookup ticket
      promise.forM fun p => (p.resolve a : BaseIO Unit)

partial def post (s : Shared) (e : Event) : Async Unit := do
  perform s (← step s fun _ w => (some e, w))

end

/-- Lets the node take the events of its timers until its loop ends. -/
partial def keepTime (s : Shared) : Async Unit := do
  let due (m : Moment) (w : Work) : Option Event × Work :=
    match w.service.server.nextTimer with
    | some t => (if t ≤ m.now then some w.service.server.timerEvent else none, w)
    | none => (none, w)
  perform s (← step s due)
  if (← s.work.atomically get).service.server.running then
    sleep 5
    keepTime s

/-! ## Serving -/

def respond (s : Shared) (r : HttpRequest) : Async HttpResponse := do
  match r.action with
  | .refuse code => return .refused code
  | .showStatus => return .json (Wire.toJson (← s.work.atomically get).service.server.published)
  | .probeStatus => return .empty
  | .ask q =>
    let promise ← IO.Promise.new
    let ask (_ : Moment) (w : Work) : Option Event × Work :=
      let t := w.nextTicket
      (some (.request t q), { w with nextTicket := t + 1, waiting := (t, promise) :: w.waiting })
    perform s (← step s ask)
    match ← Async.ofPurePromise (pure promise) with
    | .reply a => return .ofReply a
    | _ => return .ofReply (.error .stopped)

def outgoing (r : HttpResponse) : Async (Http.Response Http.Body.Any) := do
  let builder (code : Nat) : Http.Response.Builder :=
    Http.Response.withStatus ((Http.Status.ofCode none code.toUInt16).getD .internalServerError)
  match r with
  | .json body => do
    let response ← (builder 200).json ((String.fromUTF8? ⟨body.render.toArray⟩).getD "")
    return { response with body := .ofBody response.body }
  | .text code body => do
    let response ← (builder code).text body
    return { response with body := .ofBody response.body }
  | .empty => do
    let response ← (builder 200).empty
    return { response with body := .ofBody response.body }
  | .refused code => do
    let response ← (builder code).empty
    return { response with body := .ofBody response.body }

def onRequest (s : Shared) (r : Http.Request Http.Body.Stream) : ContextAsync (Http.Response Http.Body.Any) := do
  let body : ByteArray ← r.body.readAll
  let contentType := (r.line.headers.get? .contentType).map fun v => v.value
  let request : HttpRequest :=
    { method := toString r.line.method, target := toString r.line.uri, contentType, body := body.toList }
  let response ← respond s request
  outgoing response

/-- Listens for requests; gives the fault if that is not possible. -/
def listen (s : Shared) : Async (Option IO.Error) := do
  match socketAddress? s.settings.listen with
  | none => return some (.userError "not an address")
  | some a =>
    try
      discard (Http.Server.serve a (Http.Server.Handler.ofFns (onRequest s)))
      return none
    catch e => return some e

/-- Ends the node's loop when the operator interrupts the program. -/
def heedInterrupt (s : Shared) : Async Unit := do
  let signal ← Signal.Waiter.mk .sigint false
  background (do
    discard (await (← signal.wait))
    post s .shutdown)

/-- Serves the node until its loop ends; gives the fault if it cannot be reached at all. -/
def serve (s : Shared) : Async (Option IO.Error) := do
  match ← listen s with
  | some e => return some e
  | none =>
    heedInterrupt s
    keepTime s
    return none

/-! ## Commands -/

def now : IO String := do
  let t ← Time.Timestamp.now
  return (Time.DateTime.ofTimestampWithZone t Time.TimeZone.UTC).toISO8601String

def run (c : Settings) : IO Exit := do
  let path := c.dataFolder
  let before ← survey path
  if (Folder.openAt path before).isOk && !path.isEmpty then
    try IO.FS.createDirAll path catch e => return .unopened (describe e)
  let (started, root) := Service.start c (← now) (← moment) (fun _ => none) before
  keep path (filesAt path before) (filesAt path root)
  match started with
  | .error e => return e
  | .ok service =>
    let s : Shared := { settings := c, work := ← Mutex.new { service } }
    match ← (serve s).block with
    | some e => return .unbound c.listen (describe e)
    | none =>
      let service := (← s.work.atomically get).service
      let root := service.folder path root
      let (e, after) := service.finish path root
      keep path (filesAt path root) (filesAt path after)
      return e

def execute (args : List String) : IO Exit := do
  match CommandLine.parse args with
  | .error e =>
    match e with
    | .helpWanted => IO.println CommandLine.usage
    | .versionWanted => IO.println "raft-node"
    | .misused _ => IO.eprintln CommandLine.usage
    return .ofNoCommand e
  | .ok (.reset path isConfirmed) =>
    let before ← survey path
    let (e, after) := Service.reset path isConfirmed before
    keep path (filesAt path before) (filesAt path after)
    return e
  | .ok (.run o) =>
    let content ← (o.settingsFile.mapM contentOf : IO (Option (Except OsError Bytes)))
    match CommandLine.settingsOf o fun _ => content.getD (.error .notFound) with
    | .error e => return .ofSettings e
    | .ok c => run c

end RaftNode.Program

def main (args : List String) : IO UInt32 := do
  let e ← RaftNode.Program.execute args
  e.report?.forM IO.eprintln
  return e.code.toUInt32
