import RaftNode.Config
import RaftNode.Machine
import RaftNode.Replication
import RaftNode.Role
/-!
# A node

The protocol state of one member of a cluster. Every event is a step on this state; the messages it wants sent
are part of the step's answer. The term and the vote are stored before anything depends on them.
-/
namespace RaftNode

inductive Role where
  /-- `leader` is the leader of the current term, once heard from. -/
  | follower (leader : Option NodeId)
  /-- `votes` are the nodes that granted a vote in the current term, this one among them. -/
  | candidate (votes : List NodeId)
  | leader (replication : Replication)
  deriving DecidableEq, Repr

def Role.kind : Role → RoleKind
  | .follower _ => .follower
  | .candidate _ => .candidate
  | .leader _ => .leader

structure Node (σ μ : Type) where
  id : NodeId
  /-- The other members, in the order given; a member named twice counts twice. -/
  peers : List NodeId
  config : Config
  term : Term
  vote : Option NodeId
  log : Log σ
  role : Role
  machine : μ
  /-- When a node that is no leader stands for election. -/
  electionDeadline : Nat
  appliedSinceSnapshot : Nat
  deriving Repr

abbrev NodeAction (σ μ α : Type) := Action NodeError (Node σ μ) α

/-- A committed command that the machine was given. -/
structure Applied where
  index : Index
  term : Term
  output : Output

namespace Node

variable {σ μ : Type}

def onLog (step : LogAction σ α) : NodeAction σ μ α :=
  Action.within Node.log (fun l n => { n with log := l }) (fun e => e) step

/-! ## Start -/

/-- A node over a recovered log. The machine takes the state of the snapshot; committed entries after it are
applied again once a leader says how far they are committed. -/
def ofRecovered [StateMachine μ] (id : NodeId) (peers : List NodeId) (r : Log.Recovered σ) (machine : μ)
    (config : Config) (m : Moment) : Except NodeError (Node σ μ) := do
  let machine ← match r.snapshot with
    | some s => (StateMachine.restore machine s.data).mapError NodeError.snapshotCorruption
    | none => .ok machine
  .ok {
    id, config, machine, peers := peers.filter fun p => p ≠ id, term := r.hard.term, vote := r.hard.vote,
    log := r.log, role := .follower none, electionDeadline := config.deadline m, appliedSinceSnapshot := 0 }

def boot [LogStore σ] [StateMachine μ] (id : NodeId) (peers : List NodeId) (machine : μ) (config : Config)
    (m : Moment) : Action NodeError σ (Node σ μ) := do
  let r ← Log.boot
  match ofRecovered id peers r machine config m with
  | .ok n => pure n
  | .error e => Action.fail e

/-! ## What it shows -/

def isLeader (n : Node σ μ) : Bool := n.role.kind = .leader

def leader? (n : Node σ μ) : Option NodeId :=
  match n.role with
  | .leader _ => some n.id
  | .follower leader => leader
  | .candidate _ => none

def replication? (n : Node σ μ) : Option Replication :=
  match n.role with
  | .leader r => some r
  | _ => none

def status (n : Node σ μ) : Status where
  id := n.id
  role := n.role.kind
  term := n.term
  vote := n.vote
  leader := n.leader?
  commitIndex := n.log.commitIndex
  lastApplied := n.log.lastApplied
  lastIndex := n.log.lastIndex
  snapshotIndex := n.log.snapshotIndex
  running := true
  halted := none

def hasMajority (n : Node σ μ) (count : Nat) : Bool := majority (n.peers.length + 1) ≤ count

/-! ## Changing role -/

def setRole (role : Role) : NodeAction σ μ Unit := do
  Action.require ((← get).role.kind.mayBecome role.kind)
  modify fun n => { n with role }

def resetDeadline (m : Moment) : NodeAction σ μ Unit :=
  modify fun n => { n with electionDeadline := n.config.deadline m }

variable [LogStore σ]

/-- Adopts a term and a vote, which are stored at once. -/
def adopt (term : Term) (vote : Option NodeId) : NodeAction σ μ Unit := do
  modify fun n => { n with term, vote }
  onLog (Log.saveHard { term, vote })

/-- Steps down, into `term` if that is newer. -/
def becomeFollower (m : Moment) (term : Term) (leader : Option NodeId) : NodeAction σ μ Unit := do
  if (← get).term < term then adopt term none
  setRole (.follower leader)
  resetDeadline m

/-- Accepts the leader of a term that is not older than ours. -/
def follow (m : Moment) (term : Term) (leader : NodeId) : NodeAction σ μ Unit := do
  let n ← get
  if n.term < term || n.role.kind ≠ .follower then becomeFollower m term (some leader)
  else
    setRole (.follower (some leader))
    resetDeadline m

/-! ## Leading -/

/-- The next request for one peer, if this node leads and the peer owes no answer. -/
def requestFor (m : Moment) (peer : NodeId) : NodeAction σ μ (Option Outbound) := do
  let n ← get
  match n.role with
  | .leader r =>
    match r.nextRequest peer n.log n.term n.id n.config.maxEntries m.now n.config.electionMax with
    | .error e => Action.fail e
    | .ok none => pure none
    | .ok (some (message, r)) =>
      set { n with role := .leader r }
      pure (some message)
  | _ => pure none

def requestsFor (m : Moment) : List NodeId → NodeAction σ μ (List Outbound)
  | [] => pure []
  | peer :: rest => do
    let message ← requestFor m peer
    let messages ← requestsFor m rest
    pure (message.toList ++ messages)

/-- A request for every peer that owes no answer. -/
def replicate (m : Moment) : NodeAction σ μ (List Outbound) := do
  requestsFor m (← get).peers

/-- Commits the highest index that a majority stores, if its entry is of the current term. -/
def advanceCommit : NodeAction σ μ Unit := do
  let n ← get
  match n.role with
  | .leader r =>
    let candidate := r.majorityMatch n.log.lastIndex
    if n.log.commitIndex < candidate && n.log.termAt? candidate = some n.term then
      onLog (Log.setCommitIndex candidate)
  | _ => pure ()

/-- Takes office. The first entry of a term has no command; what earlier terms left over is committed with it. -/
def becomeLeader (m : Moment) : NodeAction σ μ (List Outbound) := do
  let n ← get
  let r ← Replication.start n.peers n.log.lastIndex m.now
  setRole (.leader r)
  let _ ← onLog (Log.appendAsLeader n.term [])
  advanceCommit
  replicate m

/-- A round of requests, after noting whether a majority still answers. -/
def heartbeat (m : Moment) : NodeAction σ μ (List Outbound) := do
  let n ← get
  match n.role with
  | .leader r =>
    set { n with role := .leader (r.checkQuorum m.now n.config.electionMax).2 }
    replicate m
  | _ => pure []

/-- Appends a client's command. Its index is returned before it is committed. -/
def propose [StateMachine μ] (command : Bytes) : NodeAction σ μ Index := do
  let n ← get
  if !n.isLeader then Action.fail (.notLeader n.leader?)
  else if command.isEmpty then Action.fail .emptyCommand
  else
    match StateMachine.validate n.machine command with
    | .error e => Action.fail (.machine e)
    | .ok () =>
      let index ← onLog (Log.appendAsLeader n.term command)
      advanceCommit
      pure index

/-! ## Elections -/

/-- The election timeout elapsed: stand as candidate in a new term. -/
def startElection (m : Moment) : NodeAction σ μ (List Outbound) := do
  let n ← get
  if n.isLeader then pure []
  else
    let term ← Action.add n.term 1
    adopt term (some n.id)
    setRole (.candidate [n.id])
    resetDeadline m
    if n.hasMajority 1 then becomeLeader m
    else
      let request : VoteRequest := {
        term, candidate := n.id, lastIndex := n.log.lastIndex, lastTerm := n.log.lastTerm }
      pure (n.peers.map fun peer => ⟨peer, .vote request⟩)

def onVoteRequest (m : Moment) (q : VoteRequest) : NodeAction σ μ VoteReply := do
  if q.term < (← get).term then pure { term := (← get).term, granted := false }
  else
    if (← get).term < q.term then becomeFollower m q.term none
    let n ← get
    if (n.vote = none || n.vote = some q.candidate) && n.log.isUpToDate q.lastTerm q.lastIndex then
      if n.vote ≠ some q.candidate then adopt n.term (some q.candidate)
      resetDeadline m
      pure { term := n.term, granted := true }
    else pure { term := n.term, granted := false }

def onVoteReply (m : Moment) (peer : NodeId) (sentTerm : Term) (r : VoteReply) :
    NodeAction σ μ (List Outbound) := do
  let n ← get
  if n.term < r.term then
    becomeFollower m r.term none
    pure []
  else if sentTerm ≠ n.term || !r.granted then pure []
  else
    match n.role with
    | .candidate votes =>
      let votes := if votes.contains peer then votes else votes ++ [peer]
      set { n with role := .candidate votes }
      if n.hasMajority votes.length then becomeLeader m else pure []
    | _ => pure []

/-! ## Replication -/

def onAppendRequest (m : Moment) (q : AppendRequest) : NodeAction σ μ AppendReply := do
  let n ← get
  if q.term < n.term then pure { term := n.term, success := false }
  else
    follow m q.term q.leader
    let n ← get
    match Log.reconcile q.prevIndex q.prevTerm q.entries q.commit n.log with
    | .ok _ log =>
      set { n with log }
      pure { term := n.term, success := true }
    | .error (.error (.logConflict _ hint)) log =>
      set { n with log }
      pure { term := n.term, success := false, matchHint := some hint }
    | .error e log =>
      set { n with log }
      throw e

def onAppendReply (m : Moment) (peer : NodeId) (sent : AppendSent) (r : AppendReply) :
    NodeAction σ μ (List Outbound) := do
  let n ← get
  if n.term < r.term then
    becomeFollower m r.term none
    pure []
  else if sent.term ≠ n.term then pure []
  else
    match n.role with
    | .leader view =>
      if r.success then
        let view ← view.onAppendSuccess peer sent m.now
        set { n with role := .leader view }
        let behind := (view.find? peer).any fun p => p.nextIndex ≤ n.log.lastIndex
        advanceCommit
        if behind then pure (← requestFor m peer).toList else pure []
      else
        let view ← view.onAppendReject peer sent r.matchHint m.now
        set { n with role := .leader view }
        pure []
    | _ => pure []

/-- The transport brought no answer to a request of a term. -/
def onUnreachable (peer : NodeId) (sentTerm : Term) : NodeAction σ μ Unit := do
  let n ← get
  if sentTerm = n.term then
    match n.role with
    | .leader view => set { n with role := .leader (view.onUnreachable peer) }
    | _ => pure ()

/-! ## Snapshots -/

variable [StateMachine μ]

def onInstallRequest (m : Moment) (q : InstallRequest) : NodeAction σ μ InstallReply := do
  let n ← get
  if q.term < n.term then pure { term := n.term }
  else
    follow m q.term q.leader
    if ← onLog (Log.install { index := q.index, term := q.snapshotTerm, data := q.data }) then
      let n ← get
      match StateMachine.restore n.machine q.data with
      | .error e => Action.fail (.snapshotCorruption e)
      | .ok machine => set { n with machine, appliedSinceSnapshot := 0 }
    pure { term := (← get).term }

omit [StateMachine μ] in
def onInstallReply (m : Moment) (peer : NodeId) (sentTerm : Term) (index : Index) (r : InstallReply) :
    NodeAction σ μ (List Outbound) := do
  let n ← get
  if n.term < r.term then
    becomeFollower m r.term none
    pure []
  else if sentTerm ≠ n.term then pure []
  else
    match n.role with
    | .leader view =>
      let view ← view.onInstalled peer index m.now
      set { n with role := .leader view }
      advanceCommit
      pure (← requestFor m peer).toList
    | _ => pure []

/-- Takes a snapshot at the last applied index and drops the entries it covers; `none` when nothing was applied
since the last one. -/
def takeSnapshot : NodeAction σ μ (Option SnapshotPoint) := do
  let n ← get
  let index := n.log.lastApplied
  if index ≤ n.log.snapshotIndex then pure none
  else
    match n.log.termAt? index with
    | none => Action.fail (.durability (s!"applied entry {index} missing from log"))
    | some term =>
      onLog (Log.compact { index, term, data := StateMachine.snapshot n.machine })
      modify fun n => { n with appliedSinceSnapshot := 0 }
      pure (some ⟨index, term⟩)

/-- Applies at most so many committed entries. -/
def applyNext : Nat → NodeAction σ μ (List Applied)
  | 0 => pure []
  | count + 1 => do
    match ← onLog Log.nextCommitted with
    | none => pure []
    | some e =>
      modify fun n => { n with appliedSinceSnapshot := n.appliedSinceSnapshot + 1 }
      if e.isNoop then applyNext count
      else
        let n ← get
        let (output, machine) := StateMachine.apply n.machine e.index e.command
        set { n with machine }
        let rest ← applyNext count
        pure (⟨e.index, e.term, output⟩ :: rest)

/-- Applies every committed entry that is not applied yet, none more than once, then takes a snapshot if enough
were applied since the last one. -/
def applyCommitted : NodeAction σ μ (List Applied) := do
  let n ← get
  let applied ← applyNext n.log.entries.length
  let n ← get
  if 0 < n.config.snapshotThreshold && n.config.snapshotThreshold ≤ n.appliedSinceSnapshot then
    let _ ← takeSnapshot
  pure applied

/-! ## Any message -/

def onRequest (m : Moment) : Request → NodeAction σ μ Reply
  | .vote q => return .vote (← onVoteRequest m q)
  | .append q => return .append (← onAppendRequest m q)
  | .install q => return .install (← onInstallRequest m q)

omit [StateMachine μ] in
def onResponse (m : Moment) : Response → NodeAction σ μ (List Outbound)
  | .vote peer sentTerm r => onVoteReply m peer sentTerm r
  | .append peer sent r => onAppendReply m peer sent r
  | .install peer sentTerm index r => onInstallReply m peer sentTerm index r
  | .unreachable peer sentTerm => do
    onUnreachable peer sentTerm
    return []

end Node

end RaftNode
