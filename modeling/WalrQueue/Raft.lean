import WalrQueue.Engine
import WalrQueue.Lib.Varint

/-!
# The Raft node

`RaftNode` keeps a log of commands next to an engine.  A leader acks on its own
engine first and then logs and sends what it was asked to ack; a follower applies
every command of a request to its engine; a peer that lags gets a snapshot and then
the log.  Sending is modelled by the requests a
call returns, the clock stands at `now` while a call is handled, and terms and
indices are natural numbers.
-/

namespace WalrQueue

/-! ## Data -/

/-- `RaftRole`. -/
inductive RaftRole where
  | follower
  | candidate
  | leader
  deriving DecidableEq

/-- `RaftCommand`.  The field `visible_at` of a Push carries the delay. -/
inductive RaftCommand where
  | push (queue msgId : String) (payload : List UInt8) (visibleAt : Nat)
  | ack (queue msgId receipt : String)
  deriving DecidableEq

/-- `LogEntry`. -/
structure LogEntry where
  term : Nat
  index : Nat
  command : RaftCommand
  deriving DecidableEq

/-- `RaftLogEntryWire`: the command as bytes. -/
structure RaftLogEntryWire where
  term : Nat
  index : Nat
  command : List UInt8
  deriving DecidableEq

/-- `Request::RaftAppend`. -/
structure RaftAppend where
  term : Nat
  leaderId : String
  prevLogIndex : Nat
  prevLogTerm : Nat
  entries : List RaftLogEntryWire
  leaderCommit : Nat
  deriving DecidableEq

/-- `SnapshotItem`. -/
structure SnapshotItem where
  id : String
  queue : String
  visibleAt : Nat
  payload : List UInt8
  deriving DecidableEq

/-- `Request::RaftInstallSnapshot`. -/
structure RaftInstallSnapshot where
  term : Nat
  leaderId : String
  lastIncludedIndex : Nat
  lastIncludedTerm : Nat
  items : List SnapshotItem
  deriving DecidableEq

/-- The `postcard` codec of commands: decoding undoes encoding. -/
structure Postcard where
  toAllocvec : RaftCommand → List UInt8
  fromBytes : List UInt8 → Option RaftCommand
  fromBytes_toAllocvec : ∀ command, fromBytes (toAllocvec command) = some command

/-- The bytes of a command: the number of its variant, then its fields. -/
def RaftCommand.write : RaftCommand → List UInt8
  | .push queue msgId payload visibleAt =>
      0 :: (Varint.writeText queue ++ (Varint.writeText msgId ++
        (Varint.writeBytes payload ++ Varint.write visibleAt)))
  | .ack queue msgId receipt =>
      1 :: (Varint.writeText queue ++ (Varint.writeText msgId ++ Varint.writeText receipt))

/-- The command whose bytes stand at the front. -/
def RaftCommand.read : List UInt8 → Option RaftCommand
  | [] => none
  | variant :: cur => do
      let (queue, cur) ← Varint.readText cur
      let (msgId, cur) ← Varint.readText cur
      if variant = 0 then
        let (payload, cur) ← Varint.readBytes cur
        let (visibleAt, _) ← Varint.read cur
        some (.push queue msgId payload visibleAt)
      else if variant = 1 then
        let (receipt, _) ← Varint.readText cur
        some (.ack queue msgId receipt)
      else none

/-- What `postcard` writes for a command.  The two readers agree on all that is written; on
other bytes this one takes a variant of one byte only and numbers of any size. -/
def Postcard.format : Postcard where
  toAllocvec := RaftCommand.write
  fromBytes := RaftCommand.read
  fromBytes_toAllocvec command := by
    cases command with
    | push queue msgId payload visibleAt =>
        have last := Varint.read_write visibleAt []
        rw [List.append_nil] at last
        simp [RaftCommand.write, RaftCommand.read, Varint.readText_writeText,
          Varint.readBytes_writeBytes, last]
    | ack queue msgId receipt =>
        have last := Varint.readText_writeText receipt []
        rw [List.append_nil] at last
        simp [RaftCommand.write, RaftCommand.read, Varint.readText_writeText, last]

/-- `RaftNode`, without its connections. -/
structure RaftNode where
  nodeId : String
  peers : List String
  role : RaftRole
  currentTerm : Nat
  currentLeader : Option String
  log : List LogEntry
  commitIndex : Nat
  snapshotIndex : Nat
  snapshotTerm : Nat
  engine : QueueEngine
  compactionThreshold : Nat
  isLeaderCached : Bool

namespace RaftNode

/-- `RaftNode::with_threshold`. -/
def withThreshold (nodeId : String) (peers : List String) (engine : QueueEngine)
    (compactionThreshold : Nat) : RaftNode where
  nodeId := nodeId
  peers := peers
  role := .follower
  currentTerm := 0
  currentLeader := none
  log := []
  commitIndex := 0
  snapshotIndex := 0
  snapshotTerm := 0
  engine := engine
  compactionThreshold := compactionThreshold
  isLeaderCached := false

/-- `RaftNode::new`. -/
def new (nodeId : String) (peers : List String) (engine : QueueEngine) : RaftNode :=
  withThreshold nodeId peers engine 10000

/-! ## The log -/

/-- The last element that passes the test, and what follows it. -/
def splitLast (test : LogEntry → Bool) : List LogEntry → Option (LogEntry × List LogEntry)
  | [] => none
  | entry :: rest =>
      match splitLast test rest with
      | some found => some found
      | none => if test entry then some (entry, rest) else none

/-- The locked section of `compact_log_snapshot`, with the commit index read before. -/
def compactAt (n : RaftNode) (commit : Nat) : RaftNode :=
  match n.log with
  | [] => n
  | first :: _ =>
      if first.index < commit then
        match splitLast (fun entry => entry.index ≤ commit) n.log with
        | some (last, rest) =>
            { n with log := rest, snapshotIndex := last.index, snapshotTerm := last.term }
        | none => n
      else n

/-- `compact_log_snapshot`. -/
def compactLogSnapshot (n : RaftNode) : RaftNode := n.compactAt n.commitIndex

/-- The index of the next entry. -/
def nextIndex (n : RaftNode) : Nat :=
  match n.log.getLast? with
  | some last => last.index + 1
  | none => n.snapshotIndex + 1

/-- The entries that `commands` become at the end of the log. -/
def newEntries (n : RaftNode) (commands : List RaftCommand) : List LogEntry :=
  (commands.zipIdx n.nextIndex).map fun command => ⟨n.currentTerm, command.2, command.1⟩

/-- The request that sends entries to a peer. -/
def appendRequest (codec : Postcard) (n : RaftNode) (entries : List LogEntry) : RaftAppend where
  term := n.currentTerm
  leaderId := n.nodeId
  prevLogIndex := n.nextIndex - 1
  prevLogTerm := n.currentTerm
  entries := entries.map fun entry => ⟨entry.term, entry.index, codec.toAllocvec entry.command⟩
  leaderCommit := n.commitIndex

/-! ## Pushes through the leader -/

/-- An item as `propose_push_batch` logs and pushes it. -/
structure Proposal where
  msgId : String
  ulid : Ulid
  payload : List UInt8
  delaySeconds : Nat
  deriving DecidableEq

/-- The command of a proposal: the delay goes into the field `visible_at`. -/
def Proposal.command (queue : String) (p : Proposal) : RaftCommand :=
  .push queue p.msgId p.payload p.delaySeconds

/-- The item the leader's own engine is given. -/
def Proposal.item (p : Proposal) : PushItem := ⟨some p.ulid, p.payload, p.delaySeconds⟩

/-- The id an item gets: the text and the number it was given when it reads as an
id, else a new one in its canonical text.  Also the draws made. -/
def resolveId (env : Env) (draws : Nat) (mId : String) : (String × Ulid) × Nat :=
  let fresh := ((env.ulidToString (env.ulidNew draws), env.ulidNew draws), draws + 1)
  if utf8 mId = [] then fresh
  else if (utf8 mId).length = 26 then
    match env.ulidFromString mId with
    | some u => ((mId, u), draws)
    | none => fresh
  else
    match env.uuidParseStr mId with
    | some u => ((mId, u), draws)
    | none => fresh

/-- The loop of `propose_push_batch` over its items. -/
def resolveItems (env : Env) : Nat → List (String × List UInt8 × Nat) → List Proposal × Nat
  | draws, [] => ([], draws)
  | draws, (mId, payload, delaySeconds) :: items =>
      let resolved := resolveId env draws mId
      let rest := resolveItems env resolved.2 items
      (⟨resolved.1.1, resolved.1.2, payload, delaySeconds⟩ :: rest.1, rest.2)

/-- Whether enough peers answered: without peers nobody is asked. -/
def quorumReached (n : RaftNode) (replies : List Bool) : Bool :=
  n.peers = [] || (n.peers.length + 1) / 2 + 1 ≤ 1 + replies.count true

/-- `propose_push_batch`: the node, what it returns, and the request it sends to
every peer.  `replies` are the answers of the peers.  The entries stay in the log
when there is no quorum; the engine is pushed to only after it. -/
def proposePushBatch (env : Env) (codec : Postcard) (now : Nat) (replies : List Bool)
    (n : RaftNode) (queue : String) (items : List (String × List UInt8 × Nat)) :
    RaftNode × Except String (List String) × Option RaftAppend :=
  if n.role ≠ .leader then (n, .error ("NOT_LEADER:" ++ n.currentLeader.getD ""), none)
  else if items = [] then (n, .ok [], none)
  else
    let resolved := resolveItems env n.engine.draws items
    let n : RaftNode := { n with engine := { n.engine with draws := resolved.2 } }
    let commands := resolved.1.map (Proposal.command queue)
    let entries := n.newEntries commands
    let request := n.appendRequest codec entries
    let lastIndex := n.nextIndex + commands.length - 1
    let n : RaftNode := { n with log := n.log ++ entries }
    if n.quorumReached replies then
      let n : RaftNode := { n with
        commitIndex := lastIndex
        engine := (n.engine.pushBatch env now queue (resolved.1.map Proposal.item)).1 }
      let n := if 0 < n.compactionThreshold ∧ lastIndex % n.compactionThreshold = 0 then
        n.compactLogSnapshot else n
      (n, .ok (resolved.1.map (·.msgId)), some request)
    else
      (n, .error "QUORUM_FAILED: Failed to replicate batch to majority quorum", some request)

/-! ## Acks through the leader -/

/-- `propose_ack_batch`: the node, what it returns, and the request it sends to
every peer.  How the peers answer changes nothing. -/
def proposeAckBatch (env : Env) (codec : Postcard) (n : RaftNode) (queue : String)
    (items : List (String × String)) : RaftNode × Except String Nat × Option RaftAppend :=
  if n.role ≠ .leader then (n, .error ("NOT_LEADER:" ++ n.currentLeader.getD ""), none)
  else if items = [] then (n, .ok 0, none)
  else
    let acked := n.engine.ackBatch env queue items
    let n : RaftNode := { n with engine := acked.1 }
    if acked.2 = 0 then (n, .ok 0, none)
    else
      let commands := items.map fun item => RaftCommand.ack queue item.1 item.2
      let entries := n.newEntries commands
      let request := n.appendRequest codec entries
      let lastIndex := n.nextIndex + commands.length - 1
      let n : RaftNode := { n with log := n.log ++ entries, commitIndex := lastIndex }
      let n := if 0 < n.compactionThreshold ∧ lastIndex % n.compactionThreshold = 0 then
        n.compactLogSnapshot else n
      (n, .ok acked.2, some request)

/-! ## Entries at a follower -/

/-- A command applied to the engine of a follower. -/
def applyCommand (env : Env) (now : Nat) (e : QueueEngine) : RaftCommand → QueueEngine
  | .push queue msgId payload visibleAt =>
      match env.ulidFromString msgId with
      | some id => (e.pushWithUlid env now queue id payload visibleAt).1
      | none =>
          match env.uuidParseStr msgId with
          | some id => (e.pushWithUlid env now queue id payload visibleAt).1
          | none => e
  | .ack queue msgId _ => (e.ackFollower env queue msgId).1

/-- One entry of `handle_append_entries`: one that does not decode is skipped. -/
def applyEntry (env : Env) (codec : Postcard) (now : Nat) (n : RaftNode)
    (entry : RaftLogEntryWire) : RaftNode :=
  match codec.fromBytes entry.command with
  | some command =>
      { n with
        engine := applyCommand env now n.engine command
        log := n.log ++ [⟨entry.term, entry.index, command⟩] }
  | none => n

/-- The log is cut to its last `compaction_threshold` entries once it holds more
than twice as many. -/
def trimLog (n : RaftNode) : RaftNode :=
  if 0 < n.compactionThreshold ∧ n.compactionThreshold * 2 < n.log.length then
    let keepFrom := n.log.length - n.compactionThreshold
    match n.log[keepFrom - 1]? with
    | some last =>
        { n with
          log := n.log.drop keepFrom
          snapshotIndex := last.index
          snapshotTerm := last.term }
    | none => n
  else n

/-- `handle_append_entries`. -/
def handleAppendEntries (env : Env) (codec : Postcard) (now : Nat) (n : RaftNode)
    (request : RaftAppend) : RaftNode × Bool :=
  if request.term < n.currentTerm then (n, false)
  else
    let n := { n with currentLeader := some request.leaderId }
    ((request.entries.foldl (applyEntry env codec now) n).trimLog, true)

/-! ## Votes and snapshots -/

/-- `handle_vote`: the log of the candidate is not looked at. -/
def handleVote (n : RaftNode) (term : Nat) (candidateId : String) : RaftNode × Bool :=
  if n.currentTerm < term then
    ({ n with
        currentTerm := term
        role := .follower
        isLeaderCached := false
        currentLeader := some candidateId }, true)
  else (n, false)

/-- One item of `handle_install_snapshot`: an id that does not read is skipped. -/
def installItem (env : Env) (now : Nat) (e : QueueEngine) (item : SnapshotItem) : QueueEngine :=
  match env.uuidParseStr item.id with
  | some id => (e.pushWithUlid env now item.queue id item.payload (item.visibleAt - now)).1
  | none =>
      match env.ulidFromString item.id with
      | some id => (e.pushWithUlid env now item.queue id item.payload (item.visibleAt - now)).1
      | none => e

/-- `handle_install_snapshot`. -/
def handleInstallSnapshot (env : Env) (now : Nat) (n : RaftNode) (request : RaftInstallSnapshot) :
    RaftNode × Bool :=
  if request.term < n.currentTerm then (n, false)
  else
    ({ n with
        currentLeader := some request.leaderId
        snapshotIndex := request.lastIncludedIndex
        snapshotTerm := request.lastIncludedTerm
        commitIndex := request.lastIncludedIndex
        engine := request.items.foldl (installItem env now) n.engine.clearForRaftRecovery
        log := n.log.filter fun entry => request.lastIncludedIndex < entry.index }, true)

/-- The snapshot `sync_all_entries_to_peer` sends first: what the engine holds in RAM. -/
def snapshotRequest (env : Env) (n : RaftNode) : RaftInstallSnapshot where
  term := n.currentTerm
  leaderId := n.nodeId
  lastIncludedIndex := n.snapshotIndex
  lastIncludedTerm := n.snapshotTerm
  items := (n.engine.surviving env).map fun (id, queue, visibleAt, payload) =>
    ⟨env.ulidToString id, queue, visibleAt, payload⟩

/-- The request `sync_all_entries_to_peer` sends next: the whole log.  Nothing is
sent for an empty log. -/
def logRequest (codec : Postcard) (n : RaftNode) : Option RaftAppend :=
  if n.log = [] then none
  else some {
    term := n.currentTerm
    leaderId := n.nodeId
    prevLogIndex := n.snapshotIndex
    prevLogTerm := n.snapshotTerm
    entries := n.log.map fun entry => ⟨entry.term, entry.index, codec.toAllocvec entry.command⟩
    leaderCommit := n.commitIndex }

/-- `sync_all_entries_to_peer` when both requests reach the peer. -/
def syncAllEntriesToPeer (env : Env) (codec : Postcard) (now : Nat) (n peer : RaftNode) :
    RaftNode :=
  let peer := (peer.handleInstallSnapshot env now (n.snapshotRequest env)).1
  match n.logRequest codec with
  | some request => (peer.handleAppendEntries env codec now request).1
  | none => peer

/-! ## Peers -/

/-- The request of a heartbeat. -/
def heartbeat (n : RaftNode) : RaftAppend where
  term := n.currentTerm
  leaderId := n.nodeId
  prevLogIndex := 0
  prevLogTerm := 0
  entries := []
  leaderCommit := n.commitIndex

/-- `add_peer`. -/
def addPeer (n : RaftNode) (peer : String) : RaftNode :=
  if peer ∉ n.peers ∧ peer ≠ n.nodeId then { n with peers := n.peers ++ [peer] } else n

/-! ## A new leader -/

/-- The message ids of the Ack commands of a log. -/
def ackedIds (log : List LogEntry) : List String :=
  log.filterMap fun entry =>
    match entry.command with
    | .ack _ msgId _ => some msgId
    | .push .. => none

/-- One log entry replayed into the engine of a new leader. -/
def replayEntry (env : Env) (now : Nat) (acked : List String) (e : QueueEngine)
    (entry : LogEntry) : QueueEngine :=
  match entry.command with
  | .push queue msgId payload visibleAt =>
      if msgId ∈ acked then e
      else
        match env.uuidParseStr msgId with
        | some id => (e.pushWithUlid env now queue id payload visibleAt).1
        | none =>
            match env.ulidFromString msgId with
            | some id => (e.pushWithUlid env now queue id payload visibleAt).1
            | none => e
  | .ack .. => e

/-- `recover_as_new_leader`. -/
def recoverAsNewLeader (env : Env) (now : Nat) (n : RaftNode) : RaftNode :=
  let n : RaftNode := { n with
    role := .leader
    isLeaderCached := true
    currentLeader := some n.nodeId }
  if 0 < n.snapshotIndex then
    { n with
      engine := (n.log.filter fun entry => n.snapshotIndex < entry.index).foldl
        (replayEntry env now (ackedIds n.log)) n.engine }
  else
    { n with
      engine := n.log.foldl (replayEntry env now (ackedIds n.log))
        n.engine.clearForRaftRecovery }

/-- One tick of the election loop of a node that is not the leader: with no leader
known, the node with the smallest id takes over. -/
def electionTick (env : Env) (now : Nat) (n : RaftNode) : RaftNode :=
  if n.role ≠ .leader ∧ n.currentLeader = none ∧ n.peers.all (fun peer => n.nodeId ≤ peer) then
    n.recoverAsNewLeader env now
  else n

end RaftNode

end WalrQueue
