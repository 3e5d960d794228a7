import WalrQueue.DiskLog
import WalrQueue.TimerWheel
import WalrQueue.SingleQueue

/-!
# The queue engine

`QueueEngine` is 32 shards, the disk log, the RAM counter and the page-in
cursor.  Each operation is written as the sequence of its lock sections, in the
order the source takes them; the clock reading an operation makes on entry is
its argument `now`.

`draws` counts the values the run has taken from the environment: one for each
`Ulid::new` and one for each `HashMap` iteration whose order matters.
-/

namespace WalrQueue

/-! ## Data -/

/-- `QueueOptions`; the RAM cap is a `usize`. -/
structure QueueOptions where
  defaultVisibilityTimeoutSec : Nat
  maxDeliveryCount : Nat
  maxHotMessagesInRam : Nat
  maxWalSegmentSize : Nat
  ramCap_lt : maxHotMessagesInRam < 2 ^ 64 := by norm_num
  deriving DecidableEq

/-- `QueueOptions::default`. -/
def QueueOptions.default : QueueOptions where
  defaultVisibilityTimeoutSec := 300
  maxDeliveryCount := 3
  maxHotMessagesInRam := 1000000
  maxWalSegmentSize := 64 * 1024 * 1024

theorem QueueOptions.one_ramCap_lt : 1 < 2 ^ 64 := by norm_num

/-- `PolledMessage`; `messageId` is the text of `id`. -/
structure PolledMessage where
  id : Ulid
  messageId : String
  payload : List UInt8
  receiptHandle : String
  deliveryCount : Nat
  deriving DecidableEq

/-- `PushItem`. -/
structure PushItem where
  id : Option Ulid
  payload : List UInt8
  delaySeconds : Nat
  deriving DecidableEq

/-- `StoredMsg`. -/
structure StoredMsg where
  id : Ulid
  queue : String
  payload : List UInt8
  visibleAt : Nat
  deliveryCount : Nat
  maxDelivery : Nat
  deriving DecidableEq

/-- `ShardState`. -/
structure ShardState where
  queues : FMap String SingleQueue
  messages : FMap Ulid StoredMsg
  seenIds : Finset Ulid
  ackedIds : Finset Ulid
  wheel : TimerWheel

/-- `NUM_SHARDS`. -/
abbrev numShards : Nat := 32

/-- `QueueEngine`. -/
structure QueueEngine where
  shards : Fin numShards → ShardState
  disk : DiskLog
  options : QueueOptions
  totalMessagesInRam : Nat
  spillReadOffset : Nat
  draws : Nat

/-- The FNV-1a loop of `shard_idx`. -/
def fnv1a (bytes : List UInt8) : Nat :=
  bytes.foldl (fun hash b => (hash ^^^ b.toNat) * 0x100000001b3 % 2 ^ 64) 0xcbf29ce484222325

/-- `QueueEngine::shard_idx`. -/
def shardIdx (queue : String) : Fin numShards :=
  ⟨fnv1a (utf8 queue) % numShards, Nat.mod_lt _ (by decide)⟩

/-- The dead-letter queue of a queue: `format!("{}.dlq", queue)`. -/
def dlqName (queue : String) : String := queue ++ ".dlq"

/-! ## Shard sections -/

namespace ShardState

/-- `ShardState::new`. -/
def new : ShardState := ⟨∅, ∅, ∅, ∅, .new 3600⟩

/-- Put a message in its queue, at its own visibility time, and in `messages`:
`queues.entry(..).or_insert_with(..).insert(..)` and `messages.insert(..)`. -/
def store (st : ShardState) (now : Nat) (msg : StoredMsg) : ShardState :=
  { st with
    queues := AList.insert msg.queue
      ((FMap.getD st.queues msg.queue (.new now)).insert msg.id msg.visibleAt now) st.queues
    messages := AList.insert msg.id msg st.messages }

/-- `if let Some(q) = queues.get_mut(queue) { q.mark_deleted(id) }`. -/
def markDeleted (st : ShardState) (queue : String) (id : Ulid) : ShardState :=
  match AList.lookup queue st.queues with
  | some q => { st with queues := AList.insert queue (q.markDeleted id) st.queues }
  | none => st

/-- An Ack record met by `open` or by page-in, or `ack_follower`: the id is
acked, leaves `messages` and is tombstoned whether it was there or not. -/
def applyAck (st : ShardState) (queue : String) (id : Ulid) : ShardState :=
  { st with
    ackedIds := insert id st.ackedIds
    messages := AList.erase id st.messages }.markDeleted queue id

/-- The locked section of `ack` for one item: `none` when the receipt is not the
one of the current lease, else the state and whether the id was in `messages`. -/
def ackLease (st : ShardState) (queue : String) (id : Ulid) (receipt : String) :
    Option (ShardState × Bool) :=
  let removed := st.wheel.removeIfValid id receipt
  if removed.2 then
    let st := { st with wheel := removed.1 }
    if id ∈ st.messages then
      some ({ st with
        messages := AList.erase id st.messages
        ackedIds := insert id st.ackedIds }.markDeleted queue id, true)
    else some ({ st with ackedIds := insert id st.ackedIds }, false)
  else none

/-- Take the message of one collected lease out of `messages`. -/
def takeExpired (acc : FMap Ulid StoredMsg × List StoredMsg) (item : InFlightItem) :
    FMap Ulid StoredMsg × List StoredMsg :=
  match AList.lookup item.id acc.1 with
  | some msg => (AList.erase item.id acc.1, acc.2 ++ [msg])
  | none => acc

/-- Section 1 of `poll`: collect the expired leases and their messages. -/
def collectExpired (st : ShardState) (now : Nat) : ShardState × List StoredMsg :=
  let swept := st.wheel.collectExpired now
  let taken := swept.2.foldl takeExpired (st.messages, [])
  ({ st with wheel := swept.1, messages := taken.1 }, taken.2)

/-- The loop state of section 4 of `poll`. -/
structure Claim where
  messages : FMap Ulid StoredMsg
  wheel : TimerWheel
  draws : Nat
  polled : List PolledMessage

/-- One claimed id of section 4 of `poll`. -/
def claimOne (env : Env) (now : Nat) (queue : String) (timeout : Nat) (acc : Claim)
    (id : Ulid) : Claim :=
  match AList.lookup id acc.messages with
  | some msg =>
      let msg := { msg with deliveryCount := (msg.deliveryCount + 1) % 2 ^ 32 }
      let receipt := env.ulidToString (env.ulidNew acc.draws)
      { messages := AList.insert id msg acc.messages
        wheel := acc.wheel.insert
          { id, queue, receipt, expireAt := addU64 now timeout }
        draws := acc.draws + 1
        polled := acc.polled ++
          [{ id, messageId := env.ulidToString id, payload := msg.payload
             receiptHandle := receipt, deliveryCount := msg.deliveryCount }] }
  | none => acc

/-- Section 4 of `poll` on the queue `q` of the shard: drain the delayed buckets,
pop, and lease what was popped. -/
def claim (env : Env) (st : ShardState) (draws : Nat) (queue : String) (q : SingleQueue)
    (now timeout maxMessages : Nat) : ShardState × Nat × List PolledMessage :=
  let popped := (q.advanceAndDrain (env.hashOrder draws Nat) now).popMany maxMessages
  let acc := popped.2.foldl (claimOne env now queue timeout)
    ⟨st.messages, st.wheel, draws + 1, []⟩
  ({ st with
     queues := AList.insert queue popped.1 st.queues
     messages := acc.messages
     wheel := acc.wheel }, acc.draws, acc.polled)

end ShardState

namespace QueueEngine

def setShard (e : QueueEngine) (s : Fin numShards) (st : ShardState) : QueueEngine :=
  { e with shards := Function.update e.shards s st }

/-! ## Opening -/

/-- The state of the replay loop of `open`. -/
structure Replay where
  shards : Fin numShards → ShardState
  totalInRam : Nat

/-- One recovered record in `open`. -/
def replayRecord (opts : QueueOptions) (baseEpochSec : Nat) (acc : Replay) :
    WalRecord → Replay
  | .push msgId queueName visibleAt payload =>
      let s := shardIdx queueName
      let st := acc.shards s
      let st := { st with seenIds := insert msgId st.seenIds }
      if acc.totalInRam < opts.maxHotMessagesInRam then
        let msg : StoredMsg :=
          { id := msgId, queue := queueName, payload, visibleAt, deliveryCount := 0
            maxDelivery := opts.maxDeliveryCount }
        ⟨Function.update acc.shards s (st.store baseEpochSec msg), acc.totalInRam + 1⟩
      else ⟨Function.update acc.shards s st, acc.totalInRam⟩
  | .ack msgId queueName =>
      let s := shardIdx queueName
      let st := acc.shards s
      ⟨Function.update acc.shards s (st.applyAck queueName msgId),
        if msgId ∈ st.messages then acc.totalInRam - 1 else acc.totalInRam⟩

/-- The replay loop of `open`. -/
def replay (opts : QueueOptions) (baseEpochSec : Nat) (recovered : List WalRecord) : Replay :=
  recovered.foldl (replayRecord opts baseEpochSec) ⟨fun _ => .new, 0⟩

/-- `QueueEngine::open`; `draws` is where the environment stands. -/
def openDir (env : Env) (dir : DataDir) (opts : QueueOptions) (baseEpochSec draws : Nat) :
    QueueEngine :=
  let opened := DiskLog.openDir env dir opts.maxWalSegmentSize
  let replayed := replay opts baseEpochSec opened.2
  { shards := replayed.shards
    disk := opened.1
    options := opts
    totalMessagesInRam := replayed.totalInRam
    spillReadOffset := 0
    draws }

/-! ## Compaction -/

/-- `is_spill_at_eof`. -/
def isSpillAtEof (e : QueueEngine) : Bool := e.disk.activeBytes ≤ e.spillReadOffset

/-- Every message in RAM, shard by shard; the order inside a shard is that of
the `HashMap`. -/
def surviving (env : Env) (e : QueueEngine) : List (Ulid × String × Nat × List UInt8) :=
  (List.finRange numShards).flatMap fun s =>
    (env.hashOrder (e.draws + s.val) (Sigma fun _ : Ulid => StoredMsg)
      (e.shards s).messages.entries).map
        fun entry => (entry.1, entry.2.queue, entry.2.visibleAt, entry.2.payload)

/-- Whether `check_and_trigger_compaction` compacts. -/
def compacts (e : QueueEngine) : Bool := e.isSpillAtEof && e.disk.shouldCompact

/-- `check_and_trigger_compaction`. -/
def checkAndTriggerCompaction (env : Env) (e : QueueEngine) : QueueEngine :=
  if e.compacts then
    { e with
      disk := e.disk.performFlipFlopCompaction (e.surviving env)
      spillReadOffset := 0
      draws := e.draws + numShards }
  else e

/-- `force_compaction`: compacts without a check, and leaves the cursor where it is. -/
def forceCompaction (env : Env) (e : QueueEngine) : QueueEngine :=
  { e with
    disk := e.disk.performFlipFlopCompaction (e.surviving env)
    draws := e.draws + numShards }

/-! ## Push -/

/-- The message a push creates. -/
def newMsg (e : QueueEngine) (queue : String) (id : Ulid) (payload : List UInt8)
    (visibleAt : Nat) : StoredMsg :=
  { id, queue, payload, visibleAt, deliveryCount := 0
    maxDelivery := e.options.maxDeliveryCount }

/-- The locked section of `push_with_ulid` for an id not seen before. -/
def pushSection (e : QueueEngine) (now : Nat) (queue : String) (id : Ulid)
    (payload : List UInt8) (visibleAt : Nat) : QueueEngine :=
  let s := shardIdx queue
  let st := e.shards s
  let st := { st with seenIds := insert id st.seenIds }
  let withinHorizon := visibleAt ≤ addU64 now hotDelayHorizonSec
  if withinHorizon ∧ e.totalMessagesInRam < e.options.maxHotMessagesInRam ∧
      id ∉ st.messages then
    { e.setShard s (st.store now (e.newMsg queue id payload visibleAt)) with
      totalMessagesInRam := fetchAdd e.totalMessagesInRam 1 }
  else e.setShard s st

/-- `push_with_ulid` up to the compaction check, and whether it gets there: the
record is appended before the id is looked up, and a seen id returns early. -/
def pushUnchecked (e : QueueEngine) (now : Nat) (queue : String) (id : Ulid)
    (payload : List UInt8) (delaySec : Nat) : QueueEngine × Bool :=
  let visibleAt := addU64 now delaySec
  let e := { e with disk := e.disk.append (.push id queue visibleAt payload) }
  if id ∈ (e.shards (shardIdx queue)).seenIds then (e, false)
  else (e.pushSection now queue id payload visibleAt, true)

/-- `push_with_ulid`. -/
def pushWithUlid (env : Env) (e : QueueEngine) (now : Nat) (queue : String) (id : Ulid)
    (payload : List UInt8) (delaySec : Nat) : QueueEngine × String :=
  let done := e.pushUnchecked now queue id payload delaySec
  (if done.2 then done.1.checkAndTriggerCompaction env else done.1, env.ulidToString id)

/-- The loop state of `push_batch`. -/
structure PushBatch where
  engine : QueueEngine
  ids : List Ulid
  addedCount : Nat
  curRam : Nat

/-- `item.id.unwrap_or_else(Ulid::new)`, and the draws made. -/
def drawId (env : Env) (draws : Nat) : Option Ulid → Ulid × Nat
  | some id => (id, draws)
  | none => (env.ulidNew draws, draws + 1)

/-- One item of `push_batch` whose id was not seen before. -/
def pushBatchNew (now : Nat) (queue : String) (acc : PushBatch) (id : Ulid)
    (item : PushItem) : PushBatch :=
  let e := acc.engine
  let s := shardIdx queue
  let st := e.shards s
  let st := { st with seenIds := insert id st.seenIds }
  let visibleAt := addU64 now item.delaySeconds
  let e := { e with disk := e.disk.append (.push id queue visibleAt item.payload) }
  let withinHorizon := visibleAt ≤ addU64 now hotDelayHorizonSec
  if withinHorizon ∧ acc.curRam < e.options.maxHotMessagesInRam ∧ id ∉ st.messages then
    { acc with
      engine := e.setShard s (st.store now (e.newMsg queue id item.payload visibleAt))
      addedCount := acc.addedCount + 1
      curRam := acc.curRam + 1 }
  else { acc with engine := e.setShard s st }

/-- One item of `push_batch`: a seen id is skipped before anything is written. -/
def pushBatchItem (env : Env) (now : Nat) (queue : String) (acc : PushBatch)
    (item : PushItem) : PushBatch :=
  let drawn := drawId env acc.engine.draws item.id
  let acc := { acc with
    engine := { acc.engine with draws := drawn.2 }
    ids := acc.ids ++ [drawn.1] }
  if drawn.1 ∈ (acc.engine.shards (shardIdx queue)).seenIds then acc
  else pushBatchNew now queue acc drawn.1 item

/-- The loop of `push_batch`. -/
def pushBatchLoop (env : Env) (e : QueueEngine) (now : Nat) (queue : String)
    (items : List PushItem) : PushBatch :=
  items.foldl (pushBatchItem env now queue) ⟨e, [], 0, e.totalMessagesInRam⟩

/-- `push_batch` up to the compaction check. -/
def pushBatchUnchecked (env : Env) (e : QueueEngine) (now : Nat) (queue : String)
    (items : List PushItem) : QueueEngine :=
  let acc := pushBatchLoop env e now queue items
  { acc.engine with
    totalMessagesInRam := fetchAdd acc.engine.totalMessagesInRam acc.addedCount }

/-- `push_batch`. -/
def pushBatch (env : Env) (e : QueueEngine) (now : Nat) (queue : String)
    (items : List PushItem) : QueueEngine × List String :=
  ((e.pushBatchUnchecked env now queue items).checkAndTriggerCompaction env,
    (pushBatchLoop env e now queue items).ids.map env.ulidToString)

/-! ## Page-in -/

/-- The state of one shard section of `page_in_cold_spill`. -/
structure PageIn where
  state : ShardState
  ram : Nat
  added : Nat
  targetAdded : Nat

/-- One record of a shard section of `page_in_cold_spill`. -/
def pageInRecord (opts : QueueOptions) (now : Nat) (targetQueue : String) (acc : PageIn) :
    WalRecord → PageIn
  | .push msgId queueName visibleAt payload =>
      let st := acc.state
      if visibleAt ≤ addU64 now hotDelayHorizonSec ∧ msgId ∉ st.messages ∧
          msgId ∉ st.ackedIds then
        let msg : StoredMsg :=
          { id := msgId, queue := queueName, payload, visibleAt, deliveryCount := 0
            maxDelivery := opts.maxDeliveryCount }
        { acc with
          state := { st with seenIds := insert msgId st.seenIds }.store now msg
          added := acc.added + 1
          targetAdded :=
            if queueName = targetQueue then acc.targetAdded + 1 else acc.targetAdded }
      else acc
  | .ack msgId queueName =>
      { acc with
        state := acc.state.applyAck queueName msgId
        ram := if msgId ∈ acc.state.messages then fetchSub acc.ram 1 else acc.ram }

/-- The records of one shard, in log order. -/
def shardRecords (records : List WalRecord) (s : Fin numShards) : List WalRecord :=
  records.filter (fun r => shardIdx r.queueName = s)

/-- The counters of `page_in_cold_spill` over one chunk of records. -/
structure PageInChunk where
  engine : QueueEngine
  added : Nat
  targetAdded : Nat

/-- One shard section of `page_in_cold_spill`. -/
def pageInShard (now : Nat) (targetQueue : String) (records : List WalRecord)
    (acc : PageInChunk) (s : Fin numShards) : PageInChunk :=
  let e := acc.engine
  let done := (shardRecords records s).foldl (pageInRecord e.options now targetQueue)
    ⟨e.shards s, e.totalMessagesInRam, acc.added, acc.targetAdded⟩
  { engine := { e.setShard s done.state with totalMessagesInRam := done.ram }
    added := done.added
    targetAdded := done.targetAdded }

/-- The shard sections of one chunk, then the RAM counter. -/
def pageInChunk (now : Nat) (targetQueue : String) (e : QueueEngine)
    (records : List WalRecord) : PageInChunk :=
  let acc := (List.finRange numShards).foldl (pageInShard now targetQueue records) ⟨e, 0, 0⟩
  { acc with engine :=
      { acc.engine with
        totalMessagesInRam := fetchAdd acc.engine.totalMessagesInRam acc.added } }

/-- One turn of the loop of `page_in_cold_spill`: the engine, and the flag
`flushed` when the loop goes on.  `flush` only waits for the writer thread. -/
def pageInStep (env : Env) (now : Nat) (targetQueue : String) (fetchLimit : Nat)
    (e : QueueEngine) (flushed : Bool) : QueueEngine × Option Bool :=
  let read := e.disk.readEntriesFromOffset env e.spillReadOffset fetchLimit
  if read.1 ≠ [] then
    let e := { e with spillReadOffset := read.2 }
    if read.1.any WalRecord.isPush then
      let acc := pageInChunk now targetQueue e read.1
      if 0 < acc.targetAdded ∨
          e.options.maxHotMessagesInRam ≤ acc.engine.totalMessagesInRam then
        (acc.engine, none)
      else (acc.engine, some flushed)
    else (e, some flushed)
  else if flushed then
    (if 0 < read.2 then { e with spillReadOffset := 0 } else e, none)
  else (e, some true)

/-- The loop of `page_in_cold_spill`, for at most `fuel` turns. -/
def pageInLoop (env : Env) (now : Nat) (targetQueue : String) (fetchLimit : Nat) :
    Nat → QueueEngine → Bool → QueueEngine
  | 0, e, _ => e
  | fuel + 1, e, flushed =>
      match pageInStep env now targetQueue fetchLimit e flushed with
      | (e, some flushed) => pageInLoop env now targetQueue fetchLimit fuel e flushed
      | (e, none) => e

/-- `page_in_cold_spill`.  Every turn that reads a record moves the cursor, and
two turns that read none end the loop, so the fuel is never used up. -/
def pageInColdSpill (env : Env) (e : QueueEngine) (targetQueue : String) (now needed : Nat) :
    QueueEngine :=
  pageInLoop env now targetQueue (max needed 1000) (e.disk.active.length + 3) e false

/-! ## Poll -/

/-- Section 1 of `poll`. -/
def collectExpired (e : QueueEngine) (s : Fin numShards) (now : Nat) :
    QueueEngine × List StoredMsg :=
  let collected := (e.shards s).collectExpired now
  (e.setShard s collected.1, collected.2)

/-- Section 2 of `poll`, the first lock of the dead-letter branch. -/
def retireExpired (e : QueueEngine) (msg : StoredMsg) : QueueEngine :=
  let s := shardIdx msg.queue
  let st := e.shards s
  e.setShard s ({ st with ackedIds := insert msg.id st.ackedIds }.markDeleted msg.queue msg.id)

/-- Section 2 of `poll`, the second lock of the dead-letter branch. -/
def deadLetter (e : QueueEngine) (now : Nat) (msg : StoredMsg) : QueueEngine :=
  let msg := { msg with queue := dlqName msg.queue, visibleAt := now }
  let s := shardIdx msg.queue
  let st := e.shards s
  e.setShard s ({ st with seenIds := insert msg.id st.seenIds }.store now msg)

/-- Section 2 of `poll`, the other branch: back to the queue it came from. -/
def requeue (e : QueueEngine) (now : Nat) (msg : StoredMsg) : QueueEngine :=
  let msg := { msg with visibleAt := now }
  let s := shardIdx msg.queue
  e.setShard s ((e.shards s).store now msg)

/-- Section 2 of `poll` for one expired message. -/
def routeExpired (now : Nat) (e : QueueEngine) (msg : StoredMsg) : QueueEngine :=
  if msg.maxDelivery ≤ msg.deliveryCount then (e.retireExpired msg).deadLetter now msg
  else e.requeue now msg

/-- The prefetch test of `poll`. -/
def needsPageIn (e : QueueEngine) (queue : String) (prefetchThreshold : Nat) : Bool :=
  match AList.lookup queue (e.shards (shardIdx queue)).queues with
  | some q => q.readyLen < prefetchThreshold
  | none => true

/-- Section 4 of `poll`. -/
def claimSection (env : Env) (e : QueueEngine) (queue : String) (now timeout maxMessages : Nat) :
    QueueEngine × List PolledMessage :=
  let s := shardIdx queue
  match AList.lookup queue (e.shards s).queues with
  | some q =>
      let claimed := (e.shards s).claim env e.draws queue q now timeout maxMessages
      ({ e.setShard s claimed.1 with draws := claimed.2.1 }, claimed.2.2)
  | none => (e, [])

/-- The lease time a poll asks for. -/
def visibility (e : QueueEngine) (visibilitySec : Nat) : Nat :=
  if visibilitySec = 0 then e.options.defaultVisibilityTimeoutSec else visibilitySec

/-- The prefetch threshold of `poll`. -/
def prefetchThreshold (maxMessages : Nat) : Nat := max (maxMessages * 2) 200

/-- Section 3 of `poll`: page in when the queue is short. -/
def prefetch (env : Env) (e : QueueEngine) (queue : String) (now maxMessages : Nat) :
    QueueEngine :=
  if e.needsPageIn queue (prefetchThreshold maxMessages) then
    e.pageInColdSpill env queue now (prefetchThreshold maxMessages)
  else e

/-- `poll`. -/
def poll (env : Env) (e : QueueEngine) (now : Nat) (queue : String)
    (visibilitySec maxMessages : Nat) : QueueEngine × List PolledMessage :=
  let collected := e.collectExpired (shardIdx queue) now
  let e := collected.2.foldl (routeExpired now) collected.1
  let e := e.prefetch env queue now maxMessages
  e.claimSection env queue now (e.visibility visibilitySec) maxMessages

/-! ## Ack -/

/-- `parse_id_fast`.  The length test only orders the attempts. -/
def parseIdFast (env : Env) (idStr : String) : Option Ulid :=
  match (if (utf8 idStr).length = 26 then env.ulidFromString idStr else none) with
  | some u => some u
  | none =>
      match env.uuidParseStr idStr with
      | some u => some u
      | none => env.ulidFromString idStr

/-- `ack` up to the compaction check, for an id that parses: `none` when the
receipt is not valid. -/
def ackUnchecked (e : QueueEngine) (queue : String) (id : Ulid) (receipt : String) :
    Option QueueEngine :=
  match (e.shards (shardIdx queue)).ackLease queue id receipt with
  | none => none
  | some (st, wasLive) =>
      let e := e.setShard (shardIdx queue) st
      let ram := if wasLive then fetchSub e.totalMessagesInRam 1 else e.totalMessagesInRam
      some { e with totalMessagesInRam := ram, disk := e.disk.append (.ack id queue) }

/-- `ack`. -/
def ack (env : Env) (e : QueueEngine) (queue messageIdStr receipt : String) :
    QueueEngine × Bool :=
  match (parseIdFast env messageIdStr).bind (e.ackUnchecked queue · receipt) with
  | none => (e, false)
  | some done => (done.checkAndTriggerCompaction env, true)

/-- The loop state of `ack_batch`; `accepted` lists the items whose receipt was
valid. -/
structure AckBatch where
  engine : QueueEngine
  count : Nat
  accepted : List (Ulid × String)

/-- One item of `ack_batch`. -/
def ackBatchItem (queue : String) (acc : AckBatch) (item : Ulid × String) : AckBatch :=
  match (acc.engine.shards (shardIdx queue)).ackLease queue item.1 item.2 with
  | none => acc
  | some (st, wasLive) =>
      let e := { acc.engine with disk := acc.engine.disk.append (.ack item.1 queue) }
      { engine := e.setShard (shardIdx queue) st
        count := if wasLive then acc.count + 1 else acc.count
        accepted := acc.accepted ++ [item] }

/-- The items of `ack_batch` whose id parses. -/
def parsedItems (env : Env) (items : List (String × String)) : List (Ulid × String) :=
  items.filterMap fun item => (parseIdFast env item.1).map fun id => (id, item.2)

/-- The loop of `ack_batch`. -/
def ackBatchLoop (env : Env) (e : QueueEngine) (queue : String)
    (items : List (String × String)) : AckBatch :=
  (parsedItems env items).foldl (ackBatchItem queue) ⟨e, 0, []⟩

/-- `ack_batch` up to the compaction check. -/
def ackBatchUnchecked (env : Env) (e : QueueEngine) (queue : String)
    (items : List (String × String)) : QueueEngine :=
  let acc := ackBatchLoop env e queue items
  if 0 < acc.count then
    { acc.engine with
      totalMessagesInRam := fetchSub acc.engine.totalMessagesInRam acc.count }
  else acc.engine

/-- `ack_batch`. -/
def ackBatch (env : Env) (e : QueueEngine) (queue : String) (items : List (String × String)) :
    QueueEngine × Nat :=
  ((e.ackBatchUnchecked env queue items).checkAndTriggerCompaction env,
    (ackBatchLoop env e queue items).count)

/-- `ack_follower`: no receipt, and a record even when nothing was removed. -/
def ackFollower (env : Env) (e : QueueEngine) (queue messageIdStr : String) :
    QueueEngine × Bool :=
  match parseIdFast env messageIdStr with
  | none => (e, false)
  | some id =>
      let s := shardIdx queue
      let st := e.shards s
      let live := decide (id ∈ st.messages)
      let e := e.setShard s (st.applyAck queue id)
      let e := { e with disk := e.disk.append (.ack id queue) }
      if live then
        ({ e with totalMessagesInRam := fetchSub e.totalMessagesInRam 1 }.checkAndTriggerCompaction
          env, true)
      else (e, true)

/-! ## Recovery -/

/-- `clear_for_raft_recovery`: the files stay. -/
def clearForRaftRecovery (e : QueueEngine) : QueueEngine :=
  { e with shards := fun _ => .new, totalMessagesInRam := 0, spillReadOffset := 0 }

end QueueEngine

end WalrQueue
