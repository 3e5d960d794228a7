import WalrQueue.GroupCommit
import WalrQueue.Interleaving

/-!
# Calls and the writer thread

A server runs the calls of its clients at once, and the writer thread of the log beside them.
A call is a list of sections: one lock, one command sent to the writer, or one wait for it.
A single push sends its record and waits before it takes the lock of its shard, a single ack
takes the lock first.  The batches send their records under the lock, which they keep from
item to item, and wait for a flush once they have released it.

A compaction is not among the sections: a call that finds one due stops there.
-/

namespace WalrQueue

open QueueEngine

/-! ## Calls -/

/-- Where a push stands. -/
inductive PushStage where
  /-- The record is to be sent. -/
  | entered
  /-- The record was sent under this number; when it is written, the locked section. -/
  | logging (ticket : Nat)
  | checking
  | compacting
  | returned
  deriving DecidableEq

/-- A call of `push_with_ulid`; `now` is the clock when it started. -/
structure PushThread where
  queue : String
  id : Ulid
  payload : List UInt8
  delaySec : Nat
  now : Nat
  stage : PushStage
  deriving DecidableEq

/-- Where a batch of pushes stands. -/
inductive PushBatchStage where
  | entered (items : List PushItem)
  /-- Under the lock, before the next item. -/
  | locked (left : List PushItem) (addedCount curRam : Nat)
  /-- The lock is released, the counter not yet raised. -/
  | counting (addedCount : Nat)
  | flushing
  | waiting (ticket : Nat)
  | checking
  | compacting
  | returned
  deriving DecidableEq

/-- A call of `push_batch`; `ids` are those of the items it went through, and `fresh` are the
items among them whose ids had not been seen. -/
structure PushBatchThread where
  queue : String
  now : Nat
  ids : List Ulid
  fresh : List (Ulid × PushItem)
  stage : PushBatchStage
  deriving DecidableEq

/-- Where an ack stands. -/
inductive AckStep where
  | entered
  /-- The lease is ended and the record to be sent. -/
  | acked (id : Ulid)
  | logging (id : Ulid) (ticket : Nat)
  | checking (id : Ulid)
  | compacting (id : Ulid)
  /-- The id it acked, if it was accepted. -/
  | returned (accepted : Option Ulid)
  deriving DecidableEq

/-- A call of `ack`. -/
structure AckThread where
  queue : String
  messageId : String
  receipt : String
  stage : AckStep
  deriving DecidableEq

/-- Where a batch of acks stands; `count` is the number it will return. -/
inductive AckBatchStage where
  | entered (items : List (String × String))
  | locked (left : List (Ulid × String)) (count : Nat)
  | counting (count : Nat)
  | flushing (count : Nat)
  | waiting (ticket count : Nat)
  | checking (count : Nat)
  | compacting (count : Nat)
  | returned (count : Nat)
  deriving DecidableEq

/-- A call of `ack_batch`; `accepted` are the ids whose receipt was valid. -/
structure AckBatchThread where
  queue : String
  accepted : List Ulid
  stage : AckBatchStage
  deriving DecidableEq

/-- A call of the engine.  A poll that waits for a flush has the number of its command. -/
inductive Thread where
  | push (c : PushThread)
  | pushBatch (c : PushBatchThread)
  | poll (c : PollCall) (ticket : Option Nat)
  | ack (c : AckThread)
  | ackBatch (c : AckBatchThread)
  deriving DecidableEq

/-- A call that starts. -/
def Thread.start (clock : Nat) : Op → Option Thread
  | .push queue id payload delaySec =>
      some (.push ⟨queue, id, payload, delaySec, clock, .entered⟩)
  | .pushBatch queue items => some (.pushBatch ⟨queue, clock, [], [], .entered items⟩)
  | .poll queue visibilitySec maxMessages =>
      some (.poll ⟨queue, visibilitySec, maxMessages, clock, .entered⟩ none)
  | .ack queue messageId receipt => some (.ack ⟨queue, messageId, receipt, .entered⟩)
  | .ackBatch queue items => some (.ackBatch ⟨queue, [], .entered items⟩)
  | .advance _ => none

/-! ## Sections -/

/-- What a section leaves: the engine, a command for the writer, and the call. -/
structure Turn (τ : Type) where
  engine : QueueEngine
  sends : Option WalCommand
  call : τ

namespace PushThread

/-- The record of the push. -/
def record (c : PushThread) : WalRecord :=
  .push c.id c.queue (addU64 c.now c.delaySec) c.payload

/-- The next section of a push, when `sent` commands were sent and the waiters in `notified`
were told. -/
def resume (e : QueueEngine) (sent : Nat) (notified : List Nat) (c : PushThread) :
    Turn PushThread :=
  match c.stage with
  | .entered => ⟨e, some (.write c.record true), { c with stage := .logging sent }⟩
  | .logging ticket =>
      if ticket ∈ notified then
        if c.id ∈ (e.shards (shardIdx c.queue)).seenIds then
          ⟨e, none, { c with stage := .returned }⟩
        else
          ⟨e.pushSection c.now c.queue c.id c.payload (addU64 c.now c.delaySec), none,
            { c with stage := .checking }⟩
      else ⟨e, none, c⟩
  | .checking => ⟨e, none, { c with stage := if e.compacts then .compacting else .returned }⟩
  | .compacting | .returned => ⟨e, none, c⟩

end PushThread

namespace PushBatchThread

/-- The record of an item. -/
def record (c : PushBatchThread) (entry : Ulid × PushItem) : WalRecord :=
  .push entry.1 c.queue (addU64 c.now entry.2.delaySeconds) entry.2.payload

/-- One item whose id was not seen before: the record is sent under the lock. -/
def enter (e : QueueEngine) (c : PushBatchThread) (id : Ulid) (item : PushItem)
    (left : List PushItem) (addedCount curRam : Nat) : Turn PushBatchThread :=
  let s := shardIdx c.queue
  let st := e.shards s
  let st := { st with seenIds := insert id st.seenIds }
  let visibleAt := addU64 c.now item.delaySeconds
  let sends := some (.write (c.record (id, item)) false)
  let withinHorizon := visibleAt ≤ addU64 c.now hotDelayHorizonSec
  let c := { c with fresh := c.fresh ++ [(id, item)] }
  if withinHorizon ∧ curRam < e.options.maxHotMessagesInRam ∧ id ∉ st.messages then
    ⟨e.setShard s (st.store c.now (e.newMsg c.queue id item.payload visibleAt)), sends,
      { c with stage := .locked left (addedCount + 1) (curRam + 1) }⟩
  else ⟨e.setShard s st, sends, { c with stage := .locked left addedCount curRam }⟩

/-- The next section of a batch of pushes. -/
def resume (env : Env) (e : QueueEngine) (sent : Nat) (notified : List Nat)
    (c : PushBatchThread) : Turn PushBatchThread :=
  match c.stage with
  | .entered items => ⟨e, none, { c with stage := .locked items 0 e.totalMessagesInRam }⟩
  | .locked (item :: left) addedCount curRam =>
      let drawn := drawId env e.draws item.id
      let e := { e with draws := drawn.2 }
      let c := { c with ids := c.ids ++ [drawn.1] }
      if drawn.1 ∈ (e.shards (shardIdx c.queue)).seenIds then
        ⟨e, none, { c with stage := .locked left addedCount curRam }⟩
      else c.enter e drawn.1 item left addedCount curRam
  | .locked [] addedCount _ => ⟨e, none, { c with stage := .counting addedCount }⟩
  | .counting addedCount =>
      ⟨{ e with totalMessagesInRam := fetchAdd e.totalMessagesInRam addedCount }, none,
        { c with stage := .flushing }⟩
  | .flushing => ⟨e, some .flush, { c with stage := .waiting sent }⟩
  | .waiting ticket =>
      ⟨e, none, { c with stage := if ticket ∈ notified then .checking else .waiting ticket }⟩
  | .checking => ⟨e, none, { c with stage := if e.compacts then .compacting else .returned }⟩
  | .compacting | .returned => ⟨e, none, c⟩

end PushBatchThread

/-- The next section of a poll.  The page-in flushes the log once, when it finds no more
records, and reads on when that is done. -/
def PollCall.turn (env : Env) (e : QueueEngine) (sent : Nat) (notified : List Nat) (c : PollCall)
    (ticket : Option Nat) : Turn (PollCall × Option Nat) :=
  match ticket with
  | some t => ⟨e, none, c, if t ∈ notified then none else some t⟩
  | none =>
      let next := c.resume env e
      if c.stage = .reading false ∧ next.2 = .reading true then
        ⟨next.1, some .flush, { c with stage := next.2 }, some sent⟩
      else ⟨next.1, none, { c with stage := next.2 }, none⟩

/-- The next section of an ack. -/
def AckThread.resume (env : Env) (e : QueueEngine) (sent : Nat) (notified : List Nat)
    (c : AckThread) : Turn AckThread :=
  match c.stage with
  | .entered =>
      match (parseIdFast env c.messageId).bind fun id =>
          ((e.shards (shardIdx c.queue)).ackLease c.queue id c.receipt).map (Prod.mk id) with
      | none => ⟨e, none, { c with stage := .returned none }⟩
      | some (id, st, wasLive) =>
          let e := e.setShard (shardIdx c.queue) st
          ⟨{ e with totalMessagesInRam :=
              if wasLive then fetchSub e.totalMessagesInRam 1 else e.totalMessagesInRam }, none,
            { c with stage := .acked id }⟩
  | .acked id =>
      ⟨e, some (.write (.ack id c.queue) true), { c with stage := .logging id sent }⟩
  | .logging id ticket =>
      ⟨e, none, { c with stage := if ticket ∈ notified then .checking id else .logging id ticket }⟩
  | .checking id =>
      ⟨e, none, { c with stage := if e.compacts then .compacting id else .returned (some id) }⟩
  | .compacting _ | .returned _ => ⟨e, none, c⟩

/-- The next section of a batch of acks.  It waits for a flush only when it has removed a
message. -/
def AckBatchThread.resume (env : Env) (e : QueueEngine) (sent : Nat) (notified : List Nat)
    (c : AckBatchThread) : Turn AckBatchThread :=
  match c.stage with
  | .entered items => ⟨e, none, { c with stage := .locked (parsedItems env items) 0 }⟩
  | .locked (item :: left) count =>
      match (e.shards (shardIdx c.queue)).ackLease c.queue item.1 item.2 with
      | none => ⟨e, none, { c with stage := .locked left count }⟩
      | some (st, wasLive) =>
          ⟨e.setShard (shardIdx c.queue) st, some (.write (.ack item.1 c.queue) false),
            { c with
              accepted := c.accepted ++ [item.1]
              stage := .locked left (if wasLive then count + 1 else count) }⟩
  | .locked [] count => ⟨e, none, { c with stage := .counting count }⟩
  | .counting count =>
      if 0 < count then
        ⟨{ e with totalMessagesInRam := fetchSub e.totalMessagesInRam count }, none,
          { c with stage := .flushing count }⟩
      else ⟨e, none, { c with stage := .checking count }⟩
  | .flushing count => ⟨e, some .flush, { c with stage := .waiting sent count }⟩
  | .waiting ticket count =>
      ⟨e, none,
        { c with stage := if ticket ∈ notified then .checking count else .waiting ticket count }⟩
  | .checking count =>
      ⟨e, none, { c with stage := if e.compacts then .compacting count else .returned count }⟩
  | .compacting _ | .returned _ => ⟨e, none, c⟩

namespace Thread

/-- The next section of a call. -/
def resume (env : Env) (e : QueueEngine) (sent : Nat) (notified : List Nat) :
    Thread → Turn Thread
  | .push c =>
      let turn := c.resume e sent notified
      ⟨turn.engine, turn.sends, .push turn.call⟩
  | .pushBatch c =>
      let turn := c.resume env e sent notified
      ⟨turn.engine, turn.sends, .pushBatch turn.call⟩
  | .poll c ticket =>
      let turn := c.turn env e sent notified ticket
      ⟨turn.engine, turn.sends, .poll turn.call.1 turn.call.2⟩
  | .ack c =>
      let turn := c.resume env e sent notified
      ⟨turn.engine, turn.sends, .ack turn.call⟩
  | .ackBatch c =>
      let turn := c.resume env e sent notified
      ⟨turn.engine, turn.sends, .ackBatch turn.call⟩

/-- The shard whose lock the call keeps from section to section. -/
def holds : Thread → Option (Fin numShards)
  | .pushBatch ⟨queue, _, _, _, .locked ..⟩ => some (shardIdx queue)
  | .ackBatch ⟨queue, _, .locked ..⟩ => some (shardIdx queue)
  | _ => none

/-- The shard whose lock the next section of a poll takes. -/
def pollWants (c : PollCall) : Option (Fin numShards) :=
  match c.stage with
  | .entered | .routing [] | .claiming => some (shardIdx c.queue)
  | .routing (msg :: _) => some (shardIdx msg.queue)
  | .retired msg _ => some (shardIdx (dlqName msg.queue))
  | .paging records (s :: _) _ _ _ => if shardRecords records s = [] then none else some s
  | .paging _ [] _ _ _ | .reading _ | .returned _ => none

/-- The shard whose lock the next section takes. -/
def wants : Thread → Option (Fin numShards)
  | .push ⟨queue, _, _, _, _, .logging _⟩ => some (shardIdx queue)
  | .pushBatch ⟨queue, _, _, _, .entered _⟩ => some (shardIdx queue)
  | .poll c none => pollWants c
  | .ack ⟨queue, _, _, .entered⟩ => some (shardIdx queue)
  | .ackBatch ⟨queue, _, .entered _⟩ => some (shardIdx queue)
  | _ => none

end Thread

/-! ## The server -/

/-- The writer after a section that may have sent it a command. -/
def GroupCommit.after (s : GroupCommit) (sends : Option WalCommand) : GroupCommit :=
  { s with sent := s.sent ++ sends.toList }

/-- The engine, the writer thread with the files, the clock and the calls made so far.  The
files of `engine` are not used. -/
structure Threads where
  engine : QueueEngine
  writer : GroupCommit
  clock : Nat
  calls : List Thread

/-- A call starts or time passes, a call runs its next section, or the writer makes a step. -/
inductive ThreadsAct where
  | call (op : Op)
  | resume (i : Nat)
  | write (act : WriterAct)
  deriving DecidableEq

namespace Threads

/-- A server with no call running, and its writer at rest. -/
def start (w : World) : Threads := ⟨w.engine, .start w.engine.disk, w.clock, []⟩

/-- The engine with the files as the writer has left them. -/
def view (v : Threads) : QueueEngine := { v.engine with disk := v.writer.disk }

/-- The records sent so far. -/
def log (v : Threads) : List WalRecord := WalCommand.records v.writer.sent

/-- No other call keeps the lock that the next section of the call needs. -/
def unlocked (v : Threads) (call : Thread) : Bool :=
  match call.wants with
  | some s => v.calls.all fun other => other.holds != some s
  | none => true

/-- The next section of a call, and the writer with what it sends. -/
def resume (env : Env) (v : Threads) (i : Nat) (call : Thread) : Threads :=
  let turn := call.resume env v.view v.writer.sent.length v.writer.notified
  { v with
    engine := turn.engine
    writer := v.writer.after turn.sends
    calls := v.calls.set i turn.call }

/-- One act; one that cannot be made changes nothing. -/
def step (env : Env) (v : Threads) : ThreadsAct → Threads
  | .call (.advance seconds) => { v with clock := v.clock + seconds }
  | .call op => { v with calls := v.calls ++ (Thread.start v.clock op).toList }
  | .resume i =>
      match v.calls[i]? with
      | some call => if v.unlocked call then v.resume env i call else v
      | none => v
  | .write (.send _) => v
  | .write act =>
      match v.writer.step act with
      | some writer => { v with writer }
      | none => v

end Threads

end WalrQueue
