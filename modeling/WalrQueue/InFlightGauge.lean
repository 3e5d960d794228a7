import WalrQueue.AckAgreement
import WalrQueue.ClientRouting
import WalrQueue.OnePlace

/-!
# The in-flight gauge

The dispatcher of the server keeps the counters of `WalrMetrics` from the sizes of the
replies: a poll adds the messages it returned to the gauge, an ack takes off those it
counted.  The leases themselves are in the timer wheels of the engine.  The two agree as long
as leases end by acks; a lease that runs out is taken from the wheel by a later poll, and
nothing takes it off the gauge.
-/

namespace WalrQueue

open QueueEngine

/-- `WalrMetrics`, without the count of compactions. -/
structure WalrMetrics where
  messagesPushedTotal : Nat
  messagesAckedTotal : Nat
  messagesPolledTotal : Nat
  inFlightMessages : Int64
  deriving DecidableEq

namespace WalrMetrics

/-- `WalrMetrics::default`. -/
def new : WalrMetrics := ⟨0, 0, 0, 0⟩

/-- `record_push`. -/
def recordPush (m : WalrMetrics) (count : Nat) : WalrMetrics :=
  { m with messagesPushedTotal := fetchAdd m.messagesPushedTotal count }

/-- `record_ack`. -/
def recordAck (m : WalrMetrics) (count : Nat) : WalrMetrics :=
  { m with
    messagesAckedTotal := fetchAdd m.messagesAckedTotal count
    inFlightMessages := m.inFlightMessages - Int64.ofNat count }

/-- `record_poll`. -/
def recordPoll (m : WalrMetrics) (count : Nat) : WalrMetrics :=
  { m with
    messagesPolledTotal := fetchAdd m.messagesPolledTotal count
    inFlightMessages := m.inFlightMessages + Int64.ofNat count }

end WalrMetrics

/-- The requests of `Request` that a client makes of a queue. -/
inductive Request where
  | push (queueName : String) (payload : List UInt8) (delaySeconds : Nat) (messageId : String)
  | pushBatch (queueName : String) (items : List (String × List UInt8 × Nat))
  | poll (queueName : String) (visibilityTimeoutSec batchSize : Nat)
  | ack (queueName messageId receiptHandle : String)
  | ackBatch (queueName : String) (items : List (String × String))

/-- `WalrServer`, the metrics of its process and the clock its calls read. -/
structure WalrServer where
  raft : RaftNode
  metrics : WalrMetrics
  clock : Nat

/-- What a message id is refused for: one that is not 26 bytes long has to decode, and only
its length can be wrong. -/
def messageIdError (env : Env) (messageId : String) : Option String :=
  if utf8 messageId ≠ [] ∧ (utf8 messageId).length ≠ 26 ∧
      env.ulidFromString messageId = none then
    some "invalid ULID message_id: invalid length"
  else none

/-- A polled message as it is sent. -/
def PolledMessage.wire (p : PolledMessage) : Client.Message :=
  ⟨p.messageId, p.payload, p.receiptHandle, p.deliveryCount⟩

namespace WalrServer

/-- `dispatch`; `replies` are the answers of the peers. -/
def dispatch (env : Env) (codec : Postcard) (replies : List Bool) (v : WalrServer) (req : Request) :
    WalrServer × Client.Response :=
  if v.raft.isLeaderCached = false then (v, .redirect (v.raft.currentLeader.getD ""))
  else
    match req with
    | .push queueName payload delaySeconds messageId =>
        match messageIdError env messageId with
        | some message => (v, .error message)
        | none =>
            let proposed := v.raft.proposePushBatch env codec v.clock replies queueName
              [(messageId, payload, delaySeconds)]
            let v := { v with raft := proposed.1 }
            match proposed.2.1 with
            | .ok ids => ({ v with metrics := v.metrics.recordPush 1 }, .push (ids.head?.getD ""))
            | .error message => (v, .error message)
    | .pushBatch queueName items =>
        match items.findSome? fun item => messageIdError env item.1 with
        | some message => (v, .error message)
        | none =>
            let proposed := v.raft.proposePushBatch env codec v.clock replies queueName items
            let v := { v with raft := proposed.1 }
            match proposed.2.1 with
            | .ok ids => ({ v with metrics := v.metrics.recordPush ids.length }, .pushBatch ids)
            | .error message => (v, .error message)
    | .poll queueName visibilityTimeoutSec batchSize =>
        let batch := if batchSize = 0 then 1 else batchSize
        let polled := v.raft.engine.poll env v.clock queueName visibilityTimeoutSec batch
        let v := { v with raft := { v.raft with engine := polled.1 } }
        let v := if polled.2 ≠ [] then
          { v with metrics := v.metrics.recordPoll polled.2.length } else v
        (v, .poll (polled.2.map PolledMessage.wire))
    | .ack queueName messageId receiptHandle =>
        let proposed := v.raft.proposeAckBatch env codec queueName [(messageId, receiptHandle)]
        let v := { v with raft := proposed.1 }
        match proposed.2.1 with
        | .ok acked =>
            let v := if 0 < acked then { v with metrics := v.metrics.recordAck 1 } else v
            (v, .ack (0 < acked))
        | .error message => (v, .error message)
    | .ackBatch queueName items =>
        let proposed := v.raft.proposeAckBatch env codec queueName items
        let v := { v with raft := proposed.1 }
        match proposed.2.1 with
        | .ok acked =>
            let v := if 0 < acked then { v with metrics := v.metrics.recordAck acked } else v
            (v, .ackBatch (acked % 2 ^ 32))
        | .error message => (v, .error message)

end WalrServer

/-- What happens to a server: a request, or time goes by. -/
inductive ServerAction where
  | request (req : Request)
  | advance (seconds : Nat)

namespace WalrServer

/-- One action at a server without peers, where nobody answers. -/
def step (env : Env) (codec : Postcard) (v : WalrServer) : ServerAction → WalrServer
  | .request req => (v.dispatch env codec [] req).1
  | .advance seconds => { v with clock := v.clock + seconds }

/-- A new process on a directory, after the election tick that makes its node the leader. -/
def start (env : Env) (dir : DataDir) (opts : QueueOptions) (nodeId : String)
    (compactionThreshold clock : Nat) : WalrServer where
  raft := (RaftNode.withThreshold nodeId [] (QueueEngine.openDir env dir opts clock 0)
    compactionThreshold).electionTick env clock
  metrics := .new
  clock := clock

/-- A poll finds no lease that has run out, and no Ack record it may read names a message
that is leased. -/
def LeasesLast (env : Env) (v : WalrServer) : ServerAction → Prop
  | .request (.poll queueName _ _) =>
      ((v.raft.engine.wheels (shardIdx queueName)).collectExpired v.clock).2 = [] ∧
        v.raft.engine.AcksUnleased env
  | _ => True

instance (env : Env) (v : WalrServer) : (a : ServerAction) → Decidable (v.LeasesLast env a)
  | .request (.poll queueName _ _) =>
      inferInstanceAs (Decidable
        (((v.raft.engine.wheels (shardIdx queueName)).collectExpired v.clock).2 = [] ∧
          v.raft.engine.AcksUnleased env))
  | .request (.push ..) => isTrue trivial
  | .request (.pushBatch ..) => isTrue trivial
  | .request (.ack ..) => isTrue trivial
  | .request (.ackBatch ..) => isTrue trivial
  | .advance _ => isTrue trivial

/-- The leases of the engine. -/
def leases (v : WalrServer) : Nat := leaseCount v.raft.engine.wheels

/-- Ids have one place, and the gauge is the number of leases in 64 bits. -/
structure Counted (v : WalrServer) : Prop where
  single : v.raft.engine.Single
  gauge : v.metrics.inFlightMessages = Int64.ofNat v.leases

end WalrServer

/-! ## Proposals of the node -/

namespace RaftNode

variable {env : Env} {codec : Postcard} {n : RaftNode} {queue : String}

/-- A proposal of pushes leases nothing, whether it finds a quorum or not. -/
theorem proposePushBatch_single (single : n.engine.Single) (env : Env) (codec : Postcard)
    (now : Nat) (replies : List Bool) (queue : String) (items : List (String × List UInt8 × Nat)) :
    let done := (n.proposePushBatch env codec now replies queue items).1
    done.engine.Single ∧ done.engine.wheels = n.engine.wheels := by
  unfold proposePushBatch
  split
  · exact ⟨single, rfl⟩
  · split
    · exact ⟨single, rfl⟩
    · dsimp only
      split
      · have pushed := Single.pushBatch (e := { n.engine with
          draws := (resolveItems env n.engine.draws items).2 }) single env now queue
          ((resolveItems env n.engine.draws items).1.map Proposal.item)
        have wheels := wheels_pushBatch env { n.engine with
          draws := (resolveItems env n.engine.draws items).2 } now queue
          ((resolveItems env n.engine.draws items).1.map Proposal.item)
        split
        · rw [compactLogSnapshot, (compactAt_frame _ _).2.2.2.1]
          exact ⟨pushed, wheels⟩
        · exact ⟨pushed, wheels⟩
      · exact ⟨single, rfl⟩

/-- A proposal of acks returns what the engine of the leader counted. -/
theorem proposeAckBatch_counts (items : List (String × String)) (role : n.role = .leader) :
    (n.proposeAckBatch env codec queue items).2.1 =
      .ok (n.engine.ackBatch env queue items).2 := by
  unfold proposeAckBatch
  rw [if_neg (not_not.2 role)]
  split
  · rename_i empty
    rw [empty]
    rfl
  · dsimp only
    split
    · rename_i nothing
      rw [nothing]
    · rfl

/-- Only a leader counts. -/
theorem proposeAckBatch_ok {items : List (String × String)} {acked : Nat}
    (counts : (n.proposeAckBatch env codec queue items).2.1 = .ok acked) :
    n.role = .leader ∧ acked = (n.engine.ackBatch env queue items).2 := by
  have role : n.role = .leader := by
    by_contra other
    rw [proposeAckBatch, if_pos other] at counts
    cases counts
  rw [proposeAckBatch_counts items role] at counts
  cases counts
  exact ⟨role, rfl⟩

/-- A proposal of acks ends a lease for every message it counts. -/
theorem proposeAckBatch_single (single : n.engine.Single) {items : List (String × String)}
    {acked : Nat} (counts : (n.proposeAckBatch env codec queue items).2.1 = .ok acked) :
    let done := (n.proposeAckBatch env codec queue items).1
    done.engine.Single ∧ leaseCount done.engine.wheels + acked = leaseCount n.engine.wheels := by
  intro done
  obtain ⟨role, rfl⟩ := proposeAckBatch_ok counts
  obtain ⟨after, count⟩ := single.ackBatch env queue items
  have shards : done.engine.shards = (n.engine.ackBatch env queue items).1.shards :=
    proposeAckBatch_engine role
  rw [wheels_congr shards]
  exact ⟨after.congr shards, count⟩

theorem proposeAckBatch_error {items : List (String × String)} {message : String}
    (fails : (n.proposeAckBatch env codec queue items).2.1 = .error message) :
    (n.proposeAckBatch env codec queue items).1 = n := by
  have other : n.role ≠ .leader := by
    intro role
    rw [proposeAckBatch_counts items role] at fails
    cases fails
  rw [proposeAckBatch, if_pos other]

end RaftNode

theorem count_ackBatchItem (queue : String) (acc : AckBatch) (item : Ulid × String) :
    (ackBatchItem queue acc item).count ≤ acc.count + 1 := by
  unfold ackBatchItem
  split
  · exact Nat.le_succ _
  · dsimp only
    split
    · exact le_rfl
    · exact Nat.le_succ _

/-- One receipt ends at most one lease. -/
theorem ackBatch_single_le (env : Env) (e : QueueEngine) (queue : String)
    (item : String × String) : (e.ackBatch env queue [item]).2 ≤ 1 := by
  have short : (parsedItems env [item]).length ≤ 1 := List.length_filterMap_le _ _
  have total : (ackBatchLoop env e queue [item]).count ≤ 1 := by
    unfold ackBatchLoop
    generalize parsedItems env [item] = parsed at short ⊢
    rcases parsed with _ | ⟨first, _ | ⟨second, rest⟩⟩
    · exact Nat.zero_le _
    · exact count_ackBatchItem queue ⟨e, 0, []⟩ first
    · simp at short
  exact total

/-! ## The gauge over a run -/

namespace WalrServer

variable {env : Env} {codec : Postcard} {v : WalrServer}

/-- The server after a proposal of acks. -/
theorem Counted.acked (h : v.Counted) {n : RaftNode} {acked : Nat} (single : n.engine.Single)
    (ends : leaseCount n.engine.wheels + acked = v.leases) :
    (if 0 < acked then { v with raft := n, metrics := v.metrics.recordAck acked }
      else { v with raft := n }).Counted := by
  split
  · refine ⟨single, ?_⟩
    refine Int64.sub_eq_iff_eq_add.2 (h.gauge.trans ?_)
    rw [← ends, Int64.ofNat_add]
    rfl
  · rename_i none
    refine ⟨single, h.gauge.trans (congrArg Int64.ofNat ?_)⟩
    have same : leaseCount n.engine.wheels = v.leases := by omega
    exact same.symm

theorem Counted.polled (h : v.Counted) {e : QueueEngine} {polled : List PolledMessage}
    (single : e.Single) (adds : leaseCount e.wheels = v.leases + polled.length) :
    (if polled ≠ [] then { v with
        raft := { v.raft with engine := e }, metrics := v.metrics.recordPoll polled.length }
      else { v with raft := { v.raft with engine := e } }).Counted := by
  have gauge : v.metrics.inFlightMessages + Int64.ofNat polled.length =
      Int64.ofNat (leaseCount e.wheels) := by
    rw [h.gauge, adds, Int64.ofNat_add]
  split
  · exact ⟨single, gauge⟩
  · rename_i none
    have nothing : polled = [] := not_not.1 none
    refine ⟨single, h.gauge.trans (congrArg Int64.ofNat ?_)⟩
    rw [nothing] at adds
    exact adds.symm

/-- A server whose node proposes pushes. -/
theorem Counted.pushed (h : v.Counted) {n : RaftNode} {metrics : WalrMetrics}
    (single : n.engine.Single) (wheels : n.engine.wheels = v.raft.engine.wheels)
    (same : metrics.inFlightMessages = v.metrics.inFlightMessages) :
    { v with raft := n, metrics := metrics }.Counted := by
  refine ⟨single, same.trans (h.gauge.trans (congrArg Int64.ofNat ?_))⟩
  exact congrArg leaseCount wheels.symm

theorem Counted.dispatch (h : v.Counted) (replies : List Bool) (req : Request)
    (last : v.LeasesLast env (.request req)) : (v.dispatch env codec replies req).1.Counted := by
  unfold WalrServer.dispatch
  split
  · exact h
  · cases req with
    | push queueName payload delaySeconds messageId =>
        obtain ⟨single, wheels⟩ := RaftNode.proposePushBatch_single h.single env codec v.clock
          replies queueName [(messageId, payload, delaySeconds)]
        dsimp only
        split
        · exact h
        · split
          · exact h.pushed single wheels rfl
          · exact h.pushed single wheels rfl
    | pushBatch queueName items =>
        obtain ⟨single, wheels⟩ := RaftNode.proposePushBatch_single h.single env codec v.clock
          replies queueName items
        dsimp only
        split
        · exact h
        · split
          · exact h.pushed single wheels rfl
          · exact h.pushed single wheels rfl
    | poll queueName visibilityTimeoutSec batchSize =>
        obtain ⟨single, adds⟩ := h.single.poll last.1 last.2 visibilityTimeoutSec
          (if batchSize = 0 then 1 else batchSize)
        exact h.polled single adds
    | ack queueName messageId receiptHandle =>
        dsimp only
        split
        · rename_i acked counts
          obtain ⟨single, ends⟩ := RaftNode.proposeAckBatch_single h.single counts
          have one : acked ≤ 1 := by
            rw [(RaftNode.proposeAckBatch_ok counts).2]
            exact ackBatch_single_le env v.raft.engine queueName _
          have after := h.acked single ends
          split
          · rename_i some
            rwa [if_pos some, show acked = 1 by omega] at after
          · rename_i none
            rwa [if_neg none] at after
        · rename_i message fails
          rw [RaftNode.proposeAckBatch_error fails]
          exact h
    | ackBatch queueName items =>
        dsimp only
        split
        · rename_i acked counts
          obtain ⟨single, ends⟩ := RaftNode.proposeAckBatch_single h.single counts
          exact h.acked single ends
        · rename_i message fails
          rw [RaftNode.proposeAckBatch_error fails]
          exact h

theorem Counted.step (h : v.Counted) (action : ServerAction) (last : v.LeasesLast env action) :
    (v.step env codec action).Counted := by
  cases action with
  | request req => exact h.dispatch [] req last
  | advance seconds => exact ⟨h.single, h.gauge⟩

/-- A new process has no leases and its gauge is 0. -/
theorem counted_start (env : Env) (dir : DataDir) (opts : QueueOptions) (nodeId : String)
    (compactionThreshold clock : Nat) :
    (start env dir opts nodeId compactionThreshold clock).Counted := by
  have engine : (start env dir opts nodeId compactionThreshold clock).raft.engine =
      (QueueEngine.openDir env dir opts clock 0).clearForRaftRecovery := rfl
  refine ⟨?_, ?_⟩
  · rw [engine]
    exact fun _ => ShardState.Single.new
  · rw [leases, engine]
    exact (congrArg Int64.ofNat (leaseCount_new 3600)).symm

/-- In every run in which no poll finds a lease that has run out, and none may read an Ack
record of a leased message, the gauge is the number of leases after every action. -/
theorem inFlightMessages_eq_leases (env : Env) (codec : Postcard) (dir : DataDir)
    (opts : QueueOptions) (nodeId : String) (compactionThreshold clock : Nat)
    (actions : List ServerAction)
    (last : Trace.Along (step env codec) (LeasesLast env)
      (start env dir opts nodeId compactionThreshold clock) actions) :
    let after := actions.foldl (step env codec)
      (start env dir opts nodeId compactionThreshold clock)
    after.metrics.inFlightMessages = Int64.ofNat after.leases ∧
      (after.leases < 2 ^ 63 → after.metrics.inFlightMessages.toInt = after.leases) := by
  intro after
  have counted : after.Counted :=
    last.invariant (counted_start env dir opts nodeId compactionThreshold clock)
      fun v action before fits => before.step action fits
  refine ⟨counted.gauge, fun small => ?_⟩
  rw [counted.gauge]
  exact Int64.toInt_ofNat_of_lt small

/-- Two messages are leased for a second, one is acked, and the queue is polled again. -/
def sampleActions (wait : Nat) : List ServerAction :=
  [.request (.push "jobs" [1] 0 (ulidText 1)),
    .request (.push "jobs" [2] 0 (ulidText 2)),
    .request (.poll "jobs" 1 2),
    .request (.ack "jobs" (ulidText 1) (ulidText (Env.sample.ulidNew 1))),
    .advance wait,
    .request (.poll "jobs" 1 2)]

/-- The server after them. -/
def sampleServer (wait : Nat) : WalrServer :=
  (sampleActions wait).foldl (step .sample .format)
    (start .sample .empty .default "n1" 10000 1600000000)

theorem inFlightMessages_eq_leases_sample :
    Trace.Along (step .sample .format) (LeasesLast .sample)
        (start .sample .empty .default "n1" 10000 1600000000) (sampleActions 0) ∧
      (sampleServer 0).leases = 1 ∧ (sampleServer 0).metrics.inFlightMessages.toInt = 1 := by
  have last : Trace.Along (step .sample .format) (LeasesLast .sample)
      (start .sample .empty .default "n1" 10000 1600000000) (sampleActions 0) := by decide +kernel
  have one : (sampleServer 0).leases = 1 := by decide +kernel
  have gauge := inFlightMessages_eq_leases .sample .format .empty .default "n1" 10000 1600000000
    (sampleActions 0) last
  refine ⟨last, one, ?_⟩
  exact (gauge.2 (by rw [← sampleServer, one]; norm_num)).trans (congrArg Nat.cast one)

/-- After two seconds the second poll finds the lease run out and gives the message out
again: one lease, and a gauge of two. -/
theorem inFlightMessages_after_expiry :
    (sampleServer 2).leases = 1 ∧ (sampleServer 2).metrics.inFlightMessages.toInt = 2 := by
  decide +kernel

end WalrServer

end WalrQueue
