import WalrQueue.PageIn
import WalrQueue.Presence
import WalrQueue.Run

/-!
# What can happen to a shard

Every call of the engine changes its shards by the same few locked sections.
`ShardStep` lists them; what each of them keeps holds of every shard of every
engine that was opened on a directory and then called in any way.
-/

namespace WalrQueue

open QueueEngine

/-- One locked section on the shard `s`: what it stores is of a queue of the shard. -/
inductive ShardStep (env : Env) (s : Fin numShards) : ShardState → ShardState → Prop
  | see (st : ShardState) (id : Ulid) :
      ShardStep env s st { st with seenIds := insert id st.seenIds }
  | store (st : ShardState) (now : Nat) {msg : StoredMsg} (home : shardIdx msg.queue = s) :
      ShardStep env s st (st.store now msg)
  | applyAck (st : ShardState) (queue : String) (id : Ulid) :
      ShardStep env s st (st.applyAck queue id)
  | ackLease {st : ShardState} {queue : String} {id : Ulid} {receipt : String}
      {done : ShardState × Bool} (valid : st.ackLease queue id receipt = some done) :
      ShardStep env s st done.1
  | collectExpired (st : ShardState) (now : Nat) : ShardStep env s st (st.collectExpired now).1
  | retire (st : ShardState) (queue : String) (id : Ulid) :
      ShardStep env s st ({ st with ackedIds := insert id st.ackedIds }.markDeleted queue id)
  | claim {st : ShardState} {queue : String} {q : SingleQueue}
      (found : AList.lookup queue st.queues = some q) (draws now timeout maxMessages : Nat) :
      ShardStep env s st (st.claim env draws queue q now timeout maxMessages).1

/-- Any number of sections. -/
abbrev ShardSteps (env : Env) (s : Fin numShards) : ShardState → ShardState → Prop :=
  Relation.ReflTransGen (ShardStep env s)

/-- What every section keeps is kept by any number of them. -/
theorem ShardSteps.invariant {env : Env} {s : Fin numShards} {P : ShardState → Prop}
    {st st' : ShardState} (steps : ShardSteps env s st st')
    (keep : ∀ st st', ShardStep env s st st' → P st → P st')
    (start : P st) : P st' := by
  induction steps with
  | refl => exact start
  | tail _ step ih => exact keep _ _ step ih

/-- What a shard has acked it has acked for good. -/
theorem ShardStep.acked {env : Env} {s : Fin numShards} {st st' : ShardState}
    (step : ShardStep env s st st') : st.ackedIds ⊆ st'.ackedIds := by
  cases step with
  | see id => exact Finset.Subset.refl _
  | store now home => exact Finset.Subset.refl _
  | applyAck queue id =>
      rw [ShardState.applyAck, ShardState.ackedIds_markDeleted]
      exact Finset.subset_insert _ _
  | ackLease valid =>
      rw [(ShardState.ackLease_messages valid).2]
      exact Finset.subset_insert _ _
  | collectExpired now => exact Finset.Subset.refl _
  | retire queue id =>
      rw [ShardState.ackedIds_markDeleted]
      exact Finset.subset_insert _ _
  | claim found draws now timeout maxMessages => exact Finset.Subset.refl _

/-- Every shard goes from the one engine to the other by sections. -/
def ShardsStep (env : Env) (e e' : QueueEngine) : Prop :=
  ∀ s, ShardSteps env s (e.shards s) (e'.shards s)

namespace ShardsStep

variable {env : Env} {e e' e'' : QueueEngine}

theorem of_eq (same : e'.shards = e.shards) : ShardsStep env e e' := fun s => by
  rw [same]

theorem trans (first : ShardsStep env e e') (second : ShardsStep env e' e'') :
    ShardsStep env e e'' := fun s => (first s).trans (second s)

theorem congr (steps : ShardsStep env e e') (same : e''.shards = e'.shards) :
    ShardsStep env e e'' := steps.trans (of_eq same)

theorem setShard {s : Fin numShards} {st : ShardState} (steps : ShardSteps env s (e.shards s) st) :
    ShardsStep env e (e.setShard s st) := fun s' => by
  by_cases same : s' = s
  · subst same
    rw [shards_setShard]
    exact steps
  · rw [shards_setShard_of_ne same]

theorem acked (steps : ShardsStep env e e') (s : Fin numShards) :
    (e.shards s).ackedIds ⊆ (e'.shards s).ackedIds :=
  fun m known => ShardSteps.invariant (P := fun st => m ∈ st.ackedIds) (steps s)
    (fun _ _ step before => step.acked before) known

theorem checked (steps : ShardsStep env e e') :
    ShardsStep env e (e'.checkAndTriggerCompaction env) :=
  steps.congr (shards_checkAndTriggerCompaction env e')

/-! ## Push -/

theorem see_store {s : Fin numShards} {st st' : ShardState} {id : Ulid} {now : Nat}
    {msg : StoredMsg}
    (left : st' = { st with seenIds := insert id st.seenIds } ∨
      st' = ShardState.store { st with seenIds := insert id st.seenIds } now msg)
    (home : shardIdx msg.queue = s) :
    ShardSteps env s st st' := by
  rcases left with rfl | rfl
  · exact .single (.see st id)
  · exact .tail (.single (.see st id)) (.store _ now home)

theorem pushUnchecked (env : Env) (e : QueueEngine) (now : Nat) (queue : String) (id : Ulid)
    (payload : List UInt8) (delaySec : Nat) :
    ShardsStep env e (e.pushUnchecked now queue id payload delaySec).1 := by
  unfold QueueEngine.pushUnchecked
  dsimp only
  split
  · exact of_eq rfl
  · obtain ⟨st, shards, left⟩ := shards_pushSection
      { e with disk := e.disk.append (.push id queue (addU64 now delaySec) payload) } now queue id
      payload (addU64 now delaySec)
    exact (setShard (see_store left rfl)).congr shards

theorem pushWithUlid (env : Env) (e : QueueEngine) (now : Nat) (queue : String) (id : Ulid)
    (payload : List UInt8) (delaySec : Nat) :
    ShardsStep env e (e.pushWithUlid env now queue id payload delaySec).1 := by
  have pushed := pushUnchecked env e now queue id payload delaySec
  unfold QueueEngine.pushWithUlid
  dsimp only
  split
  · exact pushed.checked
  · exact pushed

theorem pushBatchItem (env : Env) (now : Nat) (queue : String) (acc : PushBatch)
    (item : PushItem) :
    ShardsStep env acc.engine (QueueEngine.pushBatchItem env now queue acc item).engine := by
  unfold QueueEngine.pushBatchItem
  dsimp only
  split
  · exact of_eq rfl
  · obtain ⟨st, shards, left⟩ := shards_pushBatchNew now queue
      { acc with
        engine := { acc.engine with draws := (drawId env acc.engine.draws item.id).2 }
        ids := acc.ids ++ [(drawId env acc.engine.draws item.id).1] }
      (drawId env acc.engine.draws item.id).1 item
    exact (setShard (see_store left rfl)).congr shards

theorem pushBatch (env : Env) (e : QueueEngine) (now : Nat) (queue : String)
    (items : List PushItem) : ShardsStep env e (e.pushBatch env now queue items).1 := by
  have loop : ShardsStep env e (pushBatchLoop env e now queue items).engine :=
    List.foldlRecOn (motive := fun acc => ShardsStep env e acc.engine) items
      (QueueEngine.pushBatchItem env now queue) (of_eq rfl)
      fun acc steps item _ => steps.trans (pushBatchItem env now queue acc item)
  exact checked (loop.congr rfl)

/-! ## Poll -/

theorem load {s : Fin numShards} {st : ShardState} (opts : QueueOptions) (now : Nat)
    {r : WalRecord} (home : shardIdx r.queueName = s) :
    ShardSteps env s st (st.load opts now r) := by
  cases r with
  | ack msgId queueName => exact .single (.applyAck st queueName msgId)
  | push msgId queueName visibleAt payload =>
      unfold ShardState.load
      dsimp only
      split
      · exact see_store (.inr rfl) home
      · exact .refl

theorem pageInChunk (now : Nat) (targetQueue : String) (e : QueueEngine)
    (records : List WalRecord) :
    ShardsStep env e (QueueEngine.pageInChunk now targetQueue e records).engine := fun s => by
  rw [shards_pageInChunk]
  refine List.foldlRecOn (motive := ShardSteps env s (e.shards s)) _
    (ShardState.load e.options now) .refl fun st steps r member => steps.trans (load _ _ ?_)
  exact of_decide_eq_true (List.mem_filter.1 member).2

theorem prefetch (env : Env) (e : QueueEngine) (queue : String) (now maxMessages : Nat) :
    ShardsStep env e (e.prefetch env queue now maxMessages) := by
  refine prefetch_induction (P := ShardsStep env e) (fun fetchLimit e' flushed steps => ?_)
    (of_eq rfl) maxMessages
  have turn := pageInStep_eq env now queue fetchLimit e' flushed
  dsimp only at turn
  generalize e'.disk.readEntriesFromOffset env e'.spillReadOffset fetchLimit = read at turn
  rcases turn with ⟨_, took⟩ | ⟨_, offset, moved⟩
  · have advanced : ShardsStep env e { e' with spillReadOffset := read.2 } := steps.congr rfl
    rw [took]
    exact advanced.trans (pageInChunk now queue _ read.1)
  · rw [moved]
    exact steps.congr rfl

theorem routeExpired (now : Nat) (e : QueueEngine) (msg : StoredMsg) :
    ShardsStep env e (QueueEngine.routeExpired now e msg) := by
  unfold QueueEngine.routeExpired
  split
  · exact (setShard (.single (.retire _ _ _))).trans (setShard (see_store (.inr rfl) rfl))
  · exact setShard (.single (.store _ _ rfl))

theorem routed (env : Env) (e : QueueEngine) (s : Fin numShards) (now : Nat) :
    ShardsStep env e (e.routed s now) := by
  have collected : ShardsStep env e (e.collectExpired s now).1 :=
    setShard (.single (.collectExpired _ now))
  exact List.foldlRecOn (motive := ShardsStep env e) (e.collectExpired s now).2
    (QueueEngine.routeExpired now) collected
    fun e' steps msg _ => steps.trans (routeExpired now e' msg)

theorem claimSection (env : Env) (e : QueueEngine) (queue : String)
    (now timeout maxMessages : Nat) :
    ShardsStep env e (e.claimSection env queue now timeout maxMessages).1 := by
  unfold QueueEngine.claimSection
  dsimp only
  split
  · rename_i found
    exact (setShard (.single (.claim found e.draws now timeout maxMessages))).congr rfl
  · exact of_eq rfl

theorem poll (env : Env) (e : QueueEngine) (now : Nat) (queue : String)
    (visibilitySec maxMessages : Nat) :
    ShardsStep env e (e.poll env now queue visibilitySec maxMessages).1 := by
  exact ((routed env e (shardIdx queue) now).trans (prefetch env _ queue now maxMessages)).trans
    (claimSection env _ _ _ _ _)

/-! ## Ack -/

theorem ack (env : Env) (e : QueueEngine) (queue messageId receipt : String) :
    ShardsStep env e (e.ack env queue messageId receipt).1 := by
  unfold QueueEngine.ack
  split
  · exact of_eq rfl
  · rename_i done accepted
    obtain ⟨id, _, accepted⟩ := Option.bind_eq_some_iff.1 accepted
    unfold ackUnchecked at accepted
    cases valid : (e.shards (shardIdx queue)).ackLease queue id receipt with
    | none =>
        rw [valid] at accepted
        cases accepted
    | some result =>
        rw [valid] at accepted
        cases accepted
        exact checked ((setShard (.single (.ackLease valid))).congr rfl)

theorem ackBatchItem (queue : String) (acc : AckBatch) (item : Ulid × String) :
    ShardsStep env acc.engine (QueueEngine.ackBatchItem queue acc item).engine := by
  cases valid : (acc.engine.shards (shardIdx queue)).ackLease queue item.1 item.2 with
  | none => exact of_eq (by rw [ackBatchItem_of_invalid valid])
  | some done => exact (setShard (.single (.ackLease valid))).congr (ackBatchItem_of_valid valid).1

theorem ackBatch (env : Env) (e : QueueEngine) (queue : String) (items : List (String × String)) :
    ShardsStep env e (e.ackBatch env queue items).1 := by
  have loop : ShardsStep env e (ackBatchLoop env e queue items).engine :=
    List.foldlRecOn (motive := fun acc => ShardsStep env e acc.engine) _
      (QueueEngine.ackBatchItem queue) (of_eq rfl)
      fun acc steps item _ => steps.trans (ackBatchItem queue acc item)
  exact checked (loop.congr (disk_ackBatchUnchecked env e queue items).2.2)

end ShardsStep

/-! ## Whole runs -/

theorem World.step_shards (env : Env) (w : World) (op : Op) :
    ShardsStep env w.engine (w.step env op).engine := by
  cases op with
  | push queue id payload delaySec => exact .pushWithUlid env _ _ _ _ _ _
  | pushBatch queue items => exact .pushBatch env _ _ _ _
  | poll queue visibilitySec maxMessages => exact .poll env _ _ _ _ _
  | ack queue messageId receipt => exact .ack env _ _ _ _
  | ackBatch queue items => exact .ackBatch env _ _ _
  | advance seconds => exact .of_eq rfl

theorem World.run_shards (env : Env) (w : World) (ops : List Op) :
    ShardsStep env w.engine (w.run env ops).engine :=
  List.foldlRecOn (motive := fun w' => ShardsStep env w.engine w'.engine) ops (World.step env)
    (.of_eq rfl) fun w' steps op _ => steps.trans (w'.step_shards env op)

/-- Replay builds every shard from a new one by sections. -/
theorem QueueEngine.openDir_shards (env : Env) (dir : DataDir) (opts : QueueOptions)
    (baseEpochSec draws : Nat) (s : Fin numShards) :
    ShardSteps env s .new ((openDir env dir opts baseEpochSec draws).shards s) := by
  have start : ShardSteps env s .new ((⟨fun _ => .new, 0⟩ : Replay).shards s) := .refl
  refine List.foldlRecOn (motive := fun acc => ShardSteps env s .new (acc.shards s)) _
    (replayRecord opts baseEpochSec) start fun acc steps r _ => ?_
  cases r with
  | ack msgId queueName =>
      by_cases same : s = shardIdx queueName
      · subst same
        simp only [replayRecord, Function.update_self]
        exact steps.tail (.applyAck _ queueName msgId)
      · simpa only [replayRecord, Function.update_of_ne same] using steps
  | push msgId queueName visibleAt payload =>
      by_cases same : s = shardIdx queueName
      · subst same
        unfold replayRecord
        dsimp only
        split
        · dsimp only
          rw [Function.update_self]
          exact steps.trans (ShardsStep.see_store (.inr rfl) rfl)
        · dsimp only
          rw [Function.update_self]
          exact steps.trans (.single (.see _ msgId))
      · unfold replayRecord
        dsimp only
        split <;> simpa only [Function.update_of_ne same] using steps

/-- What a new shard has and every section keeps holds of every shard of an engine that was
opened on some directory and then run. -/
theorem World.shards_invariant {env : Env} {P : ShardState → Prop} {s : Fin numShards}
    (keep : ∀ st st', ShardStep env s st st' → P st → P st') (start : P .new) (dir : DataDir)
    (opts : QueueOptions) (clock draws : Nat) (ops : List Op) :
    P (((World.mk (openDir env dir opts clock draws) clock).run env ops).engine.shards s) :=
  have opened := ShardSteps.invariant (openDir_shards env dir opts clock draws s) keep start
  ShardSteps.invariant (run_shards env ⟨_, clock⟩ ops s) keep opened

end WalrQueue
