import WalrQueue.EngineFrames

/-!
# What page-in does to one shard

The counters of `page_in_cold_spill` decide when it stops and never what a record does, so
a chunk acts on each shard by itself: the records of the shard, in log order.
-/

namespace WalrQueue

open QueueEngine

namespace ShardState

/-- One record of a shard section of `page_in_cold_spill`, on the shard. -/
def load (opts : QueueOptions) (now : Nat) (st : ShardState) : WalRecord → ShardState
  | .push msgId queueName visibleAt payload =>
      if visibleAt ≤ addU64 now hotDelayHorizonSec ∧ msgId ∉ st.messages ∧
          msgId ∉ st.ackedIds then
        { st with seenIds := insert msgId st.seenIds }.store now
          { id := msgId, queue := queueName, payload, visibleAt, deliveryCount := 0
            maxDelivery := opts.maxDeliveryCount }
      else st
  | .ack msgId queueName => st.applyAck queueName msgId

/-- The records of a chunk that belong to a shard. -/
def loadAll (opts : QueueOptions) (now : Nat) (st : ShardState) (records : List WalRecord) :
    ShardState :=
  records.foldl (load opts now) st

end ShardState

theorem state_pageInRecord (opts : QueueOptions) (now : Nat) (targetQueue : String) (acc : PageIn)
    (r : WalRecord) :
    (pageInRecord opts now targetQueue acc r).state = acc.state.load opts now r := by
  cases r with
  | ack msgId queueName => rfl
  | push msgId queueName visibleAt payload =>
      unfold pageInRecord ShardState.load
      dsimp only
      split <;> rfl

theorem state_pageInRecords (opts : QueueOptions) (now : Nat) (targetQueue : String)
    (records : List WalRecord) (acc : PageIn) :
    (records.foldl (pageInRecord opts now targetQueue) acc).state =
      acc.state.loadAll opts now records := by
  induction records generalizing acc with
  | nil => rfl
  | cons r records ih =>
      rw [List.foldl_cons, ih, state_pageInRecord]
      rfl

/-- A chunk acts on every shard by the records of the shard. -/
theorem shards_pageInChunk (now : Nat) (targetQueue : String) (e : QueueEngine)
    (records : List WalRecord) (s : Fin numShards) :
    (pageInChunk now targetQueue e records).engine.shards s =
      (e.shards s).loadAll e.options now (shardRecords records s) := by
  have sections : ∀ (ss : List (Fin numShards)) (acc : PageInChunk), ss.Nodup →
      (ss.foldl (pageInShard now targetQueue records) acc).engine.shards s =
        if s ∈ ss then
          (acc.engine.shards s).loadAll acc.engine.options now (shardRecords records s)
        else acc.engine.shards s := by
    intro ss
    induction ss with
    | nil => exact fun acc _ => rfl
    | cons t ss ih =>
        intro acc nodup
        obtain ⟨fresh, nodup⟩ := List.nodup_cons.1 nodup
        have options : (pageInShard now targetQueue records acc t).engine.options =
            acc.engine.options := rfl
        have shards : (pageInShard now targetQueue records acc t).engine.shards s =
            if s = t then
              (acc.engine.shards s).loadAll acc.engine.options now (shardRecords records s)
            else acc.engine.shards s := by
          by_cases same : s = t
          · subst same
            rw [if_pos rfl, ← state_pageInRecords _ _ targetQueue _
              ⟨acc.engine.shards s, acc.engine.totalMessagesInRam, acc.added, acc.targetAdded⟩]
            exact shards_setShard
          · rw [if_neg same]
            exact shards_setShard_of_ne same
        rw [List.foldl_cons, ih _ nodup, shards, options]
        by_cases same : s = t
        · subst same
          simp [fresh]
        · simp [same]
  have whole := sections (List.finRange numShards) ⟨e, 0, 0⟩ (List.nodup_finRange _)
  rw [if_pos (List.mem_finRange s)] at whole
  exact whole

/-! ## Paging reads -/

/-- The records of the first `k` paging reads from an offset. -/
def DiskLog.pages (env : Env) (d : DiskLog) (limit : Nat) : Nat → Nat → List WalRecord
  | 0, _ => []
  | k + 1, offset =>
      let read := d.readEntriesFromOffset env offset limit
      read.1 ++ d.pages env limit k read.2

/-- The offset the first `k` paging reads lead to. -/
def DiskLog.pagesEnd (env : Env) (d : DiskLog) (limit : Nat) : Nat → Nat → Nat
  | 0, offset => offset
  | k + 1, offset => d.pagesEnd env limit k (d.readEntriesFromOffset env offset limit).2

theorem DiskLog.pagesEnd_succ (env : Env) (d : DiskLog) (limit k offset : Nat) :
    d.pagesEnd env limit (k + 1) offset =
      (d.readEntriesFromOffset env (d.pagesEnd env limit k offset) limit).2 := by
  induction k generalizing offset with
  | zero => rfl
  | succ k ih => exact ih _

end WalrQueue
