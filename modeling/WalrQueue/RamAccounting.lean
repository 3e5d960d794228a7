import WalrQueue.Presence
import WalrQueue.Run

/-!
# The RAM counter

`total_messages_in_ram` is changed next to the maps it counts, in many places.
`Counts added removed lost` accounts for a part of an operation: it added that
many messages, removed that many, and overwrote `lost` of them without counting
it.  Accounts add up, so every operation has one.
-/

namespace WalrQueue

open QueueEngine

/-- The sizes of the `messages` of all shards together. -/
@[irreducible] def messageCount (shards : Fin numShards → ShardState) : Nat :=
  ∑ s, FMap.size (shards s).messages

theorem messageCount_congr {shards shards' : Fin numShards → ShardState}
    (messages : ∀ s, (shards' s).messages = (shards s).messages) :
    messageCount shards' = messageCount shards := by
  unfold messageCount
  simp only [messages]

theorem messageCount_of_mem {shards shards' : Fin numShards → ShardState}
    (same : ∀ s id, id ∈ (shards' s).messages ↔ id ∈ (shards s).messages) :
    messageCount shards' = messageCount shards := by
  unfold messageCount
  exact Finset.sum_congr rfl fun s _ => FMap.size_congr (same s)

theorem messageCount_update (shards : Fin numShards → ShardState) (s : Fin numShards)
    (st : ShardState) :
    messageCount (Function.update shards s st) + FMap.size (shards s).messages =
      messageCount shards + FMap.size st.messages := by
  have total := FMap.sum_update (fun st : ShardState => FMap.size st.messages) shards s st
  unfold messageCount
  exact total

theorem messageCount_new : messageCount (fun _ => .new) = 0 := by
  unfold messageCount
  exact Finset.sum_eq_zero fun s _ => rfl

/-- The messages in memory. -/
def QueueEngine.ramCount (e : QueueEngine) : Nat := messageCount e.shards

/-- What a part of an operation does to the messages in memory and to the counter,
which counts modulo `2 ^ 64`. -/
structure Counts (added removed lost : Nat) (e e' : QueueEngine) : Prop where
  memory : e'.ramCount + removed + lost = e.ramCount + added
  counter : e'.totalMessagesInRam + removed ≡ e.totalMessagesInRam + added [MOD 2 ^ 64]
  bounded : e.totalMessagesInRam < 2 ^ 64 → e'.totalMessagesInRam < 2 ^ 64
  options : e'.options = e.options

namespace Counts

variable {e e' e'' : QueueEngine} {a a' r r' l l' : Nat} {s : Fin numShards} {st : ShardState}

theorem refl : Counts 0 0 0 e e := ⟨rfl, .refl _, id, rfl⟩

theorem trans (first : Counts a r l e e') (second : Counts a' r' l' e' e'') :
    Counts (a + a') (r + r') (l + l') e e'' where
  memory := by
    have := first.memory
    have := second.memory
    omega
  counter := by
    have left := second.counter.add_right r
    have right := first.counter.add_right a'
    have same : e'.totalMessagesInRam + a' + r = e'.totalMessagesInRam + r + a' := by omega
    rw [same] at left
    have joined := left.trans right
    rwa [Nat.add_assoc, Nat.add_assoc, Nat.add_comm r' r] at joined
  bounded before := second.bounded (first.bounded before)
  options := second.options.trans first.options

theorem ramCount_setShard (e : QueueEngine) (s : Fin numShards) (st : ShardState) :
    (e.setShard s st).ramCount + FMap.size (e.shards s).messages =
      e.ramCount + FMap.size st.messages := messageCount_update e.shards s st

theorem ramCount_congr (shards : e'.shards = e.shards) : e'.ramCount = e.ramCount :=
  congrArg messageCount shards

/-- Only the shards and the counter matter. -/
theorem congr (shards : e'.shards = e.shards)
    (total : e'.totalMessagesInRam = e.totalMessagesInRam) (options : e'.options = e.options) :
    Counts 0 0 0 e e' where
  memory := by rw [ramCount_congr shards]
  counter := by rw [total]
  bounded before := by rw [total]; exact before
  options := options

/-- A section of one shard that adds messages. -/
theorem ramCount_add (s : Fin numShards) (st : ShardState)
    (size : FMap.size st.messages = FMap.size (e.shards s).messages + a)
    (shards : e'.shards = (e.setShard s st).shards) : e'.ramCount = e.ramCount + a := by
  have := ramCount_setShard e s st
  rw [ramCount_congr shards]
  omega

/-- A section of one shard that removes messages. -/
theorem ramCount_sub (s : Fin numShards) (st : ShardState)
    (size : FMap.size st.messages + r = FMap.size (e.shards s).messages)
    (shards : e'.shards = (e.setShard s st).shards) : e'.ramCount + r = e.ramCount := by
  have := ramCount_setShard e s st
  rw [ramCount_congr shards]
  omega

theorem of_add (memory : e'.ramCount = e.ramCount + a)
    (counter : e'.totalMessagesInRam = fetchAdd e.totalMessagesInRam a)
    (options : e'.options = e.options) : Counts a 0 0 e e' where
  memory := by omega
  counter := by
    rw [counter, Nat.add_zero]
    exact Nat.mod_modEq _ _
  bounded _ := by rw [counter]; exact Nat.mod_lt _ (by norm_num)
  options := options

theorem of_sub (memory : e'.ramCount + r = e.ramCount)
    (counter : e'.totalMessagesInRam = fetchSub e.totalMessagesInRam r)
    (options : e'.options = e.options) : Counts 0 r 0 e e' where
  memory := by omega
  counter := by
    rw [counter, Nat.add_zero]
    unfold Nat.ModEq fetchSub
    omega
  bounded _ := by rw [counter]; exact Nat.mod_lt _ (by norm_num)
  options := options

/-- Messages overwritten without being counted. -/
theorem of_lost (memory : e'.ramCount + l = e.ramCount)
    (counter : e'.totalMessagesInRam = e.totalMessagesInRam)
    (options : e'.options = e.options) : Counts 0 0 l e e' where
  memory := by omega
  counter := by rw [counter]
  bounded before := by rw [counter]; exact before
  options := options

end Counts

/-! ## Sizes of one shard -/

namespace ShardState

variable {st : ShardState} {id : Ulid} {queue : String}

theorem size_store_of_notMem (st : ShardState) (msg : StoredMsg) (now : Nat)
    (absent : msg.id ∉ st.messages) :
    FMap.size (st.store now msg).messages = FMap.size st.messages + 1 :=
  FMap.size_insert_of_notMem msg absent

/-- The section of a push that stores its message. -/
theorem size_see_store (st : ShardState) (msg : StoredMsg) (now : Nat)
    (absent : msg.id ∉ st.messages) :
    FMap.size (ShardState.store { st with seenIds := insert msg.id st.seenIds } now msg).messages =
      FMap.size st.messages + 1 :=
  FMap.size_insert_of_notMem msg absent

theorem size_store_of_mem (st : ShardState) (msg : StoredMsg) (now : Nat)
    (present : msg.id ∈ st.messages) :
    FMap.size (st.store now msg).messages = FMap.size st.messages :=
  FMap.size_insert_of_mem msg present

theorem size_applyAck (st : ShardState) (queue : String) (id : Ulid) :
    FMap.size (st.applyAck queue id).messages + (if id ∈ st.messages then 1 else 0) =
      FMap.size st.messages := by
  simp only [applyAck, messages_markDeleted]
  split
  · rename_i present
    exact FMap.size_erase_of_mem present
  · rename_i absent
    rw [FMap.erase_of_notMem absent]
    rfl

/-- A valid receipt reports whether the message was in memory. -/
theorem ackLease_wasLive {receipt : String} {done : ShardState × Bool}
    (valid : st.ackLease queue id receipt = some done) : done.2 = decide (id ∈ st.messages) := by
  unfold ShardState.ackLease at valid
  dsimp only at valid
  split at valid
  · split at valid <;> rename_i present <;> cases valid <;> simp [present]
  · cases valid

theorem size_ackLease {receipt : String} {done : ShardState × Bool}
    (valid : st.ackLease queue id receipt = some done) :
    FMap.size done.1.messages + (if done.2 then 1 else 0) = FMap.size st.messages := by
  rw [(ackLease_messages valid).1, ackLease_wasLive valid]
  by_cases present : id ∈ st.messages
  · simpa [present] using FMap.size_erase_of_mem present
  · simp [present, FMap.erase_of_notMem present]

/-- Claiming only replaces messages. -/
theorem size_claim (env : Env) (draws : Nat) (queue : String) (q : SingleQueue)
    (now timeout maxMessages : Nat) :
    FMap.size (st.claim env draws queue q now timeout maxMessages).1.messages =
      FMap.size st.messages := by
  have loop : ∀ (ids : List Ulid) (acc : Claim),
      FMap.size (ids.foldl (claimOne env now queue timeout) acc).messages =
        FMap.size acc.messages := by
    intro ids
    induction ids with
    | nil => exact fun acc => rfl
    | cons id ids ih =>
        intro acc
        rw [List.foldl_cons, ih]
        rcases claimOne_messages env now queue timeout acc id with ⟨msg, found, eq⟩ | eq
        · rw [eq, FMap.size_insert_of_mem _ (FMap.mem_of_lookup found)]
        · rw [eq]
  exact loop _ ⟨st.messages, st.wheel, draws + 1, []⟩

/-- What a sweep takes out of memory it has in hand. -/
theorem size_collectExpired (st : ShardState) (now : Nat) :
    FMap.size (st.collectExpired now).1.messages + (st.collectExpired now).2.length =
      FMap.size st.messages := by
  have loop : ∀ (items : List InFlightItem) (acc : FMap Ulid StoredMsg × List StoredMsg),
      FMap.size (items.foldl takeExpired acc).1 + (items.foldl takeExpired acc).2.length =
        FMap.size acc.1 + acc.2.length := by
    intro items
    induction items with
    | nil => exact fun acc => rfl
    | cons item items ih =>
        intro acc
        rw [List.foldl_cons, ih]
        rcases takeExpired_cases acc item with ⟨msg, found, eq⟩ | eq
        · have erased := FMap.size_erase_of_mem (FMap.mem_of_lookup found)
          simp only [eq, List.length_append, List.length_singleton]
          omega
        · rw [eq]
  exact loop _ (st.messages, [])

/-- A sweep takes no id twice. -/
theorem nodup_collectExpired (keyed : st.Keyed) (now : Nat) :
    ((st.collectExpired now).2.map (·.id)).Nodup := by
  have loop : ∀ (items : List InFlightItem) (acc : FMap Ulid StoredMsg × List StoredMsg),
      (∀ id msg, AList.lookup id acc.1 = some msg → msg.id = id) →
      (acc.2.map (·.id)).Nodup → (∀ msg ∈ acc.2, msg.id ∉ acc.1) →
      ((items.foldl takeExpired acc).2.map (·.id)).Nodup := by
    intro items
    induction items with
    | nil => exact fun acc _ nodup _ => nodup
    | cons item items ih =>
        intro acc keyed nodup gone
        rw [List.foldl_cons]
        refine ih _ (keyed_takeExpired keyed item) ?_ ?_
        · rcases takeExpired_cases acc item with ⟨msg, found, eq⟩ | eq
          · rw [eq, List.map_append, List.nodup_append]
            refine ⟨nodup, by simp, fun id before id' new same => ?_⟩
            obtain ⟨old, member, rfl⟩ := List.mem_map.1 before
            simp only [List.map_cons, List.map_nil, List.mem_singleton] at new
            rw [new, keyed _ msg found] at same
            exact gone old member (same ▸ FMap.mem_of_lookup found)
          · rw [eq]
            exact nodup
        · rcases takeExpired_cases acc item with ⟨msg, found, eq⟩ | eq
          · rw [eq]
            intro old member inside
            rw [AList.mem_erase] at inside
            rcases List.mem_append.1 member with before | new
            · exact gone old before inside.2
            · rw [List.mem_singleton.1 new, keyed _ msg found] at inside
              exact inside.1 rfl
          · rw [eq]
            exact gone
  exact loop _ (st.messages, []) keyed (by simp) (by simp)

end ShardState

/-! ## Push -/

namespace Counts

variable {e e' : QueueEngine} {now a r l : Nat} {queue : String}

/-- A compaction moves nothing in memory. -/
theorem checkAndTriggerCompaction (env : Env) (e : QueueEngine) :
    Counts 0 0 0 e (e.checkAndTriggerCompaction env) := by
  refine .congr (shards_checkAndTriggerCompaction env e) ?_ ?_ <;>
    unfold QueueEngine.checkAndTriggerCompaction <;> split <;> rfl

theorem checked (counts : Counts a r l e e') (env : Env) :
    Counts a r l e (e'.checkAndTriggerCompaction env) :=
  counts.trans (.checkAndTriggerCompaction env e')

/-- A push adds a message only while the counter is below the cap. -/
theorem pushUnchecked (e : QueueEngine) (now : Nat) (queue : String) (id : Ulid)
    (payload : List UInt8) (delaySec : Nat) :
    ∃ added, Counts added 0 0 e (e.pushUnchecked now queue id payload delaySec).1 ∧
      (added = 0 ∨ e.totalMessagesInRam + added ≤ e.options.maxHotMessagesInRam) := by
  unfold QueueEngine.pushUnchecked
  dsimp only
  split
  · exact ⟨0, .congr rfl rfl rfl, Or.inl rfl⟩
  · unfold QueueEngine.pushSection
    dsimp only
    split
    · rename_i room
      refine ⟨1, .of_add ?_ rfl rfl, Or.inr room.2.1⟩
      exact ramCount_add (shardIdx queue) _ (ShardState.size_see_store _
        (e.newMsg queue id payload (addU64 now delaySec)) now room.2.2) rfl
    · refine ⟨0, .of_lost ?_ rfl rfl, Or.inl rfl⟩
      exact ramCount_sub (shardIdx queue) { e.shards (shardIdx queue) with
        seenIds := insert id (e.shards (shardIdx queue)).seenIds } rfl rfl

/-- The loop of `push_batch`, which leaves the counter for later. -/
structure Batch (e : QueueEngine) (acc : PushBatch) : Prop where
  memory : acc.engine.ramCount = e.ramCount + acc.addedCount
  counter : acc.engine.totalMessagesInRam = e.totalMessagesInRam
  options : acc.engine.options = e.options
  curRam : acc.curRam = e.totalMessagesInRam + acc.addedCount
  room : acc.addedCount = 0 ∨ acc.curRam ≤ e.options.maxHotMessagesInRam

theorem Batch.pushBatchItem {acc : PushBatch} (h : Batch e acc) (env : Env) (now : Nat)
    (queue : String) (item : PushItem) :
    Batch e (QueueEngine.pushBatchItem env now queue acc item) := by
  unfold QueueEngine.pushBatchItem
  dsimp only
  split
  · exact ⟨(ramCount_congr (by rfl)).trans h.memory, h.counter, h.options, h.curRam, h.room⟩
  · generalize (drawId env acc.engine.draws item.id).1 = id
    unfold QueueEngine.pushBatchNew
    dsimp only
    have curRam := h.curRam
    split
    · rename_i room
      refine ⟨?_, h.counter, h.options, ?_, Or.inr ?_⟩
      · refine Eq.trans (ramCount_add (e := acc.engine) (shardIdx queue) _
          (ShardState.size_see_store _ (acc.engine.newMsg queue id item.payload
            (addU64 now item.delaySeconds)) now room.2.2) rfl) ?_
        rw [h.memory, Nat.add_assoc]
      · simp only
        omega
      · have limit := room.2.1
        rw [h.options] at limit
        exact limit
    · refine ⟨?_, h.counter, h.options, h.curRam, h.room⟩
      refine Eq.trans ?_ h.memory
      exact ramCount_add (e := acc.engine) (a := 0) (shardIdx queue)
        { acc.engine.shards (shardIdx queue) with
          seenIds := insert id (acc.engine.shards (shardIdx queue)).seenIds } rfl rfl

theorem Batch.start (e : QueueEngine) : Batch e ⟨e, [], 0, e.totalMessagesInRam⟩ :=
  ⟨rfl, rfl, rfl, rfl, .inl rfl⟩

theorem Batch.pushBatchLoop (env : Env) (e : QueueEngine) (now : Nat) (queue : String)
    (items : List PushItem) : Batch e (QueueEngine.pushBatchLoop env e now queue items) :=
  List.foldlRecOn (motive := fun (out : PushBatch) => Batch e out) items _ (.start e)
    fun _ before item _ => before.pushBatchItem env now queue item

theorem pushBatchUnchecked (env : Env) (e : QueueEngine) (now : Nat) (queue : String)
    (items : List PushItem) :
    ∃ added, Counts added 0 0 e (e.pushBatchUnchecked env now queue items) ∧
      (added = 0 ∨ e.totalMessagesInRam + added ≤ e.options.maxHotMessagesInRam) := by
  have done := Batch.pushBatchLoop env e now queue items
  refine ⟨_, .of_add ((ramCount_congr (by rfl)).trans done.memory) ?_ done.options,
    done.room.imp_right fun limit => by rw [← done.curRam]; exact limit⟩
  simp only [QueueEngine.pushBatchUnchecked, done.counter]

/-! ## Page-in -/

/-- What the records of one shard section do to the shard and the counters. -/
theorem pageInRecords (opts : QueueOptions) (now : Nat) (targetQueue : String)
    (records : List WalRecord) (acc : PageIn) :
    ∃ added removed,
      (records.foldl (pageInRecord opts now targetQueue) acc).added = acc.added + added ∧
      FMap.size (records.foldl (pageInRecord opts now targetQueue) acc).state.messages + removed =
        FMap.size acc.state.messages + added ∧
      (records.foldl (pageInRecord opts now targetQueue) acc).ram + removed ≡
        acc.ram [MOD 2 ^ 64] := by
  induction records generalizing acc with
  | nil => exact ⟨0, 0, rfl, rfl, .refl _⟩
  | cons r records ih =>
      obtain ⟨added, removed, total, size, ram⟩ := ih (pageInRecord opts now targetQueue acc r)
      rw [List.foldl_cons]
      cases r with
      | ack msgId queueName =>
          have acked := ShardState.size_applyAck acc.state queueName msgId
          simp only [pageInRecord] at total size ram ⊢
          refine ⟨added, removed + if msgId ∈ acc.state.messages then 1 else 0, total, by omega, ?_⟩
          rw [← Nat.add_assoc]
          refine (ram.add_right _).trans ?_
          split
          · unfold Nat.ModEq fetchSub
            omega
          · exact .refl _
      | push msgId queueName visibleAt payload =>
          by_cases fresh : visibleAt ≤ addU64 now hotDelayHorizonSec ∧
              msgId ∉ acc.state.messages ∧ msgId ∉ acc.state.ackedIds
          · have stored := ShardState.size_see_store acc.state
              ⟨msgId, queueName, payload, visibleAt, 0, opts.maxDeliveryCount⟩ now fresh.2.1
            simp only [pageInRecord, if_pos fresh] at total size ram stored ⊢
            exact ⟨added + 1, removed, by omega, by omega, ram⟩
          · simp only [pageInRecord, if_neg fresh] at total size ram ⊢
            exact ⟨added, removed, total, size, ram⟩

/-- One chunk adds what it reports, and removes what its Acks name. -/
theorem pageInChunk (now : Nat) (targetQueue : String) (e : QueueEngine)
    (records : List WalRecord) :
    ∃ removed, Counts (QueueEngine.pageInChunk now targetQueue e records).added removed 0 e
      (QueueEngine.pageInChunk now targetQueue e records).engine := by
  have shards : ∀ (ss : List (Fin numShards)) (acc : PageInChunk), ∃ added removed,
      (ss.foldl (pageInShard now targetQueue records) acc).added = acc.added + added ∧
      (ss.foldl (pageInShard now targetQueue records) acc).engine.ramCount + removed =
        acc.engine.ramCount + added ∧
      (ss.foldl (pageInShard now targetQueue records) acc).engine.totalMessagesInRam + removed ≡
        acc.engine.totalMessagesInRam [MOD 2 ^ 64] := by
    intro ss
    induction ss with
    | nil => exact fun acc => ⟨0, 0, rfl, rfl, .refl _⟩
    | cons s ss ih =>
        intro acc
        obtain ⟨a, r, total, size, ram⟩ := pageInRecords acc.engine.options now targetQueue
          (shardRecords records s)
          ⟨acc.engine.shards s, acc.engine.totalMessagesInRam, acc.added, acc.targetAdded⟩
        obtain ⟨a', r', total', memory, ram'⟩ := ih (pageInShard now targetQueue records acc s)
        have here : (pageInShard now targetQueue records acc s).engine.ramCount + r =
            acc.engine.ramCount + a := by
          have replaced := ramCount_setShard acc.engine s ((shardRecords records s).foldl
            (pageInRecord acc.engine.options now targetQueue)
            ⟨acc.engine.shards s, acc.engine.totalMessagesInRam, acc.added, acc.targetAdded⟩).state
          have same : (pageInShard now targetQueue records acc s).engine.ramCount = _ :=
            ramCount_congr (e := acc.engine.setShard s _) rfl
          simp only at size
          omega
        have added : (pageInShard now targetQueue records acc s).added = acc.added + a := total
        rw [List.foldl_cons]
        refine ⟨a + a', r + r', by omega, by omega, ?_⟩
        have first := ram'.add_right r
        rw [Nat.add_assoc, Nat.add_comm r' r] at first
        exact first.trans ram
  obtain ⟨added, removed, total, memory, ram⟩ := shards (List.finRange numShards) ⟨e, 0, 0⟩
  have total : (QueueEngine.pageInChunk now targetQueue e records).added = added := by
    rw [← Nat.zero_add added]
    exact total
  have counter : (QueueEngine.pageInChunk now targetQueue e records).engine.totalMessagesInRam =
      fetchAdd ((List.finRange numShards).foldl (pageInShard now targetQueue records)
        ⟨e, 0, 0⟩).engine.totalMessagesInRam added := by
    rw [← total]
    rfl
  rw [total]
  refine ⟨removed, ⟨?_, ?_, fun _ => by rw [counter]; exact Nat.mod_lt _ (by norm_num),
    (disk_pageInChunk now targetQueue e records).2.2⟩⟩
  · rw [Nat.add_zero, ← memory]
    exact congrArg (· + removed) (ramCount_congr (by rfl))
  · rw [counter]
    refine ((Nat.mod_modEq _ _).add_right removed).trans ?_
    rw [Nat.add_right_comm]
    exact ram.add_right added

/-! ## Poll -/

theorem claimSection (e : QueueEngine) (env : Env) (queue : String)
    (now timeout maxMessages : Nat) :
    Counts 0 0 0 e (e.claimSection env queue now timeout maxMessages).1 := by
  unfold QueueEngine.claimSection
  dsimp only
  split
  · rename_i q _
    refine .of_lost ?_ rfl rfl
    exact ramCount_sub (shardIdx queue) _
      (ShardState.size_claim env e.draws queue q now timeout maxMessages) rfl
  · exact .refl

end Counts

/-- The shard an expired message is put back into. -/
def returnShard (msg : StoredMsg) : Fin numShards :=
  if msg.maxDelivery ≤ msg.deliveryCount then shardIdx (dlqName msg.queue) else shardIdx msg.queue

/-- No expired message is put back into a shard that holds its id. -/
def PutsBackFresh (e : QueueEngine) (s : Fin numShards) (now : Nat) : Prop :=
  ∀ msg ∈ (e.collectExpired s now).2,
    msg.id ∉ ((e.collectExpired s now).1.shards (returnShard msg)).messages

instance (e : QueueEngine) (s : Fin numShards) (now : Nat) : Decidable (PutsBackFresh e s now) :=
  inferInstanceAs (Decidable (∀ msg ∈ (e.collectExpired s now).2,
    msg.id ∉ ((e.collectExpired s now).1.shards (returnShard msg)).messages))

/-- Putting a message back stores it in one shard and touches no other message. -/
theorem routeExpired_eq (now : Nat) (e : QueueEngine) (msg : StoredMsg) :
    ∃ mid : QueueEngine, ∃ st msg', (∀ s, (mid.shards s).messages = (e.shards s).messages) ∧
      st.messages = (mid.shards (returnShard msg)).messages ∧ msg'.id = msg.id ∧
      mid.totalMessagesInRam = e.totalMessagesInRam ∧ mid.options = e.options ∧
      routeExpired now e msg = mid.setShard (returnShard msg) (ShardState.store st now msg') := by
  unfold routeExpired returnShard
  split
  · refine ⟨e.retireExpired msg,
      { (e.retireExpired msg).shards (shardIdx (dlqName msg.queue)) with
        seenIds := insert msg.id ((e.retireExpired msg).shards (shardIdx (dlqName msg.queue))).seenIds },
      { msg with queue := dlqName msg.queue, visibleAt := now }, fun s => ?_, rfl, rfl, rfl, rfl, rfl⟩
    unfold QueueEngine.retireExpired
    by_cases same : s = shardIdx msg.queue
    · subst same
      simp
    · simp [same]
  · exact ⟨e, e.shards (shardIdx msg.queue), { msg with visibleAt := now }, fun _ => rfl, rfl, rfl,
      rfl, rfl, rfl⟩

theorem mem_of_routeExpired {now : Nat} {e : QueueEngine} {msg : StoredMsg} {m : Ulid}
    {s : Fin numShards} (inside : m ∈ ((routeExpired now e msg).shards s).messages) :
    m = msg.id ∨ m ∈ (e.shards s).messages := by
  obtain ⟨mid, st, msg', messages, state, sameId, _, _, eq⟩ := routeExpired_eq now e msg
  rw [eq] at inside
  by_cases same : s = returnShard msg
  · subst same
    rw [shards_setShard, ShardState.mem_store, state, messages, sameId] at inside
    exact inside
  · rw [shards_setShard_of_ne same, messages] at inside
    exact Or.inr inside

namespace Counts

/-- A message put back is one more in memory, or overwrites one. -/
theorem routeExpired (now : Nat) (e : QueueEngine) (msg : StoredMsg) :
    ∃ lost, (QueueEngine.routeExpired now e msg).ramCount + lost = e.ramCount + 1 ∧
      (QueueEngine.routeExpired now e msg).totalMessagesInRam = e.totalMessagesInRam ∧
      (msg.id ∉ (e.shards (returnShard msg)).messages → lost = 0) := by
  obtain ⟨mid, st, msg', messages, state, sameId, total, _, eq⟩ := routeExpired_eq now e msg
  have same : mid.ramCount = e.ramCount := messageCount_congr messages
  have state' : FMap.size st.messages = FMap.size (mid.shards (returnShard msg)).messages := by
    rw [state]
  rw [eq, ← same]
  by_cases present : msg.id ∈ (e.shards (returnShard msg)).messages
  · have stored := ShardState.size_store_of_mem st msg' now
      (by rw [sameId, state, messages]; exact present)
    refine ⟨1, ?_, total, fun absent => absurd present absent⟩
    rw [ramCount_add (a := 0) (returnShard msg) _ (stored.trans state') rfl]
  · have stored := ShardState.size_store_of_notMem st msg' now
      (by rw [sameId, state, messages]; exact present)
    refine ⟨0, ?_, total, fun _ => rfl⟩
    exact ramCount_add (returnShard msg) _ (by rw [stored, state']) rfl

theorem routeExpired_foldl (now : Nat) (msgs : List StoredMsg) (e : QueueEngine) :
    ∃ lost, (msgs.foldl (QueueEngine.routeExpired now) e).ramCount + lost =
        e.ramCount + msgs.length ∧
      (msgs.foldl (QueueEngine.routeExpired now) e).totalMessagesInRam = e.totalMessagesInRam ∧
      ((msgs.map (·.id)).Nodup →
        (∀ msg ∈ msgs, msg.id ∉ (e.shards (returnShard msg)).messages) → lost = 0) := by
  induction msgs generalizing e with
  | nil => exact ⟨0, rfl, rfl, fun _ _ => rfl⟩
  | cons msg msgs ih =>
      obtain ⟨lost, memory, total, none⟩ := Counts.routeExpired now e msg
      obtain ⟨lost', memory', total', none'⟩ := ih (QueueEngine.routeExpired now e msg)
      rw [List.foldl_cons]
      refine ⟨lost + lost', ?_, total'.trans total, fun nodup fresh => ?_⟩
      · rw [List.length_cons]
        omega
      · rw [List.map_cons, List.nodup_cons] at nodup
        have here := none (fresh msg (by simp))
        have rest := none' nodup.2 fun msg' member inside => by
          rcases mem_of_routeExpired inside with same | before
          · exact nodup.1 (same ▸ List.mem_map_of_mem member)
          · exact fresh msg' (by simp [member]) before
        omega

/-- The two expiry sections of a poll together. -/
theorem route (e : QueueEngine) (s : Fin numShards) (now : Nat) :
    ∃ lost, Counts 0 0 lost e (e.routed s now) ∧
      ((e.shards s).Keyed → PutsBackFresh e s now → lost = 0) := by
  obtain ⟨lost, memory, total, none⟩ := Counts.routeExpired_foldl now (e.collectExpired s now).2
    (e.collectExpired s now).1
  have taken : (e.collectExpired s now).1.ramCount + _ = e.ramCount :=
    ramCount_sub s _ (ShardState.size_collectExpired (e.shards s) now) rfl
  refine ⟨lost, .of_lost ?_ total ?_, fun keyed fresh =>
    none (ShardState.nodup_collectExpired keyed now) fresh⟩
  · unfold routed
    have same : (e.collectExpired s now).2 = ((e.shards s).collectExpired now).2 := rfl
    rw [same] at memory ⊢
    omega
  · exact (disk_routeExpired_foldl now _ _).2.2

/-! ## Ack -/

theorem ackUnchecked {e done : QueueEngine} {queue receipt : String} {id : Ulid}
    (success : e.ackUnchecked queue id receipt = some done) :
    ∃ removed, Counts 0 removed 0 e done := by
  unfold QueueEngine.ackUnchecked at success
  split at success
  · cases success
  · rename_i st wasLive valid
    cases success
    have size := ShardState.size_ackLease valid
    cases wasLive with
    | true =>
        simp only [if_true] at size ⊢
        exact ⟨1, .of_sub (ramCount_sub (shardIdx queue) st size rfl) (by rfl) rfl⟩
    | false =>
        simp only [Bool.false_eq_true, if_false] at size ⊢
        exact ⟨0, .of_lost (ramCount_sub (shardIdx queue) st size rfl) (by rfl) rfl⟩

theorem ackBatchUnchecked (env : Env) (e : QueueEngine) (queue : String)
    (items : List (String × String)) :
    ∃ removed, Counts 0 removed 0 e (e.ackBatchUnchecked env queue items) := by
  have loop : ∀ (items : List (Ulid × String)) (acc : AckBatch),
      (items.foldl (ackBatchItem queue) acc).engine.ramCount +
          (items.foldl (ackBatchItem queue) acc).count = acc.engine.ramCount + acc.count ∧
        (items.foldl (ackBatchItem queue) acc).engine.totalMessagesInRam =
          acc.engine.totalMessagesInRam ∧
        (items.foldl (ackBatchItem queue) acc).engine.options = acc.engine.options := by
    intro items
    induction items with
    | nil => exact fun acc => ⟨rfl, rfl, rfl⟩
    | cons item items ih =>
        intro acc
        rw [List.foldl_cons]
        obtain ⟨memory, total, options⟩ := ih (ackBatchItem queue acc item)
        cases valid : (acc.engine.shards (shardIdx queue)).ackLease queue item.1 item.2 with
        | none =>
            rw [ackBatchItem_of_invalid valid] at memory total options ⊢
            exact ⟨memory, total, options⟩
        | some done =>
            obtain ⟨shards, _, _, _, count⟩ := ackBatchItem_of_valid valid
            have size := ramCount_sub (shardIdx queue) done.1 (ShardState.size_ackLease valid) shards
            have same : (ackBatchItem queue acc item).engine.totalMessagesInRam =
                acc.engine.totalMessagesInRam ∧
                (ackBatchItem queue acc item).engine.options = acc.engine.options := by
              unfold ackBatchItem
              rw [valid]
              exact ⟨rfl, rfl⟩
            refine ⟨?_, total.trans same.1, options.trans same.2⟩
            have item : (item.1, item.2) = item := rfl
            rw [item] at size count
            cases live : done.2 with
            | true => simp only [live, if_true] at size count; omega
            | false => simp only [live, Bool.false_eq_true, if_false] at size count; omega
  obtain ⟨memory, total, options⟩ := loop (parsedItems env items) ⟨e, 0, []⟩
  have memory : (ackBatchLoop env e queue items).engine.ramCount +
      (ackBatchLoop env e queue items).count = e.ramCount := memory
  have total : (ackBatchLoop env e queue items).engine.totalMessagesInRam =
      e.totalMessagesInRam := total
  have options : (ackBatchLoop env e queue items).engine.options = e.options := options
  unfold QueueEngine.ackBatchUnchecked
  dsimp only
  split
  · refine ⟨_, .of_sub ?_ (congrArg (fetchSub · _) total) options⟩
    rw [← memory]
    exact congrArg (· + _) (ramCount_congr (by rfl))
  · exact ⟨0, .of_lost (by omega) total options⟩

theorem ackFollower (env : Env) (e : QueueEngine) (queue messageId : String) :
    ∃ removed, Counts 0 removed 0 e (e.ackFollower env queue messageId).1 := by
  unfold QueueEngine.ackFollower
  split
  · exact ⟨0, .refl⟩
  · rename_i id _
    have size := ShardState.size_applyAck (e.shards (shardIdx queue)) queue id
    dsimp only
    split
    · rename_i live
      rw [if_pos (by simpa using live)] at size
      refine ⟨1, .checked ?_ env⟩
      exact .of_sub (ramCount_sub (shardIdx queue) _ size rfl) (by rfl) rfl
    · rename_i dead
      rw [if_neg (by simpa using dead)] at size
      exact ⟨0, .of_lost (ramCount_sub (shardIdx queue) _ size rfl) rfl rfl⟩

end Counts

/-! ## The counter is right -/

/-- Every message is filed under its own id, and the counter is right up to the
range of a `usize`. -/
structure Accounted (e : QueueEngine) : Prop where
  keyed : e.Every fun id msg => msg.id = id
  counter : e.totalMessagesInRam ≡ e.ramCount [MOD 2 ^ 64]
  bounded : e.totalMessagesInRam < 2 ^ 64

namespace Accounted

variable {e e' : QueueEngine} {added removed : Nat} {env : Env} {now : Nat} {queue : String}

/-- An account that loses nothing keeps the counter right. -/
theorem of_counts (h : Accounted e) (counts : Counts added removed 0 e e')
    (keyed : e'.Every fun id msg => msg.id = id) : Accounted e' where
  keyed := keyed
  counter := by
    have sum := counts.counter.trans (h.counter.add_right added)
    rw [← counts.memory, Nat.add_zero] at sum
    exact sum.add_right_cancel' removed
  bounded := counts.bounded h.bounded

theorem eq_ramCount (h : Accounted e) (fits : e.ramCount < 2 ^ 64) :
    e.totalMessagesInRam = e.ramCount :=
  h.counter.eq_of_lt_of_lt h.bounded fits

theorem checkAndTriggerCompaction (h : Accounted e) (env : Env) :
    Accounted (e.checkAndTriggerCompaction env) :=
  h.of_counts (.checkAndTriggerCompaction env e) (h.keyed.checkAndTriggerCompaction env)

theorem pushWithUlid (h : Accounted e) (env : Env) (now : Nat) (queue : String) (id : Ulid)
    (payload : List UInt8) (delaySec : Nat) :
    Accounted (e.pushWithUlid env now queue id payload delaySec).1 := by
  obtain ⟨added, counts, _⟩ := Counts.pushUnchecked e now queue id payload delaySec
  have unchecked := h.of_counts counts (h.keyed.pushUnchecked rfl)
  unfold QueueEngine.pushWithUlid
  dsimp only
  split
  · exact unchecked.checkAndTriggerCompaction env
  · exact unchecked

theorem pushBatch (h : Accounted e) (env : Env) (now : Nat) (queue : String)
    (items : List PushItem) : Accounted (e.pushBatch env now queue items).1 := by
  obtain ⟨added, counts, _⟩ := Counts.pushBatchUnchecked env e now queue items
  exact (h.of_counts counts (h.keyed.pushBatchUnchecked env fun _ _ _ _ => rfl)).checkAndTriggerCompaction
    env

theorem pageInChunk (h : Accounted e) (now : Nat) (targetQueue : String)
    (records : List WalRecord) :
    Accounted (QueueEngine.pageInChunk now targetQueue e records).engine := by
  obtain ⟨removed, counts⟩ := Counts.pageInChunk now targetQueue e records
  exact h.of_counts counts (h.keyed.pageInChunk (fun _ _ _ _ _ => rfl) targetQueue)

/-- A poll keeps the counter right as long as it overwrites no message. -/
theorem poll (h : Accounted e) (env : Env) (visibilitySec maxMessages : Nat)
    (fresh : PutsBackFresh e (shardIdx queue) now) :
    Accounted (e.poll env now queue visibilitySec maxMessages).1 := by
  obtain ⟨lost, counts, none⟩ := Counts.route e (shardIdx queue) now
  obtain rfl := none (h.keyed _) fresh
  have routed : Accounted (e.routed (shardIdx queue) now) :=
    h.of_counts counts (h.keyed.route (shardIdx queue) fun _ _ _ _ _ _ _ => rfl)
  have prefetched : Accounted (e.polling env now queue maxMessages) :=
    prefetch_chunks (fun e' offset h => h.of_counts (.congr rfl rfl rfl) (h.keyed.congr rfl))
      (fun c _ h => h.pageInChunk now queue c.2) routed
  rw [poll_eq]
  exact prefetched.of_counts (.claimSection _ env queue now _ maxMessages)
    (prefetched.keyed.claimSection (fun _ _ same => same) env queue now _ maxMessages)

theorem ack (h : Accounted e) (env : Env) (queue messageId receipt : String) :
    Accounted (e.ack env queue messageId receipt).1 := by
  unfold QueueEngine.ack
  split
  · exact h
  · rename_i done success
    obtain ⟨id, _, success⟩ := Option.bind_eq_some_iff.1 success
    obtain ⟨removed, counts⟩ := Counts.ackUnchecked success
    exact (h.of_counts counts (h.keyed.ackUnchecked success)).checkAndTriggerCompaction env

theorem ackBatch (h : Accounted e) (env : Env) (queue : String) (items : List (String × String)) :
    Accounted (e.ackBatch env queue items).1 := by
  obtain ⟨removed, counts⟩ := Counts.ackBatchUnchecked env e queue items
  exact (h.of_counts counts (h.keyed.ackBatchUnchecked env queue items)).checkAndTriggerCompaction env

theorem ackFollower (h : Accounted e) (env : Env) (queue messageId : String) :
    Accounted (e.ackFollower env queue messageId).1 := by
  obtain ⟨removed, counts⟩ := Counts.ackFollower env e queue messageId
  exact h.of_counts counts (h.keyed.ackFollower env queue messageId)

theorem clearForRaftRecovery (e : QueueEngine) : Accounted e.clearForRaftRecovery where
  keyed _ id msg found := by cases found
  counter := by
    have none : e.clearForRaftRecovery.ramCount = 0 := messageCount_new
    rw [none]
    rfl
  bounded := by
    simp [QueueEngine.clearForRaftRecovery]

end Accounted

/-! ## Opening -/

/-- No Push record of the rest is stored over a message with its id. -/
def ReplaysFresh (opts : QueueOptions) (baseEpochSec : Nat) : Replay → List WalRecord → Prop
  | _, [] => True
  | acc, r :: rs =>
      (r.isPush = true → acc.totalInRam < opts.maxHotMessagesInRam →
        r.msgId ∉ (acc.shards (shardIdx r.queueName)).messages) ∧
      ReplaysFresh opts baseEpochSec (replayRecord opts baseEpochSec acc r) rs

instance ReplaysFresh.decidable (opts : QueueOptions) (baseEpochSec : Nat) :
    (acc : Replay) → (rs : List WalRecord) → Decidable (ReplaysFresh opts baseEpochSec acc rs)
  | _, [] => isTrue trivial
  | acc, r :: rs => @instDecidableAnd _ _ inferInstance
      (ReplaysFresh.decidable opts baseEpochSec (replayRecord opts baseEpochSec acc r) rs)

/-- The counter of the replay loop, as long as nothing is overwritten. -/
theorem messageCount_replay {opts : QueueOptions} {baseEpochSec : Nat} (records : List WalRecord)
    (acc : Replay) (fresh : ReplaysFresh opts baseEpochSec acc records)
    (counted : acc.totalInRam = messageCount acc.shards)
    (room : acc.totalInRam ≤ opts.maxHotMessagesInRam) :
    let done := records.foldl (replayRecord opts baseEpochSec) acc
    done.totalInRam = messageCount done.shards ∧ done.totalInRam ≤ opts.maxHotMessagesInRam := by
  induction records generalizing acc with
  | nil => exact ⟨counted, room⟩
  | cons r records ih =>
      rw [List.foldl_cons]
      have step : (replayRecord opts baseEpochSec acc r).totalInRam =
          messageCount (replayRecord opts baseEpochSec acc r).shards ∧
          (replayRecord opts baseEpochSec acc r).totalInRam ≤ opts.maxHotMessagesInRam := by
        have here := fresh.1
        unfold replayRecord
        cases r with
        | ack msgId queueName =>
            have size := ShardState.size_applyAck (acc.shards (shardIdx queueName)) queueName msgId
            have total := messageCount_update acc.shards (shardIdx queueName)
              ((acc.shards (shardIdx queueName)).applyAck queueName msgId)
            dsimp only
            split
            · rename_i live
              rw [if_pos live] at size
              exact ⟨by omega, by omega⟩
            · rename_i dead
              rw [if_neg dead] at size
              exact ⟨by omega, room⟩
        | push msgId queueName visibleAt payload =>
            dsimp only
            split
            · rename_i below
              have size := ShardState.size_see_store (acc.shards (shardIdx queueName))
                ⟨msgId, queueName, payload, visibleAt, 0, opts.maxDeliveryCount⟩ baseEpochSec (here rfl below)
              have total := messageCount_update acc.shards (shardIdx queueName)
                (ShardState.store { acc.shards (shardIdx queueName) with
                  seenIds := insert msgId (acc.shards (shardIdx queueName)).seenIds } baseEpochSec
                  ⟨msgId, queueName, payload, visibleAt, 0, opts.maxDeliveryCount⟩)
              dsimp only at size total ⊢
              exact ⟨by omega, below⟩
            · have total := messageCount_update acc.shards (shardIdx queueName)
                { acc.shards (shardIdx queueName) with
                  seenIds := insert msgId (acc.shards (shardIdx queueName)).seenIds }
              dsimp only at total ⊢
              exact ⟨by omega, room⟩
      exact ih _ fresh.2 step.1 step.2

/-- An engine opened on a directory whose replay overwrites nothing. -/
theorem Accounted.openDir {env : Env} {dir : DataDir} {opts : QueueOptions}
    {baseEpochSec draws : Nat}
    (fresh : ReplaysFresh opts baseEpochSec ⟨fun _ => .new, 0⟩
      (DiskLog.openDir env dir opts.maxWalSegmentSize).2) :
    Accounted (QueueEngine.openDir env dir opts baseEpochSec draws) := by
  obtain ⟨counted, room⟩ := messageCount_replay _ _ fresh messageCount_new.symm (Nat.zero_le _)
  refine ⟨fun s => Every.replay (fun _ _ _ _ _ _ => rfl) opts baseEpochSec s, ?_, ?_⟩
  · exact congrArg (· % 2 ^ 64) counted
  · exact lt_of_le_of_lt room opts.ramCap_lt

/-! ## Runs with recovery -/

/-- No operation changes the options. -/
theorem World.options_step (env : Env) (w : World) (op : Op) :
    (w.step env op).engine.options = w.engine.options := by
  cases op with
  | push queue id payload delaySec =>
      obtain ⟨added, counts, _⟩ := Counts.pushUnchecked w.engine w.clock queue id payload delaySec
      simp only [World.step, World.exec, QueueEngine.pushWithUlid]
      split
      · exact (counts.checked env).options
      · exact counts.options
  | pushBatch queue items =>
      obtain ⟨added, counts, _⟩ := Counts.pushBatchUnchecked env w.engine w.clock queue items
      exact (counts.checked env).options
  | poll queue visibilitySec maxMessages =>
      obtain ⟨lost, routed, _⟩ := Counts.route w.engine (shardIdx queue) w.clock
      simp only [World.step, World.exec, poll_eq]
      rw [(Counts.claimSection _ env queue w.clock _ maxMessages).options]
      exact (disk_prefetch ..).2.trans routed.options
  | ack queue messageId receipt =>
      simp only [World.step, World.exec, QueueEngine.ack]
      split
      · rfl
      · rename_i done success
        obtain ⟨id, _, success⟩ := Option.bind_eq_some_iff.1 success
        obtain ⟨removed, counts⟩ := Counts.ackUnchecked success
        exact (counts.checked env).options
  | ackBatch queue items =>
      obtain ⟨removed, counts⟩ := Counts.ackBatchUnchecked env w.engine queue items
      exact (counts.checked env).options
  | advance seconds => rfl

theorem World.options_run (env : Env) (w : World) (ops : List Op) :
    (w.run env ops).engine.options = w.engine.options := by
  induction ops generalizing w with
  | nil => rfl
  | cons op ops ih => exact (ih _).trans (w.options_step env op)

/-- The operations of a run that may also apply a follower's acks, clear the engine
for recovery and open the directory again. -/
inductive NodeOp where
  | engine (op : Op)
  | ackFollower (queue messageId : String)
  | clearForRaftRecovery
  | reopen
  deriving DecidableEq

/-- One operation of such a run. -/
def World.nodeStep (env : Env) (w : World) : NodeOp → World
  | .engine op => w.step env op
  | .ackFollower queue messageId => ⟨(w.engine.ackFollower env queue messageId).1, w.clock⟩
  | .clearForRaftRecovery => ⟨w.engine.clearForRaftRecovery, w.clock⟩
  | .reopen =>
      ⟨QueueEngine.openDir env w.engine.disk.dir w.engine.options w.clock w.engine.draws, w.clock⟩

/-- The operation stores no message over another one with its id: no lease that
expires is put back into a shard that holds the id, and opening meets no Push of
an id that is in memory. -/
def StoresFresh (env : Env) (w : World) : NodeOp → Prop
  | .engine (.poll queue _ _) => PutsBackFresh w.engine (shardIdx queue) w.clock
  | .reopen => ReplaysFresh w.engine.options w.clock ⟨fun _ => .new, 0⟩
      (DiskLog.openDir env w.engine.disk.dir w.engine.options.maxWalSegmentSize).2
  | _ => True

instance (env : Env) (w : World) : (op : NodeOp) → Decidable (StoresFresh env w op)
  | .engine (.poll queue _ _) =>
      inferInstanceAs (Decidable (PutsBackFresh w.engine (shardIdx queue) w.clock))
  | .reopen => inferInstanceAs (Decidable (ReplaysFresh w.engine.options w.clock ⟨fun _ => .new, 0⟩
      (DiskLog.openDir env w.engine.disk.dir w.engine.options.maxWalSegmentSize).2))
  | .engine (.push ..) | .engine (.pushBatch ..) | .engine (.ack ..) | .engine (.ackBatch ..)
  | .engine (.advance ..) | .ackFollower .. | .clearForRaftRecovery => isTrue trivial

theorem Accounted.nodeStep {env : Env} {w : World} {op : NodeOp} (h : Accounted w.engine)
    (fresh : StoresFresh env w op) : Accounted (w.nodeStep env op).engine := by
  cases op with
  | engine op =>
      cases op with
      | push queue id payload delaySec => exact h.pushWithUlid env w.clock queue id payload delaySec
      | pushBatch queue items => exact h.pushBatch env w.clock queue items
      | poll queue visibilitySec maxMessages => exact h.poll env visibilitySec maxMessages fresh
      | ack queue messageId receipt => exact h.ack env queue messageId receipt
      | ackBatch queue items => exact h.ackBatch env queue items
      | advance seconds => exact h
  | ackFollower queue messageId => exact h.ackFollower env queue messageId
  | clearForRaftRecovery => exact Accounted.clearForRaftRecovery w.engine
  | reopen => exact Accounted.openDir fresh

theorem Accounted.fresh (env : Env) (opts : QueueOptions) (clock : Nat) :
    Accounted (World.fresh env opts clock).engine := by
  refine Accounted.openDir ?_
  simp [DataDir.empty, DiskLog.openDir, readWalFile, takeRecords, ReplaysFresh]

/-- In every run whose operations store no message over another one with its id,
the counter is the number of messages in memory. -/
theorem World.run_ramAccounted {env : Env} {opts : QueueOptions} {clock : Nat} {ops : List NodeOp}
    (fresh : Trace.Along (World.nodeStep env) (StoresFresh env) (World.fresh env opts clock) ops)
    (fits : (ops.foldl (World.nodeStep env) (World.fresh env opts clock)).engine.ramCount < 2 ^ 64) :
    (ops.foldl (World.nodeStep env) (World.fresh env opts clock)).engine.totalMessagesInRam =
      (ops.foldl (World.nodeStep env) (World.fresh env opts clock)).engine.ramCount := by
  exact (fresh.invariant (I := fun w => Accounted w.engine) (.fresh env opts clock)
    fun w op h stores => h.nodeStep stores).eq_ramCount fits

/-- A repeated push that is ignored leaves a second Push record, and opening the
directory counts both. -/
theorem World.reopen_counts_twice :
    let w := [NodeOp.engine (.push "a" 1 [1] 0), .engine (.push "a" 1 [1] 0), .reopen].foldl
      (World.nodeStep .sample) (World.fresh .sample .default 1600000000)
    w.engine.totalMessagesInRam = 2 ∧ w.engine.ramCount = 1 := by
  decide +kernel

/-- A run that pushes, polls, acks, lets a lease expire, applies an ack of a
follower, and is opened again. -/
def accountedOps : List NodeOp :=
  [.engine (.push "jobs" 1 [7] 0), .engine (.push "jobs" 2 [8] 0),
    .engine (.pushBatch "mail" [⟨some 3, [9], 0⟩, ⟨some 3, [9], 0⟩, ⟨none, [], 400⟩]),
    .engine (.poll "jobs" 30 1), .engine (.advance 31), .engine (.poll "jobs" 30 2),
    .engine (.ack "jobs" (ulidText 1) (ulidText (BitVec.ofNat 128 (2 ^ 64 + 5)))),
    .ackFollower "mail" (ulidText 3), .reopen, .engine (.poll "mail" 30 5)]

theorem World.run_ramAccounted_sample :
    let w := accountedOps.foldl (World.nodeStep .sample) (World.fresh .sample .default 1600000000)
    Trace.Along (World.nodeStep .sample) (StoresFresh .sample)
        (World.fresh .sample .default 1600000000) accountedOps ∧
      w.engine.totalMessagesInRam = w.engine.ramCount :=
  have fresh : Trace.Along (World.nodeStep .sample) (StoresFresh .sample)
      (World.fresh .sample .default 1600000000) accountedOps := by decide +kernel
  ⟨fresh, World.run_ramAccounted fresh (by decide +kernel)⟩

end WalrQueue
