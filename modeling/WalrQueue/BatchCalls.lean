import WalrQueue.Lib.Simulation
import WalrQueue.Replica
import WalrQueue.RamAccounting

/-!
# Batches and single calls

`push_batch` keeps a copy of the RAM count while it goes through its items and
adds to the counter once at the end; `ack_batch` writes the record of an item
before it removes the message and subtracts from the counter once at the end.
Neither shows: a batch leaves memory, and an ack batch also the log, as the same
items given one at a time do.
-/

namespace WalrQueue

open QueueEngine Simulation

/-! ## Push -/

/-- An item of `push_batch` with an explicit id, as id, payload and delay. -/
def PushItem.withId (item : Ulid × List UInt8 × Nat) : PushItem :=
  ⟨some item.1, item.2.1, item.2.2⟩

/-- One `push_with_ulid` for each item. -/
def Op.pushEach (queue : String) (items : List (Ulid × List UInt8 × Nat)) : List Op :=
  items.map fun item => .push queue item.1 item.2.1 item.2.2

/-- The loop of a batch stands where the single pushes stand: the same shards, and
a running count that is the counter of the one and the counter to come of the
other. -/
structure SamePushes (acc : PushBatch) (e : QueueEngine) : Prop where
  shards : acc.engine.shards = e.shards
  options : acc.engine.options = e.options
  running : acc.curRam = e.totalMessagesInRam
  counted : acc.engine.totalMessagesInRam + acc.addedCount = acc.curRam
  fits : acc.curRam < 2 ^ 64

namespace SamePushes

variable {acc : PushBatch} {e : QueueEngine}

theorem push (h : SamePushes acc e) (env : Env) (now : Nat) (queue : String)
    (item : Ulid × List UInt8 × Nat) :
    SamePushes (pushBatchItem env now queue acc (.withId item))
      (e.pushWithUlid env now queue item.1 item.2.1 item.2.2).1 := by
  have enters : e.Enters now queue item.1 item.2.2 ↔
      addU64 now item.2.2 ≤ addU64 now hotDelayHorizonSec ∧
        acc.curRam < acc.engine.options.maxHotMessagesInRam ∧
        item.1 ∉ (acc.engine.shards (shardIdx queue)).messages := by
    rw [Enters, h.running, h.options, h.shards]
  have room := acc.engine.options.ramCap_lt
  unfold pushBatchItem pushBatchNew PushItem.withId drawId
  dsimp only
  obtain ⟨options, ⟨seen, shards, ram⟩ | ⟨unseen, outside, shards, ram⟩ |
    ⟨unseen, inside, shards, ram⟩⟩ := pushWithUlid_cases env e now queue item.1 item.2.1 item.2.2
  · rw [if_pos (by rw [h.shards]; exact seen)]
    exact ⟨h.shards.trans shards.symm, h.options.trans options.symm, h.running.trans ram.symm,
      h.counted, h.fits⟩
  · rw [if_neg (by rw [h.shards]; exact unseen), if_neg (mt enters.2 outside)]
    refine ⟨?_, h.options.trans options.symm, h.running.trans ram.symm, h.counted, h.fits⟩
    rw [shards, setShard, setShard, h.shards]
  · rw [if_neg (by rw [h.shards]; exact unseen), if_pos (enters.1 inside)]
    have below := (enters.1 inside).2.1
    refine ⟨?_, h.options.trans options.symm, ?_, ?_, ?_⟩
    · rw [shards, setShard, setShard, newMsg, newMsg]
      dsimp only
      rw [h.shards, h.options]
    · rw [ram, fetchAdd, ← h.running, Nat.mod_eq_of_lt (by omega)]
    · dsimp only [setShard]
      rw [← h.counted]
      omega
    · dsimp only
      omega

theorem pushes (h : SamePushes acc e) (env : Env) (now : Nat) (queue : String)
    (items : List (Ulid × List UInt8 × Nat)) :
    SamePushes ((items.map .withId).foldl (pushBatchItem env now queue) acc)
      (World.run env ⟨e, now⟩ (Op.pushEach queue items)).engine := by
  induction items generalizing acc e with
  | nil => exact h
  | cons item items ih => exact ih (h.push env now queue item)

end SamePushes

theorem ids_pushBatchLoop_withId (env : Env) (now : Nat) (queue : String)
    (items : List (Ulid × List UInt8 × Nat)) (acc : PushBatch) :
    ((items.map .withId).foldl (pushBatchItem env now queue) acc).ids =
      acc.ids ++ items.map (·.1) := by
  induction items generalizing acc with
  | nil => simp
  | cons item items ih =>
      rw [List.map_cons, List.foldl_cons, ih, ids_pushBatchItem]
      simp [PushItem.withId, drawId]

theorem answers_pushEach (env : Env) (w : World) (queue : String)
    (items : List (Ulid × List UInt8 × Nat)) :
    answers (World.exec env) w (Op.pushEach queue items) =
      (items.map fun item => env.ulidToString item.1).map .pushed := by
  induction items generalizing w with
  | nil => rfl
  | cons item items ih => exact congrArg _ (ih _)

/-- `push_batch` leaves every shard and the RAM counter as `push_with_ulid` on its
items in order does, and returns the same ids. -/
theorem World.pushBatch_eq_pushes (env : Env) (w : World) (queue : String)
    (items : List (Ulid × List UInt8 × Nat)) (fits : w.engine.totalMessagesInRam < 2 ^ 64) :
    let batch := w.exec env (.pushBatch queue (items.map .withId))
    let single := w.run env (Op.pushEach queue items)
    batch.1.engine.shards = single.engine.shards ∧
      batch.1.engine.totalMessagesInRam = single.engine.totalMessagesInRam ∧
      ∃ messageIds, batch.2 = .pushedBatch messageIds ∧
        answers (World.exec env) w (Op.pushEach queue items) = messageIds.map .pushed := by
  intro batch single
  have start : SamePushes ⟨w.engine, [], 0, w.engine.totalMessagesInRam⟩ w.engine :=
    ⟨rfl, rfl, rfl, rfl, fits⟩
  have same := start.pushes env w.clock queue items
  refine ⟨?_, ?_, items.map fun item => env.ulidToString item.1, ?_,
    answers_pushEach env w queue items⟩
  · exact (shards_checkAndTriggerCompaction env _).trans same.shards
  · refine (ram_checkAndTriggerCompaction env _).trans ?_
    refine Eq.trans ?_ same.running
    rw [pushBatchUnchecked, pushBatchLoop]
    dsimp only
    rw [fetchAdd, same.counted, Nat.mod_eq_of_lt same.fits]
  · show Reply.pushedBatch _ = _
    rw [pushBatch, pushBatchLoop, ids_pushBatchLoop_withId]
    simp

/-- A RAM cap of one crossed inside the batch, a repeated id, and a message beyond the
horizon. -/
theorem World.pushBatch_eq_pushes_sample :
    let w := World.fresh .sample ⟨300, 3, 1, 67108864, by norm_num⟩ 1600000000
    let items : List (Ulid × List UInt8 × Nat) :=
      [(1, [1], 0), (1, [9], 0), (2, [2], 0), (3, [], 400)]
    w.engine.totalMessagesInRam < 2 ^ 64 ∧
      (w.exec .sample (.pushBatch "a" (items.map .withId))).1.engine.shards =
        (w.run .sample (Op.pushEach "a" items)).engine.shards :=
  ⟨by decide, (World.pushBatch_eq_pushes .sample _ "a" _ (by decide)).1⟩

/-! ## Ack -/

/-- One `ack` for each item. -/
def Op.ackEach (queue : String) (items : List (String × String)) : List Op :=
  items.map fun item => .ack queue item.1 item.2

/-- Every leased id is in the `messages` of its shard. -/
def QueueEngine.LeasesHeld (e : QueueEngine) : Prop :=
  ∀ s, ∀ id ∈ (e.shards s).wheel.indexById, id ∈ (e.shards s).messages

instance (e : QueueEngine) : Decidable e.LeasesHeld :=
  decidable_of_iff
    (∀ s, (e.shards s).wheel.indexById.keys.all fun id => decide (id ∈ (e.shards s).messages))
    (by simp only [List.all_eq_true, decide_eq_true_eq]; exact .rfl)

/-- An operation that does not compact. -/
def World.Quiet (env : Env) (w : World) (op : Op) : Prop :=
  ∀ mid ∈ w.checkpoint env op, mid.compacts = false

instance (env : Env) (w : World) (op : Op) : Decidable (w.Quiet env op) :=
  decidable_of_iff ((w.checkpoint env op).all fun mid => !mid.compacts)
    (by simp [World.Quiet, Option.all_eq_true])

/-- The loop of a batch stands where the single acks stand, the counter of the
batch still to be reduced by its count. -/
structure SameAcks (acc : AckBatch) (e : QueueEngine) : Prop where
  shards : e.shards = acc.engine.shards
  disk : e.disk = acc.engine.disk
  options : e.options = acc.engine.options
  cursor : e.spillReadOffset = acc.engine.spillReadOffset
  draws : e.draws = acc.engine.draws
  ram : e.totalMessagesInRam = if 0 < acc.count then
    fetchSub acc.engine.totalMessagesInRam acc.count else acc.engine.totalMessagesInRam

theorem fetchSub_fetchSub (a b : Nat) : fetchSub (fetchSub a b) 1 = fetchSub a (b + 1) := by
  unfold fetchSub
  omega

theorem ackLease_indexById {st : ShardState} {queue receipt : String} {id : Ulid}
    {done : ShardState × Bool} (valid : st.ackLease queue id receipt = some done) :
    id ∈ st.wheel.indexById ∧ done.1.wheel.indexById = AList.erase id st.wheel.indexById := by
  have removed : (st.wheel.removeIfValid id receipt).2 = true → id ∈ st.wheel.indexById ∧
      (st.wheel.removeIfValid id receipt).1.indexById = AList.erase id st.wheel.indexById := by
    unfold TimerWheel.removeIfValid
    cases found : AList.lookup id st.wheel.indexById with
    | none => exact fun bad => by cases bad
    | some lease =>
        dsimp only
        split
        · exact fun _ => ⟨FMap.mem_of_lookup found, rfl⟩
        · exact fun bad => by cases bad
  unfold ShardState.ackLease at valid
  dsimp only at valid
  split at valid
  · rename_i accepted
    obtain ⟨inside, index⟩ := removed accepted
    refine ⟨inside, ?_⟩
    split at valid
    · cases valid
      rw [ShardState.wheel_markDeleted]
      exact index
    · cases valid
      exact index
  · cases valid

/-- An accepted ack finds the message in memory, and takes lease and message out. -/
theorem QueueEngine.LeasesHeld.ackLease {e : QueueEngine} (held : e.LeasesHeld)
    {queue receipt : String} {id : Ulid} {done : ShardState × Bool}
    (valid : (e.shards (shardIdx queue)).ackLease queue id receipt = some done) :
    done.2 = true ∧ (e.setShard (shardIdx queue) done.1).LeasesHeld := by
  obtain ⟨leased, index⟩ := ackLease_indexById valid
  refine ⟨?_, fun s id' inside => ?_⟩
  · rw [ShardState.ackLease_wasLive valid]
    exact decide_eq_true (held _ id leased)
  · by_cases same : s = shardIdx queue
    · subst same
      rw [shards_setShard] at inside ⊢
      rw [index, AList.mem_erase] at inside
      rw [(ShardState.ackLease_messages valid).1, AList.mem_erase]
      exact ⟨inside.1, held _ id' inside.2⟩
    · rw [shards_setShard_of_ne same] at inside ⊢
      exact held s id' inside

theorem QueueEngine.checkAndTriggerCompaction_of_quiet {e : QueueEngine} (env : Env)
    (quiet : e.compacts = false) : e.checkAndTriggerCompaction env = e := by
  simp [checkAndTriggerCompaction, quiet]

namespace SameAcks

variable {env : Env} {acc : AckBatch} {e : QueueEngine} {queue : String} {clock : Nat}

/-- One item with a valid receipt. -/
theorem accept (h : SameAcks acc e) (held : e.LeasesHeld) {id : Ulid} {receipt : String}
    {e' : QueueEngine} (accepted : e.ackUnchecked queue id receipt = some e') :
    SameAcks (ackBatchItem queue acc (id, receipt)) e' ∧ e'.LeasesHeld ∧
      (ackBatchItem queue acc (id, receipt)).count = acc.count + 1 := by
  unfold ackUnchecked at accepted
  split at accepted
  · cases accepted
  · rename_i st wasLive valid
    obtain ⟨live, rest⟩ := held.ackLease valid
    dsimp only at live
    subst live
    cases accepted
    rw [h.shards] at valid
    have item : ackBatchItem queue acc (id, receipt) =
        ⟨{ acc.engine with disk := acc.engine.disk.append (.ack id queue) }.setShard
          (shardIdx queue) st, acc.count + 1, acc.accepted ++ [(id, receipt)]⟩ := by
      simp only [ackBatchItem, valid, if_true]
    rw [item]
    refine ⟨⟨?_, ?_, h.options, h.cursor, h.draws, ?_⟩, rest, rfl⟩
    · simp only [setShard, h.shards]
    · simp only [setShard, h.disk]
    · simp only [setShard, if_true, h.ram, Nat.zero_lt_succ]
      split
      · exact fetchSub_fetchSub _ _
      · rename_i none
        rw [Nat.eq_zero_of_not_pos none]

/-- One item with another receipt. -/
theorem refuse (h : SameAcks acc e) {id : Ulid} {receipt : String}
    (refused : e.ackUnchecked queue id receipt = none) :
    ackBatchItem queue acc (id, receipt) = acc := by
  unfold ackUnchecked at refused
  split at refused
  · rename_i invalid
    rw [h.shards] at invalid
    exact ackBatchItem_of_invalid invalid
  · cases refused

theorem acks {items : List (String × String)} (h : SameAcks acc e) (held : e.LeasesHeld)
    (quiet : Trace.Along (World.step env) (World.Quiet env) ⟨e, clock⟩ (Op.ackEach queue items)) :
    SameAcks ((parsedItems env items).foldl (ackBatchItem queue) acc)
        (World.run env ⟨e, clock⟩ (Op.ackEach queue items)).engine ∧
      ((parsedItems env items).foldl (ackBatchItem queue) acc).count = acc.count +
        (answers (World.exec env) ⟨e, clock⟩ (Op.ackEach queue items)).count (.acked true) := by
  induction items generalizing acc e with
  | nil => exact ⟨h, rfl⟩
  | cons item items ih =>
      obtain ⟨first, rest⟩ := quiet
      have step : World.exec env ⟨e, clock⟩ (.ack queue item.1 item.2) =
          (⟨(e.ack env queue item.1 item.2).1, clock⟩,
            .acked (e.ack env queue item.1 item.2).2) := rfl
      have parsed : parsedItems env (item :: items) =
          ((parseIdFast env item.1).map fun id => (id, item.2)).toList ++
            parsedItems env items := by
        cases parse : parseIdFast env item.1 <;> simp [parsedItems, parse]
      have head : Op.ackEach queue (item :: items) =
          .ack queue item.1 item.2 :: Op.ackEach queue items := rfl
      rw [head, answers, step, parsed, List.foldl_append]
      rw [World.step, step] at rest
      cases single : (parseIdFast env item.1).bind (e.ackUnchecked queue · item.2) with
      | none =>
          have ack : e.ack env queue item.1 item.2 = (e, false) := by simp [QueueEngine.ack, single]
          have skipped : ((parseIdFast env item.1).map fun id => (id, item.2)).toList.foldl
              (ackBatchItem queue) acc = acc := by
            cases parse : parseIdFast env item.1 with
            | none => rfl
            | some id => exact h.refuse (by simpa [parse] using single)
          rw [ack] at rest ⊢
          rw [skipped, World.run, List.foldl_cons, World.step, step, ack]
          simpa [World.run] using ih h held rest
      | some e' =>
          obtain ⟨id, parse, accepted⟩ := Option.bind_eq_some_iff.1 single
          have still : e'.compacts = false := first e' single
          have ack : e.ack env queue item.1 item.2 = (e', true) := by
            simp [QueueEngine.ack, single, checkAndTriggerCompaction_of_quiet env still]
          obtain ⟨same, held', count⟩ := h.accept held accepted
          rw [ack] at rest ⊢
          obtain ⟨same', count'⟩ := ih same held' rest
          rw [parse, World.run, List.foldl_cons, World.step, step, ack]
          refine ⟨same', ?_⟩
          refine count'.trans ?_
          rw [count, List.count_cons_self]
          dsimp only
          omega

end SameAcks

/-- `ack_batch` leaves the engine, log and counter included, as `ack` on its items in
order does, and returns how many of those calls return true. -/
theorem World.ackBatch_eq_acks (env : Env) (w : World) (queue : String)
    (items : List (String × String)) (held : w.engine.LeasesHeld)
    (quietBatch : w.Quiet env (.ackBatch queue items))
    (quiet : Trace.Along (World.step env) (World.Quiet env) w (Op.ackEach queue items)) :
    let batch := w.exec env (.ackBatch queue items)
    let single := w.run env (Op.ackEach queue items)
    batch.2 = .ackedBatch ((answers (World.exec env) w (Op.ackEach queue items)).count
        (.acked true)) ∧
      batch.1.engine.shards = single.engine.shards ∧
      batch.1.engine.totalMessagesInRam = single.engine.totalMessagesInRam ∧
      batch.1.engine.disk = single.engine.disk := by
  intro batch single
  have start : SameAcks ⟨w.engine, 0, []⟩ w.engine := ⟨rfl, rfl, rfl, rfl, rfl, rfl⟩
  obtain ⟨same, count⟩ := start.acks held quiet
  have still : (w.engine.ackBatchUnchecked env queue items).compacts = false := quietBatch _ rfl
  have engine : batch.1.engine = w.engine.ackBatchUnchecked env queue items :=
    checkAndTriggerCompaction_of_quiet env still
  obtain ⟨disk, _, shards⟩ := disk_ackBatchUnchecked env w.engine queue items
  refine ⟨?_, ?_, ?_, ?_⟩
  · exact congrArg Reply.ackedBatch (count.trans (Nat.zero_add _))
  · rw [engine, shards]
    exact same.shards.symm
  · rw [engine]
    refine Eq.trans ?_ same.ram.symm
    unfold ackBatchUnchecked ackBatchLoop
    dsimp only
    split <;> rfl
  · rw [engine, disk]
    exact same.disk.symm

/-- Two messages leased to one consumer. -/
def leasedPair : World :=
  (World.fresh .sample .default 1600000000).run .sample
    [.push "a" 1 [1] 0, .push "a" 2 [2] 0, .poll "a" 30 2]

/-- An accepted item, the same again, an id that does not parse, a forged receipt and
another accepted item. -/
def mixedAcks : List (String × String) :=
  [(ulidText 1, ulidText (.ofNat 128 (2 ^ 64 + 1))),
    (ulidText 1, ulidText (.ofNat 128 (2 ^ 64 + 1))), ("x", "y"), (ulidText 2, "y"),
    (ulidText 2, ulidText (.ofNat 128 (2 ^ 64 + 2)))]

theorem World.ackBatch_eq_acks_sample :
    (leasedPair.exec .sample (.ackBatch "a" mixedAcks)).2 = .ackedBatch 2 ∧
      (leasedPair.exec .sample (.ackBatch "a" mixedAcks)).1.engine.disk =
        (leasedPair.run .sample (Op.ackEach "a" mixedAcks)).engine.disk :=
  ⟨by decide +kernel, (World.ackBatch_eq_acks .sample leasedPair "a" mixedAcks (by decide +kernel)
    (by decide +kernel) (by decide +kernel)).2.2.2⟩

end WalrQueue
