import WalrQueue.Failover
import WalrQueue.RaftLog

/-!
# A batch of acks on the leader and on a follower

The leader releases the items whose receipt is that of the current lease and then logs
every item of the batch; a follower removes every id it can read, a message that is only on
disk included.  The two agree on which messages are gone exactly when the batch releases no live
message, or when it has something to log and every live id it names comes with its receipt.
-/

namespace WalrQueue

/-! ## The leader -/

namespace ShardState

/-- The receipt of the lease the wheel has for an id. -/
def receiptOf (st : ShardState) (id : Ulid) : Option String :=
  (AList.lookup id st.wheel.indexById).map Prod.snd

/-- The items hold the receipt of the id. -/
def Releases (st : ShardState) (items : List (Ulid × String)) (m : Ulid) : Prop :=
  ∃ receipt, (m, receipt) ∈ items ∧ st.receiptOf m = some receipt

theorem indexById_removeIfValid (w : TimerWheel) (id : Ulid) (receipt : String) :
    (((AList.lookup id w.indexById).map Prod.snd ≠ some receipt ∧
        (w.removeIfValid id receipt).2 = false) ∨
      ((AList.lookup id w.indexById).map Prod.snd = some receipt ∧
        (w.removeIfValid id receipt).2 = true ∧
        (w.removeIfValid id receipt).1.indexById = AList.erase id w.indexById)) := by
  unfold TimerWheel.removeIfValid
  rcases AList.lookup id w.indexById with _ | ⟨slot, valid⟩
  · exact Or.inl ⟨by simp, rfl⟩
  · dsimp only
    by_cases same : valid = receipt
    · rw [if_pos same]
      exact Or.inr ⟨by simp [same], rfl, rfl⟩
    · rw [if_neg same]
      exact Or.inl ⟨by simp [same], rfl⟩

/-- An ack releases the lease of its id when it has the receipt, and no other. -/
theorem ackLease_cases (st : ShardState) (queue : String) (id : Ulid) (receipt : String) :
    (st.receiptOf id ≠ some receipt ∧ st.ackLease queue id receipt = none) ∨
    (st.receiptOf id = some receipt ∧ ∃ st',
      st.ackLease queue id receipt = some (st', decide (id ∈ st.messages)) ∧
      st'.messages = AList.erase id st.messages ∧ st'.seenIds = st.seenIds ∧
      st'.ackedIds = insert id st.ackedIds ∧
      ∀ m, m ≠ id → st'.receiptOf m = st.receiptOf m) := by
  rcases indexById_removeIfValid st.wheel id receipt with ⟨stale, invalid⟩ | ⟨held, valid, index⟩
  · refine Or.inl ⟨stale, ?_⟩
    unfold ackLease
    dsimp only
    rw [invalid]
    rfl
  · refine Or.inr ⟨held, ?_⟩
    have others : ∀ m, m ≠ id →
        ((AList.lookup m (st.wheel.removeIfValid id receipt).1.indexById).map Prod.snd) =
          st.receiptOf m := by
      intro m other
      rw [index, AList.lookup_erase_ne other]
      rfl
    unfold ackLease
    dsimp only
    rw [if_pos valid]
    by_cases live : id ∈ st.messages
    · rw [if_pos live, decide_eq_true live]
      refine ⟨_, rfl, by simp, by simp, by simp, fun m other => ?_⟩
      rw [receiptOf, wheel_markDeleted]
      exact others m other
    · rw [if_neg live, decide_eq_false live]
      exact ⟨_, rfl, (FMap.erase_of_lookup_none (AList.lookup_eq_none.2 live)).symm, rfl, rfl,
        others⟩

end ShardState

namespace QueueEngine

open ShardState

theorem releases_cons_of_stale {st : ShardState} {id m : Ulid} {receipt : String}
    {items : List (Ulid × String)} (stale : st.receiptOf id ≠ some receipt) :
    st.Releases ((id, receipt) :: items) m ↔ st.Releases items m := by
  constructor
  · rintro ⟨r, inside, held⟩
    rcases List.mem_cons.1 inside with same | later
    · cases same
      exact absurd held stale
    · exact ⟨r, later, held⟩
  · rintro ⟨r, later, held⟩
    exact ⟨r, .tail _ later, held⟩

theorem releases_cons_of_ne {st st' : ShardState} {id m : Ulid} {receipt : String}
    {items : List (Ulid × String)} (other : m ≠ id) (same : st'.receiptOf m = st.receiptOf m) :
    st.Releases ((id, receipt) :: items) m ↔ st'.Releases items m := by
  unfold Releases
  simp [other, same]

/-- A shard that erased and acked one id has the other live messages and not this one. -/
theorem live_of_acked {e e' : QueueEngine} {s : Fin numShards} {id : Ulid}
    (messages : (e'.shards s).messages = AList.erase id (e.shards s).messages)
    (seen : (e'.shards s).seenIds = (e.shards s).seenIds)
    (acked : (e'.shards s).ackedIds = insert id (e.shards s).ackedIds) (m : Ulid) :
    e'.Live s m ↔ m ≠ id ∧ e.Live s m := by
  unfold Live
  rw [messages, seen, acked, AList.mem_erase, Finset.mem_insert]
  tauto

theorem live_of_shards {e e' : QueueEngine} {s : Fin numShards} (same : e'.shards s = e.shards s)
    (m : Ulid) : e'.Live s m ↔ e.Live s m := by
  unfold Live
  rw [same]

/-- What the loop of `ack_batch` removes, and whether it counts anything. -/
theorem ackBatch_foldl (queue : String) (items : List (Ulid × String)) (acc : AckBatch) :
    let st := acc.engine.shards (shardIdx queue)
    let done := items.foldl (ackBatchItem queue) acc
    (∀ s, s ≠ shardIdx queue → done.engine.shards s = acc.engine.shards s) ∧
    (∀ m, done.engine.Live (shardIdx queue) m ↔
      acc.engine.Live (shardIdx queue) m ∧ ¬ st.Releases items m) ∧
    acc.count ≤ done.count ∧
    (acc.count < done.count ↔ ∃ m ∈ st.messages, st.Releases items m) := by
  induction items generalizing acc with
  | nil => simp [Releases]
  | cons item items ih =>
      obtain ⟨id, receipt⟩ := item
      intro st done
      rcases ackLease_cases st queue id receipt with ⟨stale, invalid⟩ |
        ⟨held, st', valid, messages, seen, acked, others⟩
      · -- a stale receipt changes nothing and releases nothing
        have same : ackBatchItem queue acc (id, receipt) = acc := ackBatchItem_of_invalid invalid
        have rest := ih acc
        simp only [done, List.foldl_cons, same, releases_cons_of_stale stale]
        exact rest
      · obtain ⟨shards, _, _, _, count⟩ := ackBatchItem_of_valid valid
        obtain ⟨away, kept, le, counts⟩ := ih (ackBatchItem queue acc (id, receipt))
        have here : (ackBatchItem queue acc (id, receipt)).engine.shards (shardIdx queue) = st' := by
          rw [shards, shards_setShard]
        have released : st.Releases ((id, receipt) :: items) id := ⟨receipt, by simp, held⟩
        have gone : ∀ m, m ∈ st'.messages ↔ m ≠ id ∧ m ∈ st.messages := by
          intro m
          rw [messages, AList.mem_erase]
        have live : ∀ m, (ackBatchItem queue acc (id, receipt)).engine.Live (shardIdx queue) m ↔
            m ≠ id ∧ acc.engine.Live (shardIdx queue) m :=
          live_of_acked (here ▸ messages) (here ▸ seen) (here ▸ acked)
        rw [here] at kept counts
        simp only [done, List.foldl_cons]
        refine ⟨fun s other => ?_, fun m => ?_, ?_, ?_⟩
        · rw [away s other, shards, shards_setShard_of_ne other]
        · rw [kept, live]
          by_cases same : m = id
          · subst same
            simp [released]
          · rw [releases_cons_of_ne same (others m same)]
            simp [same]
        · refine le_trans ?_ le
          rw [count]
          split <;> omega
        · by_cases live : id ∈ st.messages
          · have more : acc.count < (ackBatchItem queue acc (id, receipt)).count := by
              rw [count, decide_eq_true live]
              simp
            exact iff_of_true (more.trans_le le) ⟨id, live, released⟩
          · have same : (ackBatchItem queue acc (id, receipt)).count = acc.count := by
              rw [count, decide_eq_false live]
              simp
            rw [same] at counts
            rw [counts]
            constructor
            · rintro ⟨m, inside, releases⟩
              obtain ⟨other, inside⟩ := (gone m).1 inside
              exact ⟨m, inside, (releases_cons_of_ne other (others m other)).2 releases⟩
            · rintro ⟨m, inside, releases⟩
              have other : m ≠ id := fun eq => live (eq ▸ inside)
              exact ⟨m, (gone m).2 ⟨other, inside⟩,
                (releases_cons_of_ne other (others m other)).1 releases⟩

/-- What `ack_batch` removes, and when it returns 0. -/
theorem ackBatch_spec (env : Env) (e : QueueEngine) (queue : String)
    (items : List (String × String)) :
    let st := e.shards (shardIdx queue)
    (∀ s, s ≠ shardIdx queue → (e.ackBatch env queue items).1.shards s = e.shards s) ∧
    (∀ m, (e.ackBatch env queue items).1.Live (shardIdx queue) m ↔
      e.Live (shardIdx queue) m ∧ ¬ st.Releases (parsedItems env items) m) ∧
    ((e.ackBatch env queue items).2 = 0 ↔ ∀ m ∈ st.messages,
      ¬ st.Releases (parsedItems env items) m) := by
  intro st
  obtain ⟨away, kept, _, counts⟩ := ackBatch_foldl queue (parsedItems env items) ⟨e, 0, []⟩
  have shards : (e.ackBatch env queue items).1.shards =
      ((parsedItems env items).foldl (ackBatchItem queue) ⟨e, 0, []⟩).engine.shards :=
    (shards_checkAndTriggerCompaction env _).trans (disk_ackBatchUnchecked env e queue items).2.2
  refine ⟨fun s other => shards ▸ away s other, fun m => ?_, ?_⟩
  · rw [← kept]
    exact live_of_shards (congrFun shards _) m
  have count : (e.ackBatch env queue items).2 =
      ((parsedItems env items).foldl (ackBatchItem queue) ⟨e, 0, []⟩).count := rfl
  rw [count, ← Nat.le_zero, ← Nat.not_lt, counts]
  simp only [not_exists, not_and]
  rfl

end QueueEngine

/-! ## A follower -/

open QueueEngine

/-- What a follower's Acks of one queue remove. -/
theorem RaftNode.applyAcks_live (env : Env) (queue : String)
    (items : List (Nat × String × String)) (e : QueueEngine) :
    let done := (items.map fun item => (item.1, RaftCommand.ack queue item.2.1 item.2.2)).foldl
      (RaftNode.applyAt env) e
    (∀ s, s ≠ shardIdx queue → done.shards s = e.shards s) ∧
    ∀ m, done.Live (shardIdx queue) m ↔ e.Live (shardIdx queue) m ∧
      ∀ item ∈ items, parseIdFast env item.2.1 ≠ some m := by
  induction items generalizing e with
  | nil => simp
  | cons item items ih =>
      intro done
      obtain ⟨away, kept⟩ := ih (RaftNode.applyAt env e (item.1, .ack queue item.2.1 item.2.2))
      have one : RaftNode.applyAt env e (item.1, .ack queue item.2.1 item.2.2) =
        (e.ackFollower env queue item.2.1).1 := rfl
      simp only [done, List.map_cons, List.foldl_cons]
      rw [one] at away kept ⊢
      cases parsed : parseIdFast env item.2.1 with
      | none =>
          have same : (e.ackFollower env queue item.2.1).1 = e := by
            rw [ackFollower, parsed]
          rw [same] at away kept ⊢
          refine ⟨away, fun m => ?_⟩
          rw [kept]
          simp [parsed]
      | some id =>
          have shards := shards_ackFollower e queue parsed
          have here : (e.ackFollower env queue item.2.1).1.shards (shardIdx queue) =
              (e.shards (shardIdx queue)).applyAck queue id := by rw [shards, shards_setShard]
          have live : ∀ m, (e.ackFollower env queue item.2.1).1.Live (shardIdx queue) m ↔
              m ≠ id ∧ e.Live (shardIdx queue) m := by
            apply live_of_acked <;> rw [here, ShardState.applyAck]
            · exact ShardState.messages_markDeleted
            · exact ShardState.seenIds_markDeleted
            · exact ShardState.ackedIds_markDeleted
          refine ⟨fun s other => ?_, fun m => ?_⟩
          · rw [away s other, shards, shards_setShard_of_ne other]
          · rw [kept, live]
            simp only [List.forall_mem_cons, parsed, ne_eq, Option.some.injEq]
            constructor
            · rintro ⟨⟨other, inside⟩, rest⟩
              exact ⟨inside, fun same => other same.symm, rest⟩
            · rintro ⟨inside, other, rest⟩
              exact ⟨⟨fun same => other same.symm, inside⟩, rest⟩

/-! ## Both -/

namespace RaftNode

/-- The id was live in the shard and is no longer. -/
def Removed (e e' : QueueEngine) (s : Fin numShards) (m : Ulid) : Prop :=
  e.Live s m ∧ ¬ e'.Live s m

instance (e e' : QueueEngine) (s : Fin numShards) (m : Ulid) : Decidable (Removed e e' s m) :=
  inferInstanceAs (Decidable (_ ∧ _))

/-- The follower after the request of a proposal, if one was sent. -/
def afterAcks (env : Env) (codec : Postcard) (now : Nat) (follower : RaftNode) :
    Option RaftAppend → RaftNode
  | some request => (follower.handleAppendEntries env codec now request).1
  | none => follower

/-- `propose_ack_batch` on the leader's engine, and the request it sends: the Acks of all
items, unless nothing was released. -/
theorem proposeAckBatch_sends (env : Env) (codec : Postcard) {leader : RaftNode} (queue : String)
    (items : List (String × String)) (role : leader.role = .leader) :
    ((leader.engine.ackBatch env queue items).2 = 0 ∧
      (leader.proposeAckBatch env codec queue items).2.2 = none) ∨
    ((leader.engine.ackBatch env queue items).2 ≠ 0 ∧ ∃ request,
      (leader.proposeAckBatch env codec queue items).2.2 = some request ∧
      request.term = leader.currentTerm ∧
      commandsOf codec request = items.map fun item => RaftCommand.ack queue item.1 item.2) := by
  unfold proposeAckBatch
  rw [if_neg (not_not.2 role)]
  by_cases empty : items = []
  · subst empty
    exact Or.inl ⟨rfl, rfl⟩
  · rw [if_neg empty]
    dsimp only
    by_cases none : (leader.engine.ackBatch env queue items).2 = 0
    · rw [if_pos none]
      exact Or.inl ⟨none, rfl⟩
    · rw [if_neg none]
      refine Or.inr ⟨none, _, rfl, ?_, commandsOf_newEntries codec _ _⟩
      rfl

theorem proposeAckBatch_engine {env : Env} {codec : Postcard} {leader : RaftNode} {queue : String}
    {items : List (String × String)} (role : leader.role = .leader) :
    (leader.proposeAckBatch env codec queue items).1.engine.shards =
      (leader.engine.ackBatch env queue items).1.shards := by
  unfold proposeAckBatch
  rw [if_neg (not_not.2 role)]
  split
  · rename_i empty
    subst empty
    have idle : (ackBatchUnchecked env leader.engine queue []).shards = leader.engine.shards := rfl
    exact idle.symm.trans (shards_checkAndTriggerCompaction env _).symm
  · dsimp only
    split
    · rfl
    · split
      · rw [compactLogSnapshot, (compactAt_frame _ _).2.2.2.1]
      · rfl

theorem mem_parsedItems {env : Env} {items : List (String × String)} {m : Ulid} :
    (∃ receipt, (m, receipt) ∈ parsedItems env items) ↔
      ∃ item ∈ items, parseIdFast env item.1 = some m := by
  unfold parsedItems
  simp only [List.mem_filterMap, Option.map_eq_some_iff, Prod.mk.injEq]
  constructor
  · rintro ⟨receipt, item, inside, id, parsed, rfl, _⟩
    exact ⟨item, inside, parsed⟩
  · rintro ⟨item, inside, parsed⟩
    exact ⟨item.2, item, inside, m, parsed, rfl, rfl⟩

/-- A push of two messages that are visible at once and one that waits on disk. -/
def sampleThree : RaftNode × Except String (List String) × Option RaftAppend :=
  sampleLeader.proposePushBatch .sample .format 1600000000 [] "a"
    [(ulidText 1, [1], 0), (ulidText 2, [2], 0), (ulidText 3, [3], 400)]

/-- The leader once the two are leased. -/
def sampleLeasing : RaftNode :=
  { sampleThree.1 with engine := (sampleThree.1.engine.poll .sample 1600000000 "a" 30 2).1 }

/-- The follower that has all three. -/
def sampleHolding : RaftNode :=
  sampleFollower.deliver .sample .format (sampleThree.2.2.toList.map (Prod.mk 1600000000))

theorem sampleLeasing_live (s : Fin numShards) (m : Ulid) :
    sampleLeasing.engine.Live s m ↔ sampleHolding.engine.Live s m := by
  have same : ∀ s, (sampleLeasing.engine.shards s).messages.keys =
        (sampleHolding.engine.shards s).messages.keys ∧
      (sampleLeasing.engine.shards s).seenIds = (sampleHolding.engine.shards s).seenIds ∧
      (sampleLeasing.engine.shards s).ackedIds = (sampleHolding.engine.shards s).ackedIds := by
    decide +kernel
  obtain ⟨keys, seen, acked⟩ := same s
  unfold Live
  rw [AList.mem_keys, AList.mem_keys, keys, seen, acked]

end RaftNode

end WalrQueue
