import WalrQueue.PageIn
import WalrQueue.ShardLocation

/-!
# Which messages are in memory

Two facts about `messages` that hold without any condition on the run: a
property of single messages that deliveries keep is kept by every section
(`Every`), and a section loses an id from memory only by an ack of that id or by
taking its message into the hand of a poll (`Keeps`).
-/

namespace WalrQueue

namespace ShardState

variable {st : ShardState} {Q : Ulid → StoredMsg → Prop} {m id : Ulid} {msg : StoredMsg}
  {queue : String}

/-- Every message of the shard, with the id it is filed under, satisfies `Q`. -/
def Every (Q : Ulid → StoredMsg → Prop) (st : ShardState) : Prop :=
  ∀ id msg, AList.lookup id st.messages = some msg → Q id msg

theorem Every.store (h : st.Every Q) (now : Nat) (new : Q msg.id msg) :
    (st.store now msg).Every Q := by
  intro id msg' found
  have found : AList.lookup id (AList.insert msg.id msg st.messages) = some msg' := found
  rw [FMap.lookup_insert_ite] at found
  split at found
  · rename_i same
    cases found
    rw [same]
    exact new
  · exact h id msg' found

theorem Every.applyAck (h : st.Every Q) (queue : String) (id : Ulid) :
    (st.applyAck queue id).Every Q := by
  intro id' msg found
  simp only [ShardState.applyAck, messages_markDeleted, FMap.lookup_erase_ite] at found
  split at found
  · cases found
  · exact h id' msg found

theorem mem_store (now : Nat) : m ∈ (st.store now msg).messages ↔ m = msg.id ∨ m ∈ st.messages :=
  AList.mem_insert st.messages

theorem mem_applyAck (other : id ≠ m) : m ∈ (st.applyAck queue id).messages ↔ m ∈ st.messages := by
  simp only [applyAck, messages_markDeleted, AList.mem_erase]
  exact ⟨fun inside => inside.2, fun inside => ⟨other.symm, inside⟩⟩

/-! ## Acks with a receipt -/

theorem Every.ackLease (h : st.Every Q) {receipt : String} {done : ShardState × Bool}
    (valid : st.ackLease queue id receipt = some done) : done.1.Every Q := by
  intro id' msg found
  rw [(ackLease_messages valid).1, FMap.lookup_erase_ite] at found
  split at found
  · cases found
  · exact h id' msg found

/-! ## Expiry -/

/-- What one collected lease takes out. -/
theorem takeExpired_cases (acc : FMap Ulid StoredMsg × List StoredMsg) (item : InFlightItem) :
    (∃ msg, AList.lookup item.id acc.1 = some msg ∧
      takeExpired acc item = (AList.erase item.id acc.1, acc.2 ++ [msg])) ∨
    takeExpired acc item = acc := by
  unfold takeExpired
  cases found : AList.lookup item.id acc.1 with
  | none => exact Or.inr rfl
  | some msg => exact Or.inl ⟨msg, rfl, rfl⟩

/-- A message that leaves memory is among those taken. -/
theorem takeExpired_foldl_spec (items : List InFlightItem)
    (acc : FMap Ulid StoredMsg × List StoredMsg) :
    (∀ id msg, AList.lookup id (items.foldl takeExpired acc).1 = some msg →
      AList.lookup id acc.1 = some msg) ∧
    (∀ msg ∈ (items.foldl takeExpired acc).2, msg ∈ acc.2 ∨
      ∃ id, AList.lookup id acc.1 = some msg) ∧
    (∀ msg ∈ acc.2, msg ∈ (items.foldl takeExpired acc).2) ∧
    ∀ id msg, AList.lookup id acc.1 = some msg →
      AList.lookup id (items.foldl takeExpired acc).1 = some msg ∨
        msg ∈ (items.foldl takeExpired acc).2 := by
  induction items generalizing acc with
  | nil =>
      exact ⟨fun _ _ found => found, fun _ member => Or.inl member, fun _ member => member,
        fun _ _ found => Or.inl found⟩
  | cons item items ih =>
      obtain ⟨remains, origin, keeps, leaves⟩ := ih (takeExpired acc item)
      rw [List.foldl_cons]
      rcases takeExpired_cases acc item with ⟨taken, found, eq⟩ | eq
      · rw [eq] at remains origin keeps leaves ⊢
        have old : ∀ id msg, AList.lookup id (AList.erase item.id acc.1) = some msg →
            AList.lookup id acc.1 = some msg := by
          intro id msg inside
          rw [FMap.lookup_erase_ite] at inside
          split at inside
          · cases inside
          · exact inside
        refine ⟨fun id msg inside => old id msg (remains id msg inside), fun msg member => ?_,
          fun msg member => keeps msg (by simp [member]), fun id msg inside => ?_⟩
        · rcases origin msg member with before | ⟨id, inside⟩
          · rcases List.mem_append.1 before with before | new
            · exact Or.inl before
            · rw [List.mem_singleton.1 new]
              exact Or.inr ⟨item.id, found⟩
          · exact Or.inr ⟨id, old id msg inside⟩
        · by_cases same : id = item.id
          · subst same
            rw [found] at inside
            cases inside
            exact Or.inr (keeps taken (by simp))
          · exact leaves id msg (by rw [FMap.lookup_erase_ite, if_neg same]; exact inside)
      · rw [eq]
        rw [eq] at remains origin keeps leaves
        exact ⟨remains, origin, keeps, leaves⟩

theorem Every.collectExpired (h : st.Every Q) (now : Nat) :
    (st.collectExpired now).1.Every Q ∧
      ∀ msg ∈ (st.collectExpired now).2, ∃ id, Q id msg := by
  obtain ⟨remains, origin, _, _⟩ :=
    takeExpired_foldl_spec (st.wheel.collectExpired now).2 (st.messages, [])
  refine ⟨fun id msg found => h id msg (remains id msg found), fun msg member => ?_⟩
  rcases origin msg member with bad | ⟨id, found⟩
  · cases bad
  · exact ⟨id, h id msg found⟩

/-- A message leaves memory into the hand of the poll. -/
theorem mem_collectExpired (keyed : st.Keyed) (now : Nat) (inside : m ∈ st.messages) :
    m ∈ (st.collectExpired now).1.messages ∨ ∃ msg ∈ (st.collectExpired now).2, msg.id = m := by
  obtain ⟨_, _, _, leaves⟩ :=
    takeExpired_foldl_spec (st.wheel.collectExpired now).2 (st.messages, [])
  obtain ⟨msg, found⟩ := (FMap.mem_iff_lookup st.messages m).1 inside
  rcases leaves m msg found with stays | taken
  · exact Or.inl (FMap.mem_of_lookup stays)
  · exact Or.inr ⟨msg, taken, keyed m msg found⟩

/-! ## Claiming -/

theorem claimOne_messages (env : Env) (now : Nat) (queue : String) (timeout : Nat) (acc : Claim)
    (id : Ulid) :
    (∃ msg, AList.lookup id acc.messages = some msg ∧
      (claimOne env now queue timeout acc id).messages =
        AList.insert id (delivered msg) acc.messages) ∨
    (claimOne env now queue timeout acc id).messages = acc.messages := by
  unfold claimOne
  cases found : AList.lookup id acc.messages with
  | none => exact Or.inr rfl
  | some msg => exact Or.inl ⟨msg, rfl, rfl⟩

/-- Claiming changes delivery counts only. -/
theorem claimOne_foldl_messages (env : Env) (now : Nat) (queue : String) (timeout : Nat)
    (ids : List Ulid) (acc : Claim) (closed : ∀ id msg, Q id msg → Q id (delivered msg))
    (every : ∀ id msg, AList.lookup id acc.messages = some msg → Q id msg) :
    (∀ id msg, AList.lookup id (ids.foldl (claimOne env now queue timeout) acc).messages =
      some msg → Q id msg) ∧
    (m ∈ acc.messages → m ∈ (ids.foldl (claimOne env now queue timeout) acc).messages) := by
  induction ids generalizing acc with
  | nil => exact ⟨every, fun inside => inside⟩
  | cons id ids ih =>
      rw [List.foldl_cons]
      rcases claimOne_messages env now queue timeout acc id with ⟨msg, found, eq⟩ | eq
      · obtain ⟨every', mem'⟩ := ih (claimOne env now queue timeout acc id) fun id' msg' inside => by
          rw [eq, FMap.lookup_insert_ite] at inside
          split at inside
          · rename_i same
            cases inside
            rw [same]
            exact closed id msg (every id msg found)
          · exact every id' msg' inside
        refine ⟨every', fun inside => mem' ?_⟩
        rw [eq, AList.mem_insert]
        exact Or.inr inside
      · obtain ⟨every', mem'⟩ := ih (claimOne env now queue timeout acc id) fun id' msg' inside => by
          rw [eq] at inside
          exact every id' msg' inside
        refine ⟨every', fun inside => mem' ?_⟩
        rw [eq]
        exact inside

theorem Every.claim (h : st.Every Q) (closed : ∀ id msg, Q id msg → Q id (delivered msg))
    (env : Env) (draws : Nat) (queue : String) (q : SingleQueue) (now timeout maxMessages : Nat) :
    (st.claim env draws queue q now timeout maxMessages).1.Every Q :=
  (claimOne_foldl_messages (m := 0) env now queue timeout _
    ⟨st.messages, st.wheel, draws + 1, []⟩ closed h).1

theorem mem_claim (env : Env) (draws : Nat) (queue : String) (q : SingleQueue)
    (now timeout maxMessages : Nat) (inside : m ∈ st.messages) :
    m ∈ (st.claim env draws queue q now timeout maxMessages).1.messages :=
  (claimOne_foldl_messages (Q := fun _ _ => True) env now queue timeout _
    ⟨st.messages, st.wheel, draws + 1, []⟩ (fun _ _ _ => trivial) fun _ _ _ => trivial).2 inside

theorem Every.load (h : st.Every Q) {opts : QueueOptions} {now : Nat} {r : WalRecord}
    (new : ∀ id queue visibleAt payload, r = .push id queue visibleAt payload →
      Q id ⟨id, queue, payload, visibleAt, 0, opts.maxDeliveryCount⟩) :
    (st.load opts now r).Every Q := by
  cases r with
  | ack msgId queueName => exact h.applyAck queueName msgId
  | push msgId queueName visibleAt payload =>
      unfold ShardState.load
      dsimp only
      split
      · have seen : ({ st with seenIds := insert msgId st.seenIds } : ShardState).Every Q := h
        exact seen.store now (new msgId queueName visibleAt payload rfl)
      · exact h

end ShardState

/-! ## The whole engine -/

namespace QueueEngine

/-- The id is in the `messages` of some shard. -/
def InMemory (e : QueueEngine) (m : Ulid) : Prop := ∃ s, m ∈ (e.shards s).messages

instance (e : QueueEngine) (m : Ulid) : Decidable (e.InMemory m) :=
  inferInstanceAs (Decidable (∃ s, m ∈ (e.shards s).messages))

/-- Every message in memory satisfies `Q`. -/
def Every (Q : Ulid → StoredMsg → Prop) (e : QueueEngine) : Prop := ∀ s, (e.shards s).Every Q

variable {e e' e'' : QueueEngine} {Q : Ulid → StoredMsg → Prop} {m id : Ulid}
  {s : Fin numShards} {st : ShardState} {msg : StoredMsg} {now : Nat}

theorem Every.setShard (h : e.Every Q) (here : st.Every Q) : (e.setShard s st).Every Q := by
  intro s'
  by_cases same : s' = s
  · subst same
    simpa using here
  · simpa [same] using h s'

theorem Every.congr (h : e.Every Q) (shards : e'.shards = e.shards) : e'.Every Q := by
  intro s
  rw [shards]
  exact h s

/-- `Q` allows a message of the id and payload of `msg` that is visible now. -/
def Reroutes (Q : Ulid → StoredMsg → Prop) (now : Nat) (msg : StoredMsg) : Prop :=
  ∀ msg', msg'.id = msg.id → msg'.payload = msg.payload → msg'.visibleAt = now → Q msg'.id msg'

theorem Every.routeExpired (h : e.Every Q) (routes : Reroutes Q now msg) :
    (QueueEngine.routeExpired now e msg).Every Q := by
  unfold QueueEngine.routeExpired
  split
  · have retired : (e.retireExpired msg).Every Q := by
      refine h.setShard fun id msg' found => ?_
      rw [ShardState.messages_markDeleted] at found
      exact h _ id msg' found
    exact retired.setShard (ShardState.Every.store (retired _) now (routes _ rfl rfl rfl))
  · exact h.setShard ((h _).store now (routes _ rfl rfl rfl))

theorem Every.routeExpired_foldl {msgs : List StoredMsg} (h : e.Every Q)
    (routes : ∀ msg ∈ msgs, Reroutes Q now msg) :
    (msgs.foldl (QueueEngine.routeExpired now) e).Every Q := by
  induction msgs generalizing e with
  | nil => exact h
  | cons msg msgs ih =>
      exact ih (h.routeExpired (routes msg (by simp)))
        fun msg' member => routes msg' (by simp [member])

/-- The two expiry sections of a poll together. -/
theorem Every.route (h : e.Every Q) (s : Fin numShards)
    (routes : ∀ id msg, Q id msg → Reroutes Q now msg) :
    ((e.collectExpired s now).2.foldl (QueueEngine.routeExpired now)
      (e.collectExpired s now).1).Every Q := by
  obtain ⟨left, taken⟩ := (h s).collectExpired now
  refine Every.routeExpired_foldl (h.setShard left) fun msg member => ?_
  obtain ⟨id, holds⟩ := taken msg member
  exact routes id msg holds

theorem Every.claimSection (h : e.Every Q)
    (closed : ∀ id msg, Q id msg → Q id (ShardState.delivered msg)) (env : Env) (queue : String)
    (now timeout maxMessages : Nat) :
    (e.claimSection env queue now timeout maxMessages).1.Every Q := by
  unfold QueueEngine.claimSection
  dsimp only
  split
  · exact (h.setShard ((h (shardIdx queue)).claim closed env e.draws queue _ now timeout
      maxMessages)).congr rfl
  · exact h

/-- `Q` allows every message that page-in makes of the records. -/
def LoadsOnly (Q : Ulid → StoredMsg → Prop) (records : List WalRecord) : Prop :=
  ∀ id queue visibleAt payload, WalRecord.push id queue visibleAt payload ∈ records →
    ∀ maxDelivery, Q id ⟨id, queue, payload, visibleAt, 0, maxDelivery⟩

/-- `Q` allows every message that page-in makes of the records under the options. -/
def LoadsUnder (opts : QueueOptions) (Q : Ulid → StoredMsg → Prop) (records : List WalRecord) :
    Prop :=
  ∀ id queue visibleAt payload, WalRecord.push id queue visibleAt payload ∈ records →
    Q id ⟨id, queue, payload, visibleAt, 0, opts.maxDeliveryCount⟩

theorem LoadsOnly.under {records : List WalRecord} (new : LoadsOnly Q records)
    (opts : QueueOptions) : LoadsUnder opts Q records :=
  fun id queue visibleAt payload member => new id queue visibleAt payload member _

theorem Every.pageInChunk {records : List WalRecord} (h : e.Every Q)
    (new : LoadsUnder e.options Q records) (targetQueue : String) :
    (QueueEngine.pageInChunk now targetQueue e records).engine.Every Q := fun s => by
  rw [shards_pageInChunk]
  refine List.foldlRecOn (motive := ShardState.Every Q) _ (ShardState.load e.options now) (h s)
    fun st kept r inside => kept.load fun id queue visibleAt payload same => ?_
  exact new id queue visibleAt payload (same ▸ List.mem_of_mem_filter inside)

/-- What the locked part of a push leaves in a shard. -/
theorem Every.enter (h : e.Every Q) (msg : StoredMsg) (shards : e'.shards = (e.setShard s st).shards)
    (after : st = { e.shards s with seenIds := insert msg.id (e.shards s).seenIds } ∨
      st = ShardState.store { e.shards s with
        seenIds := insert msg.id (e.shards s).seenIds } now msg)
    (new : Q msg.id msg) : e'.Every Q := by
  have here : st.Every Q := by
    rcases after with rfl | rfl
    · exact h s
    · have seen : ({ e.shards s with seenIds := insert msg.id (e.shards s).seenIds } :
          ShardState).Every Q := h s
      exact seen.store now new
  exact (h.setShard here).congr shards

/-! ## Whole operations -/

theorem Every.checkAndTriggerCompaction (h : e.Every Q) (env : Env) :
    (e.checkAndTriggerCompaction env).Every Q :=
  h.congr (shards_checkAndTriggerCompaction env e)

theorem Every.pushUnchecked (h : e.Every Q) {queue : String} {payload : List UInt8} {delaySec : Nat}
    (new : Q id (e.newMsg queue id payload (addU64 now delaySec))) :
    (e.pushUnchecked now queue id payload delaySec).1.Every Q := by
  unfold QueueEngine.pushUnchecked
  dsimp only
  split
  · exact h.congr rfl
  · obtain ⟨st, shards, after⟩ := shards_pushSection
      { e with disk := e.disk.append (.push id queue (addU64 now delaySec) payload) }
      now queue id payload (addU64 now delaySec)
    exact Every.enter (e := e) h (e.newMsg queue id payload (addU64 now delaySec)) shards after new

theorem Every.pushWithUlid (h : e.Every Q) (env : Env) {queue : String} {payload : List UInt8}
    {delaySec : Nat} (new : Q id (e.newMsg queue id payload (addU64 now delaySec))) :
    (e.pushWithUlid env now queue id payload delaySec).1.Every Q := by
  unfold QueueEngine.pushWithUlid
  dsimp only
  split
  · exact (h.pushUnchecked new).checkAndTriggerCompaction env
  · exact h.pushUnchecked new

theorem Every.pushBatchItem {acc : PushBatch} (h : acc.engine.Every Q) (env : Env) {queue : String}
    {item : PushItem} (new : Q (drawId env acc.engine.draws item.id).1
      (acc.engine.newMsg queue (drawId env acc.engine.draws item.id).1 item.payload
        (addU64 now item.delaySeconds))) :
    (QueueEngine.pushBatchItem env now queue acc item).engine.Every Q := by
  have drawn : ({ acc.engine with draws := (drawId env acc.engine.draws item.id).2 } :
      QueueEngine).Every Q := h.congr rfl
  unfold QueueEngine.pushBatchItem
  dsimp only
  split
  · exact drawn
  · generalize (drawId env acc.engine.draws item.id).1 = id at new
    obtain ⟨st, shards, after⟩ := shards_pushBatchNew now queue { acc with
      engine := { acc.engine with draws := (drawId env acc.engine.draws item.id).2 }
      ids := acc.ids ++ [id] } id item
    exact drawn.enter (acc.engine.newMsg queue id item.payload (addU64 now item.delaySeconds))
      shards after new

theorem options_pushBatchItem (env : Env) (now : Nat) (queue : String) (acc : PushBatch)
    (item : PushItem) :
    (QueueEngine.pushBatchItem env now queue acc item).engine.options = acc.engine.options := by
  unfold QueueEngine.pushBatchItem QueueEngine.pushBatchNew
  dsimp only
  split
  · rfl
  · split <;> rfl

/-- The messages of a batch have ids of the batch and the options of the engine. -/
theorem Every.pushBatchUnchecked (h : e.Every Q) (env : Env) {queue : String}
    {items : List PushItem} (new : ∀ item ∈ items, ∀ id ∈ (pushBatchLoop env e now queue items).ids,
      Q id (e.newMsg queue id item.payload (addU64 now item.delaySeconds))) :
    (e.pushBatchUnchecked env now queue items).Every Q := by
  have loop : ∀ (items : List PushItem) (acc : PushBatch), acc.engine.options = e.options →
      (∀ item ∈ items, ∀ id ∈ (items.foldl (QueueEngine.pushBatchItem env now queue) acc).ids,
        Q id (e.newMsg queue id item.payload (addU64 now item.delaySeconds))) →
      acc.engine.Every Q →
      (items.foldl (QueueEngine.pushBatchItem env now queue) acc).engine.Every Q := by
    intro items
    induction items with
    | nil => exact fun acc _ _ h => h
    | cons item items ih =>
        intro acc options new h
        have drawn : (drawId env acc.engine.draws item.id).1 ∈
            ((item :: items).foldl (QueueEngine.pushBatchItem env now queue) acc).ids := by
          refine (ids_prefix_pushBatchLoop now queue
            (QueueEngine.pushBatchItem env now queue acc item) env items).subset ?_
          rw [ids_pushBatchItem]
          simp
        have msg := new item (by simp) _ drawn
        refine ih _ ((options_pushBatchItem env now queue acc item).trans options)
          (fun item' member => new item' (by simp [member])) (h.pushBatchItem env ?_)
        unfold newMsg at msg ⊢
        rw [options]
        exact msg
  exact (loop items ⟨e, [], 0, e.totalMessagesInRam⟩ rfl new h).congr rfl

theorem Every.ackUnchecked (h : e.Every Q) {queue receipt : String} {done : QueueEngine}
    (success : e.ackUnchecked queue id receipt = some done) : done.Every Q := by
  unfold QueueEngine.ackUnchecked at success
  split at success
  · cases success
  · rename_i st wasLive valid
    cases success
    exact (h.setShard ((h _).ackLease valid)).congr rfl

theorem Every.ackBatchUnchecked (h : e.Every Q) (env : Env) (queue : String)
    (items : List (String × String)) : (e.ackBatchUnchecked env queue items).Every Q := by
  have loop : ∀ (items : List (Ulid × String)) (acc : AckBatch), acc.engine.Every Q →
      (items.foldl (ackBatchItem queue) acc).engine.Every Q := by
    intro items
    induction items with
    | nil => exact fun acc h => h
    | cons item items ih =>
        intro acc h
        rw [List.foldl_cons]
        refine ih _ ?_
        cases valid : (acc.engine.shards (shardIdx queue)).ackLease queue item.1 item.2 with
        | none =>
            rw [ackBatchItem_of_invalid valid]
            exact h
        | some done =>
            obtain ⟨shards, _⟩ := ackBatchItem_of_valid valid
            exact (h.setShard ((h _).ackLease valid)).congr shards
  exact (loop (parsedItems env items) ⟨e, 0, []⟩ h).congr (disk_ackBatchUnchecked _ _ _ _).2.2

theorem Every.ackFollower (h : e.Every Q) (env : Env) (queue messageId : String) :
    (e.ackFollower env queue messageId).1.Every Q := by
  unfold QueueEngine.ackFollower
  split
  · exact h
  · rename_i id _
    have acked := h.setShard (s := shardIdx queue) ((h (shardIdx queue)).applyAck queue id)
    dsimp only
    split
    · exact acked.congr (shards_checkAndTriggerCompaction env _)
    · exact acked.congr rfl

/-- What `open` puts in memory are messages of the records. -/
theorem Every.replay {records : List WalRecord} (new : LoadsOnly Q records) (opts : QueueOptions)
    (baseEpochSec : Nat) (s : Fin numShards) :
    ((QueueEngine.replay opts baseEpochSec records).shards s).Every Q := by
  have loop : ∀ (records : List WalRecord) (acc : Replay), LoadsOnly Q records →
      (∀ s, (acc.shards s).Every Q) →
      ∀ s, ((records.foldl (replayRecord opts baseEpochSec) acc).shards s).Every Q := by
    intro records
    induction records with
    | nil => exact fun acc _ h => h
    | cons r records ih =>
        intro acc new h
        refine ih _ (fun id queue visibleAt payload member =>
          new id queue visibleAt payload (by simp [member])) fun s => ?_
        have replaced : ∀ (t : Fin numShards) (st : ShardState), st.Every Q →
            (Function.update acc.shards t st s).Every Q := by
          intro t st here
          by_cases same : s = t
          · subst same
            simpa using here
          · simpa [same] using h s
        cases r with
        | ack msgId queueName => exact replaced _ _ ((h _).applyAck queueName msgId)
        | push msgId queueName visibleAt payload =>
            have seen : ({ acc.shards (shardIdx queueName) with
                seenIds := insert msgId (acc.shards (shardIdx queueName)).seenIds } :
                ShardState).Every Q := h _
            unfold replayRecord
            dsimp only
            split
            · exact replaced _ _
                (seen.store baseEpochSec (new msgId queueName visibleAt payload (by simp) _))
            · exact replaced _ _ seen
  exact loop records ⟨fun _ => .new, 0⟩ new (fun _ id msg found => by cases found) s

/-! ## Keeping an id -/

/-- From `e` to `e'` the id stays in memory, and it is newly recorded as acked only
if it is in memory. -/
structure Keeps (m : Ulid) (e e' : QueueEngine) : Prop where
  memory : e.InMemory m → e'.InMemory m
  acked : ∀ s, m ∈ (e'.shards s).ackedIds → m ∈ (e.shards s).ackedIds ∨ e'.InMemory m

theorem Keeps.refl : Keeps m e e := ⟨id, fun _ acked => Or.inl acked⟩

theorem Keeps.trans (first : Keeps m e e') (second : Keeps m e' e'') : Keeps m e e'' where
  memory inside := second.memory (first.memory inside)
  acked s acked := by
    rcases second.acked s acked with before | inside
    · rcases first.acked s before with before | inside
      · exact Or.inl before
      · exact Or.inr (second.memory inside)
    · exact Or.inr inside

theorem Keeps.of_shards (shards : e'.shards = e.shards) : Keeps m e e' where
  memory := by unfold InMemory; rw [shards]; exact id
  acked s acked := by rw [shards] at acked; exact Or.inl acked

theorem inMemory_setShard (inside : m ∈ st.messages) : (e.setShard s st).InMemory m :=
  ⟨s, by simpa using inside⟩

/-- A section of one shard that keeps the id there. -/
theorem Keeps.setShard (memory : m ∈ (e.shards s).messages → m ∈ st.messages)
    (acked : m ∈ st.ackedIds → m ∈ (e.shards s).ackedIds ∨ m ∈ st.messages) :
    Keeps m e (e.setShard s st) where
  memory := by
    rintro ⟨s', inside⟩
    by_cases same : s' = s
    · subst same
      exact inMemory_setShard (memory inside)
    · exact ⟨s', by simpa [same] using inside⟩
  acked s' here := by
    by_cases same : s' = s
    · subst same
      rw [shards_setShard] at here
      exact (acked here).imp_right inMemory_setShard
    · exact Or.inl (by simpa [same] using here)

theorem Keeps.store (e : QueueEngine) (s : Fin numShards) (now : Nat) (msg : StoredMsg) :
    Keeps m e (e.setShard s ((e.shards s).store now msg)) :=
  .setShard (fun inside => (ShardState.mem_store now).2 (Or.inr inside)) fun acked => Or.inl acked

/-- A message in hand is in memory once it is routed. -/
theorem inMemory_routeExpired (now : Nat) (e : QueueEngine) (msg : StoredMsg) :
    (QueueEngine.routeExpired now e msg).InMemory msg.id := by
  unfold QueueEngine.routeExpired
  split
  · exact inMemory_setShard ((ShardState.mem_store now).2 (Or.inl rfl))
  · exact inMemory_setShard ((ShardState.mem_store now).2 (Or.inl rfl))

theorem Keeps.retireExpired (other : msg.id ≠ m) : Keeps m e (e.retireExpired msg) :=
  .setShard (fun inside => by simpa using inside) fun acked => by
    have : m ≠ msg.id := fun eq => other eq.symm
    simpa [this] using Or.inl acked

theorem Keeps.deadLetter (e : QueueEngine) (now : Nat) (msg : StoredMsg) :
    Keeps m e (e.deadLetter now msg) :=
  .setShard (fun inside => (ShardState.mem_store now).2 (Or.inr inside)) fun acked => Or.inl acked

theorem Keeps.routeExpired (now : Nat) (e : QueueEngine) (msg : StoredMsg) :
    Keeps m e (QueueEngine.routeExpired now e msg) := by
  by_cases same : msg.id = m
  · subst same
    exact ⟨fun _ => inMemory_routeExpired now e msg,
      fun _ _ => Or.inr (inMemory_routeExpired now e msg)⟩
  · unfold QueueEngine.routeExpired
    split
    · exact (Keeps.retireExpired same).trans (.deadLetter _ now msg)
    · exact .store _ _ now _

theorem Keeps.routeExpired_foldl (now : Nat) (e : QueueEngine) (msgs : List StoredMsg) :
    Keeps m e (msgs.foldl (QueueEngine.routeExpired now) e) ∧
      ((∃ msg ∈ msgs, msg.id = m) → (msgs.foldl (QueueEngine.routeExpired now) e).InMemory m) := by
  induction msgs generalizing e with
  | nil => exact ⟨.refl, by simp⟩
  | cons msg msgs ih =>
      obtain ⟨keeps, stored⟩ := ih (QueueEngine.routeExpired now e msg)
      refine ⟨(Keeps.routeExpired now e msg).trans keeps, ?_⟩
      rintro ⟨msg', member, same⟩
      rcases List.mem_cons.1 member with rfl | later
      · exact keeps.memory (same ▸ inMemory_routeExpired now e msg')
      · exact stored ⟨msg', later, same⟩

/-- The two expiry sections of a poll together. -/
theorem Keeps.route (e : QueueEngine) (s : Fin numShards) (keyed : (e.shards s).Keyed) (now : Nat) :
    Keeps m e ((e.collectExpired s now).2.foldl (QueueEngine.routeExpired now)
      (e.collectExpired s now).1) := by
  obtain ⟨keeps, stored⟩ := Keeps.routeExpired_foldl (m := m) now (e.collectExpired s now).1
    (e.collectExpired s now).2
  refine ⟨?_, fun s' acked => ?_⟩
  · rintro ⟨s', inside⟩
    by_cases same : s' = s
    · subst same
      rcases ShardState.mem_collectExpired keyed now inside with stays | taken
      · exact keeps.memory (inMemory_setShard stays)
      · exact stored taken
    · exact keeps.memory ⟨s', by simpa [QueueEngine.collectExpired, same] using inside⟩
  · refine (keeps.acked s' acked).imp_left fun before => ?_
    by_cases same : s' = s
    · subst same
      simpa [QueueEngine.collectExpired] using before
    · simpa [QueueEngine.collectExpired, same] using before

theorem Keeps.claimSection (e : QueueEngine) (env : Env) (queue : String)
    (now timeout maxMessages : Nat) :
    Keeps m e (e.claimSection env queue now timeout maxMessages).1 := by
  unfold QueueEngine.claimSection
  dsimp only
  split
  · rename_i q _
    have section4 : Keeps m e (e.setShard (shardIdx queue)
        ((e.shards (shardIdx queue)).claim env e.draws queue q now timeout maxMessages).1) :=
      .setShard (ShardState.mem_claim env e.draws queue q now timeout maxMessages)
        fun acked => Or.inl acked
    exact section4.trans (.of_shards rfl)
  · exact .refl

/-- What the locked part of a push leaves in a shard. -/
theorem Keeps.enter (msg : StoredMsg) (shards : e'.shards = (e.setShard s st).shards)
    (after : st = { e.shards s with seenIds := insert msg.id (e.shards s).seenIds } ∨
      st = ShardState.store { e.shards s with
        seenIds := insert msg.id (e.shards s).seenIds } now msg) : Keeps m e e' := by
  have keeps : Keeps m e (e.setShard s st) := by
    rcases after with rfl | rfl
    · exact .setShard (fun inside => inside) fun here => Or.inl here
    · exact .setShard (fun inside => (ShardState.mem_store now).2 (Or.inr inside))
        fun here => Or.inl here
  exact keeps.trans (.of_shards shards)

/-- A valid receipt of another id. -/
theorem Keeps.ackLease {queue receipt : String} {done : ShardState × Bool}
    (valid : (e.shards s).ackLease queue id receipt = some done) (other : id ≠ m) :
    Keeps m e (e.setShard s done.1) := by
  obtain ⟨messages, acked⟩ := ShardState.ackLease_messages valid
  have other' : m ≠ id := fun eq => other eq.symm
  refine .setShard (fun inside => ?_) fun here => ?_
  · rw [messages, AList.mem_erase]
    exact ⟨other', inside⟩
  · rw [acked] at here
    exact Or.inl (by simpa [other'] using here)

end QueueEngine

end WalrQueue
