import WalrQueue.RamAccounting
import WalrQueue.WheelLeases

/-!
# Expired leases

A lease runs out at its time, but the wheel learns of it only from a poll of its
shard.  Followed here is one receipt: once a poll has issued it, the wheel has it
ahead of the second it checked last, so the first poll of the shard that finds it
due takes it out, and no ack with that receipt succeeds from then on.
-/

namespace WalrQueue

open QueueEngine

/-! ## One receipt in a wheel -/

namespace TimerWheel

variable {w : TimerWheel} {receipt : String} {expireAt now : Nat} {item : InFlightItem}

/-- No lease in the wheel has the receipt. -/
structure Free (w : TimerWheel) (receipt : String) : Prop where
  sized : 0 < w.size
  none : ∀ id slot, AList.lookup id w.indexById ≠ some (slot, receipt)

/-- A lease with the receipt is in the slot of its expiry, which is still ahead. -/
structure Ticking (w : TimerWheel) (receipt : String) (expireAt : Nat) : Prop where
  sized : 0 < w.size
  entry : ∀ id slot, AList.lookup id w.indexById = some (slot, receipt) →
    slot = expireAt % w.size ∧ (∃ item ∈ w.slots slot, item.id = id ∧ item.expireAt = expireAt) ∧
      0 < w.lastCheckedSec ∧ w.lastCheckedSec < expireAt

theorem Free.ticking (h : Free w receipt) (expireAt : Nat) : Ticking w receipt expireAt :=
  ⟨h.sized, fun id slot found => absurd found (h.none id slot)⟩

theorem Free.new (capacity : Nat) : Free (.new capacity) receipt where
  sized := lt_of_lt_of_le (by norm_num) (Nat.le_max_right capacity 60)
  none id slot found := by cases found

theorem Free.insert (h : Free w receipt) (other : item.receipt ≠ receipt) :
    Free (w.insert item) receipt where
  sized := h.sized
  none id slot found := by
    simp only [TimerWheel.insert, FMap.lookup_insert_ite] at found
    split at found
    · cases found
      exact other rfl
    · exact h.none id slot found

/-- A new lease that expires ahead of the second checked last. -/
theorem Ticking.insert (h : Ticking w receipt expireAt)
    (new : item.receipt = receipt →
      item.expireAt = expireAt ∧ 0 < w.lastCheckedSec ∧ w.lastCheckedSec < expireAt) :
    Ticking (w.insert item) receipt expireAt where
  sized := h.sized
  entry id slot found := by
    simp only [TimerWheel.insert, FMap.lookup_insert_ite] at found ⊢
    split at found
    · rename_i same
      cases found
      obtain ⟨expires, started, ahead⟩ := new rfl
      rw [expires, Function.update_self]
      exact ⟨rfl, ⟨item, by simp, same.symm, expires⟩, started, ahead⟩
    · obtain ⟨place, ⟨old, inSlot, its, expires⟩, started, ahead⟩ := h.entry id slot found
      refine ⟨place, ⟨old, ?_, its, expires⟩, started, ahead⟩
      by_cases here : slot = item.expireAt % w.size
      · subst here
        rw [Function.update_self]
        exact List.mem_append_left _ inSlot
      · rwa [Function.update_of_ne here]

/-- An ack leaves the index entries of other ids, and their items. -/
theorem lookup_removeIfValid {id other : Ulid} {given : String} {entry : Nat × String}
    (found : AList.lookup id (w.removeIfValid other given).1.indexById = some entry) :
    AList.lookup id w.indexById = some entry ∧
      ∀ slot, ∀ item ∈ w.slots slot, item.id = id →
        item ∈ (w.removeIfValid other given).1.slots slot := by
  unfold removeIfValid at found ⊢
  split at found
  · rename_i slot valid indexed
    split at found
    · simp only [FMap.lookup_erase_ite] at found
      split at found
      · cases found
      · rename_i differs
        refine ⟨found, fun slot' item inSlot its => ?_⟩
        rename_i accepted
        simp only [if_pos accepted]
        split
        · rename_i inside
          by_cases here : slot' = slot
          · subst here
            rw [Function.update_self]
            have removed : (w.slots slot')[List.findIdx (fun it => it.id == other)
                (w.slots slot')].id = other := by
              simpa using List.findIdx_getElem (w := inside)
            have kept := (swapRemove_perm inside).subset inSlot
            rcases List.mem_cons.1 kept with rfl | kept
            · exact absurd (its.symm.trans removed) differs
            · exact kept
          · rwa [Function.update_of_ne here]
        · exact inSlot
    · rename_i refused
      simp only [if_neg refused]
      exact ⟨found, fun _ _ inSlot _ => inSlot⟩
  · exact ⟨found, fun _ _ inSlot _ => inSlot⟩

theorem Free.removeIfValid (h : Free w receipt) (id : Ulid) (given : String) :
    Free (w.removeIfValid id given).1 receipt where
  sized := by rw [size_removeIfValid]; exact h.sized
  none id slot found := h.none id slot (lookup_removeIfValid found).1

theorem Ticking.removeIfValid (h : Ticking w receipt expireAt) (id : Ulid) (given : String) :
    Ticking (w.removeIfValid id given).1 receipt expireAt where
  sized := by rw [size_removeIfValid]; exact h.sized
  entry id slot found := by
    obtain ⟨before, kept⟩ := lookup_removeIfValid found
    obtain ⟨place, ⟨item, inSlot, its, expires⟩, started, ahead⟩ := h.entry id slot before
    rw [size_removeIfValid, lastCheckedSec_removeIfValid]
    exact ⟨place, ⟨item, kept slot item inSlot its, its, expires⟩, started, ahead⟩

/-- A receipt that no lease has is refused. -/
theorem Free.removeIfValid_eq (h : Free w receipt) (id : Ulid) :
    w.removeIfValid id receipt = (w, false) := by
  unfold TimerWheel.removeIfValid
  split
  · rename_i slot valid indexed
    rw [if_neg]
    rintro rfl
    exact h.none id slot indexed
  · rfl

theorem Free.collectExpired (h : Free w receipt) (now : Nat) :
    Free (w.collectExpired now).1 receipt where
  sized := by rw [size_collectExpired]; exact h.sized
  none id slot found := h.none id slot (lookup_collectExpired found)

theorem Ticking.collectExpired (h : Ticking w receipt expireAt) (started : 0 < now)
    (early : now < expireAt) : Ticking (w.collectExpired now).1 receipt expireAt where
  sized := by rw [size_collectExpired]; exact h.sized
  entry id slot found := by
    obtain ⟨place, ⟨item, inSlot, its, expires⟩, _⟩ := h.entry id slot (lookup_collectExpired found)
    rw [size_collectExpired, lastCheckedSec_collectExpired]
    exact ⟨place, ⟨item, mem_collectExpired inSlot (expires ▸ early), its, expires⟩, started, early⟩

/-- The sweep at the time of its expiry takes the lease out. -/
theorem Ticking.free_collectExpired (h : Ticking w receipt expireAt) (due : expireAt ≤ now) :
    Free (w.collectExpired now).1 receipt where
  sized := by rw [size_collectExpired]; exact h.sized
  none id slot found := by
    have indexed := lookup_collectExpired found
    obtain ⟨rfl, ⟨item, inSlot, rfl, rfl⟩, started, ahead⟩ := h.entry id slot indexed
    rw [(collectExpired_due h.sized indexed inSlot started ahead due).2] at found
    cases found

end TimerWheel

/-! ## The wheels of an engine -/

/-- The timer wheels of the shards. -/
def QueueEngine.wheels (e : QueueEngine) (s : Fin numShards) : TimerWheel := (e.shards s).wheel

section Wheels

variable {e e' : QueueEngine} {s : Fin numShards} {st : ShardState}

theorem wheels_congr (shards : e'.shards = e.shards) : e'.wheels = e.wheels := by
  unfold QueueEngine.wheels
  rw [shards]

theorem wheels_setShard (e : QueueEngine) (s : Fin numShards) (st : ShardState) :
    (e.setShard s st).wheels = Function.update e.wheels s st.wheel := by
  funext t
  by_cases here : t = s
  · subst here
    simp [QueueEngine.wheels, QueueEngine.setShard]
  · simp [QueueEngine.wheels, QueueEngine.setShard, here]

theorem wheels_setShard_of_eq (same : st.wheel = (e.shards s).wheel) :
    (e.setShard s st).wheels = e.wheels := by
  rw [wheels_setShard, same]
  exact Function.update_eq_self s e.wheels

theorem wheels_checkAndTriggerCompaction (env : Env) (e : QueueEngine) :
    (e.checkAndTriggerCompaction env).wheels = e.wheels :=
  wheels_congr (shards_checkAndTriggerCompaction env e)

theorem wheels_pushWithUlid (env : Env) (e : QueueEngine) (now : Nat) (queue : String) (id : Ulid)
    (payload : List UInt8) (delaySec : Nat) :
    (e.pushWithUlid env now queue id payload delaySec).1.wheels = e.wheels := by
  have unchecked : (e.pushUnchecked now queue id payload delaySec).1.wheels = e.wheels := by
    unfold QueueEngine.pushUnchecked
    dsimp only
    split
    · rfl
    · unfold QueueEngine.pushSection
      dsimp only
      split
      · exact wheels_setShard_of_eq rfl
      · exact wheels_setShard_of_eq rfl
  unfold QueueEngine.pushWithUlid
  dsimp only
  split
  · rw [wheels_checkAndTriggerCompaction, unchecked]
  · exact unchecked

theorem wheels_pushBatch (env : Env) (e : QueueEngine) (now : Nat) (queue : String)
    (items : List PushItem) : (e.pushBatch env now queue items).1.wheels = e.wheels := by
  have one : ∀ (acc : PushBatch) (item : PushItem),
      (pushBatchItem env now queue acc item).engine.wheels = acc.engine.wheels := by
    intro acc item
    unfold pushBatchItem
    dsimp only
    split
    · rfl
    · unfold pushBatchNew
      dsimp only
      split
      · exact wheels_setShard_of_eq rfl
      · exact wheels_setShard_of_eq rfl
  have loop : ∀ (items : List PushItem) (acc : PushBatch),
      (items.foldl (pushBatchItem env now queue) acc).engine.wheels = acc.engine.wheels := by
    intro items
    induction items with
    | nil => exact fun _ => rfl
    | cons item items ih => exact fun acc => (ih _).trans (one acc item)
  unfold QueueEngine.pushBatch
  rw [wheels_checkAndTriggerCompaction]
  exact loop items _

theorem ShardState.wheel_load (opts : QueueOptions) (now : Nat) (st : ShardState) (r : WalRecord) :
    (st.load opts now r).wheel = st.wheel := by
  cases r with
  | push msgId queueName visibleAt payload =>
      rw [ShardState.load]
      split <;> rfl
  | ack msgId queueName => exact wheel_markDeleted

theorem ShardState.wheel_loadAll (opts : QueueOptions) (now : Nat) (st : ShardState)
    (records : List WalRecord) : (st.loadAll opts now records).wheel = st.wheel :=
  List.foldlRecOn (motive := fun (out : ShardState) => out.wheel = st.wheel) records
    (ShardState.load opts now) rfl fun out same r _ => (out.wheel_load opts now r).trans same

theorem wheels_pageInShard (now : Nat) (targetQueue : String) (records : List WalRecord)
    (acc : PageInChunk) (s : Fin numShards) :
    (pageInShard now targetQueue records acc s).engine.wheels = acc.engine.wheels := by
  refine wheels_setShard_of_eq ?_
  rw [state_pageInRecords]
  exact ShardState.wheel_loadAll _ _ _ _

theorem wheels_pageInChunk (now : Nat) (targetQueue : String) (e : QueueEngine)
    (records : List WalRecord) :
    (pageInChunk now targetQueue e records).engine.wheels = e.wheels := by
  funext s
  rw [QueueEngine.wheels, shards_pageInChunk]
  exact ShardState.wheel_loadAll _ _ _ _

theorem wheels_prefetch (env : Env) (e : QueueEngine) (queue : String) (now maxMessages : Nat) :
    (e.prefetch env queue now maxMessages).wheels = e.wheels :=
  prefetch_chunks (P := fun e' => e'.wheels = e.wheels) (fun _ _ same => same)
    (fun c _ same => (wheels_pageInChunk now queue c.1 c.2).trans same) rfl

theorem wheels_routeExpired (now : Nat) (e : QueueEngine) (msg : StoredMsg) :
    (routeExpired now e msg).wheels = e.wheels := by
  unfold routeExpired
  split
  · have first : (e.retireExpired msg).wheels = e.wheels := wheels_setShard_of_eq (by simp)
    have second : ((e.retireExpired msg).deadLetter now msg).wheels = (e.retireExpired msg).wheels :=
      wheels_setShard_of_eq (by rfl)
    exact second.trans first
  · exact wheels_setShard_of_eq (by rfl)

theorem wheels_routed (e : QueueEngine) (s : Fin numShards) (now : Nat) :
    (e.routed s now).wheels =
      Function.update e.wheels s ((e.wheels s).collectExpired now).1 := by
  have loop : ∀ (msgs : List StoredMsg) (e : QueueEngine),
      (msgs.foldl (routeExpired now) e).wheels = e.wheels := by
    intro msgs
    induction msgs with
    | nil => exact fun _ => rfl
    | cons msg msgs ih => exact fun e => (ih _).trans (wheels_routeExpired now e msg)
  exact (loop _ _).trans (wheels_setShard e s _)

/-- The lease of a message that was returned. -/
def PolledMessage.lease (queue : String) (expireAt : Nat) (p : PolledMessage) : InFlightItem :=
  ⟨p.id, queue, p.receiptHandle, expireAt⟩

/-- The claim loop inserts the leases of the messages it returns. -/
theorem wheel_claimOne_foldl (env : Env) (now : Nat) (queue : String) (timeout : Nat)
    (ids : List Ulid) (acc : ShardState.Claim) :
    ∃ more : List PolledMessage,
      (ids.foldl (ShardState.claimOne env now queue timeout) acc).polled = acc.polled ++ more ∧
      (ids.foldl (ShardState.claimOne env now queue timeout) acc).wheel =
        (more.map (PolledMessage.lease queue (addU64 now timeout))).foldl TimerWheel.insert
          acc.wheel := by
  induction ids generalizing acc with
  | nil => exact ⟨[], (List.append_nil _).symm, rfl⟩
  | cons id ids ih =>
      obtain ⟨more, polled, wheel⟩ := ih (ShardState.claimOne env now queue timeout acc id)
      rw [List.foldl_cons, polled, wheel]
      unfold ShardState.claimOne
      split
      · refine ⟨_ :: more, List.append_assoc _ [_] more, rfl⟩
      · exact ⟨more, rfl, rfl⟩

/-- What the claim section does to the wheels. -/
theorem wheels_claimSection (env : Env) (e : QueueEngine) (queue : String)
    (now timeout maxMessages : Nat) :
    (e.claimSection env queue now timeout maxMessages).1.wheels =
      Function.update e.wheels (shardIdx queue)
        (((e.claimSection env queue now timeout maxMessages).2.map
          (PolledMessage.lease queue (addU64 now timeout))).foldl TimerWheel.insert
            (e.wheels (shardIdx queue))) := by
  unfold claimSection
  dsimp only
  split
  · rename_i q found
    obtain ⟨more, polled, wheel⟩ := wheel_claimOne_foldl env now queue timeout
      ((q.advanceAndDrain (env.hashOrder e.draws Nat) now).popMany maxMessages).2
      ⟨(e.shards (shardIdx queue)).messages, (e.shards (shardIdx queue)).wheel, e.draws + 1, []⟩
    refine (wheels_setShard e (shardIdx queue) _).trans (congrArg _ (wheel.trans ?_))
    rw [List.nil_append] at polled
    rw [← polled]
    rfl
  · exact (Function.update_eq_self _ _).symm

theorem wheels_ackLease {queue receipt : String} {id : Ulid} {done : ShardState × Bool}
    (success : st.ackLease queue id receipt = some done) :
    done.1.wheel = (st.wheel.removeIfValid id receipt).1 := by
  unfold ShardState.ackLease at success
  dsimp only at success
  split at success
  · split at success
    · cases success
      simp
    · cases success
      rfl
  · cases success

theorem wheels_ackUnchecked {e done : QueueEngine} {queue receipt : String} {id : Ulid}
    (success : e.ackUnchecked queue id receipt = some done) :
    done.wheels = Function.update e.wheels (shardIdx queue)
      ((e.wheels (shardIdx queue)).removeIfValid id receipt).1 := by
  unfold QueueEngine.ackUnchecked at success
  split at success
  · cases success
  · rename_i st wasLive acked
    cases success
    refine (wheels_setShard e (shardIdx queue) st).trans ?_
    exact congrArg _ (wheels_ackLease acked)

/-- What a batch of acks does to the wheels. -/
theorem wheels_ackBatchItem_foldl (queue : String) (items : List (Ulid × String)) (acc : AckBatch) :
    ∃ accepted : List (Ulid × String),
      (items.foldl (ackBatchItem queue) acc).engine.wheels =
        Function.update acc.engine.wheels (shardIdx queue)
          (accepted.foldl (fun w item => (w.removeIfValid item.1 item.2).1)
            (acc.engine.wheels (shardIdx queue))) := by
  induction items generalizing acc with
  | nil => exact ⟨[], (Function.update_eq_self _ _).symm⟩
  | cons item items ih =>
      obtain ⟨accepted, wheels⟩ := ih (ackBatchItem queue acc item)
      rw [List.foldl_cons, wheels]
      cases outcome : (acc.engine.shards (shardIdx queue)).ackLease queue item.1 item.2 with
      | none => exact ⟨accepted, by simp [ackBatchItem, outcome]⟩
      | some done =>
          have here : (ackBatchItem queue acc item).engine.wheels =
              Function.update acc.engine.wheels (shardIdx queue)
                ((acc.engine.wheels (shardIdx queue)).removeIfValid item.1 item.2).1 := by
            simp only [ackBatchItem, outcome]
            refine (wheels_setShard _ (shardIdx queue) done.1).trans ?_
            exact congrArg _ (wheels_ackLease outcome)
          refine ⟨item :: accepted, ?_⟩
          rw [here, Function.update_idem, Function.update_self, List.foldl_cons]

theorem wheels_openDir (env : Env) (dir : DataDir) (opts : QueueOptions) (baseEpochSec draws : Nat) :
    (QueueEngine.openDir env dir opts baseEpochSec draws).wheels = fun _ => .new 3600 := by
  have update : ∀ {shards : Fin numShards → ShardState} {s : Fin numShards} {st : ShardState},
      (∀ t, (shards t).wheel = .new 3600) → st.wheel = (shards s).wheel →
      ∀ t, (Function.update shards s st t).wheel = .new 3600 := by
    intro shards s st h same t
    by_cases here : t = s
    · subst here
      rw [Function.update_self, same]
      exact h t
    · rw [Function.update_of_ne here]
      exact h t
  have loop : ∀ (records : List WalRecord) (acc : Replay),
      (∀ s, (acc.shards s).wheel = .new 3600) →
      ∀ s, ((records.foldl (replayRecord opts baseEpochSec) acc).shards s).wheel = .new 3600 := by
    intro records
    induction records with
    | nil => exact fun _ h => h
    | cons r records ih =>
        intro acc h
        refine ih _ ?_
        cases r with
        | push msgId queueName visibleAt payload =>
            simp only [replayRecord]
            split
            · exact update h rfl
            · exact update h rfl
        | ack msgId queueName => exact update h (by simp [ShardState.applyAck])
  funext s
  exact loop _ _ (fun _ => rfl) s

end Wheels

/-! ## What an operation does to the wheels -/

/-- The messages an operation returns. -/
def World.issued (env : Env) (w : World) : NodeOp → List PolledMessage
  | .engine (.poll queue visibilitySec maxMessages) =>
      (w.engine.poll env w.clock queue visibilitySec maxMessages).2
  | _ => []

/-- An operation leaves the wheels, empties them, removes leases of a shard, or is a
poll: it sweeps its shard and inserts the leases it returns. -/
inductive Turns (env : Env) (w : World) (op : NodeOp) (wheels : Fin numShards → TimerWheel) : Prop
  | still : wheels = w.engine.wheels → Turns env w op wheels
  | emptied : wheels = (fun _ => .new 3600) → Turns env w op wheels
  | acked (s : Fin numShards) (items : List (Ulid × String)) :
      wheels = Function.update w.engine.wheels s
        (items.foldl (fun w item => (w.removeIfValid item.1 item.2).1) (w.engine.wheels s)) →
      Turns env w op wheels
  | polled (queue : String) (visibilitySec maxMessages : Nat) :
      op = .engine (.poll queue visibilitySec maxMessages) →
      wheels = Function.update w.engine.wheels (shardIdx queue)
        (((w.issued env op).map (PolledMessage.lease queue
          (addU64 w.clock (w.engine.visibility visibilitySec)))).foldl TimerWheel.insert
            ((w.engine.wheels (shardIdx queue)).collectExpired w.clock).1) →
      Turns env w op wheels

/-- A poll sweeps its shard and inserts the leases of the messages it returns. -/
theorem wheels_poll (env : Env) (e : QueueEngine) (now : Nat) (queue : String)
    (visibilitySec maxMessages : Nat) :
    (e.poll env now queue visibilitySec maxMessages).1.wheels =
      Function.update e.wheels (shardIdx queue)
        (((e.poll env now queue visibilitySec maxMessages).2.map
          (PolledMessage.lease queue (addU64 now (e.visibility visibilitySec)))).foldl
            TimerWheel.insert ((e.wheels (shardIdx queue)).collectExpired now).1) := by
  have claimed := wheels_claimSection env (e.polling env now queue maxMessages) queue now
    (e.visibility visibilitySec) maxMessages
  have polling : (e.polling env now queue maxMessages).wheels =
      Function.update e.wheels (shardIdx queue)
        ((e.wheels (shardIdx queue)).collectExpired now).1 :=
    (wheels_prefetch env _ queue now maxMessages).trans (wheels_routed e (shardIdx queue) now)
  rw [polling, Function.update_idem, Function.update_self] at claimed
  rw [← poll_eq] at claimed
  exact claimed

theorem World.nodeStep_turns (env : Env) (w : World) (op : NodeOp) :
    Turns env w op (w.nodeStep env op).engine.wheels := by
  cases op with
  | engine op =>
      cases op with
      | push queue id payload delaySec =>
          exact .still (wheels_pushWithUlid env w.engine w.clock queue id payload delaySec)
      | pushBatch queue items => exact .still (wheels_pushBatch env w.engine w.clock queue items)
      | poll queue visibilitySec maxMessages =>
          exact .polled queue visibilitySec maxMessages rfl
            (wheels_poll env w.engine w.clock queue visibilitySec maxMessages)
      | ack queue messageId receipt =>
          simp only [World.nodeStep, World.step, World.exec, QueueEngine.ack]
          split
          · exact .still rfl
          · rename_i done success
            obtain ⟨id, _, success⟩ := Option.bind_eq_some_iff.1 success
            refine .acked (shardIdx queue) [(id, receipt)] ?_
            exact (wheels_checkAndTriggerCompaction env done).trans (wheels_ackUnchecked success)
      | ackBatch queue items =>
          obtain ⟨accepted, wheels⟩ :=
            wheels_ackBatchItem_foldl queue (parsedItems env items) ⟨w.engine, 0, []⟩
          have unchecked : (w.engine.ackBatchUnchecked env queue items).wheels =
              (ackBatchLoop env w.engine queue items).engine.wheels := by
            refine wheels_congr ?_
            unfold ackBatchUnchecked
            dsimp only
            split <;> rfl
          refine .acked (shardIdx queue) accepted ((wheels_checkAndTriggerCompaction env
            (w.engine.ackBatchUnchecked env queue items)).trans ?_)
          rw [unchecked]
          exact wheels
      | advance seconds => exact .still rfl
  | ackFollower queue messageId =>
      refine .still ?_
      simp only [World.nodeStep, QueueEngine.ackFollower]
      split
      · rfl
      · split
        · rw [wheels_checkAndTriggerCompaction]
          exact wheels_setShard_of_eq (by simp [ShardState.applyAck])
        · exact wheels_setShard_of_eq (by simp [ShardState.applyAck])
  | clearForRaftRecovery => exact .emptied rfl
  | reopen => exact .emptied (wheels_openDir env _ _ _ _)

/-! ## One receipt in an engine -/

/-- No shard has a lease with the receipt. -/
def QueueEngine.Free (e : QueueEngine) (receipt : String) : Prop := ∀ s, (e.wheels s).Free receipt

/-- Only the shard given can have a lease with the receipt. -/
structure QueueEngine.Ticking (e : QueueEngine) (home : Fin numShards) (receipt : String)
    (expireAt : Nat) : Prop where
  here : (e.wheels home).Ticking receipt expireAt
  elsewhere : ∀ s, s ≠ home → (e.wheels s).Free receipt

/-- The operation is a poll of the shard at or after the time given. -/
def NodeOp.Sweeps (home : Fin numShards) (expireAt : Nat) (w : World) : NodeOp → Prop
  | .engine (.poll queue _ _) => shardIdx queue = home ∧ expireAt ≤ w.clock
  | _ => False

instance (home : Fin numShards) (expireAt : Nat) (w : World) :
    (op : NodeOp) → Decidable (op.Sweeps home expireAt w)
  | .engine (.poll queue _ _) => inferInstanceAs (Decidable (shardIdx queue = home ∧ expireAt ≤ w.clock))
  | .engine (.push ..) | .engine (.pushBatch ..) | .engine (.ack ..) | .engine (.ackBatch ..)
  | .engine (.advance ..) | .ackFollower .. | .clearForRaftRecovery | .reopen => isFalse id

/-- The operation is a poll of the shard whose leases expire at the time given. -/
def NodeOp.Leases (home : Fin numShards) (expireAt : Nat) (w : World) : NodeOp → Prop
  | .engine (.poll queue visibilitySec _) =>
      shardIdx queue = home ∧ addU64 w.clock (w.engine.visibility visibilitySec) = expireAt
  | _ => False

section Receipt

variable {env : Env} {w : World} {op : NodeOp} {home : Fin numShards} {receipt : String}
  {expireAt : Nat}

theorem TimerWheel.Free.insert_foldl {wheel : TimerWheel} (h : wheel.Free receipt)
    {leases : List InFlightItem} (others : receipt ∉ leases.map (·.receipt)) :
    (leases.foldl TimerWheel.insert wheel).Free receipt := by
  induction leases generalizing wheel with
  | nil => exact h
  | cons item leases ih =>
      simp only [List.map_cons, List.mem_cons, not_or] at others
      exact ih (h.insert (Ne.symm others.1)) others.2

theorem TimerWheel.Ticking.insert_foldl {wheel : TimerWheel} (h : wheel.Ticking receipt expireAt)
    {leases : List InFlightItem}
    (new : ∀ item ∈ leases, item.receipt = receipt →
      item.expireAt = expireAt ∧ 0 < wheel.lastCheckedSec ∧ wheel.lastCheckedSec < expireAt) :
    (leases.foldl TimerWheel.insert wheel).Ticking receipt expireAt := by
  induction leases generalizing wheel with
  | nil => exact h
  | cons item leases ih =>
      refine ih (h.insert (new item List.mem_cons_self)) fun other member => ?_
      exact new other (List.mem_cons_of_mem item member)

theorem TimerWheel.Free.removeIfValid_foldl {wheel : TimerWheel} (h : wheel.Free receipt)
    (items : List (Ulid × String)) :
    (items.foldl (fun w item => (w.removeIfValid item.1 item.2).1) wheel).Free receipt := by
  induction items generalizing wheel with
  | nil => exact h
  | cons item items ih => exact ih (h.removeIfValid item.1 item.2)

theorem TimerWheel.Ticking.removeIfValid_foldl {wheel : TimerWheel}
    (h : wheel.Ticking receipt expireAt) (items : List (Ulid × String)) :
    (items.foldl (fun w item => (w.removeIfValid item.1 item.2).1) wheel).Ticking receipt
      expireAt := by
  induction items generalizing wheel with
  | nil => exact h
  | cons item items ih => exact ih (h.removeIfValid item.1 item.2)

theorem receipts_lease (queue : String) (expireAt : Nat) (polled : List PolledMessage) :
    (polled.map (PolledMessage.lease queue expireAt)).map (·.receipt) =
      polled.map (·.receiptHandle) := by
  rw [List.map_map]
  rfl

theorem QueueEngine.Free.ticking {e : QueueEngine} (h : e.Free receipt) (home : Fin numShards)
    (expireAt : Nat) : e.Ticking home receipt expireAt :=
  ⟨(h home).ticking expireAt, fun s _ => h s⟩

/-- A receipt that is nowhere stays so until it is issued. -/
theorem QueueEngine.Free.nodeStep (h : w.engine.Free receipt)
    (other : receipt ∉ (w.issued env op).map (·.receiptHandle)) :
    (w.nodeStep env op).engine.Free receipt := by
  intro s
  cases World.nodeStep_turns env w op with
  | still wheels =>
      rw [wheels]
      exact h s
  | emptied wheels =>
      rw [wheels]
      exact .new 3600
  | acked t items wheels =>
      rw [wheels]
      by_cases here : s = t
      · subst here
        rw [Function.update_self]
        exact (h s).removeIfValid_foldl items
      · rw [Function.update_of_ne here]
        exact h s
  | polled queue visibilitySec maxMessages is wheels =>
      rw [wheels]
      by_cases here : s = shardIdx queue
      · subst here
        rw [Function.update_self]
        refine ((h _).collectExpired w.clock).insert_foldl ?_
        rwa [receipts_lease]
      · rw [Function.update_of_ne here]
        exact h s

/-- A lease ticks until a sweep of its shard finds it due; its receipt is issued by one
poll only. -/
theorem QueueEngine.Ticking.nodeStep (h : w.engine.Ticking home receipt expireAt)
    (started : 0 < w.clock) (early : ¬ op.Sweeps home expireAt w)
    (issued : receipt ∈ (w.issued env op).map (·.receiptHandle) → op.Leases home expireAt w) :
    (w.nodeStep env op).engine.Ticking home receipt expireAt := by
  cases World.nodeStep_turns env w op with
  | still wheels =>
      obtain ⟨here, elsewhere⟩ := h
      rw [← wheels] at here elsewhere
      exact ⟨here, elsewhere⟩
  | emptied wheels =>
      refine ⟨?_, fun s _ => ?_⟩
      · rw [wheels]
        exact (TimerWheel.Free.new 3600).ticking expireAt
      · rw [wheels]
        exact .new 3600
  | acked t items wheels =>
      refine ⟨?_, fun s other => ?_⟩
      · rw [wheels]
        by_cases here : home = t
        · subst here
          rw [Function.update_self]
          exact h.here.removeIfValid_foldl items
        · rw [Function.update_of_ne here]
          exact h.here
      · rw [wheels]
        by_cases here : s = t
        · subst here
          rw [Function.update_self]
          exact (h.elsewhere s other).removeIfValid_foldl items
        · rw [Function.update_of_ne here]
          exact h.elsewhere s other
  | polled queue visibilitySec maxMessages is wheels =>
      subst is
      refine ⟨?_, fun s other => ?_⟩
      · rw [wheels]
        by_cases here : home = shardIdx queue
        · have before : w.clock < expireAt := by
            refine Nat.lt_of_not_le fun due => early ⟨here.symm, due⟩
          rw [here, Function.update_self]
          rw [here] at h issued
          refine (h.here.collectExpired started before).insert_foldl fun item member same => ?_
          obtain ⟨p, returned, rfl⟩ := List.mem_map.1 member
          obtain ⟨_, expiry⟩ := issued (List.mem_map.2 ⟨p, returned, same⟩)
          rw [TimerWheel.lastCheckedSec_collectExpired]
          exact ⟨expiry, started, before⟩
        · rw [Function.update_of_ne here]
          exact h.here
      · rw [wheels]
        by_cases here : s = shardIdx queue
        · subst here
          rw [Function.update_self]
          refine ((h.elsewhere _ other).collectExpired w.clock).insert_foldl fun member => ?_
          rw [receipts_lease] at member
          exact other (issued member).1
        · rw [Function.update_of_ne here]
          exact h.elsewhere s other

/-- A sweep of its shard that finds the lease due takes it out. -/
theorem QueueEngine.Ticking.swept (h : w.engine.Ticking home receipt expireAt)
    (sweeps : op.Sweeps home expireAt w)
    (other : receipt ∉ (w.issued env op).map (·.receiptHandle)) :
    (w.nodeStep env op).engine.Free receipt := by
  intro s
  cases op with
  | engine op =>
      cases op with
      | poll queue visibilitySec maxMessages =>
          obtain ⟨rfl, due⟩ := sweeps
          show ((w.engine.poll env w.clock queue visibilitySec maxMessages).1.wheels s).Free receipt
          rw [wheels_poll]
          by_cases here : s = shardIdx queue
          · subst here
            rw [Function.update_self]
            refine (h.here.free_collectExpired due).insert_foldl ?_
            rwa [receipts_lease]
          · rw [Function.update_of_ne here]
            exact h.elsewhere s here
      | push | pushBatch | ack | ackBatch | advance => exact sweeps.elim
  | ackFollower | clearForRaftRecovery | reopen => exact sweeps.elim

/-- An ack with a receipt that no lease has changes nothing. -/
theorem QueueEngine.Free.ackLease {e : QueueEngine} (h : e.Free receipt) (queue : String) (id : Ulid) :
    (e.shards (shardIdx queue)).ackLease queue id receipt = none := by
  have refused := (h (shardIdx queue)).removeIfValid_eq id
  unfold QueueEngine.wheels at refused
  unfold ShardState.ackLease
  simp [refused]

theorem QueueEngine.Free.ack {e : QueueEngine} (h : e.Free receipt) (env : Env)
    (queue messageId : String) : e.ack env queue messageId receipt = (e, false) := by
  unfold QueueEngine.ack
  have refused : ∀ id, e.ackUnchecked queue id receipt = none := by
    intro id
    unfold QueueEngine.ackUnchecked
    rw [h.ackLease queue id]
  have none : ((parseIdFast env messageId).bind fun id => e.ackUnchecked queue id receipt) = none :=
    Option.bind_eq_none_iff.2 fun id _ => refused id
  rw [none]

/-- In a batch, an item with such a receipt is as if it were not there. -/
theorem QueueEngine.Free.ackBatch {e : QueueEngine} (h : e.Free receipt) (env : Env)
    (queue : String) (items : List (String × String)) :
    e.ackBatch env queue items =
      e.ackBatch env queue (items.filter fun item => item.2 ≠ receipt) := by
  have loop : ∀ (items : List (Ulid × String)) (acc : AckBatch), acc.engine.Free receipt →
      items.foldl (ackBatchItem queue) acc =
        (items.filter fun item => item.2 ≠ receipt).foldl (ackBatchItem queue) acc := by
    intro items
    induction items with
    | nil => exact fun _ _ => rfl
    | cons item items ih =>
        intro acc free
        by_cases same : item.2 = receipt
        · have skipped : ackBatchItem queue acc item = acc := by
            unfold ackBatchItem
            rw [same, free.ackLease queue item.1]
          rw [List.foldl_cons, skipped, List.filter_cons_of_neg (by simpa using same)]
          exact ih acc free
        · rw [List.filter_cons_of_pos (by simpa using same), List.foldl_cons, List.foldl_cons]
          refine ih _ fun s => ?_
          obtain ⟨accepted, wheels⟩ := wheels_ackBatchItem_foldl queue [item] acc
          rw [List.foldl_cons, List.foldl_nil] at wheels
          rw [wheels]
          by_cases here : s = shardIdx queue
          · subst here
            rw [Function.update_self]
            exact (free _).removeIfValid_foldl accepted
          · rw [Function.update_of_ne here]
            exact free s
  have parsed : parsedItems env (items.filter fun item => item.2 ≠ receipt) =
      (parsedItems env items).filter fun item => item.2 ≠ receipt := by
    unfold parsedItems
    rw [List.filter_filterMap, List.filterMap_filter]
    refine List.filterMap_congr fun item _ => ?_
    cases parseIdFast env item.1 with
    | none => simp
    | some id => by_cases same : item.2 = receipt <;> simp [same, Option.filter]
  have same : ackBatchLoop env e queue items =
      ackBatchLoop env e queue (items.filter fun item => item.2 ≠ receipt) := by
    unfold ackBatchLoop
    rw [parsed]
    exact loop (parsedItems env items) ⟨e, 0, []⟩ h
  unfold QueueEngine.ackBatch ackBatchUnchecked
  rw [same]

end Receipt

/-! ## Runs -/

/-- The receipts issued along a run. -/
def World.receipts (env : Env) : World → List NodeOp → List String
  | _, [] => []
  | w, op :: ops =>
      (w.issued env op).map (·.receiptHandle) ++ World.receipts env (w.nodeStep env op) ops

/-- Some operation of the run sweeps the shard at or after the time given. -/
def World.SweptBy (env : Env) (home : Fin numShards) (expireAt : Nat) :
    World → List NodeOp → Prop
  | _, [] => False
  | w, op :: ops => op.Sweeps home expireAt w ∨ World.SweptBy env home expireAt (w.nodeStep env op) ops

instance World.SweptBy.decidable (env : Env) (home : Fin numShards) (expireAt : Nat) :
    (w : World) → (ops : List NodeOp) → Decidable (World.SweptBy env home expireAt w ops)
  | _, [] => isFalse id
  | w, _ :: ops => @instDecidableOr _ _ inferInstance
      (World.SweptBy.decidable env home expireAt (w.nodeStep env _) ops)

section Runs

variable {env : Env} {w : World} {home : Fin numShards} {receipt : String} {expireAt : Nat}

theorem World.receipts_append (env : Env) (w : World) (ops more : List NodeOp) :
    World.receipts env w (ops ++ more) =
      World.receipts env w ops ++ World.receipts env (ops.foldl (World.nodeStep env) w) more := by
  induction ops generalizing w with
  | nil => rfl
  | cons op ops ih => simp [World.receipts, ih]

theorem World.clock_le_nodeStep (env : Env) (w : World) (op : NodeOp) :
    w.clock ≤ (w.nodeStep env op).clock := by
  cases op with
  | engine op => exact World.clock_le_step env w op
  | ackFollower | clearForRaftRecovery | reopen => exact le_rfl

theorem World.clock_le_nodeRun (env : Env) (w : World) (ops : List NodeOp) :
    w.clock ≤ (ops.foldl (World.nodeStep env) w).clock := by
  induction ops generalizing w with
  | nil => exact le_rfl
  | cons op ops ih => exact (World.clock_le_nodeStep env w op).trans (ih _)

theorem QueueEngine.Free.nodeRun {ops : List NodeOp} (h : w.engine.Free receipt)
    (other : receipt ∉ World.receipts env w ops) :
    (ops.foldl (World.nodeStep env) w).engine.Free receipt := by
  induction ops generalizing w with
  | nil => exact h
  | cons op ops ih =>
      simp only [World.receipts, List.mem_append, not_or] at other
      exact ih (h.nodeStep other.1) other.2

/-- After a sweep that finds it due the lease is gone for good. -/
theorem QueueEngine.Ticking.nodeRun {ops : List NodeOp}
    (h : w.engine.Ticking home receipt expireAt) (started : 0 < w.clock)
    (other : receipt ∉ World.receipts env w ops) (swept : World.SweptBy env home expireAt w ops) :
    (ops.foldl (World.nodeStep env) w).engine.Free receipt := by
  induction ops generalizing w with
  | nil => exact swept.elim
  | cons op ops ih =>
      simp only [World.receipts, List.mem_append, not_or] at other
      by_cases now : op.Sweeps home expireAt w
      · exact (h.swept now other.1).nodeRun other.2
      · refine ih (h.nodeStep started now fun issued => absurd issued other.1)
          (started.trans_le (World.clock_le_nodeStep env w op)) other.2 (swept.resolve_left now)

theorem World.SweptBy.le_clock {ops : List NodeOp} (swept : World.SweptBy env home expireAt w ops) :
    expireAt ≤ (ops.foldl (World.nodeStep env) w).clock := by
  induction ops generalizing w with
  | nil => exact swept.elim
  | cons op ops ih =>
      rcases swept with now | later
      · cases op with
        | engine op =>
            cases op with
            | poll queue visibilitySec maxMessages =>
                exact now.2.trans (World.clock_le_nodeRun env w (_ :: ops))
            | push | pushBatch | ack | ackBatch | advance => exact now.elim
        | ackFollower | clearForRaftRecovery | reopen => exact now.elim
      · exact ih later

/-- A lease of `v` seconds issued at time `t` is gone once a poll of its shard has run at
or after `t + v`. -/
theorem QueueEngine.Free.issue_swept {queue : String} {visibilitySec maxMessages : Nat}
    {later : List NodeOp} (h : w.engine.Free receipt) (started : 0 < w.clock)
    (leased : 1 ≤ w.engine.visibility visibilitySec)
    (other : receipt ∉ World.receipts env
      (w.nodeStep env (.engine (.poll queue visibilitySec maxMessages))) later)
    (swept : World.SweptBy env (shardIdx queue) (w.clock + w.engine.visibility visibilitySec)
      (w.nodeStep env (.engine (.poll queue visibilitySec maxMessages))) later)
    (fits : (later.foldl (World.nodeStep env)
      (w.nodeStep env (.engine (.poll queue visibilitySec maxMessages)))).clock < 2 ^ 64) :
    (later.foldl (World.nodeStep env)
      (w.nodeStep env (.engine (.poll queue visibilitySec maxMessages)))).engine.Free receipt := by
  have expiry : addU64 w.clock (w.engine.visibility visibilitySec) =
      w.clock + w.engine.visibility visibilitySec :=
    Nat.mod_eq_of_lt (swept.le_clock.trans_lt fits)
  have ticking : (w.nodeStep env
      (.engine (.poll queue visibilitySec maxMessages))).engine.Ticking (shardIdx queue) receipt
        (w.clock + w.engine.visibility visibilitySec) := by
    refine (h.ticking (shardIdx queue) _).nodeStep started (fun sweeps => ?_) fun _ => ⟨rfl, expiry⟩
    have due := sweeps.2
    omega
  exact ticking.nodeRun (started.trans_le (World.clock_le_nodeStep env w _)) other swept

end Runs

theorem World.free_fresh (env : Env) (opts : QueueOptions) (clock : Nat) (receipt : String) :
    (World.fresh env opts clock).engine.Free receipt := by
  intro s
  have wheels := wheels_openDir env .empty opts clock 0
  show ((QueueEngine.openDir env .empty opts clock 0).wheels s).Free receipt
  rw [wheels]
  exact .new 3600

/-- In every run, once a poll of its shard has run at or after `t + v`, an ack with the
receipt of a lease issued at time `t` for `v` seconds is refused and changes nothing,
and an item of a batch with that receipt counts for nothing. -/
theorem World.ack_expired {env : Env} {opts : QueueOptions} {clock : Nat} {before later : List NodeOp}
    {queue : String} {visibilitySec maxMessages : Nat} (started : 0 < clock)
    (distinct : (World.receipts env (World.fresh env opts clock)
      (before ++ .engine (.poll queue visibilitySec maxMessages) :: later)).Nodup) :
    let w := before.foldl (World.nodeStep env) (World.fresh env opts clock)
    let last := later.foldl (World.nodeStep env)
      (w.nodeStep env (.engine (.poll queue visibilitySec maxMessages)))
    ∀ p ∈ (w.engine.poll env w.clock queue visibilitySec maxMessages).2,
      1 ≤ w.engine.visibility visibilitySec →
      World.SweptBy env (shardIdx queue) (w.clock + w.engine.visibility visibilitySec)
        (w.nodeStep env (.engine (.poll queue visibilitySec maxMessages))) later →
      last.clock < 2 ^ 64 →
      ∀ queue',
        (∀ messageId,
          last.engine.ack env queue' messageId p.receiptHandle = (last.engine, false)) ∧
        ∀ items, last.engine.ackBatch env queue' items =
          last.engine.ackBatch env queue' (items.filter fun item => item.2 ≠ p.receiptHandle) := by
  intro w last p issued leased swept fits queue'
  rw [World.receipts_append, World.receipts] at distinct
  have mine : p.receiptHandle ∈
      (w.issued env (.engine (.poll queue visibilitySec maxMessages))).map (·.receiptHandle) :=
    List.mem_map_of_mem issued
  obtain ⟨_, rest, apart⟩ := List.nodup_append.1 distinct
  obtain ⟨_, _, apart'⟩ := List.nodup_append.1 rest
  have unused : w.engine.Free p.receiptHandle :=
    (World.free_fresh env opts clock p.receiptHandle).nodeRun fun member =>
      apart _ member _ (List.mem_append_left _ mine) rfl
  have late := World.clock_le_nodeRun env (World.fresh env opts clock) before
  have free : last.engine.Free p.receiptHandle :=
    unused.issue_swept (started.trans_le late) leased
      (fun member => apart' _ mine _ member rfl) swept fits
  exact ⟨free.ack env queue', free.ackBatch env queue'⟩

/-- A lease that has run out is still acked when no poll has looked. -/
theorem World.ack_expired_unswept :
    let w := (World.fresh .sample .default 1600000000).run .sample
      [.push "jobs" 1 [7] 0, .poll "jobs" 30 1, .advance 31]
    let receipt := ulidText (Env.sample.ulidNew 1)
    w.clock = 1600000000 + 31 ∧
      (w.engine.ack .sample "jobs" (ulidText 1) receipt).2 = true := by
  decide +kernel

/-- A poll of another queue of the shard, after the lease of `jobs` ran out. -/
theorem World.ack_expired_sample :
    let w := [NodeOp.engine (.push "jobs" 1 [7] 0)].foldl (World.nodeStep .sample)
      (World.fresh .sample .default 1600000000)
    let last := [NodeOp.engine (.advance 30), .engine (.poll "jobs2" 30 1)].foldl
      (World.nodeStep .sample) (w.nodeStep .sample (.engine (.poll "jobs" 30 1)))
    let receipt := ulidText (Env.sample.ulidNew 1)
    (w.engine.poll .sample w.clock "jobs" 30 1).2 = [⟨1, ulidText 1, [7], receipt, 1⟩] ∧
      last.engine.ack .sample "jobs" (ulidText 1) receipt = (last.engine, false) := by
  intro w last receipt
  have issued : (w.engine.poll .sample w.clock "jobs" 30 1).2 =
      [⟨1, ulidText 1, [7], receipt, 1⟩] := by decide +kernel
  refine ⟨issued, ?_⟩
  have distinct : (World.receipts .sample (World.fresh .sample .default 1600000000)
      ([.engine (.push "jobs" 1 [7] 0)] ++ .engine (.poll "jobs" 30 1) ::
        [.engine (.advance 30), .engine (.poll "jobs2" 30 1)])).Nodup := by decide +kernel
  exact (World.ack_expired (by decide) distinct ⟨1, ulidText 1, [7], receipt, 1⟩
    (by decide +kernel) (by decide +kernel) (by decide +kernel) (by decide +kernel) "jobs").1
      (ulidText 1)

end WalrQueue
