import WalrQueue.Lib.Simulation
import WalrQueue.EngineFrames
import WalrQueue.Run
import WalrQueue.ClientRouting

/-!
# The push buffer of the client

Every worker of `WalrClient::with_config` collects pushes by queue and hands a
batch to `flush_queue_batch` when it is full, and everything it holds at each
tick of its window.  The answer to a batch goes back to the callers by position,
over one channel per caller.

A channel is a number here.  Its caller gets the first result that is sent on it,
and `ChannelClosed` when the sender is dropped without one.
-/

namespace WalrQueue.Client

open Simulation

/-- What a worker keeps of a `BufferedPushItem`: all but the queue.  `tx` is the caller's
channel. -/
structure BufferedItem where
  messageId : Option String
  payload : List UInt8
  delaySeconds : Nat
  tx : Nat
  deriving DecidableEq

/-- What wakes a worker. -/
inductive BufferEvent where
  | recv (queue : String) (item : BufferedItem)
  | tick

/-- `queues_map`, and the `HashMap` orders drawn so far. -/
structure BufferWorker where
  queuesMap : FMap String (List BufferedItem)
  draws : Nat

namespace BufferWorker

/-- One turn of the worker's loop: its new state and the batches it hands over. -/
def exec (env : Env) (maxBatch : Nat) (w : BufferWorker) :
    BufferEvent → BufferWorker × List (String × List BufferedItem)
  | .recv queue item =>
      let list := FMap.getD w.queuesMap queue [] ++ [item]
      let queuesMap := AList.insert queue list w.queuesMap
      if maxBatch ≤ list.length then
        ({ w with queuesMap := AList.erase queue queuesMap }, [(queue, list)])
      else ({ w with queuesMap }, [])
  | .tick =>
      if w.queuesMap.entries ≠ [] then
        let drained := env.hashOrder w.draws _ w.queuesMap.entries
        (⟨∅, w.draws + 1⟩,
          (drained.filter fun entry => entry.2 ≠ []).map fun entry => (entry.1, entry.2))
      else (w, [])

/-- A worker before its first event. -/
def new : BufferWorker := ⟨∅, 0⟩

/-- The items still buffered for a queue. -/
def buffered (w : BufferWorker) (queue : String) : List BufferedItem :=
  FMap.getD w.queuesMap queue []

/-- The batches handed over in a run, in order. -/
def handed (env : Env) (maxBatch : Nat) (w : BufferWorker) (events : List BufferEvent) :
    List (String × List BufferedItem) :=
  (answers (exec env maxBatch) w events).flatten

end BufferWorker

/-- The items of one queue in a list of batches. -/
def flushed (queue : String) (batches : List (String × List BufferedItem)) : List BufferedItem :=
  (batches.filter fun batch => batch.1 = queue).flatMap Prod.snd

/-- The items that arrive for one queue. -/
def arrived (queue : String) (events : List BufferEvent) : List BufferedItem :=
  events.filterMap fun
    | .recv name item => if name = queue then some item else none
    | .tick => none

/-- The channels of all items that arrive. -/
def channels (events : List BufferEvent) : List Nat :=
  events.filterMap fun
    | .recv _ item => some item.tx
    | .tick => none

theorem flushed_append (queue : String) (xs ys : List (String × List BufferedItem)) :
    flushed queue (xs ++ ys) = flushed queue xs ++ flushed queue ys := by
  simp [flushed]

theorem arrived_cons (queue : String) (event : BufferEvent) (events : List BufferEvent) :
    arrived queue (event :: events) = arrived queue [event] ++ arrived queue events := by
  rw [arrived, ← List.singleton_append, List.filterMap_append]
  rfl

/-! ## Nothing is lost or reordered -/

namespace BufferWorker

variable {env : Env} {maxBatch : Nat} {w : BufferWorker}

/-- Draining takes over the list of each queue as it is. -/
theorem flushed_drained {drained : List (Sigma fun _ : String => List BufferedItem)}
    (order : drained.Perm w.queuesMap.entries) (queue : String) :
    flushed queue ((drained.filter fun entry => entry.2 ≠ []).map fun entry =>
      (entry.1, entry.2)) = w.buffered queue := by
  have own := FMap.filter_key_of_perm order queue
  have swap : flushed queue ((drained.filter fun entry => entry.2 ≠ []).map fun entry =>
      (entry.1, entry.2)) =
      ((drained.filter fun entry => entry.1 = queue).filter fun entry =>
        entry.2 ≠ []).flatMap fun entry => entry.2 := by
    rw [flushed, List.filter_map, List.flatMap_map, List.filter_filter, List.filter_filter]
    simp only [Function.comp_def, Bool.and_comm]
  rw [swap, own, buffered, FMap.getD]
  cases AList.lookup queue w.queuesMap with
  | none => rfl
  | some list =>
      by_cases empty : list = []
      · simp [empty]
      · simp [empty]

/-- One event hands over and buffers what was buffered and what arrives, in this order. -/
theorem flushed_exec (env : Env) (maxBatch : Nat) (w : BufferWorker) (event : BufferEvent)
    (queue : String) :
    flushed queue (exec env maxBatch w event).2 ++ (exec env maxBatch w event).1.buffered queue =
      w.buffered queue ++ arrived queue [event] := by
  cases event with
  | recv name item =>
      unfold exec
      dsimp only
      by_cases same : queue = name
      · subst same
        split
        · simp [flushed, arrived, buffered, FMap.getD]
        · simp [flushed, arrived, buffered, FMap.getD]
      · have other : name ≠ queue := Ne.symm same
        split
        · simp [flushed, arrived, buffered, FMap.getD, same, other]
        · simp [flushed, arrived, buffered, FMap.getD, same, other]
  | tick =>
      unfold exec
      dsimp only
      split
      · rw [flushed_drained (env.hashOrder_perm _ _ _)]
        simp [buffered, arrived, FMap.getD]
      · simp [flushed, arrived]

theorem flushed_handed (env : Env) (maxBatch : Nat) (w : BufferWorker)
    (events : List BufferEvent) (queue : String) :
    flushed queue (handed env maxBatch w events) ++
        (after (exec env maxBatch) w events).buffered queue =
      w.buffered queue ++ arrived queue events := by
  induction events generalizing w with
  | nil => simp [handed, answers, after, flushed, arrived]
  | cons event events ih =>
      have rest := ih (exec env maxBatch w event).1
      have step := flushed_exec env maxBatch w event queue
      rw [arrived_cons, ← List.append_assoc, ← step, List.append_assoc, ← rest,
        ← List.append_assoc, ← flushed_append]
      rfl

/-! ## No batch is too long -/

/-- No list of the buffer has reached the size at which it is handed over. -/
def Short (maxBatch : Nat) (w : BufferWorker) : Prop :=
  ∀ queue, (w.buffered queue).length < max 1 maxBatch

theorem Short.exec (short : Short maxBatch w) (env : Env) (event : BufferEvent) :
    Short maxBatch (exec env maxBatch w event).1 ∧
      ∀ batch ∈ (exec env maxBatch w event).2, batch.2.length ≤ max 1 maxBatch := by
  cases event with
  | recv name item =>
      have before := short name
      unfold BufferWorker.exec
      dsimp only
      split
      · refine ⟨fun queue => ?_, fun batch inside => ?_⟩
        · rw [buffered, FMap.getD, FMap.lookup_erase_ite]
          split
          · simp
          · rename_i other
            rw [FMap.lookup_insert_ite, if_neg other]
            exact short queue
        · cases List.mem_singleton.1 inside
          rw [List.length_append, List.length_singleton]
          exact before
      · rename_i few
        refine ⟨fun queue => ?_, fun _ none => by cases none⟩
        rw [buffered, FMap.getD, FMap.lookup_insert_ite]
        split
        · exact lt_max_of_lt_right (not_le.1 few)
        · exact short queue
  | tick =>
      unfold BufferWorker.exec
      dsimp only
      split
      · refine ⟨fun queue => by simp [buffered, FMap.getD], fun batch inside => ?_⟩
        obtain ⟨entry, kept, rfl⟩ := List.mem_map.1 inside
        have stored := (env.hashOrder_perm _ _ _).mem_iff.1 (List.mem_filter.1 kept).1
        have list := short entry.1
        rw [buffered, FMap.getD, AList.mem_lookup_iff.2 stored] at list
        exact list.le
      · exact ⟨short, fun _ none => by cases none⟩

theorem Short.handed (short : Short maxBatch w) (env : Env) (events : List BufferEvent) :
    ∀ batch ∈ handed env maxBatch w events, batch.2.length ≤ max 1 maxBatch := by
  induction events generalizing w with
  | nil => intro batch none; cases none
  | cons event events ih =>
      obtain ⟨still, now⟩ := short.exec env event
      intro batch inside
      rcases List.mem_append.1 (show batch ∈ _ ++ _ from inside) with here | later
      · exact now batch here
      · exact ih still batch later

end BufferWorker

/-! ## The answer to a batch -/

/-- `BatchPushItem`. -/
structure BatchPushItem where
  payload : List UInt8
  delaySeconds : Nat
  messageId : String
  deriving DecidableEq

/-- `compress_wire_payload`, with `zstd::encode_all` at level 1. -/
def compressWirePayload (encodeAll : List UInt8 → Option (List UInt8)) (payload : List UInt8) :
    List UInt8 :=
  let plain := 0 :: payload
  if 1024 < payload.length then
    match encodeAll payload with
    | some comp => if comp.length + 1 < payload.length then 1 :: comp else plain
    | none => plain
  else plain

/-- The loop of `flush_queue_batch` over the items; `draws` counts the ids drawn for items
without one. -/
def protoItems (env : Env) (encodeAll : List UInt8 → Option (List UInt8)) :
    Nat → List BufferedItem → List BatchPushItem
  | _, [] => []
  | draws, item :: items =>
      let payload := compressWirePayload encodeAll item.payload
      match item.messageId with
      | some id => ⟨payload, item.delaySeconds, id⟩ :: protoItems env encodeAll draws items
      | none =>
          ⟨payload, item.delaySeconds, env.ulidToString (env.ulidNew draws)⟩ ::
            protoItems env encodeAll (draws + 1) items

/-- What `flush_queue_batch` sends to the callers once its request is through. -/
def deliver (senders : List Nat) :
    Except ClientError Response → List (Nat × Except ClientError String)
  | .ok (.pushBatch messageIds) => (senders.zip messageIds).map fun pair => (pair.1, .ok pair.2)
  | .ok (.error message) => senders.map fun tx => (tx, .error (.serverError message))
  | _ => senders.map fun tx => (tx, .error .unavailable)

/-- `flush_queue_batch`: the results it sends, with their channels.  `net` is the network as
it meets the request. -/
def flushQueueBatch (env : Env) (encodeAll : List UInt8 → Option (List UInt8)) (draws : Nat)
    (net : String → List BatchPushItem → Network) (c : ClientInner) (queue : String)
    (items : List BufferedItem) : List (Nat × Except ClientError String) :=
  deliver (items.map BufferedItem.tx)
    (c.sendWithRedirect (net queue (protoItems env encodeAll draws items)) queue).2

/-- The results sent on a channel. -/
def received (results : List (Nat × Except ClientError String)) (tx : Nat) :
    List (Except ClientError String) :=
  (results.filter fun result => result.1 = tx).map Prod.snd

/-- What `push_opt` returns to the caller of a channel. -/
def outcome (results : List (Nat × Except ClientError String)) (tx : Nat) :
    Except ClientError String :=
  (received results tx).head?.getD (.error .channelClosed)

/-- The caller of a channel gets this result, and no other is sent. -/
def Gets (results : List (Nat × Except ClientError String)) (tx : Nat)
    (result : Except ClientError String) : Prop :=
  received results tx = [result] ∧ outcome results tx = result

theorem Gets.of_received {results : List (Nat × Except ClientError String)} {tx : Nat}
    {result : Except ClientError String} (once : received results tx = [result]) :
    Gets results tx result :=
  ⟨once, by rw [outcome, once]; rfl⟩

/-- On channels that differ, each gets the result at its own place. -/
theorem received_zip {senders : List Nat} {values : List (Except ClientError String)}
    (distinct : senders.Nodup) {i tx : Nat} {value : Except ClientError String}
    (sender : senders[i]? = some tx) (sent : values[i]? = some value) :
    received (senders.zip values) tx = [value] := by
  induction senders generalizing values i with
  | nil => cases sender
  | cons first senders ih =>
      obtain ⟨fresh, distinct⟩ := List.nodup_cons.1 distinct
      cases values with
      | nil => cases sent
      | cons head values =>
          cases i with
          | zero =>
              cases sender
              cases sent
              have none : (senders.zip values).filter (fun result => result.1 = tx) = [] :=
                List.filter_eq_nil_iff.2 fun result inside same =>
                  fresh (of_decide_eq_true same ▸ (List.of_mem_zip inside).1)
              rw [received, List.zip_cons_cons, List.filter_cons_of_pos (by simp), none]
              rfl
          | succ i =>
              have other : first ≠ tx := fun same => fresh (same ▸ List.mem_of_getElem? sender)
              have rest := ih distinct sender sent
              simpa [received, other] using rest

/-- The same result for all reaches each of them once. -/
theorem received_const {senders : List Nat} (distinct : senders.Nodup) {tx : Nat}
    (inside : tx ∈ senders) (value : Except ClientError String) :
    received (senders.map fun tx => (tx, value)) tx = [value] := by
  obtain ⟨i, sender⟩ := List.mem_iff_getElem?.1 inside
  have zipped : (senders.map fun tx => (tx, value)) = senders.zip (senders.map fun _ => value) :=
    List.map_prod_left_eq_zip
  rw [zipped]
  exact received_zip distinct sender (by rw [List.getElem?_map, sender]; rfl)

section

variable {items : List BufferedItem} (distinct : (items.map BufferedItem.tx).Nodup)
include distinct

/-- Ids answered one for one reach the callers of their own items. -/
theorem received_deliver_pushBatch {ids : List String} {i : Nat} {item : BufferedItem}
    {id : String} (own : items[i]? = some item) (answer : ids[i]? = some id) :
    received (deliver (items.map BufferedItem.tx) (.ok (.pushBatch ids))) item.tx = [.ok id] := by
  have paired : ((items.map BufferedItem.tx).zip ids).map (fun pair =>
      (pair.1, (.ok pair.2 : Except ClientError String))) =
      (items.map BufferedItem.tx).zip (ids.map .ok) := by
    rw [List.zip_map_right]
    rfl
  rw [deliver, paired]
  have sender : (items.map BufferedItem.tx)[i]? = some item.tx := by
    rw [List.getElem?_map, own]
    rfl
  exact received_zip distinct sender (by rw [List.getElem?_map, answer]; rfl)

/-- Any answer but ids reaches every caller as one error. -/
theorem received_deliver_error {answer : Except ClientError Response}
    (other : ∀ ids, answer ≠ .ok (.pushBatch ids)) {item : BufferedItem} (inside : item ∈ items) :
    ∃ error, received (deliver (items.map BufferedItem.tx) answer) item.tx = [.error error] := by
  have sender : item.tx ∈ items.map BufferedItem.tx := List.mem_map_of_mem inside
  unfold deliver
  split
  · rename_i ids
    exact absurd rfl (other ids)
  · exact ⟨_, received_const distinct sender _⟩
  · exact ⟨_, received_const distinct sender _⟩

end

/-! ## Whole runs -/

theorem flushed_sublist {batches : List (String × List BufferedItem)} {queue : String}
    {items : List BufferedItem} (inside : (queue, items) ∈ batches) :
    items.Sublist (flushed queue batches) := by
  obtain ⟨left, right, rfl⟩ := List.append_of_mem inside
  rw [flushed_append]
  have own : flushed queue ((queue, items) :: right) = items ++ flushed queue right := by
    simp [flushed]
  rw [own]
  exact (List.sublist_append_left _ _).trans (List.sublist_append_right _ _)

theorem arrived_channels (queue : String) (events : List BufferEvent) :
    ((arrived queue events).map BufferedItem.tx).Sublist (channels events) := by
  induction events with
  | nil => exact .slnil
  | cons event events ih =>
      cases event with
      | tick => exact ih
      | recv name item =>
          by_cases same : name = queue
          · simpa [arrived, channels, same] using ih
          · simpa [arrived, channels, same] using ih.cons item.tx

/-- The channels of a batch are those of items that arrived. -/
theorem batch_channels {env : Env} {maxBatch : Nat} {events : List BufferEvent}
    (distinct : (channels events).Nodup) {batch : String × List BufferedItem}
    (inside : batch ∈ BufferWorker.new.handed env maxBatch events) :
    (batch.2.map BufferedItem.tx).Nodup := by
  have part : batch.2.Sublist (arrived batch.1 events) := by
    have whole := BufferWorker.flushed_handed env maxBatch .new events batch.1
    have start : BufferWorker.new.buffered batch.1 = [] := rfl
    rw [start, List.nil_append] at whole
    rw [← whole]
    exact (flushed_sublist inside).trans (List.sublist_append_left _ _)
  exact distinct.sublist ((part.map _).trans (arrived_channels _ _))

/-- The request of a batch, as `flush_queue_batch` gets it back. -/
def batchAnswer (env : Env) (encodeAll : List UInt8 → Option (List UInt8)) (draws : Nat)
    (net : String → List BatchPushItem → Network) (c : ClientInner)
    (batch : String × List BufferedItem) : Except ClientError Response :=
  (c.sendWithRedirect (net batch.1 (protoItems env encodeAll draws batch.2)) batch.1).2

/-- Whatever arrives and however the window ticks: each queue's items are handed over in order
of arrival or still buffered, no batch is longer than allowed, and a batch whose answer has one
id per item, or no ids at all, gives each of its callers one result: the id of the own item in
the one case, an error in the other. -/
theorem pushBuffer_exact (env : Env) (maxBatch : Nat) (events : List BufferEvent)
    (distinct : (channels events).Nodup) :
    let batches := BufferWorker.new.handed env maxBatch events
    (∀ queue, flushed queue batches ++
        (after (BufferWorker.exec env maxBatch) .new events).buffered queue =
      arrived queue events) ∧
    (∀ batch ∈ batches, batch.2.length ≤ max 1 maxBatch) ∧
    ∀ batch ∈ batches, ∀ (encodeAll : List UInt8 → Option (List UInt8)) (draws : Nat)
        (net : String → List BatchPushItem → Network) (c : ClientInner),
      let answer := batchAnswer env encodeAll draws net c batch
      let results := flushQueueBatch env encodeAll draws net c batch.1 batch.2
      (∀ ids, answer = .ok (.pushBatch ids) → ids.length = batch.2.length) →
      (∀ ids, answer = .ok (.pushBatch ids) → ∀ (i : Nat) (item : BufferedItem),
        batch.2[i]? = some item → ∃ id, ids[i]? = some id ∧ Gets results item.tx (.ok id)) ∧
      ((∀ ids, answer ≠ .ok (.pushBatch ids)) → ∀ item ∈ batch.2,
        ∃ error, Gets results item.tx (.error error)) := by
  refine ⟨fun queue => ?_, ?_, fun batch inside encodeAll draws net c => ?_⟩
  · exact BufferWorker.flushed_handed env maxBatch .new events queue
  · exact BufferWorker.Short.handed (fun _ => Nat.lt_of_lt_of_le Nat.one_pos (le_max_left _ _))
      env events
  · have own := batch_channels distinct inside
    intro answer results each
    refine ⟨fun ids answered i item place => ?_, fun other item member => ?_⟩
    · have lengths := each ids answered
      have bound : i < ids.length := by
        rw [lengths]
        exact (List.getElem?_eq_some_iff.1 place).1
      have sent : results = deliver (batch.2.map BufferedItem.tx) (.ok (.pushBatch ids)) :=
        congrArg (deliver _) answered
      refine ⟨ids[i], List.getElem?_eq_getElem bound, .of_received ?_⟩
      rw [sent]
      exact received_deliver_pushBatch own place (List.getElem?_eq_getElem bound)
    · obtain ⟨error, once⟩ := received_deliver_error own other member
      exact ⟨error, .of_received once⟩

/-- Batches of two; the third push waits for the tick. -/
theorem pushBuffer_exact_sample :
    let item (tx : Nat) : BufferedItem := ⟨some "id", [1], 0, tx⟩
    let events := [.recv "a" (item 1), .recv "b" (item 2), .recv "a" (item 3), .tick]
    let net : String → List BatchPushItem → Network := fun _ items =>
      ⟨fun _ => true, fun _ => .answered (.pushBatch (items.map BatchPushItem.messageId))⟩
    let c := ClientInner.new ["n"] 2
    BufferWorker.new.handed Env.sample 2 events =
        [("a", [item 1, item 3]), ("b", [item 2])] ∧
      Gets (flushQueueBatch Env.sample some 0 net c "a" [item 1, item 3]) 3 (.ok "id") := by
  intro item events net c
  have handed : BufferWorker.new.handed Env.sample 2 events =
      [("a", [item 1, item 3]), ("b", [item 2])] := by decide +kernel
  have answer : batchAnswer Env.sample some 0 net c ("a", [item 1, item 3]) =
      .ok (.pushBatch ["id", "id"]) := by decide +kernel
  have exact := (pushBuffer_exact Env.sample 2 events (by decide)).2.2 ("a", [item 1, item 3])
    (by rw [handed]; exact List.mem_cons_self) some 0 net c
    (fun ids answered => by rw [answer] at answered; cases answered; rfl)
  obtain ⟨id, second, gets⟩ := exact.1 _ answer 1 (item 3) rfl
  cases second
  exact ⟨handed, gets⟩

/-- One id answered to a batch of two: the first caller takes it for its own, the second finds
its channel closed. -/
theorem short_answer_splits_batch :
    let item (tx : Nat) : BufferedItem := ⟨some "id", [1], 0, tx⟩
    let net : String → List BatchPushItem → Network := fun _ _ =>
      ⟨fun _ => true, fun _ => .answered (.pushBatch ["id"])⟩
    let c := ClientInner.new ["n"] 2
    let results := flushQueueBatch Env.sample some 0 net c "a" [item 1, item 2]
    BufferWorker.new.handed Env.sample 2 [.recv "a" (item 1), .recv "a" (item 2)] =
        [("a", [item 1, item 2])] ∧
      received results 1 = [.ok "id"] ∧ received results 2 = [] ∧
      outcome results 2 = .error .channelClosed := by
  decide +kernel

end WalrQueue.Client
