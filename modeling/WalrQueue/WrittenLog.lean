import WalrQueue.Presence
import WalrQueue.Run

/-!
# What a run has written

The records of the active segment, operation by operation: a push, a batch or an
ack appends its records, a compaction replaces them by the messages in memory,
and a poll writes nothing.  Records are listed as they are read back.
-/

namespace WalrQueue

open QueueEngine

/-- A message filed under its own id, with a payload the length field can hold. -/
def Filed (id : Ulid) (msg : StoredMsg) : Prop := msg.id = id ∧ msg.payload.length < 2 ^ 32

/-- The active segment reads back as `rs`, and so will the messages in memory
once they are written. -/
structure Written (e : QueueEngine) (rs : List WalRecord) : Prop where
  log : ∃ xs i, DiskLayout e xs i ∧ e.disk.Named xs ∧ rs = xs.map fun x => x.2.stored
  every : e.Every Filed

/-- The records a compaction writes. -/
def QueueEngine.survivors (env : Env) (e : QueueEngine) : List WalRecord :=
  (e.surviving env).map fun survivor => (DiskLog.survivorRecord survivor).stored

/-- The records of the active segment after a compaction check. -/
def QueueEngine.checkedLog (env : Env) (e : QueueEngine) (rs : List WalRecord) : List WalRecord :=
  if e.compacts then e.survivors env else rs

variable {e e' : QueueEngine} {rs : List WalRecord} {env : Env} {now : Nat} {queue : String}

theorem Written.keyed (h : Written e rs) (s : Fin numShards) : (e.shards s).Keyed :=
  fun id msg found => (h.every s id msg found).1

theorem Filed.reroutes {id : Ulid} {msg : StoredMsg} (h : Filed id msg) : Reroutes Filed now msg :=
  fun _ _ samePayload _ => ⟨rfl, by rw [samePayload]; exact h.2⟩

/-- The survivors a compaction writes are the messages in memory. -/
theorem mem_surviving {survivor : Ulid × String × Nat × List UInt8} :
    survivor ∈ e.surviving env ↔ ∃ s msg, AList.lookup survivor.1 (e.shards s).messages = some msg ∧
      survivor.2 = (msg.queue, msg.visibleAt, msg.payload) := by
  simp only [QueueEngine.surviving, List.mem_flatMap, List.mem_finRange, true_and, List.mem_map]
  constructor
  · rintro ⟨s, ⟨key, msg⟩, member, rfl⟩
    have member := (env.hashOrder_perm _ _ _).mem_iff.1 member
    exact ⟨s, msg, AList.mem_lookup_iff.2 member, rfl⟩
  · rintro ⟨s, msg, found, eq⟩
    have member := AList.mem_lookup_iff.1 found
    refine ⟨s, ⟨survivor.1, msg⟩, (env.hashOrder_perm _ _ _).mem_iff.2 member, ?_⟩
    rw [← eq]

theorem mem_survivors {r : WalRecord} : r ∈ e.survivors env ↔
    ∃ s id msg, AList.lookup id (e.shards s).messages = some msg ∧
      r = .push id msg.queue (storedTime msg.visibleAt) msg.payload := by
  simp only [QueueEngine.survivors, List.mem_map, mem_surviving]
  constructor
  · rintro ⟨⟨id, rest⟩, ⟨s, msg, found, eq⟩, rfl⟩
    simp only at eq
    subst eq
    exact ⟨s, id, msg, found, rfl⟩
  · rintro ⟨s, id, msg, found, rfl⟩
    exact ⟨(id, msg.queue, msg.visibleAt, msg.payload), ⟨s, msg, found, rfl⟩, rfl⟩

/-! ## Appends, sections and compaction -/

/-- A section that leaves the files alone. -/
theorem Written.congr (h : Written e rs) (disk : e'.disk = e.disk)
    (cursor : e'.spillReadOffset = e.spillReadOffset) (every : e'.Every Filed) :
    Written e' rs := by
  obtain ⟨xs, i, layout, named, eq⟩ := h.log
  exact ⟨⟨xs, i, layout.congr disk cursor, by rw [disk]; exact named, eq⟩, every⟩

/-- A section and the append that goes with it. -/
theorem Written.append (h : Written e rs) {r : WalRecord} (fits : r.Fits)
    (disk : e'.disk = e.disk.append r) (cursor : e'.spillReadOffset = e.spillReadOffset)
    (every : e'.Every Filed) (few : e'.names.length ≤ 65536) :
    Written e' (rs ++ [r.stored]) := by
  obtain ⟨xs, i, layout, named, rfl⟩ := h.log
  refine ⟨⟨_, i, layout.append fits disk cursor, ?_, by simp [DiskLog.newEntry]⟩, every⟩
  rw [names, disk] at few
  rw [disk]
  exact named.append few

theorem QueueEngine.Every.survivors_fit (h : e.Every Filed) (env : Env) :
    ∀ survivor ∈ e.surviving env, survivor.2.2.2.length < 2 ^ 32 := by
  intro survivor survives
  obtain ⟨s, msg, found, eq⟩ := mem_surviving.1 survives
  rw [eq]
  exact (h s _ _ found).2

theorem Written.checkAndTriggerCompaction (h : Written e rs) (env : Env)
    (few : (e.checkAndTriggerCompaction env).names.length ≤ 65536) :
    Written (e.checkAndTriggerCompaction env) (e.checkedLog env rs) := by
  unfold QueueEngine.checkAndTriggerCompaction at few ⊢
  unfold QueueEngine.checkedLog
  split
  · rename_i compacts
    rw [if_pos compacts] at few
    obtain ⟨xs, i, layout, named, eq⟩ := h.log
    obtain ⟨ys, records, layout', named'⟩ := layout.compact env (h.every.survivors_fit env)
    refine ⟨⟨ys, 0, layout', named' named few, ?_⟩, h.every.congr rfl⟩
    have stored := congrArg (List.map WalRecord.stored) records
    simp only [List.map_map] at stored
    exact stored.symm
  · exact h

/-! ## Push -/

theorem Written.pushUnchecked (h : Written e rs) {id : Ulid} {payload : List UInt8} {delaySec : Nat}
    (fits : payload.length < 2 ^ 32)
    (few : (e.pushUnchecked now queue id payload delaySec).1.names.length ≤ 65536) :
    Written (e.pushUnchecked now queue id payload delaySec).1
      (rs ++ [WalRecord.stored (.push id queue (addU64 now delaySec) payload)]) := by
  obtain ⟨disk, cursor⟩ := disk_pushUnchecked e now queue id payload delaySec
  refine h.append (r := .push id queue (addU64 now delaySec) payload) fits disk cursor ?_ few
  unfold QueueEngine.pushUnchecked
  dsimp only
  split
  · exact h.every.congr rfl
  · obtain ⟨st, shards, after⟩ := shards_pushSection
      { e with disk := e.disk.append (.push id queue (addU64 now delaySec) payload) }
      now queue id payload (addU64 now delaySec)
    exact Every.enter (e := e) h.every (e.newMsg queue id payload (addU64 now delaySec)) shards
      after ⟨rfl, fits⟩

/-- The records the loop of `push_batch` appends: one for each item whose id was
not seen before. -/
def pushBatchRecords (env : Env) (now : Nat) (queue : String) :
    PushBatch → List PushItem → List WalRecord
  | _, [] => []
  | acc, item :: items =>
      let id := (drawId env acc.engine.draws item.id).1
      (if id ∈ (acc.engine.shards (shardIdx queue)).seenIds then []
        else [.push id queue (addU64 now item.delaySeconds) item.payload]) ++
      pushBatchRecords env now queue (QueueEngine.pushBatchItem env now queue acc item) items

/-- One item of a batch, as its two cases. -/
theorem pushBatchItem_cases (env : Env) (now : Nat) (queue : String) (acc : PushBatch)
    (item : PushItem) :
    let drawn := drawId env acc.engine.draws item.id
    let acc' : PushBatch := { acc with
      engine := { acc.engine with draws := drawn.2 }
      ids := acc.ids ++ [drawn.1] }
    (drawn.1 ∈ (acc.engine.shards (shardIdx queue)).seenIds ∧
      QueueEngine.pushBatchItem env now queue acc item = acc') ∨
    (drawn.1 ∉ (acc.engine.shards (shardIdx queue)).seenIds ∧
      QueueEngine.pushBatchItem env now queue acc item = pushBatchNew now queue acc' drawn.1 item) := by
  intro drawn acc'
  unfold QueueEngine.pushBatchItem
  dsimp only
  split
  · rename_i seen
    exact Or.inl ⟨seen, rfl⟩
  · rename_i unseen
    exact Or.inr ⟨unseen, rfl⟩

theorem Written.pushBatchLoop {acc : PushBatch} (h : Written acc.engine rs) (items : List PushItem)
    (fits : ∀ item ∈ items, item.payload.length < 2 ^ 32)
    (few : (items.foldl (QueueEngine.pushBatchItem env now queue) acc).engine.names.length ≤ 65536) :
    Written (items.foldl (QueueEngine.pushBatchItem env now queue) acc).engine
      (rs ++ (pushBatchRecords env now queue acc items).map WalRecord.stored) := by
  induction items generalizing acc rs with
  | nil => simpa [pushBatchRecords] using h
  | cons item items ih =>
      have rest : ∀ rs', Written (QueueEngine.pushBatchItem env now queue acc item).engine rs' → _ :=
        fun rs' next => ih next (fun item' member => fits item' (by simp [member])) few
      have few' := (names_pushBatchLoop now queue (QueueEngine.pushBatchItem env now queue acc item)
        env items).length_le.trans few
      simp only [pushBatchRecords, List.map_append, ← List.append_assoc]
      have drawn : Written { acc.engine with draws := (drawId env acc.engine.draws item.id).2 } rs :=
        h.congr rfl rfl (h.every.congr rfl)
      rcases pushBatchItem_cases env now queue acc item with ⟨seen, eq⟩ | ⟨unseen, eq⟩
      · rw [if_pos seen]
        refine rest _ ?_
        rw [eq]
        simpa using drawn
      · rw [if_neg unseen]
        refine rest _ ?_
        rw [eq] at few' ⊢
        generalize (drawId env acc.engine.draws item.id).1 = id at few' ⊢
        obtain ⟨disk, cursor⟩ := disk_pushBatchNew now queue { acc with
          engine := { acc.engine with draws := (drawId env acc.engine.draws item.id).2 }
          ids := acc.ids ++ [id] } id item
        obtain ⟨st, shards, after⟩ := shards_pushBatchNew now queue { acc with
          engine := { acc.engine with draws := (drawId env acc.engine.draws item.id).2 }
          ids := acc.ids ++ [id] } id item
        exact drawn.append (r := .push id queue (addU64 now item.delaySeconds) item.payload)
          (fits item (by simp)) disk cursor
          (drawn.every.enter (acc.engine.newMsg queue id item.payload
            (addU64 now item.delaySeconds)) shards after ⟨rfl, fits item (by simp)⟩) few'

theorem Written.pushBatchUnchecked (h : Written e rs) {items : List PushItem}
    (fits : ∀ item ∈ items, item.payload.length < 2 ^ 32)
    (few : (e.pushBatchUnchecked env now queue items).names.length ≤ 65536) :
    Written (e.pushBatchUnchecked env now queue items) (rs ++
      (pushBatchRecords env now queue ⟨e, [], 0, e.totalMessagesInRam⟩ items).map
        WalRecord.stored) := by
  have start : Written (PushBatch.mk e [] 0 e.totalMessagesInRam).engine rs := h
  have loop := start.pushBatchLoop items fits few
  exact loop.congr rfl rfl (loop.every.congr rfl)

/-! ## Poll -/

/-- The records of a paging read, as the log has them. -/
theorem DiskLog.Named.map_readBack {d : DiskLog} {xs : List WalEntry} (h : d.Named xs) (i k : Nat) :
    ((xs.drop i).take k).map (readBack d.registry) =
      ((xs.map fun x => x.2.stored).drop i).take k := by
  rw [← List.map_drop, ← List.map_take]
  exact List.map_congr_left fun x taken =>
    h.readBack_eq (List.mem_of_mem_drop (List.mem_of_mem_take taken))

/-- What one turn of the page-in loop can do: it takes in a chunk of the log, or
only moves the cursor. -/
theorem Written.pageInStep_cases (h : Written e rs) (env : Env) (now : Nat) (targetQueue : String)
    (fetchLimit : Nat) (flushed : Bool) :
    ∃ offset, Written { e with spillReadOffset := offset } rs ∧
      ((∃ records, records <:+: rs ∧ (pageInStep env now targetQueue fetchLimit e flushed).1 =
        (pageInChunk now targetQueue { e with spillReadOffset := offset } records).engine) ∨
      (pageInStep env now targetQueue fetchLimit e flushed).1 =
        { e with spillReadOffset := offset }) := by
  obtain ⟨xs, i, layout, named, rfl⟩ := h.log
  rcases WalrQueue.pageInStep_cases layout env now targetQueue fetchLimit flushed with
    ⟨k, records, inside, eq, outcome⟩ | same | rewound
  · rw [named.map_readBack] at eq
    refine ⟨_, ⟨⟨xs, i + k, layout.move inside, named, rfl⟩, h.every.congr rfl⟩,
      outcome.imp (fun ⟨_, chunk⟩ => ⟨records, ?_, chunk⟩) (·.2)⟩
    rw [eq]
    exact (List.take_prefix _ _).isInfix.trans (List.drop_suffix _ _).isInfix
  · exact ⟨e.spillReadOffset, h.congr rfl rfl (h.every.congr rfl), Or.inr same⟩
  · exact ⟨0, ⟨⟨xs, 0, layout.rewind, named, rfl⟩, h.every.congr rfl⟩, Or.inr rewound⟩

/-- Page-in makes of a record that was written a message filed under its own id. -/
theorem DiskLog.Holds.loadsOnly {d : DiskLog} {xs : List WalEntry} (h : d.Holds xs)
    (reg : QueueRegistry) : LoadsOnly Filed (xs.map (readBack reg)) := by
  intro id queue visibleAt payload member _
  obtain ⟨⟨qId, record⟩, entry, eq⟩ := List.mem_map.1 member
  have fits := (h.fits _ entry).2
  cases record with
  | ack msgId queueName => cases eq
  | push msgId queueName visibleAt' payload' =>
      cases eq
      exact ⟨rfl, fits⟩

theorem DiskLayout.loadsOnly {xs : List WalEntry} {i : Nat} (h : DiskLayout e xs i)
    (named : e.disk.Named xs) : LoadsOnly Filed (xs.map fun x => x.2.stored) := by
  have read : (xs.map fun x => x.2.stored) = xs.map (readBack e.disk.registry) :=
    List.map_congr_left fun x member => (named.readBack_eq member).symm
  rw [read]
  exact h.holds.loadsOnly _

theorem Written.loadsOnly (h : Written e rs) {records : List WalRecord} (inside : records <:+: rs) :
    LoadsOnly Filed records := by
  obtain ⟨xs, i, layout, named, rfl⟩ := h.log
  exact fun id queue visibleAt payload member =>
    layout.loadsOnly named id queue visibleAt payload (inside.subset member)

theorem Written.pageInChunk (h : Written e rs) {records : List WalRecord} (inside : records <:+: rs)
    (now : Nat) (targetQueue : String) :
    Written (QueueEngine.pageInChunk now targetQueue e records).engine rs := by
  obtain ⟨disk, cursor, _⟩ := disk_pageInChunk now targetQueue e records
  exact h.congr disk cursor (h.every.pageInChunk ((h.loadsOnly inside).under _) targetQueue)

theorem Written.pageInStep (h : Written e rs) (env : Env) (now : Nat) (targetQueue : String)
    (fetchLimit : Nat) (flushed : Bool) :
    Written (pageInStep env now targetQueue fetchLimit e flushed).1 rs := by
  obtain ⟨offset, moved, ⟨records, inside, eq⟩ | eq⟩ :=
    h.pageInStep_cases env now targetQueue fetchLimit flushed
  · rw [eq]
    exact moved.pageInChunk inside now targetQueue
  · rw [eq]
    exact moved

theorem Written.route (h : Written e rs) (s : Fin numShards) (now : Nat) :
    Written ((e.collectExpired s now).2.foldl (QueueEngine.routeExpired now)
      (e.collectExpired s now).1) rs := by
  obtain ⟨disk, cursor, _⟩ := disk_routeExpired_foldl now (e.collectExpired s now).1
    (e.collectExpired s now).2
  exact h.congr disk cursor (h.every.route s fun _ _ filed => filed.reroutes)

theorem Written.claimSection (h : Written e rs) (env : Env) (queue : String)
    (now timeout maxMessages : Nat) :
    Written (e.claimSection env queue now timeout maxMessages).1 rs := by
  obtain ⟨disk, cursor⟩ := disk_claimSection env e queue now timeout maxMessages
  exact h.congr disk cursor (h.every.claimSection (fun _ _ filed => filed) env queue now _ _)

theorem Written.poll (h : Written e rs) (env : Env) (now : Nat) (queue : String)
    (visibilitySec maxMessages : Nat) :
    Written (e.poll env now queue visibilitySec maxMessages).1 rs := by
  rw [poll_eq]
  exact (prefetch_induction (P := fun e => Written e rs)
    (fun fetchLimit e flushed h => h.pageInStep env now queue fetchLimit flushed)
    (h.route (shardIdx queue) now) maxMessages).claimSection env queue now _ maxMessages

/-! ## Ack -/

/-- A valid receipt and the append that goes with it. -/
theorem Written.accept (h : Written e rs) {receipt : String} {id : Ulid} {done : ShardState × Bool}
    (valid : (e.shards (shardIdx queue)).ackLease queue id receipt = some done)
    (shards : e'.shards = (e.setShard (shardIdx queue) done.1).shards)
    (disk : e'.disk = e.disk.append (.ack id queue))
    (cursor : e'.spillReadOffset = e.spillReadOffset) (few : e'.names.length ≤ 65536) :
    Written e' (rs ++ [.ack id queue]) :=
  h.append (r := .ack id queue) trivial disk cursor
    ((h.every.setShard ((h.every _).ackLease valid)).congr shards) few

theorem Written.ackUnchecked (h : Written e rs) {receipt : String} {id : Ulid}
    {done : QueueEngine} (success : e.ackUnchecked queue id receipt = some done)
    (few : done.names.length ≤ 65536) : Written done (rs ++ [.ack id queue]) := by
  unfold QueueEngine.ackUnchecked at success
  split at success
  · cases success
  · rename_i st wasLive valid
    cases success
    exact h.accept valid rfl rfl rfl few

theorem Written.ackBatchLoop (acc : AckBatch) (h : Written acc.engine rs)
    (items : List (Ulid × String))
    (few : (items.foldl (ackBatchItem queue) acc).engine.names.length ≤ 65536) :
    ∃ accepted, (items.foldl (ackBatchItem queue) acc).accepted = acc.accepted ++ accepted ∧
      Written (items.foldl (ackBatchItem queue) acc).engine
        (rs ++ accepted.map fun item => .ack item.1 queue) := by
  induction items generalizing acc rs with
  | nil => exact ⟨[], by simp, by simpa using h⟩
  | cons item items ih =>
      rw [List.foldl_cons] at few ⊢
      cases valid : (acc.engine.shards (shardIdx queue)).ackLease queue item.1 item.2 with
      | none =>
          rw [ackBatchItem_of_invalid valid] at few ⊢
          exact ih acc h few
      | some done =>
          obtain ⟨shards, disk, cursor, list, _⟩ := ackBatchItem_of_valid valid
          have next := h.accept valid shards disk cursor
            ((names_ackBatchLoop queue _ items).length_le.trans few)
          obtain ⟨accepted, eq, written⟩ := ih _ next few
          refine ⟨item :: accepted, ?_, by simpa using written⟩
          rw [eq, list]
          simp

theorem Written.ackBatchUnchecked (h : Written e rs) (items : List (String × String))
    (few : (e.ackBatchUnchecked env queue items).names.length ≤ 65536) :
    Written (e.ackBatchUnchecked env queue items) (rs ++
      (QueueEngine.ackBatchLoop env e queue items).accepted.map fun item => .ack item.1 queue) := by
  obtain ⟨disk, cursor, shards⟩ := disk_ackBatchUnchecked env e queue items
  rw [names, disk] at few
  obtain ⟨accepted, eq, written⟩ := Written.ackBatchLoop ⟨e, 0, []⟩ h
    (parsedItems env items) few
  have eq : (QueueEngine.ackBatchLoop env e queue items).accepted = accepted := eq
  rw [eq]
  exact written.congr disk cursor (written.every.congr shards)

/-! ## Along a run -/

/-- The records an operation appends. -/
def World.appended (env : Env) (w : World) : Op → List WalRecord
  | .push queue id payload delaySec => [.push id queue (addU64 w.clock delaySec) payload]
  | .pushBatch queue items =>
      pushBatchRecords env w.clock queue ⟨w.engine, [], 0, w.engine.totalMessagesInRam⟩ items
  | .poll .. => []
  | .ack queue messageId receipt =>
      if (w.engine.ack env queue messageId receipt).2 then
        ((parseIdFast env messageId).map (WalRecord.ack · queue)).toList
      else []
  | .ackBatch queue items =>
      (ackBatchLoop env w.engine queue items).accepted.map fun item => .ack item.1 queue
  | .advance _ => []

/-- The records of the active segment after an operation. -/
def World.logAfter (env : Env) (w : World) (op : Op) (rs : List WalRecord) : List WalRecord :=
  let rs' := rs ++ (w.appended env op).map WalRecord.stored
  match w.checkpoint env op with
  | some mid => mid.checkedLog env rs'
  | none => rs'

/-- No operation forgets a queue name. -/
theorem World.names_step (env : Env) (w : World) (op : Op) :
    w.engine.names <+: (w.step env op).engine.names := by
  cases op with
  | push queue id payload delaySec =>
      have appended : w.engine.names <+:
          (w.engine.pushUnchecked w.clock queue id payload delaySec).1.names := by
        rw [QueueEngine.names, QueueEngine.names, (disk_pushUnchecked _ _ _ _ _ _).1]
        exact DiskLog.names_append
      simp only [World.step, World.exec, QueueEngine.pushWithUlid]
      split
      · exact appended.trans (names_checkAndTriggerCompaction env _)
      · exact appended
  | pushBatch queue items =>
      exact (names_pushBatchLoop w.clock queue ⟨w.engine, [], 0, w.engine.totalMessagesInRam⟩ env
        items).trans (names_checkAndTriggerCompaction env
          (w.engine.pushBatchUnchecked env w.clock queue items))
  | poll queue visibilitySec maxMessages =>
      simp only [World.step, World.exec, QueueEngine.names]
      rw [disk_poll]
  | ack queue messageId receipt =>
      simp only [World.step, World.exec, QueueEngine.ack]
      split
      · exact List.prefix_rfl
      · rename_i done eq
        refine List.IsPrefix.trans ?_ (names_checkAndTriggerCompaction env done)
        obtain ⟨id, _, acked⟩ := Option.bind_eq_some_iff.1 eq
        unfold QueueEngine.ackUnchecked at acked
        split at acked
        · cases acked
        · cases acked
          exact DiskLog.names_append
  | ackBatch queue items =>
      have loop := names_ackBatchLoop queue ⟨w.engine, 0, []⟩ (QueueEngine.parsedItems env items)
      refine List.IsPrefix.trans ?_ (names_checkAndTriggerCompaction env
        (w.engine.ackBatchUnchecked env queue items))
      rw [QueueEngine.names, QueueEngine.names, (disk_ackBatchUnchecked _ _ _ _).1]
      exact loop
  | advance seconds => exact List.prefix_rfl

theorem DiskLayout.fresh (env : Env) (opts : QueueOptions) (clock : Nat) :
    DiskLayout (World.fresh env opts clock).engine [] 0 where
  holds := ⟨rfl, rfl, by simp, fun name id found => (by cases found)⟩
  sole := rfl
  inside := Nat.le_refl _
  cursor := rfl

theorem Written.fresh (env : Env) (opts : QueueOptions) (clock : Nat) :
    Written (World.fresh env opts clock).engine [] where
  log := ⟨[], 0, DiskLayout.fresh env opts clock,
    ⟨fun name id found => (by cases found), rfl, by simp⟩, rfl⟩
  every s id msg found := by cases found

/-- What an operation that gets to the compaction check has written by then. -/
theorem Written.checkpoint {w : World} {op : Op} {mid : QueueEngine} (h : Written w.engine rs)
    (small : ∀ payload ∈ op.payloads, payload.length < 2 ^ 32)
    (reached : w.checkpoint env op = some mid) (few : mid.names.length ≤ 65536) :
    Written mid (rs ++ (w.appended env op).map WalRecord.stored) := by
  cases op with
  | push queue id payload delaySec =>
      simp only [World.checkpoint] at reached
      split at reached
      · cases reached
        exact h.pushUnchecked (small payload (by simp [Op.payloads])) few
      · cases reached
  | pushBatch queue items =>
      cases reached
      exact h.pushBatchUnchecked (fun item member => small _ (List.mem_map_of_mem member)) few
  | poll queue visibilitySec maxMessages => cases reached
  | ack queue messageId receipt =>
      obtain ⟨id, parsed, success⟩ := Option.bind_eq_some_iff.1 reached
      have replied : (w.engine.ack env queue messageId receipt).2 = true := by
        simp [QueueEngine.ack, parsed, success]
      simp only [World.appended, replied, parsed]
      exact h.ackUnchecked success few
  | ackBatch queue items =>
      cases reached
      have stored : ((QueueEngine.ackBatchLoop env w.engine queue items).accepted.map
          fun item => WalRecord.ack item.1 queue).map WalRecord.stored =
          (QueueEngine.ackBatchLoop env w.engine queue items).accepted.map
            fun item => .ack item.1 queue := by
        simp [WalRecord.stored]
      simp only [World.appended, stored]
      exact h.ackBatchUnchecked items few
  | advance seconds => cases reached

/-- What an operation leaves in the active segment. -/
theorem Written.step {w : World} {op : Op} (h : Written w.engine rs)
    (small : ∀ payload ∈ op.payloads, payload.length < 2 ^ 32)
    (few : (w.step env op).engine.names.length ≤ 65536) :
    Written (w.step env op).engine (w.logAfter env op rs) := by
  unfold World.logAfter
  cases reached : w.checkpoint env op with
  | some mid =>
      rw [World.step_of_checkpoint reached] at few ⊢
      exact (h.checkpoint small reached
        ((names_checkAndTriggerCompaction env mid).length_le.trans few)).checkAndTriggerCompaction
          env few
  | none =>
      cases op with
      | push queue id payload delaySec =>
          simp only [World.checkpoint] at reached
          split at reached
          · cases reached
          · rename_i early
            simp only [World.step, World.exec, QueueEngine.pushWithUlid, if_neg early] at few ⊢
            exact h.pushUnchecked (small payload (by simp [Op.payloads])) few
      | pushBatch queue items => cases reached
      | poll queue visibilitySec maxMessages =>
          simpa [World.step, World.exec, World.appended] using
            h.poll env w.clock queue visibilitySec maxMessages
      | ack queue messageId receipt =>
          have reached : (parseIdFast env messageId).bind (w.engine.ackUnchecked queue · receipt) =
            none := reached
          have failed : w.engine.ack env queue messageId receipt = (w.engine, false) := by
            simp [QueueEngine.ack, reached]
          simpa [World.step, World.exec, World.appended, failed] using h
      | ackBatch queue items => cases reached
      | advance seconds => simpa [World.step, World.exec, World.appended] using h

/-- A poll keeps what its expired messages and the records of the log keep. -/
theorem Written.every_poll {Q : Ulid → StoredMsg → Prop} (h : Written e rs) (every : e.Every Q)
    (routes : ∀ id msg, Q id msg → Reroutes Q now msg) (loads : LoadsOnly Q rs)
    (closed : ∀ id msg, Q id msg → Q id (ShardState.delivered msg)) (env : Env) (queue : String)
    (visibilitySec maxMessages : Nat) :
    (e.poll env now queue visibilitySec maxMessages).1.Every Q := by
  rw [poll_eq]
  refine Every.claimSection ?_ closed env queue now _ maxMessages
  have turn : ∀ fetchLimit e flushed, (Written e rs ∧ e.Every Q) →
      Written (QueueEngine.pageInStep env now queue fetchLimit e flushed).1 rs ∧
        (QueueEngine.pageInStep env now queue fetchLimit e flushed).1.Every Q := by
    rintro fetchLimit e flushed ⟨written, every⟩
    refine ⟨written.pageInStep env now queue fetchLimit flushed, ?_⟩
    obtain ⟨offset, _, ⟨records, part, eq⟩ | eq⟩ :=
      written.pageInStep_cases env now queue fetchLimit flushed
    · have moved : ({ e with spillReadOffset := offset } : QueueEngine).Every Q := every.congr rfl
      rw [eq]
      exact moved.pageInChunk (fun id name visibleAt payload member =>
        loads id name visibleAt payload (part.subset member) _) queue
    · rw [eq]
      exact every.congr rfl
  exact (prefetch_induction (P := fun e => Written e rs ∧ e.Every Q) turn
    ⟨h.route (shardIdx queue) now, every.route (shardIdx queue) routes⟩ maxMessages).2

/-- Every operation keeps a property of messages that its new messages have too. -/
theorem Written.every_step {Q : Ulid → StoredMsg → Prop} {w : World} {op : Op}
    (h : Written w.engine rs) (every : w.engine.Every Q)
    (new : ∀ pushed ∈ w.pushes env op, ∀ payload visibleAt,
      Q pushed.1 (w.engine.newMsg pushed.2 pushed.1 payload visibleAt))
    (routes : ∀ id msg, Q id msg → Reroutes Q w.clock msg) (loads : LoadsOnly Q rs)
    (closed : ∀ id msg, Q id msg → Q id (ShardState.delivered msg)) :
    (w.step env op).engine.Every Q := by
  cases op with
  | push queue id payload delaySec =>
      exact every.pushWithUlid env (new (id, queue) (by simp [World.pushes]) _ _)
  | pushBatch queue items =>
      refine (every.pushBatchUnchecked env fun item _ id member => ?_).checkAndTriggerCompaction env
      exact new (id, queue) (List.mem_map_of_mem member) _ _
  | poll queue visibilitySec maxMessages =>
      exact h.every_poll every routes loads closed env queue visibilitySec maxMessages
  | ack queue messageId receipt =>
      simp only [World.step, World.exec, QueueEngine.ack]
      split
      · exact every
      · rename_i done success
        obtain ⟨id, _, success⟩ := Option.bind_eq_some_iff.1 success
        exact (every.ackUnchecked success).checkAndTriggerCompaction env
  | ackBatch queue items =>
      exact (every.ackBatchUnchecked env queue items).checkAndTriggerCompaction env
  | advance seconds => exact every

end WalrQueue
