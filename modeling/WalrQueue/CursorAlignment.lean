import WalrQueue.Location

/-!
# The page-in cursor

`spill_read_offset` counts bytes of the active segment.  Every operation leaves it between
two records, where the paging reader can go on, and a later append does not move the
records before it.  The exception is `force_compaction`: it replaces the segment and keeps
the old offset.

No bound on the number of queue names is needed here: an id that wraps is decoded to another
name, but its record is as long as any other.
-/

namespace WalrQueue

open QueueEngine

/-- The offset lies between two records of the active segment, or at its end. -/
def DiskLog.Boundary (d : DiskLog) (offset : Nat) : Prop :=
  ∃ xs i, (∀ x ∈ xs, x.Fits) ∧ d.active = segment xs ∧ i ≤ xs.length ∧
    offset = (segment (xs.take i)).length

/-- The active segment consists of records with the cursor at a boundary, and every message
in memory can be written again. -/
structure Aligned (e : QueueEngine) : Prop where
  layout : ∃ xs i, DiskLayout e xs i
  filed : e.Every Filed

variable {e e' : QueueEngine} {env : Env} {now : Nat} {queue : String}

theorem DiskLog.Boundary.le_length {d : DiskLog} {offset : Nat} (h : d.Boundary offset) :
    offset ≤ d.active.length := by
  obtain ⟨xs, i, _, active, _, rfl⟩ := h
  have split := congrArg List.length (segment_append (xs.take i) (xs.drop i))
  rw [List.take_append_drop, List.length_append] at split
  rw [active]
  omega

theorem Aligned.boundary (h : Aligned e) : e.disk.Boundary e.spillReadOffset := by
  obtain ⟨xs, i, layout⟩ := h.layout
  exact ⟨xs, i, layout.holds.fits, layout.holds.active, layout.inside, layout.cursor⟩

/-- Appends behind the cursor do not move it off its boundary. -/
theorem Aligned.boundary_appendAll (h : Aligned e) {rs : List WalRecord} (fits : ∀ r ∈ rs, r.Fits) :
    (e.disk.appendAll rs).Boundary e.spillReadOffset := by
  obtain ⟨xs, i, layout⟩ := h.layout
  obtain ⟨ys, _, holds, _⟩ := layout.holds.appendAll fits
  refine ⟨xs ++ ys, i, holds.fits, holds.active, layout.inside.trans (by simp), ?_⟩
  rw [layout.cursor, List.take_append_of_le_length layout.inside]

/-! ## One operation -/

theorem Aligned.congr (h : Aligned e) (disk : e'.disk = e.disk)
    (cursor : e'.spillReadOffset = e.spillReadOffset) (filed : e'.Every Filed) : Aligned e' := by
  obtain ⟨xs, i, layout⟩ := h.layout
  exact ⟨⟨xs, i, layout.congr disk cursor⟩, filed⟩

theorem Aligned.append (h : Aligned e) {r : WalRecord} (fits : r.Fits)
    (disk : e'.disk = e.disk.append r) (cursor : e'.spillReadOffset = e.spillReadOffset)
    (filed : e'.Every Filed) : Aligned e' := by
  obtain ⟨xs, i, layout⟩ := h.layout
  exact ⟨⟨_, i, layout.append fits disk cursor⟩, filed⟩

theorem Aligned.checkAndTriggerCompaction (h : Aligned e) (env : Env) :
    Aligned (e.checkAndTriggerCompaction env) := by
  refine ⟨?_, h.filed.checkAndTriggerCompaction env⟩
  obtain ⟨xs, i, layout⟩ := h.layout
  unfold QueueEngine.checkAndTriggerCompaction
  split
  · obtain ⟨ys, _, layout', _⟩ := layout.compact env (h.filed.survivors_fit env)
    exact ⟨ys, 0, layout'⟩
  · exact ⟨xs, i, layout⟩

/-- A forced compaction is harmless when the cursor is at the start. -/
theorem Aligned.forceCompaction (h : Aligned e) (env : Env) (rewound : e.spillReadOffset = 0) :
    Aligned (e.forceCompaction env) := by
  obtain ⟨xs, i, layout⟩ := h.layout
  obtain ⟨ys, _, layout', _⟩ := layout.compact env (h.filed.survivors_fit env)
  exact ⟨⟨ys, 0, layout'.congr rfl rewound⟩, h.filed.congr rfl⟩

theorem Aligned.clearForRaftRecovery (h : Aligned e) : Aligned e.clearForRaftRecovery := by
  obtain ⟨xs, i, layout⟩ := h.layout
  refine ⟨⟨xs, 0, layout.rewind.congr rfl rfl⟩, fun s id msg found => ?_⟩
  cases found

theorem Aligned.pushUnchecked (h : Aligned e) {id : Ulid} {payload : List UInt8} {delaySec : Nat}
    (fits : payload.length < 2 ^ 32) :
    Aligned (e.pushUnchecked now queue id payload delaySec).1 := by
  obtain ⟨disk, cursor⟩ := disk_pushUnchecked e now queue id payload delaySec
  exact h.append (r := .push id queue (addU64 now delaySec) payload) fits disk cursor
    (h.filed.pushUnchecked ⟨rfl, fits⟩)

theorem Aligned.pushWithUlid (h : Aligned e) {id : Ulid} {payload : List UInt8} {delaySec : Nat}
    (fits : payload.length < 2 ^ 32) :
    Aligned (e.pushWithUlid env now queue id payload delaySec).1 := by
  unfold QueueEngine.pushWithUlid
  dsimp only
  split
  · exact (h.pushUnchecked fits).checkAndTriggerCompaction env
  · exact h.pushUnchecked fits

theorem Aligned.pushBatchItem {acc : PushBatch} (h : Aligned acc.engine) {item : PushItem}
    (fits : item.payload.length < 2 ^ 32) :
    Aligned (QueueEngine.pushBatchItem env now queue acc item).engine := by
  have filed : (QueueEngine.pushBatchItem env now queue acc item).engine.Every Filed :=
    h.filed.pushBatchItem env ⟨rfl, fits⟩
  have drawn : Aligned { acc.engine with draws := (drawId env acc.engine.draws item.id).2 } :=
    h.congr rfl rfl (h.filed.congr rfl)
  rcases pushBatchItem_cases env now queue acc item with ⟨_, eq⟩ | ⟨_, eq⟩
  · rw [eq]
    exact drawn
  · rw [eq] at filed ⊢
    obtain ⟨disk, cursor⟩ := disk_pushBatchNew now queue { acc with
      engine := { acc.engine with draws := (drawId env acc.engine.draws item.id).2 }
      ids := acc.ids ++ [(drawId env acc.engine.draws item.id).1] }
      (drawId env acc.engine.draws item.id).1 item
    exact drawn.append (r := .push _ queue (addU64 now item.delaySeconds) item.payload) fits
      disk cursor filed

theorem Aligned.pushBatch (h : Aligned e) {items : List PushItem}
    (fits : ∀ item ∈ items, item.payload.length < 2 ^ 32) :
    Aligned (e.pushBatch env now queue items).1 := by
  have loop : Aligned (items.foldl (QueueEngine.pushBatchItem env now queue)
      ⟨e, [], 0, e.totalMessagesInRam⟩).engine :=
    List.foldlRecOn (motive := fun acc : PushBatch => Aligned acc.engine) items _ h
      fun acc kept item inside => kept.pushBatchItem (fits item inside)
  have counted : Aligned (e.pushBatchUnchecked env now queue items) :=
    loop.congr rfl rfl (loop.filed.congr rfl)
  exact counted.checkAndTriggerCompaction env

theorem Aligned.pageInStep (h : Aligned e) (env : Env) (now : Nat) (targetQueue : String)
    (fetchLimit : Nat) (flushed : Bool) :
    Aligned (pageInStep env now targetQueue fetchLimit e flushed).1 := by
  obtain ⟨xs, i, layout⟩ := h.layout
  rcases WalrQueue.pageInStep_cases layout env now targetQueue fetchLimit flushed with
    ⟨k, records, inside, rfl, outcome⟩ | same | rewound
  · have moved : Aligned { e with spillReadOffset := (segment (xs.take (i + k))).length } :=
      ⟨⟨xs, i + k, layout.move inside⟩, h.filed.congr rfl⟩
    rcases outcome with ⟨_, eq⟩ | ⟨_, eq⟩
    · rw [eq]
      obtain ⟨disk, cursor, _⟩ := disk_pageInChunk now targetQueue
        { e with spillReadOffset := (segment (xs.take (i + k))).length }
        (((xs.drop i).take k).map (readBack e.disk.registry))
      have part : (xs.drop i).take k ⊆ xs := fun x taken =>
        List.mem_of_mem_drop (List.mem_of_mem_take taken)
      refine moved.congr disk cursor (moved.filed.pageInChunk ?_ targetQueue)
      exact fun id name visibleAt payload member =>
        layout.holds.loadsOnly _ id name visibleAt payload (List.map_subset _ part member) _
    · rw [eq]
      exact moved
  · rw [same]
    exact h
  · rw [rewound]
    exact ⟨⟨xs, 0, layout.rewind⟩, h.filed.congr rfl⟩

theorem Aligned.poll (h : Aligned e) (env : Env) (now : Nat) (queue : String)
    (visibilitySec maxMessages : Nat) :
    Aligned (e.poll env now queue visibilitySec maxMessages).1 := by
  have routed : Aligned ((e.collectExpired (shardIdx queue) now).2.foldl
      (QueueEngine.routeExpired now) (e.collectExpired (shardIdx queue) now).1) := by
    obtain ⟨disk, cursor, _⟩ := disk_routeExpired_foldl now
      (e.collectExpired (shardIdx queue) now).1 (e.collectExpired (shardIdx queue) now).2
    exact h.congr disk cursor (h.filed.route (shardIdx queue) fun _ _ filed => filed.reroutes)
  have paged := prefetch_induction (P := Aligned)
    (fun fetchLimit e flushed h => h.pageInStep env now queue fetchLimit flushed) routed maxMessages
  rw [poll_eq]
  obtain ⟨disk, cursor⟩ := disk_claimSection env (e.polling env now queue maxMessages) queue now
    (e.visibility visibilitySec) maxMessages
  exact paged.congr disk cursor
    (paged.filed.claimSection (fun _ _ filed => filed) env queue now _ _)

theorem Aligned.ack (h : Aligned e) (messageId receipt : String) :
    Aligned (e.ack env queue messageId receipt).1 := by
  simp only [QueueEngine.ack]
  split
  · exact h
  · rename_i done success
    obtain ⟨id, _, success⟩ := Option.bind_eq_some_iff.1 success
    have filed := h.filed.ackUnchecked success
    refine Aligned.checkAndTriggerCompaction ?_ env
    unfold QueueEngine.ackUnchecked at success
    split at success
    · cases success
    · cases success
      exact h.append (r := .ack id queue) trivial rfl rfl filed

theorem Aligned.ackBatch (h : Aligned e) (items : List (String × String)) :
    Aligned (e.ackBatch env queue items).1 := by
  have loop : Aligned (QueueEngine.ackBatchLoop env e queue items).engine := by
    refine List.foldlRecOn (motive := fun acc : AckBatch => Aligned acc.engine) _ _ h
      fun acc kept item _ => ?_
    cases valid : (acc.engine.shards (shardIdx queue)).ackLease queue item.1 item.2 with
    | none =>
        rw [ackBatchItem_of_invalid valid]
        exact kept
    | some done =>
        obtain ⟨shards, disk, cursor, _⟩ := ackBatchItem_of_valid valid
        exact kept.append (r := .ack item.1 queue) trivial disk cursor
          ((kept.filed.setShard ((kept.filed _).ackLease valid)).congr shards)
  obtain ⟨disk, cursor, shards⟩ := disk_ackBatchUnchecked env e queue items
  have counted : Aligned (e.ackBatchUnchecked env queue items) :=
    loop.congr disk cursor (loop.filed.congr shards)
  exact counted.checkAndTriggerCompaction env

theorem Aligned.step {w : World} (h : Aligned w.engine) {op : Op}
    (small : ∀ payload ∈ op.payloads, payload.length < 2 ^ 32) :
    Aligned (w.step env op).engine := by
  cases op with
  | push queue id payload delaySec => exact h.pushWithUlid (small payload (by simp [Op.payloads]))
  | pushBatch queue items =>
      exact h.pushBatch fun item member => small _ (List.mem_map_of_mem member)
  | poll queue visibilitySec maxMessages => exact h.poll env w.clock queue _ _
  | ack queue messageId receipt => exact h.ack messageId receipt
  | ackBatch queue items => exact h.ackBatch items
  | advance seconds => exact h

/-! ## Runs -/

/-- The operations of a run that may also compact and clear the engine for recovery. -/
inductive UpkeepOp where
  | engine (op : Op)
  | checkAndTriggerCompaction
  | forceCompaction
  | clearForRaftRecovery
  deriving DecidableEq

/-- One operation of such a run. -/
def World.upkeepStep (env : Env) (w : World) : UpkeepOp → World
  | .engine op => w.step env op
  | .checkAndTriggerCompaction => ⟨w.engine.checkAndTriggerCompaction env, w.clock⟩
  | .forceCompaction => ⟨w.engine.forceCompaction env, w.clock⟩
  | .clearForRaftRecovery => ⟨w.engine.clearForRaftRecovery, w.clock⟩

/-- Payloads are under 4 GiB, and a forced compaction finds the cursor at the start. -/
def SafeUpkeep (w : World) : UpkeepOp → Prop
  | .engine op => ∀ payload ∈ op.payloads, payload.length < 2 ^ 32
  | .forceCompaction => w.engine.spillReadOffset = 0
  | _ => True

instance (w : World) : (op : UpkeepOp) → Decidable (SafeUpkeep w op)
  | .engine op => inferInstanceAs (Decidable (∀ payload ∈ op.payloads, payload.length < 2 ^ 32))
  | .forceCompaction => inferInstanceAs (Decidable (w.engine.spillReadOffset = 0))
  | .checkAndTriggerCompaction | .clearForRaftRecovery => isTrue trivial

theorem Aligned.upkeepStep {w : World} (h : Aligned w.engine) {op : UpkeepOp}
    (safe : SafeUpkeep w op) : Aligned (w.upkeepStep env op).engine := by
  cases op with
  | engine op => exact h.step safe
  | checkAndTriggerCompaction => exact h.checkAndTriggerCompaction env
  | forceCompaction => exact h.forceCompaction env safe
  | clearForRaftRecovery => exact h.clearForRaftRecovery

/-- The cursor is at a record boundary of the active segment after every such run, and stays
at one whatever records are appended next. -/
theorem World.cursor_aligned {opts : QueueOptions} {clock : Nat} {ops : List UpkeepOp}
    (safe : Trace.Along (World.upkeepStep env) SafeUpkeep (World.fresh env opts clock) ops) :
    let e := (ops.foldl (World.upkeepStep env) (World.fresh env opts clock)).engine
    e.disk.Boundary e.spillReadOffset ∧
      ∀ rs : List WalRecord, (∀ r ∈ rs, r.Fits) →
        (e.disk.appendAll rs).Boundary e.spillReadOffset := by
  have start : Aligned (World.fresh env opts clock).engine :=
    ⟨⟨[], 0, DiskLayout.fresh env opts clock⟩, (Written.fresh env opts clock).every⟩
  have aligned := safe.invariant (I := fun w => Aligned w.engine) start
    fun w op h safe => h.upkeepStep safe
  exact ⟨aligned.boundary, fun rs fits => aligned.boundary_appendAll fits⟩

/-- Room for one message in memory. -/
def oneInRam : QueueOptions where
  defaultVisibilityTimeoutSec := 300
  maxDeliveryCount := 5
  maxHotMessagesInRam := 1
  maxWalSegmentSize := 64 * 1024 * 1024
  ramCap_lt := QueueOptions.one_ramCap_lt

/-- Two pushes, the second kept on disk only, a poll that pages it in, and an ack of the
first. -/
def spillPollAck : List UpkeepOp :=
  [.engine (.push "a" 1 [1] 0), .engine (.push "a" 2 [2] 0), .engine (.poll "a" 30 1),
    .engine (.ack "a" (ulidText 1) (ulidText (Env.sample.ulidNew 1)))]

/-- The same with a forced compaction after the first push: it moves the record to the other
segment, and the poll pages in the second one from there. -/
theorem World.cursor_aligned_sample :
    let ops := [.engine (.push "a" 1 [1] 0), .forceCompaction, .engine (.push "a" 2 [2] 0),
      .engine (.poll "a" 30 1),
      .engine (.ack "a" (ulidText 1) (ulidText (Env.sample.ulidNew 33)))]
    let e := (ops.foldl (World.upkeepStep .sample) (World.fresh .sample oneInRam 1600000000)).engine
    e.disk.activeIsB = true ∧
      e.disk.activeRecords .sample =
        [.push 1 "a" 1600000000 [1], .push 2 "a" 1600000000 [2], .ack 1 "a"] ∧
      e.spillReadOffset = 56 ∧ e.disk.Boundary e.spillReadOffset ∧
      ∀ rs : List WalRecord, (∀ r ∈ rs, r.Fits) →
        (e.disk.appendAll rs).Boundary e.spillReadOffset :=
  ⟨by decide +kernel, by decide +kernel, by decide +kernel, World.cursor_aligned (by decide +kernel)⟩

/-- A forced compaction after `spillPollAck` leaves one record and the cursor beyond its end. -/
theorem World.cursor_astray :
    let ops := spillPollAck ++ [.forceCompaction]
    let e := (ops.foldl (World.upkeepStep .sample) (World.fresh .sample oneInRam 1600000000)).engine
    e.disk.active.length = 28 ∧ e.spillReadOffset = 56 ∧ ¬ e.disk.Boundary e.spillReadOffset := by
  intro ops e
  have length : e.disk.active.length = 28 := by decide +kernel
  have cursor : e.spillReadOffset = 56 := by decide +kernel
  refine ⟨length, cursor, fun aligned => ?_⟩
  have := aligned.le_length
  omega

end WalrQueue
