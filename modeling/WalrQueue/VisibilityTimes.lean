import WalrQueue.CompactionSafety

/-!
# Visibility times through the log

A push adds the delay to the clock in `u64` and writes the sum as 32-bit seconds since
2020.  The time that is stored and the time that is read back are the sum itself exactly
when the sum lies before the end of the 32-bit field, in the year 2156.
-/

namespace WalrQueue

open QueueEngine

variable {e e' : QueueEngine} {xs : List WalEntry} {i now delay : Nat} {queue : String} {id : Ulid}
  {payload : List UInt8}

/-- The first time that the field of a record cannot hold. -/
def endOfTime : Nat := epoch2020Sec + 2 ^ 32

theorem addU64_of_lt_endOfTime (early : now + delay < endOfTime) :
    addU64 now delay = now + delay := by
  refine addU64_of_lt ?_
  unfold endOfTime epoch2020Sec at early
  omega

theorem storedTime_addU64_iff (recent : epoch2020Sec ≤ now) :
    storedTime (addU64 now delay) = now + delay ↔ now + delay < endOfTime := by
  constructor
  · intro same
    have bound : storedTime (addU64 now delay) < endOfTime := by
      unfold storedTime endOfTime
      have := Nat.mod_lt (addU64 now delay - epoch2020Sec) (show 0 < 2 ^ 32 by norm_num)
      omega
    omega
  · intro early
    rw [addU64_of_lt_endOfTime early]
    unfold storedTime
    unfold endOfTime at early
    omega

/-! ## In memory -/

/-- A push that put a new id in memory gave its message this visibility time. -/
def StoresAt (e e' : QueueEngine) (queue : String) (id : Ulid) (visibleAt : Nat) : Prop :=
  id ∉ (e.shards (shardIdx queue)).messages → ∀ msg,
    AList.lookup id (e'.shards (shardIdx queue)).messages = some msg → msg.visibleAt = visibleAt

/-- The locked part of a push, which marks the id as seen and may store its message. -/
theorem StoresAt.enter {st : ShardState} (msg : StoredMsg)
    (shards : e'.shards = (e.setShard (shardIdx queue) st).shards)
    (after : st = { e.shards (shardIdx queue) with
        seenIds := insert msg.id (e.shards (shardIdx queue)).seenIds } ∨
      st = ShardState.store { e.shards (shardIdx queue) with
        seenIds := insert msg.id (e.shards (shardIdx queue)).seenIds } now msg) :
    StoresAt e e' queue msg.id msg.visibleAt := by
  intro new found there
  rw [shards, shards_setShard] at there
  rcases after with rfl | rfl
  · exact absurd (FMap.mem_of_lookup there) new
  · have there : AList.lookup msg.id
        (AList.insert msg.id msg (e.shards (shardIdx queue)).messages) = some found := there
    rw [AList.lookup_insert] at there
    cases there
    rfl

theorem StoresAt.pushUnchecked (e : QueueEngine) (now : Nat) (queue : String) (id : Ulid)
    (payload : List UInt8) (delay : Nat) :
    StoresAt e (e.pushUnchecked now queue id payload delay).1 queue id (addU64 now delay) := by
  unfold QueueEngine.pushUnchecked
  dsimp only
  split
  · intro new msg there
    exact absurd (FMap.mem_of_lookup there) new
  · obtain ⟨st, shards, after⟩ := shards_pushSection
      { e with disk := e.disk.append (.push id queue (addU64 now delay) payload) }
      now queue id payload (addU64 now delay)
    exact StoresAt.enter (e := e) (e.newMsg queue id payload (addU64 now delay)) shards after

theorem StoresAt.pushBatchNew (now : Nat) (queue : String) (acc : PushBatch) (id : Ulid)
    (item : PushItem) :
    StoresAt acc.engine (QueueEngine.pushBatchNew now queue acc id item).engine queue id
      (addU64 now item.delaySeconds) := by
  obtain ⟨st, shards, after⟩ := shards_pushBatchNew now queue acc id item
  exact StoresAt.enter (acc.engine.newMsg queue id item.payload (addU64 now item.delaySeconds))
    shards after

/-! ## On disk -/

/-- The last record of the active segment, as it is decoded, is a push with this visibility
time. -/
def DiskLog.WroteAt (env : Env) (d : DiskLog) (id : Ulid) (payload : List UInt8)
    (visibleAt : Nat) : Prop :=
  ∃ earlier name, d.activeRecords env = earlier ++ [.push id name visibleAt payload]

/-- The time an appended push is decoded with. -/
theorem DiskLayout.wroteAt_iff (h : DiskLayout e xs i) (env : Env) {visibleAt : Nat} (time : Nat)
    (fits : payload.length < 2 ^ 32)
    (disk : e'.disk = e.disk.append (.push id queue visibleAt payload))
    (cursor : e'.spillReadOffset = e.spillReadOffset) :
    e'.disk.WroteAt env id payload time ↔ storedTime visibleAt = time := by
  have layout := h.append (r := .push id queue visibleAt payload) fits disk cursor
  unfold DiskLog.WroteAt
  rw [layout.activeRecords, List.map_append, List.map_singleton]
  constructor
  · rintro ⟨earlier, name, same⟩
    have last := List.append_inj_right' same rfl
    simp only [readBack, DiskLog.newEntry, List.cons.injEq, WalRecord.push.injEq] at last
    exact last.1.2.2.1
  · rintro rfl
    exact ⟨_, _, rfl⟩

/-- What a push has to say of its time: the sum of the clock and the delay, in memory and on
disk. -/
def KeepsTime (env : Env) (e e' : QueueEngine) (queue : String) (id : Ulid) (payload : List UInt8)
    (visibleAt : Nat) : Prop :=
  StoresAt e e' queue id visibleAt ∧ e'.disk.WroteAt env id payload visibleAt

theorem KeepsTime.iff_early (h : DiskLayout e xs i) (env : Env) (recent : epoch2020Sec ≤ now)
    (fits : payload.length < 2 ^ 32)
    (disk : e'.disk = e.disk.append (.push id queue (addU64 now delay) payload))
    (cursor : e'.spillReadOffset = e.spillReadOffset)
    (stores : StoresAt e e' queue id (addU64 now delay)) :
    KeepsTime env e e' queue id payload (now + delay) ↔ now + delay < endOfTime := by
  have onDisk := h.wroteAt_iff env (now + delay) fits disk cursor
  rw [storedTime_addU64_iff recent] at onDisk
  refine ⟨fun keeps => onDisk.1 keeps.2, fun early => ⟨?_, onDisk.2 early⟩⟩
  rw [← addU64_of_lt_endOfTime early]
  exact stores

/-- The visibility time of a push is the clock plus the delay, in memory and as the record is
read back, exactly when that sum is below the end of the 32-bit field: for a single push and
for every item of a batch whose id is new. -/
theorem QueueEngine.keeps_time_iff (h : DiskLayout e xs i) (env : Env)
    (recent : epoch2020Sec ≤ now) (queue : String) :
    (∀ id payload delay, payload.length < 2 ^ 32 →
      (KeepsTime env e (e.pushUnchecked now queue id payload delay).1 queue id payload
        (now + delay) ↔ now + delay < endOfTime)) ∧
    ∀ (acc : PushBatch) (item : PushItem), acc.engine = e → item.payload.length < 2 ^ 32 →
      let id := (drawId env e.draws item.id).1
      id ∉ (e.shards (shardIdx queue)).seenIds →
      (KeepsTime env e (pushBatchItem env now queue acc item).engine queue id item.payload
        (now + item.delaySeconds) ↔ now + item.delaySeconds < endOfTime) := by
  constructor
  · intro id payload delay fits
    obtain ⟨disk, cursor⟩ := disk_pushUnchecked e now queue id payload delay
    exact KeepsTime.iff_early h env recent fits disk cursor (StoresAt.pushUnchecked _ _ _ _ _ _)
  · rintro acc item rfl fits id unseen
    rcases pushBatchItem_cases env now queue acc item with ⟨seen, _⟩ | ⟨_, eq⟩
    · exact absurd seen unseen
    · let drawn : PushBatch := { acc with
        engine := { acc.engine with draws := (drawId env acc.engine.draws item.id).2 }
        ids := acc.ids ++ [id] }
      rw [eq]
      obtain ⟨disk, cursor⟩ := disk_pushBatchNew now queue drawn id item
      have stores := StoresAt.pushBatchNew now queue drawn id item
      exact KeepsTime.iff_early h env recent fits disk cursor stores

theorem QueueEngine.keeps_time_sample :
    let e := (World.fresh .sample .default 1700000000).engine
    KeepsTime .sample e (e.pushUnchecked 1700000000 "a" 1 [7] 3600).1 "a" 1 [7] 1700003600 ∧
      KeepsTime .sample e
        (pushBatchItem .sample 1700000000 "a" ⟨e, [], 0, 0⟩ ⟨some 2, [8], 0⟩).engine
        "a" 2 [8] 1700000000 := by
  intro e
  have kept := keeps_time_iff (DiskLayout.fresh .sample .default 1700000000) .sample
    (show epoch2020Sec ≤ 1700000000 by decide) "a"
  exact ⟨(kept.1 1 [7] 3600 (by decide)).2 (by decide),
    (kept.2 ⟨e, [], 0, 0⟩ ⟨some 2, [8], 0⟩ rfl (by decide) (by decide +kernel)).2 (by decide)⟩

/-- A delay of `u64::MAX` wraps the sum and the message is visible at once; a delay of
`u32::MAX + 1` is lost in the record. -/
theorem QueueEngine.visibility_wraps :
    let e := (World.fresh .sample .default 1700000000).engine
    let atOnce := (e.pushUnchecked 1700000000 "a" 1 [7] (2 ^ 64 - 1)).1
    let lost := (pushBatchItem .sample 1700000000 "a" ⟨e, [], 0, 0⟩ ⟨some 2, [8], 2 ^ 32⟩).engine
    (AList.lookup 1 (atOnce.shards (shardIdx "a")).messages).map (·.visibleAt) =
        some 1699999999 ∧
      atOnce.disk.activeRecords .sample = [.push 1 "a" 1699999999 [7]] ∧
      lost.disk.activeRecords .sample = [.push 2 "a" 1700000000 [8]] := by
  decide +kernel

end WalrQueue
