import WalrQueue.AckOnce

/-!
# What a compaction may drop

A compaction writes the messages in memory and drops the rest of the segment.
It runs only when the page-in cursor is at the end of the segment, so every
record has been read; but a record read while its message was beyond the
horizon was skipped.  As long as no push was delayed beyond the horizon, every
record before the cursor belongs to a message in memory or to an acked one, and
a compaction loses nothing.
-/

namespace WalrQueue

open QueueEngine

/-- A message that page-in would load, filed under its own id. -/
def NearMsg (bound : Nat) (id : Ulid) (msg : StoredMsg) : Prop :=
  msg.id = id ∧ msg.payload.length < 2 ^ 32 ∧ storedTime msg.visibleAt ≤ bound

/-- No message in memory or in the segment is visible after `bound`. -/
structure Near (bound : Nat) (e : QueueEngine) (xs : List WalEntry) : Prop where
  messages : e.Every (NearMsg bound)
  entries : ∀ x ∈ xs, ∀ id queue visibleAt payload, x.2 = .push id queue visibleAt payload →
    storedTime visibleAt ≤ bound

/-- What is known of an id that was not acked: the segment has no Ack of it, and
it is in memory if a shard has recorded it as acked or a Push of it is before
the cursor. -/
structure Kept (e : QueueEngine) (xs : List WalEntry) (i : Nat) (m : Ulid) : Prop where
  noAck : ∀ x ∈ xs, x.2.msgId = m → x.2.isPush = true
  acked : ∀ s, m ∈ (e.shards s).ackedIds → e.InMemory m
  read : ∀ x ∈ xs.take i, x.2.msgId = m → e.InMemory m

/-- The invariant of a run without far pushes. -/
def CaughtUp (bound : Nat) (dead : Ulid → Prop) (e : QueueEngine) : Prop :=
  ∃ xs i, DiskLayout e xs i ∧ Near bound e xs ∧ ∀ m, ¬ dead m → Kept e xs i m

variable {e e' : QueueEngine} {xs : List WalEntry} {i bound bound' : Nat} {m : Ulid}
  {dead dead' : Ulid → Prop} {env : Env} {now : Nat}

theorem NearMsg.mono {id : Ulid} {msg : StoredMsg} (h : NearMsg bound id msg)
    (le : bound ≤ bound') : NearMsg bound' id msg := ⟨h.1, h.2.1, h.2.2.trans le⟩

theorem Near.mono (h : Near bound e xs) (le : bound ≤ bound') : Near bound' e xs where
  messages s id msg found := (h.messages s id msg found).mono le
  entries x member id queue visibleAt payload is :=
    (h.entries x member id queue visibleAt payload is).trans le

theorem CaughtUp.mono (h : CaughtUp bound dead e) (le : bound ≤ bound')
    (more : ∀ m, dead m → dead' m) : CaughtUp bound' dead' e := by
  obtain ⟨xs, i, layout, near, kept⟩ := h
  exact ⟨xs, i, layout, near.mono le, fun m alive => kept m fun was => alive (more m was)⟩

theorem Kept.keeps (h : Kept e xs i m) (keeps : Keeps m e e') : Kept e' xs i m where
  noAck := h.noAck
  acked s acked := (keeps.acked s acked).elim (fun before => keeps.memory (h.acked s before)) id
  read x member same := keeps.memory (h.read x member same)

/-- A record is appended after the section that goes with it. -/
theorem Kept.append (h : Kept e xs i m) (keeps : Keeps m e e') (inside : i ≤ xs.length)
    {x : WalEntry} (push : x.2.msgId = m → x.2.isPush = true) : Kept e' (xs ++ [x]) i m where
  noAck x' member same := by
    rcases List.mem_append.1 member with old | new
    · exact h.noAck x' old same
    · rw [List.mem_singleton.1 new] at same ⊢
      exact push same
  acked := (h.keeps keeps).acked
  read := by
    rw [List.take_append_of_le_length inside]
    exact (h.keeps keeps).read

/-! ## Compaction -/

theorem CaughtUp.checkAndTriggerCompaction (h : CaughtUp bound dead e) (env : Env) :
    CaughtUp bound dead (e.checkAndTriggerCompaction env) := by
  unfold QueueEngine.checkAndTriggerCompaction
  split
  · obtain ⟨xs, i, layout, near, kept⟩ := h
    have survivor : ∀ survivor ∈ e.surviving env, survivor.2.2.2.length < 2 ^ 32 ∧
        storedTime survivor.2.2.1 ≤ bound := by
      intro survivor survives
      obtain ⟨s, msg, found, eq⟩ := mem_surviving.1 survives
      obtain ⟨_, fits, soon⟩ := near.messages s _ _ found
      rw [eq]
      exact ⟨fits, soon⟩
    obtain ⟨ys, records, layout', _⟩ := layout.compact env fun s member => (survivor s member).1
    have origin : ∀ y ∈ ys, ∃ s ∈ e.surviving env, y.2 = DiskLog.survivorRecord s := by
      intro y member
      have record : y.2 ∈ (e.surviving env).map DiskLog.survivorRecord := by
        rw [← records]
        exact List.mem_map_of_mem member
      obtain ⟨s, survives, eq⟩ := List.mem_map.1 record
      exact ⟨s, survives, eq.symm⟩
    refine ⟨ys, 0, layout', ⟨near.messages.congr rfl, ?_⟩, fun m alive =>
      ⟨fun y member _ => ?_, (kept m alive).acked, by simp⟩⟩
    · intro y member id queue visibleAt payload is
      obtain ⟨s, survives, eq⟩ := origin y member
      rw [eq] at is
      cases is
      exact (survivor s survives).2
    · obtain ⟨s, _, eq⟩ := origin y member
      rw [eq]
      rfl
  · exact h

/-- A cursor at the end of the segment stands behind every entry. -/
theorem DiskLayout.length_le_of_atEof (h : DiskLayout e xs i) (atEof : e.isSpillAtEof = true) :
    xs.length ≤ i := by
  by_contra before
  have behind : (segment xs).length ≤ (segment (xs.take i)).length := by
    rw [← h.cursor, ← h.holds.bytes]
    simpa [isSpillAtEof] using atEof
  have split := congrArg List.length (segment_take_drop xs i)
  have rest := length_le_segment (xs.drop i)
  simp only [List.length_append, List.length_drop] at split rest
  omega

/-- At the end of the segment nothing that was not acked is on disk only. -/
theorem Kept.inMemory_of_atEof (h : Kept e xs i m) (layout : DiskLayout e xs i)
    (atEof : e.isSpillAtEof = true) {x : WalEntry} (member : x ∈ xs) (same : x.2.msgId = m) :
    e.InMemory m := by
  refine h.read x ?_ same
  rw [List.take_of_length_le (layout.length_le_of_atEof atEof)]
  exact member

/-! ## Page-in -/

/-- What page-in meets in a chunk: no Ack of `m`, and no message beyond the
horizon. -/
structure NearChunk (bound : Nat) (m : Ulid) (records : List WalRecord) : Prop where
  noAck : ∀ r ∈ records, r.msgId = m → r.isPush = true
  near : ∀ r ∈ records, ∀ id queue visibleAt payload, r = .push id queue visibleAt payload →
    payload.length < 2 ^ 32 ∧ storedTime visibleAt = visibleAt ∧ visibleAt ≤ bound

/-- One record: a Push of `m` leaves `m` in memory, every other record keeps it. -/
theorem pageInRecord_keeps (acked : ∀ s, m ∈ (e.shards s).ackedIds → e.InMemory m)
    (opts : QueueOptions) (targetQueue : String) {acc : PageIn} {r : WalRecord}
    {s : Fin numShards} (state : acc.state = e.shards s) (noAck : r.msgId = m → r.isPush = true)
    (near : ∀ id queue visibleAt payload, r = .push id queue visibleAt payload →
      visibleAt ≤ addU64 now hotDelayHorizonSec) :
    Keeps m e (e.setShard s (pageInRecord opts now targetQueue acc r).state) ∧
      (r.msgId = m →
        (e.setShard s (pageInRecord opts now targetQueue acc r).state).InMemory m) := by
  cases r with
  | ack msgId queueName =>
      have other : msgId ≠ m := fun same => by cases noAck same
      have other' : m ≠ msgId := fun same => other same.symm
      refine ⟨.setShard (fun inside => ?_) fun here => ?_, fun same => absurd same other⟩
      · rw [pageInRecord, ShardState.mem_applyAck other, state]
        exact inside
      · rw [pageInRecord, ShardState.ackedIds_applyAck, state] at here
        exact Or.inl (by simpa [other'] using here)
  | push msgId queueName visibleAt payload =>
      have soon := near _ _ _ _ rfl
      unfold pageInRecord
      dsimp only
      rw [state]
      split
      · refine ⟨.setShard (fun inside => (ShardState.mem_store now).2 (Or.inr inside))
          fun here => Or.inl here, fun same => ?_⟩
        have same : msgId = m := same
        exact inMemory_setShard ((ShardState.mem_store now).2 (Or.inl same.symm))
      · rename_i skipped
        rw [state, setShard_self]
        refine ⟨.refl, fun same => ?_⟩
        have same : msgId = m := same
        subst same
        -- a Push inside the horizon is skipped only when known or acked
        by_contra absent
        exact skipped ⟨soon, fun inside => absent ⟨s, inside⟩, fun inside => absent (acked s inside)⟩

theorem pageInRecords_keeps (records : List WalRecord)
    (acked : ∀ s, m ∈ (e.shards s).ackedIds → e.InMemory m) (chunk : NearChunk bound m records)
    (horizon : addU64 now hotDelayHorizonSec = bound) (opts : QueueOptions) (targetQueue : String)
    (acc : PageIn) {s : Fin numShards} (state : acc.state = e.shards s) :
    Keeps m e (e.setShard s (records.foldl (pageInRecord opts now targetQueue) acc).state) ∧
      ((∃ r ∈ records, r.msgId = m) →
        (e.setShard s (records.foldl (pageInRecord opts now targetQueue) acc).state).InMemory m) := by
  induction records generalizing e acc with
  | nil => exact ⟨by simpa [state] using Keeps.refl (m := m) (e := e), by simp⟩
  | cons r records ih =>
      obtain ⟨keeps, stored⟩ := pageInRecord_keeps acked opts targetQueue
        state (chunk.noAck r (by simp)) fun id queue visibleAt payload is =>
          horizon ▸ (chunk.near r (by simp) id queue visibleAt payload is).2.2
      have rest := ih (e := e.setShard s (pageInRecord opts now targetQueue acc r).state)
        (fun s' here => (keeps.acked s' here).elim (fun before => keeps.memory (acked s' before)) id)
        ⟨fun r' member => chunk.noAck r' (by simp [member]),
          fun r' member => chunk.near r' (by simp [member])⟩
        (pageInRecord opts now targetQueue acc r) (by simp)
      simp only [setShard_setShard] at rest
      refine ⟨keeps.trans rest.1, ?_⟩
      rintro ⟨r', member, same⟩
      rcases List.mem_cons.1 member with rfl | later
      · exact rest.1.memory (stored same)
      · exact rest.2 ⟨r', later, same⟩

/-- A chunk leaves every id it has a Push of in memory. -/
theorem pageInChunk_keeps {records : List WalRecord}
    (acked : ∀ s, m ∈ (e.shards s).ackedIds → e.InMemory m) (chunk : NearChunk bound m records)
    (horizon : addU64 now hotDelayHorizonSec = bound) (targetQueue : String) :
    Keeps m e (pageInChunk now targetQueue e records).engine ∧
      ((∃ r ∈ records, r.msgId = m) →
        (pageInChunk now targetQueue e records).engine.InMemory m) := by
  have shards : ∀ (ss : List (Fin numShards)) (acc : PageInChunk),
      (∀ s, m ∈ (acc.engine.shards s).ackedIds → acc.engine.InMemory m) →
      Keeps m acc.engine (ss.foldl (pageInShard now targetQueue records) acc).engine ∧
        ((∃ r ∈ records, r.msgId = m ∧ shardIdx r.queueName ∈ ss) →
          (ss.foldl (pageInShard now targetQueue records) acc).engine.InMemory m) := by
    intro ss
    induction ss with
    | nil => exact fun acc _ => ⟨.refl, by simp⟩
    | cons s ss ih =>
        intro acc acked
        obtain ⟨keeps, stored⟩ := pageInRecords_keeps (shardRecords records s) acked
          ⟨fun r member => chunk.noAck r (List.mem_of_mem_filter member),
            fun r member => chunk.near r (List.mem_of_mem_filter member)⟩ horizon
          acc.engine.options targetQueue
          ⟨acc.engine.shards s, acc.engine.totalMessagesInRam, acc.added, acc.targetAdded⟩
          (s := s) rfl
        have keeps' : Keeps m acc.engine (pageInShard now targetQueue records acc s).engine :=
          keeps.trans (.of_shards rfl)
        have rest := ih (pageInShard now targetQueue records acc s) fun s' here =>
          (keeps'.acked s' here).elim (fun before => keeps'.memory (acked s' before)) id
        refine ⟨keeps'.trans rest.1, ?_⟩
        rintro ⟨r, member, same, inside⟩
        rcases List.mem_cons.1 inside with here | later
        · exact rest.1.memory (stored ⟨r, List.mem_filter.2 ⟨member, by simpa using here⟩, same⟩)
        · exact rest.2 ⟨r, member, same, later⟩
  obtain ⟨keeps, stored⟩ := shards (List.finRange numShards) ⟨e, 0, 0⟩ acked
  refine ⟨keeps.trans (.of_shards rfl), ?_⟩
  rintro ⟨r, member, same⟩
  exact stored ⟨r, member, same, List.mem_finRange _⟩

/-- The records of a paging read, for a caught-up engine. -/
theorem Near.chunk (h : Near bound e xs) (layout : DiskLayout e xs i) (k : Nat) :
    ∀ r ∈ ((xs.drop i).take k).map (readBack e.disk.registry),
      ∀ id queue visibleAt payload, r = .push id queue visibleAt payload →
        payload.length < 2 ^ 32 ∧ storedTime visibleAt = visibleAt ∧ visibleAt ≤ bound := by
  intro r member id queue visibleAt payload is
  obtain ⟨⟨qId, record⟩, taken, rfl⟩ := List.mem_map.1 member
  have inside : (qId, record) ∈ xs := List.mem_of_mem_drop (List.mem_of_mem_take taken)
  cases record with
  | ack msgId queueName => cases is
  | push msgId queueName visibleAt' payload' =>
      cases is
      exact ⟨(layout.holds.fits _ inside).2, storedTime_storedTime _,
        h.entries _ inside _ _ _ _ rfl⟩

/-- A chunk whose records have just been passed by the cursor. -/
theorem CaughtUp.pageInChunk {records : List WalRecord} (layout : DiskLayout e xs i)
    (near : Near bound e xs) (horizon : addU64 now hotDelayHorizonSec = bound)
    (chunk : ∀ m, ¬ dead m → NearChunk bound m records)
    (each : ∀ r ∈ records, ∀ id queue visibleAt payload, r = .push id queue visibleAt payload →
      payload.length < 2 ^ 32 ∧ storedTime visibleAt = visibleAt ∧ visibleAt ≤ bound)
    (noAck : ∀ m, ¬ dead m → ∀ x ∈ xs, x.2.msgId = m → x.2.isPush = true)
    (acked : ∀ m, ¬ dead m → ∀ s, m ∈ (e.shards s).ackedIds → e.InMemory m)
    (read : ∀ m, ¬ dead m → ∀ x ∈ xs.take i, x.2.msgId = m →
      e.InMemory m ∨ ∃ r ∈ records, r.msgId = m) (targetQueue : String) :
    CaughtUp bound dead (QueueEngine.pageInChunk now targetQueue e records).engine := by
  obtain ⟨disk, cursor, _⟩ := disk_pageInChunk now targetQueue e records
  refine ⟨xs, i, layout.congr disk cursor,
    ⟨near.messages.pageInChunk (fun id queue visibleAt payload member => ?_) targetQueue,
      near.entries⟩, fun m alive => ?_⟩
  · obtain ⟨fits, same, soon⟩ := each _ member id queue visibleAt payload rfl
    exact ⟨rfl, fits, same.le.trans soon⟩
  obtain ⟨keeps, stored⟩ := pageInChunk_keeps (acked m alive) (chunk m alive) horizon targetQueue
  refine ⟨noAck m alive, fun s here => ?_, fun x member same => ?_⟩
  · rcases keeps.acked s here with before | inside
    · exact keeps.memory (acked m alive s before)
    · exact inside
  · rcases read m alive x member same with inside | passed
    · exact keeps.memory inside
    · exact stored passed

/-- One turn of the page-in loop. -/
theorem CaughtUp.pageInStep (h : CaughtUp bound dead e)
    (horizon : addU64 now hotDelayHorizonSec = bound) (env : Env) (targetQueue : String)
    (fetchLimit : Nat) (flushed : Bool) :
    CaughtUp bound dead (pageInStep env now targetQueue fetchLimit e flushed).1 := by
  obtain ⟨xs, i, layout, near, kept⟩ := h
  rcases pageInStep_cases layout env now targetQueue fetchLimit flushed with
    ⟨k, records, inside, eq, outcome⟩ | same | rewound
  · have chunk := near.chunk layout k
    have noAck : ∀ m, ¬ dead m → ∀ r ∈ records, r.msgId = m → r.isPush = true := by
      intro m alive r member same
      rw [eq] at member
      obtain ⟨x, taken, rfl⟩ := List.mem_map.1 member
      rw [isPush_readBack]
      exact (kept m alive).noAck x (List.mem_of_mem_drop (List.mem_of_mem_take taken))
        (by simpa using same)
    -- the entries up to the new cursor are those before the old one and the chunk
    have passed : ∀ m, ¬ dead m → ∀ x ∈ xs.take (i + k), x.2.msgId = m → e.InMemory m ∨
        ∃ r ∈ records, r.msgId = m := by
      intro m alive x member same
      rw [List.take_add] at member
      rcases List.mem_append.1 member with old | new
      · exact Or.inl ((kept m alive).read x old same)
      · exact Or.inr ⟨_, eq ▸ List.mem_map_of_mem new, by simpa using same⟩
    rw [← eq] at chunk
    have near' : Near bound { e with spillReadOffset := (segment (xs.take (i + k))).length } xs :=
      ⟨near.messages, near.entries⟩
    rcases outcome with ⟨_, step⟩ | ⟨acksOnly, step⟩
    · rw [step]
      exact CaughtUp.pageInChunk (layout.move inside) near' horizon
        (fun m alive => ⟨noAck m alive, chunk⟩) chunk (fun m alive => (kept m alive).noAck)
        (fun m alive => (kept m alive).acked) passed targetQueue
    · rw [step]
      refine ⟨xs, i + k, layout.move inside, near',
        fun m alive => ⟨(kept m alive).noAck, (kept m alive).acked, fun x member same => ?_⟩⟩
      rcases passed m alive x member same with inMemory | ⟨r, new, mine⟩
      · exact inMemory
      · have isPush := List.any_eq_true.2 ⟨r, new, noAck m alive r new mine⟩
        rw [acksOnly] at isPush
        cases isPush
  · rw [same]
    exact ⟨xs, i, layout, near, kept⟩
  · rw [rewound]
    exact ⟨xs, 0, layout.rewind, ⟨near.messages, near.entries⟩, fun m alive =>
      ⟨(kept m alive).noAck, (kept m alive).acked, by simp⟩⟩

/-! ## Poll -/

/-- Sections that keep every id and leave the files alone. -/
theorem CaughtUp.of_keeps (h : CaughtUp bound dead e) (keeps : ∀ m, ¬ dead m → Keeps m e e')
    (every : e'.Every (NearMsg bound)) (disk : e'.disk = e.disk)
    (cursor : e'.spillReadOffset = e.spillReadOffset) : CaughtUp bound dead e' := by
  obtain ⟨xs, i, layout, near, kept⟩ := h
  exact ⟨xs, i, layout.congr disk cursor, ⟨every, near.entries⟩,
    fun m alive => (kept m alive).keeps (keeps m alive)⟩

theorem CaughtUp.every (h : CaughtUp bound dead e) : e.Every (NearMsg bound) := by
  obtain ⟨_, _, _, near, _⟩ := h
  exact near.messages

theorem CaughtUp.keyed (h : CaughtUp bound dead e) (s : Fin numShards) : (e.shards s).Keyed :=
  fun id msg found => (h.every s id msg found).1

theorem CaughtUp.poll (h : CaughtUp bound dead e)
    (horizon : addU64 now hotDelayHorizonSec = bound) (present : storedTime now ≤ bound)
    (env : Env) (queue : String) (visibilitySec maxMessages : Nat) :
    CaughtUp bound dead (e.poll env now queue visibilitySec maxMessages).1 := by
  obtain ⟨disk, cursor, _⟩ := disk_routeExpired_foldl now (e.collectExpired (shardIdx queue) now).1
    (e.collectExpired (shardIdx queue) now).2
  have routed : CaughtUp bound dead ((e.collectExpired (shardIdx queue) now).2.foldl
      (QueueEngine.routeExpired now) (e.collectExpired (shardIdx queue) now).1) :=
    h.of_keeps (fun m _ => .route e (shardIdx queue) (h.keyed _) now)
      (h.every.route (shardIdx queue) fun id msg near msg' sameId samePayload nowVisible =>
        ⟨rfl, by rw [samePayload]; exact near.2.1, by rw [nowVisible]; exact present⟩) disk cursor
  have prefetched : CaughtUp bound dead (e.polling env now queue maxMessages) :=
    prefetch_induction (fun fetchLimit _ flushed caught =>
      caught.pageInStep horizon env queue fetchLimit flushed) routed maxMessages
  rw [poll_eq]
  obtain ⟨disk', cursor'⟩ := disk_claimSection env (e.polling env now queue maxMessages) queue now
    (e.visibility visibilitySec) maxMessages
  exact prefetched.of_keeps (fun m _ => .claimSection _ env queue now _ maxMessages)
    (prefetched.every.claimSection (fun id msg h => h) env queue now _ maxMessages) disk' cursor'

/-! ## Push -/

/-- A section followed by the append of a record that goes with it. -/
theorem CaughtUp.append (h : CaughtUp bound dead e) (keeps : ∀ m, ¬ dead' m → Keeps m e e')
    (more : ∀ m, dead m → dead' m) (every : e'.Every (NearMsg bound)) {r : WalRecord}
    (fits : r.Fits) (disk : e'.disk = e.disk.append r)
    (cursor : e'.spillReadOffset = e.spillReadOffset)
    (near : ∀ id queue visibleAt payload, r = .push id queue visibleAt payload →
      storedTime visibleAt ≤ bound)
    (push : ∀ m, ¬ dead' m → r.msgId = m → r.isPush = true) : CaughtUp bound dead' e' := by
  obtain ⟨xs, i, layout, near', kept⟩ := h
  refine ⟨_, i, layout.append fits disk cursor, ⟨every, fun x member => ?_⟩, fun m alive =>
    (kept m fun was => alive (more m was)).append (keeps m alive) layout.inside (push m alive)⟩
  rcases List.mem_append.1 member with old | new
  · exact near'.entries x old
  · rw [List.mem_singleton.1 new]
    exact near

theorem CaughtUp.pushUnchecked (h : CaughtUp bound dead e) (queue : String) (id : Ulid)
    {payload : List UInt8} {delaySec : Nat} (fits : payload.length < 2 ^ 32)
    (soon : storedTime (addU64 now delaySec) ≤ bound) :
    CaughtUp bound dead (e.pushUnchecked now queue id payload delaySec).1 := by
  obtain ⟨disk, cursor⟩ := disk_pushUnchecked e now queue id payload delaySec
  have section2 : ∀ m, Keeps m e (e.pushUnchecked now queue id payload delaySec).1 ∧
      (e.pushUnchecked now queue id payload delaySec).1.Every (NearMsg bound) := by
    intro m
    unfold QueueEngine.pushUnchecked
    dsimp only
    split
    · exact ⟨.of_shards rfl, h.every.congr rfl⟩
    · obtain ⟨st, shards, after⟩ := shards_pushSection
        { e with disk := e.disk.append (.push id queue (addU64 now delaySec) payload) }
        now queue id payload (addU64 now delaySec)
      exact ⟨Keeps.enter (e := e) (e.newMsg queue id payload (addU64 now delaySec)) shards after,
        Every.enter (e := e) h.every (e.newMsg queue id payload (addU64 now delaySec)) shards after
          ⟨rfl, fits, soon⟩⟩
  exact h.append (fun m _ => (section2 m).1) (fun _ was => was) (section2 id).2
    (r := .push id queue (addU64 now delaySec) payload) fits disk cursor
    (fun _ _ _ _ is => by cases is; exact soon) (fun _ _ _ => rfl)

theorem CaughtUp.pushBatchItem {acc : PushBatch} (h : CaughtUp bound dead acc.engine) (env : Env)
    {queue : String} {item : PushItem} (fits : item.payload.length < 2 ^ 32)
    (soon : storedTime (addU64 now item.delaySeconds) ≤ bound) :
    CaughtUp bound dead (pushBatchItem env now queue acc item).engine := by
  have drawn : CaughtUp bound dead
      { acc.engine with draws := (drawId env acc.engine.draws item.id).2 } :=
    h.of_keeps (fun _ _ => .of_shards rfl) (h.every.congr rfl) rfl rfl
  unfold QueueEngine.pushBatchItem
  dsimp only
  split
  · exact drawn
  · generalize (drawId env acc.engine.draws item.id).1 = id
    generalize acc.ids ++ [id] = ids
    obtain ⟨disk, cursor⟩ := disk_pushBatchNew now queue
      ⟨{ acc.engine with draws := (drawId env acc.engine.draws item.id).2 }, ids,
        acc.addedCount, acc.curRam⟩ id item
    obtain ⟨st, shards, after⟩ := shards_pushBatchNew now queue
      ⟨{ acc.engine with draws := (drawId env acc.engine.draws item.id).2 }, ids,
        acc.addedCount, acc.curRam⟩ id item
    exact drawn.append (fun m _ => .enter (acc.engine.newMsg queue id item.payload
        (addU64 now item.delaySeconds)) shards after) (fun _ was => was)
      (drawn.every.enter (acc.engine.newMsg queue id item.payload
        (addU64 now item.delaySeconds)) shards after ⟨rfl, fits, soon⟩)
      (r := .push id queue (addU64 now item.delaySeconds) item.payload) fits disk cursor
      (fun _ _ _ _ is => by cases is; exact soon) (fun _ _ _ => rfl)

theorem CaughtUp.pushBatchUnchecked (h : CaughtUp bound dead e) (env : Env) {queue : String}
    {items : List PushItem} (fits : ∀ item ∈ items, item.payload.length < 2 ^ 32)
    (soon : ∀ item ∈ items, storedTime (addU64 now item.delaySeconds) ≤ bound) :
    CaughtUp bound dead (e.pushBatchUnchecked env now queue items) := by
  have loop : ∀ (items : List PushItem) (acc : PushBatch),
      (∀ item ∈ items, item.payload.length < 2 ^ 32 ∧
        storedTime (addU64 now item.delaySeconds) ≤ bound) →
      CaughtUp bound dead acc.engine →
      CaughtUp bound dead (items.foldl (QueueEngine.pushBatchItem env now queue) acc).engine := by
    intro items
    induction items with
    | nil => exact fun acc _ h => h
    | cons item items ih =>
        intro acc each h
        exact ih _ (fun item' member => each item' (by simp [member]))
          (h.pushBatchItem env (each item (by simp)).1 (each item (by simp)).2)
  have done := loop items ⟨e, [], 0, e.totalMessagesInRam⟩
    (fun item member => ⟨fits item member, soon item member⟩) h
  exact done.of_keeps (fun _ _ => .of_shards rfl) (done.every.congr rfl) rfl rfl

/-! ## Ack -/

theorem CaughtUp.ackUnchecked (h : CaughtUp bound dead e) {queue receipt : String} {id : Ulid}
    {done : QueueEngine} (success : e.ackUnchecked queue id receipt = some done) :
    CaughtUp bound (fun m => dead m ∨ m = id) done := by
  unfold QueueEngine.ackUnchecked at success
  split at success
  · cases success
  · rename_i st wasLive valid
    cases success
    refine h.append (r := .ack id queue) (fun m alive => ?_) (fun m was => Or.inl was) ?_ trivial
      rfl rfl (fun _ _ _ _ is => by cases is) (fun m alive same => absurd (Or.inr same.symm) alive)
    · have other : id ≠ m := fun same => alive (Or.inr same.symm)
      exact (Keeps.ackLease valid other).trans (.of_shards rfl)
    · exact (h.every.setShard ((h.every _).ackLease valid)).congr rfl

theorem CaughtUp.ackBatchLoop (queue : String) (items : List (Ulid × String)) (acc : AckBatch)
    (h : CaughtUp bound dead acc.engine) :
    ∃ accepted, (items.foldl (ackBatchItem queue) acc).accepted = acc.accepted ++ accepted ∧
      CaughtUp bound (fun m => dead m ∨ m ∈ accepted.map Prod.fst)
        (items.foldl (ackBatchItem queue) acc).engine := by
  induction items generalizing acc dead with
  | nil => exact ⟨[], by simp, by simpa using h⟩
  | cons item items ih =>
      rw [List.foldl_cons]
      cases valid : (acc.engine.shards (shardIdx queue)).ackLease queue item.1 item.2 with
      | none =>
          have next : ackBatchItem queue acc item = acc := by
            unfold ackBatchItem
            rw [valid]
          rw [next]
          exact ih acc h
      | some done =>
          have next : (ackBatchItem queue acc item).accepted = acc.accepted ++ [item] ∧
              CaughtUp bound (fun m => dead m ∨ m = item.1)
                (ackBatchItem queue acc item).engine := by
            unfold ackBatchItem
            rw [valid]
            refine ⟨rfl, h.append (r := .ack item.1 queue) (fun m alive => ?_)
              (fun m was => Or.inl was) ?_ trivial rfl rfl (fun _ _ _ _ is => by cases is)
              (fun m alive same => absurd (Or.inr same.symm) alive)⟩
            · have other : item.1 ≠ m := fun same => alive (Or.inr same.symm)
              exact (Keeps.ackLease valid other).trans (.of_shards rfl)
            · exact (h.every.setShard ((h.every _).ackLease valid)).congr rfl
          obtain ⟨accepted, list, caught⟩ := ih _ next.2
          refine ⟨item :: accepted, by rw [list, next.1]; simp, caught.mono le_rfl ?_⟩
          intro m was
          rcases was with (was | rfl) | later
          · exact Or.inl was
          · exact Or.inr (by simp)
          · exact Or.inr (by simp only [List.map_cons, List.mem_cons]; exact Or.inr later)

theorem CaughtUp.ackBatchUnchecked (h : CaughtUp bound dead e) (env : Env) (queue : String)
    (items : List (String × String)) :
    CaughtUp bound
      (fun m => dead m ∨ m ∈ (QueueEngine.ackBatchLoop env e queue items).accepted.map Prod.fst)
      (e.ackBatchUnchecked env queue items) := by
  obtain ⟨accepted, list, caught⟩ := CaughtUp.ackBatchLoop queue (parsedItems env items)
    ⟨e, 0, []⟩ h
  obtain ⟨disk, cursor, shards⟩ := disk_ackBatchUnchecked env e queue items
  have list : (QueueEngine.ackBatchLoop env e queue items).accepted = accepted := list
  rw [list]
  exact caught.of_keeps (fun _ _ => .of_shards shards) (caught.every.congr shards) disk cursor

/-! ## Along a run -/

/-- Payloads are under 4 GiB and no push is delayed beyond the horizon. -/
structure Op.IsNear (op : Op) : Prop where
  small : ∀ payload ∈ op.payloads, payload.length < 2 ^ 32
  near : ∀ delay ∈ op.delays, delay ≤ hotDelayHorizonSec

/-- A clock after 2020, up to the horizon, and far from the end of its range. -/
structure ClockInRange (clock : Nat) : Prop where
  late : epoch2020Sec ≤ clock + hotDelayHorizonSec
  early : clock + hotDelayHorizonSec < 2 ^ 64

theorem ClockInRange.soon {clock delay : Nat} (h : ClockInRange clock)
    (near : delay ≤ hotDelayHorizonSec) :
    storedTime (addU64 clock delay) ≤ clock + hotDelayHorizonSec := by
  have := h.early
  rw [addU64_of_lt (by omega)]
  exact storedTime_le (by omega) h.late

theorem ClockInRange.horizon {clock : Nat} (h : ClockInRange clock) :
    addU64 clock hotDelayHorizonSec = clock + hotDelayHorizonSec := addU64_of_lt h.early

variable {w : World} {op : Op} {mid : QueueEngine}

/-- What an operation hands to the compaction check. -/
theorem CaughtUp.checkpoint (h : CaughtUp (w.clock + hotDelayHorizonSec) dead w.engine)
    (clock : ClockInRange w.clock) (near : op.IsNear) (reached : w.checkpoint env op = some mid) :
    CaughtUp (w.clock + hotDelayHorizonSec) (fun m => dead m ∨ .acked m ∈ w.events env op) mid := by
  cases op with
  | push queue id payload delaySec =>
      simp only [World.checkpoint] at reached
      split at reached
      · cases reached
        exact (h.pushUnchecked queue id (near.small payload (by simp [Op.payloads]))
          (clock.soon (near.near delaySec (by simp [Op.delays])))).mono le_rfl fun m was => Or.inl was
      · cases reached
  | pushBatch queue items =>
      cases reached
      refine (h.pushBatchUnchecked env
        (fun item member => near.small _ (List.mem_map_of_mem member))
        (fun item member => clock.soon (near.near _ ?_))).mono le_rfl fun m was => Or.inl was
      exact List.mem_map_of_mem member
  | poll queue visibilitySec maxMessages => cases reached
  | ack queue messageId receipt =>
      obtain ⟨id, parsed, success⟩ := Option.bind_eq_some_iff.1 reached
      refine (h.ackUnchecked success).mono le_rfl fun m was => was.imp_right ?_
      rintro rfl
      have replied : (w.engine.ack env queue messageId receipt).2 = true := by
        simp [QueueEngine.ack, parsed, success]
      simp [World.events, replied, parsed]
  | ackBatch queue items =>
      cases reached
      refine (h.ackBatchUnchecked env queue items).mono le_rfl fun m was => was.imp_right ?_
      intro accepted
      obtain ⟨item, member, rfl⟩ := List.mem_map.1 accepted
      exact List.mem_map.2 ⟨item, member, rfl⟩
  | advance seconds => cases reached

theorem CaughtUp.step (h : CaughtUp (w.clock + hotDelayHorizonSec) dead w.engine)
    (clock : ClockInRange w.clock) (near : op.IsNear) (env : Env) :
    CaughtUp ((w.step env op).clock + hotDelayHorizonSec)
      (fun m => dead m ∨ .acked m ∈ w.events env op) (w.step env op).engine := by
  cases reached : w.checkpoint env op with
  | some mid =>
      have checked := (h.checkpoint clock near reached).checkAndTriggerCompaction env
      rw [World.step_of_checkpoint reached]
      exact checked.mono (Nat.add_le_add_right (World.clock_le_step env w op) _) fun m was => was
  | none =>
      cases op with
      | push queue id payload delaySec =>
          have done := h.pushUnchecked queue id
            (near.small payload (by simp [Op.payloads]))
            (clock.soon (near.near delaySec (by simp [Op.delays])))
          simp only [World.checkpoint] at reached
          split at reached
          · cases reached
          · rename_i early
            simp only [World.step, World.exec, QueueEngine.pushWithUlid, if_neg early]
            exact done.mono le_rfl fun m was => Or.inl was
      | pushBatch queue items => cases reached
      | poll queue visibilitySec maxMessages =>
          exact (h.poll clock.horizon (storedTime_le (by omega) clock.late) env queue visibilitySec
            maxMessages).mono le_rfl fun m was => Or.inl was
      | ack queue messageId receipt =>
          simp only [World.checkpoint] at reached
          simp only [World.step, World.exec, QueueEngine.ack, reached]
          exact h.mono le_rfl fun m was => Or.inl was
      | ackBatch queue items => cases reached
      | advance seconds =>
          exact h.mono (by simp only [World.step, World.exec]; omega) fun m was => Or.inl was

/-- Along a run without far pushes the engine is caught up. -/
theorem World.caughtUp_run {opts : QueueOptions} {clock : Nat} {ops : List Op}
    (near : ∀ op ∈ ops, op.IsNear) (late : epoch2020Sec ≤ clock + hotDelayHorizonSec)
    (early : ((World.fresh env opts clock).run env ops).clock + hotDelayHorizonSec < 2 ^ 64) :
    CaughtUp (((World.fresh env opts clock).run env ops).clock + hotDelayHorizonSec)
      (fun m => .acked m ∈ (World.fresh env opts clock).history env ops)
      ((World.fresh env opts clock).run env ops).engine := by
  induction ops using List.reverseRecOn with
  | nil =>
      exact ⟨[], 0, DiskLayout.fresh env opts clock,
        ⟨fun s id msg found => (by cases found), by simp⟩,
        fun m _ => ⟨by simp, fun s here => (by cases here), by simp⟩⟩
  | append_singleton ops op ih =>
      rw [World.run_concat] at early ⊢
      have before := World.clock_le_step env ((World.fresh env opts clock).run env ops) op
      have start := World.clock_le_run env (World.fresh env opts clock) ops
      have start : clock ≤ ((World.fresh env opts clock).run env ops).clock := start
      have caught := ih (fun op' member => near op' (by simp [member])) (by omega)
      refine (caught.step ⟨by omega, by omega⟩ (near op (by simp)) env).mono le_rfl fun m was => ?_
      rw [World.history_concat, List.mem_append]
      exact was

/-! ## Compaction loses no unacked message -/

/-- The id has a Push record in one of the segments. -/
def QueueEngine.HasPush (env : Env) (e : QueueEngine) (m : Ulid) : Prop :=
  ∃ r ∈ e.disk.records env, r.isPush = true ∧ r.msgId = m

/-- The id has a Push record in the active segment and no Ack there. -/
def QueueEngine.HasUnackedPush (env : Env) (e : QueueEngine) (m : Ulid) : Prop :=
  (∃ r ∈ e.disk.activeRecords env, r.isPush = true ∧ r.msgId = m) ∧
    ∀ r ∈ e.disk.activeRecords env, r.msgId = m → r.isPush = true

instance (env : Env) (e : QueueEngine) (m : Ulid) : Decidable (e.HasPush env m) :=
  inferInstanceAs (Decidable (∃ r ∈ e.disk.records env, r.isPush = true ∧ r.msgId = m))

instance (env : Env) (e : QueueEngine) (m : Ulid) : Decidable (e.HasUnackedPush env m) :=
  inferInstanceAs (Decidable ((∃ r ∈ e.disk.activeRecords env, r.isPush = true ∧ r.msgId = m) ∧
    ∀ r ∈ e.disk.activeRecords env, r.msgId = m → r.isPush = true))

theorem activeRecords_subset (env : Env) (d : DiskLog) {r : WalRecord}
    (member : r ∈ d.activeRecords env) : r ∈ d.records env := by
  unfold DiskLog.activeRecords DiskLog.active at member
  unfold DiskLog.records
  split at member
  · exact List.mem_append_right _ member
  · exact List.mem_append_left _ member

theorem DiskLayout.activeRecords (h : DiskLayout e xs i) (env : Env) :
    e.disk.activeRecords env = xs.map (readBack e.disk.registry) := by
  rw [DiskLog.activeRecords, h.holds.active, readWalFile_segment h.holds.fits]

/-- Every compaction check of a run keeps every message that was not acked, as
long as no push made before a check that compacts was delayed by more than the
horizon. -/
theorem World.compaction_keeps_unacked {opts : QueueOptions} {clock : Nat} {ops : List Op}
    (small : ∀ op' ∈ ops ++ [op], ∀ payload ∈ op'.payloads, payload.length < 2 ^ 32)
    (late : epoch2020Sec ≤ clock + hotDelayHorizonSec)
    (early : ((World.fresh env opts clock).run env (ops ++ [op])).clock + hotDelayHorizonSec < 2 ^ 64)
    (reached : ((World.fresh env opts clock).run env ops).checkpoint env op = some mid)
    (near : mid.compacts = true →
      ∀ op' ∈ ops ++ [op], ∀ delay ∈ op'.delays, delay ≤ hotDelayHorizonSec)
    (unacked : Event.acked m ∉ (World.fresh env opts clock).history env (ops ++ [op]))
    (held : mid.InMemory m ∨ mid.HasUnackedPush env m) :
    let after := ((World.fresh env opts clock).run env (ops ++ [op])).engine
    after.InMemory m ∨ after.HasPush env m := by
  intro after
  have checked : after = mid.checkAndTriggerCompaction env := by
    simp only [after, World.run_concat]
    exact World.step_of_checkpoint reached
  have sameMemory : mid.InMemory m → after.InMemory m := by
    rintro ⟨s, inside⟩
    refine ⟨s, ?_⟩
    rw [checked, shards_checkAndTriggerCompaction]
    exact inside
  rcases held with inside | ⟨⟨r, member, isPush, same⟩, _⟩
  · exact Or.inl (sameMemory inside)
  · by_cases compacts : mid.compacts = true
    · have isNear : ∀ op' ∈ ops ++ [op], op'.IsNear := fun op' inside =>
        ⟨small op' inside, near compacts op' inside⟩
      rw [World.run_concat] at early
      have start : clock ≤ ((World.fresh env opts clock).run env ops).clock :=
        World.clock_le_run env (World.fresh env opts clock) ops
      have before := World.clock_le_step env ((World.fresh env opts clock).run env ops) op
      have caught := (World.caughtUp_run (fun op' inside => isNear op' (by simp [inside])) late
        (by omega)).checkpoint ⟨by omega, by omega⟩ (isNear op (by simp)) reached
      obtain ⟨xs, i, layout, _, kept⟩ := caught
      have alive := kept m fun was => unacked (by
        rw [World.history_concat, List.mem_append]
        exact was)
      rw [layout.activeRecords] at member
      obtain ⟨x, inside, rfl⟩ := List.mem_map.1 member
      have atEof : mid.isSpillAtEof = true := by
        simp only [QueueEngine.compacts, Bool.and_eq_true] at compacts
        exact compacts.1
      exact Or.inl (sameMemory (alive.inMemory_of_atEof layout atEof inside (by simpa using same)))
    · have unchanged : after = mid := by
        rw [checked, QueueEngine.checkAndTriggerCompaction, if_neg compacts]
      rw [unchanged]
      exact Or.inr ⟨r, activeRecords_subset env mid.disk member, isPush, same⟩

/-- A cap of one message and a segment that is due at once. -/
def tightOptions : QueueOptions where
  defaultVisibilityTimeoutSec := 300
  maxDeliveryCount := 3
  maxHotMessagesInRam := 1
  maxWalSegmentSize := 10
  ramCap_lt := QueueOptions.one_ramCap_lt

/-- Two messages, the second of which does not fit in memory; a third far in the
future; and a poll that pages the second one in and leaves the cursor at the end
of the segment. -/
def farFutureOps : List Op :=
  [.push "a" 1 [1] 0, .push "a" 2 [2] 0, .push "a" 3 [3] 1000, .poll "a" 30 1]

/-- An empty ack batch then compacts, and the third message is gone. -/
theorem World.compaction_drops_farFuture :
    let start := World.fresh .sample tightOptions 1600000000
    let after := (start.run .sample (farFutureOps ++ [.ackBatch "a" []])).engine
    (∃ mid, (start.run .sample farFutureOps).checkpoint .sample (.ackBatch "a" []) = some mid ∧
      mid.HasUnackedPush .sample 3) ∧
    Event.acked 3 ∉ start.history .sample (farFutureOps ++ [.ackBatch "a" []]) ∧
    ¬ after.InMemory 3 ∧ ¬ after.HasPush .sample 3 := by
  refine ⟨⟨_, rfl, ?_⟩, ?_, ?_, ?_⟩ <;> decide +kernel

/-- The same run with the third message inside the horizon. -/
def nearFutureOps : List Op :=
  [.push "a" 1 [1] 0, .push "a" 2 [2] 0, .push "a" 3 [3] 100, .poll "a" 30 1]

theorem World.compaction_keeps_unacked_sample :
    let start := World.fresh .sample tightOptions 1600000000
    let after := (start.run .sample (nearFutureOps ++ [.ackBatch "a" []])).engine
    ((start.run .sample nearFutureOps).engine.ackBatchUnchecked .sample "a" []).compacts = true ∧
      (after.InMemory 3 ∨ after.HasPush .sample 3) :=
  have reached : ((World.fresh .sample tightOptions 1600000000).run .sample
      nearFutureOps).checkpoint .sample (.ackBatch "a" []) =
      some (((World.fresh .sample tightOptions 1600000000).run .sample
        nearFutureOps).engine.ackBatchUnchecked .sample "a" []) := rfl
  ⟨by decide +kernel, World.compaction_keeps_unacked (by decide +kernel) (by decide +kernel)
    (by decide +kernel) reached (fun _ => by decide +kernel) (by decide +kernel)
    (Or.inr (by decide +kernel))⟩

end WalrQueue
