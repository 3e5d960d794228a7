import WalrQueue.Maintenance
import WalrQueue.WalReaders

/-!
# Crashes inside a compaction

`perform_flip_flop_compaction` flips the segments, has the survivors written to the new one
and then truncates the frozen one.  A crash in between leaves two segments: the frozen one
whole, and the records of the first survivors in the other, the last of them torn.  `open`
reads both, `wal_a.log` first.

No message is lost and none comes back, wherever the crash falls; but a survivor that is in
both segments waits twice.  So the crash is unseen exactly when no survivor was written whole,
or the frozen segment was already truncated.
-/

namespace WalrQueue

open QueueEngine

/-! ## The directory -/

namespace DiskLog

variable {d : DiskLog} {xs : List WalEntry}

/-- The log after the flip, once the writer thread has taken the records of `taken` survivors. -/
def rewriting (d : DiskLog) (surviving : List (Ulid × String × Nat × List UInt8)) (taken : Nat) :
    DiskLog :=
  d.flip.appendAll ((surviving.take taken).map survivorRecord)

/-- The directory after a crash before the truncation, when `bytes` bytes of the records that the
writer thread had taken were written. -/
def crashed (d : DiskLog) (surviving : List (Ulid × String × Nat × List UInt8))
    (taken bytes : Nat) : DataDir :=
  let d := d.rewriting surviving taken
  if d.activeIsB then { d.dir with walB := d.walB.take bytes }
  else { d.dir with walA := d.walA.take bytes }

theorem activeIsB_appendAll (rs : List WalRecord) : (d.appendAll rs).activeIsB = d.activeIsB := by
  induction rs generalizing d with
  | nil => rfl
  | cons r rs ih => rw [appendAll_cons, ih, activeIsB_append]

theorem inactive_flip : d.flip.inactive = d.active := by
  unfold flip active inactive
  cases d.activeIsB <;> rfl

theorem length_encodeEntry_push (qId : Nat) (s : Ulid × String × Nat × List UInt8) :
    (encodeEntry (qId, survivorRecord s)).length = 27 + s.2.2.2.length := by
  simp [encodeEntry, survivorRecord, encodeRecord, encodePush]
  omega

theorem length_segment_survivors {ys : List WalEntry}
    {surviving : List (Ulid × String × Nat × List UInt8)}
    (records : ys.map Prod.snd = surviving.map survivorRecord) :
    (segment ys).length = (surviving.map fun s => 27 + s.2.2.2.length).sum := by
  induction surviving generalizing ys with
  | nil =>
      rw [List.map_nil, List.map_eq_nil_iff] at records
      rw [records]
      rfl
  | cons s surviving ih =>
      obtain ⟨y, ys, rfl, first, rest⟩ := List.map_eq_cons_iff.1 records
      have head : y = (y.1, survivorRecord s) := Prod.ext rfl first
      rw [segment_cons, List.length_append, head, length_encodeEntry_push, ih rest, List.map_cons,
        List.sum_cons]

/-- The log during the rewriting: the new segment has the records taken, the frozen one is whole,
and the registry attributes both. -/
theorem Holds.rewriting (h : d.Holds xs) (named : d.Named xs) (sole : d.inactive = [])
    {surviving : List (Ulid × String × Nat × List UInt8)}
    (fits : ∀ s ∈ surviving, s.2.2.2.length < 2 ^ 32)
    (few : (d.performFlipFlopCompaction surviving).registry.idToName.length ≤ 65536)
    (taken : Nat) :
    ∃ ys : List WalEntry, ys.map Prod.snd = (surviving.take taken).map survivorRecord ∧
      (d.rewriting surviving taken).Holds ys ∧
      (d.rewriting surviving taken).Named (xs ++ ys) ∧
      (d.rewriting surviving taken).inactive = segment xs ∧
      (d.rewriting surviving taken).registry.idToName <+:
        (d.performFlipFlopCompaction surviving).registry.idToName := by
  have recordFits : ∀ r ∈ (surviving.take taken).map survivorRecord, r.Fits := by
    intro r member
    obtain ⟨s, inList, rfl⟩ := List.mem_map.1 member
    exact fits s (List.mem_of_mem_take inList)
  obtain ⟨ys, records, holds, names⟩ := (h.flip sole).appendAll recordFits
  have grows : (d.rewriting surviving taken).registry.idToName <+:
      (d.performFlipFlopCompaction surviving).registry.idToName := by
    rw [performFlipFlopCompaction_eq, registry_truncateInactive, DiskLog.rewriting]
    conv_rhs => rw [← List.take_append_drop taken surviving]
    rw [List.map_append, DiskLog.appendAll, DiskLog.appendAll, List.foldl_append]
    exact names_appendAll _
  have flipped : d.flip.Named [] := ⟨named.agrees, named.manifest, by simp⟩
  have names : (d.rewriting surviving taken).Named ([] ++ ys) :=
    names flipped (grows.length_le.trans few)
  refine ⟨ys, records, holds, ⟨names.agrees, names.manifest, fun x inside => ?_⟩, ?_, grows⟩
  · rcases List.mem_append.1 inside with old | new
    · exact QueueRegistry.getElem?_of_prefix (names_appendAll (d := d.flip) _)
        (named.entries x old)
    · exact names.entries x new
  · rw [DiskLog.rewriting, inactive_appendAll, inactive_flip, h.active]

/-- Entries that the registry attributes read back as their records, once it is opened again. -/
theorem Named.reopened (h : d.Named xs) (few : d.registry.idToName.length ≤ 65536)
    (short : QueueRegistry.ShortNames d.registry.idToName) {ys : List WalEntry} (part : ys ⊆ xs) :
    ys.map (readBack (QueueRegistry.openManifest d.registry.manifest)) =
      ys.map fun y => y.2.stored := by
  refine List.map_congr_left fun y inside => ?_
  rw [readBack_congr (h.manifest.openManifest short few).1]
  exact h.readBack_eq (part inside)

/-- `open` recovers the frozen segment and the survivors that were written whole. -/
theorem Holds.recovered_crashed (h : d.Holds xs) (named : d.Named xs) (sole : d.inactive = [])
    {surviving : List (Ulid × String × Nat × List UInt8)}
    (fits : ∀ s ∈ surviving, s.2.2.2.length < 2 ^ 32)
    (few : (d.performFlipFlopCompaction surviving).registry.idToName.length ≤ 65536)
    (short : QueueRegistry.ShortNames (d.performFlipFlopCompaction surviving).registry.idToName)
    (env : Env) (maxSegmentSize taken bytes : Nat) :
    ∃ k ≤ (surviving.take taken).length,
      (∀ j ≤ (surviving.take taken).length,
        j ≤ k ↔ ((surviving.take j).map fun s => 27 + s.2.2.2.length).sum ≤ bytes) ∧
      let old := xs.map fun x => x.2.stored
      let new := (surviving.take k).map fun s => (survivorRecord s).stored
      (openDir env (d.crashed surviving taken bytes) maxSegmentSize).2 =
        if d.activeIsB then new ++ old else old ++ new := by
  obtain ⟨ys, records, holds, names, frozen, grows⟩ := h.rewriting named sole fits few taken
  have few := grows.length_le.trans few
  have short : QueueRegistry.ShortNames (d.rewriting surviving taken).registry.idToName :=
    fun name inside => short name (grows.subset inside)
  obtain ⟨k, inside, whole, read⟩ := readWalFile_whole env
    (QueueRegistry.openManifest (d.rewriting surviving taken).registry.manifest) holds.fits bytes
  have length : ys.length = (surviving.take taken).length := by
    simpa using congrArg List.length records
  have part : ∀ j ≤ ys.length,
      (ys.take j).map Prod.snd = (surviving.take j).map survivorRecord := by
    intro j le
    rw [List.map_take, records, ← List.map_take, List.take_take]
    rw [length, List.length_take] at le
    rw [Nat.min_eq_left (by omega)]
  have old : readWalFile env (QueueRegistry.openManifest
      (d.rewriting surviving taken).registry.manifest) (segment xs) =
      xs.map fun x => x.2.stored := by
    rw [readWalFile_segment h.fits]
    exact names.reopened few short (List.subset_append_left _ _)
  have new : (ys.take k).map (readBack (QueueRegistry.openManifest
      (d.rewriting surviving taken).registry.manifest)) =
      (surviving.take k).map fun s => (survivorRecord s).stored := by
    rw [names.reopened few short fun y member =>
      List.mem_append_right _ (List.mem_of_mem_take member)]
    have stored := congrArg (List.map WalRecord.stored) (part k inside)
    rw [List.map_map, List.map_map] at stored
    exact stored
  refine ⟨k, length ▸ inside, fun j le => ?_, ?_⟩
  · rw [whole j (length ▸ le), length_segment_survivors (part j (length ▸ le))]
  · have active := holds.active
    have isB : (d.rewriting surviving taken).activeIsB = !d.activeIsB := activeIsB_appendAll _
    rw [new] at read
    unfold crashed DiskLog.openDir DiskLog.dir
    unfold DiskLog.active at active
    unfold DiskLog.inactive at frozen
    dsimp only
    cases was : d.activeIsB with
    | true =>
        rw [isB, was] at active frozen ⊢
        simp only [Bool.not_true, Bool.false_eq_true, if_false, if_true] at active frozen ⊢
        rw [active, frozen, read, old]
    | false =>
        rw [isB, was] at active frozen ⊢
        simp only [Bool.not_false, Bool.false_eq_true, if_false, if_true] at active frozen ⊢
        rw [active, frozen, read, old]

end DiskLog

/-! ## What a restart finds -/

section Restart

variable {a : Fin numShards → ShardState} {rs : List WalRecord} {opts : QueueOptions} {base : Nat}
  {e : QueueEngine} {env : Env}

/-- The RAM cap is not reached when there are no more records than fit in RAM. -/
theorem roomToReplay_of_length (fits : rs.length ≤ opts.maxHotMessagesInRam) :
    RoomToReplay opts base rs := by
  have total : ∀ before, (replay opts base before).totalInRam ≤ before.length := by
    intro before
    induction before using List.reverseRecOn with
    | nil => exact le_rfl
    | append_singleton before r ih =>
        rw [replay_concat, List.length_append, List.length_singleton]
        cases r with
        | push id queue visibleAt payload =>
            rw [replayRecord]
            dsimp only
            split <;> dsimp only <;> omega
        | ack id queue =>
            rw [replayRecord]
            dsimp only
            split <;> omega
  intro before r part _
  have short := part.length_le
  rw [List.length_append, List.length_singleton] at short
  exact (total before).trans_lt (by omega)

/-- Every message is in the shard of its queue. -/
def Placed (a : Fin numShards → ShardState) : Prop :=
  ∀ s id msg, AList.lookup id (a s).messages = some msg → shardIdx msg.queue = s

/-- The ids and queues of the first survivors. -/
def QueueEngine.firstSurvivors (env : Env) (e : QueueEngine) (k : Nat) : List (Ulid × String) :=
  ((e.surviving env).take k).map fun x => (x.1, x.2.1)

/-- Of a live message the first survivors have its record, or nothing. -/
theorem recordsOf_take (env : Env) (placed : Placed e.shards) {s : Fin numShards} {id : Ulid}
    {msg : StoredMsg} (found : AList.lookup id (e.shards s).messages = some msg) (k : Nat) :
    recordsOf (((e.surviving env).take k).map fun x => (DiskLog.survivorRecord x).stored) s id =
      if (id, msg.queue) ∈ e.firstSurvivors env k
      then [.push id msg.queue (storedTime msg.visibleAt) msg.payload] else [] := by
  have all := recordsOf_survivors env placed s id
  rw [found, QueueEngine.survivors] at all
  conv_lhs at all => rw [← List.take_append_drop k (e.surviving env)]
  rw [List.map_append, recordsOf_append] at all
  split
  · rename_i inside
    obtain ⟨x, member, is⟩ := List.mem_map.1 inside
    obtain ⟨rfl, queue⟩ := Prod.mk.inj is
    have some : (DiskLog.survivorRecord x).stored ∈ recordsOf
        (((e.surviving env).take k).map fun x => (DiskLog.survivorRecord x).stored) s x.1 := by
      refine List.mem_filter.2 ⟨List.mem_map.2 ⟨x, member, rfl⟩, decide_eq_true ⟨?_, rfl⟩⟩
      show shardIdx x.2.1 = s
      rw [queue]
      exact placed s x.1 msg found
    rcases List.append_eq_singleton_iff.1 all with ⟨none, -⟩ | ⟨first, -⟩
    · rw [none] at some
      cases some
    · exact first
  · rename_i outside
    refine List.filter_eq_nil_iff.2 fun r member hit => outside ?_
    obtain ⟨x, inside, rfl⟩ := List.mem_map.1 member
    obtain ⟨shard, rfl⟩ := of_decide_eq_true hit
    obtain ⟨t, msg', found', eq⟩ := mem_surviving.1 (List.mem_of_mem_take inside)
    have queue : x.2.1 = msg'.queue := congrArg Prod.fst eq
    have same : t = s := by
      rw [← placed t x.1 msg' found', ← queue]
      exact shard
    subst same
    cases found.symm.trans found'
    exact List.mem_map.2 ⟨x, inside, Prod.ext rfl queue⟩

/-- Of a message that is gone the survivors have nothing. -/
theorem recordsOf_take_of_notMem (placed : Placed e.shards) {s : Fin numShards} {id : Ulid}
    (absent : id ∉ (e.shards s).messages) (k : Nat) :
    recordsOf (((e.surviving env).take k).map fun x => (DiskLog.survivorRecord x).stored) s id =
      [] := by
  have all := recordsOf_survivors env placed s id
  rw [AList.lookup_eq_none.2 absent, QueueEngine.survivors] at all
  conv_lhs at all => rw [← List.take_append_drop k (e.surviving env)]
  rw [List.map_append, recordsOf_append] at all
  exact (List.append_eq_nil_iff.1 all).1

/-- The replay of both segments, in either order. -/
theorem Describes.waits_crashed (h : Describes e.shards rs) (placed : Placed e.shards) (k : Nat)
    (newFirst : Bool) :
    let new := ((e.surviving env).take k).map fun x => (DiskLog.survivorRecord x).stored
    let both := if newFirst then new ++ rs else rs ++ new
    RoomToReplay opts base both → ∀ s id,
      (∀ msg, AList.lookup id (e.shards s).messages = some msg → ∃ again, again.core = msg.core ∧
        ((replay opts base both).shards s).Waits id again
          (if (id, msg.queue) ∈ e.firstSurvivors env k then 2 else 1)) ∧
      (id ∉ (e.shards s).messages → id ∉ ((replay opts base both).shards s).messages) := by
  intro new both room s id
  have parts : recordsOf both s id = if newFirst then recordsOf new s id ++ recordsOf rs s id
      else recordsOf rs s id ++ recordsOf new s id := by
    show recordsOf (if newFirst then new ++ rs else rs ++ new) s id = _
    cases newFirst <;> exact recordsOf_append
  refine ⟨fun msg found => ?_, fun absent => ?_⟩
  · obtain ⟨visibleAt, old⟩ := h.live s id msg found
    have written := recordsOf_take env placed found k
    rw [old, written] at parts
    have pushes : ∀ r ∈ recordsOf both s id, ∃ v, r = .push id msg.queue v msg.payload := by
      rw [parts]
      split <;> split <;> simp
    have count : (recordsOf both s id).length =
        if (id, msg.queue) ∈ e.firstSurvivors env k then 2 else 1 := by
      rw [parts]
      split <;> split <;> rfl
    rcases replay_pushes room pushes with ⟨none, -⟩ | ⟨-, again, core, here⟩
    · rw [none] at count
      split at count <;> cases count
    · exact ⟨again, core, count ▸ here⟩
  · have written : recordsOf new s id = [] := recordsOf_take_of_notMem placed absent k
    have parts : recordsOf both s id = recordsOf rs s id := by
      rw [parts, written]
      split <;> simp
    rcases h.gone s id absent with none | ended
    · exact replay_untouched room (parts.trans none)
    · exact replay_ended room (parts ▸ ended)

/-- Such a replay is exact when no survivor was written, and only then. -/
theorem Describes.restores_crashed_iff (h : Describes e.shards rs) (placed : Placed e.shards)
    {k : Nat} (inside : k ≤ (e.surviving env).length) (newFirst : Bool) :
    let new := ((e.surviving env).take k).map fun x => (DiskLog.survivorRecord x).stored
    let both := if newFirst then new ++ rs else rs ++ new
    RoomToReplay opts base both → (Restores e.shards (replay opts base both).shards ↔ k = 0) := by
  intro new both room
  have waits := h.waits_crashed placed k newFirst room
  refine ⟨fun restores => by_contra fun some => ?_, fun none s id => ?_⟩
  · obtain ⟨x, rest, split⟩ := List.exists_cons_of_length_pos
      (show 0 < ((e.surviving env).take k).length by
        rw [List.length_take, Nat.min_eq_left inside]
        exact Nat.pos_of_ne_zero some)
    have first : x ∈ (e.surviving env).take k := by
      rw [split]
      exact List.mem_cons_self
    obtain ⟨s, msg, found, eq⟩ := mem_surviving.1 (List.mem_of_mem_take first)
    have written : (x.1, msg.queue) ∈ e.firstSurvivors env k :=
      List.mem_map.2 ⟨x, first, Prod.ext rfl (congrArg Prod.fst eq)⟩
    obtain ⟨again, core, twice⟩ := (waits s x.1).1 msg found
    obtain ⟨once, core', here⟩ := (restores s x.1).1 msg found
    have occurs := twice.occ msg.queue
    have occurs' := here.waits.occ msg.queue
    have queue : again.queue = msg.queue := congrArg Prod.fst core
    have queue' : once.queue = msg.queue := congrArg Prod.fst core'
    rw [if_pos written, if_pos queue] at occurs
    rw [if_pos queue'] at occurs'
    cases occurs.symm.trans occurs'
  · obtain ⟨live, gone⟩ := waits s id
    refine ⟨fun msg found => ?_, gone⟩
    obtain ⟨again, core, here⟩ := live msg found
    have unwritten : (id, msg.queue) ∉ e.firstSurvivors env k := by
      rw [none]
      exact fun bad => by cases bad
    rw [if_neg unwritten] at here
    exact ⟨again, core, here.pending⟩

end Restart

/-! ## Crashes -/

section Crashes

variable {e : QueueEngine} {rs : List WalRecord} {env : Env} {opts : QueueOptions}

/-- `open` recovers the records of the frozen segment and of the survivors written whole. -/
theorem Written.recovered_crashed (h : Written e rs)
    (few : (e.disk.performFlipFlopCompaction (e.surviving env)).registry.idToName.length ≤ 65536)
    (short : QueueRegistry.ShortNames
      (e.disk.performFlipFlopCompaction (e.surviving env)).registry.idToName)
    (maxSegmentSize taken bytes : Nat) :
    ∃ k ≤ ((e.surviving env).take taken).length,
      (∀ j ≤ ((e.surviving env).take taken).length,
        j ≤ k ↔ (((e.surviving env).take j).map fun x => 27 + x.2.2.2.length).sum ≤ bytes) ∧
      let new := ((e.surviving env).take k).map fun x => (DiskLog.survivorRecord x).stored
      (DiskLog.openDir env (e.disk.crashed (e.surviving env) taken bytes) maxSegmentSize).2 =
        if e.disk.activeIsB then new ++ rs else rs ++ new := by
  obtain ⟨xs, i, layout, named, rfl⟩ := h.log
  exact layout.holds.recovered_crashed named layout.sole (h.every.survivors_fit env) few short env
    maxSegmentSize taken bytes

/-- `open` recovers the survivors once the frozen segment is truncated. -/
theorem Written.recovered_compacted (h : Written e rs)
    (few : (e.disk.performFlipFlopCompaction (e.surviving env)).registry.idToName.length ≤ 65536)
    (short : QueueRegistry.ShortNames
      (e.disk.performFlipFlopCompaction (e.surviving env)).registry.idToName)
    (maxSegmentSize : Nat) :
    (DiskLog.openDir env (e.disk.performFlipFlopCompaction (e.surviving env)).dir
      maxSegmentSize).2 = e.survivors env := by
  obtain ⟨xs, i, layout, named, rfl⟩ := h.log
  obtain ⟨ys, records, holds, sole, names⟩ :=
    layout.holds.performFlipFlopCompaction layout.sole (h.every.survivors_fit env)
  have stored := congrArg (List.map WalRecord.stored) records
  rw [List.map_map, List.map_map] at stored
  exact (holds.recovered (names named few) sole env maxSegmentSize short few).trans stored

/-- After the truncation the survivors are restored. -/
theorem Written.restores_compacted (h : Written e rs) (placed : Placed e.shards)
    (fits : messageCount e.shards ≤ opts.maxHotMessagesInRam)
    (few : (e.disk.performFlipFlopCompaction (e.surviving env)).registry.idToName.length ≤ 65536)
    (short : QueueRegistry.ShortNames
      (e.disk.performFlipFlopCompaction (e.surviving env)).registry.idToName)
    (baseEpochSec draws : Nat) :
    Restores e.shards (openDir env (e.disk.performFlipFlopCompaction (e.surviving env)).dir opts
      baseEpochSec draws).shards := by
  have shards : (openDir env (e.disk.performFlipFlopCompaction (e.surviving env)).dir opts
      baseEpochSec draws).shards = (replay opts baseEpochSec (e.survivors env)).shards := by
    show (replay opts baseEpochSec (DiskLog.openDir _ _ _).2).shards = _
    rw [h.recovered_compacted few short]
  rw [shards]
  have pushes : ∀ r ∈ e.survivors env, r.isPush = true := by
    intro r inside
    obtain ⟨s, id, msg, -, rfl⟩ := mem_survivors.1 inside
    rfl
  have length := length_survivors e env
  exact (describes_survivors env placed).restores (replay_onlyPushes pushes (by omega)).2

end Crashes

/-- Wherever a crash falls in a compaction at the end of a maintained run, a restart finds exactly
the messages that were live, with their queues and payloads.  Each waits once, but for those in
both segments, which wait twice: before the truncation these are the survivors whose records
were written whole, after it there are none.  The recovery before the truncation has to stay
below the RAM cap. -/
theorem World.compaction_crash {home : Ulid → String} {env : Env} {opts : QueueOptions}
    {clock : Nat} {ops : List UpkeepOp}
    (run : Trace.Along (World.upkeepStep env) (Maintained home env) (World.fresh env opts clock) ops)
    (baseEpochSec draws : Nat) :
    let w := ops.foldl (World.upkeepStep env) (World.fresh env opts clock)
    let survivors := w.engine.surviving env
    let compacted := w.engine.disk.performFlipFlopCompaction survivors
    compacted.registry.idToName.length ≤ 65536 →
    QueueRegistry.ShortNames compacted.registry.idToName →
    (∀ taken bytes, ∃ k ≤ (survivors.take taken).length,
      (∀ j ≤ (survivors.take taken).length,
        j ≤ k ↔ ((survivors.take j).map fun x => 27 + x.2.2.2.length).sum ≤ bytes) ∧
      let dir := w.engine.disk.crashed survivors taken bytes
      let e := openDir env dir opts baseEpochSec draws
      RoomToReplay opts baseEpochSec (DiskLog.openDir env dir opts.maxWalSegmentSize).2 →
      ∀ s id,
        (∀ msg, AList.lookup id (w.engine.shards s).messages = some msg →
          ∃ again, again.core = msg.core ∧ (e.shards s).Waits id again
            (if (id, msg.queue) ∈ w.engine.firstSurvivors env k then 2 else 1)) ∧
        (id ∉ (w.engine.shards s).messages → id ∉ (e.shards s).messages)) ∧
    Restores w.engine.shards (openDir env compacted.dir opts baseEpochSec draws).shards := by
  intro w survivors compacted few short
  have grows : w.engine.names <+: compacted.registry.idToName :=
    DiskLog.names_performFlipFlopCompaction _
  obtain ⟨options, _, rs, h⟩ :=
    World.recoverable_upkeep run (grows.length_le.trans few) baseEpochSec
  have retold : Retold opts baseEpochSec w.engine.shards rs := options ▸ h.retold
  have below : messageCount w.engine.shards ≤ opts.maxHotMessagesInRam :=
    h.memory.below.trans_eq (congrArg QueueOptions.maxHotMessagesInRam options)
  refine ⟨fun taken bytes => ?_,
    h.memory.written.restores_compacted h.memory.resident.placed below few short _ _⟩
  obtain ⟨k, inside, whole, recovered⟩ := h.memory.written.recovered_crashed few short
    opts.maxWalSegmentSize taken bytes
  refine ⟨k, inside, whole, ?_⟩
  intro dir e room
  have shards : e.shards =
      (replay opts baseEpochSec (DiskLog.openDir env dir opts.maxWalSegmentSize).2).shards := rfl
  rw [shards]
  rw [recovered] at room ⊢
  exact retold.tells.waits_crashed h.memory.resident.placed k _ room

/-- Two messages in the second segment after a compaction, and a crash in the next one when one
of them and three bytes of the other are written. -/
theorem World.compaction_crash_sample :
    let w := [.engine (.push "jobs" 1 [7] 0), .forceCompaction, .engine (.push "jobs" 2 [8] 0)].foldl
      (World.upkeepStep .sample) (World.fresh .sample .default 1600000000)
    let dir := w.engine.disk.crashed (w.engine.surviving .sample) 2 31
    let e := openDir .sample dir .default 1600000100 0
    w.engine.disk.activeIsB = true ∧
      RoomToReplay .default 1600000100
        (DiskLog.openDir .sample dir QueueOptions.default.maxWalSegmentSize).2 ∧
      (∃ again, (e.shards (shardIdx "jobs")).Waits 2 again 2) ∧
      ∃ again, (e.shards (shardIdx "jobs")).Waits 1 again 1 := by
  intro w dir e
  have run : Trace.Along (World.upkeepStep .sample) (Maintained (fun _ => "jobs") .sample)
      (World.fresh .sample .default 1600000000)
      [.engine (.push "jobs" 1 [7] 0), .forceCompaction, .engine (.push "jobs" 2 [8] 0)] := by
    decide +kernel
  have room : RoomToReplay .default 1600000100
      (DiskLog.openDir .sample dir QueueOptions.default.maxWalSegmentSize).2 :=
    roomToReplay_of_length (by decide +kernel)
  obtain ⟨k, inside, whole, found⟩ := (World.compaction_crash run 1600000100 0 (by decide +kernel)
    (by decide +kernel)).1 2 31
  have first := (whole 1 (by decide +kernel)).2 (by decide +kernel)
  have second := mt (whole 2 (by decide +kernel)).1 (by decide +kernel)
  obtain rfl : k = 1 := by omega
  have live : AList.lookup 1 (w.engine.shards (shardIdx "jobs")).messages =
        some ⟨1, "jobs", [7], 1600000000, 0, QueueOptions.default.maxDeliveryCount⟩ ∧
      AList.lookup 2 (w.engine.shards (shardIdx "jobs")).messages =
        some ⟨2, "jobs", [8], 1600000000, 0, QueueOptions.default.maxDeliveryCount⟩ := by
    decide +kernel
  obtain ⟨again, -, twice⟩ := (found room (shardIdx "jobs") 2).1 _ live.2
  obtain ⟨again', -, once⟩ := (found room (shardIdx "jobs") 1).1 _ live.1
  have written : w.engine.firstSurvivors .sample 1 = [(2, "jobs")] := by decide +kernel
  rw [written, if_pos (List.mem_singleton_self _)] at twice
  rw [written, if_neg (by decide)] at once
  refine ⟨by decide +kernel, room, ⟨again, ?_⟩, again', ?_⟩
  · dsimp only [e, dir, w]
    exact twice
  · dsimp only [e, dir, w]
    exact once

end WalrQueue
