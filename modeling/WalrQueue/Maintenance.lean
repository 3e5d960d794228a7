import WalrQueue.CursorAlignment
import WalrQueue.Interleaving
import WalrQueue.Restart

/-!
# Restarts after forced compactions

In a run that stays in memory a page-in loads nothing and goes through to the end of the segment,
so the cursor is back at the start when a poll is done.  A forced compaction may then come at any
moment: it writes what is in memory, and the cursor is where the new segment begins.
-/

namespace WalrQueue

open QueueEngine

/-! ## A page-in that loads nothing -/

section PageIn

variable {e e' : QueueEngine} {rs : List WalRecord} {env : Env} {now : Nat} {queue : String}

/-- Records of ids that are in memory or acked count nothing. -/
theorem ShardState.Resident.pageInRecords {st : ShardState} (h : st.Resident)
    {records : List WalRecord} (covers : ∀ r ∈ records, st.Covers r) (opts : QueueOptions)
    (now : Nat) (targetQueue : String) (ram added targetAdded : Nat) :
    records.foldl (pageInRecord opts now targetQueue) ⟨st, ram, added, targetAdded⟩ =
      ⟨st.mark (marksOf records), ram, added, targetAdded⟩ := by
  induction records generalizing st with
  | nil => rfl
  | cons r records ih =>
      have first : pageInRecord opts now targetQueue ⟨st, ram, added, targetAdded⟩ r =
          ⟨st.mark (marksOf [r]), ram, added, targetAdded⟩ := by
        have here := covers r List.mem_cons_self
        rw [← h.load here opts now]
        cases r with
        | push msgId queueName visibleAt payload =>
            have known : ¬ (visibleAt ≤ addU64 now hotDelayHorizonSec ∧ msgId ∉ st.messages ∧
                msgId ∉ st.ackedIds) := by
              rintro ⟨_, absent, unacked⟩
              exact (h.known msgId here.1).elim absent unacked
            simp only [pageInRecord, ShardState.load, if_neg known]
        | ack msgId queueName =>
            have absent : msgId ∉ st.messages := (h.gone msgId (here.2 rfl)).2
            simp only [pageInRecord, if_neg absent]
            rfl
      have kept := st.kept_mark (marksOf [r])
      have split : marksOf (r :: records) = marksOf [r] ++ marksOf records := by
        rw [← List.singleton_append]
        exact List.filterMap_append
      rw [List.foldl_cons, first, ih (h.kept kept), split, mark_append]
      intro r' later
      unfold Covers
      rw [kept.seen, kept.acked]
      exact covers r' (.tail _ later)

/-- A chunk of covered records adds nothing to the counters. -/
theorem Resident.counts_pageInChunk (h : Resident e.shards rs) {records : List WalRecord}
    (inside : ∀ r ∈ records, r ∈ rs) (bounded : e.totalMessagesInRam < 2 ^ 64) (now : Nat)
    (targetQueue : String) :
    (QueueEngine.pageInChunk now targetQueue e records).targetAdded = 0 ∧
      (QueueEngine.pageInChunk now targetQueue e records).engine.totalMessagesInRam =
        e.totalMessagesInRam := by
  have turn : ∀ (acc : PageInChunk) (s : Fin numShards),
      (Resident acc.engine.shards rs ∧ acc.added = 0 ∧ acc.targetAdded = 0 ∧
        acc.engine.totalMessagesInRam = e.totalMessagesInRam) →
      Resident (pageInShard now targetQueue records acc s).engine.shards rs ∧
        (pageInShard now targetQueue records acc s).added = 0 ∧
        (pageInShard now targetQueue records acc s).targetAdded = 0 ∧
        (pageInShard now targetQueue records acc s).engine.totalMessagesInRam =
          e.totalMessagesInRam := by
    rintro acc s ⟨resident, added, targetAdded, total⟩
    have covers : ∀ r ∈ shardRecords records s, (acc.engine.shards s).Covers r := by
      intro r member
      obtain ⟨member, here⟩ := List.mem_filter.1 member
      have here : shardIdx r.queueName = s := by simpa using here
      rw [← here]
      exact resident.log r (inside r member)
    unfold pageInShard
    dsimp only
    rw [(resident.shard s).pageInRecords covers]
    refine ⟨resident.kept ?_, added, targetAdded, total⟩
    exact (Function.forall_update_iff acc.engine.shards
      fun t st => (acc.engine.shards t).Kept st).2 ⟨ShardState.kept_mark _ _, fun t _ => .refl _⟩
  obtain ⟨_, added, targetAdded, total⟩ := List.foldlRecOn (motive := fun acc : PageInChunk =>
      Resident acc.engine.shards rs ∧ acc.added = 0 ∧ acc.targetAdded = 0 ∧
        acc.engine.totalMessagesInRam = e.totalMessagesInRam)
    (List.finRange numShards) (pageInShard now targetQueue records) (b := ⟨e, 0, 0⟩)
    ⟨h, rfl, rfl, rfl⟩ fun acc before s _ => turn acc s before
  refine ⟨targetAdded, ?_⟩
  unfold QueueEngine.pageInChunk
  dsimp only
  rw [added, total, fetchAdd, Nat.add_zero, Nat.mod_eq_of_lt bounded]

/-- What the page-in loop keeps in such a run. -/
structure Idles (rs : List WalRecord) (e e' : QueueEngine) : Prop where
  written : Written e' rs
  marks : Marks e.shards e'.shards
  total : e'.totalMessagesInRam = e.totalMessagesInRam
  options : e'.options = e.options

/-- A turn that ends the loop has rewound the cursor. -/
theorem Idles.pageInStep (h : Idles rs e e') (resident : Resident e.shards rs)
    (room : e.totalMessagesInRam < e.options.maxHotMessagesInRam) (env : Env) (now : Nat)
    (targetQueue : String) (fetchLimit : Nat) (flushed : Bool) :
    Idles rs e (QueueEngine.pageInStep env now targetQueue fetchLimit e' flushed).1 ∧
      ((QueueEngine.pageInStep env now targetQueue fetchLimit e' flushed).2 = none →
        (QueueEngine.pageInStep env now targetQueue fetchLimit e' flushed).1.spillReadOffset = 0) := by
  have here : Resident e'.shards rs := resident.kept h.marks.kept
  have bounded : e'.totalMessagesInRam < 2 ^ 64 := by
    rw [h.total]
    exact room.trans e.options.ramCap_lt
  obtain ⟨xs, i, layout, named, rfl⟩ := h.written.log
  obtain ⟨k, within, result⟩ := layout.read env fetchLimit
  unfold QueueEngine.pageInStep
  dsimp only
  rw [result, named.map_readBack]
  generalize eq : ((xs.map fun x => x.2.stored).drop i).take k = records
  have part : ∀ r ∈ records, r ∈ xs.map fun x => x.2.stored := by
    intro r member
    rw [← eq] at member
    exact List.mem_of_mem_drop (List.mem_of_mem_take member)
  have chunk : records <:+: xs.map fun x => x.2.stored := by
    rw [← eq]
    exact (List.take_prefix _ _).isInfix.trans (List.drop_suffix _ _).isInfix
  have moved : Idles (xs.map fun x => x.2.stored) e
      { e' with spillReadOffset := (segment (xs.take (i + k))).length } :=
    ⟨⟨⟨xs, i + k, layout.move within, named, rfl⟩, h.written.every.congr rfl⟩, h.marks, h.total,
      h.options⟩
  split
  · split
    · obtain ⟨targetAdded, total⟩ := Resident.counts_pageInChunk
        (e := { e' with spillReadOffset := (segment (xs.take (i + k))).length }) here part bounded
        now targetQueue
      have paged : Idles (xs.map fun x => x.2.stored) e (QueueEngine.pageInChunk now targetQueue
          { e' with spillReadOffset := (segment (xs.take (i + k))).length } records).engine :=
        ⟨moved.written.pageInChunk chunk now targetQueue,
          h.marks.trans (Resident.pageInChunk here part now targetQueue), total.trans h.total,
          (disk_pageInChunk now targetQueue _ records).2.2.trans h.options⟩
      have goesOn : ¬ (0 < (QueueEngine.pageInChunk now targetQueue
          { e' with spillReadOffset := (segment (xs.take (i + k))).length } records).targetAdded ∨
          e'.options.maxHotMessagesInRam ≤ (QueueEngine.pageInChunk now targetQueue
            { e' with spillReadOffset := (segment (xs.take (i + k))).length }
              records).engine.totalMessagesInRam) := by
        rw [targetAdded, total, h.options]
        have same : e'.totalMessagesInRam = e.totalMessagesInRam := h.total
        dsimp only
        omega
      rw [if_neg goesOn]
      exact ⟨paged, fun bad => by cases bad⟩
    · exact ⟨moved, fun bad => by cases bad⟩
  · rename_i nothing
    split
    · split
      · exact ⟨⟨⟨⟨xs, 0, layout.rewind, named, rfl⟩, h.written.every.congr rfl⟩, h.marks, h.total,
          h.options⟩, fun _ => rfl⟩
      · rename_i start
        refine ⟨h, fun _ => ?_⟩
        have cursor := layout.cursor
        have mono : (segment (xs.take i)).length ≤ (segment (xs.take (i + k))).length := by
          rw [List.take_add, segment_append, List.length_append]
          exact Nat.le_add_right _ _
        dsimp only
        omega
    · exact ⟨h, fun bad => by cases bad⟩

/-- With enough turns the loop ends, and so with the cursor at the start. -/
theorem Idles.pageInLoop (h : Idles rs e e') (resident : Resident e.shards rs)
    (room : e.totalMessagesInRam < e.options.maxHotMessagesInRam) (env : Env) (now : Nat)
    (targetQueue : String) (fetchLimit fuel : Nat) (flushed : Bool)
    (enough : turnsLeft e' flushed ≤ fuel) :
    (QueueEngine.pageInLoop env now targetQueue fetchLimit fuel e' flushed).spillReadOffset = 0 := by
  induction fuel generalizing e' flushed with
  | zero =>
      unfold turnsLeft at enough
      split at enough <;> omega
  | succ fuel ih =>
      obtain ⟨next, ends⟩ := h.pageInStep resident room env now targetQueue fetchLimit flushed
      unfold QueueEngine.pageInLoop
      rcases turn : QueueEngine.pageInStep env now targetQueue fetchLimit e' flushed with
        ⟨e'', _ | flushed'⟩
      · rw [turn] at ends
        exact ends rfl
      · have fewer := turnsLeft_pageInStep turn
        rw [turn] at next
        have next : Idles rs e e'' := next
        exact ih next flushed' (by omega)

/-- The prefetch of a poll leaves the cursor at the start. -/
theorem Resident.rewound_prefetch (h : Resident e.shards rs) (written : Written e rs)
    (room : e.totalMessagesInRam < e.options.maxHotMessagesInRam)
    (rewound : e.spillReadOffset = 0) (env : Env) (queue : String) (now maxMessages : Nat) :
    (e.prefetch env queue now maxMessages).spillReadOffset = 0 := by
  unfold QueueEngine.prefetch
  split
  · refine Idles.pageInLoop ⟨written, .refl _, rfl, rfl⟩ h room env now queue _ _ false ?_
    simp only [turnsLeft, Bool.false_eq_true, if_false]
    omega
  · exact rewound

end PageIn

/-! ## The cursor -/

section Cursor

variable {e : QueueEngine} {rs : List WalRecord} {env : Env} {w : World} {op : Op}

theorem rewound_checkAndTriggerCompaction (rewound : e.spillReadOffset = 0) (env : Env) :
    (e.checkAndTriggerCompaction env).spillReadOffset = 0 := by
  unfold QueueEngine.checkAndTriggerCompaction
  split
  · rfl
  · exact rewound

theorem cursor_pushBatchLoop (env : Env) (now : Nat) (queue : String) (items : List PushItem)
    (acc : PushBatch) :
    (items.foldl (QueueEngine.pushBatchItem env now queue) acc).engine.spillReadOffset =
      acc.engine.spillReadOffset := by
  refine List.foldlRecOn (motive := fun out : PushBatch =>
    out.engine.spillReadOffset = acc.engine.spillReadOffset) items _ rfl
    fun out before item _ => Eq.trans ?_ before
  rcases pushBatchItem_cases env now queue out item with ⟨_, eq⟩ | ⟨_, eq⟩
  · rw [eq]
  · rw [eq]
    exact (disk_pushBatchNew now queue _ _ item).2

theorem cursor_ackBatchLoop (queue : String) (items : List (Ulid × String)) (acc : AckBatch) :
    (items.foldl (ackBatchItem queue) acc).engine.spillReadOffset = acc.engine.spillReadOffset := by
  refine List.foldlRecOn (motive := fun out : AckBatch =>
    out.engine.spillReadOffset = acc.engine.spillReadOffset) items _ rfl
    fun out before item _ => Eq.trans ?_ before
  cases valid : (out.engine.shards (shardIdx queue)).ackLease queue item.1 item.2 with
  | none => rw [ackBatchItem_of_invalid valid]
  | some done => exact (ackBatchItem_of_valid valid).2.2.1

/-- An operation of a run in memory leaves the cursor at the start. -/
theorem AllInMemory.rewound_step (h : AllInMemory w rs) (stays : StaysInMemory env w op)
    (rewound : w.engine.spillReadOffset = 0) : (w.step env op).engine.spillReadOffset = 0 := by
  cases op with
  | push queue id payload delaySec =>
      have pushed := (disk_pushUnchecked w.engine w.clock queue id payload delaySec).2.trans rewound
      simp only [World.step, World.exec, QueueEngine.pushWithUlid]
      split
      · exact rewound_checkAndTriggerCompaction pushed env
      · exact pushed
  | pushBatch queue items =>
      refine rewound_checkAndTriggerCompaction ?_ env
      exact (cursor_pushBatchLoop env w.clock queue items
        ⟨w.engine, [], 0, w.engine.totalMessagesInRam⟩).trans rewound
  | poll queue visibilitySec maxMessages =>
      have unexpired : w.engine.Unexpired queue w.clock := stays.unexpired
      obtain ⟨_, cursor, options⟩ := disk_routeExpired_foldl w.clock
        (w.engine.collectExpired (shardIdx queue) w.clock).1
        (w.engine.collectExpired (shardIdx queue) w.clock).2
      have resident : Resident (w.engine.routed (shardIdx queue) w.clock).shards rs :=
        h.resident.kept unexpired.kept
      have total : (w.engine.routed (shardIdx queue) w.clock).totalMessagesInRam =
          w.engine.totalMessagesInRam := by
        rw [unexpired.routed]
        rfl
      have room : (w.engine.routed (shardIdx queue) w.clock).totalMessagesInRam <
          (w.engine.routed (shardIdx queue) w.clock).options.maxHotMessagesInRam := by
        rw [total, QueueEngine.routed, options]
        exact stays.room
      simp only [World.step, World.exec, poll_eq]
      rw [(disk_claimSection env _ queue w.clock _ maxMessages).2]
      exact resident.rewound_prefetch (h.written.route (shardIdx queue) w.clock) room
        (cursor.trans rewound) env queue w.clock maxMessages
  | ack queue messageId receipt =>
      simp only [World.step, World.exec, QueueEngine.ack]
      split
      · exact rewound
      · rename_i done success
        obtain ⟨id, _, success⟩ := Option.bind_eq_some_iff.1 success
        refine rewound_checkAndTriggerCompaction ?_ env
        unfold QueueEngine.ackUnchecked at success
        split at success
        · cases success
        · cases success
          exact rewound
  | ackBatch queue items =>
      refine rewound_checkAndTriggerCompaction ?_ env
      rw [(disk_ackBatchUnchecked env w.engine queue items).2.1]
      exact (cursor_ackBatchLoop queue (parsedItems env items) ⟨w.engine, 0, []⟩).trans rewound
  | advance seconds => exact rewound

end Cursor

/-! ## Compactions between operations -/

section Compactions

variable {e : QueueEngine} {rs log : List WalRecord} {env : Env} {w : World} {base : Nat}
  {pushed : List (Ulid × String × List UInt8)}

/-- A forced compaction with the cursor at the start is the one that the check makes. -/
theorem Written.forceCompaction (h : Written e rs) (env : Env) (rewound : e.spillReadOffset = 0)
    (few : (e.forceCompaction env).names.length ≤ 65536) :
    Written (e.forceCompaction env) (e.survivors env) := by
  obtain ⟨xs, i, layout, named, eq⟩ := h.log
  obtain ⟨ys, records, layout', named'⟩ := layout.compact env (h.every.survivors_fit env)
  refine ⟨⟨ys, 0, layout'.congr rfl rewound, named' named few, ?_⟩, h.every.congr rfl⟩
  have stored := congrArg (List.map WalRecord.stored) records
  simp only [List.map_map] at stored
  exact stored.symm

/-- What was recoverable is so from the segment that a compaction writes. -/
theorem Recoverable.forceCompaction (h : Recoverable base w rs log pushed) (env : Env)
    (rewound : w.engine.spillReadOffset = 0)
    (few : (w.engine.forceCompaction env).names.length ≤ 65536) :
    Recoverable base ⟨w.engine.forceCompaction env, w.clock⟩ (w.engine.survivors env) log pushed where
  memory :=
    { written := h.memory.written.forceCompaction env rewound few
      resident := h.memory.resident.compact env
      accounted := ⟨h.memory.accounted.keyed, h.memory.accounted.counter,
        h.memory.accounted.bounded⟩
      below := h.memory.below }
  retold := .survivors h.memory.resident h.memory.below env base
  log := h.log
  first := h.first

theorem checkAndTriggerCompaction_cases (env : Env) (rewound : e.spillReadOffset = 0) :
    e.checkAndTriggerCompaction env = e ∨
      e.checkAndTriggerCompaction env = e.forceCompaction env := by
  unfold QueueEngine.checkAndTriggerCompaction QueueEngine.forceCompaction
  split
  · rw [rewound]
    exact .inr rfl
  · exact .inl rfl

end Compactions

/-! ## Runs -/

/-- The operations are steady, and compactions come at any moment. -/
def Maintained (home : Ulid → String) (env : Env) (w : World) : UpkeepOp → Prop
  | .engine op => Steady home env w op
  | .checkAndTriggerCompaction | .forceCompaction => True
  | .clearForRaftRecovery => False

instance (home : Ulid → String) (env : Env) (w : World) :
    (op : UpkeepOp) → Decidable (Maintained home env w op)
  | .engine op => inferInstanceAs (Decidable (Steady home env w op))
  | .checkAndTriggerCompaction | .forceCompaction => isTrue trivial
  | .clearForRaftRecovery => isFalse id

/-- What a client asks to push. -/
def World.upkeepAsked (env : Env) (w : World) : UpkeepOp → List (Ulid × String × List UInt8)
  | .engine op => w.asked env op
  | _ => []

/-- What an operation of a client logs. -/
def World.upkeepAppended (env : Env) (w : World) : UpkeepOp → List WalRecord
  | .engine op => w.appended env op
  | _ => []

section Runs

variable {home : Ulid → String} {env : Env} {w : World} {opts : QueueOptions} {clock base : Nat}
  {ops : List UpkeepOp}

theorem oneQueue_upkeep
    (run : Trace.Along (World.upkeepStep env) (Maintained home env) w ops) :
    ∀ push ∈ Trace.emitted (World.upkeepStep env) (World.upkeepAsked env) w ops,
      home push.1 = push.2.1 := by
  refine run.forall_emitted fun w op ok push inside => ?_
  cases op with
  | engine op => exact Steady.ordinary ok |>.asked push inside
  | checkAndTriggerCompaction | forceCompaction | clearForRaftRecovery => cases inside

theorem World.names_upkeepStep (env : Env) (w : World) (op : UpkeepOp) :
    w.engine.names <+: (w.upkeepStep env op).engine.names := by
  cases op with
  | engine op => exact World.names_step env w op
  | checkAndTriggerCompaction => exact names_checkAndTriggerCompaction env w.engine
  | forceCompaction => exact DiskLog.names_performFlipFlopCompaction _
  | clearForRaftRecovery => exact List.prefix_rfl

theorem World.options_upkeepStep (env : Env) (w : World) (op : UpkeepOp) :
    (w.upkeepStep env op).engine.options = w.engine.options := by
  cases op with
  | engine op => exact World.options_step env w op
  | checkAndTriggerCompaction =>
      simp only [World.upkeepStep, QueueEngine.checkAndTriggerCompaction]
      split <;> rfl
  | forceCompaction | clearForRaftRecovery => rfl

theorem World.recoverable_upkeep
    (run : Trace.Along (World.upkeepStep env) (Maintained home env) (World.fresh env opts clock) ops)
    (few : (ops.foldl (World.upkeepStep env) (World.fresh env opts clock)).engine.names.length ≤
      65536) (base : Nat) :
    let w := ops.foldl (World.upkeepStep env) (World.fresh env opts clock)
    w.engine.options = opts ∧ w.engine.spillReadOffset = 0 ∧ ∃ rs, Recoverable base w rs
      ((Trace.emitted (World.upkeepStep env) (World.upkeepAppended env) (World.fresh env opts clock)
        ops).map WalRecord.stored)
      (Trace.emitted (World.upkeepStep env) (World.upkeepAsked env) (World.fresh env opts clock)
        ops) := by
  intro w
  induction ops using List.reverseRecOn with
  | nil => exact ⟨rfl, rfl, [], .fresh env opts clock base⟩
  | append_singleton ops op ih =>
      obtain ⟨before, ok, _⟩ := Trace.along_append.1 run
      have last : w = (ops.foldl (World.upkeepStep env) (World.fresh env opts clock)).upkeepStep env
          op := by simp only [w, List.foldl_append, List.foldl_cons, List.foldl_nil]
      rw [List.foldl_append] at few
      obtain ⟨options, rewound, rs, h⟩ := ih before
        ((World.names_upkeepStep env _ op).length_le.trans few)
      rw [last, Trace.emitted_concat, Trace.emitted_concat, List.map_append]
      refine ⟨(World.options_upkeepStep env _ op).trans options, ?_⟩
      cases op with
      | engine op =>
          have ok : Steady home env _ op := ok
          exact ⟨h.memory.rewound_step ok.stays rewound, _, h.step ok few (oneQueue_upkeep before)⟩
      | forceCompaction =>
          simp only [World.upkeepAppended, World.upkeepAsked, List.map_nil, List.append_nil]
          exact ⟨rewound, _, h.forceCompaction env rewound few⟩
      | checkAndTriggerCompaction =>
          simp only [World.upkeepAppended, World.upkeepAsked, List.map_nil, List.append_nil]
          refine ⟨rewound_checkAndTriggerCompaction rewound env, ?_⟩
          rcases checkAndTriggerCompaction_cases env rewound with same | forced
          · simp only [World.upkeepStep, same]
            exact ⟨rs, h⟩
          · simp only [List.foldl_cons, List.foldl_nil, World.upkeepStep, forced] at few ⊢
            exact ⟨_, h.forceCompaction env rewound few⟩
      | clearForRaftRecovery => exact ok.elim

/-- A restart after a steady run with forced compactions at any moments finds the messages that
were live, each waiting once in its queue with the payload of its first push, and no message
that was acked, also when a compaction has dropped its records. -/
theorem World.restart_compacted
    (run : Trace.Along (World.upkeepStep env) (Maintained home env) (World.fresh env opts clock) ops)
    (few : (ops.foldl (World.upkeepStep env) (World.fresh env opts clock)).engine.names.length ≤
      65536)
    (short : QueueRegistry.ShortNames
      (ops.foldl (World.upkeepStep env) (World.fresh env opts clock)).engine.names)
    (baseEpochSec draws : Nat) :
    let w := ops.foldl (World.upkeepStep env) (World.fresh env opts clock)
    let e := openDir env w.engine.disk.dir opts baseEpochSec draws
    let pushed := Trace.emitted (World.upkeepStep env) (World.upkeepAsked env)
      (World.fresh env opts clock) ops
    let logged := Trace.emitted (World.upkeepStep env) (World.upkeepAppended env)
      (World.fresh env opts clock) ops
    Restores w.engine.shards e.shards ∧
    (∀ s id msg, AList.lookup id (e.shards s).messages = some msg → shardIdx msg.queue = s ∧
      (e.shards s).At id (.pending msg) ∧ pushed.lookup id = some (msg.queue, msg.payload)) ∧
    (∀ id queue, .ack id queue ∈ logged → ∀ s, id ∉ (e.shards s).messages) ∧
    e.totalMessagesInRam = w.engine.totalMessagesInRam := by
  intro w e pushed logged
  obtain ⟨options, _, rs, h⟩ := World.recoverable_upkeep run few baseEpochSec
  have found := h.restart (oneQueue_upkeep run) few short env draws
  rw [options] at found
  obtain ⟨restores, waits, acked, total⟩ := found
  exact ⟨restores, waits, fun id queue inside => acked id queue (List.mem_map.2 ⟨_, inside, rfl⟩),
    total⟩

end Runs

/-- Three pushes and an ack, a compaction before the ack and one after it, and one more push. -/
def compactingOps : List UpkeepOp :=
  [.engine (.push "jobs" 1 [7] 0), .engine (.pushBatch "jobs" [⟨some 2, [8], 0⟩, ⟨some 3, [9], 60⟩]),
    .forceCompaction, .engine (.poll "jobs" 30 1),
    .engine (.ack "jobs" (ulidText 1) (ulidText (Env.sample.ulidNew 33))), .forceCompaction,
    .engine (.pushBatch "jobs" [⟨some 1, [5], 0⟩, ⟨some 4, [6], 0⟩])]

/-- The segment has the records of the survivors and of the last push. -/
theorem World.restart_compacted_sample :
    let start := World.fresh .sample .default 1600000000
    let w := compactingOps.foldl (World.upkeepStep .sample) start
    let e := openDir .sample w.engine.disk.dir .default 1600000100 0
    Trace.Along (World.upkeepStep .sample) (Maintained (fun _ => "jobs") .sample) start
        compactingOps ∧
      (w.engine.disk.activeRecords .sample).map WalRecord.msgId = [3, 2, 4] ∧
      2 ∈ (e.shards (shardIdx "jobs")).messages ∧ ∀ s, 1 ∉ (e.shards s).messages :=
  have run : Trace.Along (World.upkeepStep .sample) (Maintained (fun _ => "jobs") .sample)
      (World.fresh .sample .default 1600000000) compactingOps := by decide +kernel
  have exact := World.restart_compacted run (by decide +kernel) (by decide +kernel) 1600000100 0
  ⟨run, by decide +kernel, (exact.1.mem_iff _ 2).2 (by decide +kernel),
    exact.2.2.1 1 "jobs" (by decide +kernel)⟩

end WalrQueue
