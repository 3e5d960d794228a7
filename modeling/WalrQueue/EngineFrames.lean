import WalrQueue.DiskContents
import WalrQueue.Engine

/-!
# What the operations do to the files

Equations for the parts of an operation that only move the disk log, the cursor
and the options, and for the shape of the shards a push or an ack leaves.  They
let the later proofs treat an operation as its lock sections and its appends.
`DiskLayout` is the part of every invariant that concerns the files.
-/

namespace WalrQueue

open QueueEngine

/-- The names of the queues the directory knows. -/
def QueueEngine.names (e : QueueEngine) : List String := e.disk.registry.idToName

/-- The active segment is `xs`, the other segment is empty, and the page-in
cursor stands before entry `i`. -/
structure DiskLayout (e : QueueEngine) (xs : List WalEntry) (i : Nat) : Prop where
  holds : e.disk.Holds xs
  sole : e.disk.inactive = []
  inside : i ≤ xs.length
  cursor : e.spillReadOffset = (segment (xs.take i)).length

namespace DiskLayout

variable {e e' : QueueEngine} {xs : List WalEntry} {i : Nat}

theorem congr (h : DiskLayout e xs i) (disk : e'.disk = e.disk)
    (cursor : e'.spillReadOffset = e.spillReadOffset) : DiskLayout e' xs i where
  holds := by rw [disk]; exact h.holds
  sole := by rw [disk]; exact h.sole
  inside := h.inside
  cursor := by rw [cursor]; exact h.cursor

theorem append (h : DiskLayout e xs i) {r : WalRecord} (fits : r.Fits)
    (disk : e'.disk = e.disk.append r) (cursor : e'.spillReadOffset = e.spillReadOffset) :
    DiskLayout e' (xs ++ [e.disk.newEntry r]) i where
  holds := by rw [disk]; exact h.holds.append fits
  sole := by rw [disk, DiskLog.inactive_append]; exact h.sole
  inside := h.inside.trans (by simp)
  cursor := by rw [cursor, h.cursor, List.take_append_of_le_length h.inside]

/-- After a compaction the entries are the survivors and the cursor is rewound. -/
theorem compact (h : DiskLayout e xs i) (env : Env)
    (fits : ∀ survivor ∈ e.surviving env, survivor.2.2.2.length < 2 ^ 32) :
    ∃ ys : List WalEntry, ys.map Prod.snd = (e.surviving env).map DiskLog.survivorRecord ∧
      DiskLayout { e with
        disk := e.disk.performFlipFlopCompaction (e.surviving env)
        spillReadOffset := 0
        draws := e.draws + numShards } ys 0 ∧
      (e.disk.Named xs →
        (e.disk.performFlipFlopCompaction (e.surviving env)).registry.idToName.length ≤ 65536 →
        (e.disk.performFlipFlopCompaction (e.surviving env)).Named ys) := by
  obtain ⟨ys, records, holds, sole, named⟩ := h.holds.performFlipFlopCompaction h.sole fits
  exact ⟨ys, records, ⟨holds, sole, Nat.zero_le _, by simp⟩, named⟩

/-- A paging read returns the entries up to a later boundary. -/
theorem read (h : DiskLayout e xs i) (env : Env) (fetchLimit : Nat) :
    ∃ k, i + k ≤ xs.length ∧
      e.disk.readEntriesFromOffset env e.spillReadOffset fetchLimit =
        (((xs.drop i).take k).map (readBack e.disk.registry),
          (segment (xs.take (i + k))).length) := by
  rw [h.cursor]
  exact h.holds.readEntriesFromOffset env h.inside fetchLimit

/-- The cursor may be moved to any boundary. -/
theorem move (h : DiskLayout e xs i) {j : Nat} (inside : j ≤ xs.length) :
    DiskLayout { e with spillReadOffset := (segment (xs.take j)).length } xs j :=
  ⟨h.holds, h.sole, inside, rfl⟩

theorem rewind (h : DiskLayout e xs i) : DiskLayout { e with spillReadOffset := 0 } xs 0 :=
  ⟨h.holds, h.sole, Nat.zero_le _, by simp⟩

end DiskLayout

/-! ## One shard replaced -/

namespace QueueEngine

variable {e : QueueEngine} {s s' : Fin numShards} {st st' : ShardState} {m : Ulid}

@[simp] theorem shards_setShard : (e.setShard s st).shards s = st := by simp [setShard]

@[simp] theorem shards_setShard_of_ne (other : s' ≠ s) :
    (e.setShard s st).shards s' = e.shards s' := by
  simp [setShard, other]

@[simp] theorem setShard_setShard : (e.setShard s st).setShard s st' = e.setShard s st' := by
  simp [setShard]

@[simp] theorem setShard_self : e.setShard s (e.shards s) = e := by simp [setShard]

theorem seen_setShard (keep : m ∈ (e.shards s).seenIds → m ∈ st.seenIds)
    (seen : m ∈ (e.shards s').seenIds) : m ∈ ((e.setShard s st).shards s').seenIds := by
  by_cases same : s' = s
  · subst same
    simpa using keep seen
  · simpa [same] using seen

theorem acked_setShard (keep : m ∈ (e.shards s).ackedIds → m ∈ st.ackedIds)
    (acked : m ∈ (e.shards s').ackedIds) : m ∈ ((e.setShard s st).shards s').ackedIds := by
  by_cases same : s' = s
  · subst same
    simpa using keep acked
  · simpa [same] using acked

end QueueEngine

/-! ## Compaction -/

theorem names_checkAndTriggerCompaction (env : Env) (e : QueueEngine) :
    e.names <+: (e.checkAndTriggerCompaction env).names := by
  unfold checkAndTriggerCompaction
  split
  · exact DiskLog.names_performFlipFlopCompaction _
  · exact List.prefix_rfl

theorem shards_checkAndTriggerCompaction (env : Env) (e : QueueEngine) :
    (e.checkAndTriggerCompaction env).shards = e.shards := by
  unfold checkAndTriggerCompaction
  split <;> rfl

theorem ram_checkAndTriggerCompaction (env : Env) (e : QueueEngine) :
    (e.checkAndTriggerCompaction env).totalMessagesInRam = e.totalMessagesInRam := by
  unfold checkAndTriggerCompaction
  split <;> rfl

theorem options_checkAndTriggerCompaction (env : Env) (e : QueueEngine) :
    (e.checkAndTriggerCompaction env).options = e.options := by
  unfold checkAndTriggerCompaction
  split <;> rfl

/-! ## Push -/

theorem disk_pushSection (e : QueueEngine) (now : Nat) (queue : String) (id : Ulid)
    (payload : List UInt8) (visibleAt : Nat) :
    (e.pushSection now queue id payload visibleAt).disk = e.disk ∧
      (e.pushSection now queue id payload visibleAt).spillReadOffset = e.spillReadOffset := by
  unfold pushSection
  dsimp only
  split <;> exact ⟨rfl, rfl⟩

/-- The shard a push section leaves behind. -/
theorem shards_pushSection (e : QueueEngine) (now : Nat) (queue : String) (id : Ulid)
    (payload : List UInt8) (visibleAt : Nat) :
    ∃ st, (e.pushSection now queue id payload visibleAt).shards =
        (e.setShard (shardIdx queue) st).shards ∧
      (st = { e.shards (shardIdx queue) with
          seenIds := insert id (e.shards (shardIdx queue)).seenIds } ∨
        st = ShardState.store { e.shards (shardIdx queue) with
          seenIds := insert id (e.shards (shardIdx queue)).seenIds } now
            (e.newMsg queue id payload visibleAt)) := by
  unfold pushSection
  dsimp only
  split
  · exact ⟨_, rfl, Or.inr rfl⟩
  · exact ⟨_, rfl, Or.inl rfl⟩

theorem disk_pushUnchecked (e : QueueEngine) (now : Nat) (queue : String) (id : Ulid)
    (payload : List UInt8) (delaySec : Nat) :
    (e.pushUnchecked now queue id payload delaySec).1.disk =
        e.disk.append (.push id queue (addU64 now delaySec) payload) ∧
      (e.pushUnchecked now queue id payload delaySec).1.spillReadOffset = e.spillReadOffset := by
  unfold pushUnchecked
  dsimp only
  split
  · exact ⟨rfl, rfl⟩
  · exact disk_pushSection _ _ _ _ _ _

section PushBatch

variable (now : Nat) (queue : String) (acc : PushBatch) (id : Ulid) (item : PushItem)

theorem disk_pushBatchNew :
    (pushBatchNew now queue acc id item).engine.disk =
        acc.engine.disk.append (.push id queue (addU64 now item.delaySeconds) item.payload) ∧
      (pushBatchNew now queue acc id item).engine.spillReadOffset =
        acc.engine.spillReadOffset := by
  unfold pushBatchNew
  dsimp only
  split <;> exact ⟨rfl, rfl⟩

theorem shards_pushBatchNew :
    ∃ st, (pushBatchNew now queue acc id item).engine.shards =
        (acc.engine.setShard (shardIdx queue) st).shards ∧
      (st = { acc.engine.shards (shardIdx queue) with
          seenIds := insert id (acc.engine.shards (shardIdx queue)).seenIds } ∨
        st = ShardState.store { acc.engine.shards (shardIdx queue) with
          seenIds := insert id (acc.engine.shards (shardIdx queue)).seenIds } now
            (acc.engine.newMsg queue id item.payload (addU64 now item.delaySeconds))) := by
  unfold pushBatchNew
  dsimp only
  split
  · exact ⟨_, rfl, Or.inr rfl⟩
  · exact ⟨_, rfl, Or.inl rfl⟩

theorem ids_pushBatchItem (env : Env) : (pushBatchItem env now queue acc item).ids =
    acc.ids ++ [(drawId env acc.engine.draws item.id).1] := by
  unfold pushBatchItem
  dsimp only
  split
  · rfl
  · unfold pushBatchNew
    dsimp only
    split <;> rfl

theorem names_pushBatchItem (env : Env) :
    acc.engine.names <+: (pushBatchItem env now queue acc item).engine.names := by
  unfold pushBatchItem
  dsimp only
  split
  · exact List.prefix_rfl
  · rw [names, names, (disk_pushBatchNew _ _ _ _ _).1]
    exact DiskLog.names_append

theorem ids_prefix_pushBatchLoop (env : Env) (items : List PushItem) :
    acc.ids <+: (items.foldl (QueueEngine.pushBatchItem env now queue) acc).ids := by
  induction items generalizing acc with
  | nil => exact List.prefix_rfl
  | cons item items ih =>
      refine List.IsPrefix.trans ?_ (ih _)
      rw [ids_pushBatchItem]
      exact List.prefix_append _ _

theorem names_pushBatchLoop (env : Env) (items : List PushItem) :
    acc.engine.names <+:
      (items.foldl (QueueEngine.pushBatchItem env now queue) acc).engine.names := by
  induction items generalizing acc with
  | nil => exact List.prefix_rfl
  | cons item items ih => exact (names_pushBatchItem now queue acc item env).trans (ih _)

end PushBatch

/-! ## Page-in -/

theorem disk_pageInChunk (now : Nat) (targetQueue : String) (e : QueueEngine)
    (records : List WalRecord) :
    (pageInChunk now targetQueue e records).engine.disk = e.disk ∧
      (pageInChunk now targetQueue e records).engine.spillReadOffset = e.spillReadOffset ∧
      (pageInChunk now targetQueue e records).engine.options = e.options := by
  have shards : ∀ (ss : List (Fin numShards)) (acc : PageInChunk),
      (ss.foldl (pageInShard now targetQueue records) acc).engine.disk = acc.engine.disk ∧
        (ss.foldl (pageInShard now targetQueue records) acc).engine.spillReadOffset =
          acc.engine.spillReadOffset ∧
        (ss.foldl (pageInShard now targetQueue records) acc).engine.options =
          acc.engine.options := by
    intro ss
    induction ss with
    | nil => exact fun acc => ⟨rfl, rfl, rfl⟩
    | cons s ss ih => exact fun acc => ih _
  exact shards (List.finRange numShards) ⟨e, 0, 0⟩

/-- What one turn of the page-in loop can do to the engine: it passes over a
chunk of entries and takes in the chunk when it has a Push, or it reads nothing
and may rewind the cursor. -/
theorem pageInStep_cases {e : QueueEngine} {xs : List WalEntry} {i : Nat} (h : DiskLayout e xs i)
    (env : Env) (now : Nat) (targetQueue : String) (fetchLimit : Nat) (flushed : Bool) :
    (∃ k records, i + k ≤ xs.length ∧
      records = ((xs.drop i).take k).map (readBack e.disk.registry) ∧
      ((records.any WalRecord.isPush = true ∧
        (pageInStep env now targetQueue fetchLimit e flushed).1 = (pageInChunk now targetQueue
          { e with spillReadOffset := (segment (xs.take (i + k))).length } records).engine) ∨
      (records.any WalRecord.isPush = false ∧
        (pageInStep env now targetQueue fetchLimit e flushed).1 =
          { e with spillReadOffset := (segment (xs.take (i + k))).length }))) ∨
    (pageInStep env now targetQueue fetchLimit e flushed).1 = e ∨
    (pageInStep env now targetQueue fetchLimit e flushed).1 = { e with spillReadOffset := 0 } := by
  obtain ⟨k, inside, result⟩ := h.read env fetchLimit
  unfold pageInStep
  dsimp only
  rw [result]
  generalize records : ((xs.drop i).take k).map (readBack e.disk.registry) = read
  split
  · refine Or.inl ⟨k, read, inside, records.symm, ?_⟩
    split
    · rename_i hasPush
      exact Or.inl ⟨hasPush, by split <;> rfl⟩
    · rename_i acksOnly
      exact Or.inr ⟨by simpa using acksOnly, rfl⟩
  · split
    · split
      · exact Or.inr (Or.inr rfl)
      · exact Or.inr (Or.inl rfl)
    · exact Or.inr (Or.inl rfl)

/-- What holds at the start and is kept by every turn holds at the end. -/
theorem pageInLoop_induction {P : QueueEngine → Prop} {env : Env} {now : Nat}
    {targetQueue : String} {fetchLimit : Nat}
    (turn : ∀ e flushed, P e → P (pageInStep env now targetQueue fetchLimit e flushed).1)
    {e : QueueEngine} (start : P e) (fuel : Nat) (flushed : Bool) :
    P (pageInLoop env now targetQueue fetchLimit fuel e flushed) := by
  induction fuel generalizing e flushed with
  | zero => exact start
  | succ fuel ih =>
      have next := turn e flushed start
      unfold pageInLoop
      rcases hstep : pageInStep env now targetQueue fetchLimit e flushed with ⟨e', _ | flushed'⟩
      · rw [hstep] at next
        exact next
      · rw [hstep] at next
        exact ih next flushed'

theorem prefetch_induction {P : QueueEngine → Prop} {env : Env} {now : Nat} {queue : String}
    (turn : ∀ fetchLimit e flushed, P e → P (pageInStep env now queue fetchLimit e flushed).1)
    {e : QueueEngine} (start : P e) (maxMessages : Nat) :
    P (e.prefetch env queue now maxMessages) := by
  unfold prefetch
  split
  · exact pageInLoop_induction (turn _) start _ _
  · exact start

/-- What one turn of the page-in loop can do to the engine, whatever the files
hold: take in a chunk, or move the cursor. -/
theorem pageInStep_eq (env : Env) (now : Nat) (targetQueue : String) (fetchLimit : Nat)
    (e : QueueEngine) (flushed : Bool) :
    let read := e.disk.readEntriesFromOffset env e.spillReadOffset fetchLimit
    (read.1.any WalRecord.isPush = true ∧
      (pageInStep env now targetQueue fetchLimit e flushed).1 =
        (pageInChunk now targetQueue { e with spillReadOffset := read.2 } read.1).engine) ∨
    (read.1.any WalRecord.isPush = false ∧
      ∃ offset, (pageInStep env now targetQueue fetchLimit e flushed).1 =
        { e with spillReadOffset := offset }) := by
  intro read
  unfold pageInStep
  dsimp only
  split
  · split
    · rename_i hasPush
      exact Or.inl ⟨hasPush, by split <;> rfl⟩
    · rename_i acksOnly
      exact Or.inr ⟨by simpa using acksOnly, _, rfl⟩
  · rename_i nothing
    have nothing : read.1 = [] := by simpa using nothing
    refine Or.inr ⟨by simp [nothing], ?_⟩
    split
    · split
      · exact ⟨0, rfl⟩
      · exact ⟨e.spillReadOffset, rfl⟩
    · exact ⟨e.spillReadOffset, rfl⟩

/-- What a turn leaves when the loop goes on: it read records and stands behind them, or it
read none and has flushed. -/
theorem pageInStep_goesOn {env : Env} {now fetchLimit : Nat} {targetQueue : String}
    {e e' : QueueEngine} {flushed flushed' : Bool}
    (goesOn : pageInStep env now targetQueue fetchLimit e flushed = (e', some flushed')) :
    let read := e.disk.readEntriesFromOffset env e.spillReadOffset fetchLimit
    e'.disk = e.disk ∧
      (read.1 ≠ [] ∧ e'.spillReadOffset = read.2 ∧ flushed' = flushed ∨
        read.1 = [] ∧ e' = e ∧ flushed = false ∧ flushed' = true) := by
  unfold pageInStep at goesOn
  dsimp only at goesOn ⊢
  generalize e.disk.readEntriesFromOffset env e.spillReadOffset fetchLimit = read at goesOn ⊢
  split at goesOn
  · rename_i some
    split at goesOn
    · obtain ⟨disk, cursor, -⟩ :=
        disk_pageInChunk now targetQueue { e with spillReadOffset := read.2 } read.1
      split at goesOn
      · cases goesOn
      · cases goesOn
        exact ⟨disk, .inl ⟨some, cursor, rfl⟩⟩
    · cases goesOn
      exact ⟨rfl, .inl ⟨some, rfl, rfl⟩⟩
  · rename_i nothing
    split at goesOn
    · cases goesOn
    · rename_i unflushed
      cases goesOn
      exact ⟨rfl, .inr ⟨not_not.1 nothing, rfl, Bool.not_eq_true _ ▸ unflushed, rfl⟩⟩

/-- The chunks the page-in loop takes in, each with the engine that takes it. -/
def pageInChunks (env : Env) (now : Nat) (targetQueue : String) (fetchLimit : Nat) :
    Nat → QueueEngine → Bool → List (QueueEngine × List WalRecord)
  | 0, _, _ => []
  | fuel + 1, e, flushed =>
      let read := e.disk.readEntriesFromOffset env e.spillReadOffset fetchLimit
      let here := if read.1.any WalRecord.isPush then [({ e with spillReadOffset := read.2 }, read.1)]
        else []
      match pageInStep env now targetQueue fetchLimit e flushed with
      | (e, some flushed) => here ++ pageInChunks env now targetQueue fetchLimit fuel e flushed
      | (_, none) => here

/-- What no move of the cursor and no chunk breaks holds at the end. -/
theorem pageInLoop_chunks {P : QueueEngine → Prop} {env : Env} {now : Nat} {targetQueue : String}
    {fetchLimit : Nat} (moves : ∀ e offset, P e → P { e with spillReadOffset := offset })
    {e : QueueEngine} {flushed : Bool} (fuel : Nat)
    (chunks : ∀ c ∈ pageInChunks env now targetQueue fetchLimit fuel e flushed,
      P c.1 → P (pageInChunk now targetQueue c.1 c.2).engine) (start : P e) :
    P (pageInLoop env now targetQueue fetchLimit fuel e flushed) := by
  induction fuel generalizing e flushed with
  | zero => exact start
  | succ fuel ih =>
      unfold pageInChunks at chunks
      unfold pageInLoop
      have turn : P (pageInStep env now targetQueue fetchLimit e flushed).1 := by
        rcases pageInStep_eq env now targetQueue fetchLimit e flushed with
          ⟨hasPush, eq⟩ | ⟨_, offset, eq⟩
        · rw [eq]
          refine chunks ({ e with spillReadOffset := _ }, _) ?_ (moves e _ start)
          simp only [hasPush, if_true]
          split <;> simp
        · rw [eq]
          exact moves e offset start
      rcases hstep : pageInStep env now targetQueue fetchLimit e flushed with ⟨e', _ | flushed'⟩
      · rw [hstep] at turn
        exact turn
      · rw [hstep] at turn chunks
        exact ih (fun c member => chunks c (List.mem_append_right _ member)) turn

/-- The chunks the prefetch of a poll takes in. -/
def QueueEngine.prefetchChunks (env : Env) (e : QueueEngine) (queue : String)
    (now maxMessages : Nat) : List (QueueEngine × List WalRecord) :=
  if e.needsPageIn queue (prefetchThreshold maxMessages) then
    pageInChunks env now queue (max (prefetchThreshold maxMessages) 1000)
      (e.disk.active.length + 3) e false
  else []

theorem prefetch_chunks {P : QueueEngine → Prop} {env : Env} {now : Nat} {queue : String}
    {e : QueueEngine} {maxMessages : Nat}
    (moves : ∀ e offset, P e → P { e with spillReadOffset := offset })
    (chunks : ∀ c ∈ e.prefetchChunks env queue now maxMessages,
      P c.1 → P (pageInChunk now queue c.1 c.2).engine) (start : P e) :
    P (e.prefetch env queue now maxMessages) := by
  unfold prefetch
  unfold prefetchChunks at chunks
  split
  · rename_i short
    rw [if_pos short] at chunks
    exact pageInLoop_chunks moves _ chunks start
  · exact start

theorem disk_pageInStep (env : Env) (now : Nat) (targetQueue : String) (fetchLimit : Nat)
    (e : QueueEngine) (flushed : Bool) :
    (pageInStep env now targetQueue fetchLimit e flushed).1.disk = e.disk ∧
      (pageInStep env now targetQueue fetchLimit e flushed).1.options = e.options := by
  unfold pageInStep
  dsimp only
  split
  · split
    · obtain ⟨disk, _, options⟩ := disk_pageInChunk now targetQueue
        { e with spillReadOffset :=
          (e.disk.readEntriesFromOffset env e.spillReadOffset fetchLimit).2 }
        (e.disk.readEntriesFromOffset env e.spillReadOffset fetchLimit).1
      split <;> exact ⟨disk, options⟩
    · exact ⟨rfl, rfl⟩
  · split
    · split <;> exact ⟨rfl, rfl⟩
    · exact ⟨rfl, rfl⟩

theorem disk_prefetch (env : Env) (e : QueueEngine) (queue : String) (now maxMessages : Nat) :
    (e.prefetch env queue now maxMessages).disk = e.disk ∧
      (e.prefetch env queue now maxMessages).options = e.options :=
  prefetch_induction (P := fun e' => e'.disk = e.disk ∧ e'.options = e.options)
    (fun fetchLimit e' flushed before =>
      ⟨(disk_pageInStep env now queue fetchLimit e' flushed).1.trans before.1,
        (disk_pageInStep env now queue fetchLimit e' flushed).2.trans before.2⟩)
    ⟨rfl, rfl⟩ maxMessages

/-! ## Poll -/

theorem disk_routeExpired (now : Nat) (e : QueueEngine) (msg : StoredMsg) :
    (routeExpired now e msg).disk = e.disk ∧
      (routeExpired now e msg).spillReadOffset = e.spillReadOffset ∧
      (routeExpired now e msg).options = e.options := by
  unfold routeExpired
  split <;> exact ⟨rfl, rfl, rfl⟩

theorem disk_routeExpired_foldl (now : Nat) (e : QueueEngine) (msgs : List StoredMsg) :
    (msgs.foldl (routeExpired now) e).disk = e.disk ∧
      (msgs.foldl (routeExpired now) e).spillReadOffset = e.spillReadOffset ∧
      (msgs.foldl (routeExpired now) e).options = e.options := by
  induction msgs generalizing e with
  | nil => exact ⟨rfl, rfl, rfl⟩
  | cons msg msgs ih =>
      obtain ⟨disk, cursor, options⟩ := disk_routeExpired now e msg
      obtain ⟨disk', cursor', options'⟩ := ih (routeExpired now e msg)
      exact ⟨disk'.trans disk, cursor'.trans cursor, options'.trans options⟩

/-- The engine of a poll once the expired messages are put back. -/
def QueueEngine.routed (e : QueueEngine) (s : Fin numShards) (now : Nat) : QueueEngine :=
  (e.collectExpired s now).2.foldl (routeExpired now) (e.collectExpired s now).1

/-- The chunks a poll takes in. -/
def QueueEngine.pollChunks (env : Env) (e : QueueEngine) (now : Nat) (queue : String)
    (maxMessages : Nat) : List (QueueEngine × List WalRecord) :=
  (e.routed (shardIdx queue) now).prefetchChunks env queue now maxMessages

/-- The engine of a poll before its claim section. -/
def QueueEngine.polling (env : Env) (e : QueueEngine) (now : Nat) (queue : String)
    (maxMessages : Nat) : QueueEngine :=
  let collected := e.collectExpired (shardIdx queue) now
  (collected.2.foldl (routeExpired now) collected.1).prefetch env queue now maxMessages

theorem poll_eq (env : Env) (e : QueueEngine) (now : Nat) (queue : String)
    (visibilitySec maxMessages : Nat) :
    e.poll env now queue visibilitySec maxMessages =
      (e.polling env now queue maxMessages).claimSection env queue now
        (e.visibility visibilitySec) maxMessages := by
  have options : (e.polling env now queue maxMessages).options = e.options := by
    unfold polling
    rw [(disk_prefetch _ _ _ _ _).2, (disk_routeExpired_foldl _ _ _).2.2]
    rfl
  have visibility : (e.polling env now queue maxMessages).visibility visibilitySec =
      e.visibility visibilitySec := by
    unfold QueueEngine.visibility
    rw [options]
  rw [← visibility]
  rfl

theorem disk_claimSection (env : Env) (e : QueueEngine) (queue : String)
    (now timeout maxMessages : Nat) :
    (e.claimSection env queue now timeout maxMessages).1.disk = e.disk ∧
      (e.claimSection env queue now timeout maxMessages).1.spillReadOffset =
        e.spillReadOffset := by
  unfold claimSection
  dsimp only
  split <;> exact ⟨rfl, rfl⟩

theorem disk_poll (env : Env) (e : QueueEngine) (now : Nat) (queue : String)
    (visibilitySec maxMessages : Nat) :
    (e.poll env now queue visibilitySec maxMessages).1.disk = e.disk := by
  rw [poll_eq, (disk_claimSection _ _ _ _ _ _).1, polling, (disk_prefetch _ _ _ _ _).1,
    (disk_routeExpired_foldl _ _ _).1]
  rfl

/-! ## Ack -/

theorem names_ackBatchItem (queue : String) (acc : AckBatch) (item : Ulid × String) :
    acc.engine.names <+: (ackBatchItem queue acc item).engine.names := by
  unfold ackBatchItem
  split
  · exact List.prefix_rfl
  · exact DiskLog.names_append

theorem names_ackBatchLoop (queue : String) (acc : AckBatch) (items : List (Ulid × String)) :
    acc.engine.names <+: (items.foldl (ackBatchItem queue) acc).engine.names := by
  induction items generalizing acc with
  | nil => exact List.prefix_rfl
  | cons item items ih => exact (names_ackBatchItem queue acc item).trans (ih _)

/-- An item with a valid receipt. -/
theorem ackBatchItem_of_valid {queue receipt : String} {acc : AckBatch} {id : Ulid}
    {done : ShardState × Bool}
    (valid : (acc.engine.shards (shardIdx queue)).ackLease queue id receipt = some done) :
    (ackBatchItem queue acc (id, receipt)).engine.shards =
        (acc.engine.setShard (shardIdx queue) done.1).shards ∧
      (ackBatchItem queue acc (id, receipt)).engine.disk =
        acc.engine.disk.append (.ack id queue) ∧
      (ackBatchItem queue acc (id, receipt)).engine.spillReadOffset =
        acc.engine.spillReadOffset ∧
      (ackBatchItem queue acc (id, receipt)).accepted = acc.accepted ++ [(id, receipt)] ∧
      (ackBatchItem queue acc (id, receipt)).count =
        if done.2 then acc.count + 1 else acc.count := by
  unfold ackBatchItem
  rw [valid]
  exact ⟨rfl, rfl, rfl, rfl, rfl⟩

theorem ackBatchItem_of_invalid {queue : String} {acc : AckBatch} {item : Ulid × String}
    (invalid : (acc.engine.shards (shardIdx queue)).ackLease queue item.1 item.2 = none) :
    ackBatchItem queue acc item = acc := by
  unfold ackBatchItem
  rw [invalid]

theorem disk_ackBatchUnchecked (env : Env) (e : QueueEngine) (queue : String)
    (items : List (String × String)) :
    (e.ackBatchUnchecked env queue items).disk = (ackBatchLoop env e queue items).engine.disk ∧
      (e.ackBatchUnchecked env queue items).spillReadOffset =
        (ackBatchLoop env e queue items).engine.spillReadOffset ∧
      (e.ackBatchUnchecked env queue items).shards =
        (ackBatchLoop env e queue items).engine.shards := by
  unfold ackBatchUnchecked
  dsimp only
  split <;> exact ⟨rfl, rfl, rfl⟩

end WalrQueue
