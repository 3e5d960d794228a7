import WalrQueue.LifeSections

/-!
# Every operation follows the life cycle

`Sound` is the invariant of a sequential run: what is written is known, and every
tracked id is at a point of its life cycle with no message in the hands of a
poll.  Each operation keeps it, and the lemmas say how the operation moves the
ids.  Which ids are tracked is a parameter: the condition that all pushes of an
id go to one queue is needed for the tracked ids only.
-/

namespace WalrQueue

open QueueEngine

/-- The invariant of a sequential run, for the ids in `tracked`. -/
structure Sound (tracked : Set Ulid) (home : Ulid → String) (e : QueueEngine)
    (rs : List WalRecord) (log : Set WalRecord) (lives : Ulid → Life) : Prop where
  written : Written e rs
  logged : ∀ r ∈ rs, r ∈ log
  tracks : ∀ m ∈ tracked, Tracks e m (home m) log 0 (lives m)

variable {tracked : Set Ulid} {home : Ulid → String} {e e' : QueueEngine} {rs : List WalRecord}
  {log : Set WalRecord} {lives : Ulid → Life} {env : Env} {now : Nat} {queue : String}

/-- With no message in hand, no id is in hand. -/
theorem Tracks.idle {m : Ulid} {home : String} {life : Life} (h : Tracks e m home log 0 life) :
    ∀ msg, life ≠ .inHand msg := by
  rintro msg rfl
  have hand := h.hand
  simp [Life.hand] at hand

/-- A record more in the segment and in the log. -/
theorem Sound.logged_concat (h : Sound tracked home e rs log lives) (r : WalRecord) :
    ∀ r' ∈ rs ++ [r], r' ∈ insert r log := by
  intro r' member
  rcases List.mem_append.1 member with old | new
  · exact Set.mem_insert_of_mem _ (h.logged r' old)
  · rw [List.mem_singleton.1 new]
    exact Set.mem_insert _ _

/-! ## Compaction -/

/-- A compaction check moves no id. -/
theorem Sound.checkAndTriggerCompaction (h : Sound tracked home e rs log lives) (env : Env)
    (few : (e.checkAndTriggerCompaction env).names.length ≤ 65536) :
    Sound tracked home (e.checkAndTriggerCompaction env) (e.checkedLog env rs)
      (log ∪ {r | r ∈ e.survivors env}) lives where
  written := h.written.checkAndTriggerCompaction env few
  logged r member := by
    unfold QueueEngine.checkedLog at member
    split at member
    · exact Or.inr member
    · exact Or.inl (h.logged r member)
  tracks m inside := ((h.tracks m inside).logSurvivors env).congr
    (shards_checkAndTriggerCompaction env e)

/-! ## Push -/

/-- A push loads the message, or nothing happens to any id. -/
theorem Sound.pushUnchecked (h : Sound tracked home e rs log lives) {id : Ulid}
    {payload : List UInt8} (delaySec : Nat) (mine : id ∈ tracked → home id = queue)
    (fits : payload.length < 2 ^ 32)
    (few : (e.pushUnchecked now queue id payload delaySec).1.names.length ≤ 65536) :
    ∃ log' lives', Sound tracked home (e.pushUnchecked now queue id payload delaySec).1
        (rs ++ [WalRecord.stored (.push id queue (addU64 now delaySec) payload)]) log' lives' ∧
      ∀ m ∈ tracked, (lives m).Loads (lives' m) := by
  have each : ∀ m ∈ tracked, ∃ life', (lives m).Loads life' ∧
      Tracks (e.pushUnchecked now queue id payload delaySec).1 m (home m) log 0 life' ∧
      id ∈ ((e.pushUnchecked now queue id payload delaySec).1.shards (shardIdx queue)).seenIds := by
    intro m inside
    unfold QueueEngine.pushUnchecked
    dsimp only
    split
    · rename_i seen
      exact ⟨lives m, .same _, (h.tracks m inside).congr rfl, seen⟩
    · rename_i unseen
      obtain ⟨st, shards, after⟩ := shards_pushSection
        { e with disk := e.disk.append (.push id queue (addU64 now delaySec) payload) }
        now queue id payload (addU64 now delaySec)
      obtain ⟨life', loads, tracks, seen⟩ := (h.tracks m inside).enter
        (e.newMsg queue id payload (addU64 now delaySec)) now rfl
        (fun same => by subst same; exact (mine inside).symm) unseen after
      refine ⟨life', loads, tracks.congr shards, ?_⟩
      rw [shards]
      exact seen
  choose! lives' loads tracks seen using each
  refine ⟨_, lives', ⟨h.written.pushUnchecked fits few, h.logged_concat _, fun m inside => ?_⟩, loads⟩
  exact (tracks m inside).logPush (fun same => by subst same; exact (mine inside).symm)
    (seen m inside)

/-- `push_with_ulid`. -/
theorem Sound.pushWithUlid (h : Sound tracked home e rs log lives) (env : Env) {id : Ulid}
    {payload : List UInt8} (delaySec : Nat) (mine : id ∈ tracked → home id = queue)
    (fits : payload.length < 2 ^ 32)
    (few : (e.pushWithUlid env now queue id payload delaySec).1.names.length ≤ 65536) :
    ∃ rs' log' lives', Sound tracked home (e.pushWithUlid env now queue id payload delaySec).1
        rs' log' lives' ∧ ∀ m ∈ tracked, (lives m).Loads (lives' m) := by
  unfold QueueEngine.pushWithUlid at few ⊢
  dsimp only at few ⊢
  split at few
  · rename_i reached
    rw [if_pos reached]
    obtain ⟨log', lives', sound, loads⟩ := h.pushUnchecked delaySec mine fits
      ((names_checkAndTriggerCompaction env _).length_le.trans few)
    exact ⟨_, _, lives', sound.checkAndTriggerCompaction env few, loads⟩
  · rename_i early
    rw [if_neg early]
    obtain ⟨log', lives', sound, loads⟩ := h.pushUnchecked delaySec mine fits few
    exact ⟨_, log', lives', sound, loads⟩

/-! ## Push batch -/

/-- An item of a batch whose id is new. -/
theorem Sound.pushBatchNew (now : Nat) (acc : PushBatch) (item : PushItem) {id : Ulid}
    (h : Sound tracked home acc.engine rs log lives) (mine : id ∈ tracked → home id = queue)
    (unseen : id ∉ (acc.engine.shards (shardIdx queue)).seenIds) :
    ∃ lives' : Ulid → Life, (∀ m ∈ tracked, (lives m).Loads (lives' m)) ∧
      ∀ m ∈ tracked, Tracks (pushBatchNew now queue acc id item).engine m (home m)
        (insert (WalRecord.stored (.push id queue (addU64 now item.delaySeconds) item.payload)) log)
        0 (lives' m) := by
  obtain ⟨st, shards, after⟩ := shards_pushBatchNew now queue acc id item
  have each := fun m inside => (h.tracks m inside).enter
    (acc.engine.newMsg queue id item.payload (addU64 now item.delaySeconds)) now rfl
    (fun same => by subst same; exact (mine inside).symm) unseen after
  choose! lives' loads tracks seen using each
  refine ⟨lives', loads, fun m inside => ?_⟩
  refine ((tracks m inside).logPush (fun same => ?_) (seen m inside)).congr shards
  subst same
  exact (mine inside).symm

/-- The loop of `push_batch`. -/
theorem Sound.pushBatchLoop (acc : PushBatch) {items : List PushItem}
    (h : Sound tracked home acc.engine rs log lives)
    (mine : ∀ id ∈ (items.foldl (QueueEngine.pushBatchItem env now queue) acc).ids,
      id ∈ tracked → home id = queue)
    (fits : ∀ item ∈ items, item.payload.length < 2 ^ 32)
    (few : (items.foldl (QueueEngine.pushBatchItem env now queue) acc).engine.names.length ≤ 65536) :
    ∃ rs' log' lives',
      Sound tracked home (items.foldl (QueueEngine.pushBatchItem env now queue) acc).engine
        rs' log' lives' ∧ ∀ m ∈ tracked, (lives m).Loads (lives' m) := by
  induction items generalizing acc rs log lives with
  | nil => exact ⟨rs, log, lives, h, fun m _ => .same _⟩
  | cons item items ih =>
      have drawn : (drawId env acc.engine.draws item.id).1 ∈
          ((item :: items).foldl (QueueEngine.pushBatchItem env now queue) acc).ids := by
        refine (ids_prefix_pushBatchLoop now queue
          (QueueEngine.pushBatchItem env now queue acc item) env items).subset ?_
        rw [ids_pushBatchItem]
        simp
      have few' := (names_pushBatchLoop now queue
        (QueueEngine.pushBatchItem env now queue acc item) env items).length_le.trans few
      have item' : ∃ rs' log' lives',
          Sound tracked home (QueueEngine.pushBatchItem env now queue acc item).engine rs' log'
            lives' ∧ ∀ m ∈ tracked, (lives m).Loads (lives' m) := by
        have written := h.written.pushBatchLoop [item]
          (fun item' member => fits item' (by simp [List.mem_singleton.1 member])) few'
        rcases pushBatchItem_cases env now queue acc item with ⟨seen, eq⟩ | ⟨unseen, eq⟩
        · simp only [pushBatchRecords, if_pos seen, List.append_nil, List.map_nil] at written
          refine ⟨rs, log, lives, ⟨written, h.logged, fun m inside => ?_⟩, fun m _ => .same _⟩
          rw [eq]
          exact (h.tracks m inside).congr rfl
        · simp only [pushBatchRecords, if_neg unseen, List.append_nil, List.map_cons,
            List.map_nil] at written
          have start : Sound tracked home
              { acc.engine with draws := (drawId env acc.engine.draws item.id).2 } rs log lives :=
            ⟨h.written.congr rfl rfl (h.written.every.congr rfl), h.logged,
              fun m inside => (h.tracks m inside).congr rfl⟩
          obtain ⟨lives', loads, tracks⟩ := Sound.pushBatchNew now { acc with
            engine := { acc.engine with draws := (drawId env acc.engine.draws item.id).2 }
            ids := acc.ids ++ [(drawId env acc.engine.draws item.id).1] } item start
            (mine _ drawn) unseen
          refine ⟨_, _, lives', ⟨written, h.logged_concat _, fun m inside => ?_⟩, loads⟩
          rw [eq]
          exact tracks m inside
      obtain ⟨rs', log', lives', sound, loads⟩ := item'
      obtain ⟨rs'', log'', lives'', sound', loads'⟩ := ih _ sound mine
        (fun item' member => fits item' (by simp [member])) few
      exact ⟨rs'', log'', lives'', sound', fun m inside => (loads m inside).trans (loads' m inside)⟩

/-- `push_batch`. -/
theorem Sound.pushBatch (h : Sound tracked home e rs log lives) (env : Env)
    {items : List PushItem}
    (mine : ∀ id ∈ (QueueEngine.pushBatchLoop env e now queue items).ids,
      id ∈ tracked → home id = queue)
    (fits : ∀ item ∈ items, item.payload.length < 2 ^ 32)
    (few : (e.pushBatch env now queue items).1.names.length ≤ 65536) :
    ∃ rs' log' lives', Sound tracked home (e.pushBatch env now queue items).1 rs' log' lives' ∧
      ∀ m ∈ tracked, (lives m).Loads (lives' m) := by
  obtain ⟨rs', log', lives', sound, loads⟩ :=
    Sound.pushBatchLoop ⟨e, [], 0, e.totalMessagesInRam⟩ h mine fits
      ((names_checkAndTriggerCompaction env (e.pushBatchUnchecked env now queue items)).length_le.trans
        few)
  have unchecked : Sound tracked home (e.pushBatchUnchecked env now queue items) rs' log' lives' :=
    ⟨sound.written.congr rfl rfl (sound.written.every.congr rfl), sound.logged,
      fun m inside => (sound.tracks m inside).congr rfl⟩
  exact ⟨_, _, lives', unchecked.checkAndTriggerCompaction env few, loads⟩

/-! ## Page-in -/

/-- The invariant of page-in, with the lives at its start. -/
def Paging (tracked : Set Ulid) (home : Ulid → String) (rs : List WalRecord) (log : Set WalRecord)
    (lives : Ulid → Life) (e : QueueEngine) : Prop :=
  ∃ lives', Sound tracked home e rs log lives' ∧ ∀ m ∈ tracked, (lives m).Loads (lives' m)

/-- One turn of the page-in loop. -/
theorem Paging.pageInStep (h : Paging tracked home rs log lives e) (env : Env) (now : Nat)
    (targetQueue : String) (fetchLimit : Nat) (flushed : Bool) :
    Paging tracked home rs log lives (pageInStep env now targetQueue fetchLimit e flushed).1 := by
  obtain ⟨mid, sound, loads⟩ := h
  obtain ⟨offset, moved, ⟨records, inside, eq⟩ | eq⟩ :=
    sound.written.pageInStep_cases env now targetQueue fetchLimit flushed
  · have moves : ∀ m ∈ tracked, Tracks { e with spillReadOffset := offset } m (home m) log 0
        (mid m) := fun m member => (sound.tracks m member).congr rfl
    have each := fun m member => (moves m member).pageInChunk (sound.tracks m member).idle
      (fun r read => sound.logged r (inside.subset read)) now targetQueue
    choose! lives' loads' tracks using each
    refine ⟨lives', ?_, fun m member => (loads m member).trans (loads' m member)⟩
    rw [eq]
    exact ⟨moved.pageInChunk inside now targetQueue, sound.logged, tracks⟩
  · refine ⟨mid, ?_, loads⟩
    rw [eq]
    exact ⟨moved, sound.logged, fun m member => (sound.tracks m member).congr rfl⟩

theorem Sound.prefetch (h : Sound tracked home e rs log lives) (env : Env) (queue : String)
    (now maxMessages : Nat) :
    Paging tracked home rs log lives (e.prefetch env queue now maxMessages) :=
  prefetch_induction (fun fetchLimit _ flushed paging =>
    paging.pageInStep env now queue fetchLimit flushed) ⟨lives, h, fun _ _ => .same _⟩ maxMessages

/-! ## Poll -/

/-- The life of an id after the expired messages are put back. -/
def Life.putBack (now : Nat) : Life → Life
  | inHand msg => pending (routed now msg)
  | life => life

/-- How a poll moves one id: its lease may expire and its message be put back,
then it may be loaded from the log, then it may be leased. -/
def Polls (env : Env) (e : QueueEngine) (now : Nat) (queue : String)
    (visibilitySec maxMessages : Nat) (m : Ulid) (life life' : Life) : Prop :=
  ∃ expired loaded,
    Tracks.Expires now m (shardIdx queue) (e.collectExpired (shardIdx queue) now).2 life expired ∧
    (expired.putBack now).Loads loaded ∧
    Tracks.Leases env queue now (e.visibility visibilitySec) m
      (e.poll env now queue visibilitySec maxMessages).2 loaded life'

/-- All the messages in the hands of a poll are put back. -/
theorem Tracks.routeExpired_foldl {m : Ulid} {home : String} {life : Life}
    {msgs : List StoredMsg} (h : Tracks e m home log msgs life) (now : Nat) :
    Tracks (msgs.foldl (QueueEngine.routeExpired now) e) m home log 0 (life.putBack now) := by
  induction msgs generalizing e life with
  | nil =>
      have h : Tracks e m home log 0 life := h
      have idle := h.idle
      cases life with
      | inHand msg => exact absurd rfl (idle msg)
      | fresh | pending | leased | dead => exact h
  | cons msg msgs ih =>
      have h : Tracks e m home log (msg ::ₘ (msgs : Multiset StoredMsg)) life := h
      have rest := ih (h.routeExpired now)
      by_cases same : msg.id = m
      · obtain rfl := h.inHand_of_mem (Multiset.mem_cons_self msg _) same
        simpa [same, Life.putBack] using rest
      · simpa [same] using rest

/-- The expired messages of a poll are all put back before it pages in. -/
theorem Sound.route (h : Sound tracked home e rs log lives) (s : Fin numShards) (now : Nat) :
    ∃ expired : Ulid → Life,
      (∀ m ∈ tracked, Tracks.Expires now m s (e.collectExpired s now).2 (lives m) (expired m)) ∧
      Sound tracked home ((e.collectExpired s now).2.foldl (QueueEngine.routeExpired now)
        (e.collectExpired s now).1) rs log (fun m => (expired m).putBack now) := by
  have each := fun m inside => (h.tracks m inside).collectExpired (h.written.keyed s) now
  choose! expired expires tracks using each
  refine ⟨expired, expires, h.written.route s now, h.logged, fun m inside => ?_⟩
  have held := tracks m inside
  rw [zero_add] at held
  exact held.routeExpired_foldl now

/-- `poll`. -/
theorem Sound.poll (h : Sound tracked home e rs log lives) (env : Env) (now : Nat) (queue : String)
    (visibilitySec maxMessages : Nat) :
    ∃ lives', Sound tracked home (e.poll env now queue visibilitySec maxMessages).1 rs log lives' ∧
      ∀ m ∈ tracked, Polls env e now queue visibilitySec maxMessages m (lives m) (lives' m) := by
  obtain ⟨expired, expires, routed⟩ := h.route (shardIdx queue) now
  obtain ⟨loaded, prefetched, loads⟩ := routed.prefetch env queue now maxMessages
  have each := fun m inside => (prefetched.tracks m inside).claimSection env queue now
    (e.visibility visibilitySec) maxMessages
  choose! lives' leases tracks using each
  have claimed := poll_eq env e now queue visibilitySec maxMessages
  refine ⟨lives', ?_, fun m inside =>
    ⟨expired m, loaded m, expires m inside, loads m inside, ?_⟩⟩
  · rw [claimed]
    exact ⟨prefetched.written.claimSection env queue now _ maxMessages, h.logged, tracks⟩
  · rw [claimed]
    exact leases m inside

/-! ## Ack -/

/-- The verdict on a receipt, for an id that is tracked. -/
theorem Sound.verdict (h : Sound tracked home e rs log lives) {receipt : String} {id : Ulid}
    (inside : id ∈ tracked) :
    (∀ done, (e.shards (shardIdx queue)).ackLease queue id receipt = some done →
      (lives id).Accepts queue receipt ∧ done.2 = true) ∧
    ((e.shards (shardIdx queue)).ackLease queue id receipt = none →
      ¬ (lives id).Accepts queue receipt) := by
  rcases (h.tracks id inside).ackLease_eq queue receipt with ⟨accepts, eq⟩ | ⟨rejects, eq⟩
  · rw [eq]
    refine ⟨?_, fun bad => (by cases bad)⟩
    rintro _ ⟨⟩
    exact ⟨accepts, rfl⟩
  · rw [eq]
    exact ⟨fun _ bad => (by cases bad), fun _ => rejects⟩

/-- One accepted item: the section, then its Ack record. -/
theorem Sound.accept (h : Sound tracked home e rs log lives) {receipt : String} {id : Ulid}
    {done : ShardState × Bool}
    (valid : (e.shards (shardIdx queue)).ackLease queue id receipt = some done)
    (shards : e'.shards = (e.setShard (shardIdx queue) done.1).shards)
    (disk : e'.disk = e.disk.append (.ack id queue))
    (cursor : e'.spillReadOffset = e.spillReadOffset) (few : e'.names.length ≤ 65536) :
    ∃ log', Sound tracked home e' (rs ++ [.ack id queue]) log'
      (Function.update lives id .dead) := by
  refine ⟨_, h.written.accept valid shards disk cursor few, h.logged_concat _, fun m inside => ?_⟩
  by_cases same : m = id
  · subst same
    rw [Function.update_self]
    have accepts := ((h.verdict inside).1 done valid).1
    rcases (h.tracks m inside).ackLease_eq queue receipt with ⟨_, eq⟩ | ⟨rejects, _⟩
    · rw [eq] at valid
      cases valid
      exact (((h.tracks m inside).acked accepts).congr shards).logAck fun _ => rfl
    · exact absurd accepts rejects
  · rw [Function.update_of_ne same]
    have other : id ≠ m := fun eq => same eq.symm
    exact (((h.tracks m inside).ackLease_of_ne valid other).congr shards).logAck
      fun eq => absurd eq other

/-- `ack` up to the compaction check succeeds, for a tracked id, exactly on the
receipt of the current lease, and then the id is dead. -/
theorem Sound.ackUnchecked (h : Sound tracked home e rs log lives) (queue : String) (id : Ulid)
    (receipt : String) :
    ((id ∈ tracked → (lives id).Accepts queue receipt) ∧
      ∃ done, e.ackUnchecked queue id receipt = some done ∧ (done.names.length ≤ 65536 →
        ∃ log', Sound tracked home done (rs ++ [.ack id queue]) log'
          (Function.update lives id .dead))) ∨
    ((id ∈ tracked → ¬ (lives id).Accepts queue receipt) ∧
      e.ackUnchecked queue id receipt = none) := by
  unfold QueueEngine.ackUnchecked
  cases valid : (e.shards (shardIdx queue)).ackLease queue id receipt with
  | some done =>
      exact Or.inl ⟨fun inside => ((h.verdict inside).1 done valid).1, _, rfl,
        fun few => h.accept valid rfl rfl rfl few⟩
  | none => exact Or.inr ⟨fun inside => (h.verdict inside).2 valid, rfl⟩

/-- The items of a batch that are accepted, and the lives they end: each item
is judged after the items before it. -/
inductive Settles (tracked : Set Ulid) (queue : String) :
    List (Ulid × String) → (Ulid → Life) → List (Ulid × String) → (Ulid → Life) → Prop
  | nil (lives : Ulid → Life) : Settles tracked queue [] lives [] lives
  | accept {id : Ulid} {receipt : String} {items accepted : List (Ulid × String)}
      {lives lives' : Ulid → Life} : (id ∈ tracked → (lives id).Accepts queue receipt) →
      Settles tracked queue items (Function.update lives id .dead) accepted lives' →
      Settles tracked queue ((id, receipt) :: items) lives ((id, receipt) :: accepted) lives'
  | reject {id : Ulid} {receipt : String} {items accepted : List (Ulid × String)}
      {lives lives' : Ulid → Life} : (id ∈ tracked → ¬ (lives id).Accepts queue receipt) →
      Settles tracked queue items lives accepted lives' →
      Settles tracked queue ((id, receipt) :: items) lives accepted lives'

/-- The loop of `ack_batch`. -/
theorem Sound.ackBatchLoop (acc : AckBatch) (h : Sound tracked home acc.engine rs log lives)
    (items : List (Ulid × String))
    (few : (items.foldl (ackBatchItem queue) acc).engine.names.length ≤ 65536) :
    ∃ accepted lives' rs' log', Settles tracked queue items lives accepted lives' ∧
      (items.foldl (ackBatchItem queue) acc).accepted = acc.accepted ++ accepted ∧
      ((∀ m, m ∈ tracked) →
        (items.foldl (ackBatchItem queue) acc).count = acc.count + accepted.length) ∧
      Sound tracked home (items.foldl (ackBatchItem queue) acc).engine rs' log' lives' := by
  induction items generalizing acc rs log lives with
  | nil => exact ⟨[], lives, rs, log, .nil lives, by simp, by simp, h⟩
  | cons item items ih =>
      rcases item with ⟨id, receipt⟩
      rw [List.foldl_cons] at few ⊢
      cases valid : (acc.engine.shards (shardIdx queue)).ackLease queue id receipt with
      | some done =>
          obtain ⟨shards, disk, cursor, list', count'⟩ := ackBatchItem_of_valid valid
          obtain ⟨log', sound⟩ := h.accept valid shards disk cursor
            ((names_ackBatchLoop queue _ items).length_le.trans few)
          obtain ⟨accepted, lives', rs'', log'', settles, list, count, sound'⟩ := ih _ sound few
          refine ⟨(id, receipt) :: accepted, lives', rs'', log'',
            .accept (fun inside => ((h.verdict inside).1 done valid).1) settles, ?_,
            fun all => ?_, sound'⟩
          · rw [list, list']
            simp
          · rw [count all, count', if_pos ((h.verdict (all id)).1 done valid).2, List.length_cons]
            omega
      | none =>
          rw [ackBatchItem_of_invalid valid] at few ⊢
          obtain ⟨accepted, lives', rs'', log'', settles, list, count, sound'⟩ := ih acc h few
          exact ⟨accepted, lives', rs'', log'',
            .reject (fun inside => (h.verdict inside).2 valid) settles, list, count, sound'⟩

/-- `ack`. -/
theorem Sound.ack (h : Sound tracked home e rs log lives) (env : Env)
    (queue messageId receipt : String)
    (few : (e.ack env queue messageId receipt).1.names.length ≤ 65536) :
    (∃ id, parseIdFast env messageId = some id ∧
      (id ∈ tracked → (lives id).Accepts queue receipt) ∧
      (e.ack env queue messageId receipt).2 = true ∧
      ∃ rs' log', Sound tracked home (e.ack env queue messageId receipt).1 rs' log'
        (Function.update lives id .dead)) ∨
    ((∀ id, parseIdFast env messageId = some id → id ∈ tracked →
        ¬ (lives id).Accepts queue receipt) ∧
      e.ack env queue messageId receipt = (e, false)) := by
  unfold QueueEngine.ack at few ⊢
  cases parsed : parseIdFast env messageId with
  | none => exact Or.inr ⟨fun id bad => (by cases bad), rfl⟩
  | some id =>
      rw [parsed, Option.bind_some] at few
      rw [Option.bind_some]
      rcases h.ackUnchecked queue id receipt with ⟨accepts, done, eq, sound⟩ | ⟨rejects, eq⟩
      · rw [eq] at few ⊢
        obtain ⟨log', sound'⟩ := sound
          ((names_checkAndTriggerCompaction env done).length_le.trans few)
        exact Or.inl ⟨id, rfl, accepts, rfl, _, _, sound'.checkAndTriggerCompaction env few⟩
      · rw [eq]
        refine Or.inr ⟨fun other same => ?_, rfl⟩
        cases same
        exact rejects

/-- `ack_batch`. -/
theorem Sound.ackBatch (h : Sound tracked home e rs log lives) (env : Env) (queue : String)
    (items : List (String × String))
    (few : (e.ackBatch env queue items).1.names.length ≤ 65536) :
    ∃ lives' rs' log', Settles tracked queue (parsedItems env items) lives
        (QueueEngine.ackBatchLoop env e queue items).accepted lives' ∧
      ((∀ m, m ∈ tracked) → (e.ackBatch env queue items).2 =
        (QueueEngine.ackBatchLoop env e queue items).accepted.length) ∧
      Sound tracked home (e.ackBatch env queue items).1 rs' log' lives' := by
  obtain ⟨disk, cursor, shards⟩ := disk_ackBatchUnchecked env e queue items
  have loopFew : (QueueEngine.ackBatchLoop env e queue items).engine.names.length ≤ 65536 := by
    have := (names_checkAndTriggerCompaction env (e.ackBatchUnchecked env queue items)).length_le
    rw [names, disk] at this
    exact this.trans few
  obtain ⟨accepted, lives', rs', log', settles, list, count, sound⟩ :=
    Sound.ackBatchLoop ⟨e, 0, []⟩ h (parsedItems env items) loopFew
  have unchecked : Sound tracked home (e.ackBatchUnchecked env queue items) rs' log' lives' :=
    ⟨sound.written.congr disk cursor (sound.written.every.congr shards), sound.logged,
      fun m inside => (sound.tracks m inside).congr shards⟩
  have list : (QueueEngine.ackBatchLoop env e queue items).accepted = accepted := list
  refine ⟨lives', _, _, ?_, fun all => ?_, unchecked.checkAndTriggerCompaction env few⟩
  · rw [list]
    exact settles
  · rw [list]
    exact (count all).trans (Nat.zero_add _)

end WalrQueue
