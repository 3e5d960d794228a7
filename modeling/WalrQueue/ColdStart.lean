import WalrQueue.ShardSteps
import WalrQueue.SnapshotInstall

/-!
# A server start

The node with the smallest id opens its directory and takes over with an empty log: it
forgets what `open` has put in RAM, the acked ids included, and the polls page the
write-ahead log in again from its start.  An acked message stays away as long as every chunk
that has its Push has its Ack too, for the same shard, or comes after a chunk that has it.
While no poll asks for more than 500 messages the chunks are the same whatever the calls are,
so whether they are closed can be read off the log.
-/

namespace WalrQueue

open QueueEngine

/-! ## Closed chunks -/

/-- The records have an Ack of the id. -/
def AckedIn (log : List WalRecord) (m : Ulid) : Prop := ∃ r ∈ log, r.isPush = false ∧ r.msgId = m

instance (log : List WalRecord) (m : Ulid) : Decidable (AckedIn log m) :=
  inferInstanceAs (Decidable (∃ r ∈ log, r.isPush = false ∧ r.msgId = m))

/-- The shard of every Push of an id acked in `log` has the id as acked, or the records have an
Ack of the id for the shard. -/
def ClosedFor (log : List WalRecord) (acked : Fin numShards → Finset Ulid)
    (records : List WalRecord) : Prop :=
  ∀ r ∈ records, r.isPush = true → AckedIn log r.msgId →
    r.msgId ∈ acked (shardIdx r.queueName) ∨
      ∃ r' ∈ records, r'.isPush = false ∧ r'.msgId = r.msgId ∧
        shardIdx r'.queueName = shardIdx r.queueName

instance (log : List WalRecord) (acked : Fin numShards → Finset Ulid) (records : List WalRecord) :
    Decidable (ClosedFor log acked records) :=
  inferInstanceAs (Decidable (∀ r ∈ records, _))

/-- The same for the records of one shard. -/
def ClosedHere (dead : Ulid → Prop) (acked : Finset Ulid) (records : List WalRecord) : Prop :=
  ∀ r ∈ records, r.isPush = true → dead r.msgId →
    r.msgId ∈ acked ∨ ∃ r' ∈ records, r'.isPush = false ∧ r'.msgId = r.msgId

variable {log records : List WalRecord} {dead : Ulid → Prop}
  {acked acked' : Fin numShards → Finset Ulid}

theorem ClosedFor.mono (h : ClosedFor log acked records) (more : ∀ s, acked s ⊆ acked' s) :
    ClosedFor log acked' records :=
  fun r member push isDead => (h r member push isDead).imp_left fun known => more _ known

theorem ClosedFor.here (h : ClosedFor log acked records) (s : Fin numShards) :
    ClosedHere (AckedIn log) (acked s) (shardRecords records s) := by
  intro r member push isDead
  obtain ⟨member, mine⟩ := List.mem_filter.1 member
  have mine : shardIdx r.queueName = s := of_decide_eq_true mine
  rcases h r member push isDead with known | ⟨r', inside, ack, same, shard⟩
  · exact Or.inl (mine ▸ known)
  · exact Or.inr ⟨r', List.mem_filter.2 ⟨inside, decide_eq_true (shard.trans mine)⟩, ack, same⟩

/-- A dead id that is in memory, or comes into it, meets its Ack before the end. -/
theorem ShardState.loadAll_closed (opts : QueueOptions) (now : Nat) {st : ShardState}
    (closed : ClosedHere dead st.ackedIds records)
    (pending : ∀ m ∈ st.messages, dead m → ∃ r ∈ records, r.isPush = false ∧ r.msgId = m) :
    ∀ m ∈ (st.loadAll opts now records).messages, ¬ dead m := by
  induction records generalizing st with
  | nil =>
      intro m inside isDead
      obtain ⟨r, none, _⟩ := pending m inside isDead
      cases none
  | cons r rest ih =>
      cases r with
      | ack msgId queueName =>
          refine @ih (st.applyAck queueName msgId) (fun r later push isDead => ?_)
            fun m inside isDead => ?_
          · have known : r.msgId ∈ (st.applyAck queueName msgId).ackedIds ↔
                r.msgId = msgId ∨ r.msgId ∈ st.ackedIds := by
              simp [ShardState.applyAck]
            rw [known]
            rcases closed r (List.mem_cons_of_mem _ later) push isDead with
              before | ⟨r', member, ack, same⟩
            · exact .inl (.inr before)
            · rcases List.mem_cons.1 member with rfl | after
              · exact .inl (.inl same.symm)
              · exact .inr ⟨r', after, ack, same⟩
          · simp only [ShardState.applyAck, ShardState.messages_markDeleted, AList.mem_erase]
              at inside
            obtain ⟨r, member, ack, same⟩ := pending m inside.2 isDead
            rcases List.mem_cons.1 member with rfl | after
            · exact absurd same.symm inside.1
            · exact ⟨r, after, ack, same⟩
      | push msgId queueName visibleAt payload =>
          -- the first record is no Ack, so every Ack of the records is among the others
          have later : ∀ m, (∃ r ∈ WalRecord.push msgId queueName visibleAt payload :: rest,
              r.isPush = false ∧ r.msgId = m) → ∃ r ∈ rest, r.isPush = false ∧ r.msgId = m := by
            rintro m ⟨r, member, ack, same⟩
            rcases List.mem_cons.1 member with rfl | after
            · cases ack
            · exact ⟨r, after, ack, same⟩
          have closed' : ClosedHere dead st.ackedIds rest := fun r member push isDead =>
            (closed r (List.mem_cons_of_mem _ member) push isDead).imp_right (later _)
          have others : ∀ m ∈ st.messages, dead m → ∃ r ∈ rest, r.isPush = false ∧ r.msgId = m :=
            fun m inside isDead => later m (pending m inside isDead)
          have step : st.loadAll opts now (.push msgId queueName visibleAt payload :: rest) =
            (st.load opts now (.push msgId queueName visibleAt payload)).loadAll opts now rest := rfl
          rw [step, ShardState.load]
          split
          · rename_i enters
            refine ih closed' fun m inside isDead => ?_
            rcases (ShardState.mem_store now).1 inside with same | before
            · subst same
              exact later _ ((closed _ List.mem_cons_self rfl isDead).resolve_left enters.2.2)
            · exact others m before isDead
          · exact ih closed' others

/-! ## Polls -/

/-- A call of `poll`. -/
structure PollRequest where
  now : Nat
  queue : String
  visibilitySec : Nat
  maxMessages : Nat
  deriving DecidableEq

/-- The engine and the messages of a call. -/
def PollRequest.run (env : Env) (e : QueueEngine) (c : PollRequest) : QueueEngine × List PolledMessage :=
  e.poll env c.now c.queue c.visibilitySec c.maxMessages

/-- Every chunk that the poll pages in is closed. -/
def PollRequest.Closed (env : Env) (log : List WalRecord) (e : QueueEngine) (c : PollRequest) : Prop :=
  ∀ chunk ∈ e.pollChunks env c.now c.queue c.maxMessages,
    ClosedFor log (fun s => (chunk.1.shards s).ackedIds) chunk.2

instance (env : Env) (log : List WalRecord) (e : QueueEngine) (c : PollRequest) :
    Decidable (c.Closed env log e) :=
  inferInstanceAs (Decidable (∀ chunk ∈ _, _))

/-- A message filed under its id, which has no Ack in the records. -/
def Unacked (log : List WalRecord) (id : Ulid) (msg : StoredMsg) : Prop :=
  msg.id = id ∧ ¬ AckedIn log id

/-- A chunk that is closed leaves no acked id in memory. -/
theorem every_pageInChunk {e : QueueEngine} {now : Nat} (targetQueue : String)
    (closed : ClosedFor log (fun s => (e.shards s).ackedIds) records)
    (alive : e.Every (Unacked log)) :
    (pageInChunk now targetQueue e records).engine.Every (Unacked log) := by
  have filed : (pageInChunk now targetQueue e records).engine.Every fun id msg => msg.id = id := by
    refine Every.pageInChunk (fun s id msg found => (alive s id msg found).1) ?_ targetQueue
    exact fun _ _ _ _ _ => rfl
  intro s id msg found
  refine ⟨filed s id msg found, ?_⟩
  rw [shards_pageInChunk] at found
  refine ShardState.loadAll_closed e.options now (closed.here s) ?_ id (FMap.mem_of_lookup found)
  intro m inside isDead
  obtain ⟨msg', here⟩ := (FMap.mem_iff_lookup _ _).1 inside
  exact absurd isDead (alive s m msg' here).2

/-- Once the chunks are in without an acked id, the poll keeps it so and returns none. -/
theorem PollRequest.run_alive {env : Env} {e : QueueEngine} {c : PollRequest}
    (loaded : (e.polling env c.now c.queue c.maxMessages).Every (Unacked log)) :
    (c.run env e).1.Every (Unacked log) ∧ ∀ p ∈ (c.run env e).2, ¬ AckedIn log p.id := by
  have delivered : ∀ id msg, Unacked log id msg → Unacked log id (ShardState.delivered msg) :=
    fun _ _ alive => alive
  unfold PollRequest.run
  rw [poll_eq]
  generalize e.polling env c.now c.queue c.maxMessages = mid at loaded
  refine ⟨loaded.claimSection delivered env c.queue c.now _ c.maxMessages, fun p returned => ?_⟩
  unfold claimSection at returned
  dsimp only at returned
  split at returned
  · obtain ⟨msg, isAlive, _⟩ := (loaded (shardIdx c.queue)).polled delivered env mid.draws c.queue _
      c.now _ c.maxMessages p returned
    exact isAlive.2
  · cases returned

theorem every_routed {e : QueueEngine} (alive : e.Every (Unacked log)) (s : Fin numShards)
    (now : Nat) : (e.routed s now).Every (Unacked log) := by
  refine alive.route s ?_
  rintro id msg ⟨same, isAlive⟩ msg' sameId _ _
  exact ⟨rfl, by rw [sameId, same]; exact isAlive⟩

/-- A poll whose chunks are closed keeps the acked ids out of memory and returns none. -/
theorem PollRequest.run_closed {env : Env} {e : QueueEngine} {c : PollRequest}
    (closed : c.Closed env log e) (alive : e.Every (Unacked log)) :
    (c.run env e).1.Every (Unacked log) ∧ ∀ p ∈ (c.run env e).2, ¬ AckedIn log p.id :=
  PollRequest.run_alive (prefetch_chunks (P := fun e => e.Every (Unacked log))
    (fun _ _ h => h.congr rfl)
    (fun chunk member h => every_pageInChunk c.queue (closed chunk member) h)
    (every_routed alive (shardIdx c.queue) c.now))

/-! ## The pages of a log -/

/-- The ids the records have an Ack of, for the shard. -/
def acksFor (records : List WalRecord) (s : Fin numShards) : Finset Ulid :=
  ((records.filter fun r => r.isPush = false ∧ shardIdx r.queueName = s).map
    WalRecord.msgId).toFinset

/-- The records of paging read `k` of the active segment. -/
def DiskLog.page (env : Env) (d : DiskLog) (limit k : Nat) : List WalRecord :=
  (d.readEntriesFromOffset env (d.pagesEnd env limit k 0) limit).1

/-- The ids acked for a shard when page-in comes to read `k`: it passes over a read without a
Push and does not apply its Acks. -/
def DiskLog.pageAcks (env : Env) (d : DiskLog) (limit : Nat) : Nat → Fin numShards → Finset Ulid
  | 0, _ => ∅
  | k + 1, s => d.pageAcks env limit k s ∪
      if (d.page env limit k).any WalRecord.isPush then acksFor (d.page env limit k) s else ∅

/-- Every read of the segment is closed by the Acks it has and those of the reads before it. -/
def DiskLog.PagesClosed (env : Env) (d : DiskLog) (log : List WalRecord) (limit : Nat) : Prop :=
  ∀ k, ClosedFor log (d.pageAcks env limit k) (d.page env limit k)

/-- A log that one read takes in. -/
theorem DiskLog.PagesClosed.of_one_page {env : Env} {d : DiskLog} {limit : Nat}
    (whole : d.pagesEnd env limit 1 0 = d.active.length)
    (closed : ClosedFor log (fun _ => ∅) (d.page env limit 0)) : d.PagesClosed env log limit := by
  have past : ∀ k, d.readEntriesFromOffset env d.active.length k = ([], d.active.length) :=
    fun k => if_pos (Nat.le_refl _)
  have rest : ∀ k, d.pagesEnd env limit (k + 1) 0 = d.active.length := by
    intro k
    induction k with
    | zero => exact whole
    | succ k ih => rw [DiskLog.pagesEnd_succ, ih, past]
  intro k
  cases k with
  | zero => exact closed
  | succ k =>
      rw [DiskLog.page, rest, past]
      exact fun r none => by cases none

theorem mem_acksFor {s : Fin numShards} {m : Ulid} : m ∈ acksFor records s ↔
    ∃ r ∈ shardRecords records s, r.isPush = false ∧ r.msgId = m := by
  simp [acksFor, shardRecords, and_assoc, and_left_comm]

theorem ShardState.acked_loadAll {st : ShardState} (opts : QueueOptions) (now : Nat) {m : Ulid}
    (acked : m ∈ st.ackedIds ∨ ∃ r ∈ records, r.isPush = false ∧ r.msgId = m) :
    m ∈ (st.loadAll opts now records).ackedIds := by
  induction records generalizing st with
  | nil =>
      rcases acked with known | ⟨r, none, _⟩
      · exact known
      · cases none
  | cons r rest ih =>
      refine @ih (st.load opts now r) ?_
      cases r with
      | ack msgId queueName =>
          rcases acked with known | ⟨r, member, ack, same⟩
          · exact .inl (by simp [ShardState.load, ShardState.applyAck, known])
          · rcases List.mem_cons.1 member with rfl | later
            · exact .inl (by simp [ShardState.load, ShardState.applyAck, ← same, WalRecord.msgId])
            · exact .inr ⟨r, later, ack, same⟩
      | push msgId queueName visibleAt payload =>
          refine acked.imp (fun known => ?_) ?_
          · unfold ShardState.load
            dsimp only
            split
            · exact known
            · exact known
          · rintro ⟨r, member, ack, same⟩
            rcases List.mem_cons.1 member with rfl | later
            · cases ack
            · exact ⟨r, later, ack, same⟩

/-- The engine stands at a page of the log and has the Acks of the pages before it, and no
acked id is in memory. -/
structure AtPage (env : Env) (d : DiskLog) (log : List WalRecord) (limit : Nat) (e : QueueEngine) :
    Prop where
  disk : e.disk = d
  alive : e.Every (Unacked log)
  page : ∃ k, e.spillReadOffset = d.pagesEnd env limit k 0 ∧
    ∀ s, d.pageAcks env limit k s ⊆ (e.shards s).ackedIds

namespace AtPage

variable {env : Env} {d : DiskLog} {limit : Nat} {e e' : QueueEngine}

theorem congr (h : AtPage env d log limit e) (disk : e'.disk = e.disk)
    (cursor : e'.spillReadOffset = e.spillReadOffset) (alive : e'.Every (Unacked log))
    (acked : ∀ s, (e.shards s).ackedIds ⊆ (e'.shards s).ackedIds) : AtPage env d log limit e' := by
  obtain ⟨k, stands, before⟩ := h.page
  exact ⟨disk.trans h.disk, alive, k, cursor.trans stands, fun s => (before s).trans (acked s)⟩

/-- One turn of the page-in loop goes to the next page, or back to the first. -/
theorem pageInStep (h : AtPage env d log limit e) (closed : d.PagesClosed env log limit) (now : Nat)
    (queue : String) (flushed : Bool) :
    AtPage env d log limit (QueueEngine.pageInStep env now queue limit e flushed).1 := by
  obtain ⟨k, stands, before⟩ := h.page
  have read : e.disk.readEntriesFromOffset env e.spillReadOffset limit =
      (d.page env limit k, d.pagesEnd env limit (k + 1) 0) := by
    rw [h.disk, stands, DiskLog.pagesEnd_succ]
    rfl
  unfold QueueEngine.pageInStep
  dsimp only
  rw [read]
  dsimp only
  split
  · split
    · rename_i hasPush
      have moved : Every (Unacked log) { e with spillReadOffset := d.pagesEnd env limit (k + 1) 0 } :=
        h.alive.congr rfl
      obtain ⟨disk, cursor, _⟩ := disk_pageInChunk now queue
        { e with spillReadOffset := d.pagesEnd env limit (k + 1) 0 } (d.page env limit k)
      have taken : AtPage env d log limit (pageInChunk now queue
          { e with spillReadOffset := d.pagesEnd env limit (k + 1) 0 } (d.page env limit k)).engine := by
        refine ⟨disk.trans h.disk, every_pageInChunk queue ((closed k).mono before) moved, k + 1,
          cursor, fun s m acked => ?_⟩
        rw [DiskLog.pageAcks, if_pos hasPush, Finset.mem_union] at acked
        rw [shards_pageInChunk]
        exact ShardState.acked_loadAll _ now (acked.imp (fun old => before s old) mem_acksFor.1)
      split
      · exact taken
      · exact taken
    · rename_i acksOnly
      refine ⟨h.disk, h.alive.congr rfl, k + 1, rfl, fun s => ?_⟩
      rw [DiskLog.pageAcks, if_neg acksOnly, Finset.union_empty]
      exact before s
  · split
    · split
      · exact ⟨h.disk, h.alive.congr rfl, 0, rfl, fun s => Finset.empty_subset _⟩
      · exact h
    · exact h

/-- A poll for at most 500 messages reads page by page. -/
theorem poll (h : AtPage env d log 1000 e) (closed : d.PagesClosed env log 1000)
    {c : PollRequest} (few : c.maxMessages ≤ 500) :
    AtPage env d log 1000 (c.run env e).1 ∧ ∀ p ∈ (c.run env e).2, ¬ AckedIn log p.id := by
  obtain ⟨disk, cursor, _⟩ := disk_routeExpired_foldl c.now
    (e.collectExpired (shardIdx c.queue) c.now).1 (e.collectExpired (shardIdx c.queue) c.now).2
  have routed : AtPage env d log 1000 (e.routed (shardIdx c.queue) c.now) :=
    h.congr disk cursor (every_routed h.alive _ _) (ShardsStep.acked (.routed env e _ c.now))
  have limit : max (prefetchThreshold c.maxMessages) 1000 = 1000 := by
    unfold prefetchThreshold
    omega
  have loaded : AtPage env d log 1000 (e.polling env c.now c.queue c.maxMessages) := by
    unfold polling prefetch
    dsimp only
    split
    · unfold pageInColdSpill
      rw [limit]
      exact pageInLoop_induction (fun e flushed h => h.pageInStep closed c.now c.queue flushed)
        routed _ _
    · exact routed
  obtain ⟨alive, returned⟩ := PollRequest.run_alive loaded.alive
  refine ⟨loaded.congr ?_ ?_ alive ?_, returned⟩ <;> unfold PollRequest.run <;> rw [poll_eq]
  · exact (disk_claimSection _ _ _ _ _ _).1
  · exact (disk_claimSection _ _ _ _ _ _).2
  · exact ShardsStep.acked (.claimSection env _ c.queue c.now _ c.maxMessages)

end AtPage

/-! ## A server start -/

/-- The engine of a node that opens the directory and takes over with an empty log. -/
def coldStart (env : Env) (dir : DataDir) (opts : QueueOptions) (clock draws : Nat)
    (nodeId : String) (peers : List String) : QueueEngine :=
  ((RaftNode.new nodeId peers (openDir env dir opts clock draws)).recoverAsNewLeader env clock).engine

theorem coldStart_eq (env : Env) (dir : DataDir) (opts : QueueOptions) (clock draws : Nat)
    (nodeId : String) (peers : List String) :
    coldStart env dir opts clock draws nodeId peers =
      (openDir env dir opts clock draws).clearForRaftRecovery := rfl

/-- After a server start on any directory, polls return no message that has an Ack record in the
directory when every chunk they take in is closed, or when none asks for more than 500 messages
and every page of the log is closed. -/
theorem acked_stay_dead (env : Env) (dir : DataDir) (opts : QueueOptions) (clock draws : Nat)
    (nodeId : String) (peers : List String) (calls : List PollRequest) (last : PollRequest) :
    let start := coldStart env dir opts clock draws nodeId peers
    Trace.Along (fun e c => (PollRequest.run env e c).1)
          (fun e c => c.Closed env (start.disk.records env) e) start (calls ++ [last]) ∨
        (∀ c ∈ calls ++ [last], c.maxMessages ≤ 500) ∧
          start.disk.PagesClosed env (start.disk.records env) 1000 →
      ∀ p ∈ (last.run env (calls.foldl (fun e c => (PollRequest.run env e c).1) start)).2,
        ¬ AckedIn (start.disk.records env) p.id := by
  intro start closed
  have empty : start.Every (Unacked (start.disk.records env)) := by
    intro s id msg found
    simp only [start, coldStart_eq] at found
    cases found
  rcases closed with closed | ⟨few, closed⟩
  · obtain ⟨before, here⟩ := Trace.along_append.1 closed
    have reached := before.invariant empty fun e c alive closed =>
      (PollRequest.run_closed closed alive).1
    exact (PollRequest.run_closed here.1 reached).2
  · have first : AtPage env start.disk (start.disk.records env) 1000 start :=
      ⟨rfl, empty, 0, rfl, fun s => Finset.empty_subset _⟩
    have reached := List.foldlRecOn (motive := AtPage env start.disk (start.disk.records env) 1000)
      calls (fun e c => (PollRequest.run env e c).1) first fun e h c member =>
        (h.poll closed (few c (List.mem_append_left _ member))).1
    exact (reached.poll closed (few last (by simp))).2

/-- A message that is delivered once, expires into the dead-letter queue and is acked there. -/
def deadLetterOps : List Op :=
  [.push "jobs" 7 [1] 0, .poll "jobs" 1 1, .advance 2, .poll "jobs" 1 1, .poll "jobs.dlq" 30 1,
    .ack "jobs.dlq" (ulidText 7) (ulidText (Env.sample.ulidNew 4))]

/-- One delivery before the dead-letter queue. -/
def onceOptions : QueueOptions where
  defaultVisibilityTimeoutSec := 300
  maxDeliveryCount := 1
  maxHotMessagesInRam := 1000000
  maxWalSegmentSize := 64 * 1024 * 1024
  ramCap_lt := QueueOptions.default.ramCap_lt

/-- Its Ack is for another shard than its Push, and a poll after a start returns it. -/
theorem acked_comes_back :
    let w := (World.fresh .sample onceOptions 1600000000).run .sample deadLetterOps
    let start := coldStart .sample w.engine.disk.dir onceOptions w.clock 10 "n1" []
    AckedIn (start.disk.records .sample) 7 ∧
      (PollRequest.run .sample start ⟨w.clock, "jobs", 30, 10⟩).2.map (·.id) = [7] := by
  decide +kernel

/-- Three messages, one of them acked. -/
def ackedOps : List Op :=
  [.push "a" 1 [1] 0, .push "a" 2 [2] 0, .poll "a" 30 1,
    .ack "a" (ulidText 1) (ulidText (Env.sample.ulidNew 1)), .push "b" 3 [3] 0]

theorem acked_stay_dead_sample :
    let w := (World.fresh .sample onceOptions 1600000000).run .sample ackedOps
    let start := coldStart .sample w.engine.disk.dir onceOptions w.clock 10 "n1" []
    let calls : List PollRequest := [⟨w.clock, "b", 30, 10⟩]
    let last : PollRequest := ⟨w.clock, "a", 30, 10⟩
    let polled := (last.run .sample (calls.foldl (fun e c => (PollRequest.run .sample e c).1) start)).2
    AckedIn (start.disk.records .sample) 1 ∧ polled.map (·.id) = [2] ∧
      ∀ p ∈ polled, ¬ AckedIn (start.disk.records .sample) p.id :=
  ⟨by decide +kernel, by decide +kernel, acked_stay_dead .sample
    ((World.fresh .sample onceOptions 1600000000).run .sample ackedOps).engine.disk.dir onceOptions
    1600000000 10 "n1" [] [⟨1600000000, "b", 30, 10⟩] ⟨1600000000, "a", 30, 10⟩
    (.inr ⟨by decide, .of_one_page (by decide +kernel) (by decide +kernel)⟩)⟩

end WalrQueue
