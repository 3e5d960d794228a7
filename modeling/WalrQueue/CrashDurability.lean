import WalrQueue.InMemory
import WalrQueue.ReplayExact
import WalrQueue.Threads
import WalrQueue.WriterFiles

/-!
# A crash under load

Whatever the calls and the writer thread do to each other, the records sent to the writer are
orderly: an ack is accepted only for a lease, a lease is of a message, and a message comes from
a record that was sent before.  The records of every call that has returned are in the segment.
What `open` recovers after a crash is then the unacked messages of a prefix of the records
sent, and none of those calls is forgotten.
-/

namespace WalrQueue

open QueueEngine

/-! ## Ids that were pushed -/

namespace ShardState

/-- Every id that the shard stores, has seen or leases is in `K`. -/
structure Known (K : Set Ulid) (st : ShardState) : Prop where
  every : st.Every fun id msg => msg.id = id ∧ id ∈ K
  seen : ∀ id ∈ st.seenIds, id ∈ K
  leased : ∀ id ∈ st.wheel.indexById, id ∈ K

variable {K L : Set Ulid} {st : ShardState} {id : Ulid} {queue : String}

theorem Known.new : ShardState.new.Known K where
  every _ _ found := by cases found
  seen _ seen := absurd seen (Finset.notMem_empty _)
  leased _ leased := absurd leased (AList.notMem_empty _)

theorem Known.mono (h : st.Known K) (le : K ⊆ L) : st.Known L where
  every id msg found := ⟨(h.every id msg found).1, le (h.every id msg found).2⟩
  seen id seen := le (h.seen id seen)
  leased id leased := le (h.leased id leased)

theorem Known.mem (h : st.Known K) (inside : id ∈ st.messages) : id ∈ K := by
  obtain ⟨msg, found⟩ := (FMap.mem_iff_lookup _ _).1 inside
  exact (h.every id msg found).2

theorem Known.see (h : st.Known K) (known : id ∈ K) :
    ({ st with seenIds := insert id st.seenIds } : ShardState).Known K where
  every := h.every
  seen id' seen := (Finset.mem_insert.1 seen).elim (fun same => same ▸ known) (h.seen id')
  leased := h.leased

theorem Known.store (h : st.Known K) (msg : StoredMsg) (known : msg.id ∈ K) (now : Nat) :
    (st.store now msg).Known K where
  every := h.every.store now ⟨rfl, known⟩
  seen := h.seen
  leased := h.leased

theorem Known.applyAck (h : st.Known K) (queue : String) (id : Ulid) :
    (st.applyAck queue id).Known K where
  every := h.every.applyAck queue id
  seen := by
    rw [ShardState.applyAck, seenIds_markDeleted]
    exact h.seen
  leased := by
    rw [ShardState.applyAck, wheel_markDeleted]
    exact h.leased

theorem Known.ackLease (h : st.Known K) {receipt : String} {done : ShardState × Bool}
    (valid : st.ackLease queue id receipt = some done) : done.1.Known K ∧ id ∈ K := by
  obtain ⟨here, fewer⟩ := ackLease_leases valid
  refine ⟨⟨h.every.ackLease valid, ?_, fun id' leased => h.leased id' (fewer id' leased)⟩,
    h.leased id here⟩
  rw [ackLease_seenIds valid]
  exact h.seen

theorem Known.collectExpired (h : st.Known K) (now : Nat) :
    (st.collectExpired now).1.Known K ∧ ∀ msg ∈ (st.collectExpired now).2, msg.id ∈ K := by
  obtain ⟨every, taken⟩ := h.every.collectExpired now
  refine ⟨⟨every, h.seen, fun id leased => ?_⟩, fun msg inside => ?_⟩
  · obtain ⟨entry, found⟩ := (FMap.mem_iff_lookup _ _).1 leased
    exact h.leased id (FMap.mem_of_lookup (TimerWheel.lookup_collectExpired found))
  · obtain ⟨id, same, known⟩ := taken msg inside
    rw [same]
    exact known

theorem Known.retire (h : st.Known K) (queue : String) (id : Ulid) :
    ({ st with ackedIds := insert id st.ackedIds }.markDeleted queue id).Known K where
  every id' msg found := by
    rw [messages_markDeleted] at found
    exact h.every id' msg found
  seen := by
    rw [seenIds_markDeleted]
    exact h.seen
  leased := by
    rw [wheel_markDeleted]
    exact h.leased

theorem Known.claim (h : st.Known K) (env : Env) (draws : Nat) (queue : String) (q : SingleQueue)
    (now timeout maxMessages : Nat) :
    (st.claim env draws queue q now timeout maxMessages).1.Known K where
  every := h.every.claim (fun _ _ known => known) env draws queue q now timeout maxMessages
  seen := h.seen
  leased id leased := by
    rcases (kept_claim env st draws queue q now timeout maxMessages).leases id leased with
      before | stored
    · exact h.leased id before
    · exact h.mem stored

theorem Known.load (h : st.Known K) {r : WalRecord} (known : r.isPush = true → r.msgId ∈ K)
    (opts : QueueOptions) (now : Nat) : (st.load opts now r).Known K := by
  cases r with
  | ack msgId queueName => exact h.applyAck queueName msgId
  | push msgId queueName visibleAt payload =>
      unfold ShardState.load
      dsimp only
      split
      · exact (h.see (known rfl)).store _ (known rfl) now
      · exact h

end ShardState

namespace QueueEngine

/-- Every id in the shards is in `K`. -/
def Known (K : Set Ulid) (e : QueueEngine) : Prop := ∀ s, (e.shards s).Known K

variable {K : Set Ulid} {e e' : QueueEngine} {s : Fin numShards} {st : ShardState}
  {msg : StoredMsg} {now : Nat}

theorem Known.setShard (h : e.Known K) (here : st.Known K) : (e.setShard s st).Known K :=
  (Function.forall_update_iff e.shards fun _ st => st.Known K).2 ⟨here, fun t _ => h t⟩

theorem Known.pushSection (h : e.Known K) {id : Ulid} (known : id ∈ K) (now : Nat) (queue : String)
    (payload : List UInt8) (visibleAt : Nat) :
    (e.pushSection now queue id payload visibleAt).Known K := by
  have seen := (h (shardIdx queue)).see known
  unfold QueueEngine.pushSection
  dsimp only
  split
  · exact h.setShard (seen.store (e.newMsg queue id payload visibleAt) known now)
  · exact h.setShard seen

theorem Known.deadLetter (h : e.Known K) (known : msg.id ∈ K) (now : Nat) :
    (e.deadLetter now msg).Known K :=
  h.setShard (((h _).see known).store { msg with queue := dlqName msg.queue, visibleAt := now }
    known now)

theorem Known.requeue (h : e.Known K) (known : msg.id ∈ K) (now : Nat) :
    (e.requeue now msg).Known K :=
  h.setShard ((h _).store { msg with visibleAt := now } known now)

theorem Known.pageInShard {acc : PageInChunk} (h : acc.engine.Known K) {records : List WalRecord}
    (known : ∀ r ∈ records, r.isPush = true → r.msgId ∈ K) (now : Nat) (targetQueue : String)
    (s : Fin numShards) : (pageInShard now targetQueue records acc s).engine.Known K := by
  refine h.setShard ?_
  rw [state_pageInRecords]
  exact List.foldlRecOn (motive := ShardState.Known K) _ _ (h s) fun st before r inside =>
    before.load (known r (List.mem_of_mem_filter inside)) acc.engine.options now

theorem Known.claimSection (h : e.Known K) (env : Env) (queue : String)
    (now timeout maxMessages : Nat) :
    (e.claimSection env queue now timeout maxMessages).1.Known K := by
  unfold QueueEngine.claimSection
  dsimp only
  split
  · exact h.setShard ((h _).claim env _ _ _ _ _ _)
  · exact h

end QueueEngine

/-! ## The sections of a poll -/

/-- Every message that the poll carries, and every Push it has read, is of an id in `K`. -/
def PollStage.Known (K : Set Ulid) : PollStage → Prop
  | .routing taken => ∀ msg ∈ taken, msg.id ∈ K
  | .retired msg taken => msg.id ∈ K ∧ ∀ msg ∈ taken, msg.id ∈ K
  | .paging records _ _ _ _ => ∀ r ∈ records, r.isPush = true → r.msgId ∈ K
  | .entered | .reading _ | .claiming | .returned _ => True

theorem PollStage.Known.mono {K L : Set Ulid} {stage : PollStage} (h : stage.Known K)
    (le : K ⊆ L) : stage.Known L := by
  cases stage with
  | routing taken => exact fun msg inside => le (h msg inside)
  | retired msg taken => exact ⟨le h.1, fun msg inside => le (h.2 msg inside)⟩
  | paging records left added targetAdded flushed =>
      exact fun r inside isPush => le (h r inside isPush)
  | entered | reading | claiming | returned => trivial

/-- What a read of the log at the cursor returns: Pushes of ids in `K`, and an offset at which
a read may start again. -/
def QueueEngine.ReadsKnown (env : Env) (K : Set Ulid) (boundary : Nat → Prop) (e : QueueEngine) :
    Prop :=
  ∀ fetchLimit, let read := e.disk.readEntriesFromOffset env e.spillReadOffset fetchLimit
    (∀ r ∈ read.1, r.isPush = true → r.msgId ∈ K) ∧ boundary read.2

/-- What one section of a poll keeps. -/
structure PollKeeps (K : Set Ulid) (boundary : Nat → Prop) (next : QueueEngine × PollStage) :
    Prop where
  engine : next.1.Known K
  stage : next.2.Known K
  cursor : boundary next.1.spillReadOffset

namespace PollCall

variable {env : Env} {e : QueueEngine} {c : PollCall} {K : Set Ulid} {boundary : Nat → Prop}

theorem claim_keeps (h : e.Known K) (cursor : boundary e.spillReadOffset) :
    PollKeeps K boundary (c.claim env e) := by
  refine ⟨h.claimSection env _ _ _ _, trivial, ?_⟩
  have same : (c.claim env e).1.spillReadOffset = e.spillReadOffset := by
    unfold PollCall.claim QueueEngine.claimSection
    dsimp only
    split <;> rfl
  rw [same]
  exact cursor

/-- Every section of a poll keeps to known ids. -/
theorem resume_keeps (h : e.Known K) (stage : c.stage.Known K)
    (reads : e.ReadsKnown env K boundary) (cursor : boundary e.spillReadOffset)
    (zero : boundary 0) : PollKeeps K boundary (c.resume env e) := by
  unfold PollCall.resume
  cases is : c.stage with
  | entered =>
      obtain ⟨rest, taken⟩ := (h (shardIdx c.queue)).collectExpired c.now
      exact ⟨h.setShard rest, taken, cursor⟩
  | routing taken =>
      rw [is] at stage
      cases taken with
      | nil =>
          dsimp only
          split
          · exact ⟨h, trivial, cursor⟩
          · exact claim_keeps h cursor
      | cons msg taken =>
          have here : msg.id ∈ K := stage msg List.mem_cons_self
          have later : ∀ msg' ∈ taken, msg'.id ∈ K := fun msg' inside => stage msg' (.tail _ inside)
          dsimp only
          split
          · exact ⟨h.setShard ((h _).retire msg.queue msg.id), ⟨here, later⟩, cursor⟩
          · exact ⟨h.requeue here c.now, later, cursor⟩
  | retired msg taken =>
      rw [is] at stage
      exact ⟨h.deadLetter stage.1 c.now, stage.2, cursor⟩
  | reading flushed =>
      obtain ⟨known, next⟩ := reads c.fetchLimit
      dsimp only
      split
      · split
        · exact ⟨h, known, next⟩
        · exact ⟨h, trivial, next⟩
      · split
        · split
          · exact ⟨h, trivial, zero⟩
          · exact ⟨h, trivial, cursor⟩
        · exact ⟨h, trivial, cursor⟩
  | paging records left added targetAdded flushed =>
      rw [is] at stage
      cases left with
      | nil =>
          dsimp only
          split
          · exact ⟨h, trivial, cursor⟩
          · exact ⟨h, trivial, cursor⟩
      | cons s left =>
          have paged : (QueueEngine.pageInShard c.now c.queue records ⟨e, added, targetAdded⟩
              s).engine.Known K := Known.pageInShard h stage c.now c.queue s
          exact ⟨paged, stage, cursor⟩
  | claiming => exact claim_keeps h cursor
  | returned polled => exact ⟨h, trivial, cursor⟩

end PollCall

/-! ## How far a call has come -/

/-- The ids of the Pushes. -/
def pushedIn (rs : List WalRecord) : Set Ulid := { id | id ∈ pushIds rs }

theorem pushedIn_mono {rs rs' : List WalRecord} (sub : rs ⊆ rs') : pushedIn rs ⊆ pushedIn rs' := by
  intro id inside
  obtain ⟨r, member, rfl⟩ := List.mem_map.1 inside
  obtain ⟨member, isPush⟩ := List.mem_filter.1 member
  exact List.mem_map.2 ⟨r, List.mem_filter.2 ⟨sub member, isPush⟩, rfl⟩

/-- What the records that a call has sent are to it: not yet there, sent, to be written when
the waiter of this number is told, or written. -/
inductive Progress where
  | before
  | sent
  | waiting (ticket : Nat)
  | told

namespace GroupCommit

/-- The records of the commands up to a ticket. -/
def recordsUpTo (s : GroupCommit) (ticket : Nat) : List WalRecord :=
  WalCommand.records (s.sent.take (ticket + 1))

/-- What is demanded of the log holds of the records that the progress is about. -/
def Reached (s : GroupCommit) (demand : List WalRecord → Prop) : Progress → Prop
  | .before => True
  | .sent => demand (WalCommand.records s.sent)
  | .waiting ticket => demand (s.recordsUpTo ticket)
  | .told => ∃ ticket ∈ s.notified, demand (s.recordsUpTo ticket)

theorem Extends.records {s s' : GroupCommit} (h : s.Extends s') :
    WalCommand.records s.sent ⊆ WalCommand.records s'.sent :=
  (h.sent.filterMap _).subset

theorem Extends.recordsUpTo {s s' : GroupCommit} (h : s.Extends s') (ticket : Nat) :
    s.recordsUpTo ticket ⊆ s'.recordsUpTo ticket := by
  have part : s.sent.take (ticket + 1) <+: s'.sent.take (ticket + 1) := h.sent.take _
  exact (part.filterMap _).subset

theorem Reached.extends {s s' : GroupCommit} {demand : List WalRecord → Prop} {p : Progress}
    (h : s.Reached demand p) (mono : ∀ rs rs', rs ⊆ rs' → demand rs → demand rs')
    (grows : s.Extends s') : s'.Reached demand p := by
  cases p with
  | before => trivial
  | sent => exact mono _ _ grows.records h
  | waiting ticket => exact mono _ _ (grows.recordsUpTo ticket) h
  | told =>
      obtain ⟨ticket, told, holds⟩ := h
      exact ⟨ticket, grows.notified told, mono _ _ (grows.recordsUpTo ticket) holds⟩

end GroupCommit

/-- How far a push has come with its record. -/
def PushStage.progress : PushStage → Progress
  | .entered => .before
  | .logging ticket => .waiting ticket
  | .checking | .compacting | .returned => .told

/-- How far a batch of pushes has come with the records of its ids. -/
def PushBatchStage.progress : PushBatchStage → Progress
  | .entered _ | .locked .. | .counting _ | .flushing => .sent
  | .waiting ticket => .waiting ticket
  | .checking | .compacting | .returned => .told

/-- How far an ack has come: with the Push of its id until it sends its own record. -/
def AckStep.progress : AckStep → Progress
  | .entered | .returned none => .before
  | .acked _ => .sent
  | .logging _ ticket => .waiting ticket
  | .checking _ | .compacting _ | .returned (some _) => .told

/-- How far a batch of acks has come with its records; one that removed no message does not
wait for them. -/
def AckBatchStage.progress : AckBatchStage → Progress
  | .entered _ | .locked .. | .counting _ | .flushing _ => .sent
  | .waiting ticket _ => .waiting ticket
  | .checking count | .compacting count | .returned count => if 0 < count then .told else .sent

/-- What an ack demands of the log. -/
def AckStep.Demands (queue : String) (rs : List WalRecord) : AckStep → Prop
  | .entered | .returned none => True
  | .acked id => id ∈ pushedIn rs
  | .logging id _ | .checking id | .compacting id | .returned (some id) => .ack id queue ∈ rs

namespace Thread

/-- How far a call has come with the records it is about. -/
def progress : Thread → Progress
  | .push c => c.stage.progress
  | .pushBatch c => c.stage.progress
  | .poll .. => .sent
  | .ack c => c.stage.progress
  | .ackBatch c => c.stage.progress

/-- What the call demands of the log. -/
def Demands : Thread → List WalRecord → Prop
  | .push c, rs => c.record ∈ rs
  | .pushBatch c, rs => (∀ id ∈ c.ids, id ∈ pushedIn rs) ∧ ∀ entry ∈ c.fresh, c.record entry ∈ rs
  | .poll c _, rs => c.stage.Known (pushedIn rs)
  | .ack c, rs => c.stage.Demands c.queue rs
  | .ackBatch c, rs => ∀ id ∈ c.accepted, .ack id c.queue ∈ rs

theorem Demands.mono {t : Thread} {rs rs' : List WalRecord} (sub : rs ⊆ rs')
    (h : t.Demands rs) : t.Demands rs' := by
  cases t with
  | push c => exact sub h
  | pushBatch c =>
      exact ⟨fun id inside => pushedIn_mono sub (h.1 id inside),
        fun entry inside => sub (h.2 entry inside)⟩
  | poll c ticket => exact PollStage.Known.mono h (pushedIn_mono sub)
  | ack c =>
      rcases c with ⟨queue, messageId, receipt, stage⟩
      cases stage with
      | entered => trivial
      | acked id => exact pushedIn_mono sub h
      | logging id ticket | checking id | compacting id => exact sub h
      | returned accepted =>
          cases accepted with
          | none => trivial
          | some id => exact sub h
  | ackBatch c => exact fun id inside => sub (h id inside)

/-- The call has come as far as its stage says. -/
def OnTrack (s : GroupCommit) (t : Thread) : Prop := s.Reached t.Demands t.progress

theorem OnTrack.extends {s s' : GroupCommit} {t : Thread} (h : t.OnTrack s)
    (grows : s.Extends s') :
    t.OnTrack s' :=
  GroupCommit.Reached.extends h (fun _ _ sub holds => holds.mono sub) grows

end Thread

/-! ## The sections of the calls -/

namespace GroupCommit

variable {s : GroupCommit}

theorem after_none (s : GroupCommit) : s.after none = s := by
  simp [after]

theorem Committed.after {d : DiskLog} {k : Nat} (h : Committed d s k)
    (sends : Option WalCommand) : Committed d (s.after sends) k := by
  cases sends with
  | none => rw [after_none]; exact h
  | some c => exact h.send c

theorem records_after (s : GroupCommit) (sends : Option WalCommand) :
    WalCommand.records s.sent ⊆ WalCommand.records (s.after sends).sent :=
  ((List.prefix_append _ _).filterMap _).subset

theorem records_after_write (s : GroupCommit) (r : WalRecord) (notify : Bool) :
    WalCommand.records (s.after (some (.write r notify))).sent =
      WalCommand.records s.sent ++ [r] :=
  WalCommand.records_concat s.sent (.write r notify)

/-- The ticket of a command that is sent covers all that was sent. -/
theorem recordsUpTo_after (s : GroupCommit) (c : WalCommand) :
    (s.after (some c)).recordsUpTo s.sent.length = WalCommand.records (s.after (some c)).sent := by
  unfold recordsUpTo
  rw [List.take_of_length_le]
  simp [after]

theorem mem_recordsUpTo_after (s : GroupCommit) (r : WalRecord) (notify : Bool) :
    r ∈ (s.after (some (.write r notify))).recordsUpTo s.sent.length := by
  rw [recordsUpTo_after, records_after_write]
  exact List.mem_append_right _ List.mem_cons_self

theorem recordsUpTo_subset (s : GroupCommit) (ticket : Nat) :
    s.recordsUpTo ticket ⊆ WalCommand.records s.sent :=
  ((List.take_prefix _ _).filterMap _).subset

end GroupCommit

/-- What a section of a call keeps: the ids in the shards are those of Pushes that were sent,
an Ack is sent for such an id only, and the call has come as far as its stage says. -/
structure TurnKeeps (boundary : Nat → Prop) (s : GroupCommit) (turn : Turn Thread) : Prop where
  engine : turn.engine.Known (pushedIn (WalCommand.records (s.after turn.sends).sent))
  cursor : boundary turn.engine.spillReadOffset
  acks : ∀ id queue notify, turn.sends = some (.write (.ack id queue) notify) →
    id ∈ pushedIn (WalCommand.records s.sent)
  call : turn.call.OnTrack (s.after turn.sends)

section Turns

variable {boundary : Nat → Prop} {s : GroupCommit} {e e' : QueueEngine} {t : Thread} {env : Env}

theorem QueueEngine.Known.after (h : e.Known (pushedIn (WalCommand.records s.sent)))
    (sends : Option WalCommand) : e.Known (pushedIn (WalCommand.records (s.after sends).sent)) :=
  fun shard => (h shard).mono (pushedIn_mono (s.records_after sends))

/-- A section that sends nothing. -/
theorem TurnKeeps.quiet (engine : e.Known (pushedIn (WalCommand.records s.sent)))
    (cursor : boundary e.spillReadOffset) (call : t.OnTrack s) :
    TurnKeeps boundary s ⟨e, none, t⟩ where
  engine := by rw [GroupCommit.after_none]; exact engine
  cursor := cursor
  acks _ _ _ sends := by cases sends
  call := by rw [GroupCommit.after_none]; exact call

/-- A section that also sets the RAM counter. -/
theorem TurnKeeps.counted (count : Nat) (engine : e.Known (pushedIn (WalCommand.records s.sent)))
    (cursor : boundary e.spillReadOffset) (call : t.OnTrack s) :
    TurnKeeps boundary s ⟨{ e with totalMessagesInRam := count }, none, t⟩ :=
  .quiet (fun shard => engine shard) cursor call

/-- A section that sends a flush and waits for it. -/
theorem TurnKeeps.flush (engine : e.Known (pushedIn (WalCommand.records s.sent)))
    (cursor : boundary e.spillReadOffset) (call : t.OnTrack (s.after (some .flush))) :
    TurnKeeps boundary s ⟨e, some .flush, t⟩ where
  engine := engine.after _
  cursor := cursor
  acks _ _ _ sends := by cases sends
  call := call

theorem PushThread.resume_keeps {c : PushThread}
    (engine : e.Known (pushedIn (WalCommand.records s.sent)))
    (cursor : boundary e.spillReadOffset) (onTrack : (Thread.push c).OnTrack s) :
    TurnKeeps boundary s ((Thread.push c).resume env e s.sent.length s.notified) := by
  rcases c with ⟨queue, id, payload, delaySec, now, stage⟩
  cases stage with
  | entered =>
      refine ⟨engine.after _, cursor, fun _ _ _ sends => (by cases sends), ?_⟩
      exact s.mem_recordsUpTo_after _ true
  | logging ticket =>
      have logged : PushThread.record ⟨queue, id, payload, delaySec, now, .logging ticket⟩ ∈
        s.recordsUpTo ticket := onTrack
      simp only [Thread.resume, PushThread.resume]
      split
      · rename_i told
        have reached : ∀ stage : PushStage, stage.progress = .told →
            (Thread.push ⟨queue, id, payload, delaySec, now, stage⟩).OnTrack s := by
          intro stage is
          unfold Thread.OnTrack Thread.progress
          dsimp only
          rw [is]
          exact ⟨ticket, told, logged⟩
        split
        · exact .quiet engine cursor (reached _ rfl)
        · have known : id ∈ pushedIn (WalCommand.records s.sent) :=
            mem_pushIds_of_mem (s.recordsUpTo_subset ticket logged)
          refine .quiet (engine.pushSection known now queue payload _) ?_ (reached _ rfl)
          rw [(disk_pushSection e now queue id payload _).2]
          exact cursor
      · exact .quiet engine cursor onTrack
  | checking =>
      simp only [Thread.resume, PushThread.resume]
      split
      · exact .quiet engine cursor onTrack
      · exact .quiet engine cursor onTrack
  | compacting | returned => exact .quiet engine cursor onTrack

/-- A flush covers what was sent before it. -/
theorem Thread.onTrack_flush
    (demands : t.Demands (WalCommand.records s.sent)) :
    t.Demands ((s.after (some .flush)).recordsUpTo s.sent.length) := by
  rw [GroupCommit.recordsUpTo_after]
  exact demands.mono (s.records_after _)

/-- An item of a batch that is new: its record is sent under the lock. -/
theorem PushBatchThread.enter_keeps {queue : String} {now draws : Nat} {ids : List Ulid}
    {fresh : List (Ulid × PushItem)} {id : Ulid} {item : PushItem} {left : List PushItem}
    {addedCount curRam : Nat} {stage : PushBatchStage}
    (engine : e.Known (pushedIn (WalCommand.records s.sent)))
    (cursor : boundary e.spillReadOffset)
    (onTrack : (Thread.pushBatch ⟨queue, now, ids, fresh, stage⟩).Demands
      (WalCommand.records s.sent)) :
    let turn := PushBatchThread.enter { e with draws } ⟨queue, now, ids ++ [id], fresh, stage⟩ id
      item left addedCount curRam
    TurnKeeps boundary s ⟨turn.engine, turn.sends, .pushBatch turn.call⟩ := by
  let r : WalRecord := .push id queue (addU64 now item.delaySeconds) item.payload
  have sent : r ∈ WalCommand.records (s.after (some (.write r false))).sent := by
    rw [s.records_after_write]
    exact List.mem_append_right _ List.mem_cons_self
  have known : id ∈ pushedIn (WalCommand.records (s.after (some (.write r false))).sent) :=
    mem_pushIds_of_mem sent
  have before := onTrack.mono (s.records_after (some (.write r false)))
  have onTrack : ∀ stage, (Thread.pushBatch ⟨queue, now, ids ++ [id], fresh ++ [(id, item)],
      stage⟩).Demands (WalCommand.records (s.after (some (.write r false))).sent) := by
    refine fun _ => ⟨fun id' inside => ?_, fun entry inside => ?_⟩
    · rcases List.mem_append.1 inside with old | new
      · exact before.1 id' old
      · rw [List.mem_singleton.1 new]
        exact known
    · rcases List.mem_append.1 inside with old | new
      · exact before.2 entry old
      · rw [List.mem_singleton.1 new]
        exact sent
  have grown := engine.after (some (.write r false))
  have seen := (grown (shardIdx queue)).see known
  unfold PushBatchThread.enter
  dsimp only
  split
  · exact ⟨grown.setShard (seen.store _ known now), cursor, fun _ _ _ sends => (by cases sends),
      onTrack _⟩
  · exact ⟨grown.setShard seen, cursor, fun _ _ _ sends => (by cases sends), onTrack _⟩

theorem PushBatchThread.resume_keeps {c : PushBatchThread}
    (engine : e.Known (pushedIn (WalCommand.records s.sent)))
    (cursor : boundary e.spillReadOffset) (onTrack : (Thread.pushBatch c).OnTrack s) :
    TurnKeeps boundary s ((Thread.pushBatch c).resume env e s.sent.length s.notified) := by
  rcases c with ⟨queue, now, ids, fresh, stage⟩
  cases stage with
  | entered items => exact .quiet engine cursor onTrack
  | locked left addedCount curRam =>
      cases left with
      | nil => exact .quiet engine cursor onTrack
      | cons item left =>
          have before : (Thread.pushBatch ⟨queue, now, ids, fresh,
            .locked (item :: left) addedCount curRam⟩).Demands _ := onTrack
          simp only [Thread.resume, PushBatchThread.resume]
          split
          · rename_i seen
            have known := (engine (shardIdx queue)).seen _ seen
            refine .quiet engine cursor ⟨fun id inside => ?_, before.2⟩
            rcases List.mem_append.1 inside with old | new
            · exact before.1 id old
            · rw [List.mem_singleton.1 new]
              exact known
          · exact PushBatchThread.enter_keeps engine cursor before
  | counting addedCount => exact .counted _ engine cursor onTrack
  | flushing => exact .flush engine cursor (Thread.onTrack_flush (t := .pushBatch _) onTrack)
  | waiting ticket =>
      simp only [Thread.resume, PushBatchThread.resume]
      split
      · rename_i told
        exact .quiet engine cursor ⟨ticket, told, onTrack⟩
      · exact .quiet engine cursor onTrack
  | checking =>
      simp only [Thread.resume, PushBatchThread.resume]
      split
      · exact .quiet engine cursor onTrack
      · exact .quiet engine cursor onTrack
  | compacting | returned => exact .quiet engine cursor onTrack

theorem PollCall.turn_keeps {c : PollCall} {ticket : Option Nat}
    (engine : e.Known (pushedIn (WalCommand.records s.sent)))
    (cursor : boundary e.spillReadOffset) (zero : boundary 0)
    (reads : e.ReadsKnown env (pushedIn (WalCommand.records s.sent)) boundary)
    (onTrack : (Thread.poll c ticket).OnTrack s) :
    TurnKeeps boundary s ((Thread.poll c ticket).resume env e s.sent.length s.notified) := by
  cases ticket with
  | some t => exact .quiet engine cursor onTrack
  | none =>
      have next := PollCall.resume_keeps (c := c) engine onTrack reads cursor zero
      simp only [Thread.resume, PollCall.turn]
      split
      · rename_i flushes
        refine .flush next.engine next.cursor ?_
        exact next.stage.mono (pushedIn_mono (s.records_after _))
      · exact .quiet next.engine next.cursor next.stage

theorem AckThread.resume_keeps {c : AckThread}
    (engine : e.Known (pushedIn (WalCommand.records s.sent)))
    (cursor : boundary e.spillReadOffset) (onTrack : (Thread.ack c).OnTrack s) :
    TurnKeeps boundary s ((Thread.ack c).resume env e s.sent.length s.notified) := by
  rcases c with ⟨queue, messageId, receipt, stage⟩
  cases stage with
  | entered =>
      simp only [Thread.resume, AckThread.resume]
      split
      · exact .quiet engine cursor trivial
      · rename_i id st wasLive reached
        obtain ⟨id', _, accepted⟩ := Option.bind_eq_some_iff.1 reached
        obtain ⟨done, valid, eq⟩ := Option.map_eq_some_iff.1 accepted
        cases eq
        obtain ⟨rest, known⟩ := (engine (shardIdx queue)).ackLease valid
        exact .counted _ (engine.setShard rest) cursor known
  | acked id =>
      refine ⟨engine.after _, cursor, fun _ _ _ sends => ?_, ?_⟩
      · cases sends
        exact onTrack
      · exact s.mem_recordsUpTo_after (.ack id queue) true
  | logging id ticket =>
      simp only [Thread.resume, AckThread.resume]
      split
      · rename_i told
        exact .quiet engine cursor ⟨ticket, told, onTrack⟩
      · exact .quiet engine cursor onTrack
  | checking id =>
      simp only [Thread.resume, AckThread.resume]
      split
      · exact .quiet engine cursor onTrack
      · exact .quiet engine cursor onTrack
  | compacting id | returned accepted => exact .quiet engine cursor onTrack

theorem AckBatchThread.resume_keeps {c : AckBatchThread}
    (engine : e.Known (pushedIn (WalCommand.records s.sent)))
    (cursor : boundary e.spillReadOffset) (onTrack : (Thread.ackBatch c).OnTrack s) :
    TurnKeeps boundary s ((Thread.ackBatch c).resume env e s.sent.length s.notified) := by
  rcases c with ⟨queue, accepted, stage⟩
  cases stage with
  | entered items => exact .quiet engine cursor onTrack
  | locked left count =>
      cases left with
      | nil => exact .quiet engine cursor onTrack
      | cons item left =>
          have before : ∀ id ∈ accepted, .ack id queue ∈ WalCommand.records s.sent := onTrack
          simp only [Thread.resume, AckBatchThread.resume]
          split
          · exact .quiet engine cursor onTrack
          · rename_i st wasLive valid
            obtain ⟨rest, known⟩ := (engine (shardIdx queue)).ackLease valid
            refine ⟨(engine.setShard rest).after _, cursor,
              fun _ _ _ sends => ?_, fun id inside => ?_⟩
            · cases sends
              exact known
            · rw [GroupCommit.records_after_write, List.mem_append]
              rcases List.mem_append.1 inside with old | new
              · exact Or.inl (before id old)
              · rw [List.mem_singleton.1 new]
                exact Or.inr List.mem_cons_self
  | counting count =>
      simp only [Thread.resume, AckBatchThread.resume]
      split
      · exact .counted _ engine cursor onTrack
      · rename_i none
        refine .quiet engine cursor ?_
        unfold Thread.OnTrack Thread.progress AckBatchStage.progress
        dsimp only
        rw [if_neg none]
        exact onTrack
  | flushing count => exact .flush engine cursor (Thread.onTrack_flush (t := .ackBatch _) onTrack)
  | waiting ticket count =>
      simp only [Thread.resume, AckBatchThread.resume]
      split
      · rename_i told
        refine .quiet engine cursor ?_
        unfold Thread.OnTrack Thread.progress AckBatchStage.progress
        dsimp only
        split
        · exact ⟨ticket, told, onTrack⟩
        · exact Thread.Demands.mono (t := .ackBatch _) (s.recordsUpTo_subset ticket) onTrack
      · exact .quiet engine cursor onTrack
  | checking count =>
      simp only [Thread.resume, AckBatchThread.resume]
      split
      · exact .quiet engine cursor onTrack
      · exact .quiet engine cursor onTrack
  | compacting count | returned count => exact .quiet engine cursor onTrack

end Turns

/-! ## Every interleaving -/

namespace Threads

variable {env : Env} {d : DiskLog} {v : Threads}

/-- What holds of the calls and the writer at every moment: the shards know only ids whose Push
was sent, an Ack stands behind a Push of its id, the cursor is at a record of the segment, and
every call has come as far as its stage says. -/
structure Sane (d : DiskLog) (v : Threads) : Prop where
  committed : ∃ k, GroupCommit.Committed d v.writer k
  known : v.engine.Known (pushedIn v.log)
  after : ∀ i id queue, v.log[i]? = some (.ack id queue) → id ∈ pushedIn (v.log.take i)
  cursor : v.writer.Boundary d v.engine.spillReadOffset
  calls : ∀ t ∈ v.calls, t.OnTrack v.writer

/-- The writer has gone on, or a call has sent it something. -/
theorem Sane.extend (h : v.Sane d) {writer : GroupCommit} (grows : v.writer.Extends writer)
    (committed : ∃ k, GroupCommit.Committed d writer k) (same : writer.sent = v.writer.sent) :
    Sane d { v with writer } := by
  have log : Threads.log { v with writer } = v.log := congrArg WalCommand.records same
  refine ⟨committed, ?_, ?_, h.cursor.extends grows,
    fun t inside => (h.calls t inside).extends grows⟩
  · rw [log]
    exact h.known
  · rw [log]
    exact h.after

/-- One more record, which stands behind a Push of its id if it is an Ack. -/
theorem after_concat {rs : List WalRecord}
    (h : ∀ i id queue, rs[i]? = some (.ack id queue) → id ∈ pushedIn (rs.take i)) {r : WalRecord}
    (last : ∀ id queue, r = .ack id queue → id ∈ pushedIn rs) :
    ∀ i id queue, (rs ++ [r])[i]? = some (.ack id queue) → id ∈ pushedIn ((rs ++ [r]).take i) := by
  intro i id queue found
  by_cases old : i < rs.length
  · rw [List.getElem?_append_left old] at found
    rw [List.take_append_of_le_length old.le]
    exact h i id queue found
  · have here : i = rs.length := by
      have inside := (List.getElem?_eq_some_iff.1 found).1
      rw [List.length_append, List.length_singleton] at inside
      omega
    subst here
    rw [List.getElem?_concat_length] at found
    rw [List.take_left]
    exact last id queue (Option.some.inj found)

/-- A section of a call. -/
theorem Sane.resume (h : v.Sane d) (i : Nat) {call : Thread}
    (turn : TurnKeeps (v.writer.Boundary d) v.writer
      (call.resume env v.view v.writer.sent.length v.writer.notified)) :
    Sane d (v.resume env i call) := by
  obtain ⟨k, committed⟩ := h.committed
  unfold Threads.resume
  dsimp only
  generalize call.resume env v.view v.writer.sent.length v.writer.notified = next at turn ⊢
  have grows := v.writer.extends_send next.sends.toList committed.taken_le
  refine ⟨⟨k, committed.after next.sends⟩, turn.engine, ?_, turn.cursor.extends grows,
    fun t inside => ?_⟩
  · show ∀ i id queue, (WalCommand.records (v.writer.after next.sends).sent)[i]? = _ →
      id ∈ pushedIn ((WalCommand.records (v.writer.after next.sends).sent).take i)
    cases sends : next.sends with
    | none =>
        rw [GroupCommit.after_none]
        exact h.after
    | some c =>
        cases c with
        | flush =>
            have same : WalCommand.records (v.writer.after (some .flush)).sent = v.log := by
              simp [GroupCommit.after, WalCommand.records, WalCommand.record?, Threads.log]
            rw [same]
            exact h.after
        | write r notify =>
            rw [GroupCommit.records_after_write]
            refine after_concat h.after fun id queue is => turn.acks id queue notify ?_
            rw [sends, is]
  · rcases List.mem_or_eq_of_mem_set inside with old | here
    · exact (h.calls t old).extends grows
    · rw [here]
      exact turn.call

/-- A paging read returns Pushes of ids whose Push was sent. -/
theorem Sane.reads (h : v.Sane d) (blank : d.Blank) (fits : ∀ r ∈ v.log, r.Fits) (env : Env) :
    v.view.ReadsKnown env (pushedIn v.log) (v.writer.Boundary d) := by
  obtain ⟨k, committed⟩ := h.committed
  have sent := v.writer.takenRecords_isPrefix.subset
  intro fetchLimit
  obtain ⟨records, boundary⟩ := committed.reads blank (fun r inside => fits r (sent inside))
    (e := v.view) rfl h.cursor env fetchLimit
  refine ⟨fun r inside isPush => ?_, boundary⟩
  obtain ⟨r', taken, samePush, sameId⟩ := records r inside
  rw [← sameId]
  exact List.mem_map.2 ⟨r', List.mem_filter.2 ⟨sent taken, samePush.trans isPush⟩, rfl⟩

/-- The next section of any call. -/
theorem Sane.turn (h : v.Sane d) (blank : d.Blank) (fits : ∀ r ∈ v.log, r.Fits) {call : Thread}
    (inside : call ∈ v.calls) (env : Env) :
    TurnKeeps (v.writer.Boundary d) v.writer
      (call.resume env v.view v.writer.sent.length v.writer.notified) := by
  have known : v.view.Known (pushedIn v.log) := h.known
  have onTrack := h.calls call inside
  cases call with
  | push c => exact PushThread.resume_keeps known h.cursor onTrack
  | pushBatch c => exact PushBatchThread.resume_keeps known h.cursor onTrack
  | poll c ticket =>
      exact PollCall.turn_keeps known h.cursor (v.writer.boundary_zero d) (h.reads blank fits env)
        onTrack
  | ack c => exact AckThread.resume_keeps known h.cursor onTrack
  | ackBatch c => exact AckBatchThread.resume_keeps known h.cursor onTrack

/-- A call that starts. -/
theorem Sane.start_call (h : v.Sane d) (op : Op) :
    Sane d { v with calls := v.calls ++ (Thread.start v.clock op).toList } := by
  refine ⟨h.committed, h.known, h.after, h.cursor, fun t inside => ?_⟩
  rcases List.mem_append.1 inside with old | new
  · exact h.calls t old
  · have is := Option.mem_toList.1 new
    cases op with
    | push queue id payload delaySec => cases is; trivial
    | pushBatch queue items =>
        cases is
        exact ⟨fun id bad => (by cases bad), fun entry bad => (by cases bad)⟩
    | poll queue visibilitySec maxMessages => cases is; trivial
    | ack queue messageId receipt => cases is; trivial
    | ackBatch queue items => cases is; exact fun id bad => by cases bad
    | advance seconds => cases is

/-- A step of the writer. -/
theorem Sane.write (h : v.Sane d) {act : WriterAct} (own : ∀ c, act ≠ .send c)
    {writer : GroupCommit} (made : v.writer.step act = some writer) :
    Sane d { v with writer } := by
  obtain ⟨k, committed⟩ := h.committed
  exact h.extend (GroupCommit.extends_step made committed.taken_le) (committed.step made)
    (GroupCommit.sent_step own made)

/-- Every act keeps the invariant. -/
theorem Sane.step (h : v.Sane d) (blank : d.Blank) (fits : ∀ r ∈ v.log, r.Fits)
    (act : ThreadsAct) : Sane d (v.step env act) := by
  cases act with
  | call op =>
      cases op with
      | advance seconds => exact ⟨h.committed, h.known, h.after, h.cursor, h.calls⟩
      | push | pushBatch | poll | ack | ackBatch => exact h.start_call _
  | resume i =>
      unfold Threads.step
      dsimp only
      split
      · rename_i call found
        split
        · exact h.resume i (h.turn blank fits (List.mem_of_getElem? found) env)
        · exact h
      · exact h
  | write act =>
      cases act with
      | send c => exact h
      | blockingRecv | tryRecv | tryRecvEmpty | write | notify =>
          unfold Threads.step
          dsimp only
          split
          · rename_i writer made
            exact h.write (fun c bad => by cases bad) made
          · exact h

/-- Nothing is taken back from the log. -/
theorem log_step (env : Env) (v : Threads) (act : ThreadsAct) :
    v.log <+: (v.step env act).log := by
  cases act with
  | call op => cases op <;> exact List.prefix_rfl
  | resume i =>
      unfold Threads.step
      dsimp only
      split
      · split
        · exact (List.prefix_append _ _).filterMap _
        · exact List.prefix_rfl
      · exact List.prefix_rfl
  | write act =>
      cases act with
      | send c => exact List.prefix_rfl
      | blockingRecv | tryRecv | tryRecvEmpty | write | notify =>
          unfold Threads.step
          dsimp only
          split
          · rename_i writer made
            have same := GroupCommit.sent_step (fun c bad => by cases bad) made
            unfold Threads.log
            rw [same]
          · exact List.prefix_rfl

/-- The server after a list of acts. -/
def run (env : Env) (v : Threads) (acts : List ThreadsAct) : Threads := acts.foldl (step env) v

/-- Whatever the order of the acts. -/
theorem Sane.run (h : v.Sane d) (blank : d.Blank) {acts : List ThreadsAct}
    (fits : ∀ r ∈ (v.run env acts).log, r.Fits) : Sane d (v.run env acts) := by
  induction acts using List.reverseRecOn with
  | nil => exact h
  | append_singleton acts act ih =>
      have last : v.run env (acts ++ [act]) = (v.run env acts).step env act := by
        simp [Threads.run]
      rw [last] at fits ⊢
      have fits' : ∀ r ∈ (v.run env acts).log, r.Fits := fun r inside =>
        fits r ((log_step env _ act).subset inside)
      exact (ih fits').step blank fits' act

/-! ## After the crash -/

theorem blank_fresh (env : Env) (opts : QueueOptions) (clock : Nat) :
    (World.fresh env opts clock).engine.disk.Blank where
  active := rfl
  bytes := rfl
  inactive := rfl
  ids name id found := by cases found
  agrees name id found := by cases found
  manifest := rfl

theorem sane_start (env : Env) (opts : QueueOptions) (clock : Nat) :
    Sane (World.fresh env opts clock).engine.disk (start (World.fresh env opts clock)) where
  committed := ⟨0, GroupCommit.committed_start _⟩
  known s := .new
  after i id queue found := by cases found
  cursor := GroupCommit.boundary_zero _ _
  calls t inside := by cases inside

/-- What is asked of the records that were sent: no id is pushed twice, the records of an id
name one queue, and payloads are under 4 GiB. -/
structure Tidy (home : Ulid → String) (v : Threads) : Prop where
  once : (pushIds v.log).Nodup
  home : ∀ r ∈ v.log, home r.msgId = r.queueName
  fits : ∀ r ∈ v.log, r.Fits

/-- The records that were sent are orderly. -/
theorem Sane.orderly {home : Ulid → String} (h : v.Sane d) (tidy : v.Tidy home) :
    Orderly v.log where
  once := tidy.once
  after i id queue found := by
    obtain ⟨r, inside, is⟩ := List.mem_map.1 (h.after i id queue found)
    obtain ⟨inside, isPush⟩ := List.mem_filter.1 inside
    have acked := tidy.home _ (List.mem_of_getElem? found)
    have pushed := tidy.home r (List.mem_of_mem_take inside)
    cases r with
    | ack => cases isPush
    | push id' queue' visibleAt payload =>
        cases is
        have same : queue' = queue := pushed.symm.trans acked
        exact ⟨visibleAt, payload, same ▸ inside⟩

end Threads

/-- A prefix of an orderly log. -/
theorem Orderly.of_isPrefix {rs rs' : List WalRecord} (h : Orderly rs') (part : rs <+: rs') :
    Orderly rs where
  once := h.once.sublist ((part.sublist.filter _).map _)
  after i id queue found := by
    have inside := (List.getElem?_eq_some_iff.1 found).1
    obtain ⟨more, rfl⟩ := part
    obtain ⟨visibleAt, payload, before⟩ := h.after i id queue (by
      rw [List.getElem?_append_left inside]
      exact found)
    rw [List.take_append_of_le_length inside.le] at before
    exact ⟨visibleAt, payload, before⟩

section Stored

variable (rs : List WalRecord)

theorem pushIds_map_stored : pushIds (rs.map WalRecord.stored) = pushIds rs := by
  unfold pushIds
  rw [List.filter_map, List.map_map]
  simp [Function.comp_def]

theorem ackIds_map_stored : ackIds (rs.map WalRecord.stored) = ackIds rs := by
  unfold ackIds
  rw [List.filter_map, List.map_map]
  simp [Function.comp_def]

theorem unacked_map_stored :
    unacked (rs.map WalRecord.stored) = (unacked rs).map WalRecord.stored := by
  unfold unacked
  rw [ackIds_map_stored, List.filter_map]
  simp [Function.comp_def]

end Stored

/-- A log keeps its order when it is read back. -/
theorem Orderly.map_stored {rs : List WalRecord} (h : Orderly rs) :
    Orderly (rs.map WalRecord.stored) where
  once := by
    rw [pushIds_map_stored]
    exact h.once
  after i id queue found := by
    rw [List.getElem?_map] at found
    obtain ⟨r, here, is⟩ := Option.map_eq_some_iff.1 found
    cases r with
    | push => cases is
    | ack id' queue' =>
        cases is
        obtain ⟨visibleAt, payload, before⟩ := h.after i id queue here
        rw [← List.map_take]
        exact ⟨storedTime visibleAt, payload, List.mem_map.2 ⟨_, before, rfl⟩⟩

section Replay

variable {opts : QueueOptions} {now : Nat} {rs log : List WalRecord} {acc : Replay} {id : Ulid}
  {queue : String} {visibleAt : Nat} {payload : List UInt8}

/-- A message whose Push is read back and that has no Ack is in memory. -/
theorem Replayed.live (h : Replayed opts now (rs.map WalRecord.stored) acc) (part : rs <+: log)
    (logged : .push id queue visibleAt payload ∈ rs) (unacked : ∀ queue, .ack id queue ∉ log) :
    AList.lookup id (acc.shards (shardIdx queue)).messages =
      some ⟨id, queue, payload, storedTime visibleAt, 0, opts.maxDeliveryCount⟩ := by
  have free : id ∉ ackIds rs := fun acked =>
    have ⟨name, inside⟩ := mem_ackIds.1 acked
    unacked name (part.subset inside)
  refine (h.messages _ id _).2 ⟨queue, storedTime visibleAt, payload, ?_, rfl, rfl⟩
  rw [unacked_map_stored]
  refine List.mem_map.2 ⟨.push id queue visibleAt payload, List.mem_filter.2 ⟨logged, ?_⟩, rfl⟩
  simp [WalRecord.isPush, WalRecord.msgId, free]

/-- A message whose Ack is read back is not. -/
theorem Replayed.gone (h : Replayed opts now (rs.map WalRecord.stored) acc)
    (logged : .ack id queue ∈ rs) (s : Fin numShards) : id ∉ (acc.shards s).messages := by
  intro inside
  obtain ⟨msg, found⟩ := (FMap.mem_iff_lookup _ _).1 inside
  obtain ⟨_, _, _, live, _⟩ := (h.messages s id msg).1 found
  have free := (List.mem_filter.1 live).2
  rw [ackIds_map_stored] at free
  have acked : id ∈ ackIds rs := mem_ackIds.2 ⟨queue, logged⟩
  simp [WalRecord.isPush, WalRecord.msgId, acked] at free

end Replay

namespace Threads

variable {env : Env} {d : DiskLog} {v : Threads} {home : Ulid → String}

/-- What `open` recovers after a crash: the first records that were sent, and among them those
that the calls which have been told about them demand. -/
theorem Sane.recovered (h : v.Sane d) (blank : d.Blank) (tidy : v.Tidy home) {dir : DataDir}
    (leaves : v.writer.Leaves dir) (env : Env) (maxSegmentSize : Nat)
    (short : QueueRegistry.ShortNames v.writer.disk.registry.idToName)
    (few : v.writer.disk.registry.idToName.length ≤ 65536) :
    ∃ rs, rs <+: v.log ∧
      (DiskLog.openDir env dir maxSegmentSize).2 = rs.map WalRecord.stored ∧
      ∀ t ∈ v.calls, t.progress = .told → t.Demands rs := by
  obtain ⟨k, committed⟩ := h.committed
  have sent := v.writer.takenRecords_isPrefix
  obtain ⟨n, written, records⟩ := committed.recovered blank leaves env maxSegmentSize short few
    fun r inside => tidy.fits r (sent.subset inside)
  refine ⟨v.writer.takenRecords.take n, (List.take_prefix _ _).trans sent, records,
    fun t inside told => ?_⟩
  have onTrack := h.calls t inside
  unfold Thread.OnTrack at onTrack
  rw [told] at onTrack
  obtain ⟨ticket, notified, demands⟩ := onTrack
  refine demands.mono ?_
  have early : v.writer.sent.take (ticket + 1) <+: v.writer.sent.take k :=
    List.take_prefix_take_left (committed.told ticket notified)
  have here : WalCommand.records (v.writer.sent.take k) <+: v.writer.takenRecords.take n := by
    rw [List.prefix_iff_eq_take.1 committed.records_isPrefix]
    exact List.take_prefix_take_left written
  exact ((early.filterMap _).trans here).subset

/-- However the calls and the writer were interleaved, after a crash at any moment, also in
the middle of a write, `open` finds every message whose push has returned and for which no Ack
was sent, as it was pushed; an item that a batch passed over, its id being seen before, it finds
as the earlier push left it.  It finds no message whose ack has returned, and only messages
that were pushed. -/
theorem crash_durable {opts : QueueOptions} {clock : Nat} {acts : List ThreadsAct}
    (tidy : ((start (World.fresh env opts clock)).run env acts).Tidy home)
    (short : QueueRegistry.ShortNames
      ((start (World.fresh env opts clock)).run env acts).writer.disk.registry.idToName)
    (few : List.length
      ((start (World.fresh env opts clock)).run env acts).writer.disk.registry.idToName ≤ 65536)
    (room : ∀ before, before <+: ((start (World.fresh env opts clock)).run env acts).log →
      (unacked before).length < opts.maxHotMessagesInRam)
    {dir : DataDir} (leaves : ((start (World.fresh env opts clock)).run env acts).writer.Leaves dir)
    (baseEpochSec draws : Nat) :
    let v := (start (World.fresh env opts clock)).run env acts
    let e := openDir env dir opts baseEpochSec draws
    (∀ c, .push c ∈ v.calls → c.stage = .returned → (∀ queue, .ack c.id queue ∉ v.log) →
      AList.lookup c.id (e.shards (shardIdx c.queue)).messages =
        some ⟨c.id, c.queue, c.payload, storedTime (addU64 c.now c.delaySec), 0,
          opts.maxDeliveryCount⟩) ∧
    (∀ c, .pushBatch c ∈ v.calls → c.stage = .returned →
      (∀ id item, (id, item) ∈ c.fresh → (∀ queue, .ack id queue ∉ v.log) →
        AList.lookup id (e.shards (shardIdx c.queue)).messages =
          some ⟨id, c.queue, item.payload, storedTime (addU64 c.now item.delaySeconds), 0,
            opts.maxDeliveryCount⟩) ∧
      ∀ id ∈ c.ids, (∀ queue, .ack id queue ∉ v.log) →
        id ∈ (e.shards (shardIdx (home id))).messages) ∧
    (∀ c id, .ack c ∈ v.calls → c.stage = .returned (some id) → ∀ s, id ∉ (e.shards s).messages) ∧
    (∀ c count, .ackBatch c ∈ v.calls → c.stage = .returned count → 0 < count →
      ∀ id ∈ c.accepted, ∀ s, id ∉ (e.shards s).messages) ∧
    ∀ s id msg, AList.lookup id (e.shards s).messages = some msg →
      ∃ visibleAt, .push id msg.queue visibleAt msg.payload ∈ v.log := by
  intro v e
  have sane : Sane _ v := (sane_start env opts clock).run (blank_fresh env opts clock) tidy.fits
  obtain ⟨rs, part, recovered, told⟩ := sane.recovered (blank_fresh env opts clock) tidy leaves env
    opts.maxWalSegmentSize short few
  have orderly : Orderly rs := (sane.orderly tidy).of_isPrefix part
  have replayed : Replayed opts baseEpochSec (rs.map WalRecord.stored)
      (replay opts baseEpochSec (rs.map WalRecord.stored)) := by
    refine .replay orderly.map_stored fun before inside => ?_
    obtain ⟨first, within, rfl⟩ := List.prefix_map_iff.1 inside
    rw [unacked_map_stored, List.length_map]
    exact room first (within.trans part)
  have shards : e.shards = (replay opts baseEpochSec (rs.map WalRecord.stored)).shards := by
    rw [← recovered]
    rfl
  rw [shards]
  refine ⟨fun c inside stage unacked => ?_, fun c inside stage => ?_, fun c id inside stage => ?_,
    fun c count inside stage removed id member => ?_, fun s id msg found => ?_⟩
  · have logged : c.record ∈ rs := told (.push c) inside (by rw [Thread.progress, stage]; rfl)
    exact replayed.live part logged unacked
  · have demanded : (Thread.pushBatch c).Demands rs :=
      told (.pushBatch c) inside (by rw [Thread.progress, stage]; rfl)
    obtain ⟨pushed, sent⟩ := demanded
    refine ⟨fun id item entered unacked => replayed.live part (sent _ entered) unacked,
      fun id member unacked => ?_⟩
    obtain ⟨r, logged, is⟩ := List.mem_map.1 (pushed id member)
    obtain ⟨logged, isPush⟩ := List.mem_filter.1 logged
    cases r with
    | ack => cases isPush
    | push id' queue visibleAt payload =>
        have same : id' = id := is
        have own : home id' = queue := tidy.home _ (part.subset logged)
        rw [← same, own]
        exact FMap.mem_of_lookup (replayed.live part logged (same ▸ unacked))
  · have logged : c.stage.Demands c.queue rs :=
      told (.ack c) inside (by rw [Thread.progress, stage]; rfl)
    rw [stage] at logged
    exact replayed.gone logged
  · have logged := told (.ackBatch c) inside (by
      rw [Thread.progress, stage]
      exact if_pos removed)
    exact replayed.gone (logged id member)
  · obtain ⟨queue, visibleAt, payload, live, _, rfl⟩ := (replayed.messages s id msg).1 found
    obtain ⟨r, logged, is⟩ := List.mem_map.1 (unacked_subset live)
    cases r with
    | ack => cases is
    | push id' queue' visibleAt' payload' =>
        cases is
        exact ⟨visibleAt', part.subset logged⟩

/-- The writer takes what was sent, writes it and tells its waiters. -/
def writerActs (commands waiters : Nat) : List ThreadsAct :=
  List.flatten [[.write .blockingRecv], .replicate (commands - 1) (.write .tryRecv),
    [.write .tryRecvEmpty, .write .write], .replicate (waiters + 1) (.write .notify)]

/-- A push and a batch whose records go to disk in one write, a poll, an ack of the first message
of the batch, and one more push whose record is being written. -/
def crashActs : List ThreadsAct :=
  List.flatten [
    [.call (.push "jobs" 1 [7] 0), .call (.pushBatch "jobs" [⟨some 2, [8], 0⟩, ⟨some 3, [6], 60⟩]),
      .resume 0, .resume 1, .resume 1, .resume 1, .resume 0],
    writerActs 3 1,
    [.resume 0, .resume 1, .resume 1, .resume 1, .resume 0, .resume 0],
    writerActs 1 1,
    [.resume 1, .resume 1, .call (.poll "jobs" 30 1)], .replicate 38 (.resume 2),
    writerActs 1 1,
    [.resume 2, .resume 2, .resume 2,
      .call (.ack "jobs" (ulidText 2) (ulidText (BitVec.ofNat 128 (2 ^ 64 + 1)))), .resume 3,
      .resume 3],
    writerActs 1 1,
    [.resume 3, .resume 3, .call (.push "jobs" 4 [9] 0), .resume 4, .write .blockingRecv,
      .write .tryRecvEmpty]]

theorem crash_durable_sample :
    let v := (start (World.fresh .sample .default 1600000000)).run .sample crashActs
    let dir := DataDir.single v.writer.disk.registry.manifest v.writer.disk.activeIsB
      (v.writer.disk.active ++ v.writer.batchBuf.take 5)
    let e := openDir .sample dir .default 1600000100 0
    v.log = [.push 1 "jobs" 1600000000 [7], .push 2 "jobs" 1600000000 [8],
        .push 3 "jobs" 1600000060 [6], .ack 2 "jobs", .push 4 "jobs" 1600000000 [9]] ∧
      1 ∈ (e.shards (shardIdx "jobs")).messages ∧
      AList.lookup 3 (e.shards (shardIdx "jobs")).messages =
        some ⟨3, "jobs", [6], 1600000060, 0, QueueOptions.default.maxDeliveryCount⟩ ∧
      ∀ s, 2 ∉ (e.shards s).messages := by
  intro v dir e
  have log : v.log = [.push 1 "jobs" 1600000000 [7], .push 2 "jobs" 1600000000 [8],
      .push 3 "jobs" 1600000060 [6], .ack 2 "jobs", .push 4 "jobs" 1600000000 [9]] := by
    decide +kernel
  have tidy : v.Tidy fun _ => "jobs" := by
    refine ⟨?_, ?_, ?_⟩ <;> rw [log] <;> decide +kernel
  have room : ∀ before, before <+: v.log →
      (unacked before).length < QueueOptions.default.maxHotMessagesInRam := by
    intro before part
    have short : (unacked before).length ≤ v.log.length :=
      (List.length_filter_le _ before).trans part.length_le
    rw [log] at short
    exact Nat.lt_of_le_of_lt short (by decide)
  have leaves : v.writer.Leaves dir := ⟨v.writer.batchBuf.take 5, List.take_prefix _ _,
    fun idle => absurd (by decide +kernel) idle, rfl⟩
  have unacked : (∀ queue, .ack 1 queue ∉ v.log) ∧ ∀ queue, .ack 3 queue ∉ v.log := by
    rw [log]
    simp
  obtain ⟨pushed, batch, acked, _, _⟩ := crash_durable tidy (by decide +kernel) (by decide +kernel) room
    leaves 1600000100 0
  have member : .push ⟨"jobs", 1, [7], 0, 1600000000, .returned⟩ ∈ v.calls := by decide +kernel
  have live := FMap.mem_of_lookup (pushed _ member rfl unacked.1)
  have returned : .pushBatch ⟨"jobs", 1600000000, [2, 3], [(2, ⟨some 2, [8], 0⟩),
      (3, ⟨some 3, [6], 60⟩)], .returned⟩ ∈ v.calls := by decide +kernel
  have stored := (batch _ returned rfl).1 3 ⟨some 3, [6], 60⟩ (by decide) unacked.2
  have gone := acked ⟨"jobs", ulidText 2, ulidText (BitVec.ofNat 128 (2 ^ 64 + 1)),
    .returned (some 2)⟩ 2 (by decide +kernel) rfl
  have due : storedTime (addU64 1600000000 60) = 1600000060 := by decide
  dsimp only at live stored
  rw [due] at stored
  exact ⟨log, live, stored, gone⟩

end Threads

end WalrQueue
