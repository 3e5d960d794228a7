import WalrQueue.Location
import WalrQueue.CompactionSafety
import WalrQueue.RaftLog
import WalrQueue.UlidText

/-!
# Catching up

`sync_all_entries_to_peer` sends what the leader has in RAM and then its log.  Every item
and every entry a new peer takes in is one record of its write-ahead log, and nothing it
takes in lets it compact, so what the peer ends up with can be read off what it was sent.
-/

namespace WalrQueue

open QueueEngine RaftCommand

/-- The id is in memory, or it has a Push record in the active segment and no Ack there. -/
def QueueEngine.Retains (env : Env) (e : QueueEngine) (m : Ulid) : Prop :=
  e.InMemory m ∨ e.HasUnackedPush env m

instance (env : Env) (e : QueueEngine) (m : Ulid) : Decidable (e.Retains env m) :=
  inferInstanceAs (Decidable (_ ∨ _))

/-- What the `uuid` crate guarantees about texts: none of 26 bytes is a UUID. -/
structure Env.UuidTexts (env : Env) : Prop where
  length : ∀ text u, env.uuidParseStr text = some u → (utf8 text).length ≠ 26

/-! ## What is sent, as records -/

/-- The record an entry becomes at a follower. -/
def RaftCommand.record (env : Env) (now : Nat) : RaftCommand → Option WalRecord
  | .push queue msgId payload visibleAt =>
      (followerId env msgId).map fun id => .push id queue (addU64 now visibleAt) payload
  | .ack queue msgId _ => (parseIdFast env msgId).map fun id => .ack id queue

/-- The payload of a Push is under 4 GiB. -/
def RaftCommand.Small : RaftCommand → Prop
  | .push _ _ payload _ => payload.length < 2 ^ 32
  | .ack .. => True

instance : (command : RaftCommand) → Decidable command.Small
  | .push _ _ payload _ => inferInstanceAs (Decidable (payload.length < 2 ^ 32))
  | .ack .. => isTrue trivial

/-- The id an item of a snapshot reads as. -/
def SnapshotItem.readId (env : Env) (item : SnapshotItem) : Option Ulid :=
  match env.uuidParseStr item.id with
  | some id => some id
  | none => env.ulidFromString item.id

/-- The record an item of a snapshot becomes. -/
def SnapshotItem.record (env : Env) (now : Nat) (item : SnapshotItem) : Option WalRecord :=
  (item.readId env).map fun id =>
    .push id item.queue (addU64 now (item.visibleAt - now)) item.payload

theorem RaftNode.installItem_eq (env : Env) (now : Nat) (e : QueueEngine) (item : SnapshotItem) :
    RaftNode.installItem env now e item =
      match item.readId env with
      | some id => (e.pushWithUlid env now item.queue id item.payload (item.visibleAt - now)).1
      | none => e := by
  unfold RaftNode.installItem SnapshotItem.readId
  cases env.uuidParseStr item.id with
  | some id => rfl
  | none => cases env.ulidFromString item.id <;> rfl

theorem RaftCommand.record_push (env : Env) (now : Nat) {command : RaftCommand} {m : Ulid} :
    (∃ r ∈ command.record env now, r.isPush = true ∧ r.msgId = m) ↔
      ∃ s, command.pushes env = some (s, m) := by
  cases command with
  | ack queue msgId receipt =>
      cases read : parseIdFast env msgId <;> simp [record, pushes, read, WalRecord.isPush]
  | push queue msgId payload visibleAt =>
      cases read : followerId env msgId <;>
        simp [record, pushes, read, WalRecord.isPush, WalRecord.msgId]

theorem RaftCommand.record_ack (env : Env) (now : Nat) {command : RaftCommand} {m : Ulid} :
    (∀ r ∈ command.record env now, r.msgId = m → r.isPush = true) ↔
      ∀ s, command.acks env ≠ some (s, m) := by
  cases command with
  | ack queue msgId receipt =>
      cases read : parseIdFast env msgId <;>
        simp [record, acks, read, WalRecord.isPush, WalRecord.msgId]
  | push queue msgId payload visibleAt =>
      cases read : followerId env msgId <;> simp [record, acks, read, WalRecord.isPush]

/-! ## What a new peer has taken in -/

namespace DiskLayout

variable {env : Env} {e e' : QueueEngine} {xs : List WalEntry} {i : Nat}

/-- A segment with a record ahead of the cursor does not compact. -/
theorem not_compacts (h : DiskLayout e xs i) (ahead : i < xs.length) : e.compacts = false := by
  obtain ⟨x, rest, next⟩ := List.exists_cons_of_length_pos
    (show 0 < (xs.drop i).length by rw [List.length_drop]; omega)
  have behind : ¬ e.disk.activeBytes ≤ e.spillReadOffset := by
    have first := encodeEntry_length_pos x
    rw [h.cursor, h.holds.bytes, ← segment_take_drop xs i, next, segment_cons]
    simp only [List.length_append]
    omega
  simp [QueueEngine.compacts, QueueEngine.isSpillAtEof, behind]

theorem check (h : DiskLayout e xs i) (ahead : i < xs.length) (env : Env) :
    DiskLayout (e.checkAndTriggerCompaction env) xs i := by
  rw [checkAndTriggerCompaction, if_neg (by simp [h.not_compacts ahead])]
  exact h

/-- A push writes one record and does not compact. -/
theorem pushWithUlid (h : DiskLayout e xs i) (env : Env) (now : Nat) (queue : String) (id : Ulid)
    {payload : List UInt8} (fits : payload.length < 2 ^ 32) (delaySec : Nat) :
    ∃ x : WalEntry, x.2 = .push id queue (addU64 now delaySec) payload ∧
      DiskLayout (e.pushWithUlid env now queue id payload delaySec).1 (xs ++ [x]) i := by
  obtain ⟨disk, cursor⟩ := disk_pushUnchecked e now queue id payload delaySec
  have pushed := h.append (r := .push id queue (addU64 now delaySec) payload) fits disk cursor
  refine ⟨e.disk.newEntry (.push id queue (addU64 now delaySec) payload), rfl, ?_⟩
  unfold QueueEngine.pushWithUlid
  dsimp only
  split
  · exact pushed.check (by simpa using Nat.lt_succ_of_le h.inside) env
  · exact pushed

/-- So does an ack at a follower. -/
theorem ackFollower (h : DiskLayout e xs i) (queue : String) {messageId : String} {id : Ulid}
    (parsed : parseIdFast env messageId = some id) : ∃ x : WalEntry, x.2 = .ack id queue ∧
      DiskLayout (e.ackFollower env queue messageId).1 (xs ++ [x]) i := by
  refine ⟨e.disk.newEntry (.ack id queue), rfl, ?_⟩
  unfold QueueEngine.ackFollower
  rw [parsed]
  dsimp only
  split
  · refine check (h.append (r := .ack id queue) trivial ?_ ?_)
      (by simpa using Nat.lt_succ_of_le h.inside) env <;> rfl
  · refine h.append (r := .ack id queue) trivial ?_ ?_ <;> rfl

end DiskLayout

/-- The active segment is the records `rs`, all of them ahead of the cursor, and the
messages in memory are of Push records among them. -/
structure Fed (e : QueueEngine) (rs : List WalRecord) : Prop where
  log : ∃ xs : List WalEntry, DiskLayout e xs 0 ∧ xs.map Prod.snd = rs
  memory : e.Every fun id _ => ∃ r ∈ rs, r.isPush = true ∧ r.msgId = id

namespace Fed

variable {env : Env} {now : Nat} {e e' : QueueEngine} {rs : List WalRecord}

/-- An engine opened on an empty directory, once it is cleared. -/
theorem blank (env : Env) (opts : QueueOptions) (clock draws : Nat) :
    Fed (openDir env .empty opts clock draws).clearForRaftRecovery [] where
  log := ⟨[], (DiskLayout.fresh env opts clock).congr rfl rfl, rfl⟩
  memory s id msg found := by cases found

theorem every_mono {r : WalRecord} (h : Fed e rs) :
    e.Every fun id _ => ∃ r' ∈ rs ++ [r], r'.isPush = true ∧ r'.msgId = id := by
  intro s id msg found
  obtain ⟨r', inside, is⟩ := h.memory s id msg found
  exact ⟨r', List.mem_append_left _ inside, is⟩

theorem pushWithUlid (h : Fed e rs) (env : Env) (now : Nat) (queue : String) (id : Ulid)
    {payload : List UInt8} (fits : payload.length < 2 ^ 32) (delaySec : Nat) :
    Fed (e.pushWithUlid env now queue id payload delaySec).1
      (rs ++ [.push id queue (addU64 now delaySec) payload]) := by
  have memory : (e.pushWithUlid env now queue id payload delaySec).1.Every fun id' _ =>
      ∃ r ∈ rs ++ [.push id queue (addU64 now delaySec) payload],
        r.isPush = true ∧ r.msgId = id' :=
    Every.pushWithUlid h.every_mono env
      ⟨.push id queue (addU64 now delaySec) payload, by simp, rfl, rfl⟩
  obtain ⟨xs, layout, rfl⟩ := h.log
  obtain ⟨x, written, layout'⟩ := layout.pushWithUlid env now queue id fits delaySec
  exact ⟨⟨_, layout', by simp [written]⟩, memory⟩

theorem ackFollower (h : Fed e rs) (queue : String) {messageId : String} {id : Ulid}
    (parsed : parseIdFast env messageId = some id) :
    Fed (e.ackFollower env queue messageId).1 (rs ++ [.ack id queue]) := by
  have memory := (h.every_mono (r := .ack id queue)).ackFollower env queue messageId
  obtain ⟨xs, layout, rfl⟩ := h.log
  obtain ⟨x, written, layout'⟩ := layout.ackFollower queue parsed
  exact ⟨⟨_, layout', by simp [written]⟩, memory⟩

theorem installItem (h : Fed e rs) (env : Env) (now : Nat) {item : SnapshotItem}
    (fits : item.payload.length < 2 ^ 32) :
    Fed (RaftNode.installItem env now e item) (rs ++ (item.record env now).toList) := by
  rw [RaftNode.installItem_eq, SnapshotItem.record]
  cases item.readId env with
  | none => simpa using h
  | some id => exact h.pushWithUlid env now item.queue id fits (item.visibleAt - now)

theorem applyCommand (h : Fed e rs) (env : Env) (now : Nat) {command : RaftCommand}
    (fits : command.Small) :
    Fed (RaftNode.applyCommand env now e command) (rs ++ (command.record env now).toList) := by
  cases command with
  | push queue msgId payload visibleAt =>
      rw [RaftNode.applyCommand_push, RaftCommand.record]
      cases followerId env msgId with
      | none => simpa using h
      | some id => exact h.pushWithUlid env now queue id fits visibleAt
  | ack queue msgId receipt =>
      rw [RaftCommand.record]
      cases parsed : parseIdFast env msgId with
      | none =>
          have same : (e.ackFollower env queue msgId).1 = e := by
            rw [QueueEngine.ackFollower, parsed]
          simpa [RaftNode.applyCommand, same] using h
      | some id => exact h.ackFollower queue parsed

/-- Taking in one thing after another, each of which is at most one record. -/
theorem foldl {α : Type} (step : QueueEngine → α → QueueEngine) (record : α → Option WalRecord)
    {things : List α} (one : ∀ e rs, Fed e rs → ∀ a ∈ things, Fed (step e a) (rs ++ (record a).toList))
    (h : Fed e rs) : Fed (things.foldl step e) (rs ++ things.filterMap record) := by
  induction things generalizing e rs with
  | nil => simpa using h
  | cons a things ih =>
      have next := ih (fun e rs h b later => one e rs h b (by simp [later]))
        (one e rs h a (by simp))
      rw [List.append_assoc] at next
      cases taken : record a <;> simpa [taken] using next

/-- The engine has an unacked record of an id that has a Push and no Ack. -/
theorem hasUnackedPush (h : Fed e rs) (env : Env) (m : Ulid) : e.HasUnackedPush env m ↔
    (∃ r ∈ rs, r.isPush = true ∧ r.msgId = m) ∧ ∀ r ∈ rs, r.msgId = m → r.isPush = true := by
  obtain ⟨xs, layout, rfl⟩ := h.log
  rw [QueueEngine.HasUnackedPush, layout.activeRecords]
  simp only [List.mem_map, exists_exists_and_eq_and, forall_exists_index, and_imp,
    forall_apply_eq_imp_iff₂, msgId_readBack, isPush_readBack]

/-- What an engine retains of an id without an Ack is decided by its Push records. -/
theorem retains_iff (h : Fed e rs) (env : Env) {m : Ulid}
    (unacked : ∀ r ∈ rs, r.msgId = m → r.isPush = true) :
    e.Retains env m ↔ ∃ r ∈ rs, r.isPush = true ∧ r.msgId = m := by
  constructor
  · rintro (⟨s, inside⟩ | has)
    · obtain ⟨msg, found⟩ := (FMap.mem_iff_lookup _ _).1 inside
      exact h.memory s m msg found
    · exact ((h.hasUnackedPush env m).1 has).1
  · exact fun pushed => Or.inr ((h.hasUnackedPush env m).2 ⟨pushed, unacked⟩)

end Fed

namespace RaftNode

variable {env : Env} {codec : Postcard} {leader peer : RaftNode} {now : Nat}

/-! ## A whole sync -/

/-- The payloads a sync sends are under 4 GiB. -/
structure SendsSmall (env : Env) (n : RaftNode) : Prop where
  items : ∀ item ∈ (n.snapshotRequest env).items, item.payload.length < 2 ^ 32
  log : ∀ entry ∈ n.log, entry.command.Small

/-- The records a sync writes at a new peer. -/
def sentRecords (env : Env) (now : Nat) (n : RaftNode) : List WalRecord :=
  (n.snapshotRequest env).items.filterMap (SnapshotItem.record env now) ++
    (n.log.map (·.command)).filterMap (RaftCommand.record env now)

/-- The engine and the term of a follower that accepts a snapshot. -/
theorem handleInstallSnapshot_of_le (env : Env) (now : Nat) (n : RaftNode) {request : RaftInstallSnapshot}
    (accepted : n.currentTerm ≤ request.term) :
    (n.handleInstallSnapshot env now request).1.engine =
        request.items.foldl (installItem env now) n.engine.clearForRaftRecovery ∧
      (n.handleInstallSnapshot env now request).1.currentTerm = n.currentTerm := by
  unfold handleInstallSnapshot
  rw [if_neg (Nat.not_lt.2 accepted)]
  exact ⟨rfl, rfl⟩

theorem commandsOf_logRequest {request : RaftAppend}
    (sent : leader.logRequest codec = some request) :
    commandsOf codec request = leader.log.map (·.command) := by
  unfold logRequest at sent
  split at sent
  · cases sent
  · cases sent
    simp [commandsOf, List.filterMap_map, codec.fromBytes_toAllocvec]

/-- A new peer that accepts both requests has taken in all they hold. -/
theorem fed_sync (codec : Postcard) (now : Nat) {opts : QueueOptions} {clock draws : Nat}
    (blank : peer.engine = openDir env .empty opts clock draws)
    (accepted : peer.currentTerm ≤ leader.currentTerm) (small : leader.SendsSmall env) :
    Fed (leader.syncAllEntriesToPeer env codec now peer).engine (leader.sentRecords env now) := by
  have start := Fed.blank env opts clock draws
  rw [← blank] at start
  have installed := start.foldl (RaftNode.installItem env now) (SnapshotItem.record env now)
    fun e rs h item inside => h.installItem env now (small.items item inside)
  have snapshot : _ ∧ _ := peer.handleInstallSnapshot_of_le env now
    (show _ ≤ (leader.snapshotRequest env).term from accepted)
  rw [← snapshot.1, List.nil_append] at installed
  unfold syncAllEntriesToPeer sentRecords
  dsimp only
  cases sent : leader.logRequest codec with
  | none =>
      have none : leader.log = [] := by
        unfold logRequest at sent
        split at sent
        · assumption
        · cases sent
      simpa [none] using installed
  | some request =>
      have term : request.term = leader.currentTerm := by
        unfold logRequest at sent
        split at sent
        · cases sent
        · cases sent
          rfl
      dsimp only
      rw [(handleAppendEntries_engine env codec now _ request).1, snapshot.2, applied,
        List.filter_cons_of_pos (by simpa [term] using accepted)]
      simp only [List.filter_nil, List.flatMap_cons, List.flatMap_nil, List.append_nil,
        commandsOf_logRequest sent]
      rw [List.foldl_map]
      refine installed.foldl (fun e c => applyAt env e (now, c)) (RaftCommand.record env now) ?_
      intro e rs h command inside
      obtain ⟨entry, logged, rfl⟩ := List.mem_map.1 inside
      exact h.applyCommand env now (small.log entry logged)

/-- The Push records a sync writes are of the messages in RAM and of the Push entries. -/
theorem sentRecords_push (texts : env.UlidTexts) (uuids : env.UuidTexts) (m : Ulid) :
    (∃ r ∈ leader.sentRecords env now, r.isPush = true ∧ r.msgId = m) ↔
      leader.engine.InMemory m ∨ ∃ entry ∈ leader.log, ∃ s, entry.command.pushes env = some (s, m) := by
  have readId : ∀ (id : Ulid) queue visibleAt payload,
      SnapshotItem.readId env ⟨env.ulidToString id, queue, visibleAt, payload⟩ = some id := by
    intro id queue visibleAt payload
    have length := texts.length _ id (texts.read id)
    have noUuid : env.uuidParseStr (env.ulidToString id) = none := by
      cases parsed : env.uuidParseStr (env.ulidToString id) with
      | none => rfl
      | some u => exact absurd length (uuids.length _ u parsed)
    simp [SnapshotItem.readId, noUuid, texts.read]
  unfold sentRecords
  simp only [List.mem_append, or_and_right, exists_or]
  refine or_congr ?_ ?_
  · constructor
    · rintro ⟨r, sent, _, same⟩
      obtain ⟨item, inside, record⟩ := List.mem_filterMap.1 sent
      obtain ⟨⟨id, queue, visibleAt, payload⟩, survives, rfl⟩ := List.mem_map.1 inside
      obtain ⟨s, msg, found, _⟩ := mem_surviving.1 survives
      simp only [SnapshotItem.record, readId, Option.map_some, Option.some.injEq] at record
      subst record
      exact ⟨s, (FMap.mem_iff_lookup _ _).2 ⟨msg, same ▸ found⟩⟩
    · rintro ⟨s, inside⟩
      obtain ⟨msg, found⟩ := (FMap.mem_iff_lookup _ _).1 inside
      have survives : (m, msg.queue, msg.visibleAt, msg.payload) ∈ leader.engine.surviving env :=
        mem_surviving.2 ⟨s, msg, found, rfl⟩
      refine ⟨.push m msg.queue (addU64 now (msg.visibleAt - now)) msg.payload,
        List.mem_filterMap.2 ⟨_, List.mem_map.2 ⟨_, survives, rfl⟩, ?_⟩, rfl, rfl⟩
      simp [SnapshotItem.record, readId]
  · constructor
    · rintro ⟨r, sent, is⟩
      obtain ⟨command, inside, record⟩ := List.mem_filterMap.1 sent
      obtain ⟨entry, logged, rfl⟩ := List.mem_map.1 inside
      exact ⟨entry, logged, (RaftCommand.record_push env now).1 ⟨r, record, is⟩⟩
    · rintro ⟨entry, logged, pushes⟩
      obtain ⟨r, record, is⟩ := (RaftCommand.record_push env now).2 pushes
      exact ⟨r, List.mem_filterMap.2 ⟨_, List.mem_map_of_mem logged, record⟩, is⟩

/-- A sync writes no Ack record of an id that no Ack entry names. -/
theorem sentRecords_ack {m : Ulid}
    (none : ∀ entry ∈ leader.log, ∀ s, entry.command.acks env ≠ some (s, m)) :
    ∀ r ∈ leader.sentRecords env now, r.msgId = m → r.isPush = true := by
  intro r sent same
  rcases List.mem_append.1 sent with fromItem | fromLog
  · obtain ⟨item, _, record⟩ := List.mem_filterMap.1 fromItem
    obtain ⟨id, _, rfl⟩ := Option.map_eq_some_iff.1 record
    rfl
  · obtain ⟨command, inside, record⟩ := List.mem_filterMap.1 fromLog
    obtain ⟨entry, logged, rfl⟩ := List.mem_map.1 inside
    exact (RaftCommand.record_ack env now).2 (none entry logged) r record same

/-- A sync to a new peer transfers all that the leader retains exactly when the log still has
the Push entry of every message that is on disk only. -/
theorem catches_up (texts : env.UlidTexts) (uuids : env.UuidTexts) {opts : QueueOptions}
    {clock draws : Nat} (codec : Postcard) (now : Nat)
    (blank : peer.engine = openDir env .empty opts clock draws)
    (accepted : peer.currentTerm ≤ leader.currentTerm) (small : leader.SendsSmall env)
    (unacked : ∀ m, leader.engine.Retains env m →
      ∀ entry ∈ leader.log, ∀ s, entry.command.acks env ≠ some (s, m)) :
    (∀ m, leader.engine.Retains env m →
        (leader.syncAllEntriesToPeer env codec now peer).engine.Retains env m) ↔
      ∀ m, leader.engine.HasUnackedPush env m → ¬ leader.engine.InMemory m →
        ∃ entry ∈ leader.log, ∃ s, entry.command.pushes env = some (s, m) := by
  have fed := fed_sync codec now blank accepted small
  have arrives : ∀ m, leader.engine.Retains env m →
      ((leader.syncAllEntriesToPeer env codec now peer).engine.Retains env m ↔
        leader.engine.InMemory m ∨
          ∃ entry ∈ leader.log, ∃ s, entry.command.pushes env = some (s, m)) := by
    intro m retained
    rw [fed.retains_iff env (sentRecords_ack (unacked m retained)), sentRecords_push texts uuids]
  constructor
  · intro all m has outside
    have there := (arrives m (Or.inr has)).1 (all m (Or.inr has))
    exact there.resolve_left outside
  · intro logged m retained
    refine (arrives m retained).2 ?_
    by_cases inside : leader.engine.InMemory m
    · exact Or.inl inside
    · exact Or.inr (logged m (retained.resolve_left inside) inside)

/-- Two messages for one hour later, pushed to a leader without peers. -/
def sampleFarPush : LeaderOp :=
  .push 1600000000 [] "a" [(ulidText 1, [1], 3600), (ulidText 2, [2], 3600)]

/-- The leader cuts its log when its threshold is 2: neither RAM nor log has the messages
then, and the peer gets nothing. -/
theorem catches_up_with_nothing :
    let leader := LeaderOp.step .sample .format { sampleLeader with compactionThreshold := 2 }
      sampleFarPush
    let after := leader.syncAllEntriesToPeer .sample .format 1600000000 sampleFollower
    (leader.snapshotRequest .sample).items = [] ∧ leader.logRequest .format = none ∧
      leader.engine.Retains .sample 1 ∧ ¬ after.engine.Retains .sample 1 := by
  decide +kernel

/-- With the threshold of 10000 the log has them. -/
theorem catches_up_sample :
    let leader := LeaderOp.step .sample .format sampleLeader sampleFarPush
    let after := leader.syncAllEntriesToPeer .sample .format 1600000000 sampleFollower
    leader.engine.HasUnackedPush .sample 1 ∧ ¬ leader.engine.InMemory 1 ∧
      ∀ m, leader.engine.Retains .sample m → after.engine.Retains .sample m := by
  intro leader after
  have uuids : Env.sample.UuidTexts := ⟨fun _ _ parsed => by cases parsed⟩
  have small : leader.SendsSmall .sample := ⟨by decide +kernel, by decide +kernel⟩
  have noAck : ∀ entry ∈ leader.log, entry.command.acks .sample = none := by decide +kernel
  have logged : ∀ r ∈ leader.engine.disk.activeRecords .sample,
      ∃ entry ∈ leader.log, entry.command.pushes .sample = some (shardIdx "a", r.msgId) := by
    decide +kernel
  refine ⟨by decide +kernel, by decide +kernel, ?_⟩
  refine (catches_up Env.sample_ulidTexts uuids .format 1600000000 rfl (by decide) small ?_).2 ?_
  · intro m _ entry inside s
    simp [noAck entry inside]
  · rintro m ⟨⟨r, written, _, rfl⟩, _⟩ _
    obtain ⟨entry, inside, pushes⟩ := logged r written
    exact ⟨entry, inside, _, pushes⟩

end RaftNode

end WalrQueue
