import WalrQueue.CatchUp
import WalrQueue.Failover
import WalrQueue.VisibilityTimes

/-!
# Visibility times after a failover

A Push command carries a delay, which every node counts from the time at which it applies the
command.  A new leader without a snapshot applies its log once more.  That moves the messages
that go into memory; of a message that stays on disk the replica's own first record is still
in the log, ahead of the new one.
-/

namespace WalrQueue

open QueueEngine

/-! ## The time an engine has for an id -/

/-- The visibility time in a Push record of the id. -/
def WalRecord.timeOf (id : Ulid) : WalRecord → Option Nat
  | .push msgId _ visibleAt _ => if msgId = id then some visibleAt else none
  | .ack .. => none

/-- The records from the page-in cursor to the end of the active segment. -/
def QueueEngine.unread (env : Env) (e : QueueEngine) : List WalRecord :=
  readWalFile env e.disk.registry (e.disk.active.drop e.spillReadOffset)

/-- The visibility time an engine has for an id that is not acked: that of its message in
memory, or else that of the first Push record page-in comes to. -/
def QueueEngine.visibleAt? (env : Env) (e : QueueEngine) (s : Fin numShards) (id : Ulid) :
    Option Nat :=
  match AList.lookup id (e.shards s).messages with
  | some msg => some msg.visibleAt
  | none => (e.unread env).findSome? (WalRecord.timeOf id)

theorem DiskLayout.unread {e : QueueEngine} {xs : List WalEntry} {i : Nat}
    (h : DiskLayout e xs i) (env : Env) :
    e.unread env = (xs.drop i).map (readBack e.disk.registry) := by
  have dropped : e.disk.active.drop e.spillReadOffset = segment (xs.drop i) := by
    rw [h.cursor, h.holds.active, ← segment_take_drop xs i, List.drop_left]
  rw [QueueEngine.unread, dropped,
    readWalFile_segment fun x member => h.holds.fits x (List.mem_of_mem_drop member)]

/-- The time of an entry is read back as it was stored. -/
theorem timeOf_readBack (reg : QueueRegistry) (id : Ulid) (x : WalEntry) :
    (readBack reg x).timeOf id = (x.2.timeOf id).map storedTime := by
  obtain ⟨qId, record⟩ := x
  cases record with
  | ack msgId queueName => rfl
  | push msgId queueName visibleAt payload =>
      simp only [readBack, WalRecord.timeOf]
      split <;> rfl

/-- The first Push record of an id when the entries before `ys` have none, and those of `ys`
have one time. -/
theorem DiskLayout.unread_time {e : QueueEngine} {xs ys zs : List WalEntry} {i v : Nat} {id : Ulid}
    (h : DiskLayout e (xs ++ ys ++ zs) i) (env : Env) (start : i ≤ xs.length)
    (before : ∀ x ∈ xs, x.2.timeOf id = none) (one : ∃ y ∈ ys, (y.2.timeOf id).isSome)
    (same : ∀ y ∈ ys, ∀ time ∈ y.2.timeOf id, time = v) :
    (e.unread env).findSome? (WalRecord.timeOf id) = some (storedTime v) := by
  have skipped : (xs.drop i).findSome? (fun x => (x.2.timeOf id).map storedTime) = none := by
    refine List.findSome?_eq_none_iff.2 fun x member => ?_
    rw [before x (List.mem_of_mem_drop member)]
    rfl
  have found : ys.findSome? (fun x => (x.2.timeOf id).map storedTime) = some (storedTime v) := by
    cases first : ys.findSome? (fun x => (x.2.timeOf id).map storedTime) with
    | none =>
        obtain ⟨y, member, some⟩ := one
        have none := List.findSome?_eq_none_iff.1 first y member
        rw [Option.map_eq_none_iff] at none
        rw [none] at some
        cases some
    | some time =>
        obtain ⟨y, member, is⟩ := List.exists_of_findSome?_eq_some first
        obtain ⟨time', here, rfl⟩ := Option.map_eq_some_iff.1 is
        rw [same y member time' here]
  rw [h.unread, List.findSome?_map]
  have read : (WalRecord.timeOf id ∘ readBack e.disk.registry) =
      fun x : WalEntry => (x.2.timeOf id).map storedTime :=
    funext fun x => timeOf_readBack _ id x
  rw [read, List.append_assoc, List.drop_append_of_le_length start, List.findSome?_append,
    List.findSome?_append, skipped, found]
  rfl

/-! ## What a replica writes -/

namespace DiskLayout

variable {env : Env} {e : QueueEngine} {xs : List WalEntry} {i : Nat}

theorem applyCommand (h : DiskLayout e xs i) (env : Env) (now : Nat) {command : RaftCommand}
    (fits : command.Small) : ∃ ys : List WalEntry,
      ys.map Prod.snd = (command.record env now).toList ∧
      DiskLayout (RaftNode.applyCommand env now e command) (xs ++ ys) i := by
  cases command with
  | push queue msgId payload visibleAt =>
      rw [RaftNode.applyCommand_push, RaftCommand.record]
      cases RaftCommand.followerId env msgId with
      | none => exact ⟨[], rfl, by simpa using h⟩
      | some id =>
          obtain ⟨x, written, layout⟩ := h.pushWithUlid env now queue id fits visibleAt
          exact ⟨[x], by simp [written], layout⟩
  | ack queue msgId receipt =>
      rw [RaftCommand.record]
      cases parsed : parseIdFast env msgId with
      | none =>
          have same : (e.ackFollower env queue msgId).1 = e := by
            rw [QueueEngine.ackFollower, parsed]
          exact ⟨[], rfl, by simpa [RaftNode.applyCommand, same] using h⟩
      | some id =>
          obtain ⟨x, written, layout⟩ := h.ackFollower queue parsed
          exact ⟨[x], by simp [written], layout⟩

theorem applyCommands (h : DiskLayout e xs i) (env : Env) {cs : List (Nat × RaftCommand)}
    (fits : ∀ c ∈ cs, c.2.Small) : ∃ ys : List WalEntry,
      ys.map Prod.snd = cs.filterMap (fun c => c.2.record env c.1) ∧
      DiskLayout (cs.foldl (RaftNode.applyAt env) e) (xs ++ ys) i := by
  induction cs generalizing e xs with
  | nil => exact ⟨[], rfl, by simpa using h⟩
  | cons c cs ih =>
      obtain ⟨ys, written, layout⟩ := h.applyCommand env c.1 (fits c (by simp))
      obtain ⟨zs, written', layout'⟩ := ih layout fun c' later => fits c' (by simp [later])
      refine ⟨ys ++ zs, ?_, by simpa [RaftNode.applyAt] using layout'⟩
      rw [List.map_append, written, written', List.filterMap_cons]
      cases c.2.record env c.1 <;> rfl

/-- Taking over only adds to the log; without a snapshot it rewinds the cursor. -/
theorem recoverAsNewLeader {n : RaftNode} (h : DiskLayout n.engine xs i)
    (fits : ∀ entry ∈ n.log, entry.command.Small) (env : Env) (now : Nat) :
    ∃ zs, DiskLayout (n.recoverAsNewLeader env now).engine (xs ++ zs)
      (if n.snapshotIndex = 0 then 0 else i) := by
  refine RaftNode.recoverAsNewLeader_induction (P := fun e => ∃ zs, DiskLayout e (xs ++ zs)
    (if n.snapshotIndex = 0 then 0 else i)) ⟨[], ?_⟩ fun e before entry member r replayedAs => ?_
  · rw [RaftNode.replayBase, List.append_nil]
    by_cases start : n.snapshotIndex = 0
    · rw [if_neg (by omega), if_pos start]
      exact h.rewind.congr rfl rfl
    · rw [if_pos (by omega), if_neg start]
      exact h
  · obtain ⟨zs, layout⟩ := before
    obtain ⟨msgId, command, _, _⟩ := RaftNode.replayed_eq_some replayedAs
    have logged : entry ∈ n.log := by
      unfold RaftNode.replayedLog at member
      split at member
      · exact (List.mem_filter.1 member).1
      · exact member
    have small := fits entry logged
    rw [command] at small
    obtain ⟨x, _, layout'⟩ := layout.pushWithUlid env now r.queue r.id small r.delay
    exact ⟨zs ++ [x], by simpa using layout'⟩

end DiskLayout

namespace RaftNode

open RaftCommand

variable {env : Env} {now : Nat} {n : RaftNode} {e : QueueEngine} {queue : String}
  {payload : List UInt8} {delay : Nat} {id : Ulid}

/-! ## In memory -/

/-- The delay a Push command carries. -/
def delayOf : RaftCommand → Nat
  | .push _ _ _ delay => delay
  | .ack .. => 0

/-- When the id is in memory, it is visible at `v`. -/
def VisibleAt (e : QueueEngine) (s : Fin numShards) (m : Ulid) (v : Nat) : Prop :=
  ∀ msg, AList.lookup m (e.shards s).messages = some msg → msg.visibleAt = v

variable {s : Fin numShards} {m : Ulid} {v : Nat}

theorem VisibleAt.pushWithUlid (h : VisibleAt e s m v)
    (new : (shardIdx queue, id) = (s, m) → m ∉ (e.shards s).seenIds → addU64 now delay = v) :
    VisibleAt (e.pushWithUlid env now queue id payload delay).1 s m v := by
  intro msg found
  rcases QueueEngine.lookup_pushWithUlid (e := e) s with ⟨same, _⟩ | ⟨key, unseen, _, stored⟩
  · rw [same] at found
    exact h msg found
  · rw [stored] at found
    cases found
    exact new key unseen

theorem VisibleAt.command (h : VisibleAt e s m v) (c : Nat × RaftCommand)
    (new : c.2.pushes env = some (s, m) → m ∉ (e.shards s).seenIds →
      addU64 c.1 (delayOf c.2) = v) : VisibleAt (applyAt env e c) s m v := by
  obtain ⟨now, command⟩ := c
  cases command with
  | push queue msgId payload delay =>
      unfold applyAt
      rw [applyCommand_push]
      cases read : followerId env msgId with
      | none => exact h
      | some id =>
          refine h.pushWithUlid fun key unseen => new ?_ unseen
          simp only [pushes, read, Option.map_some, key]
  | ack queue msgId receipt =>
      unfold applyAt applyCommand
      cases read : QueueEngine.parseIdFast env msgId with
      | none => simpa [QueueEngine.ackFollower, read] using h
      | some id =>
          intro msg found
          dsimp only at found
          rw [QueueEngine.shards_ackFollower e queue read] at found
          by_cases same : s = shardIdx queue
          · subst same
            rw [QueueEngine.shards_setShard] at found
            simp only [ShardState.applyAck, ShardState.messages_markDeleted,
              FMap.lookup_erase_ite] at found
            split at found
            · cases found
            · exact h msg found
          · rw [QueueEngine.shards_setShard_of_ne same] at found
            exact h msg found

/-- Commands of an id that was seen before do not change when it is visible. -/
theorem VisibleAt.run (h : VisibleAt e s m v) (seen : m ∈ (e.shards s).seenIds)
    (cs : List (Nat × RaftCommand)) :
    VisibleAt (cs.foldl (applyAt env) e) s m v ∧
      m ∈ ((cs.foldl (applyAt env) e).shards s).seenIds := by
  induction cs generalizing e with
  | nil => exact ⟨h, seen⟩
  | cons c cs ih =>
      refine ih (h.command c fun _ unseen => absurd seen unseen) ?_
      exact (applyAt_keyStep env e c s m).seen.2 (Or.inl seen)

/-- Commands applied at one time make an id visible at that time plus its delay. -/
theorem VisibleAt.apply (h : VisibleAt e s m (addU64 now delay)) (env : Env)
    (commands : List RaftCommand)
    (delays : ∀ c ∈ commands, c.pushes env = some (s, m) → delayOf c = delay) :
    VisibleAt ((commands.map (Prod.mk now)).foldl (applyAt env) e) s m (addU64 now delay) ∧
      ((∃ c ∈ commands, c.pushes env = some (s, m)) →
        m ∈ (((commands.map (Prod.mk now)).foldl (applyAt env) e).shards s).seenIds) := by
  induction commands generalizing e with
  | nil => simpa using h
  | cons c commands ih =>
      have step : VisibleAt (applyAt env e (now, c)) s m (addU64 now delay) :=
        h.command (now, c) fun pushed _ => congrArg (addU64 now) (delays c (by simp) pushed)
      obtain ⟨visible, seen⟩ := ih step fun c' member => delays c' (by simp [member])
      refine ⟨visible, ?_⟩
      rintro ⟨c', member, pushed⟩
      rcases List.mem_cons.1 member with rfl | later
      · exact (step.run ((applyAt_keyStep env e (now, c') s m).seen.2 (Or.inr pushed)) _).2
      · exact seen ⟨c', later, pushed⟩

/-- Every Push of the id that a new leader replays from the log carries the delay. -/
def DelayInLog (env : Env) (log : List LogEntry) (s : Fin numShards) (m : Ulid) (delay : Nat) :
    Prop :=
  ∀ entry ∈ log, ∀ r ∈ replayed env (ackedIds log) entry, (shardIdx r.queue, r.id) = (s, m) →
    r.delay = delay

instance (env : Env) (log : List LogEntry) (s : Fin numShards) (m : Ulid) (delay : Nat) :
    Decidable (DelayInLog env log s m delay) :=
  decidable_of_iff ((log.all fun entry => (replayed env (ackedIds log) entry).all fun r => decide
    ((shardIdx r.queue, r.id) = (s, m) → r.delay = delay)) = true)
    (by simp only [DelayInLog, List.all_eq_true, Option.all_eq_true, decide_eq_true_eq,
      Option.mem_def])

/-- Recovery without a snapshot makes an id visible at its own time plus the delay. -/
theorem visibleAt_recover_of_log (start : n.snapshotIndex = 0)
    (delays : DelayInLog env n.log s m delay) :
    VisibleAt (n.recoverAsNewLeader env now).engine s m (addU64 now delay) := by
  refine recoverAsNewLeader_induction (P := fun e => VisibleAt e s m (addU64 now delay)) ?_
    fun e h entry member r replayedAs => ?_
  · rw [replayBase, if_neg (by omega)]
    exact fun msg found => by cases found
  · rw [replayedLog, if_neg (by omega)] at member
    exact h.pushWithUlid fun key _ => by rw [delays entry member r replayedAs key]

/-- Recovery after a snapshot leaves an id that was seen as it was. -/
theorem visibleAt_recover_of_snapshot (start : 0 < n.snapshotIndex)
    (seen : m ∈ (n.engine.shards s).seenIds) (h : VisibleAt n.engine s m v) :
    VisibleAt (n.recoverAsNewLeader env now).engine s m v := by
  have kept : VisibleAt (n.recoverAsNewLeader env now).engine s m v ∧
      m ∈ ((n.recoverAsNewLeader env now).engine.shards s).seenIds := by
    refine recoverAsNewLeader_induction
      (P := fun e => VisibleAt e s m v ∧ m ∈ (e.shards s).seenIds) ?_
      fun e h entry member r replayedAs => ?_
    · rw [replayBase, if_pos start]
      exact ⟨h, seen⟩
    · exact ⟨h.1.pushWithUlid fun _ unseen => absurd h.2 unseen,
        (QueueEngine.seenIds_pushWithUlid s).2 (Or.inl h.2)⟩
  exact kept.1

/-- Recovery without a snapshot leaves an id on disk when it is delayed beyond the horizon. -/
theorem notMem_recover_of_far (start : n.snapshotIndex = 0)
    (delays : DelayInLog env n.log s m delay) (far : hotDelayHorizonSec < delay)
    (clock : now + delay < 2 ^ 64) :
    m ∉ ((n.recoverAsNewLeader env now).engine.shards s).messages := by
  refine recoverAsNewLeader_induction (P := fun e => m ∉ (e.shards s).messages) ?_
    fun e h entry member r replayedAs => ?_
  · rw [replayBase, if_neg (by omega)]
    exact AList.notMem_empty m
  · rw [replayedLog, if_neg (by omega)] at member
    rw [FMap.mem_iff_lookup] at h ⊢
    rcases QueueEngine.lookup_pushWithUlid (e := e) s with ⟨same, _⟩ | ⟨key, _, enters, _⟩
    · rw [same]
      exact h
    · have near := enters.1
      rw [delays entry member r replayedAs key, addU64_of_lt clock, addU64_of_lt (by omega)] at near
      omega

/-! ## A replica that takes over -/

/-- The record of a command has a time for the id exactly when the command pushes it. -/
theorem timeOf_record {command : RaftCommand} {r : WalRecord} {time : Nat}
    (record : command.record env now = some r) : r.timeOf id = some time ↔
      (∃ s, command.pushes env = some (s, id)) ∧ time = addU64 now (delayOf command) := by
  cases command with
  | ack queue msgId receipt =>
      obtain ⟨parsed, _, rfl⟩ := Option.map_eq_some_iff.1 record
      simp [WalRecord.timeOf, pushes]
  | push queue msgId payload visibleAt =>
      obtain ⟨read, found, rfl⟩ := Option.map_eq_some_iff.1 record
      simp only [WalRecord.timeOf, pushes, found, delayOf]
      by_cases same : read = id
      · simp [same, eq_comm]
      · simp [same]

/-- An accepted request is applied at the time it arrives, before what arrives later. -/
theorem applied_cons (codec : Postcard) {term : Nat} {request : RaftAppend} (ta : Nat)
    (later : List (Nat × RaftAppend)) (accepted : term ≤ request.term) :
    applied codec term ((ta, request) :: later) =
      (commandsOf codec request).map (Prod.mk ta) ++ applied codec term later := by
  simp [applied, accepted]

/-- A replica that applied a request at `ta` keeps the message visible at that time plus the
delay. -/
theorem visibleAt_delivered {codec : Postcard} {replica : RaftNode} {ta : Nat}
    {request : RaftAppend} (later : List (Nat × RaftAppend))
    (accepted : replica.currentTerm ≤ request.term)
    (absent : id ∉ (replica.engine.shards s).messages)
    (pushed : ∃ c ∈ commandsOf codec request, c.pushes env = some (s, id))
    (delays : ∀ c ∈ commandsOf codec request, c.pushes env = some (s, id) → delayOf c = delay) :
    VisibleAt (replica.deliver env codec ((ta, request) :: later)).engine s id (addU64 ta delay) ∧
      id ∈ ((replica.deliver env codec ((ta, request) :: later)).engine.shards s).seenIds := by
  have before : VisibleAt replica.engine s id (addU64 ta delay) :=
    fun msg found => absurd (FMap.mem_of_lookup found) absent
  obtain ⟨visible, seen⟩ := before.apply env (commandsOf codec request) delays
  rw [(deliver_engine env codec replica _).1, applied_cons codec ta later accepted, List.foldl_append]
  exact visible.run (seen pushed) (applied codec replica.currentTerm later)

/-- A replica that got a request while its log had no Push record of an id, and applied it at
`ta`: when it takes over, the first such record page-in comes to is of that time. -/
theorem unread_recovered {codec : Postcard} {replica held : RaftNode} {ta t' : Nat}
    {request : RaftAppend} {later : List (Nat × RaftAppend)} {xs : List WalEntry} {i : Nat}
    (layout : DiskLayout replica.engine xs i) (unwritten : ∀ x ∈ xs, x.2.timeOf id = none)
    (accepted : replica.currentTerm ≤ request.term)
    (pushed : ∃ c ∈ commandsOf codec request, c.pushes env = some (shardIdx queue, id))
    (delays : ∀ c ∈ commandsOf codec request, ∀ s, c.pushes env = some (s, id) →
      delayOf c = delay)
    (small : ∀ c ∈ applied codec replica.currentTerm ((ta, request) :: later), c.2.Small)
    (arrived : held = replica.deliver env codec ((ta, request) :: later))
    (smallLog : ∀ entry ∈ held.log, entry.command.Small) :
    ((held.recoverAsNewLeader env t').engine.unread env).findSome? (WalRecord.timeOf id) =
      some (storedTime (addU64 ta delay)) := by
  have applies := applied_cons codec ta later accepted
  have inside := layout.inside
  rw [applies] at small
  obtain ⟨ys, wrote, layout⟩ := layout.applyCommands env fun c member =>
    small c (List.mem_append_left _ member)
  obtain ⟨zs, _, layout⟩ := layout.applyCommands env fun c member =>
    small c (List.mem_append_right _ member)
  rw [← List.foldl_append, ← applies, ← (deliver_engine env codec replica _).1, ← arrived] at layout
  obtain ⟨more, layout⟩ := layout.recoverAsNewLeader smallLog env t'
  rw [List.append_assoc (xs ++ ys)] at layout
  have source : ∀ y ∈ ys, ∃ c ∈ commandsOf codec request, c.record env ta = some y.2 := by
    intro y member
    have written : y.2 ∈ ys.map Prod.snd := List.mem_map_of_mem member
    rw [wrote, List.filterMap_map] at written
    exact List.mem_filterMap.1 written
  refine layout.unread_time env ?_ unwritten ?_ fun y member time is => ?_
  · split
    · exact Nat.zero_le _
    · exact inside
  · obtain ⟨c, member, pushes⟩ := pushed
    obtain ⟨r, record, _⟩ := (RaftCommand.record_push env ta).2 ⟨_, pushes⟩
    have written : r ∈ ys.map Prod.snd := by
      rw [wrote, List.filterMap_map]
      exact List.mem_filterMap.2 ⟨c, member, record⟩
    obtain ⟨y, wrote, rfl⟩ := List.mem_map.1 written
    exact ⟨y, wrote, Option.isSome_iff_exists.2 ⟨_, (timeOf_record record).2 ⟨⟨_, pushes⟩, rfl⟩⟩⟩
  · obtain ⟨c, member, record⟩ := source y member
    obtain ⟨⟨s, pushes⟩, rfl⟩ := (timeOf_record record).1 is
    rw [delays c member s pushes]

/-- A follower that has applied a push of message 6. -/
def busyFollower : RaftNode :=
  sampleFollower.deliver .sample .format ((sampleLeader.proposePushBatch .sample .format 1600000000
    [] "a" [(ulidText 6, [1], 0)]).2.2.toList.map (Prod.mk 1600000000))

theorem layout_busyFollower : ∃ xs, DiskLayout busyFollower.engine xs 0 ∧
    xs.map Prod.snd = [.push 6 "a" 1600000000 [1]] := by
  have fits : (WalRecord.push 6 "a" 1600000000 [1]).Fits := by
    rw [WalRecord.Fits]
    decide
  have cursor : busyFollower.engine.spillReadOffset = 0 := by decide +kernel
  exact ⟨_, (DiskLayout.fresh .sample .default 1600000000).append fits rfl cursor, rfl⟩

/-- It also gets a push with the given delay, at the time it was made. -/
def delayedFollower (delay : Nat) : RaftNode :=
  busyFollower.deliver .sample .format ((sampleLeader.proposePushBatch .sample .format 1600000000
    [] "a" [(ulidText 7, [1], delay)]).2.2.toList.map (Prod.mk 1600000000))

end RaftNode

end WalrQueue
