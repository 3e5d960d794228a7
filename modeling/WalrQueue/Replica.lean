import WalrQueue.Presence
import WalrQueue.Raft
import WalrQueue.Run

/-!
# Commands at a replica

What a Push and an Ack command do to one id of one shard, and from that what a
follower ends up with.  A push looks at the ids it has seen and not at those it
has acked, so the order in which requests arrive matters only to a Push that
arrives after the Ack of its id.
-/

namespace WalrQueue

namespace QueueEngine

variable {env : Env} {e : QueueEngine} {now delaySec : Nat} {queue : String} {id m : Ulid}
  {payload : List UInt8}

/-! ## One push -/

/-- A push of an id not seen before stores its message in memory. -/
def Enters (e : QueueEngine) (now : Nat) (queue : String) (id : Ulid) (delaySec : Nat) : Prop :=
  addU64 now delaySec ≤ addU64 now hotDelayHorizonSec ∧
    e.totalMessagesInRam < e.options.maxHotMessagesInRam ∧
    id ∉ (e.shards (shardIdx queue)).messages

/-- What `push_with_ulid` does to the shards, the counter and the options. -/
theorem pushWithUlid_cases (env : Env) (e : QueueEngine) (now : Nat) (queue : String) (id : Ulid)
    (payload : List UInt8) (delaySec : Nat) :
    let s := shardIdx queue
    let see := { e.shards s with seenIds := insert id (e.shards s).seenIds }
    let done := (e.pushWithUlid env now queue id payload delaySec).1
    done.options = e.options ∧
    ((id ∈ (e.shards s).seenIds ∧ done.shards = e.shards ∧
        done.totalMessagesInRam = e.totalMessagesInRam) ∨
      (id ∉ (e.shards s).seenIds ∧ ¬ e.Enters now queue id delaySec ∧
        done.shards = (e.setShard s see).shards ∧
        done.totalMessagesInRam = e.totalMessagesInRam) ∨
      (id ∉ (e.shards s).seenIds ∧ e.Enters now queue id delaySec ∧
        done.shards = (e.setShard s (ShardState.store see now
          (e.newMsg queue id payload (addU64 now delaySec)))).shards ∧
        done.totalMessagesInRam = fetchAdd e.totalMessagesInRam 1)) := by
  dsimp only
  unfold pushWithUlid pushUnchecked
  dsimp only
  by_cases seen : id ∈ (e.shards (shardIdx queue)).seenIds
  · rw [if_pos seen]
    exact ⟨rfl, Or.inl ⟨seen, rfl, rfl⟩⟩
  · rw [if_neg seen]
    dsimp only
    rw [if_pos rfl, options_checkAndTriggerCompaction, shards_checkAndTriggerCompaction,
      ram_checkAndTriggerCompaction]
    unfold pushSection
    dsimp only
    split
    · rename_i enters
      exact ⟨rfl, Or.inr (Or.inr ⟨seen, enters, rfl, rfl⟩)⟩
    · rename_i stays
      exact ⟨rfl, Or.inr (Or.inl ⟨seen, stays, rfl, rfl⟩)⟩

theorem seenIds_pushWithUlid (s : Fin numShards) :
    m ∈ ((e.pushWithUlid env now queue id payload delaySec).1.shards s).seenIds ↔
      m ∈ (e.shards s).seenIds ∨ (shardIdx queue, id) = (s, m) := by
  obtain ⟨_, ⟨seen, eq, _⟩ | ⟨_, _, eq, _⟩ | ⟨_, _, eq, _⟩⟩ :=
    pushWithUlid_cases env e now queue id payload delaySec
  all_goals
    rw [eq]
    by_cases same : s = shardIdx queue
    · subst same
      simp only [shards_setShard, ShardState.seenIds_store, Finset.mem_insert, Prod.mk.injEq,
        true_and]
      grind
    · simp [same, Ne.symm same]

theorem ackedIds_pushWithUlid (s : Fin numShards) :
    ((e.pushWithUlid env now queue id payload delaySec).1.shards s).ackedIds =
      (e.shards s).ackedIds := by
  obtain ⟨_, ⟨seen, eq, _⟩ | ⟨_, _, eq, _⟩ | ⟨_, _, eq, _⟩⟩ :=
    pushWithUlid_cases env e now queue id payload delaySec
  · rw [eq]
  all_goals
    rw [eq]
    by_cases same : s = shardIdx queue
    · subst same
      simp
    · simp [same]

/-- The message an id has after a push: its own if it has one, else the new one when
the push is the first of the id and stores it. -/
theorem lookup_pushWithUlid (s : Fin numShards) :
    (AList.lookup m ((e.pushWithUlid env now queue id payload delaySec).1.shards s).messages =
        AList.lookup m (e.shards s).messages ∧
      ((shardIdx queue, id) = (s, m) → m ∉ (e.shards s).seenIds →
        ¬ e.Enters now queue id delaySec)) ∨
    ((shardIdx queue, id) = (s, m) ∧ m ∉ (e.shards s).seenIds ∧
      e.Enters now queue id delaySec ∧
      AList.lookup m ((e.pushWithUlid env now queue id payload delaySec).1.shards s).messages =
        some (e.newMsg queue id payload (addU64 now delaySec))) := by
  obtain ⟨_, ⟨seen, eq, _⟩ | ⟨unseen, out, eq, _⟩ | ⟨unseen, enters, eq, _⟩⟩ :=
    pushWithUlid_cases env e now queue id payload delaySec
  · refine Or.inl ⟨by rw [eq], fun key unseen => absurd ?_ unseen⟩
    cases key
    exact seen
  · refine Or.inl ⟨?_, fun _ _ => out⟩
    rw [eq]
    by_cases same : s = shardIdx queue
    · subst same
      simp
    · simp [same]
  · rw [eq]
    by_cases key : (shardIdx queue, id) = (s, m)
    · cases key
      refine Or.inr ⟨rfl, unseen, enters, ?_⟩
      rw [shards_setShard]
      exact AList.lookup_insert _
    · refine Or.inl ⟨?_, fun key' => absurd key' key⟩
      by_cases same : s = shardIdx queue
      · subst same
        have other : m ≠ id := fun eq => key (by rw [eq])
        rw [shards_setShard]
        exact AList.lookup_insert_ne other
      · simp [same]

/-! ## One ack -/

theorem shards_ackFollower (e : QueueEngine) (queue : String) {messageId : String}
    (parsed : parseIdFast env messageId = some id) :
    (e.ackFollower env queue messageId).1.shards = (e.setShard (shardIdx queue)
      ((e.shards (shardIdx queue)).applyAck queue id)).shards := by
  unfold ackFollower
  rw [parsed]
  dsimp only
  split
  · exact shards_checkAndTriggerCompaction env _
  · rfl

end QueueEngine

/-! ## Commands -/

namespace RaftCommand

/-- The id a follower reads the text of a Push as. -/
def followerId (env : Env) (msgId : String) : Option Ulid :=
  match env.ulidFromString msgId with
  | some id => some id
  | none => env.uuidParseStr msgId

/-- The shard and the id a command pushes at a follower. -/
def pushes (env : Env) : RaftCommand → Option (Fin numShards × Ulid)
  | .push queue msgId _ _ => (followerId env msgId).map (Prod.mk (shardIdx queue))
  | .ack .. => none

/-- The shard and the id a command acks at a follower. -/
def acks (env : Env) : RaftCommand → Option (Fin numShards × Ulid)
  | .push .. => none
  | .ack queue msgId _ => (QueueEngine.parseIdFast env msgId).map (Prod.mk (shardIdx queue))

end RaftCommand

namespace RaftNode

open RaftCommand

theorem applyCommand_push (env : Env) (now : Nat) (e : QueueEngine) (queue msgId : String)
    (payload : List UInt8) (visibleAt : Nat) :
    applyCommand env now e (.push queue msgId payload visibleAt) =
      match followerId env msgId with
      | some id => (e.pushWithUlid env now queue id payload visibleAt).1
      | none => e := by
  unfold applyCommand followerId
  dsimp only
  cases env.ulidFromString msgId with
  | some id => rfl
  | none => cases env.uuidParseStr msgId <;> rfl

/-- A command with the clock of the follower that applies it. -/
def applyAt (env : Env) (e : QueueEngine) (c : Nat × RaftCommand) : QueueEngine :=
  applyCommand env c.1 e c.2

/-- The commands of a request, in order: those that decode. -/
def commandsOf (codec : Postcard) (request : RaftAppend) : List RaftCommand :=
  request.entries.filterMap fun entry => codec.fromBytes entry.command

/-- A follower receives requests one after another, each at its own time. -/
def deliver (env : Env) (codec : Postcard) (n : RaftNode) (arrivals : List (Nat × RaftAppend)) :
    RaftNode :=
  arrivals.foldl (fun n arrival => (n.handleAppendEntries env codec arrival.1 arrival.2).1) n

/-- The commands a follower of a term applies, each at the time it does. -/
def applied (codec : Postcard) (term : Nat) (arrivals : List (Nat × RaftAppend)) :
    List (Nat × RaftCommand) :=
  (arrivals.filter fun arrival => term ≤ arrival.2.term).flatMap fun arrival =>
    (commandsOf codec arrival.2).map (Prod.mk arrival.1)

theorem applyEntry_foldl (env : Env) (codec : Postcard) (now : Nat)
    (entries : List RaftLogEntryWire) (n : RaftNode) :
    (entries.foldl (applyEntry env codec now) n).engine =
        ((entries.filterMap fun entry => codec.fromBytes entry.command).map
          (Prod.mk now)).foldl (applyAt env) n.engine ∧
      (entries.foldl (applyEntry env codec now) n).currentTerm = n.currentTerm := by
  induction entries generalizing n with
  | nil => exact ⟨rfl, rfl⟩
  | cons entry entries ih =>
      obtain ⟨engine, term⟩ := ih (applyEntry env codec now n entry)
      rw [List.foldl_cons, engine, term, List.filterMap_cons]
      unfold applyEntry
      cases codec.fromBytes entry.command with
      | none => exact ⟨rfl, rfl⟩
      | some command => exact ⟨rfl, rfl⟩

theorem trimLog_engine (n : RaftNode) :
    n.trimLog.engine = n.engine ∧ n.trimLog.currentTerm = n.currentTerm := by
  unfold trimLog
  split
  · dsimp only
    split <;> exact ⟨rfl, rfl⟩
  · exact ⟨rfl, rfl⟩

theorem handleAppendEntries_engine (env : Env) (codec : Postcard) (now : Nat) (n : RaftNode) (request : RaftAppend) :
    (n.handleAppendEntries env codec now request).1.engine =
        (applied codec n.currentTerm [(now, request)]).foldl (applyAt env) n.engine ∧
      (n.handleAppendEntries env codec now request).1.currentTerm = n.currentTerm := by
  unfold handleAppendEntries applied
  split
  · rename_i stale
    simp [Nat.not_le.2 stale]
  · rename_i current
    obtain ⟨engine, term⟩ := applyEntry_foldl env codec now request.entries
      { n with currentLeader := some request.leaderId }
    dsimp only
    rw [(trimLog_engine _).1, (trimLog_engine _).2, engine, term]
    simp [Nat.not_lt.1 current, commandsOf]

/-- A follower's engine is what the commands it applies make of it. -/
theorem deliver_engine (env : Env) (codec : Postcard) (n : RaftNode)
    (arrivals : List (Nat × RaftAppend)) :
    (n.deliver env codec arrivals).engine =
        (applied codec n.currentTerm arrivals).foldl (applyAt env) n.engine ∧
      (n.deliver env codec arrivals).currentTerm = n.currentTerm := by
  induction arrivals generalizing n with
  | nil => exact ⟨rfl, rfl⟩
  | cons arrival arrivals ih =>
      obtain ⟨first, term⟩ := handleAppendEntries_engine env codec arrival.1 n arrival.2
      obtain ⟨engine, term'⟩ := ih (n.handleAppendEntries env codec arrival.1 arrival.2).1
      have split : applied codec n.currentTerm (arrival :: arrivals) =
          applied codec n.currentTerm [arrival] ++ applied codec n.currentTerm arrivals := by
        rw [applied, ← List.singleton_append, List.filter_append, List.flatMap_append]
        rfl
      refine ⟨?_, term'.trans term⟩
      rw [split, List.foldl_append, ← first, ← term]
      exact engine

/-! ## One id of one shard -/

/-- What a command does to one id of one shard. -/
structure KeyStep (env : Env) (c : RaftCommand) (s : Fin numShards) (m : Ulid)
    (e e' : QueueEngine) : Prop where
  seen : m ∈ (e'.shards s).seenIds ↔ m ∈ (e.shards s).seenIds ∨ c.pushes env = some (s, m)
  acked : m ∈ (e'.shards s).ackedIds ↔ m ∈ (e.shards s).ackedIds ∨ c.acks env = some (s, m)
  gone : c.acks env = some (s, m) → m ∉ (e'.shards s).messages
  kept : m ∈ (e.shards s).messages → c.acks env ≠ some (s, m) → m ∈ (e'.shards s).messages
  origin : m ∈ (e'.shards s).messages → m ∈ (e.shards s).messages ∨
    c.pushes env = some (s, m) ∧ m ∉ (e.shards s).seenIds

theorem KeyStep.skip {env : Env} {c : RaftCommand} (pushes : c.pushes env = none)
    (acks : c.acks env = none) (s : Fin numShards) (m : Ulid) (e : QueueEngine) :
    KeyStep env c s m e e where
  seen := by simp [pushes]
  acked := by simp [acks]
  gone := by simp [acks]
  kept inside _ := inside
  origin := Or.inl

theorem keyStep_push {env : Env} {queue msgId : String} {payload : List UInt8} {visibleAt : Nat}
    {id : Ulid} (read : followerId env msgId = some id) (now : Nat) (e : QueueEngine)
    (s : Fin numShards) (m : Ulid) :
    KeyStep env (.push queue msgId payload visibleAt) s m e
      (e.pushWithUlid env now queue id payload visibleAt).1 := by
  have pushes : (RaftCommand.push queue msgId payload visibleAt).pushes env =
      some (shardIdx queue, id) := by simp [RaftCommand.pushes, read]
  have acks : (RaftCommand.push queue msgId payload visibleAt).acks env = none := rfl
  refine ⟨?_, ?_, by simp [acks], fun inside _ => ?_, fun inside => ?_⟩
  · rw [QueueEngine.seenIds_pushWithUlid, pushes, Option.some_inj]
  · rw [QueueEngine.ackedIds_pushWithUlid, acks]
    simp
  · rw [FMap.mem_iff_lookup] at inside ⊢
    rcases QueueEngine.lookup_pushWithUlid (e := e) s with ⟨same, _⟩ | ⟨_, _, _, new⟩
    · rw [same]
      exact inside
    · exact ⟨_, new⟩
  · rw [FMap.mem_iff_lookup] at inside ⊢
    rcases QueueEngine.lookup_pushWithUlid (e := e) s with ⟨same, _⟩ | ⟨key, unseen, _, _⟩
    · rw [same] at inside
      exact Or.inl inside
    · exact Or.inr ⟨by rw [pushes, key], unseen⟩

theorem keyStep_ack {env : Env} {queue msgId receipt : String} {id : Ulid}
    (read : QueueEngine.parseIdFast env msgId = some id) (e : QueueEngine)
    (s : Fin numShards) (m : Ulid) :
    KeyStep env (.ack queue msgId receipt) s m e (e.ackFollower env queue msgId).1 := by
  have pushes : (RaftCommand.ack queue msgId receipt).pushes env = none := rfl
  have acks : (RaftCommand.ack queue msgId receipt).acks env = some (shardIdx queue, id) := by
    simp [RaftCommand.acks, read]
  have shards := QueueEngine.shards_ackFollower e queue read
  by_cases same : s = shardIdx queue
  · subst same
    have here : (e.ackFollower env queue msgId).1.shards (shardIdx queue) =
        (e.shards (shardIdx queue)).applyAck queue id := by rw [shards, QueueEngine.shards_setShard]
    have key : (some (shardIdx queue, id) = some (shardIdx queue, m)) ↔ m = id := by
      simp [eq_comm]
    refine ⟨?_, ?_, ?_, ?_, ?_⟩ <;> rw [here] <;> (try rw [acks]) <;> (try rw [pushes])
    · simp
    · simp [key, or_comm]
    · simp only [key, ShardState.applyAck, ShardState.messages_markDeleted, AList.mem_erase]
      exact fun same inside => inside.1 same
    · simp only [key, ne_eq, ShardState.applyAck, ShardState.messages_markDeleted, AList.mem_erase]
      exact fun inside other => ⟨other, inside⟩
    · simp only [ShardState.applyAck, ShardState.messages_markDeleted, AList.mem_erase]
      exact fun inside => Or.inl inside.2
  · have there : (e.ackFollower env queue msgId).1.shards s = e.shards s := by
      rw [shards, QueueEngine.shards_setShard_of_ne same]
    have key : some (shardIdx queue, id) ≠ some (s, m) := fun eq => same (by cases eq; rfl)
    refine ⟨?_, ?_, ?_, ?_, ?_⟩ <;> rw [there] <;> (try rw [acks]) <;> (try rw [pushes]) <;>
      simp_all

theorem applyAt_keyStep (env : Env) (e : QueueEngine) (c : Nat × RaftCommand) (s : Fin numShards)
    (m : Ulid) : KeyStep env c.2 s m e (applyAt env e c) := by
  obtain ⟨now, command⟩ := c
  cases command with
  | push queue msgId payload visibleAt =>
      unfold applyAt
      rw [applyCommand_push]
      cases read : followerId env msgId with
      | some id => exact keyStep_push read now e s m
      | none => exact .skip (by simp [RaftCommand.pushes, read]) rfl s m e
  | ack queue msgId receipt =>
      unfold applyAt applyCommand
      cases read : QueueEngine.parseIdFast env msgId with
      | some id => exact keyStep_ack read e s m
      | none =>
          have same : e.ackFollower env queue msgId = (e, false) := by
            simp [QueueEngine.ackFollower, read]
          dsimp only
          rw [same]
          exact .skip rfl (by simp [RaftCommand.acks, read]) s m e

/-! ## Any order of arrival -/

end RaftNode

/-- In memory, or pushed and not acked: its record is then on disk for page-in. -/
def QueueEngine.Live (e : QueueEngine) (s : Fin numShards) (m : Ulid) : Prop :=
  m ∈ (e.shards s).messages ∨ m ∈ (e.shards s).seenIds ∧ m ∉ (e.shards s).ackedIds

instance (e : QueueEngine) (s : Fin numShards) (m : Ulid) : Decidable (e.Live s m) :=
  inferInstanceAs (Decidable (m ∈ (e.shards s).messages ∨
    m ∈ (e.shards s).seenIds ∧ m ∉ (e.shards s).ackedIds))

namespace RaftNode

/-- The first Push of an id in a shard does not find the id acked there. -/
def PushFirst (env : Env) (e : QueueEngine) (c : Nat × RaftCommand) : Prop :=
  ∀ key ∈ c.2.pushes env, key.2 ∉ (e.shards key.1).seenIds → key.2 ∉ (e.shards key.1).ackedIds

instance (env : Env) (e : QueueEngine) (c : Nat × RaftCommand) : Decidable (PushFirst env e c) :=
  match pushes : c.2.pushes env with
  | none => isTrue fun key member => by simp [pushes] at member
  | some key =>
      decidable_of_iff (key.2 ∉ (e.shards key.1).seenIds → key.2 ∉ (e.shards key.1).ackedIds)
        (by simp [PushFirst, pushes])

/-- One id of one shard after the commands were applied in a good order. -/
structure Settled (env : Env) (s : Fin numShards) (m : Ulid) (start : QueueEngine)
    (commands : List RaftCommand) (e : QueueEngine) : Prop where
  seen : m ∈ (e.shards s).seenIds ↔ m ∈ (start.shards s).seenIds ∨
    ∃ c ∈ commands, c.pushes env = some (s, m)
  acked : m ∈ (e.shards s).ackedIds ↔ m ∈ (start.shards s).ackedIds ∨
    ∃ c ∈ commands, c.acks env = some (s, m)
  gone : (∃ c ∈ commands, c.acks env = some (s, m)) → m ∉ (e.shards s).messages
  kept : m ∈ (start.shards s).messages → (∀ c ∈ commands, c.acks env ≠ some (s, m)) →
    m ∈ (e.shards s).messages
  origin : m ∈ (e.shards s).messages → m ∈ (start.shards s).messages ∨
    (∃ c ∈ commands, c.pushes env = some (s, m)) ∧ m ∉ (start.shards s).ackedIds

variable {env : Env} {s : Fin numShards} {m : Ulid} {start e e' : QueueEngine}
  {commands : List RaftCommand}

theorem Settled.step (h : Settled env s m start commands e) (c : Nat × RaftCommand)
    (order : PushFirst env e c) : Settled env s m start (commands ++ [c.2]) (applyAt env e c) := by
  have now := applyAt_keyStep env e c s m
  have fresh : c.2.pushes env = some (s, m) → m ∉ (e.shards s).seenIds →
      m ∉ (e.shards s).ackedIds := fun pushed => order (s, m) pushed
  have either : ∀ P : RaftCommand → Prop, (∃ c' ∈ commands ++ [c.2], P c') ↔
      (∃ c' ∈ commands, P c') ∨ P c.2 := by
    intro P
    simp only [List.mem_append, List.mem_singleton, or_and_right, exists_or, exists_eq_left]
  refine ⟨?_, ?_, fun acked => ?_, fun inside unacked => ?_, fun inside => ?_⟩
  · rw [now.seen, h.seen, either, or_assoc]
  · rw [now.acked, h.acked, either, or_assoc]
  · rcases (either _).1 acked with before | here
    · intro inside
      rcases now.origin inside with old | ⟨pushed, unseen⟩
      · exact h.gone before old
      · exact fresh pushed unseen (h.acked.2 (Or.inr before))
    · exact now.gone here
  · refine now.kept (h.kept inside fun c' member => ?_) ?_
    · exact unacked c' (List.mem_append_left _ member)
    · exact unacked c.2 (by simp)
  · rcases now.origin inside with old | ⟨pushed, unseen⟩
    · exact (h.origin old).imp_right fun source => ⟨(either _).2 (Or.inl source.1), source.2⟩
    · refine Or.inr ⟨(either _).2 (Or.inr pushed), fun acked => ?_⟩
      exact fresh pushed unseen (h.acked.2 (Or.inl acked))

theorem Settled.run {cs : List (Nat × RaftCommand)} (h : Settled env s m start commands e)
    (order : Trace.Along (applyAt env) (PushFirst env) e cs) :
    Settled env s m start (commands ++ cs.map Prod.snd) (cs.foldl (applyAt env) e) := by
  induction cs generalizing e commands with
  | nil => simpa using h
  | cons c cs ih =>
      have next := ih (h.step c order.1) order.2
      rw [List.append_assoc] at next
      exact next

theorem Settled.refl (env : Env) (s : Fin numShards) (m : Ulid) (e : QueueEngine) :
    Settled env s m e [] e where
  seen := by simp
  acked := by simp
  gone := by simp
  kept inside _ := inside
  origin := Or.inl

/-- Whether an id ends up live does not depend on the order of the commands. -/
theorem Settled.live_iff (h : Settled env s m start commands e) : e.Live s m ↔
    (∀ c ∈ commands, c.acks env ≠ some (s, m)) ∧
      (m ∈ (start.shards s).messages ∨
        (m ∈ (start.shards s).seenIds ∨ ∃ c ∈ commands, c.pushes env = some (s, m)) ∧
          m ∉ (start.shards s).ackedIds) := by
  unfold QueueEngine.Live
  rw [h.seen, h.acked, not_or]
  constructor
  · rintro (inside | ⟨seen, unacked, none⟩)
    · refine ⟨fun c member acked => h.gone ⟨c, member, acked⟩ inside, ?_⟩
      exact (h.origin inside).imp_right fun source => ⟨Or.inr source.1, source.2⟩
    · exact ⟨fun c member acked => none ⟨c, member, acked⟩, Or.inr ⟨seen, unacked⟩⟩
  · rintro ⟨none, inside | ⟨seen, unacked⟩⟩
    · exact Or.inl (h.kept inside none)
    · exact Or.inr ⟨seen, unacked, fun ⟨c, member, acked⟩ => none c member acked⟩

/-- The commands meet a follower in a good order: the first Push of an id does not
find it acked, and an Ack names the shard that has its id. -/
structure InOrder (env : Env) (e : QueueEngine) (cs : List (Nat × RaftCommand)) : Prop where
  pushFirst : Trace.Along (applyAt env) (PushFirst env) e cs
  ackHome : ∀ c ∈ cs, ∀ key ∈ c.2.acks env, ∀ s, s ≠ key.1 →
    ¬ e.Live s key.2 ∧ ∀ c' ∈ cs, c'.2.pushes env ≠ some (s, key.2)

instance (env : Env) (e : QueueEngine) (cs : List (Nat × RaftCommand)) :
    Decidable (InOrder env e cs) :=
  decidable_of_iff (Trace.Along (applyAt env) (PushFirst env) e cs ∧
    (cs.all fun c => (c.2.acks env).all fun key => decide (∀ s, s ≠ key.1 →
      ¬ e.Live s key.2 ∧ ∀ c' ∈ cs, c'.2.pushes env ≠ some (s, key.2))) = true)
    ⟨fun h => ⟨h.1, by simpa [Option.all_eq_true] using h.2⟩,
      fun h => ⟨h.pushFirst, by simpa [Option.all_eq_true] using h.ackHome⟩⟩

/-- Two followers in one state that receive the same requests, each in a good order
and at its own times, have the same live messages, and none that was acked. -/
theorem deliver_converges {codec : Postcard} {n : RaftNode}
    {arrivals arrivals' : List (Nat × RaftAppend)}
    (same : (arrivals.map Prod.snd).Perm (arrivals'.map Prod.snd))
    (order : InOrder env n.engine (applied codec n.currentTerm arrivals))
    (order' : InOrder env n.engine (applied codec n.currentTerm arrivals')) :
    (∀ s m, (n.deliver env codec arrivals).engine.Live s m ↔
      (n.deliver env codec arrivals').engine.Live s m) ∧
    ∀ c ∈ applied codec n.currentTerm arrivals, ∀ key ∈ c.2.acks env, ∀ s,
      ¬ (n.deliver env codec arrivals).engine.Live s key.2 := by
  have commands : ∀ arrivals : List (Nat × RaftAppend),
      (applied codec n.currentTerm arrivals).map Prod.snd =
        ((arrivals.map Prod.snd).filter fun request => n.currentTerm ≤ request.term).flatMap
          (commandsOf codec) := by
    intro arrivals
    simp [applied, List.map_flatMap, List.filter_map, List.flatMap_map, Function.comp_def]
  have permuted : ((applied codec n.currentTerm arrivals).map Prod.snd).Perm
      ((applied codec n.currentTerm arrivals').map Prod.snd) := by
    rw [commands, commands]
    exact (same.filter _).flatMap_right _
  have settled : ∀ {arrivals : List (Nat × RaftAppend)} (s : Fin numShards) (m : Ulid),
      InOrder env n.engine (applied codec n.currentTerm arrivals) →
      Settled env s m n.engine ((applied codec n.currentTerm arrivals).map Prod.snd)
        (n.deliver env codec arrivals).engine := by
    intro arrivals s m order
    rw [(deliver_engine env codec n arrivals).1]
    simpa using (Settled.refl env s m n.engine).run order.pushFirst
  refine ⟨fun s m => ?_, fun c member key acked s live => ?_⟩
  · rw [(settled s m order).live_iff, (settled s m order').live_iff]
    simp only [permuted.mem_iff]
  · have facts := (settled s key.2 order).live_iff.1 live
    by_cases home : s = key.1
    · subst home
      exact facts.1 c.2 (List.mem_map_of_mem member) acked
    · obtain ⟨before, never⟩ := order.ackHome c member key acked s home
      rcases facts.2 with inside | ⟨seen | ⟨c', member', pushed⟩, unacked⟩
      · exact before (Or.inl inside)
      · exact before (Or.inr ⟨seen, unacked⟩)
      · obtain ⟨d, member'', rfl⟩ := List.mem_map.1 member'
        exact never d member'' pushed

/-! ## A leader and a follower -/

/-- A leader with no peers and an empty engine, at time 1600000000. -/
def sampleLeader : RaftNode :=
  { RaftNode.new "n1" [] (QueueEngine.openDir .sample .empty .default 1600000000 0) with
    role := .leader
    currentLeader := some "n1"
    isLeaderCached := true }

/-- A follower with an empty engine. -/
def sampleFollower : RaftNode :=
  RaftNode.new "n2" ["n1"] (QueueEngine.openDir .sample .empty .default 1600000000 0)

/-- The requests the leader sends when a message is pushed, polled and acked. -/
def sampleRequests : List RaftAppend :=
  let pushed := sampleLeader.proposePushBatch .sample .format 1600000000 [] "a" [("", [1], 0)]
  let polled := pushed.1.engine.poll .sample 1600000000 "a" 30 1
  let acked := proposeAckBatch .sample .format { pushed.1 with engine := polled.1 } "a"
    (polled.2.map fun message => (message.messageId, message.receiptHandle))
  pushed.2.2.toList ++ acked.2.2.toList

/-- With the Ack delivered before the Push the follower keeps the message. -/
theorem deliver_ack_first_keeps :
    ¬ (sampleFollower.deliver .sample .format
        (sampleRequests.map (Prod.mk 1600000000))).engine.InMemory (Env.sample.ulidNew 0) ∧
      (sampleFollower.deliver .sample .format
        (sampleRequests.reverse.map (Prod.mk 1600000000))).engine.InMemory
          (Env.sample.ulidNew 0) := by
  decide +kernel

/-- The request of another push. -/
def sampleOther : List RaftAppend :=
  (sampleLeader.proposePushBatch .sample .format 1600000000 [] "b" [(ulidText 7, [2], 5)]).2.2.toList

/-- The other push arrives last, or first. -/
theorem deliver_converges_sample :
    sampleOther ≠ [] ∧ ∀ s m, (sampleFollower.deliver .sample .format
        ((sampleRequests ++ sampleOther).map (Prod.mk 1600000001))).engine.Live s m ↔
      (sampleFollower.deliver .sample .format
        ((sampleOther ++ sampleRequests).map (Prod.mk 1600000002))).engine.Live s m := by
  have same : (((sampleRequests ++ sampleOther).map (Prod.mk 1600000001)).map Prod.snd).Perm
      (((sampleOther ++ sampleRequests).map (Prod.mk 1600000002)).map Prod.snd) := by
    simp only [List.map_map]
    exact List.Perm.map _ List.perm_append_comm
  have order : InOrder .sample sampleFollower.engine (applied .format sampleFollower.currentTerm
      ((sampleRequests ++ sampleOther).map (Prod.mk 1600000001))) := by decide +kernel
  have order' : InOrder .sample sampleFollower.engine (applied .format sampleFollower.currentTerm
      ((sampleOther ++ sampleRequests).map (Prod.mk 1600000002))) := by decide +kernel
  exact ⟨by decide +kernel, (deliver_converges same order order').1⟩

end RaftNode

end WalrQueue
