import WalrQueue.InMemory
import WalrQueue.Location
import WalrQueue.Reopen

/-!
# Restarts of runs that stay in memory

While RAM has room, what the replay of a log leaves of an id in a shard depends on the
records of that id for that shard alone: Pushes leave its message waiting once for each of
them, an Ack at the end leaves nothing.

In a run that stays in memory and in which no single push repeats an id, the log has one
Push for every live message, that of its first push, and an Ack behind the Push of every
message that is gone, also after a compaction.  A restart then finds the messages that were
live, each waiting once.
-/

namespace WalrQueue

open QueueEngine

/-! ## A message that waits -/

namespace ShardState

variable {st : ShardState} {id : Ulid} {msg : StoredMsg} {queue : String} {n : Nat}
  {status : Status}

theorem occ_markDeleted_of_ne {other : Ulid} (differs : other ≠ id) (name : String) :
    (st.markDeleted queue other).occ name id = st.occ name id := by
  unfold ShardState.markDeleted
  cases found : AList.lookup queue st.queues with
  | none => rfl
  | some q =>
      rw [occ_insert_queue]
      split
      · rename_i same
        rw [SingleQueue.occ_markDeleted_of_ne differs, same, ShardState.occ, found]
      · rfl

theorem tomb_of_markDeleted {other : Ulid} (differs : other ≠ id) {name : String}
    (tomb : (st.markDeleted queue other).Tomb name id) : st.Tomb name id := by
  unfold ShardState.markDeleted at tomb
  cases found : AList.lookup queue st.queues with
  | none => rwa [found] at tomb
  | some q =>
      rw [found, tomb_insert_queue] at tomb
      split at tomb
      · rename_i same
        rw [same]
        exact ⟨q, found, (SingleQueue.mem_deleted_markDeleted_of_ne differs).1 tomb⟩
      · exact tomb

/-- The message of an id waits `n` times in its queue and nowhere else. -/
structure Waits (st : ShardState) (id : Ulid) (msg : StoredMsg) (n : Nat) : Prop where
  entry : AList.lookup id st.messages = some msg
  lease : st.wheel.Unleased id
  occ : ∀ queue, st.occ queue id = if msg.queue = queue then n else 0
  tomb : ¬ st.Tomb msg.queue id

theorem At.waits (h : st.At id (.pending msg)) : st.Waits id msg 1 where
  entry := h.msg
  lease := h.lease
  occ := h.occ
  tomb tomb := by simpa [Status.waitsIn] using h.tomb msg.queue tomb

theorem Waits.pending (h : st.Waits id msg 1) : st.At id (.pending msg) where
  msg := h.entry
  lease := h.lease
  occ := h.occ
  tomb queue tomb := by
    refine if_neg fun same => h.tomb ?_
    rw [same]
    exact tomb

/-- Neither `At` nor `Waits` reads `seenIds`. -/
theorem At.seeing (h : st.At id status) (seen : Finset Ulid) :
    ({ st with seenIds := seen } : ShardState).At id status :=
  h.of_fields rfl rfl rfl

theorem Waits.seeing (h : st.Waits id msg n) (seen : Finset Ulid) :
    ({ st with seenIds := seen } : ShardState).Waits id msg n :=
  ⟨h.entry, h.lease, h.occ, h.tomb⟩

theorem Waits.store_of_ne (h : st.Waits id msg n) (now : Nat) {other : StoredMsg}
    (differs : other.id ≠ id) : (st.store now other).Waits id msg n where
  entry := (AList.lookup_insert_ne differs.symm).trans h.entry
  lease := h.lease
  occ name := by simp [occ_store, differs, h.occ]
  tomb tomb := h.tomb (tomb_of_store tomb).1

/-- A message stored over one that waits takes its place, and the id waits once more. -/
theorem Waits.store (h : st.Waits id msg n) (now : Nat) {again : StoredMsg}
    (same : again.id = id) (queue : again.queue = msg.queue) :
    (st.store now again).Waits id again (n + 1) where
  entry := by
    subst same
    exact AList.lookup_insert st.messages
  lease := h.lease
  occ name := by
    rw [occ_store, h.occ, queue]
    by_cases here : msg.queue = name <;> simp [same, here]
  tomb tomb := (tomb_of_store tomb).2 ⟨same, rfl⟩

theorem Waits.applyAck_of_ne (h : st.Waits id msg n) {other : Ulid} (differs : other ≠ id) :
    (st.applyAck queue other).Waits id msg n where
  entry := by
    rw [applyAck, messages_markDeleted]
    exact (AList.lookup_erase_ne differs.symm).trans h.entry
  lease := by
    rw [applyAck, wheel_markDeleted]
    exact h.lease
  occ name := (occ_markDeleted_of_ne differs name).trans (h.occ name)
  tomb tomb := by
    have old : ({ st with
        ackedIds := insert other st.ackedIds
        messages := AList.erase other st.messages } : ShardState).Tomb msg.queue id :=
      tomb_of_markDeleted differs tomb
    exact h.tomb old

end ShardState

/-! ## Replay by the records of one id -/

section Replay

variable {opts : QueueOptions} {base : Nat} {rs more : List WalRecord} {r : WalRecord}
  {s : Fin numShards} {id : Ulid}

/-- The records of an id for a shard. -/
def recordsOf (rs : List WalRecord) (s : Fin numShards) (id : Ulid) : List WalRecord :=
  rs.filter (Touches s id)

theorem recordsOf_append :
    recordsOf (rs ++ more) s id = recordsOf rs s id ++ recordsOf more s id :=
  List.filter_append _ _

theorem recordsOf_singleton :
    recordsOf [r] s id = if Touches s id r then [r] else [] := by
  by_cases hit : Touches s id r <;> simp [recordsOf, hit]

/-- RAM is below its cap whenever the replay comes to a Push. -/
def RoomToReplay (opts : QueueOptions) (base : Nat) (rs : List WalRecord) : Prop :=
  ∀ before r, before ++ [r] <+: rs → r.isPush = true →
    (replay opts base before).totalInRam < opts.maxHotMessagesInRam

theorem RoomToReplay.of_append (h : RoomToReplay opts base (rs ++ more)) :
    RoomToReplay opts base rs :=
  fun before r part push => h before r (part.trans (List.prefix_append _ _)) push

theorem RoomToReplay.nil : RoomToReplay opts base [] := by
  intro before r part
  have none := List.prefix_nil.1 part
  simp at none

theorem RoomToReplay.concat (h : RoomToReplay opts base rs)
    (room : r.isPush = true → (replay opts base rs).totalInRam < opts.maxHotMessagesInRam) :
    RoomToReplay opts base (rs ++ [r]) := by
  intro before r' part push
  rcases List.prefix_concat_iff.1 part with whole | inside
  · obtain ⟨rfl, last⟩ := List.append_inj' whole rfl
    cases last
    exact room push
  · exact h before r' inside push

theorem replay_concat :
    replay opts base (rs ++ [r]) = replayRecord opts base (replay opts base rs) r := by
  rw [replay, List.foldl_append]
  rfl

/-- What one more record does to the shard, while RAM has room. -/
theorem shards_replay_concat (room : RoomToReplay opts base (rs ++ [r])) (s : Fin numShards) :
    (shardIdx r.queueName ≠ s ∧
      (replay opts base (rs ++ [r])).shards s = (replay opts base rs).shards s) ∨
    (shardIdx r.queueName = s ∧
      ((∃ id queue, r = .ack id queue ∧ (replay opts base (rs ++ [r])).shards s =
          ((replay opts base rs).shards s).applyAck queue id) ∨
        ∃ id queue visibleAt payload, r = .push id queue visibleAt payload ∧
          (replay opts base (rs ++ [r])).shards s = ShardState.store
            { (replay opts base rs).shards s with
              seenIds := insert id ((replay opts base rs).shards s).seenIds } base
            ⟨id, queue, payload, visibleAt, 0, opts.maxDeliveryCount⟩)) := by
  rw [replay_concat]
  rcases shards_replayRecord opts base (replay opts base rs) r s with ⟨away, same⟩ |
    ⟨mine, ⟨id, queue, rfl, eq⟩ | ⟨id, queue, visibleAt, payload, rfl, ⟨_, eq⟩ | ⟨full, _⟩⟩⟩
  · exact .inl ⟨away, same⟩
  · exact .inr ⟨mine, .inl ⟨id, queue, rfl, eq⟩⟩
  · exact .inr ⟨mine, .inr ⟨id, queue, visibleAt, payload, rfl, eq⟩⟩
  · exact absurd (room rs _ List.prefix_rfl rfl) (Nat.not_lt.2 full)

/-- Pushes under one queue leave the message waiting once for each of them. -/
theorem replay_pushes (room : RoomToReplay opts base rs) {queue : String} {payload : List UInt8}
    (pushes : ∀ r ∈ recordsOf rs s id, ∃ visibleAt, r = .push id queue visibleAt payload) :
    (recordsOf rs s id = [] ∧ ((replay opts base rs).shards s).At id .away) ∨
    (recordsOf rs s id ≠ [] ∧ ∃ msg, msg.core = (queue, payload) ∧
      ((replay opts base rs).shards s).Waits id msg (recordsOf rs s id).length) := by
  induction rs using List.reverseRecOn with
  | nil => exact .inl ⟨rfl, .new⟩
  | append_singleton rs r ih =>
      rw [recordsOf_append, recordsOf_singleton] at pushes ⊢
      have before := ih room.of_append fun r' inside => pushes r' (List.mem_append_left _ inside)
      have step := shards_replay_concat room s
      by_cases hit : Touches s id r
      · rw [if_pos hit] at pushes ⊢
        obtain ⟨visibleAt, rfl⟩ := pushes r (by simp)
        rcases step with ⟨away, -⟩ | ⟨-, ⟨_, _, bad, _⟩ | ⟨_, _, _, _, is, eq⟩⟩
        · exact absurd hit.1 away
        · cases bad
        · cases is
          rw [eq, List.length_append, List.length_singleton]
          refine .inr ⟨by simp, ?_⟩
          rcases before with ⟨none, here⟩ | ⟨-, msg, core, here⟩
          · rw [none]
            exact ⟨_, rfl, ((here.seeing _).store base rfl).waits⟩
          · refine ⟨_, rfl, (here.seeing _).store base rfl ?_⟩
            exact (congrArg Prod.fst core).symm
      · rw [if_neg hit, List.append_nil]
        have frame : (∀ status, ((replay opts base rs).shards s).At id status →
            ((replay opts base (rs ++ [r])).shards s).At id status) ∧
            ∀ msg n, ((replay opts base rs).shards s).Waits id msg n →
            ((replay opts base (rs ++ [r])).shards s).Waits id msg n := by
          rcases step with ⟨-, same⟩ | ⟨mine, ⟨m, name, rfl, eq⟩ | ⟨m, name, v, p, rfl, eq⟩⟩
          · rw [same]
            exact ⟨fun _ here => here, fun _ _ here => here⟩
          · have differs : m ≠ id := fun same => hit ⟨mine, same⟩
            rw [eq]
            exact ⟨fun _ here => here.applyAck_of_ne differs,
              fun _ _ here => here.applyAck_of_ne differs⟩
          · have differs : m ≠ id := fun same => hit ⟨mine, same⟩
            rw [eq]
            exact ⟨fun _ here => (here.seeing _).store_of_ne base differs,
              fun _ _ here => (here.seeing _).store_of_ne base differs⟩
        rcases before with ⟨none, here⟩ | ⟨some, msg, core, here⟩
        · exact .inl ⟨none, frame.1 _ here⟩
        · exact .inr ⟨some, msg, core, frame.2 _ _ here⟩

/-- An id without records is not in memory. -/
theorem replay_untouched (room : RoomToReplay opts base rs) (none : recordsOf rs s id = []) :
    id ∉ ((replay opts base rs).shards s).messages := by
  have pushes : ∀ r ∈ recordsOf rs s id, ∃ v, r = .push id "" v [] := by
    rw [none]
    exact fun r inside => by cases inside
  rcases replay_pushes room pushes with ⟨-, here⟩ | ⟨some, -⟩
  · exact AList.lookup_eq_none.1 here.msg
  · exact absurd none some

/-- An Ack behind the other records of an id leaves nothing of it in memory. -/
theorem replay_ended (room : RoomToReplay opts base rs)
    (ended : ∃ r, (recordsOf rs s id).getLast? = some r ∧ r.isPush = false) :
    id ∉ ((replay opts base rs).shards s).messages := by
  induction rs using List.reverseRecOn with
  | nil =>
      obtain ⟨r, last, -⟩ := ended
      cases last
  | append_singleton rs r ih =>
      rw [recordsOf_append, recordsOf_singleton] at ended
      have step := shards_replay_concat room s
      by_cases hit : Touches s id r
      · rw [if_pos hit] at ended
        obtain ⟨last, is, ack⟩ := ended
        rw [List.getLast?_concat] at is
        cases is
        rcases step with ⟨away, -⟩ | ⟨-, ⟨m, name, rfl, eq⟩ | ⟨_, _, _, _, rfl, _⟩⟩
        · exact absurd hit.1 away
        · have same : m = id := hit.2
          rw [eq, ShardState.applyAck, ShardState.messages_markDeleted, same]
          exact fun inside => (AList.mem_erase.1 inside).1 rfl
        · cases ack
      · rw [if_neg hit, List.append_nil] at ended
        have before := ih room.of_append ended
        rcases step with ⟨-, same⟩ | ⟨mine, ⟨m, name, rfl, eq⟩ | ⟨m, name, v, p, rfl, eq⟩⟩
        · rwa [same]
        · rw [eq, ShardState.applyAck, ShardState.messages_markDeleted]
          exact fun inside => before (AList.mem_erase.1 inside).2
        · rw [eq, ShardState.mem_store]
          rintro (same | inside)
          · exact hit ⟨mine, same.symm⟩
          · exact before inside

end Replay

/-! ## The log of a run in memory -/

/-- The log has the one Push of every live message, and no Push behind the last Ack of an id that
is gone. -/
structure Describes (a : Fin numShards → ShardState) (rs : List WalRecord) : Prop where
  live : ∀ s id msg, AList.lookup id (a s).messages = some msg →
    ∃ visibleAt, recordsOf rs s id = [.push id msg.queue visibleAt msg.payload]
  gone : ∀ s id, id ∉ (a s).messages →
    recordsOf rs s id = [] ∨ ∃ r, (recordsOf rs s id).getLast? = some r ∧ r.isPush = false

/-- The log describes the messages, and has nothing of an id that was not seen. -/
structure Tells (a : Fin numShards → ShardState) (rs : List WalRecord) : Prop
    extends Describes a rs where
  unseen : ∀ s id, id ∉ (a s).seenIds → recordsOf rs s id = []

/-- The messages of `a` wait once each in `b`, in their queues and with their payloads, and `b`
has no other message. -/
def Restores (a b : Fin numShards → ShardState) : Prop :=
  ∀ s id,
    (∀ msg, AList.lookup id (a s).messages = some msg →
      ∃ again, again.core = msg.core ∧ (b s).At id (.pending again)) ∧
    (id ∉ (a s).messages → id ∉ (b s).messages)

section Tells

variable {a b : Fin numShards → ShardState} {opts : QueueOptions} {base : Nat}
  {rs new : List WalRecord} {id : Ulid} {msg : StoredMsg} {s : Fin numShards}

/-- What the log describes is what its replay finds. -/
theorem Describes.restores (h : Describes a rs) (room : RoomToReplay opts base rs) :
    Restores a (replay opts base rs).shards := by
  refine fun s id => ⟨fun msg found => ?_, fun absent => ?_⟩
  · obtain ⟨visibleAt, one⟩ := h.live s id msg found
    have pushes : ∀ r ∈ recordsOf rs s id, ∃ v, r = .push id msg.queue v msg.payload := by
      rw [one]
      exact fun r inside => ⟨visibleAt, List.mem_singleton.1 inside⟩
    rcases replay_pushes room pushes with ⟨none, -⟩ | ⟨-, again, core, here⟩
    · rw [none] at one
      cases one
    · rw [one] at here
      exact ⟨again, core, here.pending⟩
  · rcases h.gone s id absent with none | ended
    · exact replay_untouched room none
    · exact replay_ended room ended

theorem Restores.mem_iff (h : Restores a b) (s : Fin numShards) (id : Ulid) :
    id ∈ (b s).messages ↔ id ∈ (a s).messages := by
  obtain ⟨live, gone⟩ := h s id
  refine ⟨fun inside => by_contra fun absent => gone absent inside, fun inside => ?_⟩
  obtain ⟨msg, found⟩ := (FMap.mem_iff_lookup _ _).1 inside
  obtain ⟨again, -, here⟩ := live msg found
  exact FMap.mem_of_lookup here.msg

theorem Tells.keep (h : Tells a rs) (kept : ∀ s, (a s).Kept (b s)) : Tells b rs where
  live s id msg found := by
    obtain ⟨old, wasFound, core⟩ := (kept s).lookup found
    obtain ⟨visibleAt, one⟩ := h.live s id old wasFound
    have queue : old.queue = msg.queue := congrArg Prod.fst core
    have payload : old.payload = msg.payload := congrArg Prod.snd core
    exact ⟨visibleAt, by rw [one, queue, payload]⟩
  gone s id absent := h.gone s id fun inside => absent (((kept s).mem_messages id).2 inside)
  unseen s id unseen := by
    rw [(kept s).seen] at unseen
    exact h.unseen s id unseen

/-- Whether a record is of an id for a shard other than the one given. -/
theorem recordsOf_concat_of_not {r : WalRecord} (other : ¬ Touches s id r) :
    recordsOf (rs ++ [r]) s id = recordsOf rs s id := by
  rw [recordsOf_append, recordsOf_singleton, if_neg other, List.append_nil]

theorem recordsOf_concat_of_touches {r : WalRecord} (hit : Touches s id r) :
    recordsOf (rs ++ [r]) s id = recordsOf rs s id ++ [r] := by
  rw [recordsOf_append, recordsOf_singleton, if_pos hit]

/-- A new message, and its Push. -/
theorem Tells.enter (h : Tells a rs) (now visibleAt : Nat)
    (unseen : msg.id ∉ (a (shardIdx msg.queue)).seenIds) :
    Tells (Function.update a (shardIdx msg.queue) ((a (shardIdx msg.queue)).enter now msg))
      (rs ++ [.push msg.id msg.queue visibleAt msg.payload]) := by
  have none := h.unseen _ _ unseen
  -- the new record concerns one id of one shard
  have cases : ∀ s id, (s = shardIdx msg.queue ∧ id = msg.id) ∨
      (¬ Touches s id (.push msg.id msg.queue visibleAt msg.payload) ∧
        (id ∈ (Function.update a (shardIdx msg.queue)
            ((a (shardIdx msg.queue)).enter now msg) s).seenIds ↔ id ∈ (a s).seenIds) ∧
        AList.lookup id (Function.update a (shardIdx msg.queue)
            ((a (shardIdx msg.queue)).enter now msg) s).messages =
          AList.lookup id (a s).messages) := by
    intro s id
    by_cases here : s = shardIdx msg.queue
    · subst here
      rw [Function.update_self]
      by_cases mine : id = msg.id
      · exact .inl ⟨rfl, mine⟩
      · refine .inr ⟨fun hit => mine hit.2.symm, ?_, ?_⟩
        · rw [ShardState.enter, ShardState.seenIds_store, Finset.mem_insert, or_iff_right mine]
        · rw [ShardState.lookup_enter, if_neg mine]
    · rw [Function.update_of_ne here]
      exact .inr ⟨fun hit => here hit.1.symm, Iff.rfl, rfl⟩
  have touches : Touches (shardIdx msg.queue) msg.id
      (.push msg.id msg.queue visibleAt msg.payload) := ⟨rfl, rfl⟩
  refine ⟨⟨fun s id old found => ?_, fun s id absent => ?_⟩, fun s id fresh => ?_⟩
  · rcases cases s id with ⟨rfl, rfl⟩ | ⟨other, -, same⟩
    · rw [Function.update_self, ShardState.lookup_enter, if_pos rfl] at found
      cases found
      exact ⟨visibleAt, by rw [recordsOf_concat_of_touches touches, none]; rfl⟩
    · rw [same] at found
      rw [recordsOf_concat_of_not other]
      exact h.live s id old found
  · rcases cases s id with ⟨rfl, rfl⟩ | ⟨other, -, same⟩
    · rw [Function.update_self] at absent
      exact absurd (ShardState.mem_enter.2 (.inl rfl)) absent
    · rw [← AList.lookup_eq_none, same, AList.lookup_eq_none] at absent
      rw [recordsOf_concat_of_not other]
      exact h.gone s id absent
  · rcases cases s id with ⟨rfl, rfl⟩ | ⟨other, seen, -⟩
    · rw [Function.update_self] at fresh
      exact absurd (Finset.mem_insert_self _ _) fresh
    · rw [seen] at fresh
      rw [recordsOf_concat_of_not other]
      exact h.unseen s id fresh

/-- An accepted ack, and its record. -/
theorem Tells.accept (h : Tells a rs) {queue receipt : String} {done : ShardState × Bool}
    (valid : (a (shardIdx queue)).ackLease queue id receipt = some done)
    (seen : id ∈ (a (shardIdx queue)).seenIds) :
    Tells (Function.update a (shardIdx queue) done.1) (rs ++ [.ack id queue]) := by
  obtain ⟨messages, -⟩ := ShardState.ackLease_messages valid
  have cases : ∀ s m, (s = shardIdx queue ∧ m = id) ∨
      (¬ Touches s m (.ack id queue) ∧
        (Function.update a (shardIdx queue) done.1 s).seenIds = (a s).seenIds ∧
        AList.lookup m (Function.update a (shardIdx queue) done.1 s).messages =
          AList.lookup m (a s).messages) := by
    intro s m
    by_cases here : s = shardIdx queue
    · subst here
      rw [Function.update_self]
      by_cases mine : m = id
      · exact .inl ⟨rfl, mine⟩
      · refine .inr ⟨fun hit => mine hit.2.symm, ShardState.ackLease_seenIds valid, ?_⟩
        rw [messages, FMap.lookup_erase_ite, if_neg mine]
    · rw [Function.update_of_ne here]
      exact .inr ⟨fun hit => here hit.1.symm, rfl, rfl⟩
  have touches : Touches (shardIdx queue) id (.ack id queue) := ⟨rfl, rfl⟩
  refine ⟨⟨fun s m msg found => ?_, fun s m absent => ?_⟩, fun s m fresh => ?_⟩
  · rcases cases s m with ⟨rfl, rfl⟩ | ⟨other, -, same⟩
    · rw [Function.update_self, messages, FMap.lookup_erase_ite, if_pos rfl] at found
      cases found
    · rw [same] at found
      rw [recordsOf_concat_of_not other]
      exact h.live s m msg found
  · rcases cases s m with ⟨rfl, rfl⟩ | ⟨other, -, same⟩
    · exact .inr ⟨_, by rw [recordsOf_concat_of_touches touches, List.getLast?_concat], rfl⟩
    · rw [← AList.lookup_eq_none, same, AList.lookup_eq_none] at absent
      rw [recordsOf_concat_of_not other]
      exact h.gone s m absent
  · rcases cases s m with ⟨rfl, rfl⟩ | ⟨other, same, -⟩
    · rw [Function.update_self, ShardState.ackLease_seenIds valid] at fresh
      exact absurd seen fresh
    · rw [same] at fresh
      rw [recordsOf_concat_of_not other]
      exact h.unseen s m fresh

end Tells

/-! ## Compaction -/

section Compaction

variable {e : QueueEngine} {env : Env} {rs : List WalRecord} {opts : QueueOptions} {base : Nat}

theorem flatMap_finRange_single {α : Type} {n : Nat} (s : Fin n) (l : List α) :
    ((List.finRange n).flatMap fun t => if t = s then l else []) = l := by
  obtain ⟨left, right, eq⟩ := List.append_of_mem (List.mem_finRange s)
  have nodup := List.nodup_finRange n
  rw [eq, List.nodup_append, List.nodup_cons] at nodup
  obtain ⟨-, ⟨notRight, -⟩, apart⟩ := nodup
  have noLeft : (left.flatMap fun t => if t = s then l else []) = [] :=
    List.flatMap_eq_nil_iff.2 fun t inside =>
      if_neg fun same => apart t inside s List.mem_cons_self same
  have noRight : (right.flatMap fun t => if t = s then l else []) = [] :=
    List.flatMap_eq_nil_iff.2 fun t inside => if_neg fun (same : t = s) =>
      notRight (same ▸ inside)
  rw [eq, List.flatMap_append, List.flatMap_cons, noLeft, noRight]
  simp

/-- The survivors have one Push of every message in memory. -/
theorem recordsOf_survivors (env : Env) (placed : ∀ s id msg,
      AList.lookup id (e.shards s).messages = some msg → shardIdx msg.queue = s)
    (s : Fin numShards) (id : Ulid) :
    recordsOf (e.survivors env) s id = (AList.lookup id (e.shards s).messages).toList.map
      fun msg => .push id msg.queue (storedTime msg.visibleAt) msg.payload := by
  have shard : ∀ t : Fin numShards, recordsOf
      (((env.hashOrder (e.draws + t.val) (Sigma fun _ : Ulid => StoredMsg)
        (e.shards t).messages.entries).map fun entry =>
          (entry.1, entry.2.queue, entry.2.visibleAt, entry.2.payload)).map
        fun survivor => (DiskLog.survivorRecord survivor).stored) s id =
      if t = s then (AList.lookup id (e.shards s).messages).toList.map
        fun msg => .push id msg.queue (storedTime msg.visibleAt) msg.payload
      else [] := by
    intro t
    have home : ∀ entry ∈ env.hashOrder (e.draws + t.val) (Sigma fun _ : Ulid => StoredMsg)
        (e.shards t).messages.entries, shardIdx entry.2.queue = t := by
      intro entry inside
      have member := (env.hashOrder_perm _ _ _).mem_iff.1 inside
      exact placed t entry.1 entry.2 (AList.mem_lookup_iff.2 member)
    have keyed : ∀ entry ∈ env.hashOrder (e.draws + t.val) (Sigma fun _ : Ulid => StoredMsg)
        (e.shards t).messages.entries,
        decide (Touches s id (WalRecord.push entry.1 entry.2.queue
          (storedTime entry.2.visibleAt) entry.2.payload)) = decide (t = s ∧ entry.1 = id) := by
      intro entry inside
      rw [decide_eq_decide, ← home entry inside]
      rfl
    unfold recordsOf
    rw [List.map_map, List.filter_map]
    refine (congrArg _ (List.filter_congr keyed)).trans ?_
    split
    · rename_i same
      subst same
      have keys := FMap.filter_key_of_perm (env.hashOrder_perm (e.draws + t.val) _
        (e.shards t).messages.entries) id
      simp only [true_and, keys, List.map_map]
      rfl
    · rename_i other
      simp [other]
  unfold QueueEngine.survivors QueueEngine.surviving
  rw [List.map_flatMap, recordsOf, List.filter_flatMap]
  exact (List.flatMap_congr fun t _ => shard t).trans (flatMap_finRange_single s _)

/-- The survivors describe what is in memory. -/
theorem describes_survivors (env : Env) (placed : ∀ s id msg,
      AList.lookup id (e.shards s).messages = some msg → shardIdx msg.queue = s) :
    Describes e.shards (e.survivors env) where
  live s id msg found := by
    rw [recordsOf_survivors env placed, found]
    exact ⟨_, rfl⟩
  gone s id absent := by
    rw [recordsOf_survivors env placed, AList.lookup_eq_none.2 absent]
    exact .inl rfl

theorem Resident.tells_survivors (h : Resident e.shards rs) (env : Env) :
    Tells e.shards (e.survivors env) where
  toDescribes := describes_survivors env h.placed
  unseen s id unseen := by
    have absent : id ∉ (e.shards s).messages := fun inside => unseen ((h.shard s).stored id inside)
    rw [recordsOf_survivors env h.placed, AList.lookup_eq_none.2 absent]
    rfl

theorem length_survivors (e : QueueEngine) (env : Env) :
    (e.survivors env).length = messageCount e.shards := by
  rw [QueueEngine.survivors, QueueEngine.surviving, List.length_map, List.length_flatMap,
    messageCount, Fin.sum_univ_def]
  refine congrArg List.sum (List.map_congr_left fun s _ => ?_)
  rw [List.length_map, (env.hashOrder_perm _ _ _).length_eq]
  rfl

/-- Pushes that fit in RAM are all stored. -/
theorem replay_onlyPushes (pushes : ∀ r ∈ rs, r.isPush = true)
    (fits : rs.length ≤ opts.maxHotMessagesInRam) :
    (replay opts base rs).totalInRam = rs.length ∧ RoomToReplay opts base rs := by
  induction rs using List.reverseRecOn with
  | nil => exact ⟨rfl, .nil⟩
  | append_singleton rs r ih =>
      rw [List.length_append, List.length_singleton] at fits ⊢
      obtain ⟨total, room⟩ := ih (fun r' inside => pushes r' (List.mem_append_left _ inside))
        (by omega)
      refine ⟨?_, room.concat fun _ => by omega⟩
      cases r with
      | ack id queue => cases pushes _ (List.mem_append_right _ (List.mem_singleton_self _))
      | push id queue visibleAt payload =>
          rw [replay_concat, replayRecord]
          dsimp only
          rw [if_pos (by omega)]
          dsimp only
          omega

end Compaction

/-! ## The replay of the log of a run -/

/-- The log tells what is in memory, and its replay has room and counts the messages. -/
structure Retold (opts : QueueOptions) (base : Nat) (a : Fin numShards → ShardState)
    (rs : List WalRecord) : Prop where
  tells : Tells a rs
  room : RoomToReplay opts base rs
  total : (replay opts base rs).totalInRam = messageCount a

section Retold

variable {a b : Fin numShards → ShardState} {opts : QueueOptions} {base : Nat}
  {rs new : List WalRecord} {id : Ulid} {msg : StoredMsg}

theorem Retold.enter (h : Retold opts base a rs) (now visibleAt : Nat)
    (unseen : msg.id ∉ (a (shardIdx msg.queue)).seenIds)
    (absent : msg.id ∉ (a (shardIdx msg.queue)).messages)
    (room : messageCount a < opts.maxHotMessagesInRam) :
    Retold opts base
      (Function.update a (shardIdx msg.queue) ((a (shardIdx msg.queue)).enter now msg))
      (rs ++ [.push msg.id msg.queue visibleAt msg.payload]) := by
  rw [← h.total] at room
  refine ⟨h.tells.enter now visibleAt unseen, h.room.concat fun _ => room, ?_⟩
  have count := messageCount_update a (shardIdx msg.queue)
    ((a (shardIdx msg.queue)).enter now msg)
  have size : FMap.size ((a (shardIdx msg.queue)).enter now msg).messages =
      FMap.size (a (shardIdx msg.queue)).messages + 1 := FMap.size_insert_of_notMem _ absent
  have total := h.total
  rw [replay_concat, replayRecord]
  dsimp only
  rw [if_pos room]
  dsimp only
  omega

theorem Retold.accept (h : Retold opts base a rs) {queue receipt : String}
    {done : ShardState × Bool} (valid : (a (shardIdx queue)).ackLease queue id receipt = some done)
    (seen : id ∈ (a (shardIdx queue)).seenIds) :
    Retold opts base (Function.update a (shardIdx queue) done.1) (rs ++ [.ack id queue]) := by
  refine ⟨h.tells.accept valid seen, h.room.concat fun push => (by cases push), ?_⟩
  have count := messageCount_update a (shardIdx queue) done.1
  have size := ShardState.size_ackLease valid
  rw [ShardState.ackLease_wasLive valid] at size
  have total := h.total
  rw [replay_concat, replayRecord]
  dsimp only
  simp only [(h.tells.restores h.room).mem_iff]
  split
  · rename_i live
    simp only [live, decide_true, if_true] at size
    omega
  · rename_i gone
    simp only [gone, decide_false, Bool.false_eq_true, if_false] at size
    omega

/-- The log goes along with what an operation does, when it logs no known id again. -/
theorem Retold.quick (h : Retold opts base a rs) {log : List WalRecord}
    {asked : List (Ulid × String × List UInt8)} (resident : Resident a log)
    (quick : Quick opts.maxHotMessagesInRam False a new asked b) :
    Retold opts base b (rs ++ new) := by
  induction quick generalizing rs log with
  | keep kept =>
      rw [List.append_nil]
      refine ⟨h.tells.keep kept, h.room, h.total.trans ?_⟩
      exact (messageCount_of_mem fun s => (kept s).mem_messages).symm
  | @enter a now visibleAt msg unseen room =>
      exact h.enter now visibleAt unseen
        (fun inside => unseen ((resident.shard _).stored _ inside)) room
  | again id queue visibleAt payload never => exact never.elim
  | skip =>
      rw [List.append_nil]
      exact h
  | @accept a id queue receipt done valid =>
      exact h.accept valid ((resident.shard _).leased id (ShardState.ackLease_leases valid).1)
  | trans first second ih ih' =>
      rw [← List.append_assoc]
      exact ih' (ih h resident) (resident.quick first)

/-- The log that a compaction writes. -/
theorem Retold.survivors {e : QueueEngine} {log : List WalRecord} (resident : Resident e.shards log)
    (fits : messageCount e.shards ≤ opts.maxHotMessagesInRam) (env : Env) (base : Nat) :
    Retold opts base e.shards (e.survivors env) := by
  have pushes : ∀ r ∈ e.survivors env, r.isPush = true := by
    intro r inside
    obtain ⟨s, id, msg, -, rfl⟩ := mem_survivors.1 inside
    rfl
  have length := length_survivors e env
  have replayed : (replay opts base (e.survivors env)).totalInRam = _ ∧ _ :=
    replay_onlyPushes pushes (by omega)
  obtain ⟨total, room⟩ := replayed
  exact ⟨resident.tells_survivors env, room, total.trans length⟩

end Retold

/-! ## First pushes -/

/-- The ids seen are those pushed, and a message is what its id was first pushed with. -/
structure FirstPushes (pushed : List (Ulid × String × List UInt8))
    (a : Fin numShards → ShardState) : Prop where
  seen : ∀ s, ∀ id ∈ (a s).seenIds, ∃ push ∈ pushed, push.1 = id ∧ shardIdx push.2.1 = s
  known : ∀ push ∈ pushed, push.1 ∈ (a (shardIdx push.2.1)).seenIds
  stored : ∀ s id msg, AList.lookup id (a s).messages = some msg → pushed.lookup id = some msg.core

section FirstPushes

variable {home : Ulid → String} {pushed asked : List (Ulid × String × List UInt8)}
  {a b : Fin numShards → ShardState} {msg : StoredMsg}

theorem FirstPushes.more (h : FirstPushes pushed a) {push : Ulid × String × List UInt8}
    (seen : push.1 ∈ (a (shardIdx push.2.1)).seenIds) : FirstPushes (pushed ++ [push]) a where
  seen s id inside := by
    obtain ⟨old, member, here⟩ := h.seen s id inside
    exact ⟨old, List.mem_append_left _ member, here⟩
  known other member := by
    rcases List.mem_append.1 member with old | new
    · exact h.known other old
    · rwa [List.mem_singleton.1 new]
  stored s id msg found := by
    rw [List.lookup_append, h.stored s id msg found]
    rfl

theorem FirstPushes.enter (h : FirstPushes pushed a) (now : Nat)
    (unseen : msg.id ∉ (a (shardIdx msg.queue)).seenIds)
    (oneQueue : ∀ push ∈ pushed, push.1 = msg.id → push.2.1 = msg.queue) :
    FirstPushes (pushed ++ [(msg.id, msg.queue, msg.payload)])
      (Function.update a (shardIdx msg.queue) ((a (shardIdx msg.queue)).enter now msg)) := by
  have grows : ∀ s id, id ∈ (a s).seenIds → id ∈ (Function.update a (shardIdx msg.queue)
      ((a (shardIdx msg.queue)).enter now msg) s).seenIds := by
    intro s id seen
    by_cases here : s = shardIdx msg.queue
    · subst here
      rw [Function.update_self]
      exact Finset.mem_insert_of_mem seen
    · rwa [Function.update_of_ne here]
  have first : pushed.lookup msg.id = none := by
    rw [List.lookup_eq_none_iff]
    intro push member
    rw [bne_iff_ne]
    intro same
    have known := h.known push member
    rw [oneQueue push member same.symm, ← same] at known
    exact unseen known
  refine ⟨fun s id inside => ?_, fun push member => ?_, fun s id old found => ?_⟩
  · have cases : (∃ push ∈ pushed, push.1 = id ∧ shardIdx push.2.1 = s) ∨
        id = msg.id ∧ s = shardIdx msg.queue := by
      by_cases here : s = shardIdx msg.queue
      · subst here
        rw [Function.update_self] at inside
        rcases Finset.mem_insert.1 inside with new | old
        · exact .inr ⟨new, rfl⟩
        · exact .inl (h.seen _ id old)
      · rw [Function.update_of_ne here] at inside
        exact .inl (h.seen s id inside)
    rcases cases with ⟨push, member, here⟩ | ⟨rfl, rfl⟩
    · exact ⟨push, List.mem_append_left _ member, here⟩
    · exact ⟨_, List.mem_append_right _ (List.mem_singleton_self _), rfl, rfl⟩
  · rcases List.mem_append.1 member with old | new
    · exact grows _ _ (h.known push old)
    · rw [List.mem_singleton.1 new, Function.update_self]
      exact Finset.mem_insert_self _ _
  · rw [List.lookup_append]
    by_cases here : s = shardIdx msg.queue
    · subst here
      rw [Function.update_self, ShardState.lookup_enter] at found
      split at found
      · rename_i new
        cases found
        rw [new, first, List.lookup_cons_self]
        rfl
      · rw [h.stored _ id old found]
        rfl
    · rw [Function.update_of_ne here] at found
      rw [h.stored s id old found]
      rfl

theorem FirstPushes.quick {cap : Nat} {repeats : Prop} {new : List WalRecord}
    (h : FirstPushes pushed a) (quick : Quick cap repeats a new asked b)
    (oneQueue : ∀ push ∈ pushed ++ asked, home push.1 = push.2.1) :
    FirstPushes (pushed ++ asked) b := by
  induction quick generalizing pushed with
  | keep kept =>
      rw [List.append_nil]
      refine ⟨fun s id inside => ?_, fun push member => ?_, fun s id msg found => ?_⟩
      · rw [(kept s).seen] at inside
        exact h.seen s id inside
      · rw [(kept _).seen]
        exact h.known push member
      · obtain ⟨old, wasFound, core⟩ := (kept s).lookup found
        rw [h.stored s id old wasFound, core]
  | @enter a now visibleAt msg unseen room =>
      refine h.enter now unseen fun push member same => ?_
      have mine := oneQueue (msg.id, msg.queue, msg.payload) (by simp)
      rw [← oneQueue push (List.mem_append_left _ member), same]
      exact mine
  | again id queue visibleAt payload allowed seen => exact h.more seen
  | skip id queue payload seen => exact h.more seen
  | @accept a id queue receipt done valid =>
      rw [List.append_nil]
      have same : ∀ s, (Function.update a (shardIdx queue) done.1 s).seenIds = (a s).seenIds :=
        (Function.forall_update_iff a fun s st => st.seenIds = (a s).seenIds).2
          ⟨ShardState.ackLease_seenIds valid, fun s _ => rfl⟩
      refine ⟨fun s id inside => ?_, fun push member => ?_, fun s id msg found => ?_⟩
      · rw [same] at inside
        exact h.seen s id inside
      · rw [same]
        exact h.known push member
      · by_cases here : s = shardIdx queue
        · subst here
          rw [Function.update_self, (ShardState.ackLease_messages valid).1,
            FMap.lookup_erase_ite] at found
          split at found
          · cases found
          · exact h.stored _ id msg found
        · rw [Function.update_of_ne here] at found
          exact h.stored s id msg found
  | trans _ _ first second =>
      rw [← List.append_assoc] at oneQueue ⊢
      exact second (first h fun push member => oneQueue push (List.mem_append_left _ member))
        oneQueue

end FirstPushes

/-! ## Runs -/

/-- What an operation is asked to push, without the payloads. -/
theorem World.map_asked (env : Env) (w : World) (op : Op) :
    (w.asked env op).map (fun push => (push.1, push.2.1)) = w.pushes env op := by
  cases op with
  | pushBatch queue items =>
      have loop : ∀ (items : List PushItem) (acc : PushBatch),
          (items.foldl (QueueEngine.pushBatchItem env w.clock queue) acc).ids =
            acc.ids ++ (pushBatchAsked env w.clock queue acc items).map (·.1) ∧
          ∀ push ∈ pushBatchAsked env w.clock queue acc items, push.2.1 = queue := by
        intro items
        induction items with
        | nil => exact fun acc => ⟨(List.append_nil _).symm, fun _ bad => by cases bad⟩
        | cons item items ih =>
            intro acc
            obtain ⟨ids, queues⟩ := ih (QueueEngine.pushBatchItem env w.clock queue acc item)
            have first : (QueueEngine.pushBatchItem env w.clock queue acc item).ids =
                acc.ids ++ [(drawId env acc.engine.draws item.id).1] := by
              rcases pushBatchItem_cases env w.clock queue acc item with ⟨-, eq⟩ | ⟨-, eq⟩
              · rw [eq]
              · rw [eq, pushBatchNew]
                split <;> rfl
            refine ⟨?_, fun push inside => ?_⟩
            · rw [List.foldl_cons, ids, first, pushBatchAsked, List.map_cons, List.append_assoc]
              rfl
            · rcases List.mem_cons.1 inside with rfl | later
              · rfl
              · exact queues push later
      obtain ⟨ids, queues⟩ := loop items ⟨w.engine, [], 0, w.engine.totalMessagesInRam⟩
      have ids : (pushBatchLoop env w.engine w.clock queue items).ids = _ := ids
      rw [World.pushes, ids, List.nil_append, List.map_map, World.asked]
      exact List.map_congr_left fun push inside => Prod.ext rfl (queues push inside)
  | push | poll | ack | ackBatch | advance => rfl

theorem Ordinary.asked {home : Ulid → String} {env : Env} {w : World} {op : Op}
    (h : Ordinary home env w op) (push : Ulid × String × List UInt8)
    (inside : push ∈ w.asked env op) : home push.1 = push.2.1 := by
  have asked : (push.1, push.2.1) ∈ w.pushes env op := by
    rw [← World.map_asked]
    exact List.mem_map.2 ⟨push, inside, rfl⟩
  exact h.oneQueue _ asked

/-- The operation stays in memory and pushes each id to its own queue, and no single push
repeats an id. -/
structure Steady (home : Ulid → String) (env : Env) (w : World) (op : Op) : Prop where
  ordinary : Ordinary home env w op
  stays : StaysInMemory env w op
  new : PushesNew w op

instance (home : Ulid → String) (env : Env) (w : World) (op : Op) :
    Decidable (Steady home env w op) :=
  decidable_of_iff (Ordinary home env w op ∧ StaysInMemory env w op ∧ PushesNew w op)
    ⟨fun h => ⟨h.1, h.2.1, h.2.2⟩, fun h => ⟨h.ordinary, h.stays, h.new⟩⟩

/-- The segment has the records `rs`, the records `log` and the pushes `pushed` were made. -/
structure Recoverable (base : Nat) (w : World) (rs log : List WalRecord)
    (pushed : List (Ulid × String × List UInt8)) : Prop where
  memory : AllInMemory w rs
  retold : Retold w.engine.options base w.engine.shards rs
  log : Resident w.engine.shards log
  first : FirstPushes pushed w.engine.shards

section Runs

variable {home : Ulid → String} {env : Env} {w : World} {op : Op} {base : Nat}
  {rs log : List WalRecord} {pushed : List (Ulid × String × List UInt8)}

theorem Recoverable.fresh (env : Env) (opts : QueueOptions) (clock base : Nat) :
    Recoverable base (World.fresh env opts clock) [] [] [] where
  memory := .fresh env opts clock
  retold :=
    { tells :=
        { live := fun _ _ _ found => by cases found
          gone := fun _ _ _ => .inl rfl
          unseen := fun _ _ _ => rfl }
      room := .nil
      total := messageCount_new.symm }
  log := (AllInMemory.fresh env opts clock).resident
  first :=
    { seen := fun _ _ seen => absurd seen (Finset.notMem_empty _)
      known := fun _ bad => by cases bad
      stored := fun _ _ _ found => by cases found }

theorem Recoverable.step (h : Recoverable base w rs log pushed) (steady : Steady home env w op)
    (few : (w.step env op).engine.names.length ≤ 65536)
    (oneQueue : ∀ push ∈ pushed, home push.1 = push.2.1) :
    Recoverable base (w.step env op) (w.logAfter env op rs)
      (log ++ (w.appended env op).map WalRecord.stored) (pushed ++ w.asked env op) := by
  have quick : Quick w.engine.options.maxHotMessagesInRam False _ _ _ _ :=
    h.memory.quick steady.stays fun _ => steady.new
  have memory := h.memory.step steady.stays steady.ordinary.small few
  have retold := h.retold.quick h.memory.resident quick
  have queues : ∀ push ∈ pushed ++ w.asked env op, home push.1 = push.2.1 := by
    intro push inside
    rcases List.mem_append.1 inside with old | new
    · exact oneQueue push old
    · exact steady.ordinary.asked push new
  refine ⟨memory, ?_, h.log.quick quick, h.first.quick quick queues⟩
  rw [World.options_step]
  unfold World.logAfter
  cases reached : w.checkpoint env op with
  | none => exact retold
  | some mid =>
      have shards : (w.step env op).engine.shards = mid.shards := by
        rw [World.step_of_checkpoint reached, shards_checkAndTriggerCompaction]
      have resident := h.memory.resident.quick quick
      have fits := quick.messageCount_le h.memory.below
      rw [shards] at retold resident fits ⊢
      unfold QueueEngine.checkedLog
      dsimp only
      split
      · exact .survivors resident fits env base
      · exact retold

/-- Pushes go to the queues of their ids along the run. -/
theorem oneQueue_run {ops : List Op}
    (run : Trace.Along (World.step env) (Steady home env) w ops) :
    ∀ push ∈ Trace.emitted (World.step env) (World.asked env) w ops, home push.1 = push.2.1 :=
  run.forall_emitted fun _ _ steady push inside => steady.ordinary.asked push inside

theorem World.recoverable_run {opts : QueueOptions} {clock : Nat} {ops : List Op}
    (run : Trace.Along (World.step env) (Steady home env) (World.fresh env opts clock) ops)
    (few : ((World.fresh env opts clock).run env ops).engine.names.length ≤ 65536) (base : Nat) :
    ∃ rs, Recoverable base ((World.fresh env opts clock).run env ops) rs
      ((Trace.emitted (World.step env) (World.appended env) (World.fresh env opts clock)
        ops).map WalRecord.stored)
      (Trace.emitted (World.step env) (World.asked env) (World.fresh env opts clock) ops) := by
  induction ops using List.reverseRecOn with
  | nil => exact ⟨[], .fresh env opts clock base⟩
  | append_singleton ops op ih =>
      obtain ⟨before, last⟩ := Trace.along_append.1 run
      rw [World.run_concat] at few ⊢
      obtain ⟨rs, h⟩ := ih before ((World.names_step env _ op).length_le.trans few)
      have step := h.step last.1 few (oneQueue_run before)
      rw [Trace.emitted_concat, Trace.emitted_concat, List.map_append]
      exact ⟨_, step⟩

/-- What a restart finds of a state that is recoverable. -/
theorem Recoverable.restart (h : Recoverable base w rs log pushed)
    (oneQueue : ∀ push ∈ pushed, home push.1 = push.2.1)
    (few : w.engine.names.length ≤ 65536) (short : QueueRegistry.ShortNames w.engine.names)
    (env : Env) (draws : Nat) :
    let e := openDir env w.engine.disk.dir w.engine.options base draws
    Restores w.engine.shards e.shards ∧
    (∀ s id msg, AList.lookup id (e.shards s).messages = some msg → shardIdx msg.queue = s ∧
      (e.shards s).At id (.pending msg) ∧ pushed.lookup id = some (msg.queue, msg.payload)) ∧
    (∀ id queue, .ack id queue ∈ log → ∀ s, id ∉ (e.shards s).messages) ∧
    e.totalMessagesInRam = w.engine.totalMessagesInRam := by
  intro e
  have recovered := h.memory.written.recovered env w.engine.options.maxWalSegmentSize short few
  have shards : e.shards = (replay w.engine.options base rs).shards := by
    show (replay _ base (DiskLog.openDir _ _ _).2).shards = _
    rw [recovered]
  have restores : Restores w.engine.shards e.shards := by
    rw [shards]
    exact h.retold.tells.restores h.retold.room
  refine ⟨restores, fun s id msg found => ?_, fun id queue acked s inside => ?_, ?_⟩
  · have inside := (restores.mem_iff s id).1 (FMap.mem_of_lookup found)
    obtain ⟨old, live⟩ := (FMap.mem_iff_lookup _ _).1 inside
    obtain ⟨again, core, here⟩ := (restores s id).1 old live
    cases here.msg.symm.trans found
    have queue : msg.queue = old.queue := congrArg Prod.fst core
    refine ⟨?_, here, ?_⟩
    · rw [queue]
      exact h.memory.resident.placed s id old live
    · exact (h.first.stored s id old live).trans (congrArg some core.symm)
  · obtain ⟨seen, dead⟩ := h.log.log _ acked
    have gone := ((h.log.shard _).gone id (dead rfl)).2
    -- the shard that has seen the id is the one of its own queue
    have here := (restores.mem_iff s id).1 inside
    obtain ⟨msg, live⟩ := (FMap.mem_iff_lookup _ _).1 here
    obtain ⟨push, member, same, shard⟩ := h.first.seen _ id seen
    obtain ⟨_, _, split, _⟩ := List.lookup_eq_some_iff.1 (h.first.stored s id msg live)
    have one := oneQueue (id, msg.core) (by rw [split]; simp)
    have other := oneQueue push member
    rw [same] at other
    have queue : msg.queue = push.2.1 := one.symm.trans other
    have placed := h.memory.resident.placed s id msg live
    rw [queue, shard] at placed
    exact gone (placed ▸ here)
  · have total : e.totalMessagesInRam = (replay w.engine.options base rs).totalInRam := by
      show (replay _ base (DiskLog.openDir _ _ _).2).totalInRam = _
      rw [recovered]
    rw [total, h.retold.total]
    exact h.memory.total.symm

end Runs

/-- A restart after a steady run finds the messages that were live, each waiting once in its
queue with the payload of its first push, and no message that was acked. -/
theorem World.restart_exact {home : Ulid → String} {env : Env} {opts : QueueOptions} {clock : Nat}
    {ops : List Op}
    (run : Trace.Along (World.step env) (Steady home env) (World.fresh env opts clock) ops)
    (few : ((World.fresh env opts clock).run env ops).engine.names.length ≤ 65536)
    (short : QueueRegistry.ShortNames
      ((World.fresh env opts clock).run env ops).engine.names) (baseEpochSec draws : Nat) :
    let w := (World.fresh env opts clock).run env ops
    let e := openDir env w.engine.disk.dir opts baseEpochSec draws
    let pushed := Trace.emitted (World.step env) (World.asked env) (World.fresh env opts clock) ops
    let logged := Trace.emitted (World.step env) (World.appended env) (World.fresh env opts clock)
      ops
    (∀ s id, id ∈ (e.shards s).messages ↔ id ∈ (w.engine.shards s).messages) ∧
    (∀ s id msg, AList.lookup id (e.shards s).messages = some msg → shardIdx msg.queue = s ∧
      (e.shards s).At id (.pending msg) ∧ pushed.lookup id = some (msg.queue, msg.payload)) ∧
    (∀ id queue, .ack id queue ∈ logged → ∀ s, id ∉ (e.shards s).messages) ∧
    e.totalMessagesInRam = w.engine.totalMessagesInRam := by
  intro w e pushed logged
  obtain ⟨rs, h⟩ := World.recoverable_run run few baseEpochSec
  have options : w.engine.options = opts := World.options_run env _ ops
  have found := h.restart (oneQueue_run run) few short env draws
  rw [options] at found
  obtain ⟨restores, waits, acked, total⟩ := found
  exact ⟨restores.mem_iff, waits,
    fun id queue inside => acked id queue (List.mem_map.2 ⟨_, inside, rfl⟩), total⟩

/-- Ids repeated in batches, one of them after its ack. -/
def repeatedOps : List Op :=
  [.push "jobs" 1 [7] 0, .pushBatch "jobs" [⟨some 1, [8], 0⟩, ⟨some 2, [9], 5⟩, ⟨some 2, [6], 0⟩],
    .poll "jobs" 30 1, .ack "jobs" (ulidText 1) (ulidText (BitVec.ofNat 128 (2 ^ 64 + 1))),
    .pushBatch "jobs" [⟨some 1, [5], 0⟩]]

theorem World.restart_exact_sample :
    let start := World.fresh .sample .default 1600000000
    let e := openDir .sample (start.run .sample repeatedOps).engine.disk.dir .default 1600000100 0
    Trace.Along (World.step .sample) (Steady (fun _ => "jobs") .sample) start repeatedOps ∧
      2 ∈ (e.shards (shardIdx "jobs")).messages ∧ ∀ s, 1 ∉ (e.shards s).messages :=
  have run : Trace.Along (World.step .sample) (Steady (fun _ => "jobs") .sample)
      (World.fresh .sample .default 1600000000) repeatedOps := by decide +kernel
  have exact := World.restart_exact run (by decide +kernel) (by decide +kernel) 1600000100 0
  ⟨run, (exact.1 _ 2).2 (by decide +kernel), exact.2.2.1 1 "jobs" (by decide +kernel)⟩

/-- An id pushed again by a single push is logged again: after a restart it waits twice and has
the payload of the second push, and if it was acked in between it is back. -/
theorem World.restart_repeats :
    let start := World.fresh .sample .default 1600000000
    let reopened := fun w : World =>
      (openDir .sample w.engine.disk.dir .default 1600000100 0).shards (shardIdx "jobs")
    let live := start.run .sample [.push "jobs" 1 [7] 0, .push "jobs" 1 [8] 0]
    let acked := start.run .sample [.push "jobs" 1 [7] 0, .poll "jobs" 30 1,
      .ack "jobs" (ulidText 1) (ulidText (Env.sample.ulidNew 1)), .push "jobs" 1 [8] 0]
    ((live.engine.shards (shardIdx "jobs")).occ "jobs" 1 = 1 ∧
      (AList.lookup 1 (live.engine.shards (shardIdx "jobs")).messages).map (·.payload) = some [7] ∧
      (reopened live).occ "jobs" 1 = 2 ∧
      (AList.lookup 1 (reopened live).messages).map (·.payload) = some [8]) ∧
    1 ∈ (acked.engine.shards (shardIdx "jobs")).ackedIds ∧
      1 ∉ (acked.engine.shards (shardIdx "jobs")).messages ∧ 1 ∈ (reopened acked).messages := by
  decide +kernel

end WalrQueue
