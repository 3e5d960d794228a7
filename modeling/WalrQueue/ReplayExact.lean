import WalrQueue.ReadyCount
import WalrQueue.Reopen

/-!
# Replay of a log with holes

A log is orderly when every id has one Push at most and every Ack comes after the
Push of its id and names the same queue.  Over such a log, as long as the unacked
messages fit into memory, replay is filtering: the shards hold the unacked
messages, and a queue gives out the visible ones in the order of the log, however
the Acks lie between them.
-/

namespace WalrQueue

open QueueEngine

/-! ## Orderly logs -/

/-- The ids that are pushed, in log order. -/
def pushIds (rs : List WalRecord) : List Ulid := (rs.filter WalRecord.isPush).map WalRecord.msgId

/-- The ids that are acked. -/
def ackIds (rs : List WalRecord) : List Ulid :=
  (rs.filter fun r => !r.isPush).map WalRecord.msgId

/-- The Push records without an Ack, in log order. -/
def unacked (rs : List WalRecord) : List WalRecord :=
  rs.filter fun r => r.isPush && decide (r.msgId ∉ ackIds rs)

/-- Each id is pushed once at most, and acked only after its Push and for the same queue. -/
structure Orderly (rs : List WalRecord) : Prop where
  once : (pushIds rs).Nodup
  after : ∀ (i : Nat) (id : Ulid) (queue : String), rs[i]? = some (.ack id queue) →
    ∃ visibleAt payload, .push id queue visibleAt payload ∈ rs.take i

/-- The record is a Push of the id for the queue. -/
def WalRecord.pushes (id : Ulid) (queue : String) : WalRecord → Bool
  | push id' queue' _ _ => id' = id ∧ queue' = queue
  | ack _ _ => false

/-- The record is no Ack, or its Push is among those before. -/
def WalRecord.follows (before : List WalRecord) : WalRecord → Bool
  | push .. => true
  | ack id queue => before.any (pushes id queue)

instance (rs : List WalRecord) : Decidable (Orderly rs) :=
  decidable_of_iff ((pushIds rs).Nodup ∧
      ∀ i < rs.length, (rs[i]?).all (WalRecord.follows (rs.take i)) = true) <| by
    constructor
    · rintro ⟨once, after⟩
      refine ⟨once, fun i id queue found => ?_⟩
      have here := after i (List.getElem?_eq_some_iff.1 found).1
      rw [found] at here
      obtain ⟨r, inside, pushes⟩ := List.any_eq_true.1 here
      cases r with
      | ack => cases pushes
      | push id' queue' visibleAt payload =>
          obtain ⟨rfl, rfl⟩ := of_decide_eq_true pushes
          exact ⟨visibleAt, payload, inside⟩
    · rintro ⟨once, after⟩
      refine ⟨once, fun i inside => ?_⟩
      rw [List.getElem?_eq_getElem inside]
      cases found : rs[i] with
      | push => rfl
      | ack id queue =>
          obtain ⟨visibleAt, payload, before⟩ :=
            after i id queue (by rw [List.getElem?_eq_getElem inside, found])
          exact List.any_eq_true.2 ⟨_, before, decide_eq_true ⟨rfl, rfl⟩⟩

/-- A Push that is visible by now. -/
def WalRecord.visibleBy (now : Nat) : WalRecord → Bool
  | push _ _ visibleAt _ => visibleAt ≤ now
  | ack _ _ => false

/-- The unacked ids of a queue that are visible, in log order. -/
def visibleIds (now : Nat) (queue : String) (rs : List WalRecord) : List Ulid :=
  ((unacked rs).filter fun r => decide (r.queueName = queue) && r.visibleBy now).map
    WalRecord.msgId

section

variable {rs : List WalRecord} {id : Ulid} {queue : String} {visibleAt : Nat}
  {payload : List UInt8}

theorem pushIds_push : pushIds (rs ++ [.push id queue visibleAt payload]) = pushIds rs ++ [id] := by
  rw [pushIds, List.filter_append, List.map_append]
  rfl

theorem pushIds_ack : pushIds (rs ++ [.ack id queue]) = pushIds rs := by
  rw [pushIds, List.filter_append, List.map_append]
  exact List.append_nil _

theorem ackIds_push : ackIds (rs ++ [.push id queue visibleAt payload]) = ackIds rs := by
  rw [ackIds, List.filter_append, List.map_append]
  exact List.append_nil _

theorem ackIds_ack : ackIds (rs ++ [.ack id queue]) = ackIds rs ++ [id] := by
  rw [ackIds, List.filter_append, List.map_append]
  rfl

theorem mem_pushIds_of_mem (inside : .push id queue visibleAt payload ∈ rs) : id ∈ pushIds rs :=
  List.mem_map.2 ⟨_, List.mem_filter.2 ⟨inside, rfl⟩, rfl⟩

theorem mem_ackIds : id ∈ ackIds rs ↔ ∃ queue, .ack id queue ∈ rs := by
  unfold ackIds
  rw [List.mem_map]
  constructor
  · rintro ⟨r, inside, rfl⟩
    obtain ⟨inside, isAck⟩ := List.mem_filter.1 inside
    cases r with
    | push => cases isAck
    | ack id queue => exact ⟨queue, inside⟩
  · rintro ⟨queue, inside⟩
    exact ⟨_, List.mem_filter.2 ⟨inside, rfl⟩, rfl⟩

theorem unacked_subset : unacked rs ⊆ rs := List.filter_subset_self _

theorem unacked_push (fresh : id ∉ ackIds rs) :
    unacked (rs ++ [.push id queue visibleAt payload]) =
      unacked rs ++ [.push id queue visibleAt payload] := by
  unfold unacked
  rw [ackIds_push, List.filter_append]
  simp [WalRecord.isPush, WalRecord.msgId, fresh]

theorem unacked_ack :
    unacked (rs ++ [.ack id queue]) = (unacked rs).filter fun r => decide (r.msgId ≠ id) := by
  unfold unacked
  rw [ackIds_ack, List.filter_append, List.filter_filter]
  simp only [List.filter_cons, WalRecord.isPush, Bool.false_and, Bool.false_eq_true, if_false,
    List.filter_nil, List.append_nil]
  refine List.filter_congr fun r _ => ?_
  rw [Bool.eq_iff_iff]
  simp only [List.mem_append, List.mem_singleton, not_or, Bool.and_eq_true, decide_eq_true_eq]
  tauto

theorem visibleIds_push (fresh : id ∉ ackIds rs) (now : Nat) (name : String) :
    visibleIds now name (rs ++ [.push id queue visibleAt payload]) = visibleIds now name rs ++
      if queue = name ∧ visibleAt ≤ now then [id] else [] := by
  unfold visibleIds
  rw [unacked_push fresh, List.filter_append, List.map_append]
  congr 1
  by_cases mine : queue = name ∧ visibleAt ≤ now
  · simp [mine, WalRecord.queueName, WalRecord.visibleBy, WalRecord.msgId]
  · rw [if_neg mine, List.filter_cons_of_neg, List.filter_nil, List.map_nil]
    intro yes
    obtain ⟨own, visible⟩ := Bool.and_eq_true_iff.1 yes
    exact mine ⟨of_decide_eq_true own, of_decide_eq_true visible⟩

theorem visibleIds_ack (now : Nat) (name : String) :
    visibleIds now name (rs ++ [.ack id queue]) = (visibleIds now name rs).filter (· ≠ id) := by
  unfold visibleIds
  rw [unacked_ack, List.filter_map, List.filter_filter, List.filter_filter]
  congr 1
  refine List.filter_congr fun r _ => ?_
  simp [Bool.and_comm]

namespace Orderly

theorem of_concat {r : WalRecord} (h : Orderly (rs ++ [r])) : Orderly rs where
  once := by
    refine h.once.sublist ?_
    exact ((List.sublist_append_left rs [r]).filter _).map _
  after i id queue found := by
    have short : i < rs.length := (List.getElem?_eq_some_iff.1 found).1
    have later := h.after i id queue (by rw [List.getElem?_append_left short, found])
    rwa [List.take_append_of_le_length short.le] at later

/-- The Push of an Ack at the end. -/
theorem push_of_ack (h : Orderly (rs ++ [.ack id queue])) :
    ∃ visibleAt payload, .push id queue visibleAt payload ∈ rs := by
  have found := h.after rs.length id queue (by simp)
  rwa [List.take_left] at found

theorem fresh_of_push (h : Orderly (rs ++ [.push id queue visibleAt payload])) :
    id ∉ pushIds rs := by
  have once := h.once
  rw [pushIds_push, List.nodup_append] at once
  exact fun inside => once.2.2 id inside id (by simp) rfl

/-- Two Push records of an id are the same. -/
theorem push_unique (h : Orderly rs) {queue' : String} {visibleAt' : Nat} {payload' : List UInt8}
    (one : .push id queue visibleAt payload ∈ rs)
    (other : .push id queue' visibleAt' payload' ∈ rs) :
    queue = queue' ∧ visibleAt = visibleAt' ∧ payload = payload' := by
  have same := List.inj_on_of_nodup_map h.once (List.mem_filter.2 ⟨one, rfl⟩)
    (List.mem_filter.2 ⟨other, rfl⟩) rfl
  cases same
  exact ⟨rfl, rfl, rfl⟩

/-- Acked ids are pushed ids. -/
theorem pushed_of_acked (h : Orderly rs) (acked : id ∈ ackIds rs) : id ∈ pushIds rs := by
  obtain ⟨queue, inside⟩ := mem_ackIds.1 acked
  obtain ⟨i, found⟩ := List.mem_iff_getElem?.1 inside
  obtain ⟨_, _, pushed⟩ := h.after i id queue found
  exact mem_pushIds_of_mem (List.mem_of_mem_take pushed)

/-- A Push at the end is of an id that was not acked. -/
theorem unacked_of_push (h : Orderly (rs ++ [.push id queue visibleAt payload])) :
    id ∉ ackIds rs := fun acked => h.fresh_of_push (h.of_concat.pushed_of_acked acked)

theorem nodup_unacked (h : Orderly rs) : ((unacked rs).map WalRecord.msgId).Nodup := by
  refine h.once.sublist (List.Sublist.map _ ?_)
  have fewer : unacked rs = (rs.filter WalRecord.isPush).filter fun r =>
      decide (r.msgId ∉ ackIds rs) := by
    rw [unacked, List.filter_filter]
    simp only [Bool.and_comm]
  rw [fewer]
  exact List.filter_sublist

/-- An id acked for one queue is not among the visible ids of another. -/
theorem notMem_visibleIds (h : Orderly (rs ++ [.ack id queue])) {name : String}
    (other : name ≠ queue) (now : Nat) : id ∉ visibleIds now name rs := by
  obtain ⟨_, _, pushed⟩ := h.push_of_ack
  intro visible
  obtain ⟨r, inside, rfl⟩ := List.mem_map.1 visible
  obtain ⟨waiting, mine⟩ := List.mem_filter.1 inside
  cases r with
  | ack id queue => simp [WalRecord.visibleBy] at mine
  | push id queue' visibleAt payload =>
      have same := (h.of_concat.push_unique pushed (unacked_subset waiting)).1
      have own : queue' = name := of_decide_eq_true (Bool.and_eq_true_iff.1 mine).1
      exact other (own.symm.trans same.symm)

end Orderly

end

/-! ## One queue -/

/-- Far-future items outside the horizon are kept or dropped, and nothing else changes. -/
theorem SingleQueue.promote_far {limit : Nat} (q : SingleQueue) (items : List FarFutureItem)
    (far : ∀ item ∈ items, limit < item.visibleAt) :
    (items.foldl (promote limit) q).ready = q.ready ∧
      (items.foldl (promote limit) q).deleted = q.deleted ∧
      (items.foldl (promote limit) q).hotDelayBuckets = q.hotDelayBuckets := by
  refine List.foldlRecOn (motive := fun q' : SingleQueue => q'.ready = q.ready ∧
    q'.deleted = q.deleted ∧ q'.hotDelayBuckets = q.hotDelayBuckets) items (promote limit)
    ⟨rfl, rfl, rfl⟩ fun q' same item inside => ?_
  unfold promote
  split
  · exact same
  · rw [if_neg (Nat.not_le.2 (far item inside))]
    exact same

/-- A queue after the replay of a log: the ready ids without a tombstone are the visible ones,
and what is delayed lies behind the base time. -/
structure QueueReplayed (now : Nat) (queue : String) (rs : List WalRecord) (q : SingleQueue) :
    Prop where
  live : q.ready.filter (· ∉ q.deleted) = visibleIds now queue rs
  nodup : q.ready.Nodup
  pushed : ∀ id ∈ q.ready, id ∈ pushIds rs
  marked : ∀ id ∈ q.deleted, id ∈ ackIds rs
  buckets : ∀ sec ∈ q.hotDelayBuckets, now < sec
  far : ∀ item ∈ q.farFuture, addU64 now hotDelayHorizonSec < item.visibleAt

namespace QueueReplayed

variable {now : Nat} {queue name : String} {rs : List WalRecord} {q : SingleQueue} {id : Ulid}
  {visibleAt : Nat} {payload : List UInt8}

theorem new (now : Nat) (queue : String) : QueueReplayed now queue [] (.new now) where
  live := rfl
  nodup := List.nodup_nil
  pushed _ inside := by cases inside
  marked _ inside := by cases inside
  buckets _ inside := by cases inside
  far _ inside := by cases inside

/-- A Push of another queue. -/
theorem push_other (h : QueueReplayed now queue rs q) (fresh : id ∉ ackIds rs)
    (other : name ≠ queue) :
    QueueReplayed now queue (rs ++ [.push id name visibleAt payload]) q where
  live := by
    rw [visibleIds_push fresh, if_neg fun mine => other mine.1, List.append_nil]
    exact h.live
  nodup := h.nodup
  pushed id inside := by
    rw [pushIds_push]
    exact List.mem_append_left _ (h.pushed id inside)
  marked id inside := by
    rw [ackIds_push]
    exact h.marked id inside
  buckets := h.buckets
  far := h.far

/-- A Push of the queue. -/
theorem push (h : QueueReplayed now queue rs q) (fresh : id ∉ ackIds rs) (new : id ∉ pushIds rs) :
    QueueReplayed now queue (rs ++ [.push id queue visibleAt payload])
      (q.insert id visibleAt now) := by
  have noTomb : q.deleted.erase id = q.deleted :=
    Finset.erase_eq_of_notMem fun tomb => fresh (h.marked id tomb)
  have more : ∀ m ∈ pushIds rs, m ∈ pushIds (rs ++ [.push id queue visibleAt payload]) := by
    intro m inside
    rw [pushIds_push]
    exact List.mem_append_left _ inside
  have marked : ∀ m ∈ q.deleted, m ∈ ackIds (rs ++ [.push id queue visibleAt payload]) := by
    intro m tomb
    rw [ackIds_push]
    exact h.marked m tomb
  have visible : visibleIds now queue (rs ++ [.push id queue visibleAt payload]) =
      visibleIds now queue rs ++ if queue = queue ∧ visibleAt ≤ now then [id] else [] :=
    visibleIds_push fresh now queue
  unfold SingleQueue.insert
  dsimp only
  rw [noTomb]
  by_cases ready : visibleAt ≤ now
  · rw [if_pos ⟨rfl, ready⟩] at visible
    rw [if_pos ready]
    refine ⟨?_, ?_, ?_, marked, h.buckets, h.far⟩
    · have alive : id ∉ q.deleted := fun tomb => fresh (h.marked id tomb)
      rw [visible, ← h.live, List.filter_append, List.filter_cons_of_pos (by simpa using alive)]
      rfl
    · exact List.nodup_append.2 ⟨h.nodup, List.nodup_singleton id, fun m inside m' last same =>
        new (List.mem_singleton.1 last ▸ same ▸ h.pushed m inside)⟩
    · intro m inside
      rcases List.mem_append.1 inside with old | last
      · exact more m (h.pushed m old)
      · rw [List.mem_singleton.1 last, pushIds_push]
        simp
  · have none : ¬ (queue = queue ∧ visibleAt ≤ now) := fun mine => ready mine.2
    rw [if_neg none, List.append_nil] at visible
    rw [if_neg ready]
    split
    · refine ⟨h.live.trans visible.symm, h.nodup, fun m inside => more m (h.pushed m inside),
        marked, fun sec inside => ?_, h.far⟩
      rcases (AList.mem_insert _).1 inside with rfl | old
      · exact Nat.lt_of_not_le ready
      · exact h.buckets sec old
    · rename_i outside
      refine ⟨h.live.trans visible.symm, h.nodup, fun m inside => more m (h.pushed m inside),
        marked, h.buckets, fun item inside => ?_⟩
      rcases List.mem_append.1 inside with old | last
      · exact h.far item old
      · rw [List.mem_singleton.1 last]
        exact Nat.lt_of_not_le outside

/-- An Ack that marks nothing in the queue. -/
theorem ack_unmarked (h : QueueReplayed now queue rs q) (absent : id ∉ visibleIds now queue rs) :
    QueueReplayed now queue (rs ++ [.ack id name]) q where
  live := by
    rw [visibleIds_ack, h.live, List.filter_eq_self.2]
    intro m inside
    have other : m ≠ id := fun same => absent (same ▸ inside)
    simpa using other
  nodup := h.nodup
  pushed m inside := by
    rw [pushIds_ack]
    exact h.pushed m inside
  marked m inside := by
    rw [ackIds_ack]
    exact List.mem_append_left _ (h.marked m inside)
  buckets := h.buckets
  far := h.far

/-- An Ack of the queue: the id leaves the front, or gets a tombstone. -/
theorem ack (h : QueueReplayed now queue rs q) :
    QueueReplayed now queue (rs ++ [.ack id name]) (q.markDeleted id) := by
  have marked : ∀ m ∈ q.deleted, m ∈ ackIds (rs ++ [.ack id name]) := by
    intro m tomb
    rw [ackIds_ack]
    exact List.mem_append_left _ (h.marked m tomb)
  have pushed : ∀ m ∈ q.ready, m ∈ pushIds (rs ++ [.ack id name]) := by
    intro m inside
    rw [pushIds_ack]
    exact h.pushed m inside
  have live := h.live
  have nodup := h.nodup
  unfold SingleQueue.markDeleted
  split
  · rename_i head
    obtain ⟨rest, ready⟩ := List.head?_eq_some_iff.1 head
    rw [ready] at live nodup
    obtain ⟨gone, nodup⟩ := List.nodup_cons.1 nodup
    refine ⟨?_, by rwa [ready], fun m inside => pushed m (List.mem_of_mem_tail inside), marked,
      h.buckets, h.far⟩
    have whole : rest.filter (· ≠ id) = rest := by
      refine List.filter_eq_self.2 fun m inside => ?_
      have other : m ≠ id := fun same => gone (same ▸ inside)
      simpa using other
    rw [visibleIds_ack, ← live, ready, List.tail_cons, List.filter_comm,
      List.filter_cons_of_neg (by simp), whole]
  · refine ⟨?_, nodup, pushed, fun m tomb => ?_, h.buckets, h.far⟩
    · rw [visibleIds_ack, ← live, List.filter_filter]
      refine List.filter_congr fun m _ => ?_
      simp
    · rcases Finset.mem_insert.1 tomb with rfl | old
      · rw [ackIds_ack]
        simp
      · exact marked m old

/-- Nothing matures at the base time. -/
theorem advanceAndDrain (h : QueueReplayed now queue rs q) {order : List Nat → List Nat}
    (perm : ∀ keys, (order keys).Perm keys) :
    (q.advanceAndDrain order now).ready = q.ready ∧
      (q.advanceAndDrain order now).deleted = q.deleted := by
  unfold SingleQueue.advanceAndDrain
  split
  · exact ⟨rfl, rfl⟩
  · dsimp only
    obtain ⟨ready, deleted, buckets⟩ :=
      SingleQueue.promote_far { q with farFuture := [] } q.farFuture h.far
    have none : (order (q.farFuture.foldl (SingleQueue.promote (addU64 now hotDelayHorizonSec))
        { q with farFuture := [] }).hotDelayBuckets.keys).filter (fun sec => sec ≤ now) = [] := by
      refine List.filter_eq_nil_iff.2 fun sec inside due => ?_
      have key : sec ∈ q.hotDelayBuckets := by
        rw [buckets] at inside
        exact AList.mem_keys.2 ((perm _).mem_iff.1 inside)
      exact absurd (of_decide_eq_true due) (Nat.not_le.2 (h.buckets sec key))
    rw [none]
    exact ⟨ready, deleted⟩

/-- Popping until the queue is empty. -/
theorem popMany (h : QueueReplayed now queue rs q) {n : Nat} (enough : q.ready.length ≤ n) :
    (q.popMany n).2 = visibleIds now queue rs := by
  rw [SingleQueue.popMany_eq_live enough, SingleQueue.live_of_nodup h.nodup, h.live]

end QueueReplayed

/-! ## All shards -/

/-- The message of an unacked Push of the shard. -/
def UnackedIn (opts : QueueOptions) (rs : List WalRecord) (s : Fin numShards) (id : Ulid)
    (msg : StoredMsg) : Prop :=
  ∃ queue visibleAt payload, .push id queue visibleAt payload ∈ unacked rs ∧ shardIdx queue = s ∧
    msg = ⟨id, queue, payload, visibleAt, 0, opts.maxDeliveryCount⟩

/-- The queue of a replay, or a new one. -/
def QueueEngine.Replay.queue (acc : Replay) (now : Nat) (name : String) : SingleQueue :=
  FMap.getD (acc.shards (shardIdx name)).queues name (.new now)

/-- What the replay of an orderly log leaves. -/
structure Replayed (opts : QueueOptions) (now : Nat) (rs : List WalRecord) (acc : Replay) :
    Prop where
  messages : ∀ s id msg, AList.lookup id (acc.shards s).messages = some msg ↔
    UnackedIn opts rs s id msg
  ram : acc.totalInRam = (unacked rs).length
  queues : ∀ name, QueueReplayed now name rs (acc.queue now name)

section

variable {opts : QueueOptions} {now : Nat} {rs : List WalRecord} {acc : Replay} {id m : Ulid}
  {queue : String} {visibleAt : Nat} {payload : List UInt8} {s : Fin numShards} {msg : StoredMsg}

theorem UnackedIn.pushed (h : UnackedIn opts rs s m msg) : m ∈ pushIds rs := by
  obtain ⟨_, _, _, waiting, _⟩ := h
  exact mem_pushIds_of_mem (unacked_subset waiting)

theorem unackedIn_push (fresh : id ∉ ackIds rs) :
    UnackedIn opts (rs ++ [.push id queue visibleAt payload]) s m msg ↔
      UnackedIn opts rs s m msg ∨ (m = id ∧ s = shardIdx queue ∧
        msg = ⟨id, queue, payload, visibleAt, 0, opts.maxDeliveryCount⟩) := by
  unfold UnackedIn
  rw [unacked_push fresh]
  constructor
  · rintro ⟨queue', visibleAt', payload', waiting, rfl, rfl⟩
    rcases List.mem_append.1 waiting with old | last
    · exact .inl ⟨queue', visibleAt', payload', old, rfl, rfl⟩
    · cases List.mem_singleton.1 last
      exact .inr ⟨rfl, rfl, rfl⟩
  · rintro (⟨queue', visibleAt', payload', old, mine, stored⟩ | ⟨rfl, rfl, rfl⟩)
    · exact ⟨queue', visibleAt', payload', List.mem_append_left _ old, mine, stored⟩
    · exact ⟨queue, visibleAt, payload, List.mem_append_right _ (List.mem_singleton.2 rfl), rfl,
        rfl⟩

theorem unackedIn_ack :
    UnackedIn opts (rs ++ [.ack id queue]) s m msg ↔ m ≠ id ∧ UnackedIn opts rs s m msg := by
  unfold UnackedIn
  rw [unacked_ack]
  constructor
  · rintro ⟨queue', visibleAt', payload', waiting, stored⟩
    obtain ⟨old, other⟩ := List.mem_filter.1 waiting
    exact ⟨of_decide_eq_true other, queue', visibleAt', payload', old, stored⟩
  · rintro ⟨other, queue', visibleAt', payload', old, stored⟩
    exact ⟨queue', visibleAt', payload', List.mem_filter.2 ⟨old, decide_eq_true other⟩, stored⟩

/-- The shard of an id that is acked at the end. -/
theorem Orderly.shard_of_ack (orderly : Orderly (rs ++ [.ack id queue]))
    (stored : UnackedIn opts rs s id msg) : s = shardIdx queue := by
  obtain ⟨_, _, pushed⟩ := orderly.push_of_ack
  obtain ⟨queue', _, _, waiting, rfl, _⟩ := stored
  rw [(orderly.of_concat.push_unique pushed (unacked_subset waiting)).1]

theorem length_filter_ne (xs : List WalRecord) (id : Ulid) :
    (xs.filter fun r => decide (r.msgId ≠ id)).length + (xs.map WalRecord.msgId).count id =
      xs.length := by
  induction xs with
  | nil => rfl
  | cons r xs ih =>
      by_cases same : r.msgId = id
      · simp [same] at ih ⊢
        omega
      · simp [same] at ih ⊢
        omega

namespace Replayed

theorem start (opts : QueueOptions) (now : Nat) : Replayed opts now [] ⟨fun _ => .new, 0⟩ where
  messages s id msg := by
    constructor
    · intro found
      cases found
    · rintro ⟨_, _, _, inside, _⟩
      cases inside
  ram := rfl
  queues name := .new now name

theorem queue_store (acc : Replay) (now : Nat) (msg : StoredMsg) (seen : Finset Ulid)
    (total : Nat) (name : String) :
    Replay.queue ⟨Function.update acc.shards (shardIdx msg.queue)
      (ShardState.store { acc.shards (shardIdx msg.queue) with seenIds := seen } now msg), total⟩
      now name =
        if name = msg.queue then (acc.queue now msg.queue).insert msg.id msg.visibleAt now
        else acc.queue now name := by
  unfold Replay.queue
  dsimp only
  by_cases mine : shardIdx name = shardIdx msg.queue
  · rw [mine, Function.update_self, ShardState.store, FMap.getD]
    dsimp only
    rw [FMap.lookup_insert_ite]
    split
    · rfl
    · rfl
  · rw [Function.update_of_ne mine, if_neg fun same => mine (congrArg shardIdx same)]

theorem push (h : Replayed opts now rs acc)
    (orderly : Orderly (rs ++ [.push id queue visibleAt payload]))
    (room : (unacked rs).length < opts.maxHotMessagesInRam) :
    Replayed opts now (rs ++ [.push id queue visibleAt payload])
      (replayRecord opts now acc (.push id queue visibleAt payload)) := by
  have fresh := orderly.unacked_of_push
  have new := orderly.fresh_of_push
  have step : replayRecord opts now acc (.push id queue visibleAt payload) =
      ⟨Function.update acc.shards (shardIdx queue) (ShardState.store
        { acc.shards (shardIdx queue) with
          seenIds := insert id (acc.shards (shardIdx queue)).seenIds } now
        ⟨id, queue, payload, visibleAt, 0, opts.maxDeliveryCount⟩), acc.totalInRam + 1⟩ := by
    unfold replayRecord
    dsimp only
    rw [if_pos (h.ram ▸ room)]
  rw [step]
  refine ⟨fun s m msg => ?_, ?_, fun name => ?_⟩
  · rw [unackedIn_push fresh]
    dsimp only
    by_cases mine : s = shardIdx queue
    · subst mine
      rw [Function.update_self, ShardState.store]
      dsimp only
      rw [FMap.lookup_insert_ite]
      split
      · rename_i same
        subst same
        have none : ¬ UnackedIn opts rs (shardIdx queue) m msg := fun old => new old.pushed
        simp [none, eq_comm]
      · rename_i other
        simp [other, h.messages]
    · rw [Function.update_of_ne mine, h.messages]
      simp [mine]
  · rw [unacked_push fresh, List.length_append, h.ram]
    rfl
  · rw [queue_store acc now ⟨id, queue, payload, visibleAt, 0, opts.maxDeliveryCount⟩]
    split
    · rename_i same
      subst same
      exact (h.queues name).push fresh new
    · rename_i other
      exact (h.queues name).push_other fresh (Ne.symm other)

/-- An Ack marks the id in its queue, if that is there. -/
theorem queue_applyAck (acc : Replay) (now : Nat) (queue : String) (id : Ulid) (total : Nat)
    (name : String) :
    let after := Replay.queue ⟨Function.update acc.shards (shardIdx queue)
      ((acc.shards (shardIdx queue)).applyAck queue id), total⟩ now name
    (name = queue ∧ after = (acc.queue now name).markDeleted id) ∨
      (after = acc.queue now name ∧ (name = queue → acc.queue now name = .new now)) := by
  intro after
  by_cases mine : shardIdx name = shardIdx queue
  · have found : after =
        FMap.getD ((acc.shards (shardIdx queue)).applyAck queue id).queues name (.new now) := by
      simp only [after, Replay.queue, mine, Function.update_self]
    have before : acc.queue now name =
        FMap.getD (acc.shards (shardIdx queue)).queues name (.new now) := by
      rw [Replay.queue, mine]
    rw [found, before, ShardState.applyAck, ShardState.markDeleted]
    dsimp only
    cases present : AList.lookup queue (acc.shards (shardIdx queue)).queues with
    | none =>
        refine .inr ⟨rfl, fun same => ?_⟩
        rw [same, FMap.getD, present]
        rfl
    | some q =>
        dsimp only
        rw [FMap.getD, FMap.lookup_insert_ite]
        split
        · rename_i same
          rw [same, FMap.getD, present]
          exact .inl ⟨rfl, rfl⟩
        · rename_i other
          exact .inr ⟨rfl, fun same => absurd same other⟩
  · refine .inr ⟨?_, fun same => absurd (congrArg shardIdx same) mine⟩
    simp only [after, Replay.queue, Function.update_of_ne mine]

theorem ram_ack (h : Replayed opts now rs acc) (orderly : Orderly (rs ++ [.ack id queue])) :
    (if id ∈ (acc.shards (shardIdx queue)).messages then acc.totalInRam - 1
      else acc.totalInRam) = (unacked (rs ++ [.ack id queue])).length := by
  have total := length_filter_ne (unacked rs) id
  rw [unacked_ack, h.ram]
  split
  · rename_i inside
    obtain ⟨msg, found⟩ := (FMap.mem_iff_lookup _ _).1 inside
    obtain ⟨_, _, _, waiting, _⟩ := (h.messages _ _ _).1 found
    have once : ((unacked rs).map WalRecord.msgId).count id = 1 :=
      List.count_eq_one_of_mem orderly.of_concat.nodup_unacked (List.mem_map.2 ⟨_, waiting, rfl⟩)
    omega
  · rename_i outside
    have none : ((unacked rs).map WalRecord.msgId).count id = 0 := by
      refine List.count_eq_zero.2 fun inside => outside ?_
      obtain ⟨r, waiting, rfl⟩ := List.mem_map.1 inside
      have isPush := (Bool.and_eq_true_iff.1 (List.mem_filter.1 waiting).2).1
      cases r with
      | ack => cases isPush
      | push id queue' visibleAt payload =>
          have stored : UnackedIn opts rs (shardIdx queue') id _ :=
            ⟨queue', visibleAt, payload, waiting, rfl, rfl⟩
          have mine := orderly.shard_of_ack stored
          rw [mine] at stored
          exact FMap.mem_of_lookup ((h.messages _ _ _).2 stored)
    omega

theorem ack (h : Replayed opts now rs acc) (orderly : Orderly (rs ++ [.ack id queue])) :
    Replayed opts now (rs ++ [.ack id queue]) (replayRecord opts now acc (.ack id queue)) := by
  unfold replayRecord
  dsimp only
  refine ⟨fun s m msg => ?_, h.ram_ack orderly, fun name => ?_⟩
  · rw [unackedIn_ack]
    dsimp only
    by_cases mine : s = shardIdx queue
    · subst mine
      rw [Function.update_self, ShardState.applyAck, ShardState.messages_markDeleted]
      dsimp only
      rw [FMap.lookup_erase_ite]
      split
      · rename_i same
        simp [same]
      · rename_i other
        simp [other, h.messages]
    · rw [Function.update_of_ne mine, h.messages]
      refine ⟨fun stored => ⟨fun same => ?_, stored⟩, fun both => both.2⟩
      subst same
      exact mine (orderly.shard_of_ack stored)
  · rcases queue_applyAck acc now queue id (if id ∈ (acc.shards (shardIdx queue)).messages then
        acc.totalInRam - 1 else acc.totalInRam) name with ⟨_, marked⟩ | ⟨same, empty⟩
    · rw [marked]
      exact (h.queues name).ack
    · rw [same]
      refine (h.queues name).ack_unmarked ?_
      by_cases own : name = queue
      · have live := (h.queues name).live
        rw [empty own] at live
        rw [← live]
        exact List.not_mem_nil
      · exact orderly.notMem_visibleIds own now

/-- The replay of an orderly log that fits into memory at every prefix. -/
theorem replay (orderly : Orderly rs)
    (room : ∀ before, before <+: rs → (unacked before).length < opts.maxHotMessagesInRam) :
    Replayed opts now rs (QueueEngine.replay opts now rs) := by
  induction rs using List.reverseRecOn with
  | nil => exact start opts now
  | append_singleton rs r ih =>
      have so_far := ih orderly.of_concat fun before part =>
        room before (part.trans (List.prefix_append _ _))
      have step : QueueEngine.replay opts now (rs ++ [r]) =
          replayRecord opts now (QueueEngine.replay opts now rs) r := by
        rw [QueueEngine.replay, List.foldl_append]
        rfl
      rw [step]
      cases r with
      | push id queue visibleAt payload =>
          exact so_far.push orderly (room rs (List.prefix_append _ _))
      | ack id queue => exact so_far.ack orderly

end Replayed

end

/-- Opening a directory whose log is orderly and fits into memory at every prefix: memory is
the unacked messages, and each queue, drained or not at the base time, pops its visible ids in
log order. -/
theorem QueueEngine.openDir_exact (env : Env) (dir : DataDir) (opts : QueueOptions)
    (baseEpochSec draws : Nat) (rs : List WalRecord)
    (recovered : (DiskLog.openDir env dir opts.maxWalSegmentSize).2 = rs) (orderly : Orderly rs)
    (room : ∀ before, before <+: rs → (unacked before).length < opts.maxHotMessagesInRam) :
    let e := openDir env dir opts baseEpochSec draws
    (∀ s id msg, AList.lookup id (e.shards s).messages = some msg ↔ UnackedIn opts rs s id msg) ∧
    e.totalMessagesInRam = (unacked rs).length ∧
    (∀ s id, id ∈ (e.shards s).seenIds ↔
      ∃ queue visibleAt payload, .push id queue visibleAt payload ∈ rs ∧ shardIdx queue = s) ∧
    (∀ s id, id ∈ (e.shards s).ackedIds ↔ ∃ queue, .ack id queue ∈ rs ∧ shardIdx queue = s) ∧
    ∀ queue, let q := FMap.getD (e.shards (shardIdx queue)).queues queue (.new baseEpochSec)
      ∀ n, q.ready.length ≤ n →
        (q.popMany n).2 = visibleIds baseEpochSec queue rs ∧
        ∀ order : List Nat → List Nat, (∀ keys, (order keys).Perm keys) →
          ((q.advanceAndDrain order baseEpochSec).popMany n).2 =
            visibleIds baseEpochSec queue rs := by
  intro e
  have replayed : Replayed opts baseEpochSec rs (replay opts baseEpochSec rs) :=
    .replay orderly room
  have shards : e.shards = (replay opts baseEpochSec rs).shards := by
    rw [← recovered]
    rfl
  have total : e.totalMessagesInRam = (replay opts baseEpochSec rs).totalInRam := by
    rw [← recovered]
    rfl
  have ids := replay_ids opts baseEpochSec ⟨fun _ => .new, 0⟩ rs
  rw [shards, total]
  refine ⟨replayed.messages, replayed.ram, fun s id => ?_, fun s id => ?_, fun queue => ?_⟩
  · refine (ids s id).1.trans ⟨?_, ?_⟩
    · rintro (none | ⟨r, inside, isPush, mine, rfl⟩)
      · cases none
      · cases r with
        | ack => cases isPush
        | push id queue visibleAt payload => exact ⟨queue, visibleAt, payload, inside, mine⟩
    · rintro ⟨queue, visibleAt, payload, inside, mine⟩
      exact .inr ⟨_, inside, rfl, mine, rfl⟩
  · refine (ids s id).2.trans ⟨?_, ?_⟩
    · rintro (none | ⟨r, inside, isAck, mine, rfl⟩)
      · cases none
      · cases r with
        | push => cases isAck
        | ack id queue => exact ⟨queue, inside, mine⟩
    · rintro ⟨queue, inside, mine⟩
      exact .inr ⟨_, inside, rfl, mine, rfl⟩
  · intro q n enough
    have own : QueueReplayed baseEpochSec queue rs q := replayed.queues queue
    refine ⟨own.popMany enough, fun order perm => ?_⟩
    obtain ⟨ready, deleted⟩ := own.advanceAndDrain perm
    rw [SingleQueue.popMany_eq_live (by rwa [ready]), ready, deleted,
      ← SingleQueue.popMany_eq_live enough]
    exact own.popMany enough

/-- Four messages, the second of them acked and the last one delayed. -/
theorem QueueEngine.openDir_exact_sample :
    let w := (World.fresh .sample .default 1700000000).run .sample
      [.push "a" 1 [1] 0, .push "a" 2 [2] 0, .push "a" 3 [3] 0, .push "a" 4 [4] 60,
        .poll "a" 30 2, .ack "a" (ulidText 2) (ulidText (.ofNat 128 (2 ^ 64 + 2)))]
    let e := openDir .sample w.engine.disk.dir .default 1700000000 0
    let q := FMap.getD (e.shards (shardIdx "a")).queues "a" (.new 1700000000)
    (DiskLog.openDir .sample w.engine.disk.dir QueueOptions.default.maxWalSegmentSize).2 =
      [.push 1 "a" 1700000000 [1], .push 2 "a" 1700000000 [2], .push 3 "a" 1700000000 [3],
        .push 4 "a" 1700000060 [4], .ack 2 "a"] ∧
    e.totalMessagesInRam = 3 ∧ (q.popMany 4).2 = [1, 3] := by
  intro w e q
  have recovered : (DiskLog.openDir .sample w.engine.disk.dir
      QueueOptions.default.maxWalSegmentSize).2 =
      [.push 1 "a" 1700000000 [1], .push 2 "a" 1700000000 [2], .push 3 "a" 1700000000 [3],
        .push 4 "a" 1700000060 [4], .ack 2 "a"] := by decide +kernel
  have exact := openDir_exact .sample w.engine.disk.dir .default 1700000000 0 _ recovered
    (by decide +kernel) fun before part => by
      have short : (unacked before).length ≤ 5 := (List.length_filter_le _ _).trans part.length_le
      exact Nat.lt_of_le_of_lt short (by decide)
  have ready : q.ready.length ≤ 4 := by decide +kernel
  exact ⟨recovered, exact.2.1.trans (by decide +kernel),
    (exact.2.2.2.2 "a" 4 ready).1.trans (by decide +kernel)⟩

end WalrQueue
