import WalrQueue.QueueRun

/-!
# A queue that remembers visibility times

`SingleQueue` keeps only the id of an occurrence once it is in a bucket or ready.  The queue
here keeps the visibility time each occurrence was inserted with and does the same with it;
forgetting the times gives back the `SingleQueue`, call by call.

With the times at hand one can ask whether an id is returned early.  It is not when it went
through a bucket of its own second.  The far future is promoted into buckets of a minute,
under the minute's first second, so an id that waited there can come up to 59 s early.
-/

namespace WalrQueue

/-- A queue of occurrences, each an id with the visibility time it was inserted with. -/
structure TimedQueue where
  ready : List FarFutureItem
  hotDelayBuckets : FMap Nat (List FarFutureItem)
  farFuture : List FarFutureItem
  deleted : Finset Ulid
  lastDrainedSec : Nat

/-- An insertion that goes to the far future is due on a full minute. -/
def QueueCall.OnTheMinute (c : QueueCall) : Prop :=
  match c.op with
  | .insert _ visibleAt =>
      visibleAt ≤ c.now ∨ visibleAt ≤ addU64 c.now hotDelayHorizonSec ∨ 60 ∣ visibleAt
  | _ => True

instance (c : QueueCall) : Decidable c.OnTheMinute := by
  unfold QueueCall.OnTheMinute
  split <;> infer_instance

namespace TimedQueue

def new (nowSec : Nat) : TimedQueue := ⟨[], ∅, [], ∅, nowSec⟩

/-- The queue without the times. -/
def forget (q : TimedQueue) : SingleQueue where
  ready := q.ready.map (·.id)
  hotDelayBuckets := FMap.mapValues (List.map (·.id)) q.hotDelayBuckets
  farFuture := q.farFuture
  deleted := q.deleted
  lastDrainedSec := q.lastDrainedSec

/-! ## The calls -/

def pushBucket (q : TimedQueue) (sec : Nat) (item : FarFutureItem) : TimedQueue :=
  { q with hotDelayBuckets :=
      AList.insert sec (FMap.getD q.hotDelayBuckets sec [] ++ [item]) q.hotDelayBuckets }

def promote (horizonLimit : Nat) (q : TimedQueue) (item : FarFutureItem) : TimedQueue :=
  if item.id ∈ q.deleted then q
  else if item.visibleAt ≤ horizonLimit then q.pushBucket (item.visibleAt / 60 * 60) item
  else { q with farFuture := q.farFuture ++ [item] }

def drainItem (q : TimedQueue) (item : FarFutureItem) : TimedQueue :=
  if item.id ∈ q.deleted then { q with deleted := q.deleted.erase item.id }
  else { q with ready := q.ready ++ [item] }

def drainBucket (q : TimedQueue) (sec : Nat) : TimedQueue :=
  match AList.lookup sec q.hotDelayBuckets with
  | some bucket =>
      bucket.foldl drainItem { q with hotDelayBuckets := AList.erase sec q.hotDelayBuckets }
  | none => q

def advanceAndDrain (order : List Nat → List Nat) (q : TimedQueue) (nowSec : Nat) : TimedQueue :=
  if nowSec < q.lastDrainedSec then q
  else
    let horizonLimit := addU64 nowSec hotDelayHorizonSec
    let q := q.farFuture.foldl (promote horizonLimit) { q with farFuture := [] }
    let readySecs := (order q.hotDelayBuckets.keys).filter (fun sec => sec ≤ nowSec)
    { readySecs.foldl drainBucket q with lastDrainedSec := nowSec }

def insert (q : TimedQueue) (item : FarFutureItem) (nowSec : Nat) : TimedQueue :=
  let q := { q with deleted := q.deleted.erase item.id }
  if item.visibleAt ≤ nowSec then { q with ready := q.ready ++ [item] }
  else if item.visibleAt ≤ addU64 nowSec hotDelayHorizonSec then q.pushBucket item.visibleAt item
  else { q with farFuture := q.farFuture ++ [item] }

def markDeleted (q : TimedQueue) (id : Ulid) : TimedQueue :=
  if q.ready.head?.map (·.id) = some id then { q with ready := q.ready.tail }
  else { q with deleted := Insert.insert id q.deleted }

def popLoop : List FarFutureItem → Finset Ulid →
    List FarFutureItem × Finset Ulid × Option FarFutureItem
  | [], deleted => ([], deleted, none)
  | item :: ready, deleted =>
      if item.id ∈ deleted then popLoop ready (deleted.erase item.id)
      else (ready, deleted, some item)

def popReady (q : TimedQueue) : TimedQueue × Option FarFutureItem :=
  match popLoop q.ready q.deleted with
  | (ready, deleted, some item) => ({ q with ready, deleted }, some item)
  | (ready, _, none) => ({ q with ready, deleted := ∅ }, none)

def call (q : TimedQueue) (c : QueueCall) : TimedQueue :=
  match c.op with
  | .insert id visibleAt => q.insert ⟨id, visibleAt⟩ c.now
  | .advanceAndDrain order => q.advanceAndDrain order c.now
  | .markDeleted id => q.markDeleted id
  | .popReady => q.popReady.1

def returns (q : TimedQueue) : QueueOp → List FarFutureItem
  | .popReady => q.popReady.2.toList
  | _ => []

abbrev step : Clocked TimedQueue → QueueCall → Clocked TimedQueue := Clocked.step call

def start (now : Nat) : Clocked TimedQueue := ⟨.new now, now⟩

/-- The occurrences the calls of a run return, with the clock at each. -/
def returned : Clocked TimedQueue → List QueueCall → List (Nat × FarFutureItem) :=
  Trace.emitted step fun s c => (s.queue.returns c.op).map (c.now, ·)

/-! ## Forgetting the times -/

variable {q : TimedQueue}

theorem forget_pushBucket (q : TimedQueue) (sec : Nat) (item : FarFutureItem) :
    (q.pushBucket sec item).forget = q.forget.pushBucket sec item.id := by
  have bucket : (FMap.getD q.hotDelayBuckets sec [] ++ [item]).map (·.id) =
      FMap.getD q.forget.hotDelayBuckets sec [] ++ [item.id] := by
    rw [List.map_append]
    simp only [forget, FMap.getD, FMap.lookup_mapValues]
    cases AList.lookup sec q.hotDelayBuckets <;> rfl
  simp only [pushBucket, SingleQueue.pushBucket, ← bucket]
  simp only [forget, FMap.mapValues_insert]

theorem forget_promote (limit : Nat) (q : TimedQueue) (item : FarFutureItem) :
    (promote limit q item).forget = SingleQueue.promote limit q.forget item := by
  unfold promote SingleQueue.promote
  have tombs : q.forget.deleted = q.deleted := rfl
  rw [tombs]
  split
  · rfl
  · split
    · exact forget_pushBucket q _ item
    · rfl

theorem forget_drainItem (q : TimedQueue) (item : FarFutureItem) :
    (q.drainItem item).forget = q.forget.drainId item.id := by
  unfold drainItem SingleQueue.drainId
  have tombs : q.forget.deleted = q.deleted := rfl
  rw [tombs]
  split
  · rfl
  · simp [forget]

theorem forget_drainItem_foldl (items : List FarFutureItem) (q : TimedQueue) :
    (items.foldl drainItem q).forget = (items.map (·.id)).foldl SingleQueue.drainId q.forget := by
  induction items generalizing q with
  | nil => rfl
  | cons item items ih => rw [List.foldl_cons, ih, forget_drainItem, List.map_cons, List.foldl_cons]

theorem forget_drainBucket (q : TimedQueue) (sec : Nat) :
    (q.drainBucket sec).forget = q.forget.drainBucket sec := by
  unfold drainBucket SingleQueue.drainBucket
  have here : AList.lookup sec q.forget.hotDelayBuckets =
      (AList.lookup sec q.hotDelayBuckets).map (List.map (·.id)) := FMap.lookup_mapValues _ _ _
  rw [here]
  cases AList.lookup sec q.hotDelayBuckets with
  | none => rfl
  | some bucket =>
      dsimp only [Option.map_some]
      rw [forget_drainItem_foldl]
      simp only [forget, FMap.mapValues_erase]

theorem forget_advanceAndDrain (order : List Nat → List Nat) (q : TimedQueue) (now : Nat) :
    (q.advanceAndDrain order now).forget = q.forget.advanceAndDrain order now := by
  unfold advanceAndDrain SingleQueue.advanceAndDrain
  by_cases past : now < q.lastDrainedSec
  · have past' : now < q.forget.lastDrainedSec := past
    rw [if_pos past, if_pos past']
  · have past' : ¬now < q.forget.lastDrainedSec := past
    rw [if_neg past, if_neg past']
    dsimp only
    have promoted : (q.farFuture.foldl (promote (addU64 now hotDelayHorizonSec))
          { q with farFuture := [] }).forget =
        q.forget.farFuture.foldl (SingleQueue.promote (addU64 now hotDelayHorizonSec))
          { q.forget with farFuture := [] } :=
      (List.foldl_hom forget fun q item => (forget_promote _ q item).symm).symm
    dsimp only at promoted
    rw [← promoted]
    generalize q.farFuture.foldl (promote (addU64 now hotDelayHorizonSec))
      { q with farFuture := [] } = p
    have keys : p.forget.hotDelayBuckets.keys = p.hotDelayBuckets.keys := FMap.keys_mapValues _ _
    have drained : ∀ secs : List Nat, (secs.foldl drainBucket p).forget =
        secs.foldl SingleQueue.drainBucket p.forget := fun secs =>
      (List.foldl_hom forget fun q sec => (forget_drainBucket q sec).symm).symm
    rw [keys, ← drained]
    rfl

theorem forget_insert (q : TimedQueue) (item : FarFutureItem) (now : Nat) :
    (q.insert item now).forget = q.forget.insert item.id item.visibleAt now := by
  unfold insert SingleQueue.insert
  dsimp only
  split
  · simp [forget]
  · split
    · exact forget_pushBucket _ _ item
    · rfl

theorem forget_markDeleted (q : TimedQueue) (id : Ulid) :
    (q.markDeleted id).forget = q.forget.markDeleted id := by
  unfold markDeleted SingleQueue.markDeleted
  have head : q.forget.ready.head? = q.ready.head?.map (·.id) := by simp [forget]
  rw [head]
  split
  · simp [forget]
  · rfl

theorem popLoop_forget (ready : List FarFutureItem) (deleted : Finset Ulid) :
    SingleQueue.popLoop (ready.map (·.id)) deleted =
      ((popLoop ready deleted).1.map (·.id), (popLoop ready deleted).2.1,
        (popLoop ready deleted).2.2.map (·.id)) := by
  induction ready generalizing deleted with
  | nil => rfl
  | cons item ready ih =>
      rw [List.map_cons, SingleQueue.popLoop, popLoop]
      split
      · exact ih _
      · rfl

theorem forget_popReady (q : TimedQueue) :
    q.popReady.1.forget = q.forget.popReady.1 ∧
      q.forget.popReady.2 = q.popReady.2.map (·.id) := by
  have loop := popLoop_forget q.ready q.deleted
  unfold popReady SingleQueue.popReady
  have start : SingleQueue.popLoop q.forget.ready q.forget.deleted =
      SingleQueue.popLoop (q.ready.map (·.id)) q.deleted := rfl
  rw [start, loop]
  rcases popLoop q.ready q.deleted with ⟨ready, deleted, _ | item⟩ <;> exact ⟨rfl, rfl⟩

theorem forget_call (q : TimedQueue) (c : QueueCall) :
    (q.call c).forget = q.forget.call c ∧
      q.forget.returns c.op = (q.returns c.op).map (·.id) := by
  obtain ⟨now, op⟩ := c
  cases op with
  | insert id visibleAt => exact ⟨forget_insert q ⟨id, visibleAt⟩ now, rfl⟩
  | advanceAndDrain order => exact ⟨forget_advanceAndDrain order.1 q now, rfl⟩
  | markDeleted id => exact ⟨forget_markDeleted q id, rfl⟩
  | popReady =>
      obtain ⟨queue, id⟩ := forget_popReady q
      refine ⟨queue, ?_⟩
      simp only [SingleQueue.returns, returns, id]
      cases q.popReady.2 <;> rfl

/-- A run returns the ids of the occurrences that the run with times returns. -/
theorem returned_forget (s : Clocked TimedQueue) (calls : List QueueCall) :
    SingleQueue.returned ⟨s.queue.forget, s.now⟩ calls = (returned s calls).map (·.2.id) := by
  induction calls generalizing s with
  | nil => rfl
  | cons c calls ih =>
      obtain ⟨queue, ids⟩ := forget_call s.queue c
      have rest := ih (step s c)
      have next : SingleQueue.step ⟨s.queue.forget, s.now⟩ c =
          ⟨(step s c).queue.forget, (step s c).now⟩ := by
        simp only [Clocked.step, queue]
      simp only [SingleQueue.returned, returned, Trace.emitted, List.map_append,
        List.map_map] at rest ⊢
      rw [next, rest, ids]
      rfl

/-! ## No occurrence is returned early -/

/-- Occurrences are ready when their time has come, buckets hold no occurrence of a later
second, and the far future is due on full minutes. -/
structure Timely (now : Nat) (q : TimedQueue) : Prop where
  ready : ∀ item ∈ q.ready, item.visibleAt ≤ now
  buckets : ∀ sec bucket, AList.lookup sec q.hotDelayBuckets = some bucket →
    ∀ item ∈ bucket, item.visibleAt ≤ sec
  far : ∀ item ∈ q.farFuture, 60 ∣ item.visibleAt

variable {now : Nat} {item : FarFutureItem}

theorem Timely.mono {now' : Nat} (h : Timely now q) (later : now ≤ now') : Timely now' q :=
  ⟨fun item inside => (h.ready item inside).trans later, h.buckets, h.far⟩

theorem Timely.pushBucket (h : Timely now q) {sec : Nat} (due : item.visibleAt ≤ sec) :
    Timely now (q.pushBucket sec item) := by
  refine ⟨h.ready, fun sec' bucket found item' inside => ?_, h.far⟩
  simp only [TimedQueue.pushBucket, FMap.lookup_insert_ite] at found
  split at found
  · rename_i here
    subst here
    cases found
    rcases List.mem_append.1 inside with old | new
    · unfold FMap.getD at old
      cases was : AList.lookup sec' q.hotDelayBuckets with
      | none => simp [was] at old
      | some bucket =>
          rw [was] at old
          exact h.buckets sec' bucket was item' old
    · rw [List.mem_singleton.1 new]
      exact due
  · exact h.buckets sec' bucket found item' inside

theorem Timely.makeReady (h : Timely now q) (due : item.visibleAt ≤ now) :
    Timely now { q with ready := q.ready ++ [item] } := by
  refine ⟨fun item' inside => ?_, h.buckets, h.far⟩
  rcases List.mem_append.1 inside with old | new
  · exact h.ready item' old
  · rw [List.mem_singleton.1 new]
    exact due

theorem Timely.putFar (h : Timely now q) (minute : 60 ∣ item.visibleAt) :
    Timely now { q with farFuture := q.farFuture ++ [item] } := by
  refine ⟨h.ready, h.buckets, fun item' inside => ?_⟩
  rcases List.mem_append.1 inside with old | new
  · exact h.far item' old
  · rw [List.mem_singleton.1 new]
    exact minute

theorem Timely.promote (h : Timely now q) (limit : Nat) (minute : 60 ∣ item.visibleAt) :
    Timely now (promote limit q item) := by
  unfold TimedQueue.promote
  split
  · exact h
  · split
    · exact h.pushBucket (Nat.div_mul_cancel minute).ge
    · exact h.putFar minute

theorem Timely.drainItem (h : Timely now q) (due : item.visibleAt ≤ now) :
    Timely now (q.drainItem item) := by
  unfold TimedQueue.drainItem
  split
  · exact ⟨h.ready, h.buckets, h.far⟩
  · exact h.makeReady due

theorem Timely.drainBucket (h : Timely now q) {sec : Nat} (mature : sec ≤ now) :
    Timely now (q.drainBucket sec) := by
  unfold TimedQueue.drainBucket
  cases found : AList.lookup sec q.hotDelayBuckets with
  | none => exact h
  | some bucket =>
      refine List.foldlRecOn (motive := Timely now) bucket TimedQueue.drainItem ?_
        fun q' kept item inside => kept.drainItem ((h.buckets sec bucket found item inside).trans mature)
      refine ⟨h.ready, fun sec' bucket' found' => ?_, h.far⟩
      dsimp only at found'
      rw [FMap.lookup_erase_ite] at found'
      split at found'
      · cases found'
      · exact h.buckets sec' bucket' found'

theorem Timely.advanceAndDrain (h : Timely now q) (order : List Nat → List Nat) :
    Timely now (q.advanceAndDrain order now) := by
  unfold TimedQueue.advanceAndDrain
  split
  · exact h
  · dsimp only
    have promoted : Timely now (q.farFuture.foldl (TimedQueue.promote
        (addU64 now hotDelayHorizonSec)) { q with farFuture := [] }) :=
      List.foldlRecOn (motive := Timely now) q.farFuture (TimedQueue.promote _)
        ⟨h.ready, h.buckets, by simp⟩ fun q' kept item inside => kept.promote _ (h.far item inside)
    generalize q.farFuture.foldl (TimedQueue.promote (addU64 now hotDelayHorizonSec))
      { q with farFuture := [] } = p at promoted ⊢
    have drained : Timely now (((order p.hotDelayBuckets.keys).filter (· ≤ now)).foldl
        TimedQueue.drainBucket p) := by
      refine List.foldlRecOn (motive := Timely now) _ _ promoted fun q' kept sec mature => ?_
      exact kept.drainBucket (of_decide_eq_true (List.mem_filter.1 mature).2)
    exact ⟨drained.ready, drained.buckets, drained.far⟩

theorem Timely.insert (h : Timely now q) (item : FarFutureItem)
    (minute : item.visibleAt ≤ now ∨ item.visibleAt ≤ addU64 now hotDelayHorizonSec ∨
      60 ∣ item.visibleAt) : Timely now (q.insert item now) := by
  have erased : Timely now { q with deleted := q.deleted.erase item.id } :=
    ⟨h.ready, h.buckets, h.far⟩
  unfold TimedQueue.insert
  dsimp only
  split
  · rename_i due
    exact erased.makeReady due
  · rename_i notDue
    split
    · exact erased.pushBucket le_rfl
    · rename_i notNear
      exact erased.putFar ((minute.resolve_left notDue).resolve_left notNear)

theorem Timely.markDeleted (h : Timely now q) (id : Ulid) : Timely now (q.markDeleted id) := by
  unfold TimedQueue.markDeleted
  split
  · exact ⟨fun item inside => h.ready item (List.mem_of_mem_tail inside), h.buckets, h.far⟩
  · exact ⟨h.ready, h.buckets, h.far⟩

theorem popLoop_mem (ready : List FarFutureItem) (deleted : Finset Ulid) :
    (popLoop ready deleted).1 ⊆ ready ∧ ∀ item ∈ (popLoop ready deleted).2.2, item ∈ ready := by
  induction ready generalizing deleted with
  | nil => simp [popLoop]
  | cons head ready ih =>
      rw [popLoop]
      split
      · obtain ⟨rest, popped⟩ := ih (deleted.erase head.id)
        exact ⟨fun item inside => List.mem_cons_of_mem _ (rest inside),
          fun item is => List.mem_cons_of_mem _ (popped item is)⟩
      · exact ⟨fun item inside => List.mem_cons_of_mem _ inside, by simp⟩

theorem Timely.popReady (h : Timely now q) :
    Timely now q.popReady.1 ∧ ∀ item ∈ q.popReady.2, item.visibleAt ≤ now := by
  obtain ⟨rest, popped⟩ := popLoop_mem q.ready q.deleted
  unfold TimedQueue.popReady
  rcases hp : popLoop q.ready q.deleted with ⟨ready, deleted, _ | item⟩
  all_goals rw [hp] at rest popped
  · exact ⟨⟨fun item inside => h.ready item (rest inside), h.buckets, h.far⟩, by simp⟩
  · exact ⟨⟨fun item inside => h.ready item (rest inside), h.buckets, h.far⟩,
      fun item is => h.ready item (popped item is)⟩

/-- One call. -/
theorem Timely.call {c : QueueCall} (h : Timely c.now q) (minute : c.OnTheMinute) :
    Timely c.now (q.call c) ∧ ∀ item ∈ q.returns c.op, item.visibleAt ≤ c.now := by
  obtain ⟨now, op⟩ := c
  cases op with
  | insert id visibleAt => exact ⟨h.insert ⟨id, visibleAt⟩ minute, by simp [returns]⟩
  | advanceAndDrain order => exact ⟨h.advanceAndDrain order.1, by simp [returns]⟩
  | markDeleted id => exact ⟨h.markDeleted id, by simp [returns]⟩
  | popReady =>
      obtain ⟨timely, due⟩ := h.popReady
      exact ⟨timely, fun item inside => due item (Option.mem_toList.1 inside)⟩

theorem Timely.run {s : Clocked TimedQueue} {calls : List QueueCall} (h : Timely s.now s.queue)
    (order : (s.now :: calls.map (·.now)).IsChain (· ≤ ·)) (minute : ∀ c ∈ calls, c.OnTheMinute) :
    ∀ d ∈ returned s calls, d.2.visibleAt ≤ d.1 := by
  induction calls generalizing s with
  | nil => simp [returned, Trace.emitted]
  | cons c calls ih =>
      obtain ⟨later, order⟩ := List.isChain_cons_cons.1 order
      obtain ⟨timely, due⟩ := (h.mono later).call (minute c List.mem_cons_self)
      intro d inside
      rcases List.mem_append.1 inside with here | rest
      · obtain ⟨item, is, rfl⟩ := List.mem_map.1 here
        exact due item is
      · exact ih (s := step s c) timely order (fun c' inside => minute c' (.tail c inside)) d rest

/-- The ids a run returns are those of occurrences whose time has come, when every insertion
that goes to the far future is due on a full minute. -/
theorem no_early_delivery {t₀ : Nat} {calls : List QueueCall}
    (order : (t₀ :: calls.map (·.now)).IsChain (· ≤ ·)) (minute : ∀ c ∈ calls, c.OnTheMinute) :
    SingleQueue.returned (SingleQueue.start t₀) calls = (returned (start t₀) calls).map (·.2.id) ∧
      ∀ d ∈ returned (start t₀) calls, d.2.visibleAt ≤ d.1 := by
  refine ⟨returned_forget (start t₀) calls, Timely.run ?_ order minute⟩
  exact ⟨by simp [start, new], (by intro sec bucket found; cases found), by simp [start, new]⟩

theorem no_early_delivery_sample :
    let calls : List QueueCall := [⟨1000, .insert 1 1320⟩, ⟨1100, .advanceAndDrain SingleQueue.storedOrder⟩,
      ⟨1320, .advanceAndDrain SingleQueue.storedOrder⟩, ⟨1325, .popReady⟩]
    returned (start 1000) calls = [(1325, ⟨1, 1320⟩)] ∧
      SingleQueue.returned (SingleQueue.start 1000) calls = (returned (start 1000) calls).map (·.2.id) ∧
      ∀ d ∈ returned (start 1000) calls, d.2.visibleAt ≤ d.1 :=
  ⟨by decide +kernel, no_early_delivery (by decide) (by decide)⟩

/-- An id due at 1370 goes to the far future at 1000, is promoted at 1320 into the bucket of
1320 and returned at once, 50 s early. -/
theorem early_delivery :
    SingleQueue.returned (SingleQueue.start 1000) [⟨1000, .insert 1 1370⟩,
      ⟨1320, .advanceAndDrain SingleQueue.storedOrder⟩, ⟨1320, .popReady⟩] = [1] ∧
    returned (start 1000) [⟨1000, .insert 1 1370⟩,
      ⟨1320, .advanceAndDrain SingleQueue.storedOrder⟩, ⟨1320, .popReady⟩] =
      [(1320, ⟨1, 1370⟩)] := by
  decide +kernel

end TimedQueue

end WalrQueue
