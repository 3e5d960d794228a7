import WalrQueue.Env

/-!
# One queue

A queue holds ids in three places: the FIFO of ready messages, buckets of
delayed messages keyed by second, and the far-future list.  An acknowledged id
is tombstoned in `deleted` and dropped when its place is drained.
-/

namespace WalrQueue

/-- `HOT_DELAY_HORIZON_SEC`. -/
def hotDelayHorizonSec : Nat := 300

/-- `FarFutureItem`. -/
structure FarFutureItem where
  id : Ulid
  visibleAt : Nat
  deriving DecidableEq

/-- `SingleQueue`. -/
structure SingleQueue where
  ready : List Ulid
  hotDelayBuckets : FMap Nat (List Ulid)
  farFuture : List FarFutureItem
  deleted : Finset Ulid
  lastDrainedSec : Nat

namespace SingleQueue

/-- `SingleQueue::new`. -/
def new (nowSec : Nat) : SingleQueue := ⟨[], ∅, [], ∅, nowSec⟩

/-- `hot_delay_buckets.entry(sec).or_default().push(id)`. -/
def pushBucket (q : SingleQueue) (sec : Nat) (id : Ulid) : SingleQueue :=
  { q with hotDelayBuckets :=
      AList.insert sec (FMap.getD q.hotDelayBuckets sec [] ++ [id]) q.hotDelayBuckets }

/-- One far-future item of `advance_and_drain`: drop it when tombstoned, promote
it to its one-minute bucket inside the horizon, keep it otherwise. -/
def promote (horizonLimit : Nat) (q : SingleQueue) (item : FarFutureItem) : SingleQueue :=
  if item.id ∈ q.deleted then q
  else if item.visibleAt ≤ horizonLimit then q.pushBucket (item.visibleAt / 60 * 60) item.id
  else { q with farFuture := q.farFuture ++ [item] }

/-- One id of a matured bucket: consume its tombstone, or make it ready. -/
def drainId (q : SingleQueue) (id : Ulid) : SingleQueue :=
  if id ∈ q.deleted then { q with deleted := q.deleted.erase id }
  else { q with ready := q.ready ++ [id] }

/-- One matured second of `advance_and_drain`. -/
def drainBucket (q : SingleQueue) (sec : Nat) : SingleQueue :=
  match AList.lookup sec q.hotDelayBuckets with
  | some bucket =>
      bucket.foldl drainId { q with hotDelayBuckets := AList.erase sec q.hotDelayBuckets }
  | none => q

/-- `SingleQueue::advance_and_drain`; `order` is the iteration order of the
bucket keys. -/
def advanceAndDrain (order : List Nat → List Nat) (q : SingleQueue) (nowSec : Nat) :
    SingleQueue :=
  if nowSec < q.lastDrainedSec then q
  else
    let horizonLimit := addU64 nowSec hotDelayHorizonSec
    let q := q.farFuture.foldl (promote horizonLimit) { q with farFuture := [] }
    let readySecs := (order q.hotDelayBuckets.keys).filter (fun sec => sec ≤ nowSec)
    { readySecs.foldl drainBucket q with lastDrainedSec := nowSec }

/-- `SingleQueue::insert`. -/
def insert (q : SingleQueue) (id : Ulid) (visibleAt nowSec : Nat) : SingleQueue :=
  let q := { q with deleted := q.deleted.erase id }
  if visibleAt ≤ nowSec then { q with ready := q.ready ++ [id] }
  else if visibleAt ≤ addU64 nowSec hotDelayHorizonSec then q.pushBucket visibleAt id
  else { q with farFuture := q.farFuture ++ [⟨id, visibleAt⟩] }

/-- `SingleQueue::mark_deleted`. -/
def markDeleted (q : SingleQueue) (id : Ulid) : SingleQueue :=
  if q.ready.head? = some id then { q with ready := q.ready.tail }
  else { q with deleted := Insert.insert id q.deleted }

/-- `SingleQueue::ready_len`. -/
def readyLen (q : SingleQueue) : Nat := q.ready.length - q.deleted.card

/-- The loop of `pop_ready`: skip tombstoned ids, consuming their tombstones. -/
def popLoop : List Ulid → Finset Ulid → List Ulid × Finset Ulid × Option Ulid
  | [], deleted => ([], deleted, none)
  | id :: ready, deleted =>
      if id ∈ deleted then popLoop ready (deleted.erase id) else (ready, deleted, some id)

/-- `SingleQueue::pop_ready`. -/
def popReady (q : SingleQueue) : SingleQueue × Option Ulid :=
  match popLoop q.ready q.deleted with
  | (ready, deleted, some id) => ({ q with ready, deleted }, some id)
  | (ready, _, none) => ({ q with ready, deleted := ∅ }, none)

/-- The pop loop of `poll`: at most `maxMessages` ids, until the queue has none. -/
def popMany : Nat → SingleQueue → SingleQueue × List Ulid
  | 0, q => (q, [])
  | maxMessages + 1, q =>
      match q.popReady with
      | (q, some id) =>
          let more := popMany maxMessages q
          (more.1, id :: more.2)
      | (q, none) => (q, [])

end SingleQueue

end WalrQueue
