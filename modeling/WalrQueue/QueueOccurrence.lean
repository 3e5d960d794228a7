import WalrQueue.SingleQueue

/-!
# Where one id occurs in a queue

Everything the engine proofs need to know about a `SingleQueue` is, for one
fixed id `m`, how often it occurs in the three places (`occ`) and whether it is
tombstoned.  A queue is `Clean` for `m` when a tombstoned `m` does not occur:
then draining moves `m` without losing it, and popping returns it once for each
occurrence it removes.
-/

namespace WalrQueue.SingleQueue

variable {m id : Ulid} {q : SingleQueue}

/-- How often `m` occurs in the ready, delayed and far-future places. -/
def occ (m : Ulid) (q : SingleQueue) : Nat :=
  q.ready.count m + FMap.sumBy (List.count m) q.hotDelayBuckets +
    (q.farFuture.map (·.id)).count m

/-- A tombstoned `m` does not occur. -/
def Clean (m : Ulid) (q : SingleQueue) : Prop := m ∈ q.deleted → occ m q = 0

@[simp] theorem occ_new (now : Nat) : occ m (.new now) = 0 := rfl

@[simp] theorem deleted_new (now : Nat) : (new now).deleted = ∅ := rfl

/-! ## Insert -/

theorem occ_pushBucket (sec : Nat) :
    occ m (q.pushBucket sec id) = occ m q + if id = m then 1 else 0 := by
  have buckets : FMap.sumBy (List.count m) (q.pushBucket sec id).hotDelayBuckets =
      FMap.sumBy (List.count m) q.hotDelayBuckets + if id = m then 1 else 0 := by
    simp only [pushBucket, FMap.sumBy_insert, FMap.getD]
    cases found : AList.lookup sec q.hotDelayBuckets with
    | none =>
        rw [FMap.erase_of_lookup_none found]
        simp [List.count_singleton, Nat.add_comm]
    | some bucket =>
        rw [FMap.sumBy_of_lookup _ found]
        simp only [Option.getD_some, List.count_append, List.count_singleton, beq_iff_eq]
        omega
  simp only [occ, buckets]
  simp only [pushBucket]
  omega

@[simp] theorem deleted_pushBucket (sec : Nat) : (q.pushBucket sec id).deleted = q.deleted := rfl

/-- Inserting adds one occurrence. -/
theorem occ_insert (visibleAt now : Nat) :
    occ m (q.insert id visibleAt now) = occ m q + if id = m then 1 else 0 := by
  unfold SingleQueue.insert
  dsimp only
  split
  · simp only [occ, List.count_append, List.count_singleton, beq_iff_eq]
    omega
  · split
    · rw [occ_pushBucket]
      rfl
    · simp only [occ, List.map_append, List.count_append, List.map_cons, List.map_nil,
        List.count_singleton, beq_iff_eq]
      omega

/-- Inserting removes the tombstone. -/
theorem mem_deleted_insert (visibleAt now : Nat) :
    m ∈ (q.insert id visibleAt now).deleted ↔ m ≠ id ∧ m ∈ q.deleted := by
  unfold SingleQueue.insert
  dsimp only
  split
  · simp
  · split <;> simp

/-! ## Tombstones -/

/-- Marking another id leaves the occurrences of `m`. -/
theorem occ_markDeleted_of_ne (other : id ≠ m) : occ m (q.markDeleted id) = occ m q := by
  unfold markDeleted
  split
  · rename_i head
    cases ready : q.ready with
    | nil => simp [ready] at head
    | cons x xs =>
        simp only [ready, List.head?_cons, Option.some.injEq] at head
        simp [occ, ready, head, other]
  · rfl

theorem mem_deleted_markDeleted_of_ne (other : id ≠ m) :
    m ∈ (q.markDeleted id).deleted ↔ m ∈ q.deleted := by
  unfold markDeleted
  split
  · rfl
  · simp [other.symm]

/-- Marking never adds an occurrence. -/
theorem occ_markDeleted_le (m id : Ulid) (q : SingleQueue) : occ m (q.markDeleted id) ≤ occ m q := by
  unfold markDeleted
  split
  · have := (List.tail_sublist q.ready).count_le m
    simp only [occ]
    omega
  · rfl

/-! ## Draining -/

theorem occ_promote (limit : Nat) (item : FarFutureItem) (live : m ∉ q.deleted) :
    occ m (promote limit q item) = occ m q + if item.id = m then 1 else 0 := by
  unfold promote
  split
  · rename_i tomb
    have other : item.id ≠ m := fun same => live (same ▸ tomb)
    simp [other]
  · split
    · exact occ_pushBucket _
    · simp only [occ, List.map_append, List.count_append, List.map_cons, List.map_nil,
        List.count_singleton, beq_iff_eq]
      omega

@[simp] theorem deleted_promote (limit : Nat) (item : FarFutureItem) :
    (promote limit q item).deleted = q.deleted := by
  unfold promote
  split
  · rfl
  · split <;> rfl

theorem occ_promote_of_ne (limit : Nat) {item : FarFutureItem} (other : item.id ≠ m) :
    occ m (promote limit q item) = occ m q := by
  unfold promote
  split
  · rfl
  · split
    · simp [occ_pushBucket, other]
    · simp [occ, other]

@[simp] theorem deleted_promote_foldl (limit : Nat) (items : List FarFutureItem) :
    (items.foldl (promote limit) q).deleted = q.deleted := by
  induction items generalizing q with
  | nil => rfl
  | cons item items ih => rw [List.foldl_cons, ih, deleted_promote]

theorem occ_promote_foldl (limit : Nat) (items : List FarFutureItem)
    (live : m ∉ q.deleted ∨ (items.map (·.id)).count m = 0) :
    occ m (items.foldl (promote limit) q) = occ m q + (items.map (·.id)).count m := by
  induction items generalizing q with
  | nil => simp
  | cons item items ih =>
      simp only [List.foldl_cons, List.map_cons, List.count_cons, beq_iff_eq] at live ⊢
      rcases live with live | none
      · rw [ih (Or.inl (by simpa using live)), occ_promote limit item live]
        omega
      · have other : item.id ≠ m := by
          intro same
          simp [same] at none
        rw [ih (Or.inr (by simpa [other] using none)), occ_promote_of_ne limit other]
        simp [other]

theorem occ_drainId_of_live (live : m ∉ q.deleted) :
    occ m (q.drainId id) = occ m q + if id = m then 1 else 0 := by
  unfold drainId
  split
  · rename_i tomb
    have other : id ≠ m := fun same => live (same ▸ tomb)
    simp [occ, other]
  · simp only [occ, List.count_append, List.count_singleton, beq_iff_eq]
    omega

theorem occ_drainId_of_ne (other : id ≠ m) : occ m (q.drainId id) = occ m q := by
  unfold drainId
  split
  · rfl
  · simp [occ, other]

theorem not_mem_deleted_drainId (live : m ∉ q.deleted) : m ∉ (q.drainId id).deleted := by
  unfold drainId
  split
  · simp [live]
  · exact live

theorem mem_deleted_of_drainId (tomb : m ∈ (q.drainId id).deleted) : m ∈ q.deleted := by
  unfold drainId at tomb
  split at tomb
  · exact Finset.mem_of_mem_erase tomb
  · exact tomb

theorem occ_drainId_foldl (ids : List Ulid) (live : m ∉ q.deleted ∨ ids.count m = 0) :
    occ m (ids.foldl drainId q) = occ m q + ids.count m := by
  induction ids generalizing q with
  | nil => simp
  | cons id ids ih =>
      simp only [List.foldl_cons, List.count_cons, beq_iff_eq] at live ⊢
      rcases live with live | none
      · rw [ih (Or.inl (not_mem_deleted_drainId live)), occ_drainId_of_live live]
        omega
      · have other : id ≠ m := by
          intro same
          simp [same] at none
        rw [ih (Or.inr (by simpa [other] using none)), occ_drainId_of_ne other]
        simp [other]

theorem mem_deleted_of_drainId_foldl (ids : List Ulid)
    (tomb : m ∈ (ids.foldl drainId q).deleted) : m ∈ q.deleted := by
  induction ids generalizing q with
  | nil => exact tomb
  | cons id ids ih => exact mem_deleted_of_drainId (ih tomb)

/-- Draining one bucket of a clean queue moves `m` without losing it. -/
theorem Clean.drainBucket (clean : Clean m q) (sec : Nat) :
    occ m (q.drainBucket sec) = occ m q ∧
      (m ∈ (q.drainBucket sec).deleted → m ∈ q.deleted) := by
  unfold SingleQueue.drainBucket
  cases found : AList.lookup sec q.hotDelayBuckets with
  | none => exact ⟨rfl, fun tomb => tomb⟩
  | some bucket =>
      have split := FMap.sumBy_of_lookup (List.count m) found
      refine ⟨?_, mem_deleted_of_drainId_foldl
        (q := { q with hotDelayBuckets := AList.erase sec q.hotDelayBuckets }) bucket⟩
      dsimp only
      rw [occ_drainId_foldl]
      · simp only [occ, split]
        omega
      · by_cases tomb : m ∈ q.deleted
        · right
          have none := clean tomb
          simp only [occ, split] at none
          omega
        · exact Or.inl tomb

theorem Clean.drainBucket_foldl (secs : List Nat) (clean : Clean m q) :
    occ m (secs.foldl SingleQueue.drainBucket q) = occ m q ∧
      (m ∈ (secs.foldl SingleQueue.drainBucket q).deleted → m ∈ q.deleted) := by
  induction secs generalizing q with
  | nil => exact ⟨rfl, fun tomb => tomb⟩
  | cons sec secs ih =>
      obtain ⟨same, tombs⟩ := clean.drainBucket sec
      have clean' : Clean m (q.drainBucket sec) := fun tomb => by
        rw [same]
        exact clean (tombs tomb)
      obtain ⟨same', tombs'⟩ := ih clean'
      exact ⟨same'.trans same, fun tomb => tombs (tombs' tomb)⟩

/-- Draining a clean queue keeps every occurrence and adds no tombstone. -/
theorem Clean.advanceAndDrain (clean : Clean m q) (order : List Nat → List Nat) (now : Nat) :
    occ m (q.advanceAndDrain order now) = occ m q ∧
      (m ∈ (q.advanceAndDrain order now).deleted → m ∈ q.deleted) := by
  unfold SingleQueue.advanceAndDrain
  split
  · exact ⟨rfl, fun tomb => tomb⟩
  · dsimp only
    generalize addU64 now hotDelayHorizonSec = limit
    have promoted : occ m (q.farFuture.foldl (promote limit) { q with farFuture := [] }) =
        occ m q := by
      rw [occ_promote_foldl]
      · simp [occ]
      · by_cases tomb : m ∈ q.deleted
        · right
          have none := clean tomb
          simp only [occ] at none
          omega
        · exact Or.inl tomb
    have clean' : Clean m (q.farFuture.foldl (promote limit) { q with farFuture := [] }) := by
      intro tomb
      rw [promoted]
      exact clean (by simpa using tomb)
    obtain ⟨same, tombs⟩ := clean'.drainBucket_foldl
      ((order (q.farFuture.foldl (promote limit)
        { q with farFuture := [] }).hotDelayBuckets.keys).filter (fun sec => sec ≤ now))
    exact ⟨same.trans promoted, fun tomb => by simpa using tombs tomb⟩

/-! ## Popping -/

/-- What the pop loop does to one id that is not tombstoned while it occurs. -/
theorem popLoop_count (ready : List Ulid) (deleted : Finset Ulid)
    (clean : m ∈ deleted → ready.count m = 0) :
    ready.count m = (popLoop ready deleted).1.count m +
        (if (popLoop ready deleted).2.2 = some m then 1 else 0) ∧
      (m ∈ (popLoop ready deleted).2.1 → m ∈ deleted) ∧
      ((popLoop ready deleted).2.2 = none → (popLoop ready deleted).1 = []) := by
  induction ready generalizing deleted with
  | nil => simp [popLoop]
  | cons id ready ih =>
      simp only [popLoop]
      split
      · rename_i tomb
        have other : id ≠ m := by
          intro same
          subst same
          simp at clean
          exact clean tomb
        obtain ⟨counts, tombs, empty⟩ := ih (deleted.erase id) (fun tomb' => by
          have := clean (Finset.mem_of_mem_erase tomb')
          simpa [other] using this)
        refine ⟨?_, fun tomb' => Finset.mem_of_mem_erase (tombs tomb'), empty⟩
        rw [List.count_cons_of_ne other]
        exact counts
      · refine ⟨?_, fun tomb => tomb, by simp⟩
        simp [List.count_cons]

/-- One pop from a clean queue: the returned id loses one occurrence, every other
id keeps its own, and the queue stays clean. -/
theorem Clean.popReady (clean : Clean m q) :
    occ m q = occ m q.popReady.1 + (if q.popReady.2 = some m then 1 else 0) ∧
      (m ∈ q.popReady.1.deleted → m ∈ q.deleted) := by
  have readyClean : m ∈ q.deleted → q.ready.count m = 0 := fun tomb => by
    have := clean tomb
    unfold occ at this
    omega
  obtain ⟨counts, tombs, empty⟩ := popLoop_count q.ready q.deleted readyClean
  unfold SingleQueue.popReady
  rcases hp : popLoop q.ready q.deleted with ⟨ready, deleted, _ | id⟩
  · rw [hp] at counts
    simp only [reduceCtorEq, if_false, Nat.add_zero] at counts
    simp only [occ, counts, reduceCtorEq, if_false]
    exact ⟨rfl, by simp⟩
  · rw [hp] at counts tombs
    simp only [occ] at counts ⊢
    exact ⟨by omega, tombs⟩

/-- Popping a batch from a clean queue: each occurrence of `m` that leaves the
queue is returned. -/
theorem Clean.popMany (n : Nat) (clean : Clean m q) :
    occ m q = occ m (popMany n q).1 + (popMany n q).2.count m ∧
      (m ∈ (popMany n q).1.deleted → m ∈ q.deleted) := by
  induction n generalizing q with
  | zero => exact ⟨by simp [SingleQueue.popMany], fun tomb => tomb⟩
  | succ n ih =>
      obtain ⟨counts, tombs⟩ := clean.popReady
      unfold SingleQueue.popMany
      rcases hp : q.popReady with ⟨q', _ | id⟩
      · rw [hp] at counts tombs
        exact ⟨by simpa using counts, tombs⟩
      · rw [hp] at counts tombs
        have clean' : Clean m q' := fun tomb => by
          have := clean (tombs tomb)
          simp only at counts
          omega
        obtain ⟨counts', tombs'⟩ := ih clean'
        refine ⟨?_, fun tomb => tombs (tombs' tomb)⟩
        simp only [List.count_cons, beq_iff_eq, Option.some.injEq] at counts ⊢
        omega

end WalrQueue.SingleQueue
