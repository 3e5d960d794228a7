import WalrQueue.Lib.Trace
import WalrQueue.QueueOccurrence

/-!
# Runs of one queue

A queue is called with a clock that never goes back.  Along such a run an id is returned at
most once for each time it was inserted; one that is left alone is not lost, and the ids
that were ready at once keep their order.

A tombstone stands for one occurrence.  It lasts until that occurrence is met, unless a pop
finds nothing ready first: that pop forgets every tombstone, also those of ids that are
still delayed.
-/

namespace WalrQueue

/-- An iteration order of the bucket keys. -/
abbrev KeyOrder : Type := { order : List Nat → List Nat // ∀ keys, (order keys).Perm keys }

/-- The calls of a `SingleQueue` that change it. -/
inductive QueueOp where
  | insert (id : Ulid) (visibleAt : Nat)
  | advanceAndDrain (order : KeyOrder)
  | markDeleted (id : Ulid)
  | popReady

/-- A call and the clock it is made at. -/
structure QueueCall where
  now : Nat
  op : QueueOp

/-- A queue and the clock of the last call. -/
structure Clocked (Q : Type) where
  queue : Q
  now : Nat

/-- One call, given what a call does to a queue. -/
def Clocked.step {Q : Type} (call : Q → QueueCall → Q) (s : Clocked Q) (c : QueueCall) : Clocked Q :=
  ⟨call s.queue c, c.now⟩

namespace SingleQueue

/-- The queue after a call. -/
def call (q : SingleQueue) (c : QueueCall) : SingleQueue :=
  match c.op with
  | .insert id visibleAt => q.insert id visibleAt c.now
  | .advanceAndDrain order => q.advanceAndDrain order c.now
  | .markDeleted id => q.markDeleted id
  | .popReady => q.popReady.1

/-- The id a call returns. -/
def returns (q : SingleQueue) : QueueOp → List Ulid
  | .popReady => q.popReady.2.toList
  | _ => []

/-- One call of a run. -/
abbrev step : Clocked SingleQueue → QueueCall → Clocked SingleQueue := Clocked.step call

/-- A new queue. -/
def start (now : Nat) : Clocked SingleQueue := ⟨.new now, now⟩

/-- The ids the calls of a run return. -/
def returned : Clocked SingleQueue → List QueueCall → List Ulid :=
  Trace.emitted step fun s c => s.queue.returns c.op

variable {m a b id : Ulid} {q : SingleQueue} {s : Clocked SingleQueue} {c : QueueCall}
  {calls : List QueueCall}

/-! ## At most once -/

theorem occ_promote_le (limit : Nat) (item : FarFutureItem) :
    occ m (promote limit q item) ≤ occ m q + if item.id = m then 1 else 0 := by
  by_cases tomb : item.id ∈ q.deleted
  · simp [promote, tomb]
  · by_cases same : item.id = m
    · exact (occ_promote limit item (same ▸ tomb)).le
    · rw [occ_promote_of_ne limit same]
      exact Nat.le_add_right _ _

theorem occ_promote_foldl_le (limit : Nat) (items : List FarFutureItem) :
    occ m (items.foldl (promote limit) q) ≤ occ m q + (items.map (·.id)).count m := by
  induction items generalizing q with
  | nil => simp
  | cons item items ih =>
      have first := occ_promote_le (m := m) (q := q) limit item
      have rest := ih (q := promote limit q item)
      simp only [List.foldl_cons, List.map_cons, List.count_cons, beq_iff_eq]
      omega

theorem occ_drainId_le (m id : Ulid) (q : SingleQueue) :
    occ m (q.drainId id) ≤ occ m q + if id = m then 1 else 0 := by
  unfold drainId
  split
  · simp [occ]
  · simp only [occ, List.count_append, List.count_singleton, beq_iff_eq]
    omega

theorem occ_drainId_foldl_le (ids : List Ulid) :
    occ m (ids.foldl drainId q) ≤ occ m q + ids.count m := by
  induction ids generalizing q with
  | nil => simp
  | cons id ids ih =>
      have first := occ_drainId_le m id q
      have rest := ih (q := q.drainId id)
      simp only [List.foldl_cons, List.count_cons, beq_iff_eq]
      omega

theorem occ_drainBucket_le (sec : Nat) : occ m (q.drainBucket sec) ≤ occ m q := by
  unfold drainBucket
  cases found : AList.lookup sec q.hotDelayBuckets with
  | none => exact le_rfl
  | some bucket =>
      have split := FMap.sumBy_of_lookup (List.count m) found
      refine (occ_drainId_foldl_le bucket).trans ?_
      simp only [occ, split]
      omega

theorem occ_advanceAndDrain_le (order : List Nat → List Nat) (now : Nat) :
    occ m (q.advanceAndDrain order now) ≤ occ m q := by
  unfold advanceAndDrain
  split
  · exact le_rfl
  · have promoted := occ_promote_foldl_le (m := m) (q := { q with farFuture := [] })
      (addU64 now hotDelayHorizonSec) q.farFuture
    refine List.foldlRecOn (motive := fun q' => occ m q' ≤ occ m q) _ drainBucket ?_
      fun q' kept sec _ => (occ_drainBucket_le sec).trans kept
    refine promoted.trans ?_
    simp [occ]

theorem popLoop_count_le (ready : List Ulid) (deleted : Finset Ulid) :
    (popLoop ready deleted).1.count m + (if (popLoop ready deleted).2.2 = some m then 1 else 0) ≤
      ready.count m := by
  induction ready generalizing deleted with
  | nil => simp [popLoop]
  | cons id ready ih =>
      rw [popLoop]
      split
      · exact (ih _).trans (List.count_le_count_cons)
      · simp [List.count_cons]

theorem occ_popReady_le :
    occ m q.popReady.1 + (if q.popReady.2 = some m then 1 else 0) ≤ occ m q := by
  have counts := popLoop_count_le (m := m) q.ready q.deleted
  unfold popReady
  rcases hp : popLoop q.ready q.deleted with ⟨ready, deleted, _ | id⟩
  all_goals
    rw [hp] at counts
    simp only [occ] at counts ⊢
    omega

theorem occ_popMany_le (m : Ulid) (n : Nat) (q : SingleQueue) :
    occ m (popMany n q).1 + (popMany n q).2.count m ≤ occ m q := by
  induction n generalizing q with
  | zero => simp [popMany]
  | succ n ih =>
      have first := occ_popReady_le (m := m) (q := q)
      unfold popMany
      rcases pops : q.popReady with ⟨q', _ | id⟩
      · rw [pops] at first
        simpa using first
      · rw [pops] at first
        have rest := ih q'
        simp only [Option.some.injEq] at first
        simp only [List.count_cons, beq_iff_eq]
        omega

/-- What a call adds to the occurrences of `m` and takes from them. -/
theorem occ_call_le (m : Ulid) (q : SingleQueue) (c : QueueCall) (old : ∀ v, c.op ≠ .insert m v) :
    occ m (q.call c) + (q.returns c.op).count m ≤ occ m q := by
  obtain ⟨now, op⟩ := c
  cases op with
  | insert id visibleAt =>
      have other : id ≠ m := fun same => old visibleAt (same ▸ rfl)
      simp [call, returns, occ_insert, other]
  | advanceAndDrain order => simpa [call, returns] using occ_advanceAndDrain_le order.1 now
  | markDeleted id => simpa [call, returns] using occ_markDeleted_le m id q
  | popReady =>
      have counts := occ_popReady_le (m := m) (q := q)
      simp only [call, returns]
      cases popped : q.popReady.2 with
      | none => simpa [popped] using counts
      | some id => simpa [popped, List.count_singleton] using counts

/-- Until `m` is inserted again it is returned at most as often as it occurs. -/
theorem count_returned_le (old : ∀ c ∈ calls, ∀ v, c.op ≠ .insert m v) :
    occ m (calls.foldl step s).queue + (returned s calls).count m ≤ occ m s.queue := by
  induction calls generalizing s with
  | nil => simp [returned, Trace.emitted]
  | cons c calls ih =>
      have first := occ_call_le m s.queue c (old c List.mem_cons_self)
      have rest := ih (s := step s c) fun c' inside => old c' (List.mem_cons_of_mem c inside)
      have split : (returned s (c :: calls)).count m =
          (s.queue.returns c.op).count m + (returned (step s c) calls).count m :=
        List.count_append
      rw [split, List.foldl_cons]
      have here : occ m (step s c).queue = occ m (s.queue.call c) := rfl
      omega

/-! ## Waiting in the FIFO -/

/-- Draining adds ids behind those that are ready, and no tombstone. -/
def Extends (q q' : SingleQueue) : Prop := q.ready <+: q'.ready ∧ q'.deleted ⊆ q.deleted

theorem Extends.trans {q' q'' : SingleQueue} (h : Extends q q') (h' : Extends q' q'') :
    Extends q q'' :=
  ⟨h.1.trans h'.1, h'.2.trans h.2⟩

theorem extends_promote (limit : Nat) (item : FarFutureItem) : Extends q (promote limit q item) := by
  unfold promote
  split
  · exact ⟨List.prefix_rfl, Finset.Subset.refl _⟩
  · split <;> exact ⟨List.prefix_rfl, Finset.Subset.refl _⟩

theorem extends_drainId (id : Ulid) : Extends q (q.drainId id) := by
  unfold drainId
  split
  · exact ⟨List.prefix_rfl, Finset.erase_subset _ _⟩
  · exact ⟨List.prefix_append _ _, Finset.Subset.refl _⟩

theorem extends_drainBucket (sec : Nat) : Extends q (q.drainBucket sec) := by
  unfold drainBucket
  split
  · exact List.foldlRecOn (motive := Extends q) _ drainId
      ⟨List.prefix_rfl, Finset.Subset.refl _⟩ fun q' kept id _ => kept.trans (extends_drainId id)
  · exact ⟨List.prefix_rfl, Finset.Subset.refl _⟩

theorem extends_advanceAndDrain (order : List Nat → List Nat) (now : Nat) :
    Extends q (q.advanceAndDrain order now) := by
  unfold advanceAndDrain
  split
  · exact ⟨List.prefix_rfl, Finset.Subset.refl _⟩
  · have promoted : Extends q (q.farFuture.foldl (promote (addU64 now hotDelayHorizonSec))
        { q with farFuture := [] }) :=
      List.foldlRecOn (motive := Extends q) _ (promote _)
        ⟨List.prefix_rfl, Finset.Subset.refl _⟩
        fun q' kept item _ => kept.trans (extends_promote _ item)
    exact List.foldlRecOn (motive := Extends q) _ drainBucket promoted
      fun q' kept sec _ => kept.trans (extends_drainBucket sec)

/-- `a` is ready, not tombstoned, and `b` is not ready ahead of it. -/
structure Ahead (a b : Ulid) (q : SingleQueue) : Prop where
  ready : a ∈ q.ready
  live : a ∉ q.deleted
  first : b ∉ q.ready.takeWhile (· ≠ a)

theorem takeWhile_append_of_mem {xs ys : List Ulid} (inside : a ∈ xs) :
    (xs ++ ys).takeWhile (· ≠ a) = xs.takeWhile (· ≠ a) := by
  rw [List.takeWhile_append, if_neg]
  intro all
  have whole := (List.takeWhile_prefix (l := xs) (· ≠ a)).eq_of_length all
  have off := List.mem_takeWhile_imp (whole ▸ inside)
  simp at off

theorem Ahead.extends {q' : SingleQueue} (h : Ahead a b q) (more : Extends q q') : Ahead a b q' := by
  obtain ⟨⟨behind, ready⟩, tombs⟩ := more
  refine ⟨ready ▸ List.mem_append_left _ h.ready, fun tomb => h.live (tombs tomb), ?_⟩
  rw [← ready, takeWhile_append_of_mem h.ready]
  exact h.first

theorem Ahead.insert (h : Ahead a b q) (id : Ulid) (visibleAt now : Nat) :
    Ahead a b (q.insert id visibleAt now) := by
  refine h.extends ?_
  unfold SingleQueue.insert
  dsimp only
  split
  · exact ⟨List.prefix_append _ _, Finset.erase_subset _ _⟩
  · split <;> exact ⟨List.prefix_rfl, Finset.erase_subset _ _⟩

theorem Ahead.markDeleted (h : Ahead a b q) (other : id ≠ a) : Ahead a b (q.markDeleted id) := by
  unfold SingleQueue.markDeleted
  obtain ⟨ready, live, first⟩ := h
  split
  · rename_i head
    cases here : q.ready with
    | nil => simp [here] at head
    | cons x xs =>
        rw [here] at ready first head
        cases Option.some.inj head
        refine ⟨(List.mem_cons.1 ready).resolve_left other.symm, live, fun inside => first ?_⟩
        rw [List.takeWhile_cons_of_pos (by simpa using other)]
        exact List.mem_cons_of_mem _ inside
  · exact ⟨ready, by simp [other.symm, live], first⟩

/-- The pop loop reaches `a`, or stops ahead of it. -/
theorem popLoop_ahead {ready : List Ulid} {deleted : Finset Ulid} (inside : a ∈ ready)
    (live : a ∉ deleted) (first : b ∉ ready.takeWhile (· ≠ a)) :
    let done := popLoop ready deleted
    done.2.2 = some a ∨ (done.2.2 ≠ none ∧ done.2.2 ≠ some b ∧ a ∈ done.1 ∧ a ∉ done.2.1 ∧
      b ∉ done.1.takeWhile (· ≠ a) ∧ done.1.length < ready.length) := by
  intro done
  induction ready generalizing deleted with
  | nil => cases inside
  | cons x ready ih =>
      by_cases same : x = a
      · left
        subst same
        simp [done, popLoop, live]
      · have inside := (List.mem_cons.1 inside).resolve_left (Ne.symm same)
        rw [List.takeWhile_cons_of_pos (by simpa using same), List.mem_cons, not_or] at first
        by_cases tomb : x ∈ deleted
        · have done_eq : done = popLoop ready (deleted.erase x) := by simp [done, popLoop, tomb]
          rw [done_eq]
          refine (ih inside (fun old => live (Finset.mem_of_mem_erase old)) first.2).imp_right ?_
          rintro ⟨h1, h2, h3, h4, h5, h6⟩
          exact ⟨h1, h2, h3, h4, h5, h6.trans (Nat.lt_succ_self _)⟩
        · have done_eq : done = (ready, deleted, some x) := by simp [done, popLoop, tomb]
          rw [done_eq]
          exact Or.inr ⟨by simp, fun is => first.1 (Option.some.inj is).symm, inside, live, first.2,
            Nat.lt_succ_self _⟩

theorem Ahead.popReady (h : Ahead a b q) : q.popReady.2 = some a ∨
    ∃ id, q.popReady.2 = some id ∧ id ≠ b ∧ Ahead a b q.popReady.1 ∧
      q.popReady.1.ready.length < q.ready.length := by
  have loop := popLoop_ahead h.ready h.live h.first
  unfold SingleQueue.popReady
  rcases hp : popLoop q.ready q.deleted with ⟨ready, deleted, _ | id⟩
  · rw [hp] at loop
    simp at loop
  · rw [hp] at loop
    refine loop.imp_right ?_
    rintro ⟨_, other, inside, live, first, shorter⟩
    exact ⟨id, rfl, fun same => other (same ▸ rfl), ⟨inside, live, first⟩, shorter⟩

/-- One call: `a` is returned, or stays ahead of `b`, which is not returned. -/
theorem Ahead.call (h : Ahead a b q) (spared : c.op ≠ .markDeleted a) :
    a ∈ q.returns c.op ∨ (Ahead a b (q.call c) ∧ b ∉ q.returns c.op) := by
  obtain ⟨now, op⟩ := c
  cases op with
  | insert id visibleAt => exact Or.inr ⟨h.insert id visibleAt now, List.not_mem_nil⟩
  | advanceAndDrain order =>
      exact Or.inr ⟨h.extends (extends_advanceAndDrain order.1 now), List.not_mem_nil⟩
  | markDeleted id =>
      exact Or.inr ⟨h.markDeleted fun same => spared (same ▸ rfl), List.not_mem_nil⟩
  | popReady =>
      simp only [returns, SingleQueue.call]
      rcases h.popReady with popped | ⟨id, popped, other, ahead, _⟩
      · simp [popped]
      · exact Or.inr ⟨ahead, by simpa [popped] using other.symm⟩

/-- Popping until nothing is left returns an id that waits. -/
theorem Ahead.mem_popMany {n : Nat} (h : Ahead a b q) (enough : q.ready.length ≤ n) :
    a ∈ (popMany n q).2 := by
  induction n generalizing q with
  | zero => exact absurd h.ready (List.eq_nil_of_length_eq_zero (Nat.le_zero.1 enough) ▸ List.not_mem_nil)
  | succ n ih =>
      have popped := h.popReady
      unfold popMany
      rcases hp : q.popReady with ⟨q', _ | id⟩
      · rw [hp] at popped
        simp at popped
      · rw [hp] at popped
        rcases popped with is | ⟨_, _, _, ahead, shorter⟩
        · cases is
          exact List.mem_cons_self
        · exact List.mem_cons_of_mem _ (ih ahead (by simp only at shorter; omega))

/-! ## Delayed ids mature -/

/-- How often `m` occurs among the delayed ids. -/
def delayed (m : Ulid) (q : SingleQueue) : Nat :=
  FMap.sumBy (List.count m) q.hotDelayBuckets + (q.farFuture.map (·.id)).count m

theorem occ_eq_add_delayed (m : Ulid) (q : SingleQueue) :
    occ m q = q.ready.count m + delayed m q := by
  unfold occ delayed
  omega

/-- The delayed places of `m` are due at `v`. -/
structure DueBy (m : Ulid) (v : Nat) (q : SingleQueue) : Prop where
  buckets : ∀ sec bucket, AList.lookup sec q.hotDelayBuckets = some bucket → m ∈ bucket → sec ≤ v
  far : ∀ item ∈ q.farFuture, item.id = m → item.visibleAt ≤ v

variable {v : Nat}

theorem DueBy.congr {q' : SingleQueue} (h : DueBy m v q)
    (buckets : q'.hotDelayBuckets = q.hotDelayBuckets) (far : q'.farFuture = q.farFuture) :
    DueBy m v q' :=
  ⟨by rw [buckets]; exact h.buckets, by rw [far]; exact h.far⟩

theorem dueBy_of_delayed (absent : delayed m q = 0) : DueBy m v q := by
  unfold delayed at absent
  constructor
  · intro sec bucket found inside
    have split := FMap.sumBy_of_lookup (List.count m) found
    have := List.count_pos_iff.2 inside
    omega
  · rintro item inside rfl
    have := List.count_pos_iff.2 (List.mem_map_of_mem (f := (·.id)) inside)
    omega

theorem DueBy.pushBucket (h : DueBy m v q) {sec : Nat} (early : id = m → sec ≤ v) :
    DueBy m v (q.pushBucket sec id) := by
  refine ⟨fun sec' bucket found inside => ?_, h.far⟩
  simp only [SingleQueue.pushBucket, FMap.lookup_insert_ite] at found
  split at found
  · rename_i here
    subst here
    cases found
    rcases List.mem_append.1 inside with old | new
    · unfold FMap.getD at old
      cases was : AList.lookup sec' q.hotDelayBuckets with
      | none => simp [was] at old
      | some bucket =>
          rw [was] at old
          exact h.buckets sec' bucket was old
    · exact early (List.mem_singleton.1 new).symm
  · exact h.buckets sec' bucket found inside

theorem DueBy.insert (h : DueBy m v q) {visibleAt : Nat} (early : id = m → visibleAt ≤ v)
    (now : Nat) : DueBy m v (q.insert id visibleAt now) := by
  unfold SingleQueue.insert
  dsimp only
  split
  · exact h.congr rfl rfl
  · split
    · have erased : DueBy m v { q with deleted := q.deleted.erase id } := h.congr rfl rfl
      exact erased.pushBucket early
    · refine ⟨h.buckets, fun item inside is => ?_⟩
      rcases List.mem_append.1 inside with old | new
      · exact h.far item old is
      · cases List.mem_singleton.1 new
        exact early is

theorem DueBy.promote (h : DueBy m v q) (limit : Nat) {item : FarFutureItem}
    (early : item.id = m → item.visibleAt ≤ v) : DueBy m v (promote limit q item) := by
  unfold SingleQueue.promote
  split
  · exact h
  · split
    · exact h.pushBucket fun is => (Nat.div_mul_le_self _ _).trans (early is)
    · refine ⟨h.buckets, fun item' inside is => ?_⟩
      rcases List.mem_append.1 inside with old | new
      · exact h.far item' old is
      · cases List.mem_singleton.1 new
        exact early is

theorem hotDelayBuckets_drainId (q : SingleQueue) (id : Ulid) :
    (q.drainId id).hotDelayBuckets = q.hotDelayBuckets ∧ (q.drainId id).farFuture = q.farFuture := by
  unfold drainId
  split <;> exact ⟨rfl, rfl⟩

/-- Draining a second takes its bucket away and nothing else of the delayed ids. -/
theorem hotDelayBuckets_drainBucket (q : SingleQueue) (sec : Nat) :
    (q.drainBucket sec).hotDelayBuckets = AList.erase sec q.hotDelayBuckets ∧
      (q.drainBucket sec).farFuture = q.farFuture := by
  unfold drainBucket
  cases found : AList.lookup sec q.hotDelayBuckets with
  | none => exact ⟨(FMap.erase_of_lookup_none found).symm, rfl⟩
  | some bucket =>
      exact List.foldlRecOn (motive := fun q' : SingleQueue =>
          q'.hotDelayBuckets = AList.erase sec q.hotDelayBuckets ∧ q'.farFuture = q.farFuture)
        bucket drainId ⟨rfl, rfl⟩ fun q' kept id _ =>
          ⟨(hotDelayBuckets_drainId q' id).1.trans kept.1,
            (hotDelayBuckets_drainId q' id).2.trans kept.2⟩

theorem hotDelayBuckets_drainBucket_foldl (q : SingleQueue) (secs : List Nat) :
    (secs.foldl drainBucket q).hotDelayBuckets = FMap.eraseAll q.hotDelayBuckets secs ∧
      (secs.foldl drainBucket q).farFuture = q.farFuture := by
  induction secs generalizing q with
  | nil => exact ⟨rfl, rfl⟩
  | cons sec secs ih =>
      obtain ⟨buckets, far⟩ := hotDelayBuckets_drainBucket q sec
      obtain ⟨buckets', far'⟩ := ih (q.drainBucket sec)
      rw [List.foldl_cons, buckets', far', buckets, far]
      exact ⟨rfl, rfl⟩

/-- The far-future items that stay are beyond the limit. -/
theorem farFuture_promote_foldl (limit : Nat) (items : List FarFutureItem) :
    (items.foldl (promote limit) q).farFuture =
      q.farFuture ++ items.filter fun item => item.id ∉ q.deleted ∧ limit < item.visibleAt := by
  induction items generalizing q with
  | nil => simp
  | cons item items ih =>
      rw [List.foldl_cons, ih, deleted_promote, List.filter_cons]
      unfold promote
      by_cases tomb : item.id ∈ q.deleted
      · simp [tomb]
      · by_cases inside : item.visibleAt ≤ limit
        · simp [tomb, inside, pushBucket]
        · simp [tomb, inside, Nat.lt_of_not_le inside]

theorem DueBy.promote_far (h : DueBy m v q) (limit : Nat) :
    DueBy m v (q.farFuture.foldl (SingleQueue.promote limit) { q with farFuture := [] }) :=
  List.foldlRecOn (motive := DueBy m v) q.farFuture (SingleQueue.promote limit)
    ⟨h.buckets, by simp⟩ fun _ kept item inside => kept.promote limit (h.far item inside)

theorem DueBy.drainBucket (h : DueBy m v q) (sec : Nat) : DueBy m v (q.drainBucket sec) := by
  obtain ⟨buckets, far⟩ := hotDelayBuckets_drainBucket q sec
  refine ⟨fun sec' bucket found inside => ?_, by rw [far]; exact h.far⟩
  rw [buckets, FMap.lookup_erase_ite] at found
  split at found
  · cases found
  · exact h.buckets sec' bucket found inside

theorem DueBy.advanceAndDrain (h : DueBy m v q) (order : List Nat → List Nat) (now : Nat) :
    DueBy m v (q.advanceAndDrain order now) := by
  unfold SingleQueue.advanceAndDrain
  split
  · exact h
  · dsimp only
    have promoted := h.promote_far (addU64 now hotDelayHorizonSec)
    refine DueBy.congr (List.foldlRecOn (motive := DueBy m v) _ SingleQueue.drainBucket promoted
      fun q' kept sec _ => kept.drainBucket sec) rfl rfl

/-- `m` occurs, is not tombstoned, and is due at `v`. -/
structure Pending (m : Ulid) (v : Nat) (q : SingleQueue) : Prop where
  occurs : 0 < occ m q
  live : m ∉ q.deleted
  due : DueBy m v q

theorem Pending.insert_new (absent : occ m q = 0) (v now : Nat) :
    Pending m v (q.insert m v now) := by
  have split := occ_eq_add_delayed m q
  refine ⟨by simp [occ_insert], ?_, (dueBy_of_delayed (by omega)).insert (fun _ => le_rfl) now⟩
  rw [mem_deleted_insert]
  simp

/-- One call: `m` is returned or stays pending. -/
theorem Pending.call (h : Pending m v q) (old : ∀ v, c.op ≠ .insert m v)
    (spared : c.op ≠ .markDeleted m) : m ∈ q.returns c.op ∨ Pending m v (q.call c) := by
  have clean : Clean m q := fun tomb => absurd tomb h.live
  obtain ⟨now, op⟩ := c
  cases op with
  | insert id visibleAt =>
      have other : id ≠ m := fun same => old visibleAt (same ▸ rfl)
      refine Or.inr ⟨?_, fun tomb => h.live ((mem_deleted_insert visibleAt now).1 tomb).2,
        h.due.insert (fun same => absurd same other) now⟩
      simpa [SingleQueue.call, occ_insert, other] using h.occurs
  | advanceAndDrain order =>
      obtain ⟨same, tombs⟩ := clean.advanceAndDrain order.1 now
      exact Or.inr ⟨h.occurs.trans_eq same.symm, fun tomb => h.live (tombs tomb),
        h.due.advanceAndDrain order.1 now⟩
  | markDeleted id =>
      have other : id ≠ m := fun same => spared (same ▸ rfl)
      refine Or.inr ⟨by simpa [SingleQueue.call, occ_markDeleted_of_ne other] using h.occurs,
        fun tomb => h.live ((mem_deleted_markDeleted_of_ne other).1 tomb), h.due.congr ?_ ?_⟩
      all_goals
        simp only [SingleQueue.call, markDeleted]
        split <;> rfl
  | popReady =>
      obtain ⟨counts, tombs⟩ := clean.popReady
      by_cases popped : q.popReady.2 = some m
      · exact Or.inl (by simp [returns, popped])
      · rw [if_neg popped] at counts
        refine Or.inr ⟨by have := h.occurs; simp only [SingleQueue.call]; omega,
          fun tomb => h.live (tombs tomb), h.due.congr ?_ ?_⟩
        all_goals
          simp only [SingleQueue.call, SingleQueue.popReady]
          split <;> rfl

/-- A drain at or after `v` makes `m` ready. -/
theorem Pending.matures (h : Pending m v q) {order : List Nat → List Nat} {now : Nat}
    (each : ∀ keys, (order keys).Perm keys) (drained : q.lastDrainedSec ≤ now) (due : v ≤ now)
    (early : now + hotDelayHorizonSec < 2 ^ 64) : Ahead m m (q.advanceAndDrain order now) := by
  have clean : Clean m q := fun tomb => absurd tomb h.live
  obtain ⟨same, tombs⟩ := clean.advanceAndDrain order now
  have gone : delayed m (q.advanceAndDrain order now) = 0 := by
    unfold SingleQueue.advanceAndDrain
    rw [if_neg (Nat.not_lt.2 drained), addU64_of_lt early]
    dsimp only
    generalize promoted : q.farFuture.foldl (promote (now + hotDelayHorizonSec))
      { q with farFuture := [] } = p
    obtain ⟨buckets, far⟩ := hotDelayBuckets_drainBucket_foldl p
      ((order p.hotDelayBuckets.keys).filter fun sec => sec ≤ now)
    unfold delayed
    dsimp only
    rw [buckets, far]
    have noBucket : FMap.sumBy (List.count m) (FMap.eraseAll p.hotDelayBuckets
        ((order p.hotDelayBuckets.keys).filter fun sec => sec ≤ now)) = 0 := by
      refine FMap.sumBy_eq_zero fun sec bucket found => ?_
      rw [FMap.lookup_eraseAll] at found
      split at found
      · cases found
      · rename_i kept
        have key : sec ∈ order p.hotDelayBuckets.keys :=
          (each _).mem_iff.2 (AList.mem_keys.1 (FMap.mem_of_lookup found))
        have dueP : DueBy m v p := promoted ▸ h.due.promote_far _
        refine List.count_eq_zero.2 fun inside => kept (List.mem_filter.2 ⟨key, ?_⟩)
        simpa using (dueP.buckets sec bucket found inside).trans due
    have noFar : (p.farFuture.map (·.id)).count m = 0 := by
      refine List.count_eq_zero.2 fun inside => ?_
      obtain ⟨item, stays, is⟩ := List.mem_map.1 inside
      rw [← promoted, farFuture_promote_foldl, List.nil_append, List.mem_filter] at stays
      have bound := h.due.far item stays.1 is
      have beyond : now + hotDelayHorizonSec < item.visibleAt := by
        have := stays.2
        simp only [decide_eq_true_eq] at this
        exact this.2
      omega
    omega
  refine ⟨List.count_pos_iff.1 ?_, fun tomb => h.live (tombs tomb), fun inside => ?_⟩
  · have split := occ_eq_add_delayed m (q.advanceAndDrain order now)
    have := h.occurs
    omega
  · simpa using List.mem_takeWhile_imp inside

/-! ## No loss, no duplication, and the order of the FIFO -/

/-- The clock does not go back, and an id is inserted only when it occurs nowhere. -/
def Disciplined : Clocked SingleQueue → List QueueCall → Prop :=
  Trace.Along step fun s c =>
    s.now ≤ c.now ∧ ∀ id v, c.op = .insert id v → occ id s.queue = 0

/-- `m` is tombstoned only when it occurs nowhere. -/
def Spared (m : Ulid) : Clocked SingleQueue → List QueueCall → Prop :=
  Trace.Along step fun s c => c.op = .markDeleted m → occ m s.queue = 0

theorem lastDrainedSec_call (q : SingleQueue) (c : QueueCall) :
    (q.call c).lastDrainedSec = q.lastDrainedSec ∨ (q.call c).lastDrainedSec = c.now := by
  obtain ⟨now, op⟩ := c
  cases op with
  | insert id visibleAt =>
      left
      simp only [call, SingleQueue.insert]
      split
      · rfl
      · split <;> rfl
  | advanceAndDrain order =>
      simp only [call, SingleQueue.advanceAndDrain]
      split
      · exact Or.inl rfl
      · exact Or.inr rfl
  | markDeleted id =>
      left
      simp only [call, SingleQueue.markDeleted]
      split <;> rfl
  | popReady =>
      left
      simp only [call, SingleQueue.popReady]
      split <;> rfl

theorem Disciplined.lastDrainedSec_le (run : Disciplined s calls)
    (drained : s.queue.lastDrainedSec ≤ s.now) :
    (calls.foldl step s).queue.lastDrainedSec ≤ (calls.foldl step s).now := by
  refine Trace.Along.invariant (I := fun s => s.queue.lastDrainedSec ≤ s.now) run drained ?_
  rintro s c drained ⟨later, _⟩
  rcases lastDrainedSec_call s.queue c with same | now
  · exact same.trans_le (drained.trans later)
  · exact now.le

theorem occ_pos_of_mem_ready (inside : m ∈ q.ready) : 0 < occ m q := by
  have := List.count_pos_iff.2 inside
  unfold occ
  omega

theorem not_mem_takeWhile_ne (xs : List Ulid) : a ∉ xs.takeWhile (· ≠ a) := by
  intro inside
  simpa using List.mem_takeWhile_imp inside

/-- A run that leaves `m` alone returns it or keeps it pending. -/
theorem Pending.run (h : Pending m v s.queue) (run : Disciplined s calls)
    (spared : Spared m s calls) :
    m ∈ returned s calls ∨ Pending m v (calls.foldl step s).queue := by
  refine Trace.Along.emits_or_invariant (I := fun s => Pending m v s.queue) (Trace.Along.and run spared)
    h ?_
  rintro s c pending ⟨⟨_, fresh⟩, gone⟩
  have occurs := pending.occurs.ne'
  exact pending.call (fun v' is => occurs (fresh m v' is)) fun is => occurs (gone is)

/-- A run that leaves `a` alone returns it or keeps it ahead of `b`. -/
theorem Ahead.run (h : Ahead a b s.queue) (spared : Spared a s calls) :
    a ∈ returned s calls ∨ Ahead a b (calls.foldl step s).queue := by
  refine Trace.Along.emits_or_invariant (I := fun s => Ahead a b s.queue) spared h ?_
  intro s c ahead gone
  have occurs := (occ_pos_of_mem_ready ahead.ready).ne'
  exact (ahead.call fun is => occurs (gone is)).imp_right And.left

theorem returned_append (s : Clocked SingleQueue) (xs ys : List QueueCall) :
    returned s (xs ++ ys) = returned s xs ++ returned (xs.foldl step s) ys :=
  Trace.emitted_append

theorem returned_cons_insert (s : Clocked SingleQueue) (t : Nat) (id : Ulid) (v : Nat) :
    returned s (⟨t, .insert id v⟩ :: calls) = returned (step s ⟨t, .insert id v⟩) calls := rfl

theorem returned_cons_drain (s : Clocked SingleQueue) (t : Nat) (order : KeyOrder) :
    returned s (⟨t, .advanceAndDrain order⟩ :: calls) =
      returned (step s ⟨t, .advanceAndDrain order⟩) calls := rfl

/-- An id that is ready at once goes behind every id that is ready. -/
theorem ahead_insert_ready {t : Nat} (waits : Ahead a a q) (absent : occ b q = 0) (due : v ≤ t) :
    Ahead a b (q.insert b v t) := by
  have away : b ∉ q.ready := fun inside => (occ_pos_of_mem_ready inside).ne' absent
  obtain ⟨ready, live, _⟩ := waits.insert b v t
  refine ⟨ready, live, ?_⟩
  simp only [SingleQueue.insert, due, if_true]
  rw [takeWhile_append_of_mem waits.ready]
  exact fun inside => away ((List.takeWhile_prefix _).subset inside)

/-- An id inserted where it does not occur is returned at most once until it is inserted
again.  If it is left alone it is not lost: after a drain at or past its time it has been
returned or is returned by popping until nothing is left.  And if it was ready at once, an
id that is inserted later and ready at once is not returned before it. -/
theorem no_loss_no_duplication {t₀ now v : Nat} {before after : List QueueCall} {m : Ulid}
    (run : Disciplined (start t₀) (before ++ ⟨now, .insert m v⟩ :: after)) :
    let s := step (before.foldl step (start t₀)) ⟨now, .insert m v⟩
    let final := (after.foldl step s).queue
    ((∀ c ∈ after, ∀ v', c.op ≠ .insert m v') → (returned s after).count m ≤ 1) ∧
    (Spared m s after →
      (∀ mid t order rest, after = mid ++ ⟨t, .advanceAndDrain order⟩ :: rest → v ≤ t →
        t + hotDelayHorizonSec < 2 ^ 64 →
        m ∈ returned s after ∨ ∀ n, final.ready.length < n → m ∈ (popMany n final).2) ∧
      (v ≤ now → ∀ mid t b v' rest, after = mid ++ ⟨t, .insert b v'⟩ :: rest → v' ≤ t → b ≠ m →
        final.popReady.2 = some b → m ∈ returned s after)) := by
  intro s final
  obtain ⟨runBefore, ⟨later, fresh⟩, runAfter⟩ := Trace.along_append.1 run
  have drained : s.queue.lastDrainedSec ≤ s.now := by
    have := Disciplined.lastDrainedSec_le runBefore (s := start t₀) le_rfl
    rcases lastDrainedSec_call (before.foldl step (start t₀)).queue ⟨now, .insert m v⟩ with same | is
    · exact same.trans_le (this.trans later)
    · exact is.le
  have absent := fresh m v rfl
  have once : occ m s.queue = 1 := by
    have added : occ m s.queue = occ m (before.foldl step (start t₀)).queue + if m = m then 1 else 0 :=
      occ_insert v now
    rw [added, absent, if_pos rfl]
  refine ⟨fun old => ?_, fun spared => ⟨?_, ?_⟩⟩
  · have bound := count_returned_le (s := s) old
    omega
  · rintro mid t order rest rfl due early
    obtain ⟨runMid, ⟨laterT, _⟩, runRest⟩ := Trace.along_append.1 runAfter
    obtain ⟨sparedMid, _, sparedRest⟩ := Trace.along_append.1 spared
    rw [returned_append, returned_cons_drain]
    rcases (Pending.insert_new absent v now : Pending m v s.queue).run runMid sparedMid with
      popped | pending
    · exact Or.inl (List.mem_append_left _ popped)
    · have drainedT := (Disciplined.lastDrainedSec_le runMid drained).trans laterT
      have waits := pending.matures order.2 drainedT due early
      rcases Ahead.run (s := step (mid.foldl step s) ⟨t, .advanceAndDrain order⟩) waits sparedRest
        with popped | waits
      · exact Or.inl (List.mem_append_right _ popped)
      · refine Or.inr fun n enough => ?_
        have end_eq : final = (rest.foldl step
            (step (mid.foldl step s) ⟨t, .advanceAndDrain order⟩)).queue := by
          simp only [final, List.foldl_append, List.foldl_cons]
        rw [end_eq] at enough ⊢
        exact waits.mem_popMany enough.le
  · rintro ready mid t b v' rest rfl due other pops
    obtain ⟨_, ⟨_, freshB⟩, _⟩ := Trace.along_append.1 runAfter
    obtain ⟨sparedMid, _, sparedRest⟩ := Trace.along_append.1 spared
    have waits : Ahead m m s.queue := by
      refine ⟨?_, (Pending.insert_new absent v now).live, not_mem_takeWhile_ne _⟩
      simp [s, Clocked.step, SingleQueue.call, SingleQueue.insert, ready]
    rw [returned_append, returned_cons_insert]
    rcases waits.run sparedMid with popped | waits
    · exact List.mem_append_left _ popped
    · have ahead := ahead_insert_ready waits (freshB b v' rfl) due
      rcases Ahead.run (s := step (mid.foldl step s) ⟨t, .insert b v'⟩) ahead sparedRest with
        popped | ahead
      · exact List.mem_append_right _ popped
      · have end_eq : final = (rest.foldl step
            (step (mid.foldl step s) ⟨t, .insert b v'⟩)).queue := by
          simp only [final, List.foldl_append, List.foldl_cons]
        rw [end_eq] at pops
        rcases ahead.popReady with is | ⟨id, is, ne, _⟩
        · rw [is] at pops
          exact absurd (Option.some.inj pops).symm other
        · rw [is] at pops
          exact absurd (Option.some.inj pops) ne

/-- The keys in the order they are stored. -/
def storedOrder : KeyOrder := ⟨fun keys => keys, fun keys => List.Perm.refl keys⟩

/-- Three ids that are ready at once, of which the first is tombstoned: the second is returned
before the third. -/
theorem no_loss_no_duplication_sample :
    let after : List QueueCall :=
      [⟨101, .insert 2 101⟩, ⟨102, .markDeleted 3⟩, ⟨160, .advanceAndDrain storedOrder⟩,
        ⟨160, .popReady⟩]
    let s := step ([⟨100, .insert 3 100⟩].foldl step (start 100)) ⟨100, .insert 1 100⟩
    let final := (after.foldl step s).queue
    s.queue.ready = [3, 1] ∧ returned s after = [1] ∧ final.popReady.2 = some 2 ∧
      (returned s after).count 1 ≤ 1 ∧
      (1 ∈ returned s after ∨ ∀ n, final.ready.length < n → 1 ∈ (popMany n final).2) ∧
      1 ∈ returned s after := by
  intro after s final
  have run : Disciplined (start 100) ([⟨100, .insert 3 100⟩] ++ ⟨100, .insert 1 100⟩ :: after) := by
    refine ⟨⟨by decide, fun id v is => ?_⟩, ⟨by decide, fun id v is => ?_⟩,
      ⟨by decide, fun id v is => ?_⟩, ⟨by decide, fun id v is => ?_⟩,
      ⟨by decide, fun id v is => ?_⟩, ⟨by decide, fun id v is => ?_⟩, trivial⟩
    iterate 3
      · cases is
        decide +kernel
    all_goals cases is
  have old : ∀ c ∈ after, ∀ v, c.op ≠ .insert 1 v := by simp [after]
  have spared : Spared 1 s after := by
    refine ⟨?_, ?_, ?_, ?_, trivial⟩ <;> simp
  have next : final.popReady.2 = some 2 := by decide +kernel
  obtain ⟨once, kept⟩ := no_loss_no_duplication run
  obtain ⟨stays, order⟩ := kept spared
  exact ⟨by decide +kernel, by decide +kernel, next, once old,
    stays [⟨101, .insert 2 101⟩, ⟨102, .markDeleted 3⟩] 160 storedOrder [⟨160, .popReady⟩] rfl
      (by decide) (by decide),
    order le_rfl [] 101 2 101 _ rfl le_rfl (by decide) next⟩

/-- In the last five minutes of `u64` the horizon of a drain wraps: an id of the far future
whose time has come is not promoted, and popping does not return it. -/
theorem drain_horizon_wraps :
    let s := step (start (2 ^ 64 - 500)) ⟨2 ^ 64 - 500, .insert 1 (2 ^ 64 - 100)⟩
    let drained := step s ⟨2 ^ 64 - 50, .advanceAndDrain storedOrder⟩
    (start (2 ^ 64 - 500)).queue.occ 1 = 0 ∧ drained.queue.ready.length < 3 ∧
      (popMany 3 drained.queue).2 = [] := by
  decide +kernel

/-! ## Tombstones -/

/-- The only occurrence of `m` is tombstoned. -/
structure Buried (m : Ulid) (q : SingleQueue) : Prop where
  once : occ m q ≤ 1
  tomb : 0 < occ m q → m ∈ q.deleted

theorem buried_of_absent (absent : occ m q = 0) : Buried m q :=
  ⟨by omega, fun occurs => absurd absent occurs.ne'⟩

/-- Marking the only occurrence of an id buries it. -/
theorem buried_markDeleted (once : occ m q ≤ 1) : Buried m (q.markDeleted m) := by
  unfold SingleQueue.markDeleted
  split
  · rename_i head
    refine buried_of_absent ?_
    cases ready : q.ready with
    | nil => simp [ready] at head
    | cons x xs =>
        rw [ready] at head
        cases Option.some.inj head
        simp only [occ, ready, List.count_cons_self] at once
        simp only [occ, List.tail_cons]
        omega
  · exact ⟨once, fun _ => Finset.mem_insert_self m q.deleted⟩

theorem Buried.insert (h : Buried m q) (other : id ≠ m) (visibleAt now : Nat) :
    Buried m (q.insert id visibleAt now) := by
  have same : occ m (q.insert id visibleAt now) = occ m q := by simp [occ_insert, other]
  refine ⟨same.trans_le h.once, fun occurs => ?_⟩
  rw [mem_deleted_insert]
  exact ⟨other.symm, h.tomb (same ▸ occurs)⟩

theorem Buried.markDeleted (h : Buried m q) (other : id ≠ m) : Buried m (q.markDeleted id) := by
  have same := occ_markDeleted_of_ne (q := q) other
  refine ⟨same.trans_le h.once, fun occurs => ?_⟩
  rw [mem_deleted_markDeleted_of_ne other]
  exact h.tomb (same ▸ occurs)

/-- A bucket whose ids are still to be drained, counted with the queue. -/
theorem buried_drainId_foldl (ids : List Ulid) (once : occ m q + ids.count m ≤ 1)
    (tomb : 0 < occ m q + ids.count m → m ∈ q.deleted) : Buried m (ids.foldl drainId q) := by
  induction ids generalizing q with
  | nil => exact ⟨by simpa using once, by simpa using tomb⟩
  | cons id ids ih =>
      rw [List.count_cons] at once tomb
      by_cases same : id = m
      · subst same
        simp only [beq_self_eq_true, if_true] at once tomb
        have drop : q.drainId id = { q with deleted := q.deleted.erase id } := by
          simp [drainId, tomb (by omega)]
        rw [List.foldl_cons, drop]
        have none : occ id { q with deleted := q.deleted.erase id } = occ id q := rfl
        exact ih (by omega) fun occurs => by omega
      · simp only [beq_iff_eq, same, if_false, Nat.add_zero] at once tomb
        rw [List.foldl_cons]
        refine ih (by rw [occ_drainId_of_ne same]; exact once) fun occurs => ?_
        rw [occ_drainId_of_ne same] at occurs
        unfold drainId
        split
        · exact Finset.mem_erase.2 ⟨fun is => same is.symm, tomb occurs⟩
        · exact tomb occurs

theorem Buried.drainBucket (h : Buried m q) (sec : Nat) : Buried m (q.drainBucket sec) := by
  unfold SingleQueue.drainBucket
  cases found : AList.lookup sec q.hotDelayBuckets with
  | none => exact h
  | some bucket =>
      have split := FMap.sumBy_of_lookup (List.count m) found
      have same : occ m { q with hotDelayBuckets := AList.erase sec q.hotDelayBuckets } +
          bucket.count m = occ m q := by
        simp only [occ, split]
        omega
      exact buried_drainId_foldl bucket (same.trans_le h.once) fun occurs =>
        h.tomb (same ▸ occurs)

/-- Far-future items that are still to be promoted, counted with the queue. -/
theorem buried_promote_foldl (limit : Nat) (items : List FarFutureItem)
    (once : occ m q + (items.map (·.id)).count m ≤ 1)
    (tomb : 0 < occ m q + (items.map (·.id)).count m → m ∈ q.deleted) :
    Buried m (items.foldl (promote limit) q) := by
  have bound := occ_promote_foldl_le (m := m) (q := q) limit items
  refine ⟨bound.trans once, fun occurs => ?_⟩
  rw [deleted_promote_foldl]
  exact tomb (occurs.trans_le bound)

theorem Buried.advanceAndDrain (h : Buried m q) (order : List Nat → List Nat) (now : Nat) :
    Buried m (q.advanceAndDrain order now) := by
  unfold SingleQueue.advanceAndDrain
  split
  · exact h
  · dsimp only
    have same : occ m { q with farFuture := [] } + (q.farFuture.map (·.id)).count m = occ m q := by
      simp [occ]
    have promoted := buried_promote_foldl (q := { q with farFuture := [] })
      (addU64 now hotDelayHorizonSec) q.farFuture (same.trans_le h.once) fun occurs =>
        h.tomb (same ▸ occurs)
    obtain ⟨once, tomb⟩ := List.foldlRecOn (motive := Buried m) _ SingleQueue.drainBucket promoted
      fun q' kept sec _ => kept.drainBucket sec
    exact ⟨once, tomb⟩

/-- The pop loop passes over a buried id, and keeps its tombstone until it meets it. -/
theorem popLoop_buried (ready : List Ulid) (deleted : Finset Ulid) (rest : Nat)
    (once : ready.count m + rest ≤ 1) (tomb : 0 < ready.count m + rest → m ∈ deleted) :
    let done := popLoop ready deleted
    done.2.2 ≠ some m ∧ (0 < done.1.count m + rest → m ∈ done.2.1) := by
  induction ready generalizing deleted with
  | nil => exact ⟨by simp [popLoop], by simpa [popLoop] using tomb⟩
  | cons id ready ih =>
      rw [List.count_cons] at once tomb
      by_cases dropped : id ∈ deleted
      · simp only [popLoop, dropped, if_true]
        refine ih _ (by omega) fun occurs => ?_
        by_cases same : id = m
        · simp only [same, beq_self_eq_true, if_true] at once
          omega
        · exact Finset.mem_erase.2 ⟨fun is => same is.symm, tomb (by omega)⟩
      · have other : id ≠ m := by
          rintro rfl
          simp only [beq_self_eq_true, if_true] at tomb
          exact dropped (tomb (by omega))
        simp only [popLoop, dropped, if_false]
        exact ⟨fun is => other (Option.some.inj is), fun occurs => tomb (by omega)⟩

theorem popLoop_none (ready : List Ulid) (deleted : Finset Ulid) :
    (popLoop ready deleted).2.2 = none → (popLoop ready deleted).1 = [] := by
  induction ready generalizing deleted with
  | nil => simp [popLoop]
  | cons id ready ih =>
      rw [popLoop]
      split
      · exact ih _
      · simp

/-- A pop does not return a buried id, which stays buried unless nothing was ready and the
id is delayed. -/
theorem Buried.popReady (h : Buried m q) (safe : q.popReady.2 = none → delayed m q = 0) :
    q.popReady.2 ≠ some m ∧ Buried m q.popReady.1 := by
  have split := occ_eq_add_delayed m q
  have bound := occ_popReady_le (m := m) (q := q)
  have loop := popLoop_buried q.ready q.deleted (delayed m q) (split ▸ h.once)
    fun occurs => h.tomb (split ▸ occurs)
  have once : occ m q.popReady.1 ≤ 1 := by
    have := h.once
    omega
  unfold SingleQueue.popReady at safe once ⊢
  rcases hp : popLoop q.ready q.deleted with ⟨ready, deleted, _ | id⟩
  · rw [hp] at safe
    have empty : ready = [] := by simpa [hp] using popLoop_none q.ready q.deleted
    refine ⟨by simp, buried_of_absent ?_⟩
    rw [occ_eq_add_delayed, empty]
    exact (Nat.zero_add _).trans (safe rfl)
  · rw [hp] at loop once
    refine ⟨loop.1, once, fun occurs => ?_⟩
    rw [occ_eq_add_delayed] at occurs
    exact loop.2 occurs

/-- No pop finds nothing ready while `m` is delayed. -/
def NeverEmptied (m : Ulid) : Clocked SingleQueue → List QueueCall → Prop :=
  Trace.Along step fun s c =>
    c.op = .popReady → s.queue.popReady.2 = none → delayed m s.queue = 0

/-- One call that does not insert `m` again. -/
theorem Buried.call (h : Buried m q) (old : ∀ v, c.op ≠ .insert m v)
    (safe : c.op = .popReady → q.popReady.2 = none → delayed m q = 0) :
    m ∉ q.returns c.op ∧ Buried m (q.call c) := by
  obtain ⟨now, op⟩ := c
  cases op with
  | insert id visibleAt =>
      exact ⟨List.not_mem_nil, h.insert (fun same => old visibleAt (same ▸ rfl)) visibleAt now⟩
  | advanceAndDrain order => exact ⟨List.not_mem_nil, h.advanceAndDrain order.1 now⟩
  | markDeleted id =>
      refine ⟨List.not_mem_nil, ?_⟩
      by_cases same : id = m
      · subst same
        exact buried_markDeleted h.once
      · exact h.markDeleted same
  | popReady =>
      obtain ⟨quiet, buried⟩ := h.popReady (safe rfl)
      exact ⟨by simpa [returns] using quiet, buried⟩

/-- A tombstone holds: after the only occurrence of an id was marked, the id is not returned
until it is inserted again, provided no pop finds nothing ready while the id is delayed. -/
theorem tombstone_holds {now : Nat} (once : occ m s.queue = 1)
    (old : ∀ c ∈ calls, ∀ v, c.op ≠ .insert m v)
    (safe : NeverEmptied m (step s ⟨now, .markDeleted m⟩) calls) :
    m ∉ returned (step s ⟨now, .markDeleted m⟩) calls := by
  have never : Trace.Along step (fun _ c => ∀ v, c.op ≠ .insert m v)
      (step s ⟨now, .markDeleted m⟩) calls := Trace.along_of_forall fun _ => old
  refine Trace.Along.not_emits (I := fun s => Buried m s.queue) (Trace.Along.and safe never)
    (buried_markDeleted once.le) ?_
  rintro s c buried ⟨safe, old⟩
  exact buried.call old safe

theorem tombstone_holds_sample :
    let s := step (step (start 100) ⟨100, .insert 1 150⟩) ⟨100, .insert 2 100⟩
    let calls : List QueueCall := [⟨110, .popReady⟩, ⟨160, .advanceAndDrain storedOrder⟩,
      ⟨160, .popReady⟩]
    returned (step s ⟨105, .markDeleted 1⟩) calls = [2] ∧
      1 ∉ returned (step s ⟨105, .markDeleted 1⟩) calls := by
  intro s calls
  refine ⟨by decide +kernel, tombstone_holds (by decide +kernel) (by simp [calls]) ?_⟩
  refine ⟨fun _ none => ?_, fun is => ?_, fun _ _ => ?_, trivial⟩
  · exact absurd none (by decide +kernel)
  · cases is
  · decide +kernel

/-- A pop of an empty queue forgets the tombstone of a delayed id, which then comes back. -/
theorem tombstone_forgotten :
    let s := step (start 100) ⟨100, .insert 1 150⟩
    occ 1 s.queue = 1 ∧ returned (step s ⟨105, .markDeleted 1⟩)
      [⟨110, .popReady⟩, ⟨160, .advanceAndDrain storedOrder⟩, ⟨160, .popReady⟩] = [1] := by
  decide +kernel

end SingleQueue

end WalrQueue
