import WalrQueue.QueueRun
import WalrQueue.ShardLocation
import WalrQueue.ShardSteps

/-!
# The ready count

`ready_len` subtracts the number of tombstones from the length of the FIFO, as if
every tombstone stood for an id of the FIFO.  The ack of a leased message leaves
one that does not: the message was popped before.  From then on the count is too
low, until a pop finds the queue empty and forgets the tombstones.
-/

namespace WalrQueue

namespace SingleQueue

/-! ## What pops return -/

/-- The ids of a FIFO that pops return: a tombstone takes one occurrence of its id with it. -/
def live : List Ulid → Finset Ulid → List Ulid
  | [], _ => []
  | id :: ready, deleted =>
      if id ∈ deleted then live ready (deleted.erase id) else id :: live ready deleted

theorem live_popLoop (ready : List Ulid) (deleted : Finset Ulid) :
    live ready deleted = match popLoop ready deleted with
      | (rest, tombs, some id) => id :: live rest tombs
      | (_, _, none) => [] := by
  induction ready generalizing deleted with
  | nil => rfl
  | cons id ready ih =>
      rw [live, popLoop]
      split
      · exact ih _
      · rfl

/-- Popping takes the live ids from the front. -/
theorem popMany_eq_take (n : Nat) (q : SingleQueue) :
    (popMany n q).2 = (live q.ready q.deleted).take n := by
  induction n generalizing q with
  | zero => rfl
  | succ n ih =>
      rw [live_popLoop]
      unfold popMany popReady
      rcases popLoop q.ready q.deleted with ⟨ready, deleted, _ | id⟩
      · rfl
      · exact congrArg (id :: ·) (ih _)

/-- As many ids are live as there are ready, less one for every tombstone of one of them. -/
theorem length_live (ready : List Ulid) (deleted : Finset Ulid) :
    (live ready deleted).length + (deleted ∩ ready.toFinset).card = ready.length := by
  induction ready generalizing deleted with
  | nil => simp [live]
  | cons id ready ih =>
      rw [live, List.toFinset_cons]
      split
      · rename_i tomb
        have one : deleted ∩ Insert.insert id ready.toFinset =
            Insert.insert id (deleted.erase id ∩ ready.toFinset) := by
          ext m
          by_cases same : m = id
          · simp [same, tomb]
          · simp [same]
        rw [one, Finset.card_insert_of_notMem (by simp)]
        have rest := ih (deleted.erase id)
        simp only [List.length_cons]
        omega
      · rename_i alive
        rw [Finset.inter_insert_of_notMem alive]
        have rest := ih deleted
        simp only [List.length_cons]
        omega

theorem length_live_le (ready : List Ulid) (deleted : Finset Ulid) :
    (live ready deleted).length ≤ ready.length := by
  have := length_live ready deleted
  omega

/-- Pops without end return all live ids. -/
theorem popMany_eq_live {n : Nat} {q : SingleQueue} (enough : q.ready.length ≤ n) :
    (popMany n q).2 = live q.ready q.deleted := by
  rw [popMany_eq_take, List.take_of_length_le ((length_live_le _ _).trans enough)]

/-- Where no id is ready twice, the live ids are those without a tombstone. -/
theorem live_of_nodup {ready : List Ulid} (nodup : ready.Nodup) (deleted : Finset Ulid) :
    live ready deleted = ready.filter (· ∉ deleted) := by
  induction ready generalizing deleted with
  | nil => rfl
  | cons id ready ih =>
      obtain ⟨fresh, nodup⟩ := List.nodup_cons.1 nodup
      rw [live]
      split
      · rename_i tomb
        rw [ih nodup, List.filter_cons_of_neg (by simpa using tomb)]
        refine List.filter_congr fun m inside => ?_
        have other : m ≠ id := fun same => fresh (same ▸ inside)
        simp [other]
      · rename_i alive
        rw [ih nodup, List.filter_cons_of_pos (by simpa using alive)]

theorem readyLen_le_live (q : SingleQueue) : q.readyLen ≤ (live q.ready q.deleted).length := by
  have total := length_live q.ready q.deleted
  have part : (q.deleted ∩ q.ready.toFinset).card ≤ q.deleted.card :=
    Finset.card_le_card Finset.inter_subset_left
  unfold readyLen
  omega

/-- The count is right exactly when every tombstone stands for a ready id, or nothing can be
popped at all. -/
theorem readyLen_eq_live_iff (q : SingleQueue) :
    q.readyLen = (live q.ready q.deleted).length ↔
      q.deleted ⊆ q.ready.toFinset ∨ (live q.ready q.deleted).length = 0 := by
  have total := length_live q.ready q.deleted
  have low := readyLen_le_live q
  constructor
  · intro right
    by_cases none : (live q.ready q.deleted).length = 0
    · exact .inr none
    · left
      have cards : q.deleted.card ≤ (q.deleted ∩ q.ready.toFinset).card := by
        unfold readyLen at right
        omega
      exact Finset.inter_eq_left.1 (Finset.eq_of_subset_of_card_le Finset.inter_subset_left cards)
  · rintro (inside | none)
    · rw [Finset.inter_eq_left.2 inside] at total
      unfold readyLen
      omega
    · omega

/-! ## Where tombstones come from -/

theorem deleted_popLoop (ready : List Ulid) (deleted : Finset Ulid) :
    (popLoop ready deleted).2.1 ⊆ deleted := by
  induction ready generalizing deleted with
  | nil => exact Finset.Subset.refl _
  | cons id ready ih =>
      rw [popLoop]
      split
      · exact (ih _).trans (Finset.erase_subset _ _)
      · exact Finset.Subset.refl _

theorem deleted_popMany (n : Nat) (q : SingleQueue) : (popMany n q).1.deleted ⊆ q.deleted := by
  induction n generalizing q with
  | zero => exact Finset.Subset.refl _
  | succ n ih =>
      have fewer := deleted_popLoop q.ready q.deleted
      unfold popMany popReady
      rcases loop : popLoop q.ready q.deleted with ⟨ready, deleted, _ | id⟩
      · exact Finset.empty_subset _
      · rw [loop] at fewer
        exact (ih _).trans fewer

theorem deleted_markDeleted (q : SingleQueue) (id : Ulid) :
    (q.markDeleted id).deleted ⊆ Insert.insert id q.deleted := by
  unfold markDeleted
  split
  · exact Finset.subset_insert _ _
  · exact Finset.Subset.refl _

end SingleQueue

namespace ShardState

variable {st : ShardState}

/-- Tombstones are of ids that were acked or dead-lettered. -/
def Marked (st : ShardState) : Prop := ∀ queue m, st.Tomb queue m → m ∈ st.ackedIds

theorem Marked.replace (h : st.Marked) {queue : String} {q : SingleQueue}
    (tombs : ∀ m ∈ q.deleted, m ∈ st.ackedIds) :
    { st with queues := AList.insert queue q st.queues }.Marked := fun name m tomb => by
  rw [tomb_insert_queue] at tomb
  split at tomb
  · exact tombs m tomb
  · exact h name m tomb

theorem Marked.store (h : st.Marked) (now : Nat) (msg : StoredMsg) : (st.store now msg).Marked :=
  h.replace fun m tomb => h msg.queue m
    (tomb_of_mem_getD ((SingleQueue.mem_deleted_insert _ _).1 tomb).2)

theorem Marked.markDeleted (h : st.Marked) (queue : String) {id : Ulid}
    (acked : id ∈ st.ackedIds) : (st.markDeleted queue id).Marked := by
  unfold ShardState.markDeleted
  split
  · rename_i q found
    refine h.replace fun m tomb => ?_
    rcases Finset.mem_insert.1 (q.deleted_markDeleted id tomb) with rfl | old
    · exact acked
    · exact h queue m ⟨q, found, old⟩
  · exact h

theorem Marked.acked (h : st.Marked) (queue : String) (id : Ulid) {messages : FMap Ulid StoredMsg}
    {wheel : TimerWheel} :
    ({ st with ackedIds := insert id st.ackedIds, messages, wheel }.markDeleted queue id).Marked :=
  have more : { st with ackedIds := insert id st.ackedIds, messages, wheel }.Marked :=
    fun name m tomb => Finset.mem_insert_of_mem (h name m tomb)
  more.markDeleted queue (Finset.mem_insert_self id st.ackedIds)

theorem Marked.step {env : Env} {s : Fin numShards} {st' : ShardState} (step : ShardStep env s st st')
    (h : st.Marked) : st'.Marked := by
  cases step with
  | see id => exact h
  | @store now msg home => exact h.store now msg
  | applyAck queue id => exact h.acked queue id
  | @ackLease queue id receipt done valid =>
      unfold ShardState.ackLease at valid
      dsimp only at valid
      split at valid
      · split at valid
        · cases valid
          exact h.acked queue id
        · cases valid
          exact fun name m tomb => Finset.mem_insert_of_mem (h name m tomb)
      · cases valid
  | collectExpired now => exact h
  | retire queue id => exact h.acked queue id
  | @claim queue q found draws now timeout maxMessages =>
      refine h.replace fun m tomb => h queue m ⟨q, found, ?_⟩
      exact (SingleQueue.extends_advanceAndDrain _ now).2 (SingleQueue.deleted_popMany _ _ tomb)

end ShardState

/-! ## Runs -/

/-- In every state of every run, over any directory the engine was opened on: the count is
never above the number of ids that can be popped; it is that number exactly when every
tombstone of the queue stands for a ready id, or nothing can be popped; and so it is while
nothing of the shard was acked or dead-lettered. -/
theorem World.run_readyLen (env : Env) (dir : DataDir) (opts : QueueOptions) (clock draws : Nat)
    (ops : List Op) (queue : String) (q : SingleQueue) (n : Nat) :
    let w := (World.mk (QueueEngine.openDir env dir opts clock draws) clock).run env ops
    let st := w.engine.shards (shardIdx queue)
    AList.lookup queue st.queues = some q → q.ready.length ≤ n →
    let pops := (q.popMany n).2.length
    q.readyLen ≤ pops ∧
      (q.readyLen = pops ↔ q.deleted ⊆ q.ready.toFinset ∨ pops = 0) ∧
      (st.ackedIds = ∅ → q.readyLen = pops) := by
  intro w st found enough pops
  have all : pops = (SingleQueue.live q.ready q.deleted).length :=
    congrArg List.length (SingleQueue.popMany_eq_live enough)
  have marked : st.Marked := shards_invariant (fun _ _ step h => ShardState.Marked.step step h)
    (fun _ _ tomb => by obtain ⟨_, none, _⟩ := tomb; cases none) dir opts clock draws ops
  rw [all]
  refine ⟨q.readyLen_le_live, q.readyLen_eq_live_iff, fun none => ?_⟩
  refine q.readyLen_eq_live_iff.2 (.inl fun m tomb => ?_)
  have acked := marked queue m ⟨q, found, tomb⟩
  rw [none] at acked
  cases acked

/-- Two pushes, the first one delivered. -/
theorem World.run_readyLen_sample :
    let w := (World.fresh .sample .default 100).run .sample
      [.push "a" 1 [1] 0, .push "a" 2 [2] 0, .poll "a" 30 1]
    ∃ q, AList.lookup "a" (w.engine.shards (shardIdx "a")).queues = some q ∧
      (q.popMany 5).2 = [2] ∧ q.readyLen = (q.popMany 5).2.length := by
  intro w
  have facts : (AList.lookup "a" (w.engine.shards (shardIdx "a")).queues).map (fun q =>
      ((q.popMany 5).2, q.ready.length)) = some ([2], 1) := by decide +kernel
  have acked : (w.engine.shards (shardIdx "a")).ackedIds = ∅ := by decide +kernel
  obtain ⟨q, found, pair⟩ := Option.map_eq_some_iff.1 facts
  obtain ⟨popped, ready⟩ := Prod.mk.inj pair
  have exact := run_readyLen .sample .empty .default 100 0
    [.push "a" 1 [1] 0, .push "a" 2 [2] 0, .poll "a" 30 1] "a" q 5 found (by omega)
  exact ⟨q, found, popped, exact.2.2 acked⟩

/-- The delivered message is acked: its tombstone hides the other one. -/
theorem World.ack_hides_ready :
    let w := (World.fresh .sample .default 100).run .sample
      [.push "a" 1 [1] 0, .push "a" 2 [2] 0, .poll "a" 30 1,
        .ack "a" (ulidText 1) (ulidText (.ofNat 128 (2 ^ 64 + 1)))]
    let q := FMap.getD (w.engine.shards (shardIdx "a")).queues "a" (.new 0)
    q.readyLen = 0 ∧ (q.popMany 5).2 = [2] := by
  decide +kernel

end WalrQueue
