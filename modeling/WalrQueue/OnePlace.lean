import WalrQueue.ColdPageIn
import WalrQueue.LeaseExpiry
import WalrQueue.QueueRun

/-!
# Every id in one place

A shard of a leader keeps each id in at most one place: it waits in one queue, once, or a
consumer holds its lease.  Pushes, page-in, polls and acks keep it so, as long as no Ack
record read back from the file names a message that is leased.  Then a poll adds one lease
for every message it returns, an ack ends one for every message it counts, and expiry is
the only other way a lease can end.
-/

namespace WalrQueue

open QueueEngine

/-! ## One place for every id -/

namespace ShardState

/-- Every id of a shard has one place: it waits at most once, in one queue, or it is leased.
An id with a place was seen; one that waits is in memory or acked, one that is leased is in
memory. -/
structure Single (st : ShardState) : Prop where
  once : ∀ queue m, st.occ queue m ≤ 1
  apart : ∀ queue other m, 0 < st.occ queue m → 0 < st.occ other m → queue = other
  known : ∀ queue m, 0 < st.occ queue m →
    m ∈ st.seenIds ∧ (m ∈ st.messages ∨ m ∈ st.ackedIds)
  leased : ∀ m ∈ st.wheel.indexById, ∀ queue, st.occ queue m = 0
  held : ∀ m ∈ st.wheel.indexById, m ∈ st.seenIds ∧ m ∈ st.messages

/-- The id has no place in the shard. -/
structure Absent (st : ShardState) (m : Ulid) : Prop where
  waits : ∀ queue, st.occ queue m = 0
  leased : m ∉ st.wheel.indexById

variable {st st' : ShardState} {m id : Ulid} {msg : StoredMsg}

theorem Single.new : ShardState.new.Single where
  once _ _ := Nat.zero_le _
  apart _ _ _ waits := absurd waits (Nat.lt_irrefl 0)
  known _ _ waits := absurd waits (Nat.lt_irrefl 0)
  leased _ inside := absurd inside (AList.notMem_empty _)
  held _ inside := absurd inside (AList.notMem_empty _)

theorem Single.absent_of_unseen (h : st.Single) (unseen : m ∉ st.seenIds) : st.Absent m where
  waits queue := Nat.eq_zero_of_not_pos fun waits => unseen (h.known queue m waits).1
  leased inside := unseen (h.held m inside).1

theorem Single.absent_of_unloaded (h : st.Single) (unknown : m ∉ st.messages)
    (unacked : m ∉ st.ackedIds) : st.Absent m where
  waits queue := Nat.eq_zero_of_not_pos fun waits =>
    (h.known queue m waits).2.elim unknown unacked
  leased inside := unknown (h.held m inside).2

/-- A section that gives no id a place. -/
theorem Single.shrink (h : st.Single) (occ : ∀ queue m, st'.occ queue m ≤ st.occ queue m)
    (index : ∀ m ∈ st'.wheel.indexById, m ∈ st.wheel.indexById)
    (seen : st.seenIds ⊆ st'.seenIds)
    (kept : ∀ m, m ∈ st.messages ∨ m ∈ st.ackedIds → m ∈ st'.messages ∨ m ∈ st'.ackedIds)
    (held : ∀ m ∈ st'.wheel.indexById, m ∈ st.messages → m ∈ st'.messages) : st'.Single where
  once queue m := (occ queue m).trans (h.once queue m)
  apart queue other m here there :=
    h.apart queue other m (here.trans_le (occ queue m)) (there.trans_le (occ other m))
  known queue m waits := by
    obtain ⟨wasSeen, wasKept⟩ := h.known queue m (waits.trans_le (occ queue m))
    exact ⟨seen wasSeen, kept m wasKept⟩
  leased m inside queue :=
    Nat.le_zero.1 ((occ queue m).trans (h.leased m (index m inside) queue).le)
  held m inside :=
    ⟨seen (h.held m (index m inside)).1, held m inside (h.held m (index m inside)).2⟩

theorem Single.see (h : st.Single) (id : Ulid) :
    { st with seenIds := insert id st.seenIds }.Single :=
  h.shrink (fun _ _ => le_rfl) (fun _ inside => inside) (Finset.subset_insert _ _)
    (fun _ kept => kept) fun _ _ inside => inside

/-- A message whose id has no place enters a queue. -/
theorem Single.enter (h : st.Single) (absent : st.Absent msg.id) (now : Nat) :
    ({ st with seenIds := insert msg.id st.seenIds }.store now msg).Single := by
  have seen := h.see msg.id
  generalize wide : { st with seenIds := insert msg.id st.seenIds } = st₁ at seen ⊢
  have fresh : st₁.Absent msg.id := by
    rw [← wide]
    exact ⟨absent.waits, absent.leased⟩
  have isSeen : msg.id ∈ st₁.seenIds := wide ▸ Finset.mem_insert_self _ _
  have messages : ∀ m, m ∈ (st₁.store now msg).messages ↔ m = msg.id ∨ m ∈ st₁.messages :=
    fun m => AList.mem_insert _
  have occ : ∀ queue m, (st₁.store now msg).occ queue m =
      st₁.occ queue m + if msg.id = m ∧ msg.queue = queue then 1 else 0 :=
    fun queue m => occ_store now queue
  refine ⟨fun queue m => ?_, fun queue other m here there => ?_, fun queue m waits => ?_,
    fun m inside queue => ?_, fun m inside => ?_⟩
  · rw [occ]
    split
    · rename_i hit
      rw [← hit.1, fresh.waits]
    · exact seen.once queue m
  · rw [occ] at here there
    by_cases same : msg.id = m
    · subst same
      rw [fresh.waits] at here there
      simp only [true_and, Nat.zero_add] at here there
      split at here
      · split at there
        · rename_i first second
          exact first.symm.trans second
        · omega
      · omega
    · simp only [same, false_and, if_false, Nat.add_zero] at here there
      exact seen.apart queue other m here there
  · by_cases same : msg.id = m
    · exact ⟨same ▸ isSeen, .inl ((messages m).2 (.inl same.symm))⟩
    · rw [occ] at waits
      simp only [same, false_and, if_false, Nat.add_zero] at waits
      refine (seen.known queue m waits).imp_right (Or.imp_left fun inside => ?_)
      exact (messages m).2 (.inr inside)
  · have other : msg.id ≠ m := fun same => fresh.leased (same ▸ inside)
    rw [occ]
    simp only [other, false_and, if_false, Nat.add_zero]
    exact seen.leased m inside queue
  · exact (seen.held m inside).imp_right fun here => (messages m).2 (.inr here)

theorem occ_markDeleted_le (st : ShardState) (queue : String) (id : Ulid) (name : String)
    (m : Ulid) : (st.markDeleted queue id).occ name m ≤ st.occ name m := by
  unfold markDeleted
  cases found : AList.lookup queue st.queues with
  | none => exact le_rfl
  | some q =>
      dsimp only
      rw [occ_insert_queue]
      split
      · rename_i same
        rw [same, occ, found]
        exact SingleQueue.occ_markDeleted_le m id q
      · exact le_rfl

/-- An Ack record of an id that is not leased. -/
theorem Single.applyAck (h : st.Single) (queue : String) (unleased : id ∉ st.wheel.indexById) :
    (st.applyAck queue id).Single := by
  have messages : (st.applyAck queue id).messages = AList.erase id st.messages :=
    messages_markDeleted
  have wheel : (st.applyAck queue id).wheel = st.wheel := wheel_markDeleted
  refine h.shrink (occ_markDeleted_le _ queue id) (fun m inside => wheel ▸ inside) ?_
    (fun m kept => ?_) fun m inside here => ?_
  · rw [seenIds_applyAck]
  · rw [messages, ackedIds_applyAck]
    by_cases same : m = id
    · exact .inr (same ▸ Finset.mem_insert_self _ _)
    · exact kept.imp (fun here => AList.mem_erase.2 ⟨same, here⟩) Finset.mem_insert_of_mem
  · rw [wheel] at inside
    rw [messages]
    exact AList.mem_erase.2 ⟨fun same => unleased (same ▸ inside), here⟩

/-- A record that page-in loads: a Push enters a message that has no place. -/
theorem Single.load (h : st.Single) {r : WalRecord}
    (unleased : r.isPush = false → r.msgId ∉ st.wheel.indexById) (opts : QueueOptions) (now : Nat) :
    (st.load opts now r).Single := by
  cases r with
  | push msgId queueName visibleAt payload =>
      rw [ShardState.load]
      split
      · rename_i loads
        exact h.enter (h.absent_of_unloaded loads.2.1 loads.2.2) now
      · exact h
  | ack msgId queueName => exact h.applyAck queueName (unleased rfl)

theorem Single.loadAll (h : st.Single) {records : List WalRecord}
    (unleased : ∀ r ∈ records, r.isPush = false → r.msgId ∉ st.wheel.indexById)
    (opts : QueueOptions) (now : Nat) : (st.loadAll opts now records).Single := by
  induction records generalizing st with
  | nil => exact h
  | cons r records ih =>
      refine ih (h.load (unleased r List.mem_cons_self) opts now) fun r' inside => ?_
      rw [wheel_load]
      exact unleased r' (List.mem_cons_of_mem _ inside)

/-- A valid receipt ends one lease, of a message in memory. -/
theorem Single.ackLease (h : st.Single) {queue receipt : String} {done : ShardState × Bool}
    (valid : st.ackLease queue id receipt = some done) :
    done.1.Single ∧ done.2 = true ∧
      FMap.size done.1.wheel.indexById + 1 = FMap.size st.wheel.indexById := by
  unfold ShardState.ackLease at valid
  dsimp only at valid
  split at valid
  · rename_i removed
    obtain ⟨leased, index⟩ := TimerWheel.index_removeIfValid removed
    have size : FMap.size (st.wheel.removeIfValid id receipt).1.indexById + 1 =
        FMap.size st.wheel.indexById := by
      rw [index]
      exact FMap.size_erase_of_mem leased
    rw [if_pos (h.held id leased).2] at valid
    cases valid
    refine ⟨?_, rfl, by simpa using size⟩
    refine h.shrink (occ_markDeleted_le _ queue id) (fun m inside => ?_) ?_ (fun m kept => ?_)
      fun m inside here => ?_
    · rw [wheel_markDeleted, index] at inside
      exact (AList.mem_erase.1 inside).2
    · rw [seenIds_markDeleted]
    · rw [messages_markDeleted, ackedIds_markDeleted]
      by_cases same : m = id
      · exact .inr (same ▸ Finset.mem_insert_self _ _)
      · exact kept.imp (fun here => AList.mem_erase.2 ⟨same, here⟩) Finset.mem_insert_of_mem
    · rw [wheel_markDeleted, index] at inside
      rw [messages_markDeleted]
      exact AList.mem_erase.2 ⟨(AList.mem_erase.1 inside).1, here⟩
  · cases valid

/-- An expiry collection that finds nothing. -/
theorem Single.collectExpired (h : st.Single) {now : Nat}
    (nothing : (st.wheel.collectExpired now).2 = []) :
    (st.collectExpired now).1.Single ∧ (st.collectExpired now).2 = [] := by
  have index := TimerWheel.index_collectExpired nothing
  unfold ShardState.collectExpired
  dsimp only
  rw [nothing]
  refine ⟨h.shrink (fun _ _ => le_rfl) (fun m inside => ?_) (Finset.Subset.refl _)
    (fun _ kept => kept) fun _ _ here => here, rfl⟩
  rwa [← index]

/-- The messages the claim loop returns are those of its ids that are in memory. -/
theorem claimOne_foldl_ids (env : Env) (now : Nat) (queue : String) (timeout : Nat)
    (ids : List Ulid) (acc : Claim) :
    (ids.foldl (claimOne env now queue timeout) acc).polled.map (·.id) =
        acc.polled.map (·.id) ++ ids.filter (· ∈ acc.messages) ∧
      ∀ m, m ∈ (ids.foldl (claimOne env now queue timeout) acc).messages ↔ m ∈ acc.messages := by
  induction ids generalizing acc with
  | nil => simp
  | cons id ids ih =>
      obtain ⟨polled, messages⟩ := ih (claimOne env now queue timeout acc id)
      rw [List.foldl_cons]
      have one : ∀ m, m ∈ (claimOne env now queue timeout acc id).messages ↔ m ∈ acc.messages := by
        intro m
        unfold claimOne
        split
        · rename_i msg found
          rw [AList.mem_insert]
          exact ⟨fun inside => inside.elim (fun same => same ▸ FMap.mem_of_lookup found) fun h => h,
            .inr⟩
        · rfl
      refine ⟨?_, fun m => (messages m).trans (one m)⟩
      rw [polled]
      simp only [one]
      unfold claimOne
      split
      · rename_i msg found
        have here : id ∈ acc.messages := FMap.mem_of_lookup found
        simp [here]
      · rename_i absent
        have gone : id ∉ acc.messages := AList.lookup_eq_none.1 absent
        simp [gone]

/-- Claiming leases messages that wait, each once, and none that is leased. -/
theorem Single.claim (h : st.Single) {queue : String} {q : SingleQueue}
    (found : AList.lookup queue st.queues = some q) (env : Env)
    (draws now timeout maxMessages : Nat) :
    let done := st.claim env draws queue q now timeout maxMessages
    done.1.Single ∧ FMap.size done.1.wheel.indexById =
      FMap.size st.wheel.indexById + done.2.2.length := by
  intro done
  let popped := (q.advanceAndDrain (env.hashOrder draws Nat) now).popMany maxMessages
  have here : st.occ queue = fun m => q.occ m := by
    funext m
    rw [ShardState.occ, found]
  have counts : ∀ m, popped.1.occ m + popped.2.count m ≤ st.occ queue m := fun m => by
    rw [here]
    exact (SingleQueue.occ_popMany_le m maxMessages _).trans
      (SingleQueue.occ_advanceAndDrain_le _ now)
  obtain ⟨more, polled, wheel⟩ := wheel_claimOne_foldl env now queue timeout popped.2
    ⟨st.messages, st.wheel, draws + 1, []⟩
  obtain ⟨ids, messages⟩ := claimOne_foldl_ids env now queue timeout popped.2
    ⟨st.messages, st.wheel, draws + 1, []⟩
  rw [polled] at ids
  simp only [List.nil_append, List.map_nil] at polled ids
  have leaseIds : (more.map (PolledMessage.lease queue (addU64 now timeout))).map (·.id) =
      popped.2.filter (· ∈ st.messages) := by
    rw [List.map_map, ← ids]
    rfl
  obtain ⟨members, size⟩ := TimerWheel.index_insert_foldl
    (more.map (PolledMessage.lease queue (addU64 now timeout))) st.wheel
  rw [leaseIds] at size
  simp only [leaseIds] at members
  have waits : ∀ m ∈ popped.2.filter (· ∈ st.messages), 0 < st.occ queue m := fun m inside =>
    (List.count_pos_iff.2 (List.mem_filter.1 inside).1).trans_le
      ((Nat.le_add_left _ _).trans (counts m))
  have occ : ∀ name m, done.1.occ name m = if name = queue then popped.1.occ m else st.occ name m :=
    fun name m => occ_insert_queue st m queue popped.1 name
  have fewer : ∀ name m, done.1.occ name m ≤ st.occ name m := by
    intro name m
    rw [occ]
    split
    · rename_i same
      rw [same]
      exact (Nat.le_add_right _ _).trans (counts m)
    · exact le_rfl
  have index : ∀ m, m ∈ done.1.wheel.indexById ↔
      m ∈ st.wheel.indexById ∨ m ∈ popped.2.filter (· ∈ st.messages) := by
    intro m
    rw [← members, ← wheel]
    rfl
  refine ⟨⟨fun name m => (fewer name m).trans (h.once name m), fun name other m one two =>
    h.apart name other m (one.trans_le (fewer name m)) (two.trans_le (fewer other m)),
    fun name m inQueue => ?_, fun m inside name => ?_, fun m inside => ?_⟩, ?_⟩
  · obtain ⟨seen, kept⟩ := h.known name m (inQueue.trans_le (fewer name m))
    exact ⟨seen, kept.imp_left (messages m).2⟩
  · rcases (index m).1 inside with old | new
    · exact Nat.le_zero.1 ((fewer name m).trans (h.leased m old name).le)
    · rw [occ]
      split
      · have left := counts m
        have one := h.once queue m
        have pops := List.count_pos_iff.2 (List.mem_filter.1 new).1
        omega
      · rename_i other
        refine Nat.eq_zero_of_not_pos fun elsewhere => other ?_
        exact h.apart name queue m elsewhere (waits m new)
  · rcases (index m).1 inside with old | new
    · exact (h.held m old).imp_right (messages m).2
    · refine ⟨(h.known queue m (waits m new)).1, (messages m).2 ?_⟩
      exact of_decide_eq_true (List.mem_filter.1 new).2
  · have length : done.2.2.length =
        (more.map (PolledMessage.lease queue (addU64 now timeout))).length := by
      rw [List.length_map, ← polled]
      rfl
    rw [length, ← size ?_ ?_, ← wheel]
    · rfl
    · refine List.Nodup.filter _ (List.nodup_iff_count_le_one.2 fun m => ?_)
      exact ((Nat.le_add_left _ _).trans (counts m)).trans (h.once queue m)
    · intro item inside leased
      have id : item.id ∈ popped.2.filter (· ∈ st.messages) := by
        rw [← leaseIds]
        exact List.mem_map_of_mem inside
      have free := h.leased item.id leased queue
      have busy := waits item.id id
      omega

end ShardState

/-! ## The leases of an engine -/

/-- The leases the wheels hold. -/
@[irreducible] def leaseCount (wheels : Fin numShards → TimerWheel) : Nat :=
  ∑ s, FMap.size (wheels s).indexById

theorem leaseCount_congr {wheels wheels' : Fin numShards → TimerWheel}
    (index : ∀ s, (wheels' s).indexById = (wheels s).indexById) :
    leaseCount wheels' = leaseCount wheels := by
  unfold leaseCount
  simp only [index]

theorem leaseCount_update (wheels : Fin numShards → TimerWheel) (s : Fin numShards)
    (w : TimerWheel) :
    leaseCount (Function.update wheels s w) + FMap.size (wheels s).indexById =
      leaseCount wheels + FMap.size w.indexById := by
  have total := FMap.sum_update (fun w : TimerWheel => FMap.size w.indexById) wheels s w
  unfold leaseCount
  exact total

theorem leaseCount_new (size : Nat) : leaseCount (fun _ => .new size) = 0 := by
  unfold leaseCount
  exact Finset.sum_eq_zero fun s _ => rfl

namespace QueueEngine

/-- Every shard keeps each of its ids in one place. -/
def Single (e : QueueEngine) : Prop := ∀ s, (e.shards s).Single

variable {env : Env} {e e' : QueueEngine} {st : ShardState} {now : Nat} {queue : String}

theorem Single.congr (h : e.Single) (shards : e'.shards = e.shards) : e'.Single := by
  intro s
  rw [shards]
  exact h s

theorem Single.setShard (h : e.Single) (s : Fin numShards) (one : st.Single) :
    (e.setShard s st).Single := by
  intro t
  by_cases same : t = s
  · rw [same, shards_setShard]
    exact one
  · rw [shards_setShard_of_ne same]
    exact h t

/-! ### Push -/

theorem Single.pushBatchItem {acc : PushBatch} (h : acc.engine.Single) (env : Env) (now : Nat)
    (queue : String) (item : PushItem) :
    (pushBatchItem env now queue acc item).engine.Single := by
  unfold QueueEngine.pushBatchItem
  dsimp only
  split
  · exact h
  · rename_i unseen
    obtain ⟨st, shards, new⟩ := shards_pushBatchNew now queue
      { acc with
        engine := { acc.engine with draws := (drawId env acc.engine.draws item.id).2 }
        ids := acc.ids ++ [(drawId env acc.engine.draws item.id).1] }
      (drawId env acc.engine.draws item.id).1 item
    refine Single.congr (Single.setShard (e := acc.engine) h (shardIdx queue) ?_) shards
    rcases new with rfl | rfl
    · exact (h (shardIdx queue)).see _
    · exact (h (shardIdx queue)).enter ((h (shardIdx queue)).absent_of_unseen unseen) now

theorem Single.pushBatch (h : e.Single) (env : Env) (now : Nat) (queue : String)
    (items : List PushItem) : (e.pushBatch env now queue items).1.Single := by
  refine Single.congr ?_ (shards_checkAndTriggerCompaction env _)
  exact List.foldlRecOn (motive := fun (acc : PushBatch) => acc.engine.Single) items
    (QueueEngine.pushBatchItem env now queue) h fun acc before item _ =>
      before.pushBatchItem env now queue item

/-! ### Page-in -/

/-- No Ack record ahead of the cursor names a message that is leased. -/
def AcksUnleased (env : Env) (e : QueueEngine) : Prop :=
  ∀ r ∈ readWalFile env e.disk.registry (e.disk.active.drop e.spillReadOffset),
    r.isPush = false → r.msgId ∉ (e.wheels (shardIdx r.queueName)).indexById

instance (env : Env) (e : QueueEngine) : Decidable (e.AcksUnleased env) :=
  inferInstanceAs (Decidable (∀ r ∈ _, _))

theorem Single.pageInChunk (h : e.Single) {records : List WalRecord}
    (acks : ∀ r ∈ records, r.isPush = false →
      r.msgId ∉ (e.wheels (shardIdx r.queueName)).indexById) (now : Nat) (targetQueue : String) :
    (pageInChunk now targetQueue e records).engine.Single := by
  intro s
  rw [shards_pageInChunk]
  refine (h s).loadAll (fun r inside => ?_) e.options now
  obtain ⟨member, here⟩ := List.mem_filter.1 inside
  have ofShard : shardIdx r.queueName = s := of_decide_eq_true here
  rw [← ofShard]
  exact acks r member

/-- A prefetch adds messages to the queues and leases none. -/
theorem Single.prefetch (h : e.Single) (acks : e.AcksUnleased env) (queue : String)
    (now maxMessages : Nat) : (e.prefetch env queue now maxMessages).Single := by
  have both : (e.prefetch env queue now maxMessages).Single ∧
      (e.prefetch env queue now maxMessages).wheels = e.wheels := by
    refine prefetch_chunks (P := fun e' => e'.Single ∧ e'.wheels = e.wheels)
      (fun _ _ before => before) (fun c taken before => ?_) ⟨h, rfl⟩
    refine ⟨before.1.pageInChunk (fun r inside ack => ?_) now queue,
      (wheels_pageInChunk now queue c.1 c.2).trans before.2⟩
    rw [before.2]
    unfold prefetchChunks at taken
    split at taken
    · exact acks r (mem_pageInChunks _ (Scanned.refl _ _) taken r inside) ack
    · cases taken
  exact both.1

/-! ### Poll -/

theorem Single.claimSection (h : e.Single) (env : Env) (queue : String)
    (now timeout maxMessages : Nat) :
    let done := e.claimSection env queue now timeout maxMessages
    done.1.Single ∧ leaseCount done.1.wheels = leaseCount e.wheels + done.2.length := by
  unfold QueueEngine.claimSection
  dsimp only
  split
  · rename_i q found
    obtain ⟨one, size⟩ := (h (shardIdx queue)).claim found env e.draws now timeout maxMessages
    generalize (e.shards (shardIdx queue)).claim env e.draws queue q now timeout maxMessages =
      claimed at one size ⊢
    refine ⟨h.setShard (shardIdx queue) one, ?_⟩
    have count := leaseCount_update e.wheels (shardIdx queue) claimed.1.wheel
    rw [← wheels_setShard, size, QueueEngine.wheels] at count
    have total : leaseCount (e.setShard (shardIdx queue) claimed.1).wheels =
        leaseCount e.wheels + claimed.2.2.length := by omega
    exact total
  · exact ⟨h, rfl⟩

/-- A poll that finds no expired lease adds a lease for every message it returns. -/
theorem Single.poll (h : e.Single)
    (nothing : ((e.wheels (shardIdx queue)).collectExpired now).2 = [])
    (acks : e.AcksUnleased env) (visibilitySec maxMessages : Nat) :
    let done := e.poll env now queue visibilitySec maxMessages
    done.1.Single ∧ leaseCount done.1.wheels = leaseCount e.wheels + done.2.length := by
  intro done
  obtain ⟨one, none⟩ := (h (shardIdx queue)).collectExpired nothing
  have routed : e.routed (shardIdx queue) now =
      e.setShard (shardIdx queue) ((e.shards (shardIdx queue)).collectExpired now).1 := by
    unfold QueueEngine.routed QueueEngine.collectExpired
    dsimp only
    rw [none]
    rfl
  have index : ∀ s, ((e.routed (shardIdx queue) now).wheels s).indexById =
      (e.wheels s).indexById := by
    intro s
    rw [wheels_routed]
    by_cases same : s = shardIdx queue
    · rw [same, Function.update_self]
      exact TimerWheel.index_collectExpired nothing
    · rw [Function.update_of_ne same]
  have single : (e.routed (shardIdx queue) now).Single := by
    rw [routed]
    exact h.setShard _ one
  have unleased : (e.routed (shardIdx queue) now).AcksUnleased env := by
    intro r inside
    rw [index]
    rw [routed] at inside
    exact acks r inside
  obtain ⟨after, count⟩ := (single.prefetch unleased queue now maxMessages).claimSection env queue
    now (e.visibility visibilitySec) maxMessages
  have eq : done = ((e.routed (shardIdx queue) now).prefetch env queue now
      maxMessages).claimSection env queue now (e.visibility visibilitySec) maxMessages :=
    poll_eq env e now queue visibilitySec maxMessages
  rw [eq]
  rw [wheels_prefetch, leaseCount_congr index] at count
  exact ⟨after, count⟩

/-! ### Ack -/

theorem Single.ackBatchItem {acc : AckBatch} (h : acc.engine.Single) (queue : String)
    (item : Ulid × String) :
    let done := ackBatchItem queue acc item
    done.engine.Single ∧ leaseCount done.engine.wheels + done.count =
      leaseCount acc.engine.wheels + acc.count := by
  intro done
  cases lease : (acc.engine.shards (shardIdx queue)).ackLease queue item.1 item.2 with
  | none =>
      have same : done = acc := ackBatchItem_of_invalid lease
      rw [same]
      exact ⟨h, rfl⟩
  | some out =>
      obtain ⟨one, counted, size⟩ := (h (shardIdx queue)).ackLease lease
      obtain ⟨shards, -, -, -, count⟩ := ackBatchItem_of_valid lease
      refine ⟨(h.setShard (shardIdx queue) one).congr shards, ?_⟩
      have update := leaseCount_update acc.engine.wheels (shardIdx queue) out.1.wheel
      have wheels : done.engine.wheels =
          Function.update acc.engine.wheels (shardIdx queue) out.1.wheel :=
        (wheels_congr shards).trans (wheels_setShard acc.engine (shardIdx queue) out.1)
      rw [← wheels, QueueEngine.wheels] at update
      rw [counted, if_pos rfl] at count
      have total : done.count = acc.count + 1 := count
      omega

/-- An ack ends a lease for every message it counts, and no other. -/
theorem Single.ackBatch (h : e.Single) (env : Env) (queue : String)
    (items : List (String × String)) :
    let done := e.ackBatch env queue items
    done.1.Single ∧ leaseCount done.1.wheels + done.2 = leaseCount e.wheels := by
  have loop := List.foldlRecOn (motive := fun (acc : AckBatch) => acc.engine.Single ∧
      leaseCount acc.engine.wheels + acc.count = leaseCount e.wheels) (parsedItems env items)
    (QueueEngine.ackBatchItem queue) (b := ⟨e, 0, []⟩) ⟨h, rfl⟩ fun acc before item _ => by
      obtain ⟨one, count⟩ := before.1.ackBatchItem queue item
      exact ⟨one, count.trans before.2⟩
  have shards : (e.ackBatch env queue items).1.shards =
      (ackBatchLoop env e queue items).engine.shards :=
    (shards_checkAndTriggerCompaction env _).trans (disk_ackBatchUnchecked env e queue items).2.2
  refine ⟨loop.1.congr shards, ?_⟩
  rw [wheels_congr shards]
  exact loop.2

end QueueEngine

end WalrQueue
