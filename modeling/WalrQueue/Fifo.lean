import WalrQueue.LeaseExpiry
import WalrQueue.Restart

/-!
# A queue in memory is first in, first out

While nothing is delayed, nothing is spilled and no lease expires, a queue is its list of ready
ids: a push puts a new id at the end, a poll takes ids from the front, and tombstones of acked
ids never hit one that is ready.  What polls returned followed by what is ready is therefore
always what was pushed.
-/

namespace WalrQueue

open QueueEngine

/-! ## The ready list -/

namespace SingleQueue

/-- The queue is its ready list: nothing is delayed and no ready id has a tombstone. -/
structure Lined (q : SingleQueue) (ids : List Ulid) : Prop where
  ready : q.ready = ids
  hot : q.hotDelayBuckets = ∅
  far : q.farFuture = []
  alive : ∀ id ∈ ids, id ∉ q.deleted

variable {q : SingleQueue} {ids : List Ulid} {id : Ulid}

theorem Lined.new (now : Nat) : (new now).Lined [] :=
  ⟨rfl, rfl, rfl, fun _ bad => by cases bad⟩

theorem Lined.insert (h : q.Lined ids) {visibleAt now : Nat} (due : visibleAt ≤ now) :
    (q.insert id visibleAt now).Lined (ids ++ [id]) := by
  unfold SingleQueue.insert
  dsimp only
  rw [if_pos due]
  refine ⟨congrArg (· ++ [id]) h.ready, h.hot, h.far, fun other inside => ?_⟩
  rw [Finset.mem_erase, not_and]
  intro different
  rcases List.mem_append.1 inside with old | new
  · exact h.alive other old
  · exact absurd (List.mem_singleton.1 new) different

theorem Lined.markDeleted (h : q.Lined ids) (absent : id ∉ ids) : (q.markDeleted id).Lined ids := by
  have notFirst : q.ready.head? ≠ some id := by
    rw [h.ready]
    exact fun first => absent (List.mem_of_head? first)
  unfold SingleQueue.markDeleted
  rw [if_neg notFirst]
  refine ⟨h.ready, h.hot, h.far, fun other inside => ?_⟩
  rw [Finset.mem_insert, not_or]
  exact ⟨fun same => absent (same ▸ inside), h.alive other inside⟩

theorem Lined.advanceAndDrain (h : q.Lined ids) {order : List Nat → List Nat}
    (perm : ∀ l, (order l).Perm l) (now : Nat) : (q.advanceAndDrain order now).Lined ids := by
  unfold SingleQueue.advanceAndDrain
  split
  · exact h
  · have none : order (∅ : FMap Nat (List Ulid)).keys = [] := (perm []).eq_nil
    rw [h.far]
    dsimp only [List.foldl_nil]
    rw [h.hot, none]
    exact ⟨h.ready, rfl, rfl, h.alive⟩

theorem Lined.popReady (h : q.Lined (id :: ids)) :
    q.popReady.2 = some id ∧ q.popReady.1.Lined ids := by
  have first : popLoop q.ready q.deleted = (ids, q.deleted, some id) := by
    rw [h.ready, popLoop, if_neg (h.alive id List.mem_cons_self)]
  unfold SingleQueue.popReady
  rw [first]
  exact ⟨rfl, rfl, h.hot, h.far, fun other inside => h.alive other (.tail _ inside)⟩

theorem Lined.popReady_nil (h : q.Lined []) : q.popReady.2 = none ∧ q.popReady.1.Lined [] := by
  have none : popLoop q.ready q.deleted = ([], q.deleted, none) := by
    rw [h.ready]
    rfl
  unfold SingleQueue.popReady
  rw [none]
  exact ⟨rfl, rfl, h.hot, h.far, fun _ bad => by cases bad⟩

/-- Popping takes ids from the front. -/
theorem Lined.popMany (n : Nat) (h : q.Lined ids) :
    (popMany n q).2 = ids.take n ∧ (popMany n q).1.Lined (ids.drop n) := by
  induction n generalizing q ids with
  | zero => exact ⟨rfl, h⟩
  | succ n ih =>
      unfold SingleQueue.popMany
      cases ids with
      | nil =>
          obtain ⟨none, rest⟩ := h.popReady_nil
          generalize q.popReady = popped at none rest
          obtain ⟨q', id'⟩ := popped
          cases none
          exact ⟨rfl, rest⟩
      | cons id ids =>
          obtain ⟨first, rest⟩ := h.popReady
          generalize q.popReady = popped at first rest
          obtain ⟨q', id'⟩ := popped
          cases first
          obtain ⟨more, after⟩ := ih rest
          exact ⟨congrArg (id :: ·) more, after⟩

end SingleQueue

/-! ## One queue of a shard -/

namespace ShardState

/-- The queue of a name; one that was never used is empty. -/
def queueOf (st : ShardState) (queue : String) : SingleQueue := FMap.getD st.queues queue (.new 0)

/-- The queue is a line of ids that are in memory and not leased. -/
structure Line (st : ShardState) (queue : String) (ids : List Ulid) : Prop where
  lined : (st.queueOf queue).Lined ids
  nodup : ids.Nodup
  stored : ∀ id ∈ ids, id ∈ st.messages
  free : ∀ id ∈ ids, id ∉ st.wheel.indexById

variable {st st' : ShardState} {queue other : String} {ids : List Ulid} {id : Ulid}

theorem Line.new : ShardState.new.Line queue [] where
  lined := .new 0
  nodup := List.nodup_nil
  stored id bad := by cases bad
  free id bad := by cases bad

/-- What leaves the queue alone and neither forgets nor leases its ids. -/
theorem Line.congr (h : st.Line queue ids) (same : st'.queueOf queue = st.queueOf queue)
    (stored : ∀ id ∈ ids, id ∈ st.messages → id ∈ st'.messages)
    (free : ∀ id ∈ ids, id ∈ st'.wheel.indexById → id ∈ st.wheel.indexById) :
    st'.Line queue ids where
  lined := same ▸ h.lined
  nodup := h.nodup
  stored id inside := stored id inside (h.stored id inside)
  free id inside leased := h.free id inside (free id inside leased)

theorem queueOf_markDeleted (st : ShardState) (queue other : String) (id : Ulid) :
    (st.markDeleted other id).queueOf queue = st.queueOf queue ∨
      (st.markDeleted other id).queueOf queue = (st.queueOf queue).markDeleted id := by
  unfold ShardState.markDeleted queueOf FMap.getD
  cases found : AList.lookup other st.queues with
  | none => exact Or.inl rfl
  | some q =>
      dsimp only
      rw [FMap.lookup_insert_ite]
      split
      · rename_i same
        rw [same, found]
        exact Or.inr rfl
      · exact Or.inl rfl

theorem Line.markDeleted (h : st.Line queue ids) (absent : id ∉ ids) (other : String) :
    (st.markDeleted other id).Line queue ids where
  lined := by
    rcases st.queueOf_markDeleted queue other id with same | marked
    · rw [same]
      exact h.lined
    · rw [marked]
      exact h.lined.markDeleted absent
  nodup := h.nodup
  stored := by
    rw [messages_markDeleted]
    exact h.stored
  free := by
    rw [wheel_markDeleted]
    exact h.free

/-- Tombstones of ids that do not wait. -/
theorem Line.mark (h : st.Line queue ids) {marks : List (String × Ulid)}
    (absent : ∀ mark ∈ marks, mark.2 ∉ ids) : (st.mark marks).Line queue ids := by
  unfold ShardState.mark
  induction marks generalizing st with
  | nil => exact h
  | cons mark marks ih =>
      exact ih (h.markDeleted (absent mark List.mem_cons_self) mark.1)
        fun mark' inside => absent mark' (.tail _ inside)

theorem queueOf_enter (st : ShardState) (queue : String) (now : Nat) (msg : StoredMsg) :
    (st.enter now msg).queueOf queue = if queue = msg.queue then
      (FMap.getD st.queues msg.queue (.new now)).insert msg.id msg.visibleAt now
    else st.queueOf queue := by
  unfold queueOf ShardState.enter ShardState.store
  rw [FMap.getD, FMap.lookup_insert_ite]
  split <;> rfl

/-- A new message of another queue. -/
theorem Line.enter_of_ne (h : st.Line queue ids) {msg : StoredMsg} (ne : queue ≠ msg.queue)
    (now : Nat) : (st.enter now msg).Line queue ids := by
  refine h.congr ?_ (fun id _ inside => mem_enter.2 (Or.inr inside)) fun _ _ leased => leased
  rw [queueOf_enter, if_neg ne]

/-- A new message that is due goes to the end of its queue. -/
theorem Line.enter {msg : StoredMsg} (h : st.Line msg.queue ids) {now : Nat}
    (due : msg.visibleAt ≤ now) (new : msg.id ∉ st.messages)
    (free : msg.id ∉ st.wheel.indexById) :
    (st.enter now msg).Line msg.queue (ids ++ [msg.id]) where
  lined := by
    rw [queueOf_enter, if_pos rfl]
    have lined := h.lined
    unfold queueOf FMap.getD at lined
    refine SingleQueue.Lined.insert ?_ due
    unfold FMap.getD
    cases found : AList.lookup msg.queue st.queues with
    | some q =>
        rw [found] at lined
        exact lined
    | none =>
        rw [found] at lined
        exact ⟨lined.ready, rfl, rfl, lined.alive⟩
  nodup := by
    refine List.nodup_append.2 ⟨h.nodup, List.nodup_singleton _, fun a old b last => ?_⟩
    rw [List.mem_singleton.1 last]
    exact fun same => new (same ▸ h.stored a old)
  stored id inside := by
    rcases List.mem_append.1 inside with old | last
    · exact mem_enter.2 (Or.inr (h.stored id old))
    · exact mem_enter.2 (Or.inl (List.mem_singleton.1 last))
  free id inside := by
    rcases List.mem_append.1 inside with old | last
    · exact h.free id old
    · rw [List.mem_singleton.1 last]
      exact free

/-- An ack that is accepted ends a lease, so its id does not wait. -/
theorem Line.accept (h : st.Line queue ids) {receipt : String} {done : ShardState × Bool}
    (valid : st.ackLease other id receipt = some done) : done.1.Line queue ids := by
  obtain ⟨leased, fewer⟩ := ackLease_leases valid
  have absent : id ∉ ids := fun inside => h.free id inside leased
  have lined : (done.1.queueOf queue).Lined ids := by
    unfold ShardState.ackLease at valid
    dsimp only at valid
    split at valid
    · split at valid
      · cases valid
        rcases queueOf_markDeleted { st with
            messages := AList.erase id st.messages
            ackedIds := insert id st.ackedIds
            wheel := (st.wheel.removeIfValid id receipt).1 } queue other id with same | marked
        · rw [same]
          exact h.lined
        · rw [marked]
          exact h.lined.markDeleted absent
      · cases valid
        exact h.lined
    · cases valid
  refine ⟨lined, h.nodup, fun id' inside => ?_, fun id' inside leased' => ?_⟩
  · rw [(ackLease_messages valid).1, AList.mem_erase]
    exact ⟨fun same => absent (same ▸ inside), h.stored id' inside⟩
  · exact h.free id' inside (fewer id' leased')

/-- A sweep that takes no message. -/
theorem Line.collectExpired (h : st.Line queue ids) {now : Nat}
    (none : (st.collectExpired now).2 = []) : (st.collectExpired now).1.Line queue ids := by
  have kept := kept_collectExpired none
  refine h.congr rfl (fun id _ inside => (kept.mem_messages id).2 inside) fun id _ leased => ?_
  obtain ⟨entry, found⟩ := (FMap.mem_iff_lookup _ _).1 leased
  exact FMap.mem_of_lookup (TimerWheel.lookup_collectExpired found)

/-- The claim loop returns the ids that have a message. -/
theorem polled_claimOne_foldl (env : Env) (now : Nat) (queue : String) (timeout : Nat)
    {ids : List Ulid} (acc : Claim) (stored : ∀ id ∈ ids, id ∈ acc.messages) :
    (ids.foldl (claimOne env now queue timeout) acc).polled.map (·.id) =
      acc.polled.map (·.id) ++ ids := by
  induction ids generalizing acc with
  | nil => simp
  | cons id ids ih =>
      obtain ⟨msg, found⟩ := (FMap.mem_iff_lookup _ _).1 (stored id List.mem_cons_self)
      have kept : ∀ other ∈ ids, other ∈ (claimOne env now queue timeout acc id).messages := by
        intro other inside
        rw [claimOne, found]
        exact (AList.mem_insert _).2 (Or.inr (stored other (.tail _ inside)))
      rw [List.foldl_cons, ih _ kept, claimOne, found]
      simp

/-- A poll of the queue takes the front of the line. -/
theorem Line.claim (h : st.Line queue ids) (env : Env) (draws now timeout maxMessages : Nat) :
    let done := st.claim env draws queue (st.queueOf queue) now timeout maxMessages
    done.2.2.map (·.id) = ids.take maxMessages ∧ done.1.Line queue (ids.drop maxMessages) := by
  have drained : ((st.queueOf queue).advanceAndDrain (env.hashOrder draws Nat) now).Lined ids :=
    h.lined.advanceAndDrain (env.hashOrder_perm draws Nat) now
  obtain ⟨popped, rest⟩ := drained.popMany maxMessages
  have stored : ∀ id ∈ ids.take maxMessages, id ∈ st.messages := fun id inside =>
    h.stored id (List.mem_of_mem_take inside)
  have polled := polled_claimOne_foldl env now queue timeout ⟨st.messages, st.wheel, draws + 1, []⟩
    stored
  obtain ⟨more, all, wheel⟩ := wheel_claimOne_foldl env now queue timeout (ids.take maxMessages)
    ⟨st.messages, st.wheel, draws + 1, []⟩
  rw [List.map_nil, List.nil_append] at polled
  rw [List.nil_append] at all
  intro done
  have eq : done = st.claim env draws queue (st.queueOf queue) now timeout maxMessages := rfl
  unfold ShardState.claim at eq
  dsimp only at eq
  rw [popped] at eq
  rw [eq]
  refine ⟨polled, ?_, h.nodup.sublist (List.drop_sublist _ _), fun id inside => ?_,
    fun id inside leased => ?_⟩
  · unfold queueOf FMap.getD at rest ⊢
    rw [AList.lookup_insert]
    exact rest
  · exact (claimOne_foldl_messages (Q := fun _ _ => True) env now queue timeout _ _
      (fun _ _ _ => trivial) fun _ _ _ => trivial).2 (h.stored id (List.mem_of_mem_drop inside))
  · rw [wheel, (TimerWheel.index_insert_foldl _ _).1] at leased
    rcases leased with before | now
    · exact h.free id (List.mem_of_mem_drop inside) before
    · have taken : id ∈ ids.take maxMessages := by
        rw [← polled, all]
        simpa [PolledMessage.lease] using now
      exact List.disjoint_take_drop h.nodup le_rfl taken inside

/-- A poll of another queue does not touch the line. -/
theorem queueOf_claim_of_ne (st : ShardState) (ne : queue ≠ other) (env : Env) (draws : Nat)
    (q : SingleQueue) (now timeout maxMessages : Nat) :
    (st.claim env draws other q now timeout maxMessages).1.queueOf queue = st.queueOf queue := by
  unfold queueOf FMap.getD ShardState.claim
  dsimp only
  rw [AList.lookup_insert_ne ne]

end ShardState

/-! ## The claim of a poll -/

/-- The claim of a poll of the queue takes the front of the line. -/
theorem ShardState.Line.claimSection {e : QueueEngine} {queue : String} {ids : List Ulid}
    (h : (e.shards (shardIdx queue)).Line queue ids) (env : Env) (now timeout maxMessages : Nat) :
    let claimed := e.claimSection env queue now timeout maxMessages
    claimed.2.map (·.id) = ids.take maxMessages ∧
      (claimed.1.shards (shardIdx queue)).Line queue (ids.drop maxMessages) := by
  intro claimed
  have eq : claimed = e.claimSection env queue now timeout maxMessages := rfl
  unfold QueueEngine.claimSection at eq
  dsimp only at eq
  cases found : AList.lookup queue (e.shards (shardIdx queue)).queues with
  | none =>
      have empty : (e.shards (shardIdx queue)).queueOf queue = .new 0 := by
        rw [ShardState.queueOf, FMap.getD, found]
        rfl
      have nil : [] = ids := by
        have ready := h.lined.ready
        rw [empty] at ready
        exact ready
      rw [found] at eq
      subst nil
      rw [eq, List.take_nil, List.drop_nil]
      exact ⟨rfl, h⟩
  | some q =>
      have here : (e.shards (shardIdx queue)).queueOf queue = q := by
        rw [ShardState.queueOf, FMap.getD, found]
        rfl
      obtain ⟨front, rest⟩ := h.claim env e.draws now timeout maxMessages
      rw [here] at front rest
      rw [found] at eq
      rw [eq]
      simp only [shards_setShard]
      exact ⟨front, rest⟩


/-- An id of the line is that of a pending message of the queue. -/
theorem Tracks.pending_of_line {e : QueueEngine} {m : Ulid} {home queue : String}
    {log : Set WalRecord} {life : Life} (h : Tracks e m home log 0 life) {ids : List Ulid}
    (line : (e.shards (shardIdx queue)).Line queue ids) (waits : m ∈ ids) :
    ∃ msg, life = .pending msg ∧ msg.queue = queue := by
  have here := h.shards (shardIdx queue)
  have counted : 0 < (e.shards (shardIdx queue)).occ queue m := by
    have lined := line.lined
    unfold ShardState.queueOf FMap.getD at lined
    unfold ShardState.occ
    cases found : AList.lookup queue (e.shards (shardIdx queue)).queues with
    | none =>
        rw [found] at lined
        rw [← lined.ready] at waits
        cases waits
    | some q =>
        rw [found] at lined
        have ready : q.ready = ids := lined.ready
        have inside : 0 < q.ready.count m := List.count_pos_iff.2 (ready ▸ waits)
        exact Nat.add_pos_left (Nat.add_pos_left inside _) _
  rw [here.occ] at counted
  cases status : life.status (shardIdx queue) with
  | away | leased =>
      rw [status] at counted
      cases counted
  | pending msg =>
      rw [status, Status.waitsIn] at counted
      exact ⟨msg, (Life.eq_pending_of_status status).1, by_contra fun other => by
        rw [if_neg other] at counted
        cases counted⟩

/-- A poll of another queue leaves a pending message alone. -/
theorem Polls.eq_of_pending {env : Env} {e : QueueEngine} {now : Nat} {queue : String}
    {visibilitySec maxMessages : Nat} {m : Ulid} {msg : StoredMsg} {life : Life}
    (h : Polls env e now queue visibilitySec maxMessages m (.pending msg) life)
    (other : msg.queue ≠ queue) : life = .pending msg := by
  obtain ⟨expired, loaded, expires, loads, leases⟩ := h
  cases expires with
  | kept =>
      cases loads with
      | same =>
          cases leases with
          | kept => rfl
          | lease _ item here => exact absurd here other

theorem QueueEngine.queueOf_claimSection_of_ne (e : QueueEngine) {queue other : String}
    (ne : queue ≠ other) (env : Env) (now timeout maxMessages : Nat) :
    ((e.claimSection env other now timeout maxMessages).1.shards (shardIdx queue)).queueOf queue =
      (e.shards (shardIdx queue)).queueOf queue := by
  unfold QueueEngine.claimSection
  dsimp only
  split
  · by_cases same : shardIdx queue = shardIdx other
    · simp only [same, shards_setShard]
      exact ShardState.queueOf_claim_of_ne _ ne env _ _ now timeout maxMessages
    · simp only [shards_setShard_of_ne same]
  · rfl

/-! ## Pushes, acks and polls -/

/-- The ids pushed to a queue. -/
def idsTo (queue : String) (asked : List (Ulid × String × List UInt8)) : List Ulid :=
  (asked.filter fun push => push.2.1 = queue).map (·.1)

theorem idsTo_append (queue : String) (asked more : List (Ulid × String × List UInt8)) :
    idsTo queue (asked ++ more) = idsTo queue asked ++ idsTo queue more := by
  simp [idsTo]

theorem eraseDups_concat_of_mem {ids : List Ulid} {id : Ulid} (inside : id ∈ ids) :
    (ids ++ [id]).eraseDups = ids.eraseDups := by
  rw [List.eraseDups_append]
  simp [List.removeAll, inside]

theorem eraseDups_concat {ids : List Ulid} {id : Ulid} (new : id ∉ ids) :
    (ids ++ [id]).eraseDups = ids.eraseDups ++ [id] := by
  rw [List.eraseDups_append]
  simp [List.removeAll, new, List.eraseDups_cons]

/-- What was returned from the queue, followed by the line, is what was pushed to it. -/
structure Queued (home : Ulid → String) (queue : String) (shards : Fin numShards → ShardState)
    (pushed returned : List Ulid) : Prop where
  line : ∃ ids, (shards (shardIdx queue)).Line queue ids ∧ returned ++ ids = pushed.eraseDups
  seen : ∀ id, home id = queue → (id ∈ (shards (shardIdx queue)).seenIds ↔ id ∈ pushed)

namespace Queued

variable {home : Ulid → String} {queue : String} {a b : Fin numShards → ShardState}
  {pushed returned : List Ulid} {env : Env} {w : World} {op : Op}

/-- A push of an id that was seen. -/
theorem again (h : Queued home queue a pushed returned) (push : Ulid × String × List UInt8)
    (mine : home push.1 = push.2.1) (seen : push.1 ∈ (a (shardIdx push.2.1)).seenIds) :
    Queued home queue a (pushed ++ idsTo queue [push]) returned := by
  by_cases here : push.2.1 = queue
  · have one : idsTo queue [push] = [push.1] := by simp [idsTo, here]
    subst here
    have inside : push.1 ∈ pushed := (h.seen push.1 mine).1 seen
    rw [one]
    refine ⟨?_, fun id at_ => ?_⟩
    · rw [eraseDups_concat_of_mem inside]
      exact h.line
    · rw [h.seen id at_, List.mem_append, List.mem_singleton]
      exact ⟨Or.inl, fun either => either.elim (fun old => old) fun same => same ▸ inside⟩
  · have none : idsTo queue [push] = [] := by simp [idsTo, here]
    rw [none, List.append_nil]
    exact h

/-- A push of a new id, which is due at once if it is to this queue. -/
theorem enter (h : Queued home queue a pushed returned) (resident : ∀ s, (a s).Resident)
    (msg : StoredMsg) (mine : home msg.id = msg.queue)
    (unseen : msg.id ∉ (a (shardIdx msg.queue)).seenIds) {now : Nat}
    (due : msg.queue = queue → msg.visibleAt ≤ now) :
    Queued home queue
      (Function.update a (shardIdx msg.queue) ((a (shardIdx msg.queue)).enter now msg))
      (pushed ++ idsTo queue [(msg.id, msg.queue, msg.payload)]) returned := by
  obtain ⟨ids, line, all⟩ := h.line
  by_cases here : msg.queue = queue
  · have one : idsTo queue [(msg.id, msg.queue, msg.payload)] = [msg.id] := by simp [idsTo, here]
    subst here
    have new : msg.id ∉ pushed := fun old => unseen ((h.seen msg.id mine).2 old)
    rw [one]
    refine ⟨⟨ids ++ [msg.id], ?_, ?_⟩, fun id at_ => ?_⟩
    · rw [Function.update_self]
      exact line.enter (due rfl) (fun stored => unseen ((resident _).stored _ stored))
        fun leased => unseen ((resident _).leased _ leased)
    · rw [eraseDups_concat new, ← all, List.append_assoc]
    · rw [Function.update_self, List.mem_append, List.mem_singleton, ← h.seen id at_, or_comm]
      exact Finset.mem_insert
  · have none : idsTo queue [(msg.id, msg.queue, msg.payload)] = [] := by simp [idsTo, here]
    rw [none, List.append_nil]
    by_cases same : shardIdx queue = shardIdx msg.queue
    · refine ⟨⟨ids, ?_, all⟩, fun id at_ => ?_⟩
      · rw [same, Function.update_self]
        rw [same] at line
        exact line.enter_of_ne (fun eq => here eq.symm) now
      · have other : id ≠ msg.id := fun eq => here (by rw [← mine, ← eq, at_])
        rw [same, Function.update_self, ← h.seen id at_, same]
        exact Finset.mem_insert.trans (or_iff_right other)
    · refine ⟨⟨ids, ?_, all⟩, fun id at_ => ?_⟩
      · rw [Function.update_of_ne same]
        exact line
      · rw [Function.update_of_ne same]
        exact h.seen id at_

/-- An ack that is accepted. -/
theorem accept (h : Queued home queue a pushed returned) {other receipt : String} {id : Ulid}
    {done : ShardState × Bool}
    (valid : (a (shardIdx other)).ackLease other id receipt = some done) :
    Queued home queue (Function.update a (shardIdx other) done.1) pushed returned := by
  by_cases same : shardIdx queue = shardIdx other
  · obtain ⟨ids, line, all⟩ := h.line
    refine ⟨⟨ids, ?_, all⟩, fun id' at_ => ?_⟩
    · rw [same, Function.update_self]
      rw [same] at line
      exact line.accept valid
    · rw [same, Function.update_self, ShardState.ackLease_seenIds valid, ← same]
      exact h.seen id' at_
  · refine ⟨?_, fun id' at_ => ?_⟩
    · rw [Function.update_of_ne same]
      exact h.line
    · rw [Function.update_of_ne same]
      exact h.seen id' at_

/-- What leaves the line and the ids that were seen. -/
theorem congr (h : Queued home queue a pushed returned)
    (line : ∀ ids, (a (shardIdx queue)).Line queue ids → (b (shardIdx queue)).Line queue ids)
    (seen : (b (shardIdx queue)).seenIds = (a (shardIdx queue)).seenIds) :
    Queued home queue b pushed returned := by
  obtain ⟨ids, here, all⟩ := h.line
  refine ⟨⟨ids, line ids here, all⟩, fun id at_ => ?_⟩
  rw [seen]
  exact h.seen id at_

/-- The sections of a poll before its claim. -/
theorem polling (h : Queued home queue w.engine.shards pushed returned) {rs : List WalRecord}
    (memory : AllInMemory w rs) {other : String} (unexpired : w.engine.Unexpired other w.clock)
    (env : Env) (maxMessages : Nat) :
    Queued home queue (w.engine.polling env w.clock other maxMessages).shards pushed returned := by
  have routed : Resident (w.engine.routed (shardIdx other) w.clock).shards rs :=
    memory.resident.kept unexpired.kept
  have swept : Queued home queue (w.engine.routed (shardIdx other) w.clock).shards pushed
      returned := by
    refine h.congr (fun ids line => ?_) (unexpired.kept _).seen
    rw [unexpired.routed]
    by_cases same : shardIdx queue = shardIdx other
    · simp only [QueueEngine.collectExpired, same, shards_setShard]
      rw [same] at line
      exact line.collectExpired unexpired
    · simp only [QueueEngine.collectExpired, shards_setShard_of_ne same]
      exact line
  have paged : Marks (w.engine.routed (shardIdx other) w.clock).shards
      (w.engine.polling env w.clock other maxMessages).shards :=
    routed.prefetch (memory.written.route (shardIdx other) w.clock) env other w.clock maxMessages
  refine swept.congr (fun ids line => ?_) (paged.kept _).seen
  obtain ⟨marks, acked, eq⟩ := paged (shardIdx queue)
  rw [eq]
  -- the ids of the line are in memory, those marked are acked
  exact line.mark fun mark inside waits =>
    ((routed.shard _).gone mark.2 (acked mark inside)).2 (line.stored _ waits)

/-- The claim of a poll of the queue. -/
theorem claimSection {e : QueueEngine} (h : Queued home queue e.shards pushed returned) (env : Env)
    (now timeout maxMessages : Nat) :
    let claimed := e.claimSection env queue now timeout maxMessages
    Queued home queue claimed.1.shards pushed (returned ++ claimed.2.map (·.id)) := by
  intro claimed
  obtain ⟨ids, line, all⟩ := h.line
  obtain ⟨front, rest⟩ := line.claimSection env now timeout maxMessages
  have kept := kept_claimSection env e queue now timeout maxMessages (shardIdx queue)
  refine ⟨⟨ids.drop maxMessages, rest, ?_⟩, fun id at_ => ?_⟩
  · rw [front, List.append_assoc, List.take_append_drop, all]
  · rw [kept.seen]
    exact h.seen id at_

/-- `poll`, of this queue or another one. -/
theorem poll (h : Queued home queue w.engine.shards pushed returned) {rs rs' : List WalRecord}
    (memory : AllInMemory w rs) {log : Set WalRecord} {lives : Ulid → Life}
    (sound : Sound Set.univ home w.engine rs' log lives)
    {other : String} (unexpired : w.engine.Unexpired other w.clock)
    (env : Env) (visibilitySec maxMessages : Nat) :
    let polled := w.engine.poll env w.clock other visibilitySec maxMessages
    Queued home queue polled.1.shards pushed
      (returned ++ if other = queue then polled.2.map (·.id) else []) := by
  intro polled
  have claimed : polled = (w.engine.polling env w.clock other maxMessages).claimSection env other
      w.clock (w.engine.visibility visibilitySec) maxMessages := poll_eq env _ _ _ _ _
  have ready := h.polling memory unexpired env maxMessages
  by_cases here : other = queue
  · subst here
    rw [if_pos rfl, claimed]
    exact ready.claimSection env w.clock _ maxMessages
  · rw [if_neg here, List.append_nil]
    obtain ⟨lives', sound', polls⟩ := sound.poll env w.clock other visibilitySec maxMessages
    obtain ⟨ids, before, all⟩ := h.line
    obtain ⟨ids', line, all'⟩ := ready.line
    obtain rfl : ids' = ids := List.append_cancel_left (all'.trans all.symm)
    have kept := kept_claimSection env (w.engine.polling env w.clock other maxMessages) other
      w.clock (w.engine.visibility visibilitySec) maxMessages (shardIdx queue)
    have untouched := QueueEngine.queueOf_claimSection_of_ne
      (w.engine.polling env w.clock other maxMessages) (Ne.symm here) env w.clock
      (w.engine.visibility visibilitySec) maxMessages
    rw [← claimed] at kept untouched
    refine ⟨⟨ids', ⟨?_, line.nodup, fun id waits => ?_, fun id waits => ?_⟩, all⟩, fun id at_ => ?_⟩
    · rw [untouched]
      exact line.lined
    · exact (kept.mem_messages id).2 (line.stored id waits)
    · -- the message was pending before the poll, so it still is and has no lease
      obtain ⟨msg, pending, mine⟩ := (sound.tracks id trivial).pending_of_line before waits
      have moved := polls id trivial
      rw [pending] at moved
      have still := moved.eq_of_pending (mine.trans_ne (Ne.symm here))
      have now := ((sound'.tracks id trivial).shards (shardIdx queue)).lease
      rw [still, Life.status, if_pos (congrArg shardIdx mine.symm)] at now
      rw [FMap.mem_iff_lookup]
      rintro ⟨entry, found⟩
      cases now.index.symm.trans found
    · rw [kept.seen]
      exact ready.seen id at_

/-- One item of a batch. -/
theorem pushBatchItem {acc : PushBatch} (h : Queued home queue acc.engine.shards pushed returned)
    (env : Env) (resident : ∀ s, (acc.engine.shards s).Resident) {item : PushItem} {now : Nat}
    {other : String}
    (mine : home (drawId env acc.engine.draws item.id).1 = other)
    (near : addU64 now item.delaySeconds ≤ addU64 now hotDelayHorizonSec)
    (room : acc.curRam < acc.engine.options.maxHotMessagesInRam)
    (due : other = queue → addU64 now item.delaySeconds ≤ now) :
    Queued home queue (QueueEngine.pushBatchItem env now other acc item).engine.shards
      (pushed ++ idsTo queue [((drawId env acc.engine.draws item.id).1, other, item.payload)])
      returned := by
  unfold QueueEngine.pushBatchItem
  dsimp only
  split
  · rename_i seen
    exact h.again (_, other, item.payload) mine seen
  · rename_i unseen
    unfold pushBatchNew
    dsimp only
    rw [if_pos ⟨near, room, fun inside => unseen ((resident _).stored _ inside)⟩]
    exact h.enter resident (acc.engine.newMsg other (drawId env acc.engine.draws item.id).1
      item.payload (addU64 now item.delaySeconds)) mine unseen due

/-- The loop of `push_batch`. -/
theorem pushBatchLoop {e : QueueEngine} {acc : PushBatch} {rs : List WalRecord} {now : Nat}
    {other : String} {items : List PushItem}
    (h : Queued home queue acc.engine.shards pushed returned)
    (resident : Resident acc.engine.shards rs) (batch : Counts.Batch e acc)
    (mine : ∀ push ∈ pushBatchAsked env now other acc items, home push.1 = push.2.1)
    (near : ∀ item ∈ items, addU64 now item.delaySeconds ≤ addU64 now hotDelayHorizonSec)
    (due : ∀ item ∈ items, other = queue → addU64 now item.delaySeconds ≤ now)
    (room : (items.foldl (QueueEngine.pushBatchItem env now other) acc).curRam <
      e.options.maxHotMessagesInRam) :
    Queued home queue (items.foldl (QueueEngine.pushBatchItem env now other) acc).engine.shards
      (pushed ++ idsTo queue (pushBatchAsked env now other acc items)) returned := by
  induction items generalizing acc rs pushed with
  | nil =>
      rw [pushBatchAsked, idsTo, List.filter_nil, List.map_nil, List.append_nil]
      exact h
  | cons item items ih =>
      have near' := near item List.mem_cons_self
      have below : acc.curRam < acc.engine.options.maxHotMessagesInRam := by
        rw [batch.options]
        exact (curRam_le_pushBatchLoop env now other (item :: items) acc).trans_lt room
      have quick : Quick _ True _ _ _ _ := resident.pushBatchItem near' below
        (Nat.lt_succ_self (messageCount acc.engine.shards)) env other
      have first := h.pushBatchItem env resident.shard (mine _ List.mem_cons_self) near' below
        (due item List.mem_cons_self)
      have rest := ih first (resident.quick quick) (batch.pushBatchItem env now other item)
        (fun push later => mine push (.tail _ later))
        (fun item' later => near item' (.tail _ later))
        (fun item' later => due item' (.tail _ later)) room
      rw [List.append_assoc, ← idsTo_append] at rest
      exact rest

/-- `push_with_ulid`. -/
theorem push {rs : List WalRecord} (h : Queued home queue w.engine.shards pushed returned)
    (memory : AllInMemory w rs) {other : String} {id : Ulid} {payload : List UInt8} {delaySec : Nat}
    (stays : StaysInMemory env w (.push other id payload delaySec)) (mine : home id = other)
    (due : other = queue → addU64 w.clock delaySec ≤ w.clock) :
    Queued home queue (w.engine.pushWithUlid env w.clock other id payload delaySec).1.shards
      (pushed ++ idsTo queue [(id, other, payload)]) returned := by
  have near := within_horizon (stays.near delaySec (by simp [Op.delays])) stays.clock
  obtain ⟨_, ⟨seen, same, _⟩ | ⟨unseen, outside, _⟩ | ⟨unseen, _, entered, _⟩⟩ :=
    pushWithUlid_cases env w.engine w.clock other id payload delaySec
  · rw [same]
    exact h.again (id, other, payload) mine seen
  · refine absurd ⟨near, stays.room, fun inside => unseen ?_⟩ outside
    exact (memory.resident.shard _).stored id inside
  · rw [entered]
    exact h.enter memory.resident.shard (w.engine.newMsg other id payload (addU64 w.clock delaySec))
      mine unseen due

end Queued

/-! ## Runs -/

/-- An operation pushes to the queue without delay. -/
def Undelayed (queue : String) : Op → Prop
  | .push other _ _ delaySec => other = queue → delaySec = 0
  | .pushBatch other items => other = queue → ∀ item ∈ items, item.delaySeconds = 0
  | _ => True

instance (queue : String) : (op : Op) → Decidable (Undelayed queue op)
  | .push other _ _ delaySec => inferInstanceAs (Decidable (other = queue → delaySec = 0))
  | .pushBatch other items =>
      inferInstanceAs (Decidable (other = queue → ∀ item ∈ items, item.delaySeconds = 0))
  | .poll .. | .ack .. | .ackBatch .. | .advance _ => inferInstanceAs (Decidable True)

/-- The ids that an operation returns from the queue, in the order of the answer. -/
def World.returnedFrom (env : Env) (queue : String) (w : World) : Op → List Ulid
  | .poll other visibilitySec maxMessages =>
      if other = queue then
        (w.engine.poll env w.clock other visibilitySec maxMessages).2.map (·.id)
      else []
  | _ => []

/-- What holds of the shards after every accepted ack holds after an ack. -/
theorem QueueEngine.ack_induction {Q : (Fin numShards → ShardState) → Prop} {queue : String}
    (accept : ∀ (a : Fin numShards → ShardState) id receipt done,
      (a (shardIdx queue)).ackLease queue id receipt = some done → Q a →
        Q (Function.update a (shardIdx queue) done.1))
    {e : QueueEngine} (h : Q e.shards) (env : Env) (messageId receipt : String) :
    Q (e.ack env queue messageId receipt).1.shards := by
  unfold QueueEngine.ack
  cases reached : (parseIdFast env messageId).bind (e.ackUnchecked queue · receipt) with
  | none => exact h
  | some done =>
      obtain ⟨id, _, success⟩ := Option.bind_eq_some_iff.1 reached
      dsimp only
      rw [shards_checkAndTriggerCompaction]
      unfold QueueEngine.ackUnchecked at success
      split at success
      · cases success
      · rename_i st wasLive valid
        cases success
        exact accept _ id receipt (st, wasLive) valid h

/-- The same for a batch of acks. -/
theorem QueueEngine.ackBatch_induction {Q : (Fin numShards → ShardState) → Prop} {queue : String}
    (accept : ∀ (a : Fin numShards → ShardState) id receipt done,
      (a (shardIdx queue)).ackLease queue id receipt = some done → Q a →
        Q (Function.update a (shardIdx queue) done.1))
    {e : QueueEngine} (h : Q e.shards) (env : Env) (items : List (String × String)) :
    Q (e.ackBatch env queue items).1.shards := by
  have loop : Q (ackBatchLoop env e queue items).engine.shards := by
    refine List.foldlRecOn (motive := fun (acc : AckBatch) => Q acc.engine.shards) _ _ h
      fun acc before item _ => ?_
    cases valid : (acc.engine.shards (shardIdx queue)).ackLease queue item.1 item.2 with
    | none =>
        rw [ackBatchItem_of_invalid valid]
        exact before
    | some done =>
        rw [(ackBatchItem_of_valid valid).1]
        exact accept _ item.1 item.2 done valid before
  have shards : (e.ackBatch env queue items).1.shards =
      (ackBatchLoop env e queue items).engine.shards :=
    (shards_checkAndTriggerCompaction env _).trans (disk_ackBatchUnchecked env e queue items).2.2
  rw [shards]
  exact loop

/-- What is asked of the run for one queue: every operation stays in memory, pushes each id to
its own queue, and to this queue without delay. -/
structure InLine (home : Ulid → String) (queue : String) (env : Env) (w : World) (op : Op) :
    Prop where
  ordinary : Ordinary home env w op
  stays : StaysInMemory env w op
  undelayed : Undelayed queue op

instance (home : Ulid → String) (queue : String) (env : Env) (w : World) (op : Op) :
    Decidable (InLine home queue env w op) :=
  decidable_of_iff (Ordinary home env w op ∧ StaysInMemory env w op ∧ Undelayed queue op)
    ⟨fun h => ⟨h.1, h.2.1, h.2.2⟩, fun h => ⟨h.ordinary, h.stays, h.undelayed⟩⟩

section Run

variable {home : Ulid → String} {queue : String} {env : Env} {w : World} {op : Op}
  {pushed returned : List Ulid}

/-- A push without delay is due. -/
theorem StaysInMemory.due (h : StaysInMemory env w op) : addU64 w.clock 0 ≤ w.clock := by
  have clock := h.clock
  rw [addU64_of_lt (by omega)]
  exact le_rfl

theorem Queued.step {rs rs' : List WalRecord} {log : Set WalRecord} {lives : Ulid → Life}
    (h : Queued home queue w.engine.shards pushed returned) (memory : AllInMemory w rs)
    (sound : Sound Set.univ home w.engine rs' log lives) (inLine : InLine home queue env w op) :
    Queued home queue (w.step env op).engine.shards (pushed ++ idsTo queue (w.asked env op))
      (returned ++ w.returnedFrom env queue op) := by
  have none : ∀ other : List Ulid, other ++ idsTo queue [] = other := fun _ => by simp [idsTo]
  obtain ⟨ordinary, stays, undelayed⟩ := inLine
  cases op with
  | push other id payload delaySec =>
      simp only [World.returnedFrom, List.append_nil]
      refine h.push memory stays (ordinary.asked _ List.mem_cons_self) fun here => ?_
      rw [undelayed here]
      exact stays.due
  | pushBatch other items =>
      simp only [World.returnedFrom, List.append_nil]
      have shards : (w.step env (.pushBatch other items)).engine.shards =
          (QueueEngine.pushBatchLoop env w.engine w.clock other items).engine.shards :=
        shards_checkAndTriggerCompaction env _
      rw [shards]
      refine Queued.pushBatchLoop h memory.resident (.start w.engine) ordinary.asked
        (fun item inside => within_horizon (stays.near _ (List.mem_map_of_mem inside)) stays.clock)
        (fun item inside here => ?_) (curRam_pushBatch_lt stays.room stays.roomAfter)
      rw [undelayed here item inside]
      exact stays.due
  | poll other visibilitySec maxMessages =>
      simp only [World.asked, none]
      exact h.poll memory sound stays.unexpired env visibilitySec maxMessages
  | ack other messageId receipt =>
      simp only [World.asked, none, World.returnedFrom, List.append_nil]
      exact QueueEngine.ack_induction (Q := fun a => Queued home queue a pushed returned)
        (fun _ _ _ _ valid before => before.accept valid) h env messageId receipt
  | ackBatch other items =>
      simp only [World.asked, none, World.returnedFrom, List.append_nil]
      exact QueueEngine.ackBatch_induction (Q := fun a => Queued home queue a pushed returned)
        (fun _ _ _ _ valid before => before.accept valid) h env items
  | advance seconds =>
      simp only [World.asked, none, World.returnedFrom, List.append_nil]
      exact h

theorem Queued.fresh (opts : QueueOptions) (clock : Nat) :
    Queued home queue (World.fresh env opts clock).engine.shards [] [] where
  line := ⟨[], .new, rfl⟩
  seen id at_ := by
    constructor
    · exact fun seen => absurd seen (Finset.notMem_empty _)
    · exact fun bad => by cases bad

/-- A run for one queue keeps it in line. -/
theorem World.queued_run {opts : QueueOptions} {clock : Nat} {ops : List Op}
    (run : Trace.Along (World.step env) (InLine home queue env) (World.fresh env opts clock) ops)
    (few : ((World.fresh env opts clock).run env ops).engine.names.length ≤ 65536) :
    let w := World.fresh env opts clock
    (∃ rs, AllInMemory (w.run env ops) rs) ∧
    Queued home queue (w.run env ops).engine.shards
      (idsTo queue (Trace.emitted (World.step env) (World.asked env) w ops))
      (Trace.emitted (World.step env) (World.returnedFrom env queue) w ops) := by
  intro w
  induction ops using List.reverseRecOn with
  | nil => exact ⟨⟨[], .fresh env opts clock⟩, .fresh opts clock⟩
  | append_singleton ops op ih =>
      obtain ⟨before, last⟩ := Trace.along_append.1 run
      have few' := few
      rw [World.run_concat] at few'
      have fewer := (World.names_step env _ op).length_le.trans few'
      obtain ⟨⟨rs, memory⟩, queued⟩ := ih before fewer
      obtain ⟨rs', log, lives, sound, _⟩ := World.sound_run_with (I := fun _ _ => True) trivial
        (fun _ _ _ _ _ _ => trivial) (before.imp fun _ _ h => h.ordinary.all Set.univ) fewer
      rw [World.run_concat, Trace.emitted_concat, Trace.emitted_concat, idsTo_append]
      exact ⟨⟨_, memory.step last.1.stays last.1.ordinary.small few'⟩,
        queued.step memory sound last.1⟩

/-- A queue that stays in memory and whose pushes are not delayed is first in, first out: what
its polls returned, in order, followed by what is ready, is what was pushed to it, each id once,
and the next poll returns the front of what is ready. -/
theorem World.fifo {opts : QueueOptions} {clock : Nat} {ops : List Op}
    (run : Trace.Along (World.step env) (InLine home queue env) (World.fresh env opts clock) ops)
    (few : ((World.fresh env opts clock).run env ops).engine.names.length ≤ 65536) :
    let start := World.fresh env opts clock
    let w := start.run env ops
    let ready := ((w.engine.shards (shardIdx queue)).queueOf queue).ready
    Trace.emitted (World.step env) (World.returnedFrom env queue) start ops ++ ready =
      (idsTo queue (Trace.emitted (World.step env) (World.asked env) start ops)).eraseDups ∧
    ∀ visibilitySec maxMessages, w.engine.Unexpired queue w.clock →
      (w.engine.poll env w.clock queue visibilitySec maxMessages).2.map (·.id) =
        ready.take maxMessages := by
  intro start w ready
  obtain ⟨⟨rs, memory⟩, queued⟩ := World.queued_run run few
  obtain ⟨ids, line, all⟩ := queued.line
  have here : ready = ids := line.lined.ready
  rw [here]
  refine ⟨all, fun visibilitySec maxMessages unexpired => ?_⟩
  obtain ⟨ids', line', all'⟩ := (queued.polling memory unexpired env maxMessages).line
  obtain rfl : ids' = ids := List.append_cancel_left (all'.trans all.symm)
  rw [poll_eq]
  exact (line'.claimSection env w.clock _ maxMessages).1

end Run

/-- Pushes to two queues, one of them repeated and one delayed, polls and an ack between them. -/
def crossingOps : List Op :=
  [.push "jobs" 1 [7] 0, .pushBatch "mail" [⟨some 9, [1], 60⟩, ⟨some 8, [1], 0⟩],
    .pushBatch "jobs" [⟨some 3, [8], 0⟩, ⟨some 1, [9], 0⟩, ⟨some 2, [6], 0⟩], .poll "jobs" 30 2,
    .poll "mail" 30 5, .ack "jobs" (ulidText 3) (ulidText (BitVec.ofNat 128 (2 ^ 64 + 2))),
    .push "jobs" 3 [7] 0, .push "jobs" 4 [7] 0]

theorem World.fifo_sample :
    let home := fun id : Ulid => if id = 9 ∨ id = 8 then "mail" else "jobs"
    let start := World.fresh .sample .default 1600000000
    let w := start.run .sample crossingOps
    Trace.Along (World.step .sample) (InLine home "jobs" .sample) start crossingOps ∧
      Trace.emitted (World.step .sample) (World.returnedFrom .sample "jobs") start crossingOps =
        [1, 3] ∧
      (w.engine.poll .sample w.clock "jobs" 30 5).2.map (·.id) = [2, 4] := by
  intro home start w
  have run : Trace.Along (World.step .sample) (InLine home "jobs" .sample) start crossingOps := by
    decide +kernel
  obtain ⟨all, next⟩ := World.fifo run (by decide +kernel)
  have returned : Trace.emitted (World.step .sample) (World.returnedFrom .sample "jobs") start
      crossingOps = [1, 3] := by decide +kernel
  have asked : (idsTo "jobs" (Trace.emitted (World.step .sample) (World.asked .sample) start
      crossingOps)).eraseDups = [1, 3] ++ [2, 4] := by decide +kernel
  rw [returned, asked] at all
  have unexpired : w.engine.Unexpired "jobs" w.clock := by
    unfold QueueEngine.Unexpired
    decide +kernel
  refine ⟨run, returned, (next 30 5 unexpired).trans ?_⟩
  rw [List.append_cancel_left all]
  rfl

end WalrQueue
