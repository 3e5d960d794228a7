import WalrQueue.Lib.Closing
import WalrQueue.AckAgreement
import WalrQueue.AckOnce
import WalrQueue.ColdStart
import WalrQueue.Redelivery
import WalrQueue.Reopen

/-!
# Acks on a dead-letter queue

A message moves into its dead-letter queue without a record, and the Ack that ends it
there carries the name of the dead-letter queue.  `open` and a follower look the Ack up in
the shard of that name, and the shard of a dead-letter queue is never the shard of its
queue.  So `open` brings the message back unless a compaction has written it again under
the name of the dead-letter queue, and a follower keeps it.

The `Story` of an id is what the log says of it by its life: the names of its Push records
go down the dead-letter queues, and once it is dead every Push is followed by an Ack in the
shard of the queue it was last leased from.
-/

namespace WalrQueue

open QueueEngine Closing

/-! ## The shard of a dead-letter queue -/

/-- One byte of the hash. -/
def fnvStep (hash : Nat) (b : UInt8) : Nat := (hash ^^^ b.toNat) * 0x100000001b3 % 2 ^ 64

/-- The last five bits of the hash go their own way. -/
theorem fnvStep_mod (hash : Nat) (b : UInt8) : fnvStep hash b % 32 = fnvStep (hash % 32) b % 32 := by
  have low : ∀ h : Nat, fnvStep h b % 32 = (h ^^^ b.toNat) % 32 * 0x100000001b3 % 32 := by
    intro h
    unfold fnvStep
    rw [Nat.mod_mod_of_dvd _ (by norm_num : (32 : Nat) ∣ 2 ^ 64), Nat.mod_mul_mod]
  have xor : ∀ h : Nat, (h ^^^ b.toNat) % 32 = (h % 32) ^^^ (b.toNat % 32) := fun h =>
    Nat.xor_mod_two_pow (n := 5)
  rw [low, low, xor, xor, Nat.mod_mod]

theorem fnvStep_foldl_mod (bytes : List UInt8) (hash : Nat) :
    bytes.foldl fnvStep hash % 32 = bytes.foldl fnvStep (hash % 32) % 32 := by
  induction bytes generalizing hash with
  | nil => simp
  | cons b bytes ih =>
      rw [List.foldl_cons, ih, fnvStep_mod, ← ih]
      rfl

theorem utf8_dlqName (q : String) : utf8 (dlqName q) = utf8 q ++ [46, 100, 108, 113] := by
  unfold utf8 dlqName
  rw [String.toUTF8_eq_toByteArray, String.toUTF8_eq_toByteArray, String.toByteArray_append,
    ByteArray.data_append, Array.toList_append]
  rfl

/-- A queue and its dead-letter queue are never in the same shard. -/
theorem shardIdx_dlqName_ne (q : String) : shardIdx (dlqName q) ≠ shardIdx q := by
  have moved : ∀ low < 32, [46, 100, 108, 113].foldl fnvStep low % 32 ≠ low := by decide
  have whole : fnv1a (utf8 (dlqName q)) = [46, 100, 108, 113].foldl fnvStep (fnv1a (utf8 q)) := by
    rw [utf8_dlqName]
    exact List.foldl_append
  intro same
  have same : fnv1a (utf8 (dlqName q)) % 32 = fnv1a (utf8 q) % 32 := congrArg Fin.val same
  rw [whole, fnvStep_foldl_mod] at same
  exact moved (fnv1a (utf8 q) % 32) (Nat.mod_lt _ (by decide)) same

/-! ## The records of an id -/

/-- The record pushes the id. -/
def Opens (m : Ulid) (r : WalRecord) : Prop := r.isPush = true ∧ r.msgId = m

/-- The record acks the id. -/
def Acks (m : Ulid) (r : WalRecord) : Prop := r.isPush = false ∧ r.msgId = m

/-- The record acks the id in the shard. -/
def Closes (m : Ulid) (s : Fin numShards) (r : WalRecord) : Prop :=
  Acks m r ∧ shardIdx r.queueName = s

instance (m : Ulid) (r : WalRecord) : Decidable (Opens m r) :=
  inferInstanceAs (Decidable (_ ∧ _))

/-- Every Push of the id is of the queue or of one of its first `n` dead-letter queues. -/
def Descends (m : Ulid) (q : String) (n : Nat) (rs : List WalRecord) : Prop :=
  ∀ r ∈ rs, Opens m r → ∃ k ≤ n, r.queueName = dlqName^[k] q

variable {m : Ulid} {q : String} {rs new : List WalRecord} {n n' : Nat}

theorem Descends.mono (h : Descends m q n rs) (more : n ≤ n') : Descends m q n' rs := by
  intro r inside opens
  obtain ⟨k, le, eq⟩ := h r inside opens
  exact ⟨k, le.trans more, eq⟩

theorem Descends.append (h : Descends m q n rs) (later : Descends m q n new) :
    Descends m q n (rs ++ new) := by
  intro r inside opens
  rcases List.mem_append.1 inside with old | new
  · exact h r old opens
  · exact later r new opens

theorem descends_of_quiet (quiet : ∀ r ∈ new, ¬ Opens m r) : Descends m q n new :=
  fun r inside opens => absurd opens (quiet r inside)

/-! ## The story of an id -/

/-- What the log says of an id by its life, and whether the id was pushed. -/
inductive Story (m : Ulid) (q : String) (pushed : Prop) (lease : Option (String × String))
    (rs : List WalRecord) : Life → Prop
  | fresh : Descends m q 0 rs → (¬ pushed → ∀ r ∈ rs, r.msgId ≠ m) → Story m q pushed lease rs .fresh
  | alive {life : Life} {n : Nat} : pushed → life.queue? = some (dlqName^[n] q) →
      Descends m q n rs → Story m q pushed lease rs life
  | dead {n : Nat} {receipt : String} : pushed → lease = some (dlqName^[n] q, receipt) →
      Descends m q n rs → Closed (Opens m) (Closes m (shardIdx (dlqName^[n] q))) rs →
      (∀ r ∈ rs, Acks m r → shardIdx r.queueName = shardIdx (dlqName^[n] q)) →
      Story m q pushed lease rs .dead

namespace Story

variable {pushed pushed' : Prop} {lease lease' : Option (String × String)} {life life' : Life}

/-- Records of other ids, or Push records of a fresh id that is pushed to its queue. -/
theorem append (h : Story m q pushed lease rs life) (grows : pushed → pushed')
    (pushes : ∀ r ∈ new, r.msgId = m → life = .fresh ∧ pushed' ∧ r.queueName = q) :
    Story m q pushed' lease (rs ++ new) life := by
  cases h with
  | fresh descends unpushed =>
      refine .fresh (descends.append fun r inside opens => ?_) fun no r inside => ?_
      · exact ⟨0, le_rfl, (pushes r inside opens.2).2.2⟩
      · rcases List.mem_append.1 inside with old | new
        · exact unpushed (fun was => no (grows was)) r old
        · exact fun mine => no (pushes r new mine).2.1
  | alive was queue descends =>
      have quiet : ∀ r ∈ new, ¬ Opens m r := by
        intro r inside opens
        rw [(pushes r inside opens.2).1] at queue
        cases queue
      exact .alive (grows was) queue (descends.append (descends_of_quiet quiet))
  | dead was last descends closed acks =>
      have quiet : ∀ r ∈ new, r.msgId ≠ m := by
        intro r inside mine
        cases (pushes r inside mine).1
      have silent : ∀ r ∈ new, ¬ Opens m r := fun r inside opens => quiet r inside opens.2
      refine .dead (grows was) last (descends.append (descends_of_quiet silent))
        (closed_append silent (Or.inl closed)) fun r inside ack => ?_
      rcases List.mem_append.1 inside with old | new
      · exact acks r old ack
      · exact absurd ack.2 (quiet r new)

theorem grow (h : Story m q pushed lease rs life) (grows : pushed → pushed') :
    Story m q pushed' lease rs life := by
  have story : Story m q pushed' lease (rs ++ []) life := h.append grows (by simp)
  rwa [List.append_nil] at story

theorem fresh_of_unpushed (h : Story m q pushed lease rs life) (unpushed : ¬ pushed) :
    life = .fresh := by
  cases h with
  | fresh _ _ => rfl
  | alive was _ _ => exact absurd was unpushed
  | dead was _ _ _ _ => exact absurd was unpushed

theorem unlogged (h : Story m q pushed lease rs .fresh) (unpushed : ¬ pushed) :
    ∀ r ∈ rs, r.msgId ≠ m := by
  cases h with
  | fresh _ none => exact none unpushed
  | alive _ queue _ => cases queue

/-- The last lease matters to the dead only. -/
theorem release (h : Story m q pushed lease rs life) (same : life = .dead → lease' = lease) :
    Story m q pushed lease' rs life := by
  cases h with
  | fresh descends unpushed => exact .fresh descends unpushed
  | alive was queue descends => exact .alive was queue descends
  | dead was last descends closed acks =>
      exact .dead was ((same rfl).trans last) descends closed acks

theorem loads (h : Story m q pushed lease rs life) (loads : life.Loads life')
    (born : ∀ msg, life = .fresh → life' = .pending msg → pushed ∧ msg.queue = q) :
    Story m q pushed lease rs life' := by
  cases loads with
  | same => exact h
  | load msg zero =>
      obtain ⟨was, atHome⟩ := born msg rfl rfl
      cases h with
      | fresh descends unpushed => exact .alive (n := 0) was (congrArg some atHome) descends
      | alive was queue descends => cases queue

theorem putBack (h : Story m q pushed lease rs life) (now : Nat) :
    Story m q pushed lease rs (life.putBack now) := by
  cases life with
  | inHand msg =>
      cases h with
      | @alive _ n was queue descends =>
          have here : msg.queue = dlqName^[n] q := Option.some.inj queue
          by_cases spent : msg.maxDelivery ≤ msg.deliveryCount
          · refine .alive (n := n + 1) was ?_ (descends.mono (Nat.le_succ n))
            simp [Life.putBack, Life.routed, spent, Life.queue?, Life.msg?, here,
              Function.iterate_succ_apply']
          · refine .alive (n := n) was ?_ descends
            simp [Life.putBack, Life.routed, spent, Life.queue?, Life.msg?, here]
  | fresh | pending | leased | dead => exact h

theorem expires (h : Story m q pushed lease rs life) {now : Nat} {s : Fin numShards}
    {taken : List StoredMsg} (expires : Tracks.Expires now m s taken life life') :
    Story m q pushed lease rs life' := by
  cases expires with
  | kept _ none => exact h
  | expire msg item due here one =>
      cases h with
      | alive was queue descends => exact .alive was queue descends

theorem leases (h : Story m q pushed lease rs life) {env : Env} {queue : String}
    {now timeout : Nat} {polled : List PolledMessage}
    (leases : Tracks.Leases env queue now timeout m polled life life') :
    Story m q pushed lease rs life' := by
  cases leases with
  | kept _ none => exact h
  | lease msg item mine isLease one =>
      cases h with
      | alive was queue descends => exact .alive was queue descends

/-- An ack in the shard of the message. -/
theorem die {msg : StoredMsg} {item : InFlightItem} {receipt : String}
    (h : Story m q pushed lease rs (.leased msg item)) (last : lease = some (msg.queue, receipt))
    (unacked : ∀ r ∈ rs, ¬ Acks m r)
    (closes : ∀ r ∈ new, r.msgId = m → Closes m (shardIdx msg.queue) r)
    (acked : ∃ r ∈ new, r.msgId = m) : Story m q pushed lease (rs ++ new) .dead := by
  cases h with
  | @alive _ n was queue descends =>
      have here : msg.queue = dlqName^[n] q := Option.some.inj queue
      rw [here] at last closes
      have quiet : ∀ r ∈ new, ¬ Opens m r := by
        intro r inside opens
        have ack := (closes r inside opens.2).1.1
        rw [opens.1] at ack
        cases ack
      obtain ⟨r, inside, mine⟩ := acked
      refine .dead was last (descends.append (descends_of_quiet quiet))
        (closed_append quiet (Or.inr ⟨r, inside, closes r inside mine⟩)) fun r inside ack => ?_
      rcases List.mem_append.1 inside with old | new
      · exact absurd ack (unacked r old)
      · exact (closes r new ack.2).2

/-- A log that was replaced by the messages in memory. -/
theorem compact (h : Story m q pushed lease rs life)
    (own : ∀ r ∈ new, r.msgId = m → r.isPush = true ∧ life.queue? = some r.queueName) :
    Story m q pushed lease new life := by
  have fits : ∀ {n}, life.queue? = some (dlqName^[n] q) → Descends m q n new := by
    intro n queue r inside opens
    exact ⟨n, le_rfl, Option.some.inj ((own r inside opens.2).2.symm.trans queue)⟩
  have quiet : life.queue? = none → ∀ r ∈ new, r.msgId ≠ m := by
    intro none r inside mine
    have here := (own r inside mine).2
    rw [none] at here
    cases here
  cases h with
  | fresh descends unpushed =>
      exact .fresh (descends_of_quiet fun r inside opens => quiet rfl r inside opens.2)
        fun _ => quiet rfl
  | alive was queue descends => exact .alive was queue (fits queue)
  | dead was last descends closed acks =>
      have silent : ∀ r ∈ new, ¬ Opens m r := fun r inside opens => quiet rfl r inside opens.2
      exact .dead was last (descends_of_quiet silent) (closed_of_not_opens silent)
        fun r inside ack => absurd ack.2 (quiet rfl r inside)

end Story

/-! ## One operation -/

variable {env : Env} {w : World} {op : Op} {tracked : Set Ulid} {lives lives' : Ulid → Life}
  {rs' : List WalRecord} {log log' : Set WalRecord} {history events : List Event}

/-- Both segments together read back as the records that were written. -/
theorem Written.records {e : QueueEngine} (h : Written e rs) (env : Env) :
    e.disk.records env = rs := by
  obtain ⟨xs, i, layout, named, rfl⟩ := h.log
  have read : readWalFile env e.disk.registry (segment xs) = xs.map fun x => x.2.stored := by
    rw [readWalFile_segment layout.holds.fits]
    exact List.map_congr_left fun x inside => named.readBack_eq inside
  have active := layout.holds.active
  have sole := layout.sole
  unfold DiskLog.records
  unfold DiskLog.active at active
  unfold DiskLog.inactive at sole
  cases isB : e.disk.activeIsB with
  | true =>
      rw [isB] at active sole
      simp only [if_true] at active sole
      rw [active, sole, read, readWalFile_nil, List.nil_append]
  | false =>
      rw [isB] at active sole
      simp only [Bool.false_eq_true, if_false] at active sole
      rw [active, sole, read, readWalFile_nil, List.append_nil]

theorem mem_pushBatchRecords {now : Nat} {queue : String} {acc : PushBatch} {items : List PushItem}
    {r : WalRecord} (inside : r ∈ pushBatchRecords env now queue acc items) :
    r.queueName = queue ∧ r.isPush = true ∧
      r.msgId ∈ (items.foldl (QueueEngine.pushBatchItem env now queue) acc).ids := by
  induction items generalizing acc with
  | nil => cases inside
  | cons item items ih =>
      rw [List.foldl_cons]
      rcases List.mem_append.1 inside with here | later
      · split at here
        · cases here
        · rw [List.mem_singleton.1 here]
          refine ⟨rfl, rfl, (ids_prefix_pushBatchLoop now queue _ env items).subset ?_⟩
          rw [ids_pushBatchItem]
          simp [WalRecord.msgId]
      · exact ih later

/-- The Push records an operation appends are of the ids it pushes. -/
theorem World.pushes_of_appended {r : WalRecord} (inside : r ∈ w.appended env op)
    (push : r.isPush = true) : (r.msgId, r.queueName) ∈ w.pushes env op := by
  cases op with
  | push queue id payload delaySec =>
      rw [List.mem_singleton.1 inside]
      exact List.mem_singleton.2 rfl
  | pushBatch queue items =>
      obtain ⟨name, _, id⟩ := mem_pushBatchRecords inside
      rw [name]
      exact List.mem_map_of_mem id
  | poll queue visibilitySec maxMessages => cases inside
  | ack queue messageId receipt =>
      simp only [World.appended] at inside
      split at inside
      · obtain ⟨id, _, rfl⟩ := Option.map_eq_some_iff.1 (Option.mem_toList.1 inside)
        cases push
      · cases inside
  | ackBatch queue items =>
      obtain ⟨item, _, rfl⟩ := List.mem_map.1 inside
      cases push
  | advance seconds => cases inside

/-- What the items of a batch do to one id. -/
theorem Settles.outcome {queue : String} {items accepted : List (Ulid × String)}
    (settles : Settles tracked queue items lives accepted lives') (inside : m ∈ tracked) :
    (lives' m = lives m ∧ ∀ item ∈ accepted, item.1 ≠ m) ∨
    ((∃ receipt, (lives m).Accepts queue receipt) ∧ lives' m = .dead ∧
      ∃ item ∈ accepted, item.1 = m) := by
  induction settles with
  | nil lives => exact Or.inl ⟨rfl, by simp⟩
  | @accept id receipt items accepted lives lives' accepts _ ih =>
      by_cases same : m = id
      · subst same
        rw [Function.update_self] at ih
        refine Or.inr ⟨⟨receipt, accepts inside⟩, ?_, (m, receipt), by simp, rfl⟩
        rcases ih with ⟨kept, _⟩ | ⟨⟨_, _, _, bad, _⟩, _⟩
        · exact kept
        · cases bad
      · rw [Function.update_of_ne same] at ih
        refine ih.imp (fun kept => ⟨kept.1, ?_⟩) fun ⟨accepts, ends, item, member, mine⟩ =>
          ⟨accepts, ends, item, by simp [member], mine⟩
        intro item member
        rcases List.mem_cons.1 member with rfl | later
        · exact fun eq => same eq.symm
        · exact kept.2 item later
  | reject _ _ ih => exact ih

/-- How an operation that is not a poll moves an id, and the records it appends of it. -/
theorem Moves.outcome (moves : Moves tracked env w lives lives' op) (inside : m ∈ tracked) :
    (∃ queue visibilitySec maxMessages, op = .poll queue visibilitySec maxMessages) ∨
    ((lives m).Loads (lives' m) ∧ ∀ r ∈ w.appended env op, r.msgId = m → r.isPush = true) ∨
    (∃ msg item, lives m = .leased msg item ∧ lives' m = .dead ∧
      (∀ r ∈ w.appended env op, r.msgId = m → Closes m (shardIdx msg.queue) r) ∧
      ∃ r ∈ w.appended env op, r.msgId = m) := by
  cases op with
  | push queue id payload delaySec =>
      refine Or.inr (Or.inl ⟨moves m inside, fun r member _ => ?_⟩)
      rw [List.mem_singleton.1 member]
      rfl
  | pushBatch queue items =>
      exact Or.inr (Or.inl ⟨moves m inside, fun r member _ => (mem_pushBatchRecords member).2.1⟩)
  | poll queue visibilitySec maxMessages => exact Or.inl ⟨_, _, _, rfl⟩
  | ack queue messageId receipt =>
      rcases moves with ⟨id, parsed, accepts, success, rfl⟩ | ⟨_, failed, rfl⟩
      · have appended : w.appended env (.ack queue messageId receipt) = [.ack id queue] := by
          simp [World.appended, success, parsed]
        rw [appended]
        by_cases same : m = id
        · subst same
          obtain ⟨msg, item, is, shard, _⟩ := accepts inside
          refine Or.inr (Or.inr ⟨msg, item, is, Function.update_self .., fun r member _ => ?_,
            _, List.mem_singleton_self _, rfl⟩)
          rw [List.mem_singleton.1 member]
          exact ⟨⟨rfl, rfl⟩, shard.symm⟩
        · rw [Function.update_of_ne same]
          refine Or.inr (Or.inl ⟨.same _, fun r member mine => ?_⟩)
          rw [List.mem_singleton.1 member] at mine
          exact absurd mine.symm same
      · refine Or.inr (Or.inl ⟨.same _, fun r member _ => ?_⟩)
        simp [World.appended, failed] at member
  | ackBatch queue items =>
      rcases moves.1.outcome inside with ⟨kept, others⟩ |
        ⟨⟨receipt, msg, item, is, shard, _⟩, ends, item', member', mine'⟩
      · rw [kept]
        refine Or.inr (Or.inl ⟨.same _, fun r member mine => ?_⟩)
        obtain ⟨item, accepted, rfl⟩ := List.mem_map.1 member
        exact absurd mine (others item accepted)
      · refine Or.inr (Or.inr ⟨msg, item, is, ends, fun r member mine => ?_, _,
          List.mem_map_of_mem member', mine'⟩)
        obtain ⟨item, _, rfl⟩ := List.mem_map.1 member
        exact ⟨⟨rfl, mine⟩, shard.symm⟩
  | advance seconds =>
      have same : lives' = lives := moves
      rw [same]
      exact Or.inr (Or.inl ⟨.same _, fun r member _ => by cases member⟩)

/-- Events that lease the id to nobody. -/
theorem Event.lastLease_append (quiet : ∀ queue receipt, .leased m queue receipt ∉ events) :
    lastLease (history ++ events) m = lastLease history m := by
  unfold lastLease
  rw [List.foldl_append]
  generalize history.foldl (issue m) none = lease
  induction events generalizing lease with
  | nil => rfl
  | cons event events ih =>
      have first : issue m lease event = lease := by
        cases event with
        | leased id queue receipt =>
            refine if_neg fun same => quiet queue receipt ?_
            rw [same]
            exact List.mem_cons_self
        | expired id | acked id => rfl
      rw [List.foldl_cons, first]
      exact ih (fun queue receipt later => quiet queue receipt (.tail _ later)) lease

/-- What an operation leaves in the log: its records after the old ones, or the messages in
memory. -/
theorem World.logAfter_cases (env : Env) (w : World) (op : Op) (rs : List WalRecord) :
    w.logAfter env op rs = rs ++ (w.appended env op).map WalRecord.stored ∨
    ∃ mid : QueueEngine, mid.shards = (w.step env op).engine.shards ∧
      w.logAfter env op rs = mid.survivors env := by
  unfold World.logAfter
  dsimp only
  cases reached : w.checkpoint env op with
  | none => exact Or.inl rfl
  | some mid =>
      by_cases compacts : mid.compacts
      · refine Or.inr ⟨mid, ?_, if_pos compacts⟩
        rw [World.step_of_checkpoint reached]
        exact (shards_checkAndTriggerCompaction env mid).symm
      · exact Or.inl (if_neg compacts)

/-- Only a dead id is dead after a poll. -/
theorem Polls.dead_of_dead {e : QueueEngine} {now : Nat} {queue : String}
    {visibilitySec maxMessages : Nat} {life : Life}
    (polls : Polls env e now queue visibilitySec maxMessages m life .dead) : life = .dead := by
  obtain ⟨expired, loaded, expires, loads, leases⟩ := polls
  cases leases with
  | kept _ _ =>
      generalize back : expired.putBack now = waiting at loads
      cases loads with
      | same =>
          cases expires with
          | kept _ _ =>
              cases life with
              | dead => rfl
              | fresh | pending | leased | inHand => cases back
          | expire msg item _ _ _ => cases back

/-- A poll does not change the last lease of an id that is dead after it. -/
theorem Polls.lastLease {queue : String} {visibilitySec maxMessages : Nat} {life : Life}
    (polls : Polls env w.engine w.clock queue visibilitySec maxMessages m life .dead) :
    Event.lastLease (history ++ w.events env (.poll queue visibilitySec maxMessages)) m =
      Event.lastLease history m := by
  have was := polls.dead_of_dead
  rw [was] at polls
  refine Event.lastLease_append fun queue' receipt member => ?_
  rcases List.mem_append.1 member with expired | leased
  · obtain ⟨_, _, bad⟩ := List.mem_map.1 expired
    cases bad
  · obtain ⟨p, returned, eq⟩ := List.mem_map.1 leased
    cases eq
    exact polls.not_dead returned rfl

/-- A message that a poll loads was not in memory before, and is after it. -/
theorem Story.polls {pushed : Prop} {lease : Option (String × String)} {queue : String}
    {visibilitySec maxMessages : Nat} {life life' : Life} (h : Story m q pushed lease rs life)
    (polls : Polls env w.engine w.clock queue visibilitySec maxMessages m life life')
    (born : life = .fresh → ∀ msg, life'.msg? = some msg → pushed ∧ msg.queue = q) :
    Story m q pushed lease rs life' := by
  obtain ⟨expired, loaded, expires, loads, leases⟩ := polls
  refine (((h.expires expires).putBack w.clock).loads loads fun msg fresh is => ?_).leases leases
  have start : life = .fresh := by
    cases expires with
    | kept _ _ =>
        cases life with
        | fresh => rfl
        | pending | leased | inHand | dead => cases fresh
    | expire msg item _ _ _ => cases fresh
  subst is
  cases leases with
  | kept _ _ => exact born start msg rfl
  | lease _ item _ _ _ => exact born start (ShardState.delivered msg) rfl

/-- An id that is in memory for the first time was pushed, to its queue. -/
theorem Sound.born {pushed : Prop} (before : Sound {m} (fun _ => q) w.engine rs log lives)
    (after : Sound {m} (fun _ => q) (w.step env op).engine rs' log' lives')
    (ordinary : OrdinaryFor {m} (fun _ => q) env w op)
    (logged : ∀ r ∈ rs, r.msgId = m → pushed)
    (pushes : m ∈ (w.pushes env op).map Prod.fst → pushed) (fresh : lives m = .fresh)
    {msg : StoredMsg} (is : (lives' m).msg? = some msg) : pushed ∧ msg.queue = q := by
  have found := (after.tracks m rfl).lookup is
  refine ⟨?_, (before.every_step rfl fresh ordinary _ m msg found rfl).1⟩
  have tracks := before.tracks m rfl
  rw [fresh] at tracks
  have every : (w.step env op).engine.Every fun id msg => msg.id = id ∧ (id = m → pushed) := ?_
  · exact (every _ m msg found).2 rfl
  refine before.written.every_step ?_ ?_ ?_ ?_ fun _ _ known => known
  · refine fun s id msg found => ⟨before.written.keyed s id msg found, fun same => ?_⟩
    have none : AList.lookup m (w.engine.shards s).messages = none := (tracks.shards s).msg
    rw [← same, found] at none
    cases none
  · refine fun push member payload visibleAt => ⟨rfl, fun same => pushes ?_⟩
    rw [← same]
    exact List.mem_map_of_mem member
  · refine fun id msg known msg' sameId _ _ => ⟨rfl, fun same => known.2 ?_⟩
    rw [← known.1, ← sameId, same]
  · exact fun id queue visibleAt payload member maxDelivery => ⟨rfl, logged _ member⟩

/-- Only polls lease. -/
theorem World.events_of_not_poll
    (other : ¬ ∃ queue visibilitySec maxMessages, op = .poll queue visibilitySec maxMessages)
    (queue receipt : String) : .leased m queue receipt ∉ w.events env op := by
  intro member
  cases op with
  | poll queue visibilitySec maxMessages => exact other ⟨_, _, _, rfl⟩
  | ack queue messageId receipt =>
      simp only [World.events] at member
      split at member
      · simp at member
      · cases member
  | ackBatch queue items => simp [World.events] at member
  | push | pushBatch | advance => cases member

/-- The records of an operation carry the story on. -/
theorem Story.appended {pushed pushed' : Prop}
    (h : Story m q pushed (Event.lastLease history m) rs (lives m))
    (before : Sound {m} (fun _ => q) w.engine rs log lives)
    (agrees : Agrees history m (lives m)) (moves : Moves {m} env w lives lives' op)
    (grows : pushed → pushed')
    (pushes : ∀ r ∈ w.appended env op, r.msgId = m → r.isPush = true →
      lives m = .fresh ∧ pushed' ∧ r.queueName = q)
    (born : lives m = .fresh → ∀ msg, (lives' m).msg? = some msg → pushed' ∧ msg.queue = q) :
    Story m q pushed' (Event.lastLease (history ++ w.events env op) m)
      (rs ++ (w.appended env op).map WalRecord.stored) (lives' m) := by
  by_cases poll : ∃ queue visibilitySec maxMessages, op = .poll queue visibilitySec maxMessages
  · obtain ⟨queue, visibilitySec, maxMessages, rfl⟩ := poll
    have polls := moves m rfl
    refine Story.release ?_ fun isDead => (isDead ▸ polls).lastLease
    simp only [World.appended, List.map_nil, List.append_nil]
    exact (h.grow grows).polls polls born
  · rw [Event.lastLease_append (World.events_of_not_poll poll)]
    rcases (moves.outcome rfl).resolve_left poll with ⟨loads, onlyPushes⟩ |
      ⟨msg, item, is, ends, closes, acked⟩
    · refine (h.append grows ?_).loads loads fun msg fresh is => born fresh msg (by rw [is]; rfl)
      intro r inside same
      obtain ⟨r, member, rfl⟩ := List.mem_map.1 inside
      rw [WalRecord.msgId_stored] at same
      rw [WalRecord.queueName_stored]
      exact pushes r member same (onlyPushes r member same)
    · rw [is] at h agrees
      rw [ends]
      have last : Event.lastLease history m = some (msg.queue, item.receipt) := by
        refine Event.lastLease_of_current ?_
        rw [agrees.lease, ← agrees.queue msg item rfl]
        rfl
      refine (h.grow grows).die last (fun r inside ack => ?_) ?_ ?_
      · cases r with
        | push => cases ack.1
        | ack id queue =>
            obtain ⟨_, same⟩ := ack
            have same : id = m := same
            subst same
            have bad := (before.tracks id rfl).acks queue (before.logged _ inside)
            rw [is] at bad
            cases bad
      · intro r inside same
        obtain ⟨r, member, rfl⟩ := List.mem_map.1 inside
        rw [WalRecord.msgId_stored] at same
        simpa [Closes, Acks] using closes r member same
      · obtain ⟨r, member, same⟩ := acked
        exact ⟨r.stored, List.mem_map_of_mem member, by rw [WalRecord.msgId_stored]; exact same⟩

/-- Every operation carries the story on. -/
theorem Story.step {pushed pushed' : Prop}
    (h : Story m q pushed (Event.lastLease history m) rs (lives m))
    (before : Sound {m} (fun _ => q) w.engine rs log lives)
    (after : Sound {m} (fun _ => q) (w.step env op).engine rs' log' lives')
    (agrees : Agrees history m (lives m)) (ordinary : OrdinaryFor {m} (fun _ => q) env w op)
    (moves : Moves {m} env w lives lives' op)
    (few : (w.step env op).engine.names.length ≤ 65536) (grows : pushed → pushed')
    (once : m ∈ (w.pushes env op).map Prod.fst → ¬ pushed ∧ pushed') :
    Story m q pushed' (Event.lastLease (history ++ w.events env op) m) rs' (lives' m) := by
  have pushes : ∀ r ∈ w.appended env op, r.msgId = m → r.isPush = true →
      lives m = .fresh ∧ pushed' ∧ r.queueName = q := by
    intro r inside same push
    have member := World.pushes_of_appended inside push
    obtain ⟨unpushed, now⟩ := once (by rw [← same]; exact List.mem_map_of_mem member)
    exact ⟨h.fresh_of_unpushed unpushed, now, (ordinary.oneQueue _ member same).symm⟩
  have appended := h.appended before agrees moves grows pushes fun fresh msg is =>
    before.born after ordinary (fun r inside same => by_contra fun no =>
      (fresh ▸ h).unlogged (fun was => no (grows was)) r inside same) (fun here => (once here).2) fresh is
  have eq : rs' = w.logAfter env op rs := by
    have written := before.written.step ordinary.small few
    rw [← after.written.records env, written.records env]
  rw [eq]
  rcases World.logAfter_cases env w op rs with same | ⟨mid, shards, survivors⟩
  · rw [same]
    exact appended
  · rw [survivors]
    refine appended.compact fun r inside same => ?_
    obtain ⟨s, id, msg, found, rfl⟩ := mem_survivors.1 inside
    have same : id = m := same
    subst same
    rw [shards] at found
    refine ⟨rfl, ?_⟩
    rw [Life.queue?, ((after.tracks id rfl).queue_of_lookup found).1]
    rfl

/-! ## Along a run -/

/-- The ids a run pushes, in order. -/
def World.pushedIds (env : Env) (w : World) (ops : List Op) : List Ulid :=
  (Trace.emitted (World.step env) (World.pushes env) w ops).map Prod.fst

theorem World.pushedIds_concat (env : Env) (w : World) (ops : List Op) (op : Op) :
    w.pushedIds env (ops ++ [op]) =
      w.pushedIds env ops ++ ((w.run env ops).pushes env op).map Prod.fst := by
  unfold World.pushedIds
  rw [Trace.emitted_concat, List.map_append]
  rfl

/-- What a run that pushes the id at most once has told of it. -/
def Told (env : Env) (start : World) (m : Ulid) (q : String) (ops : List Op) (life : Life) : Prop :=
  (start.pushedIds env ops).count m ≤ 1 → (start.run env ops).engine.names.length ≤ 65536 →
    Agrees (start.history env ops) m life ∧
    ∀ rs, Written (start.run env ops).engine rs →
      Story m q (m ∈ start.pushedIds env ops) (Event.lastLease (start.history env ops) m) rs life

theorem Told.step {start : World} {ops : List Op} (h : Told env start m q ops (lives m))
    (before : Sound {m} (fun _ => q) (start.run env ops).engine rs log lives)
    (after : Sound {m} (fun _ => q) (start.run env (ops ++ [op])).engine rs' log' lives')
    (ordinary : OrdinaryFor {m} (fun _ => q) env (start.run env ops) op)
    (moves : Moves {m} env (start.run env ops) lives lives' op) :
    Told env start m q (ops ++ [op]) (lives' m) := by
  intro once few
  rw [World.pushedIds_concat, List.count_append] at once
  rw [World.run_concat] at few after
  obtain ⟨agrees, story⟩ := h (by omega) ((World.names_step env _ op).length_le.trans few)
  have all : ∀ id ∈ ({m} : Set Ulid), Agrees (start.history env ops) id (lives id) := by
    rintro id rfl
    exact agrees
  have agrees' := Agrees.step all moves m rfl
  rw [World.history_concat, World.pushedIds_concat, World.run_concat]
  refine ⟨agrees', fun rs'' written => ?_⟩
  obtain rfl : rs' = rs'' := by rw [← after.written.records env, written.records env]
  refine (story rs before.written).step before after agrees ordinary moves few
    (fun was => List.mem_append_left _ was) fun here => ⟨fun was => ?_, List.mem_append_right _ here⟩
  have first := List.count_pos_iff.2 was
  have second := List.count_pos_iff.2 here
  omega

/-- The story of an id that a run pushes at most once, and the lease its history has. -/
theorem World.story_run {opts : QueueOptions} {clock : Nat} {ops : List Op}
    (ordinary : Trace.Along (World.step env) (OrdinaryFor {m} (fun _ => q) env)
      (World.fresh env opts clock) ops)
    (once : ((World.fresh env opts clock).pushedIds env ops).count m ≤ 1)
    (few : ((World.fresh env opts clock).run env ops).engine.names.length ≤ 65536) :
    let w := (World.fresh env opts clock).run env ops
    let history := (World.fresh env opts clock).history env ops
    ∃ rs life, Written w.engine rs ∧ Agrees history m life ∧
      Story m q (m ∈ (World.fresh env opts clock).pushedIds env ops) (Event.lastLease history m)
        rs life := by
  intro w history
  have start : Told env (World.fresh env opts clock) m q [] .fresh := by
    refine fun _ _ => ⟨⟨rfl, fun _ _ is => (by cases is), rfl⟩, fun rs written => ?_⟩
    have none : rs = [] :=
      (written.records env).symm.trans ((Written.fresh env opts clock).records env)
    subst none
    exact .fresh (fun r bad => (by cases bad)) fun _ r bad => (by cases bad)
  obtain ⟨rs, log, lives, sound, told⟩ := (Sound.fresh env {m} (fun _ => q) opts clock).run
    (I := fun ops lives => Told env (World.fresh env opts clock) m q ops (lives m)) start
    (fun _ _ _ _ _ _ _ _ told before after ordinary moves =>
      told.step before after ordinary moves) ordinary few
  obtain ⟨agrees, story⟩ := told once few
  exact ⟨rs, lives m, sound.written, agrees, story rs sound.written⟩

/-! ## Opening the directory -/

theorem dlqName_length (q : String) : (dlqName q).length = q.length + 4 := by
  rw [dlqName, String.length_append]
  rfl

theorem length_iterate_dlqName (q : String) (n : Nat) : (dlqName^[n] q).length = q.length + 4 * n := by
  induction n with
  | zero => rfl
  | succ n ih =>
      rw [Function.iterate_succ_apply', dlqName_length, ih]
      omega

/-- The first dead-letter queue is that of the queue. -/
theorem eq_one_of_iterate {n : Nat} (same : dlqName^[n] q = dlqName q) : n = 1 := by
  have length := congrArg String.length same
  rw [length_iterate_dlqName, dlqName_length] at length
  omega

/-- What a replay leaves of an id whose records are closed in their shard. -/
theorem replay_not_mem (opts : QueueOptions) (now : Nat) {s : Fin numShards}
    (closed : Closed (fun r => Opens m r ∧ shardIdx r.queueName = s) (Closes m s) rs) :
    m ∉ ((replay opts now rs).shards s).messages := by
  refine closed.foldl (H := fun acc : Replay => m ∈ (acc.shards s).messages) ?_ ?_ ?_
  · intro acc r held
    rcases shards_replayRecord opts now acc r s with ⟨_, same⟩ |
      ⟨mine, ⟨id, queue, rfl, eq⟩ | ⟨id, queue, visibleAt, payload, rfl, ⟨_, eq⟩ | ⟨_, eq⟩⟩⟩
    · rw [same] at held
      exact Or.inl held
    · rw [eq] at held
      simp only [ShardState.applyAck, ShardState.messages_markDeleted, AList.mem_erase] at held
      exact Or.inl held.2
    · rw [eq, ShardState.mem_store] at held
      rcases held with new | old
      · exact Or.inr ⟨⟨rfl, new.symm⟩, mine⟩
      · exact Or.inl old
    · rw [eq] at held
      exact Or.inl held
  · rintro acc r ⟨⟨ack, same⟩, mine⟩
    rcases shards_replayRecord opts now acc r s with ⟨other, _⟩ |
      ⟨_, ⟨id, queue, rfl, eq⟩ | ⟨id, queue, visibleAt, payload, rfl, _⟩⟩
    · exact absurd mine other
    · have same : id = m := same
      rw [eq, same]
      simp [ShardState.applyAck]
    · cases ack
  · exact fun held => absurd held (by simp [ShardState.new])

theorem replay_live_iff (opts : QueueOptions) (now : Nat) {s : Fin numShards} :
    m ∈ ((replay opts now rs).shards s).seenIds ∧ m ∉ ((replay opts now rs).shards s).ackedIds ↔
      (∃ r ∈ rs, Opens m r ∧ shardIdx r.queueName = s) ∧ ∀ r ∈ rs, ¬ Closes m s r := by
  obtain ⟨seen, acked⟩ := replay_ids opts now ⟨fun _ => .new, 0⟩ rs s m
  have known : ∀ r : WalRecord,
      (r.isPush = true ∧ Touches s m r ↔ Opens m r ∧ shardIdx r.queueName = s) ∧
      (r.isPush = false ∧ Touches s m r ↔ Closes m s r) := by
    intro r
    unfold Touches Closes Opens Acks
    constructor <;> tauto
  rw [replay, seen, acked]
  simp only [ShardState.new, Finset.notMem_empty, false_or, known, not_exists, not_and]

/-- `open` does not bring back an id that is closed in the shard of its dead-letter queue
exactly when no Push record of the queue itself is left. -/
theorem not_live_replay_iff (opts : QueueOptions) (now : Nat) (descends : Descends m q 1 rs)
    (closed : Closed (Opens m) (Closes m (shardIdx (dlqName q))) rs)
    (acks : ∀ r ∈ rs, Acks m r → shardIdx r.queueName = shardIdx (dlqName q)) :
    (∀ s, ¬ (m ∈ ((replay opts now rs).shards s).messages ∨
        m ∈ ((replay opts now rs).shards s).seenIds ∧
          m ∉ ((replay opts now rs).shards s).ackedIds)) ↔
      ∀ r ∈ rs, Opens m r → r.queueName ≠ q := by
  constructor
  · intro gone r inside opens home
    refine gone (shardIdx q) (Or.inr ((replay_live_iff opts now).2 ⟨⟨r, inside, opens, ?_⟩, ?_⟩))
    · rw [home]
    · rintro r' inside' ⟨ack, here⟩
      exact shardIdx_dlqName_ne q ((acks r' inside' ack).symm.trans here)
  · intro moved s live
    have names : ∀ r ∈ rs, Opens m r → shardIdx r.queueName = shardIdx (dlqName q) := by
      intro r inside opens
      obtain ⟨k, le, name⟩ := descends r inside opens
      have one : k = 1 := by
        rcases Nat.le_one_iff_eq_zero_or_eq_one.1 le with zero | one
        · subst zero
          exact absurd name (moved r inside opens)
        · exact one
      rw [name, one]
      rfl
    by_cases here : s = shardIdx (dlqName q)
    · subst here
      rcases live with held | lost
      · exact replay_not_mem opts now (closed.mono fun r opens => opens.1) held
      · obtain ⟨⟨r, inside, opens, _⟩, none⟩ := (replay_live_iff opts now).1 lost
        obtain ⟨r', inside', closes⟩ := closed.closes_of_mem inside opens
        exact none r' inside' closes
    · have none : ∀ r ∈ rs, ¬ (Opens m r ∧ shardIdx r.queueName = s) := by
        rintro r inside ⟨opens, shard⟩
        exact here (shard.symm.trans (names r inside opens))
      rcases live with held | lost
      · exact replay_not_mem opts now (closed_of_not_opens none) held
      · obtain ⟨⟨r, inside, opens⟩, _⟩ := (replay_live_iff opts now).1 lost
        exact none r inside opens

/-! ## A follower -/

/-- The entries a leader logs for an operation: every push, and the acks of a call that
released something. -/
def World.entries (env : Env) (w : World) : Op → List RaftCommand
  | .push queue id payload delaySec => [.push queue (env.ulidToString id) payload delaySec]
  | .pushBatch queue items =>
      (QueueEngine.pushBatchLoop env w.engine w.clock queue items).ids.zipWith
        (fun id item => .push queue (env.ulidToString id) item.payload item.delaySeconds) items
  | .ack queue messageId receipt =>
      if (w.engine.ack env queue messageId receipt).2 then [.ack queue messageId receipt] else []
  | .ackBatch queue items =>
      if (w.engine.ackBatch env queue items).2 = 0 then []
      else items.map fun item => .ack queue item.1 item.2
  | _ => []

/-- The entries of a run. -/
def World.logged (env : Env) (w : World) (ops : List Op) : List RaftCommand :=
  Trace.emitted (World.step env) (World.entries env) w ops

theorem length_ids_pushBatchLoop (env : Env) (now : Nat) (queue : String) (items : List PushItem)
    (acc : PushBatch) :
    (items.foldl (QueueEngine.pushBatchItem env now queue) acc).ids.length =
      acc.ids.length + items.length := by
  induction items generalizing acc with
  | nil => rfl
  | cons item items ih =>
      rw [List.foldl_cons, ih, ids_pushBatchItem]
      simp only [List.length_append, List.length_cons, List.length_nil]
      omega

/-- The Push entries of an operation are those of the ids it pushes. -/
theorem World.mem_pushes_iff (texts : env.UlidTexts) {id : Ulid} {s : Fin numShards} :
    (∃ c ∈ w.entries env op, c.pushes env = some (s, id)) ↔
      ∃ queue, (id, queue) ∈ w.pushes env op ∧ shardIdx queue = s := by
  have read : ∀ u, RaftCommand.followerId env (env.ulidToString u) = some u := by
    intro u
    simp only [RaftCommand.followerId, texts.read]
  cases op with
  | push queue id' payload delaySec =>
      simp only [World.entries, World.pushes, List.mem_singleton, exists_eq_left,
        RaftCommand.pushes, read, Option.map_some, Option.some.injEq, Prod.mk.injEq]
      constructor
      · rintro ⟨shard, rfl⟩
        exact ⟨queue, ⟨rfl, rfl⟩, shard⟩
      · rintro ⟨_, ⟨rfl, rfl⟩, shard⟩
        exact ⟨shard, rfl⟩
  | pushBatch queue items =>
      have length := length_ids_pushBatchLoop env w.clock queue items
        ⟨w.engine, [], 0, w.engine.totalMessagesInRam⟩
      simp only [World.entries, World.pushes]
      unfold QueueEngine.pushBatchLoop
      generalize (items.foldl (QueueEngine.pushBatchItem env w.clock queue)
        ⟨w.engine, [], 0, w.engine.totalMessagesInRam⟩).ids = ids at length
      simp only [List.length_nil, Nat.zero_add] at length
      constructor
      · rintro ⟨c, inside, pushes⟩
        obtain ⟨i, bound, rfl⟩ := List.mem_iff_getElem.1 inside
        rw [List.getElem_zipWith] at pushes
        simp only [RaftCommand.pushes, read, Option.map_some, Option.some.injEq,
          Prod.mk.injEq] at pushes
        obtain ⟨shard, rfl⟩ := pushes
        exact ⟨queue, List.mem_map_of_mem (List.getElem_mem _), shard⟩
      · rintro ⟨name, inside, shard⟩
        obtain ⟨id', member, eq⟩ := List.mem_map.1 inside
        cases eq
        obtain ⟨i, bound, rfl⟩ := List.mem_iff_getElem.1 member
        refine ⟨_, List.mem_iff_getElem.2 ⟨i, ?_, List.getElem_zipWith⟩, ?_⟩
        · simp only [List.length_zipWith]
          omega
        · simp [RaftCommand.pushes, read, shard]
  | ack queue messageId receipt =>
      simp only [World.entries, World.pushes]
      split <;> simp [RaftCommand.pushes]
  | ackBatch queue items =>
      simp only [World.entries, World.pushes]
      split <;> simp [RaftCommand.pushes]
  | poll | advance => simp [World.entries, World.pushes]

namespace RaftNode

/-- The ids that commands have put in `seen_ids` and `acked_ids`. -/
theorem applyAt_foldl_ids (env : Env) (cs : List (Nat × RaftCommand)) (e : QueueEngine)
    (s : Fin numShards) (m : Ulid) :
    (m ∈ ((cs.foldl (applyAt env) e).shards s).seenIds ↔
      m ∈ (e.shards s).seenIds ∨ ∃ c ∈ cs, c.2.pushes env = some (s, m)) ∧
    (m ∈ ((cs.foldl (applyAt env) e).shards s).ackedIds ↔
      m ∈ (e.shards s).ackedIds ∨ ∃ c ∈ cs, c.2.acks env = some (s, m)) := by
  induction cs generalizing e with
  | nil => simp
  | cons c cs ih =>
      have step := applyAt_keyStep env e c s m
      rw [List.foldl_cons, (ih _).1, (ih _).2, step.seen, step.acked]
      simp only [List.exists_mem_cons_iff, or_assoc, and_self]

/-- An id whose Push is followed by an Ack for the same shard is not in memory at the end. -/
theorem applyAt_foldl_notMem (cs : List (Nat × RaftCommand)) {e : QueueEngine}
    {s : Fin numShards} (out : m ∉ (e.shards s).messages)
    (closed : Closed (fun c : Nat × RaftCommand => c.2.pushes env = some (s, m))
      (fun c => c.2.acks env = some (s, m)) cs) :
    m ∉ ((cs.foldl (applyAt env) e).shards s).messages := by
  refine closed.foldl (H := fun e : QueueEngine => m ∈ (e.shards s).messages) ?_ ?_ ?_
  · intro e c held
    exact ((applyAt_keyStep env e c s m).origin held).imp_right fun new => new.1
  · exact fun e c acks => (applyAt_keyStep env e c s m).gone acks
  · exact fun held => absurd held out

variable {cs : List (Nat × RaftCommand)} {e : QueueEngine}

/-- A Push that is followed by an Ack for its shard leaves nothing of its id at a new node. -/
theorem not_live_of_closed
    (pushes : ∀ s, (∃ c ∈ cs, c.2.pushes env = some (s, m)) ↔ s = shardIdx q)
    (closed : Closed (fun c : Nat × RaftCommand => c.2.pushes env = some (shardIdx q, m))
      (fun c => c.2.acks env = some (shardIdx q, m)) cs)
    (blank : ∀ s, e.shards s = .new) (s : Fin numShards) :
    ¬ (cs.foldl (applyAt env) e).Live s m := by
  obtain ⟨seen, acked⟩ := applyAt_foldl_ids env cs e s m
  have out : m ∉ (e.shards s).messages := by
    rw [blank]
    exact fun bad => by cases bad
  rw [blank, ShardState.new] at seen acked
  simp only [Finset.notMem_empty, false_or, pushes] at seen acked
  by_cases here : s = shardIdx q
  · subst here
    rintro (held | ⟨_, unacked⟩)
    · exact applyAt_foldl_notMem cs out closed held
    · obtain ⟨c, inside, push⟩ := (pushes _).2 rfl
      exact unacked (acked.2 (closed.closes_of_mem inside push))
  · have none : ∀ c ∈ cs, c.2.pushes env ≠ some (s, m) := fun c inside push =>
      here ((pushes s).1 ⟨c, inside, push⟩)
    rintro (held | ⟨known, _⟩)
    · exact applyAt_foldl_notMem cs out (closed_of_not_opens none) held
    · exact here (seen.1 known)

/-- A Push without an Ack for its shard leaves its id at a new node. -/
theorem live_of_unacked
    (pushes : ∀ s, (∃ c ∈ cs, c.2.pushes env = some (s, m)) ↔ s = shardIdx q)
    (blank : ∀ s, e.shards s = .new) (none : ∀ c ∈ cs, c.2.acks env ≠ some (shardIdx q, m)) :
    (cs.foldl (applyAt env) e).Live (shardIdx q) m := by
  obtain ⟨seen, acked⟩ := applyAt_foldl_ids env cs e (shardIdx q) m
  refine Or.inr ⟨seen.2 (Or.inr ((pushes _).2 rfl)), fun bad => ?_⟩
  rw [acked, blank] at bad
  rcases bad with bad | ⟨c, inside, acks⟩
  · cases bad
  · exact none c inside acks

end RaftNode

/-- The Push entries a run logs of an id are for the shard of its queue, and there is one. -/
theorem World.logged_pushes (texts : env.UlidTexts) {start : World} {ops : List Op}
    (ordinary : Trace.Along (World.step env) (OrdinaryFor {m} (fun _ => q) env) start ops)
    (once : m ∈ start.pushedIds env ops) {s : Fin numShards} :
    (∃ c ∈ start.logged env ops, c.pushes env = some (s, m)) ↔ s = shardIdx q := by
  have named : ∀ p ∈ Trace.emitted (World.step env) (World.pushes env) start ops,
      p.1 = m → q = p.2 := ordinary.forall_emitted fun w op h => h.oneQueue
  unfold World.logged
  rw [Trace.exists_emitted_congr (G := fun p : Ulid × String => p.1 = m ∧ shardIdx p.2 = s)]
  · constructor
    · rintro ⟨p, inside, same, shard⟩
      rw [named p inside same, shard]
    · rintro rfl
      obtain ⟨p, inside, same⟩ := List.mem_map.1 once
      exact ⟨p, inside, same, by rw [named p inside same]⟩
  · intro w op
    rw [World.mem_pushes_iff texts]
    constructor
    · rintro ⟨queue, inside, shard⟩
      exact ⟨(m, queue), inside, rfl, shard⟩
    · rintro ⟨p, inside, rfl, shard⟩
      exact ⟨p.2, inside, shard⟩

/-! ## Acks on a dead-letter queue -/

/-- A run that pushes a message once to `q`, and leases it last from the dead-letter queue
of `q` and acks it.  `open` does not bring it back exactly when no Push record under the
name `q` is left in the directory.  A follower that applied the entries of the run has it no
longer when an Ack entry for the shard of `q` follows its Push, and still has it when
there is none. -/
theorem World.dead_letter_ack_durable (texts : env.UlidTexts) {opts : QueueOptions} {clock : Nat}
    {ops : List Op} {receipt : String}
    (ordinary : Trace.Along (World.step env) (OrdinaryFor {m} (fun _ => q) env)
      (World.fresh env opts clock) ops)
    (once : ((World.fresh env opts clock).pushedIds env ops).count m = 1)
    (few : ((World.fresh env opts clock).run env ops).engine.names.length ≤ 65536)
    (short : QueueRegistry.ShortNames ((World.fresh env opts clock).run env ops).engine.names)
    (polled : Event.lastLease ((World.fresh env opts clock).history env ops) m =
      some (dlqName q, receipt))
    (acked : .acked m ∈ (World.fresh env opts clock).history env ops)
    (opts' : QueueOptions) (clock' draws : Nat) (cs : List (Nat × RaftCommand))
    (entries : cs.map Prod.snd = (World.fresh env opts clock).logged env ops) :
    let w := (World.fresh env opts clock).run env ops
    let reopened := openDir env w.engine.disk.dir opts' clock' draws
    let follower := cs.foldl (RaftNode.applyAt env) (openDir env .empty opts' clock' draws)
    ((∀ s, ¬ reopened.Live s m) ↔
      ∀ r ∈ w.engine.disk.records env, Opens m r → r.queueName ≠ q) ∧
    (Closed (fun c : Nat × RaftCommand => c.2.pushes env = some (shardIdx q, m))
        (fun c => c.2.acks env = some (shardIdx q, m)) cs → ∀ s, ¬ follower.Live s m) ∧
    ((∀ c ∈ cs, c.2.acks env ≠ some (shardIdx q, m)) → follower.Live (shardIdx q) m) := by
  intro w reopened follower
  obtain ⟨rs, life, written, agrees, story⟩ := World.story_run ordinary once.le few
  obtain rfl := agrees.dead_of_acked acked
  have pushes : ∀ s, (∃ c ∈ cs, c.2.pushes env = some (s, m)) ↔ s = shardIdx q := by
    intro s
    rw [← World.logged_pushes texts ordinary (List.count_pos_iff.1 (once ▸ Nat.one_pos)), ← entries]
    constructor
    · rintro ⟨c, inside, push⟩
      exact ⟨c.2, List.mem_map_of_mem inside, push⟩
    · rintro ⟨_, member, push⟩
      obtain ⟨c, inside, rfl⟩ := List.mem_map.1 member
      exact ⟨c, inside, push⟩
  refine ⟨?_, ?_, ?_⟩
  · cases story with
    | alive _ queue _ => cases queue
    | dead _ last descends closed acks =>
        obtain ⟨same, _⟩ := Prod.mk.inj (Option.some.inj (polled.symm.trans last))
        obtain rfl := eq_one_of_iterate same.symm
        rw [written.records env]
        have shards : reopened.shards = (replay opts' clock' rs).shards := by
          simp only [reopened, openDir]
          rw [written.recovered env _ short few]
        unfold QueueEngine.Live
        rw [shards]
        exact not_live_replay_iff opts' clock' descends closed acks
  · exact fun closed s => RaftNode.not_live_of_closed pushes closed (fun _ => rfl) s
  · exact RaftNode.live_of_unacked pushes fun _ => rfl

/-- Two messages of which one is acked; the other is dead-lettered, written again by a
compaction and acked. -/
def rewrittenOps : List Op :=
  [.push "jobs" 7 [1] 0, .push "jobs" 8 [2] 0, .poll "jobs" 1 2,
    .ackBatch "jobs" [(ulidText 8, ulidText (Env.sample.ulidNew 2)), (ulidText 7, "stale")],
    .advance 2, .poll "jobs" 1 1, .poll "jobs.dlq" 30 1, .ackBatch "jobs" [],
    .ack "jobs.dlq" (ulidText 7) (ulidText (Env.sample.ulidNew 5))]

/-- One delivery, one message in RAM and segments of 10 bytes. -/
def rewrittenOptions : QueueOptions where
  defaultVisibilityTimeoutSec := 300
  maxDeliveryCount := 1
  maxHotMessagesInRam := 1
  maxWalSegmentSize := 10
  ramCap_lt := QueueOptions.one_ramCap_lt

theorem World.dead_letter_ack_durable_sample :
    let start := World.fresh .sample rewrittenOptions 1600000000
    let w := start.run .sample rewrittenOps
    let cs := (start.logged .sample rewrittenOps).map (Prod.mk 1600000009)
    (∀ r ∈ w.engine.disk.records .sample, Opens 7 r → r.queueName ≠ "jobs") ∧
    (∀ s, ¬ (openDir .sample w.engine.disk.dir .default 1600000010 50).Live s 7) ∧
    ∀ s, ¬ (cs.foldl (RaftNode.applyAt .sample)
      (openDir .sample .empty .default 1600000010 50)).Live s 7 := by
  have ordinary : Trace.Along (World.step .sample) (Ordinary (fun _ => "jobs") .sample)
      (World.fresh .sample rewrittenOptions 1600000000) rewrittenOps := by decide +kernel
  have polled : Event.lastLease ((World.fresh .sample rewrittenOptions 1600000000).history .sample
      rewrittenOps) 7 = some (dlqName "jobs", ulidText (Env.sample.ulidNew 5)) := by decide +kernel
  have applies := World.dead_letter_ack_durable Env.sample_ulidTexts
    (ordinary.imp fun _ _ h => h.all {7}) (by decide +kernel) (by decide +kernel)
    (by decide +kernel) polled (by decide +kernel) .default 1600000010 50
    (((World.fresh .sample rewrittenOptions 1600000000).logged .sample rewrittenOps).map
      (Prod.mk 1600000009)) (by decide +kernel)
  have moved : ∀ r ∈ ((World.fresh .sample rewrittenOptions 1600000000).run .sample
      rewrittenOps).engine.disk.records .sample, Opens 7 r → r.queueName ≠ "jobs" := by
    decide +kernel
  exact ⟨moved, applies.1.2 moved, applies.2.1 (by decide +kernel)⟩

/-- Without a compaction `open` brings the message back, and a follower still has it. -/
theorem World.dead_letter_ack_lost :
    let start := World.fresh .sample onceOptions 1600000000
    let w := start.run .sample deadLetterOps
    let cs := (start.logged .sample deadLetterOps).map (Prod.mk 1600000009)
    Trace.Along (World.step .sample) (Ordinary (fun _ => "jobs") .sample) start deadLetterOps ∧
      (start.pushedIds .sample deadLetterOps).count 7 = 1 ∧
      Event.lastLease (start.history .sample deadLetterOps) 7 =
        some (dlqName "jobs", ulidText (Env.sample.ulidNew 4)) ∧
      .acked 7 ∈ start.history .sample deadLetterOps ∧
      (openDir .sample w.engine.disk.dir .default 1600000010 50).Live (shardIdx "jobs") 7 ∧
      (cs.foldl (RaftNode.applyAt .sample)
        (openDir .sample .empty .default 1600000010 50)).Live (shardIdx "jobs") 7 := by
  decide +kernel

end WalrQueue
