import WalrQueue.RamAccounting
import WalrQueue.ShardSteps

/-!
# The RAM ceiling

Pushes test the counter against the cap for every message they store.  Page-in
tests it only between reads, so what keeps it under the cap is that the reads up
to the one that ends it have no more ids to load than there is room for.
-/

namespace WalrQueue

open QueueEngine

/-! ## What a shard skips -/

namespace ShardState

variable {st st' : ShardState} {m : Ulid} {now : Nat} {opts : QueueOptions} {r x : WalRecord}

/-- The shard has the id in memory or has it acked, so page-in skips its Push records. -/
def Skips (st : ShardState) (m : Ulid) : Prop := m ∈ st.messages ∨ m ∈ st.ackedIds

instance (st : ShardState) (m : Ulid) : Decidable (st.Skips m) :=
  inferInstanceAs (Decidable (_ ∨ _))

/-- A Push record that page-in would load into the shard. -/
def Loadable (st : ShardState) (now : Nat) : WalRecord → Prop
  | .push msgId _ visibleAt _ => visibleAt ≤ addU64 now hotDelayHorizonSec ∧ ¬ st.Skips msgId
  | .ack .. => False

instance (st : ShardState) (now : Nat) : (r : WalRecord) → Decidable (st.Loadable now r)
  | .push .. => inferInstanceAs (Decidable (_ ∧ _))
  | .ack .. => inferInstanceAs (Decidable False)

theorem Loadable.of_skips (h : st'.Loadable now r) (skips : st.Skips r.msgId → st'.Skips r.msgId) :
    st.Loadable now r := by
  cases r with
  | ack msgId queueName => exact h
  | push msgId queueName visibleAt payload => exact ⟨h.1, fun old => h.2 (skips old)⟩

theorem Loadable.isPush (h : st.Loadable now r) : r.isPush = true := by
  cases r with
  | ack msgId queueName => exact h.elim
  | push msgId queueName visibleAt payload => rfl

theorem Loadable.not_skips (h : st.Loadable now r) : ¬ st.Skips r.msgId := by
  cases r with
  | ack msgId queueName => exact h.elim
  | push msgId queueName visibleAt payload => exact h.2

theorem Skips.store (h : st.Skips m) (now : Nat) (msg : StoredMsg) :
    (st.store now msg).Skips m := by
  rcases h with inside | acked
  · exact .inl ((AList.mem_insert _).2 (.inr inside))
  · exact .inr acked

theorem Skips.see_store (h : st.Skips m) (id : Ulid) (now : Nat) (msg : StoredMsg) :
    (ShardState.store { st with seenIds := insert id st.seenIds } now msg).Skips m := by
  have seen : ({ st with seenIds := insert id st.seenIds } : ShardState).Skips m := h
  exact seen.store now msg

theorem Skips.of_store {msg : StoredMsg} (h : (st.store now msg).Skips m) (other : m ≠ msg.id) :
    st.Skips m := by
  rcases h with inside | acked
  · exact .inl (((AList.mem_insert _).1 inside).resolve_left other)
  · exact .inr acked

theorem Skips.acked (h : st.Skips m) (queue : String) (id : Ulid) :
    ({ st with ackedIds := insert id st.ackedIds }.markDeleted queue id).Skips m := by
  unfold Skips
  rw [messages_markDeleted, ackedIds_markDeleted]
  exact h.imp_right fun acked => Finset.mem_insert_of_mem acked

theorem Skips.of_acked {queue : String} {id : Ulid}
    (h : ({ st with ackedIds := insert id st.ackedIds }.markDeleted queue id).Skips m)
    (other : m ≠ id) : st.Skips m := by
  unfold Skips at h
  rw [messages_markDeleted, ackedIds_markDeleted] at h
  exact h.imp_right fun acked => (Finset.mem_insert.1 acked).resolve_left other

/-- An id that is skipped stays so: what an Ack takes out it marks as acked. -/
theorem Skips.load (h : st.Skips m) (opts : QueueOptions) (now : Nat) (r : WalRecord) :
    (st.load opts now r).Skips m := by
  cases r with
  | ack msgId queueName =>
      unfold Skips
      simp only [ShardState.load, applyAck, messages_markDeleted, ackedIds_markDeleted,
        AList.mem_erase, Finset.mem_insert]
      unfold Skips at h
      tauto
  | push msgId queueName visibleAt payload =>
      unfold ShardState.load
      dsimp only
      split
      · exact h.see_store msgId now _
      · exact h

/-- After a record no other id than its own is skipped that was not before. -/
theorem Skips.of_load (h : (st.load opts now r).Skips m) : st.Skips m ∨ m = r.msgId := by
  cases r with
  | ack msgId queueName =>
      unfold Skips at h
      simp only [ShardState.load, applyAck, messages_markDeleted, ackedIds_markDeleted,
        AList.mem_erase, Finset.mem_insert] at h
      unfold Skips WalRecord.msgId
      tauto
  | push msgId queueName visibleAt payload =>
      unfold ShardState.load at h
      dsimp only at h
      split at h
      · rcases h with inside | acked
        · rcases (AList.mem_insert _).1 inside with same | inside
          · exact .inr same
          · exact .inl (.inl inside)
        · exact .inl (.inr acked)
      · exact .inl h

/-- What was loaded is skipped from then on. -/
theorem Loadable.skips_load (h : st.Loadable now r) (opts : QueueOptions) :
    (st.load opts now r).Skips r.msgId := by
  cases r with
  | ack msgId queueName => exact h.elim
  | push msgId queueName visibleAt payload =>
      have fresh := not_or.1 h.2
      unfold ShardState.load
      dsimp only
      rw [if_pos ⟨h.1, fresh.1, fresh.2⟩]
      exact .inl ((AList.mem_insert _).2 (.inl rfl))

theorem Loadable.load_of_ne (h : st.Loadable now x) (opts : QueueOptions)
    (other : x.msgId ≠ r.msgId) : (st.load opts now r).Loadable now x :=
  h.of_skips fun skips => skips.of_load.resolve_right other

theorem Loadable.loadAll_of_ne {records : List WalRecord} (h : st.Loadable now x)
    (opts : QueueOptions) (other : ∀ r ∈ records, x.msgId ≠ r.msgId) :
    (st.loadAll opts now records).Loadable now x :=
  List.foldlRecOn (motive := fun st : ShardState => st.Loadable now x) records _ h
    fun _ before r member => before.load_of_ne opts (other r member)

/-- The ids of the records that page-in would load into the shard, each once. -/
def wanted (st : ShardState) (now : Nat) (records : List WalRecord) : Finset Ulid :=
  ((records.filter fun r => st.Loadable now r).map WalRecord.msgId).toFinset

theorem mem_wanted {records : List WalRecord} :
    m ∈ st.wanted now records ↔ ∃ r ∈ records, st.Loadable now r ∧ r.msgId = m := by
  simp [wanted, and_assoc]

theorem wanted_subset {records records' : List WalRecord} (fewer : records' ⊆ records)
    (skips : ∀ m, st.Skips m → st'.Skips m) :
    st'.wanted now records' ⊆ st.wanted now records := by
  intro m inside
  obtain ⟨r, member, loadable, same⟩ := mem_wanted.1 inside
  exact mem_wanted.2 ⟨r, fewer member, loadable.of_skips (skips _), same⟩

end ShardState

/-! ## What a chunk loads -/

/-- The messages that page-in would load from the records, each once in its shard. -/
def QueueEngine.wanted (e : QueueEngine) (now : Nat) (records : List WalRecord) : Nat :=
  ∑ s, ((e.shards s).wanted now (shardRecords records s)).card

theorem QueueEngine.wanted_le {e e' : QueueEngine} {now : Nat} {records records' : List WalRecord}
    (fewer : records' ⊆ records) (skips : ∀ s m, (e.shards s).Skips m → (e'.shards s).Skips m) :
    e'.wanted now records' ≤ e.wanted now records :=
  Finset.sum_le_sum fun s _ => Finset.card_le_card
    (ShardState.wanted_subset (List.filter_subset _ fewer) (skips s))

theorem added_pageInRecord (opts : QueueOptions) (now : Nat) (targetQueue : String) (acc : PageIn)
    (r : WalRecord) :
    (pageInRecord opts now targetQueue acc r).added =
      acc.added + if acc.state.Loadable now r then 1 else 0 := by
  cases r with
  | ack msgId queueName => rfl
  | push msgId queueName visibleAt payload =>
      by_cases fresh : acc.state.Loadable now (.push msgId queueName visibleAt payload)
      · have absent := not_or.1 fresh.2
        rw [if_pos fresh]
        simp only [pageInRecord, if_pos (And.intro fresh.1 absent)]
      · rw [if_neg fresh]
        have stale : ¬ (visibleAt ≤ addU64 now hotDelayHorizonSec ∧ msgId ∉ acc.state.messages ∧
            msgId ∉ acc.state.ackedIds) := fun bad => fresh ⟨bad.1, not_or.2 bad.2⟩
        simp only [pageInRecord, if_neg stale, Nat.add_zero]

/-- A record that is loaded is one of those that were wanted, and is wanted no longer. -/
theorem wanted_pageInRecord (opts : QueueOptions) (now : Nat) (targetQueue : String)
    (acc : PageIn) {r : WalRecord} {all : List WalRecord} (member : r ∈ all) :
    (pageInRecord opts now targetQueue acc r).added +
        ((pageInRecord opts now targetQueue acc r).state.wanted now all).card ≤
      acc.added + (acc.state.wanted now all).card := by
  have fewer : (acc.state.load opts now r).wanted now all ⊆ acc.state.wanted now all :=
    ShardState.wanted_subset (List.Subset.refl _) fun m skips => skips.load opts now r
  rw [added_pageInRecord, state_pageInRecord]
  split
  · rename_i loadable
    have here : r.msgId ∈ acc.state.wanted now all :=
      ShardState.mem_wanted.2 ⟨r, member, loadable, rfl⟩
    have gone : r.msgId ∉ (acc.state.load opts now r).wanted now all := by
      intro inside
      obtain ⟨x, _, again, same⟩ := ShardState.mem_wanted.1 inside
      exact again.not_skips (same ▸ loadable.skips_load opts)
    have less := Finset.card_lt_card (Finset.ssubset_iff_of_subset fewer |>.2 ⟨_, here, gone⟩)
    omega
  · have less := Finset.card_le_card fewer
    omega

theorem wanted_pageInRecords (opts : QueueOptions) (now : Nat) (targetQueue : String)
    {records all : List WalRecord} (within : records ⊆ all) (acc : PageIn) :
    (records.foldl (pageInRecord opts now targetQueue) acc).added +
        ((records.foldl (pageInRecord opts now targetQueue) acc).state.wanted now all).card ≤
      acc.added + (acc.state.wanted now all).card :=
  List.foldlRecOn (motive := fun out : PageIn => out.added + (out.state.wanted now all).card ≤
      acc.added + (acc.state.wanted now all).card) records _ le_rfl
    fun out before _ member =>
      (wanted_pageInRecord opts now targetQueue out (within member)).trans before

theorem wanted_pageInShard (now : Nat) (targetQueue : String) {records all : List WalRecord}
    (within : records ⊆ all) (acc : PageInChunk) (s : Fin numShards) :
    (pageInShard now targetQueue records acc s).added +
        (pageInShard now targetQueue records acc s).engine.wanted now all ≤
      acc.added + acc.engine.wanted now all := by
  have here := wanted_pageInRecords acc.engine.options now targetQueue
    (show shardRecords records s ⊆ shardRecords all s from List.filter_subset _ within)
    ⟨acc.engine.shards s, acc.engine.totalMessagesInRam, acc.added, acc.targetAdded⟩
  have others : ∑ t ∈ Finset.univ.erase s,
        (((pageInShard now targetQueue records acc s).engine.shards t).wanted now
          (shardRecords all t)).card =
      ∑ t ∈ Finset.univ.erase s,
        ((acc.engine.shards t).wanted now (shardRecords all t)).card := by
    refine Finset.sum_congr rfl fun t member => ?_
    have kept : (pageInShard now targetQueue records acc s).engine.shards t =
        acc.engine.shards t := shards_setShard_of_ne (Finset.ne_of_mem_erase member)
    rw [kept]
  have mine : (pageInShard now targetQueue records acc s).engine.shards s =
      ((shardRecords records s).foldl (pageInRecord acc.engine.options now targetQueue)
        ⟨acc.engine.shards s, acc.engine.totalMessagesInRam, acc.added, acc.targetAdded⟩).state :=
    shards_setShard
  unfold QueueEngine.wanted
  rw [← Finset.add_sum_erase Finset.univ _ (Finset.mem_univ s), others, mine,
    ← Finset.add_sum_erase Finset.univ (fun t =>
      ((acc.engine.shards t).wanted now (shardRecords all t)).card) (Finset.mem_univ s)]
  have added : (pageInShard now targetQueue records acc s).added =
      ((shardRecords records s).foldl (pageInRecord acc.engine.options now targetQueue)
        ⟨acc.engine.shards s, acc.engine.totalMessagesInRam, acc.added, acc.targetAdded⟩).added :=
    rfl
  rw [added]
  dsimp only at here ⊢
  omega

/-- What a chunk loads is no longer wanted of any records it is part of. -/
theorem wanted_pageInChunk (now : Nat) (targetQueue : String) (e : QueueEngine)
    {records all : List WalRecord} (within : records ⊆ all) :
    (pageInChunk now targetQueue e records).added +
        (pageInChunk now targetQueue e records).engine.wanted now all ≤ e.wanted now all := by
  have sections := List.foldlRecOn (motive := fun out : PageInChunk =>
      out.added + out.engine.wanted now all ≤ e.wanted now all) (List.finRange numShards)
    (pageInShard now targetQueue records) (b := ⟨e, 0, 0⟩) (by simp)
    fun out before s _ => (wanted_pageInShard now targetQueue within out s).trans before
  exact sections

/-! ## When page-in stops -/

/-- The records have a message of the queue to load, before any other record of its id. -/
def QueueEngine.Finds (e : QueueEngine) (now : Nat) (queue : String) (records : List WalRecord) :
    Prop :=
  ∃ r ∈ records, r.queueName = queue ∧ (e.shards (shardIdx queue)).Loadable now r ∧
    records.find? (fun x => x.msgId = r.msgId) = some r

instance (e : QueueEngine) (now : Nat) (queue : String) (records : List WalRecord) :
    Decidable (e.Finds now queue records) :=
  inferInstanceAs (Decidable (∃ r ∈ records, _))

theorem targetAdded_pageInRecord (opts : QueueOptions) (now : Nat) (targetQueue : String)
    (acc : PageIn) (r : WalRecord) :
    acc.targetAdded ≤ (pageInRecord opts now targetQueue acc r).targetAdded ∧
      (acc.state.Loadable now r → r.queueName = targetQueue →
        acc.targetAdded < (pageInRecord opts now targetQueue acc r).targetAdded) := by
  cases r with
  | ack msgId queueName => exact ⟨le_rfl, fun bad => bad.elim⟩
  | push msgId queueName visibleAt payload =>
      unfold pageInRecord
      dsimp only
      split
      · refine ⟨by dsimp only; split <;> omega, fun _ same => ?_⟩
        have same : queueName = targetQueue := same
        dsimp only
        rw [if_pos same]
        exact Nat.lt_succ_self _
      · rename_i stale
        exact ⟨le_rfl, fun fresh _ => absurd ⟨fresh.1, not_or.1 fresh.2⟩ stale⟩

theorem targetAdded_pageInRecords (opts : QueueOptions) (now : Nat) (targetQueue : String)
    (records : List WalRecord) (acc : PageIn) :
    acc.targetAdded ≤ (records.foldl (pageInRecord opts now targetQueue) acc).targetAdded :=
  List.foldlRecOn (motive := fun out : PageIn => acc.targetAdded ≤ out.targetAdded) records _
    le_rfl fun out before r _ =>
      before.trans (targetAdded_pageInRecord opts now targetQueue out r).1

/-- A chunk that has a message of the queue to load counts it. -/
theorem targetAdded_of_finds {now : Nat} {queue : String} {e : QueueEngine}
    {records : List WalRecord} (finds : e.Finds now queue records) :
    0 < (pageInChunk now queue e records).targetAdded := by
  obtain ⟨r, _, mine, loadable, first⟩ := finds
  obtain ⟨_, before, after, split, others⟩ := List.find?_eq_some_iff_append.1 first
  have here : shardRecords records (shardIdx queue) =
      shardRecords before (shardIdx queue) ++ r :: shardRecords after (shardIdx queue) := by
    rw [split]
    simp [shardRecords, mine]
  have unnamed : ∀ x ∈ shardRecords before (shardIdx queue), r.msgId ≠ x.msgId := by
    intro x member same
    have other := others x (List.mem_filter.1 member).1
    simp [same] at other
  have shard : ∀ acc : PageInChunk,
      acc.engine.shards (shardIdx queue) = e.shards (shardIdx queue) →
      0 < (pageInShard now queue records acc (shardIdx queue)).targetAdded := by
    intro acc same
    unfold pageInShard
    dsimp only
    rw [here, List.foldl_append, List.foldl_cons]
    refine lt_of_lt_of_le ?_ (targetAdded_pageInRecords _ _ _ _ _)
    refine lt_of_le_of_lt (Nat.zero_le _)
      ((targetAdded_pageInRecord _ _ _ _ _).2 ?_ mine)
    rw [state_pageInRecords, same]
    exact loadable.loadAll_of_ne _ unnamed
  have grows : ∀ (acc : PageInChunk) (s : Fin numShards),
      acc.targetAdded ≤ (pageInShard now queue records acc s).targetAdded :=
    fun acc s => targetAdded_pageInRecords _ now queue _ ⟨acc.engine.shards s, _, acc.added, _⟩
  have sections : ∀ (ss : List (Fin numShards)) (acc : PageInChunk), shardIdx queue ∈ ss →
      acc.engine.shards (shardIdx queue) = e.shards (shardIdx queue) →
      0 < (ss.foldl (pageInShard now queue records) acc).targetAdded := by
    intro ss
    induction ss with
    | nil => exact fun acc bad => by cases bad
    | cons s ss ih =>
        intro acc member same
        rw [List.foldl_cons]
        by_cases turn : s = shardIdx queue
        · subst turn
          exact lt_of_lt_of_le (shard acc same) (List.foldlRecOn (motive := fun out : PageInChunk =>
            (pageInShard now queue records acc (shardIdx queue)).targetAdded ≤ out.targetAdded) ss _
            le_rfl fun out before t _ => before.trans (grows out t))
        · have later : shardIdx queue ∈ ss :=
            (List.mem_cons.1 member).resolve_left fun eq => turn eq.symm
          refine ih _ later (Eq.trans ?_ same)
          exact shards_setShard_of_ne fun eq => turn eq.symm
  exact sections (List.finRange numShards) ⟨e, 0, 0⟩ (List.mem_finRange _) rfl

/-- There is room for what the first `k` reads have to load, and page-in goes no further: they
take in the rest of the log or have a message of the queue. -/
structure PagesFit (env : Env) (e : QueueEngine) (now : Nat) (queue : String) (limit k : Nat) :
    Prop where
  room : e.totalMessagesInRam + e.wanted now (e.disk.pages env limit k e.spillReadOffset) ≤
    e.options.maxHotMessagesInRam
  stops : (e.disk.readEntriesFromOffset env (e.disk.pagesEnd env limit k e.spillReadOffset)
      limit).1 = [] ∨ e.Finds now queue (e.disk.pages env limit k e.spillReadOffset)

instance (env : Env) (e : QueueEngine) (now : Nat) (queue : String) (limit k : Nat) :
    Decidable (PagesFit env e now queue limit k) :=
  decidable_of_iff (_ ∧ _) ⟨fun h => ⟨h.1, h.2⟩, fun h => ⟨h.1, h.2⟩⟩

theorem QueueEngine.Finds.nonempty {e : QueueEngine} {now : Nat} {queue : String}
    (finds : e.Finds now queue []) : False := by
  obtain ⟨r, bad, _⟩ := finds
  cases bad

/-- A find in two parts is in the second when the first has no record of its id. -/
theorem QueueEngine.Finds.append_cases {e : QueueEngine} {now : Nat} {queue : String}
    {first second : List WalRecord} (finds : e.Finds now queue (first ++ second)) :
    e.Finds now queue first ∨ ∃ r ∈ second, r.queueName = queue ∧
      (e.shards (shardIdx queue)).Loadable now r ∧ (∀ x ∈ first, r.msgId ≠ x.msgId) ∧
      second.find? (fun x => x.msgId = r.msgId) = some r := by
  obtain ⟨r, _, mine, loadable, found⟩ := finds
  rw [List.find?_append] at found
  cases early : first.find? (fun x => x.msgId = r.msgId) with
  | some x =>
      rw [early] at found
      cases found
      exact .inl ⟨r, List.mem_of_find?_eq_some early, mine, loadable, early⟩
  | none =>
      rw [early, Option.none_or] at found
      refine .inr ⟨r, List.mem_of_find?_eq_some found, mine, loadable, fun x member same => ?_,
        found⟩
      have other := List.find?_eq_none.1 early x member
      simp [same] at other

/-! ## Before the poll -/

/-- Every message stands under its own id in the shard of its queue. -/
abbrev ShardState.Shelved (s : Fin numShards) (st : ShardState) : Prop :=
  st.Every fun id msg => msg.id = id ∧ shardIdx msg.queue = s

theorem ShardState.Shelved.step {env : Env} {s : Fin numShards} {st st' : ShardState}
    (h : st.Shelved s) (step : ShardStep env s st st') : st'.Shelved s := by
  cases step with
  | see id => exact h
  | @store now msg home => exact h.store now ⟨rfl, home⟩
  | applyAck queue id => exact h.applyAck queue id
  | @ackLease queue id receipt done valid => exact h.ackLease valid
  | collectExpired now => exact (h.collectExpired now).1
  | retire queue id =>
      unfold Shelved Every
      rw [messages_markDeleted]
      exact h
  | @claim queue q found draws now timeout maxMessages =>
      exact h.claim (fun id msg shelved => shelved) env draws queue q now timeout maxMessages

theorem ShardState.Skips.setShard {e : QueueEngine} {s t : Fin numShards} {st : ShardState}
    {m : Ulid} (h : (e.shards t).Skips m) (here : (e.shards s).Skips m → st.Skips m) :
    ((e.setShard s st).shards t).Skips m := by
  by_cases same : t = s
  · subst same
    rw [shards_setShard]
    exact here h
  · rw [shards_setShard_of_ne same]
    exact h

theorem ShardState.Skips.of_setShard {e : QueueEngine} {s t : Fin numShards} {st : ShardState}
    {m : Ulid} (h : ((e.setShard s st).shards t).Skips m)
    (here : st.Skips m → (e.shards s).Skips m) : (e.shards t).Skips m := by
  by_cases same : t = s
  · subst same
    rw [shards_setShard] at h
    exact here h
  · rwa [shards_setShard_of_ne same] at h

/-- Once an expired message is put back its id is skipped, and no other one that was not. -/
theorem skips_routeExpired (now : Nat) (e : QueueEngine) (msg : StoredMsg) :
    (∀ t m, (e.shards t).Skips m → ((routeExpired now e msg).shards t).Skips m) ∧
      ((routeExpired now e msg).shards (shardIdx msg.queue)).Skips msg.id ∧
      ∀ t m, m ≠ msg.id → ((routeExpired now e msg).shards t).Skips m → (e.shards t).Skips m := by
  unfold routeExpired
  split
  · have retired : ((e.retireExpired msg).shards (shardIdx msg.queue)).Skips msg.id := by
      unfold retireExpired
      dsimp only
      rw [shards_setShard, ShardState.Skips, ShardState.ackedIds_markDeleted]
      exact .inr (Finset.mem_insert_self _ _)
    refine ⟨fun t m skips => ?_, ?_, fun t m other skips => ?_⟩
    · have after : ((e.retireExpired msg).shards t).Skips m :=
        skips.setShard fun here => here.acked msg.queue msg.id
      exact after.setShard fun here => here.see_store _ now _
    · exact retired.setShard fun here => here.see_store _ now _
    · have before : ((e.retireExpired msg).shards t).Skips m :=
        skips.of_setShard fun here => here.of_store other
      exact before.of_setShard fun here => here.of_acked other
  · refine ⟨fun t m skips => skips.setShard fun here => here.store now _, ?_,
      fun t m other skips => skips.of_setShard fun here => here.of_store other⟩
    unfold requeue
    dsimp only
    rw [shards_setShard]
    exact .inl ((AList.mem_insert _).2 (.inl rfl))

theorem skips_routeExpired_foldl (now : Nat) (e : QueueEngine) (msgs : List StoredMsg) :
    (∀ t m, (e.shards t).Skips m → ((msgs.foldl (routeExpired now) e).shards t).Skips m) ∧
      (∀ msg ∈ msgs,
        ((msgs.foldl (routeExpired now) e).shards (shardIdx msg.queue)).Skips msg.id) ∧
      ∀ t m, (∀ msg ∈ msgs, m ≠ msg.id) →
        ((msgs.foldl (routeExpired now) e).shards t).Skips m → (e.shards t).Skips m := by
  induction msgs generalizing e with
  | nil => exact ⟨fun _ _ skips => skips, by simp, fun _ _ _ skips => skips⟩
  | cons msg msgs ih =>
      obtain ⟨keeps, self, origin⟩ := skips_routeExpired now e msg
      obtain ⟨keeps', selves, origin'⟩ := ih (routeExpired now e msg)
      refine ⟨fun t m skips => keeps' t m (keeps t m skips), fun msg' member => ?_,
        fun t m others skips => ?_⟩
      · rcases List.mem_cons.1 member with rfl | later
        · exact keeps' _ _ self
        · exact selves msg' later
      · refine origin t m (others msg (by simp)) (origin' t m (fun msg' later => ?_) skips)
        exact others msg' (List.mem_cons_of_mem msg later)

/-- An id that is skipped stays so through the sweep of a poll. -/
theorem ShardState.Skips.routed {e : QueueEngine} (shelved : ∀ s, (e.shards s).Shelved s)
    (s : Fin numShards) (now : Nat) {t : Fin numShards} {m : Ulid} (h : (e.shards t).Skips m) :
    ((e.routed s now).shards t).Skips m := by
  obtain ⟨keeps, selves, _⟩ := skips_routeExpired_foldl now (e.collectExpired s now).1
    (e.collectExpired s now).2
  by_cases same : t = s
  · subst same
    have swept : (e.collectExpired t now).1.shards t = ((e.shards t).collectExpired now).1 :=
      shards_setShard
    rcases h with inside | acked
    · obtain ⟨_, origin, _, leaves⟩ := takeExpired_foldl_spec
        ((e.shards t).wheel.collectExpired now).2 ((e.shards t).messages, [])
      obtain ⟨msg, found⟩ := (FMap.mem_iff_lookup _ m).1 inside
      rcases leaves m msg found with stays | taken
      · refine keeps t m (.inl ?_)
        rw [swept]
        exact FMap.mem_of_lookup stays
      · obtain ⟨named, home⟩ := shelved t m msg found
        have back := selves msg taken
        rw [named, home] at back
        exact back
    · refine keeps t m (.inr ?_)
      rw [swept]
      exact acked
  · refine keeps t m ?_
    have untouched : (e.collectExpired s now).1.shards t = e.shards t := shards_setShard_of_ne same
    rw [untouched]
    exact h

/-- The shard that was swept skips no id that it did not skip before. -/
theorem ShardState.Skips.of_routed {e : QueueEngine} {s : Fin numShards}
    (shelved : (e.shards s).Shelved s) {now : Nat} {m : Ulid}
    (h : ((e.routed s now).shards s).Skips m) : (e.shards s).Skips m := by
  obtain ⟨_, _, origin⟩ := skips_routeExpired_foldl now (e.collectExpired s now).1
    (e.collectExpired s now).2
  obtain ⟨remains, taken, _, _⟩ := takeExpired_foldl_spec
    ((e.shards s).wheel.collectExpired now).2 ((e.shards s).messages, [])
  by_cases inside : m ∈ (e.shards s).messages
  · exact .inl inside
  · have others : ∀ msg ∈ (e.collectExpired s now).2, m ≠ msg.id := by
      rintro msg member rfl
      rcases taken msg member with bad | ⟨id, found⟩
      · cases bad
      · rw [(shelved id msg found).1] at inside
        exact inside (FMap.mem_of_lookup found)
    have swept : (e.collectExpired s now).1.shards s = ((e.shards s).collectExpired now).1 :=
      shards_setShard
    have before := origin s m others h
    rw [swept] at before
    rcases before with stays | acked
    · obtain ⟨msg, found⟩ := (FMap.mem_iff_lookup _ m).1 stays
      exact .inl (FMap.mem_of_lookup (remains m msg found))
    · exact .inr acked

/-- What fits before the poll fits after its sweep. -/
theorem PagesFit.routed {env : Env} {e : QueueEngine} {now limit k : Nat} {queue : String}
    (fits : PagesFit env e now queue limit k) (shelved : ∀ s, (e.shards s).Shelved s) :
    PagesFit env (e.routed (shardIdx queue) now) now queue limit k := by
  obtain ⟨disk, cursor, options⟩ := disk_routeExpired_foldl now
    (e.collectExpired (shardIdx queue) now).1 (e.collectExpired (shardIdx queue) now).2
  have disk : (e.routed (shardIdx queue) now).disk = e.disk := disk
  have cursor : (e.routed (shardIdx queue) now).spillReadOffset = e.spillReadOffset := cursor
  have options : (e.routed (shardIdx queue) now).options = e.options := options
  have counter : (e.routed (shardIdx queue) now).totalMessagesInRam = e.totalMessagesInRam := by
    obtain ⟨_, _, total, _⟩ := Counts.routeExpired_foldl now
      (e.collectExpired (shardIdx queue) now).2 (e.collectExpired (shardIdx queue) now).1
    exact total
  refine ⟨?_, ?_⟩
  · rw [disk, cursor, options, counter]
    exact (Nat.add_le_add_left (QueueEngine.wanted_le (List.Subset.refl _)
      fun s m skips => skips.routed shelved (shardIdx queue) now) _).trans fits.room
  · rw [disk, cursor]
    refine fits.stops.imp_right ?_
    rintro ⟨r, member, mine, loadable, first⟩
    exact ⟨r, member, mine, loadable.of_skips fun skips => skips.of_routed (shelved _), first⟩

/-- Before a poll that pages in, there is room under the cap for every message that the paging
reads have to load, up to the read that ends them. -/
def PollFits (env : Env) (e : QueueEngine) (now : Nat) (queue : String) (maxMessages : Nat) :
    Prop :=
  (e.routed (shardIdx queue) now).needsPageIn queue (prefetchThreshold maxMessages) = false ∨
    ∃ k, PagesFit env e now queue (max (prefetchThreshold maxMessages) 1000) k

/-! ## The counter stays under the cap -/

/-- The counter is at most the cap and counts at least what is in memory. -/
structure UnderCap (opts : QueueOptions) (e : QueueEngine) : Prop where
  options : e.options = opts
  covers : e.ramCount ≤ e.totalMessagesInRam
  ceiling : e.totalMessagesInRam ≤ opts.maxHotMessagesInRam

namespace UnderCap

variable {opts : QueueOptions} {e e' : QueueEngine} {added removed lost : Nat}

/-- Nothing wraps around while what is added fits under the cap. -/
theorem account (h : UnderCap opts e) (counts : Counts added removed lost e e')
    (room : added = 0 ∨ e.totalMessagesInRam + added ≤ e.options.maxHotMessagesInRam) :
    UnderCap opts e' ∧ e'.totalMessagesInRam ≤ e.totalMessagesInRam + added := by
  have covers := h.covers
  have ceiling := h.ceiling
  have memory := counts.memory
  have cap := opts.ramCap_lt
  have fits : e.totalMessagesInRam + added ≤ opts.maxHotMessagesInRam := by
    rw [h.options] at room
    omega
  have below : e'.totalMessagesInRam < 2 ^ 64 := counts.bounded (by omega)
  have exact : e'.totalMessagesInRam + removed = e.totalMessagesInRam + added := by
    have counter := counts.counter
    unfold Nat.ModEq at counter
    omega
  exact ⟨⟨counts.options.trans h.options, by omega, by omega⟩, by omega⟩

theorem of_counts (h : UnderCap opts e) (counts : Counts added removed lost e e')
    (room : added = 0 ∨ e.totalMessagesInRam + added ≤ e.options.maxHotMessagesInRam) :
    UnderCap opts e' := (h.account counts room).1

theorem pushWithUlid (h : UnderCap opts e) (env : Env) (now : Nat) (queue : String) (id : Ulid)
    (payload : List UInt8) (delaySec : Nat) :
    UnderCap opts (e.pushWithUlid env now queue id payload delaySec).1 := by
  obtain ⟨added, counts, room⟩ := Counts.pushUnchecked e now queue id payload delaySec
  unfold QueueEngine.pushWithUlid
  dsimp only
  split
  · exact h.of_counts (counts.checked env) room
  · exact h.of_counts counts room

theorem pushBatch (h : UnderCap opts e) (env : Env) (now : Nat) (queue : String)
    (items : List PushItem) : UnderCap opts (e.pushBatch env now queue items).1 := by
  obtain ⟨added, counts, room⟩ := Counts.pushBatchUnchecked env e now queue items
  exact h.of_counts (counts.checked env) room

/-- One turn of the page-in loop keeps under the cap, and what it leaves to read fits again. -/
theorem pageInStep (h : UnderCap opts e) {env : Env} {now limit k : Nat} {queue : String}
    (fits : PagesFit env e now queue limit k) {flushed : Bool} {e' : QueueEngine}
    {next : Option Bool}
    (turn : QueueEngine.pageInStep env now queue limit e flushed = (e', next)) :
    UnderCap opts e' ∧ (next.isSome → ∃ k, PagesFit env e' now queue limit k) := by
  have moved : ∀ offset, UnderCap opts { e with spillReadOffset := offset } :=
    fun offset => h.of_counts (.congr rfl rfl rfl) (.inl rfl)
  unfold QueueEngine.pageInStep at turn
  dsimp only at turn
  split at turn
  · rename_i some
    obtain _ | k := k
    · -- no read is left, so the next one is empty
      rcases fits.stops with done | finds
      · exact absurd done some
      · exact finds.nonempty.elim
    · have room := fits.room
      have stops := fits.stops
      unfold DiskLog.pages at room stops
      unfold DiskLog.pagesEnd at stops
      dsimp only at room stops
      generalize e.disk.readEntriesFromOffset env e.spillReadOffset limit = read at *
      split at turn
      · rename_i hasPush
        obtain ⟨removed, counts⟩ :=
          Counts.pageInChunk now queue { e with spillReadOffset := read.2 } read.1
        have loaded := wanted_pageInChunk now queue { e with spillReadOffset := read.2 }
          (List.subset_append_left read.1 (e.disk.pages env limit k read.2))
        have same : QueueEngine.wanted { e with spillReadOffset := read.2 } now
          (read.1 ++ e.disk.pages env limit k read.2) =
            e.wanted now (read.1 ++ e.disk.pages env limit k read.2) := rfl
        obtain ⟨under, counter⟩ := (moved read.2).account counts (.inr (by
          dsimp only
          omega))
        obtain ⟨disk, cursor, options⟩ :=
          disk_pageInChunk now queue { e with spillReadOffset := read.2 } read.1
        split at turn
        · cases turn
          exact ⟨under, fun bad => by cases bad⟩
        · rename_i goesOn
          cases turn
          refine ⟨under, fun _ => ⟨k, ?_, ?_⟩⟩
          · rw [disk, cursor, options]
            generalize QueueEngine.pageInChunk now queue { e with spillReadOffset := read.2 }
              read.1 = done at loaded counter ⊢
            have fewer : done.engine.wanted now (e.disk.pages env limit k read.2) ≤
                done.engine.wanted now (read.1 ++ e.disk.pages env limit k read.2) :=
              QueueEngine.wanted_le (List.subset_append_right _ _) fun s m skips => skips
            dsimp only at counter ⊢
            omega
          · rw [disk, cursor]
            refine stops.imp_right fun finds => ?_
            rcases finds.append_cases with here | ⟨r, member, mine, loadable, others, first⟩
            · -- the chunk would have counted a message of the queue
              have counted := targetAdded_of_finds (e := { e with spillReadOffset := read.2 }) here
              exact absurd (.inl counted) goesOn
            · refine ⟨r, member, mine, ?_, first⟩
              rw [shards_pageInChunk]
              exact loadable.loadAll_of_ne _ fun x inside => others x (List.mem_filter.1 inside).1
      · rename_i acksOnly
        cases turn
        refine ⟨moved _, fun _ => ⟨k, ?_, stops.imp_right fun finds => ?_⟩⟩
        · have fewer : e.wanted now (e.disk.pages env limit k read.2) ≤
              e.wanted now (read.1 ++ e.disk.pages env limit k read.2) :=
            QueueEngine.wanted_le (List.subset_append_right _ _) fun s m skips => skips
          exact (Nat.add_le_add_left fewer _).trans room
        · rcases finds.append_cases with
            ⟨r, member, _, loadable, _⟩ | ⟨r, member, mine, loadable, _, first⟩
          · exact absurd (List.any_eq_true.2 ⟨r, member, loadable.isPush⟩) acksOnly
          · exact ⟨r, member, mine, loadable, first⟩
  · split at turn
    · split at turn <;> cases turn
      · exact ⟨moved 0, fun bad => by cases bad⟩
      · exact ⟨h, fun bad => by cases bad⟩
    · cases turn
      exact ⟨h, fun _ => ⟨k, fits⟩⟩

theorem pageInLoop {env : Env} {now limit : Nat} {queue : String} (fuel : Nat) {k : Nat}
    {flushed : Bool} (h : UnderCap opts e) (fits : PagesFit env e now queue limit k) :
    UnderCap opts (QueueEngine.pageInLoop env now queue limit fuel e flushed) := by
  induction fuel generalizing e k flushed with
  | zero => exact h
  | succ fuel ih =>
      unfold QueueEngine.pageInLoop
      rcases turn : QueueEngine.pageInStep env now queue limit e flushed with ⟨e', _ | flushed'⟩
      · exact (h.pageInStep fits turn).1
      · obtain ⟨under, more⟩ := h.pageInStep fits turn
        obtain ⟨k', fits'⟩ := more rfl
        exact ih under fits'

/-- A poll keeps under the cap when it does not page in, or there is room for what it pages in. -/
theorem poll (h : UnderCap opts e) (shelved : ∀ s, (e.shards s).Shelved s) {env : Env} {now : Nat}
    {queue : String} (visibilitySec : Nat) {maxMessages : Nat}
    (fits : PollFits env e now queue maxMessages) :
    UnderCap opts (e.poll env now queue visibilitySec maxMessages).1 := by
  obtain ⟨lost, counts, -⟩ := Counts.route e (shardIdx queue) now
  have routed : UnderCap opts (e.routed (shardIdx queue) now) := h.of_counts counts (.inl rfl)
  have prefetched : UnderCap opts
      ((e.routed (shardIdx queue) now).prefetch env queue now maxMessages) := by
    unfold QueueEngine.prefetch
    split
    · rename_i short
      rcases fits with enough | ⟨k, fits⟩
      · rw [enough] at short
        cases short
      · exact routed.pageInLoop _ (fits.routed shelved)
    · exact routed
  rw [poll_eq]
  exact prefetched.of_counts (.claimSection _ env queue now _ maxMessages) (.inl rfl)

theorem ack (h : UnderCap opts e) (env : Env) (queue messageId receipt : String) :
    UnderCap opts (e.ack env queue messageId receipt).1 := by
  unfold QueueEngine.ack
  split
  · exact h
  · rename_i done success
    obtain ⟨id, _, success⟩ := Option.bind_eq_some_iff.1 success
    obtain ⟨removed, counts⟩ := Counts.ackUnchecked success
    exact h.of_counts (counts.checked env) (Or.inl rfl)

theorem ackBatch (h : UnderCap opts e) (env : Env) (queue : String)
    (items : List (String × String)) : UnderCap opts (e.ackBatch env queue items).1 := by
  obtain ⟨removed, counts⟩ := Counts.ackBatchUnchecked env e queue items
  exact h.of_counts (counts.checked env) (Or.inl rfl)

end UnderCap

/-! ## Runs -/

/-- The polls of a run have room for what they page in. -/
def RoomForPages (env : Env) (w : World) : Op → Prop
  | .poll queue _ maxMessages => PollFits env w.engine w.clock queue maxMessages
  | _ => True

theorem UnderCap.step {env : Env} {opts : QueueOptions} {w : World} {op : Op}
    (h : UnderCap opts w.engine) (shelved : ∀ s, (w.engine.shards s).Shelved s)
    (fits : RoomForPages env w op) : UnderCap opts (w.step env op).engine := by
  cases op with
  | push queue id payload delaySec => exact h.pushWithUlid env w.clock queue id payload delaySec
  | pushBatch queue items => exact h.pushBatch env w.clock queue items
  | poll queue visibilitySec maxMessages => exact h.poll shelved visibilitySec fits
  | ack queue messageId receipt => exact h.ack env queue messageId receipt
  | ackBatch queue items => exact h.ackBatch env queue items
  | advance seconds => exact h

/-- In every run whose polls have room for what they page in, the counter is at most the cap. -/
theorem World.run_underCap {env : Env} {opts : QueueOptions} {clock : Nat} {ops : List Op}
    (fits : Trace.Along (World.step env) (RoomForPages env) (World.fresh env opts clock) ops) :
    ((World.fresh env opts clock).run env ops).engine.totalMessagesInRam ≤
      opts.maxHotMessagesInRam := by
  have start : UnderCap opts (World.fresh env opts clock).engine := by
    refine ⟨rfl, ?_, Nat.zero_le _⟩
    rw [show (World.fresh env opts clock).engine.ramCount = 0 from messageCount_new]
    exact Nat.zero_le _
  have shelved : ∀ s, ((World.fresh env opts clock).engine.shards s).Shelved s :=
    fun s id msg found => by cases found
  have kept := fits.invariant
    (I := fun w => UnderCap opts w.engine ∧ ∀ s, (w.engine.shards s).Shelved s) ⟨start, shelved⟩
    fun w op h room => ⟨h.1.step h.2 room, fun s => (w.step_shards env op s).invariant
      (fun _ _ step before => before.step step) (h.2 s)⟩
  exact kept.1.ceiling

/-- A RAM cap of one message. -/
def oneMessage : QueueOptions where
  defaultVisibilityTimeoutSec := 300
  maxDeliveryCount := 3
  maxHotMessagesInRam := 1
  maxWalSegmentSize := 64 * 1024 * 1024

/-- The second message is on disk only, and the poll loads it over the cap. -/
theorem World.poll_exceeds_cap :
    ((World.fresh .sample oneMessage 1600000000).run .sample
      [.push "a" 1 [1] 0, .push "a" 2 [2] 0, .poll "a" 30 1]).engine.totalMessagesInRam = 2 ∧
      oneMessage.maxHotMessagesInRam = 1 := by
  decide +kernel

/-- A RAM cap of two messages. -/
def twoMessages : QueueOptions :=
  { oneMessage with maxHotMessagesInRam := 2, ramCap_lt := by decide }

/-- The second message is pushed twice, waits on disk and is loaded when its time is near. -/
def roomyOps : List Op :=
  [.push "a" 1 [1] 0, .poll "a" 30 1, .push "a" 2 [2] 400, .push "a" 2 [2] 400, .advance 200,
    .poll "a" 30 1]

theorem World.run_underCap_sample :
    let run := (World.fresh .sample twoMessages 1600000000).run .sample roomyOps
    (run.engine.disk.activeRecords .sample).map WalRecord.msgId = [1, 2, 2] ∧
      run.engine.totalMessagesInRam = 2 ∧ run.engine.totalMessagesInRam ≤ 2 := by
  intro run
  have fits : Trace.Along (World.step .sample) (RoomForPages .sample)
      (World.fresh .sample twoMessages 1600000000) roomyOps :=
    ⟨trivial, .inr ⟨1, by decide +kernel⟩, trivial, trivial, trivial, .inr ⟨1, by decide +kernel⟩,
      trivial⟩
  exact ⟨by decide +kernel, by decide +kernel, World.run_underCap fits⟩

end WalrQueue
