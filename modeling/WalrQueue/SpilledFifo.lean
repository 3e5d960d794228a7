import WalrQueue.BatchCalls
import WalrQueue.CompactionSafety
import WalrQueue.Fifo

/-!
# A queue that spills to disk

A message that finds RAM full is only a Push record in the log.  Page-in puts such messages at
the end of the ready list, in log order.  As long as no push enters RAM while an earlier message
is on disk only, what polls returned, what is ready and what is on disk only is, in this order,
what was pushed.
-/

namespace WalrQueue

open QueueEngine

/-! ## What page-in will load -/

namespace ShardState

variable {st st' : ShardState} {queue : String} {ids : List Ulid} {id : Ulid} {msg : StoredMsg}
  {records more : List WalRecord} {now : Nat}

/-- The shard has the message or knows that it was acked, so page-in passes over its Push. -/
def Has (st : ShardState) (id : Ulid) : Prop := id ∈ st.messages ∨ id ∈ st.ackedIds

instance : Decidable (st.Has id) := inferInstanceAs (Decidable (_ ∨ _))

/-- The messages page-in will load from the records, in log order. -/
def unloaded (st : ShardState) (records : List WalRecord) : List Ulid :=
  (records.filter fun r => r.isPush ∧ ¬ st.Has r.msgId).map (·.msgId)

theorem unloaded_append :
    st.unloaded (records ++ more) = st.unloaded records ++ st.unloaded more := by
  simp [unloaded]

theorem not_has_of_unloaded (waits : id ∈ st.unloaded records) : ¬ st.Has id := by
  obtain ⟨r, inside, rfl⟩ := List.mem_map.1 waits
  have passes := (List.mem_filter.1 inside).2
  simp only [decide_eq_true_eq] at passes
  exact passes.2

/-- What the shard has got in the meantime is not loaded. -/
theorem unloaded_of_has (st : ShardState) (has : ∀ id ∈ st.unloaded records, st'.Has id)
    (more : ∀ id, st.Has id → st'.Has id) : st'.unloaded records = [] := by
  refine List.map_eq_nil_iff.2 (List.filter_eq_nil_iff.2 fun r inside => ?_)
  simp only [decide_eq_true_eq, not_and, not_not]
  intro push
  by_cases old : st.Has r.msgId
  · exact more _ old
  · refine has _ (List.mem_map_of_mem (List.mem_filter.2 ⟨inside, ?_⟩))
    simpa using ⟨push, old⟩

theorem unloaded_congr (same : ∀ id ∈ st.unloaded records, ¬ st'.Has id)
    (more : ∀ id, st.Has id → st'.Has id) : st'.unloaded records = st.unloaded records := by
  refine congrArg _ (List.filter_congr fun r inside => decide_eq_decide.2 ?_)
  refine and_congr_right fun push => not_congr ⟨fun now => ?_, more _⟩
  by_contra old
  exact same r.msgId (List.mem_map_of_mem (List.mem_filter.2 ⟨inside, by simpa using ⟨push, old⟩⟩))
    now

theorem unloaded_eq (same : ∀ id, st'.Has id ↔ st.Has id) (records : List WalRecord) :
    st'.unloaded records = st.unloaded records :=
  unloaded_congr (fun id waits now => not_has_of_unloaded waits ((same id).1 now))
    fun id => (same id).2

/-! ## A line that page-in extends -/

/-- A line whose shard leases only messages it has, and has none that was acked. -/
structure Flow (st : ShardState) (queue : String) (ids : List Ulid) : Prop
    extends ShardState.Line st queue ids where
  held : ∀ id ∈ st.wheel.indexById, id ∈ st.messages
  gone : ∀ id ∈ st.ackedIds, id ∉ st.messages

theorem Flow.new : ShardState.new.Flow queue [] where
  toLine := .new
  held id bad := by cases bad
  gone id bad := absurd bad (Finset.notMem_empty _)

theorem Flow.kept (h : st.Flow queue ids) (kept : st.Kept st') {ids' : List Ulid}
    (line : st'.Line queue ids') : st'.Flow queue ids' where
  toLine := line
  held id leased := (kept.mem_messages id).2
    ((kept.leases id leased).elim (h.held id) fun inside => inside)
  gone id acked inside := by
    rw [kept.acked] at acked
    exact h.gone id acked ((kept.mem_messages id).1 inside)

theorem Kept.has (kept : st.Kept st') (id : Ulid) :
    st'.Has id ↔ st.Has id := by
  unfold Has
  rw [kept.mem_messages, kept.acked]

theorem has_enter : (st.enter now msg).Has id ↔ id = msg.id ∨ st.Has id := by
  unfold Has
  rw [mem_enter, or_assoc]
  rfl

/-- A new message that is due. -/
theorem Flow.enter (h : st.Flow msg.queue ids) (due : msg.visibleAt ≤ now)
    (new : ¬ st.Has msg.id) : (st.enter now msg).Flow msg.queue (ids ++ [msg.id]) where
  toLine := h.toLine.enter due (fun inside => new (Or.inl inside))
    fun leased => new (Or.inl (h.held _ leased))
  held id leased := mem_enter.2 (Or.inr (h.held id leased))
  gone id acked inside := by
    rcases mem_enter.1 inside with same | old
    · exact new (Or.inr (same ▸ acked))
    · exact h.gone id acked old

/-- An ack that is accepted. -/
theorem Flow.accept (h : st.Flow queue ids) {other receipt : String} {done : ShardState × Bool}
    (valid : st.ackLease other id receipt = some done) :
    done.1.Flow queue ids ∧ ∀ id', done.1.Has id' ↔ st.Has id' := by
  obtain ⟨messages, acked⟩ := ackLease_messages valid
  obtain ⟨leased, index⟩ := ackLease_indexById valid
  refine ⟨⟨h.toLine.accept valid, fun id' leased' => ?_, fun id' acked' => ?_⟩, fun id' => ?_⟩
  · rw [index, AList.mem_erase] at leased'
    rw [messages, AList.mem_erase]
    exact ⟨leased'.1, h.held id' leased'.2⟩
  · rw [acked, Finset.mem_insert] at acked'
    rw [messages, AList.mem_erase]
    rintro ⟨other, inside⟩
    exact acked'.elim other fun old => h.gone id' old inside
  · unfold Has
    rw [messages, acked, AList.mem_erase, Finset.mem_insert]
    by_cases same : id' = id
    · subst same
      simp [h.held _ leased]
    · simp [same]

/-- Page-in has put the messages `new`, all of them seen before, at the end of the line. -/
structure Loads (st st' : ShardState) (queue : String) (ids new : List Ulid) : Prop where
  flow : st'.Flow queue (ids ++ new)
  has : ∀ id, st'.Has id ↔ id ∈ new ∨ st.Has id
  acked : st'.ackedIds = st.ackedIds
  seen : st'.seenIds = st.seenIds

/-- What page-in meets in a queue without delays: Acks of messages it knows to be acked, and
Pushes that are due unless it passes over them. -/
def Meets (st : ShardState) (queue : String) (now : Nat) : WalRecord → Prop
  | .push id name visibleAt _ => name = queue ∧ (st.Has id ∨ id ∈ st.seenIds ∧ visibleAt ≤ now)
  | .ack id _ => id ∈ st.ackedIds

theorem Meets.congr {r : WalRecord} (h : st.Meets queue now r)
    (has : ∀ id, st.Has id → st'.Has id) (acked : ∀ id ∈ st.ackedIds, id ∈ st'.ackedIds)
    (seen : ∀ id ∈ st.seenIds, id ∈ st'.seenIds) : st'.Meets queue now r := by
  cases r with
  | ack msgId name => exact acked _ h
  | push msgId name visibleAt payload =>
      exact ⟨h.1, h.2.imp (has _) fun waits => ⟨seen _ waits.1, waits.2⟩⟩

theorem unloaded_push {name : String} {visibleAt : Nat} {payload : List UInt8} :
    st.unloaded (.push id name visibleAt payload :: records) =
      (if st.Has id then [] else [id]) ++ st.unloaded records := by
  by_cases has : st.Has id <;> simp [unloaded, WalRecord.isPush, WalRecord.msgId, has]

theorem unloaded_ack {name : String} :
    st.unloaded (.ack id name :: records) = st.unloaded records := by
  simp [unloaded, WalRecord.isPush]

theorem Loads.refl (h : st.Flow queue ids) : st.Loads st queue ids [] where
  flow := by rwa [List.append_nil]
  has id := by simp
  acked := rfl
  seen := rfl

theorem Flow.load (h : st.Flow queue ids) {r : WalRecord} (meets : st.Meets queue now r)
    (early : now + hotDelayHorizonSec < 2 ^ 64) (opts : QueueOptions) :
    st.Loads (st.load opts now r) queue ids (st.unloaded [r]) := by
  cases r with
  | ack msgId name =>
      have acked : msgId ∈ st.ackedIds := meets
      have absent := h.gone msgId acked
      rw [unloaded_ack, load_ack_of_gone acked absent]
      have kept := st.kept_mark [(name, msgId)]
      refine ⟨?_, fun id => (kept.has id).trans (by simp [unloaded]), kept.acked, kept.seen⟩
      rw [unloaded, List.filter_nil, List.map_nil, List.append_nil]
      refine h.kept kept (h.toLine.mark fun mark inside waits => absent ?_)
      rw [List.mem_singleton.1 inside] at waits
      exact h.stored _ waits
  | push msgId name visibleAt payload =>
      obtain ⟨rfl, known⟩ := meets
      rw [unloaded_push]
      by_cases has : st.Has msgId
      · have passes : st.load opts now (.push msgId name visibleAt payload) = st :=
          if_neg fun loads => has.elim loads.2.1 loads.2.2
        rw [passes, if_pos has]
        exact .refl h
      · obtain ⟨seen, due⟩ := known.resolve_left has
        have soon : visibleAt ≤ addU64 now hotDelayHorizonSec := by
          rw [addU64_of_lt early]
          exact due.trans (Nat.le_add_right _ _)
        have loads : st.load opts now (.push msgId name visibleAt payload) =
            st.enter now ⟨msgId, name, payload, visibleAt, 0, opts.maxDeliveryCount⟩ :=
          if_pos ⟨soon, fun inside => has (Or.inl inside), fun acked => has (Or.inr acked)⟩
        rw [loads, if_neg has]
        refine ⟨h.enter due has, fun id => has_enter.trans (by simp [unloaded]), rfl, ?_⟩
        exact Finset.insert_eq_of_mem seen

/-- A chunk of records, none of whose messages it would load twice. -/
theorem Flow.loadAll (h : st.Flow queue ids) (meets : ∀ r ∈ records, st.Meets queue now r)
    (early : now + hotDelayHorizonSec < 2 ^ 64) (once : (st.unloaded records).Nodup)
    (opts : QueueOptions) :
    st.Loads (st.loadAll opts now records) queue ids (st.unloaded records) := by
  induction records generalizing st ids with
  | nil => exact .refl h
  | cons r records ih =>
      have split : st.unloaded (r :: records) = st.unloaded [r] ++ st.unloaded records := by
        rw [← unloaded_append]
        rfl
      rw [split] at once ⊢
      obtain ⟨-, once, apart⟩ := List.nodup_append.1 once
      have first := h.load (meets r List.mem_cons_self) early opts
      -- the messages of the other records are still to be loaded
      have rest : (st.load opts now r).unloaded records = st.unloaded records :=
        unloaded_congr (fun id waits now => ((first.has id).1 now).elim
          (fun new => apart id new id waits rfl) (not_has_of_unloaded waits))
          fun id old => (first.has id).2 (Or.inr old)
      have others := ih first.flow (fun r' later => ?_) (rest ▸ once)
      · rw [rest] at others
        refine ⟨?_, fun id => ?_, others.acked.trans first.acked, others.seen.trans first.seen⟩
        · rw [← List.append_assoc]
          exact others.flow
        · rw [List.mem_append]
          refine (others.has id).trans ?_
          rw [first.has id]
          tauto
      · exact (meets r' (.tail _ later)).congr (fun id old => (first.has id).2 (Or.inr old))
          (fun id acked => first.acked.symm ▸ acked) fun id seen => first.seen.symm ▸ seen

end ShardState

/-! ## One name in the registry -/

namespace QueueRegistry

/-- The registry knows no other name. -/
structure Only (reg : QueueRegistry) (queue : String) : Prop where
  few : reg.idToName.length ≤ 1
  known : reg.idToName ≠ [] → queue ∈ reg.nameToId

theorem Only.getOrRegister {reg : QueueRegistry} {queue : String} (h : reg.Only queue) :
    (reg.getOrRegister queue).1.Only queue := by
  unfold QueueRegistry.getOrRegister
  cases found : AList.lookup queue reg.nameToId with
  | some id => exact h
  | none =>
      have empty : reg.idToName = [] := by
        by_contra some
        have known := h.known some
        rw [FMap.mem_iff_lookup] at known
        obtain ⟨id, eq⟩ := known
        cases found.symm.trans eq
      refine ⟨by simp [empty], fun _ => ?_⟩
      exact (AList.mem_insert _).2 (Or.inl rfl)

end QueueRegistry

theorem DiskLog.only_appendAll {d : DiskLog} {queue : String} (h : d.registry.Only queue)
    {rs : List WalRecord} (mine : ∀ r ∈ rs, r.queueName = queue) :
    (d.appendAll rs).registry.Only queue := by
  induction rs generalizing d with
  | nil => exact h
  | cons r rs ih =>
      refine ih ?_ fun r' later => mine r' (.tail _ later)
      rw [registry_append, mine r List.mem_cons_self]
      exact h.getOrRegister

/-! ## A spilled queue -/

/-- Only `queue` is in use.  The log reads back as `rs` and page-in stands before record `i`;
the ids that are ready are `ids`, and `onDisk` is what page-in has yet to load, all of it from
records ahead of it. -/
structure Spilling (queue : String) (now : Nat) (e : QueueEngine) (rs : List WalRecord) (i : Nat)
    (pushed ids onDisk : List Ulid) : Prop where
  log : ∃ xs, DiskLayout e xs i ∧ e.disk.Named xs ∧ rs = xs.map fun x => x.2.stored
  only : e.disk.registry.Only queue
  every : e.Every fun _ msg => msg.queue = queue ∧ msg.payload.length < 2 ^ 32
  placed : ∀ s id, id ∈ (e.shards s).messages → s = shardIdx queue
  flow : (e.shards (shardIdx queue)).Flow queue ids
  mine : ∀ r ∈ rs, r.queueName = queue
  meets : ∀ r ∈ rs, (e.shards (shardIdx queue)).Meets queue now r
  known : ∀ id, (e.shards (shardIdx queue)).Has id → id ∈ (e.shards (shardIdx queue)).seenIds
  seen : ∀ id ∈ (e.shards (shardIdx queue)).seenIds, id ∈ pushed
  once : onDisk.Nodup
  behind : (e.shards (shardIdx queue)).unloaded (rs.take i) = []
  ahead : (e.shards (shardIdx queue)).unloaded (rs.drop i) = onDisk

namespace Spilling

variable {queue : String} {now : Nat} {e e' : QueueEngine} {rs : List WalRecord} {i : Nat}
  {pushed ids onDisk : List Ulid} {env : Env}

theorem unloaded (h : Spilling queue now e rs i pushed ids onDisk) :
    (e.shards (shardIdx queue)).unloaded rs = onDisk := by
  rw [← List.take_append_drop i rs, ShardState.unloaded_append, h.behind, h.ahead, List.nil_append]

/-- What is on disk only was pushed, and it was neither loaded nor acked. -/
theorem waits (h : Spilling queue now e rs i pushed ids onDisk) {id : Ulid}
    (inside : id ∈ onDisk) :
    id ∈ (e.shards (shardIdx queue)).seenIds ∧ ¬ (e.shards (shardIdx queue)).Has id := by
  rw [← h.unloaded] at inside
  have absent := ShardState.not_has_of_unloaded inside
  obtain ⟨r, member, rfl⟩ := List.mem_map.1 inside
  obtain ⟨member, push⟩ := List.mem_filter.1 member
  have meets := h.meets r member
  cases r with
  | ack msgId name => simp [WalRecord.isPush] at push
  | push msgId name visibleAt payload =>
      exact ⟨(meets.2.resolve_left absent).1, absent⟩

/-- Time passes. -/
theorem later (h : Spilling queue now e rs i pushed ids onDisk) {now' : Nat} (le : now ≤ now') :
    Spilling queue now' e rs i pushed ids onDisk :=
  { h with
    meets := fun r inside => by
      have meets := h.meets r inside
      cases r with
      | ack msgId name => exact meets
      | push msgId name visibleAt payload =>
          exact ⟨meets.1, meets.2.imp_right fun waits => ⟨waits.1, waits.2.trans le⟩⟩ }

/-- A section that leaves the files and the messages alone. -/
theorem kept (h : Spilling queue now e rs i pushed ids onDisk) (disk : e'.disk = e.disk)
    (cursor : e'.spillReadOffset = e.spillReadOffset)
    (kept : ∀ s, (e.shards s).Kept (e'.shards s)) {ids' : List Ulid}
    (line : (e'.shards (shardIdx queue)).Line queue ids') :
    Spilling queue now e' rs i pushed ids' onDisk where
  log := by
    obtain ⟨xs, layout, named, eq⟩ := h.log
    exact ⟨xs, layout.congr disk cursor, by rw [disk]; exact named, eq⟩
  only := by rw [disk]; exact h.only
  every s id msg found := by
    obtain ⟨old, wasFound, core⟩ := (kept s).lookup found
    obtain ⟨name, payload⟩ := Prod.mk.inj core
    rw [← name, ← payload]
    exact h.every s id old wasFound
  placed s id inside := h.placed s id (((kept s).mem_messages id).1 inside)
  flow := h.flow.kept (kept _) line
  mine := h.mine
  meets r inside := (h.meets r inside).congr (fun id => ((kept _).has id).2)
    (fun id acked => (kept _).acked ▸ acked) fun id seen => (kept _).seen ▸ seen
  known id has := (kept _).seen ▸ h.known id (((kept _).has id).1 has)
  seen id seen := h.seen id ((kept _).seen ▸ seen)
  once := h.once
  behind := (ShardState.unloaded_eq (kept _).has _).trans h.behind
  ahead := (ShardState.unloaded_eq (kept _).has _).trans h.ahead

/-- A section that leaves the files and the shards alone. -/
theorem congr (h : Spilling queue now e rs i pushed ids onDisk) (shards : e'.shards = e.shards)
    (disk : e'.disk = e.disk) (cursor : e'.spillReadOffset = e.spillReadOffset) :
    Spilling queue now e' rs i pushed ids onDisk := by
  refine h.kept disk cursor (fun s => ?_) ?_
  · rw [shards]
    exact .refl _
  · rw [shards]
    exact h.flow.toLine

/-! ### Page-in -/

/-- The cursor passes over a chunk without Pushes. -/
theorem pass (h : Spilling queue now e rs i pushed ids onDisk) {k offset : Nat}
    (log : ∃ xs, DiskLayout { e with spillReadOffset := offset } xs (i + k) ∧
      e.disk.Named xs ∧ rs = xs.map fun x => x.2.stored)
    (acksOnly : ((rs.drop i).take k).any WalRecord.isPush = false) :
    Spilling queue now { e with spillReadOffset := offset } rs (i + k) pushed ids onDisk := by
  have none : (e.shards (shardIdx queue)).unloaded ((rs.drop i).take k) = [] := by
    refine List.map_eq_nil_iff.2 (List.filter_eq_nil_iff.2 fun r inside => ?_)
    have ack := List.any_eq_false.1 acksOnly r inside
    simp [ack]
  have split : (rs.drop i).take k ++ rs.drop (i + k) = rs.drop i := by
    rw [← List.drop_drop]
    exact List.take_append_drop k (rs.drop i)
  refine { h with log := log, behind := ?_, ahead := ?_ }
  · rw [List.take_add, ShardState.unloaded_append]
    exact List.append_eq_nil_iff.2 ⟨h.behind, none⟩
  · rw [← h.ahead, ← split, ShardState.unloaded_append, none]
    rfl

/-- The cursor passes over a chunk and its messages are loaded. -/
theorem chunk (h : Spilling queue now e rs i pushed ids onDisk) {k offset : Nat}
    (log : ∃ xs, DiskLayout { e with spillReadOffset := offset } xs (i + k) ∧
      e.disk.Named xs ∧ rs = xs.map fun x => x.2.stored)
    (early : now + hotDelayHorizonSec < 2 ^ 64) (targetQueue : String) :
    ∃ new left, onDisk = new ++ left ∧ Spilling queue now (pageInChunk now targetQueue
      { e with spillReadOffset := offset } ((rs.drop i).take k)).engine rs (i + k) pushed
        (ids ++ new) left := by
  have part : ∀ r ∈ (rs.drop i).take k, r ∈ rs := fun r inside =>
    List.mem_of_mem_drop (List.mem_of_mem_take inside)
  have split : rs.drop i = (rs.drop i).take k ++ rs.drop (i + k) := by
    rw [← List.drop_drop]
    exact (List.take_append_drop k (rs.drop i)).symm
  have upTo : rs.take (i + k) = rs.take i ++ (rs.drop i).take k := List.take_add
  generalize (rs.drop i).take k = records at part split upTo
  have all : (e.shards (shardIdx queue)).unloaded records ++
      (e.shards (shardIdx queue)).unloaded (rs.drop (i + k)) = onDisk := by
    rw [← ShardState.unloaded_append, ← split, h.ahead]
  have once := h.once
  rw [← all] at once
  obtain ⟨once, left, apart⟩ := List.nodup_append.1 once
  have loads := h.flow.loadAll (fun r inside => h.meets r (part r inside)) early once e.options
  obtain ⟨disk, cursor, _⟩ := disk_pageInChunk now targetQueue
    { e with spillReadOffset := offset } records
  have shards := shards_pageInChunk now targetQueue { e with spillReadOffset := offset } records
  have every : (pageInChunk now targetQueue
      { e with spillReadOffset := offset } records).engine.Every fun _ msg =>
        msg.queue = queue ∧ msg.payload.length < 2 ^ 32 := by
    have start : ({ e with spillReadOffset := offset } : QueueEngine).Every fun _ msg =>
        msg.queue = queue ∧ msg.payload.length < 2 ^ 32 := h.every
    refine start.pageInChunk (fun id name visibleAt payload inside => ?_) targetQueue
    obtain ⟨xs, layout, named, rfl⟩ := log
    have filed := layout.loadsOnly named id name visibleAt payload (part _ inside) 0
    exact ⟨(h.meets _ (part _ inside)).1, filed.2⟩
  generalize (pageInChunk now targetQueue
    { e with spillReadOffset := offset } records).engine = e' at disk cursor shards every ⊢
  have here : e'.shards (shardIdx queue) =
      (e.shards (shardIdx queue)).loadAll e.options now records := by
    rw [shards]
    refine congrArg _ (List.filter_eq_self.2 fun r inside => ?_)
    rw [h.mine r (part r inside)]
    exact decide_eq_true rfl
  have there : ∀ s, s ≠ shardIdx queue → e'.shards s = e.shards s := by
    intro s other
    have none : shardRecords records s = [] := List.filter_eq_nil_iff.2 fun r inside => by
      rw [h.mine r (part r inside), decide_eq_true_eq]
      exact other.symm
    rw [shards, none]
    rfl
  rw [← here] at loads
  refine ⟨_, _, all.symm, {
    log := ?_
    only := disk ▸ h.only
    every := every
    placed := fun s id inside => ?_
    flow := loads.flow
    mine := h.mine
    meets := fun r inside => (h.meets r inside).congr (fun id has => (loads.has id).2 (Or.inr has))
      (fun id acked => loads.acked.symm ▸ acked) fun id seen => loads.seen.symm ▸ seen
    known := fun id has => ?_
    seen := fun id seen => h.seen id (loads.seen ▸ seen)
    once := left
    behind := ?_
    ahead := ?_ }⟩
  · obtain ⟨xs, layout, named, eq⟩ := log
    exact ⟨xs, layout.congr disk cursor, by rw [disk]; exact named, eq⟩
  · by_contra other
    rw [there s other] at inside
    exact other (h.placed s id inside)
  · rw [loads.seen]
    refine ((loads.has id).1 has).elim (fun new => (h.waits ?_).1) (h.known id)
    rw [← all]
    exact List.mem_append_left _ new
  · refine ShardState.unloaded_of_has (e.shards (shardIdx queue)) (fun id waits => ?_)
      fun id old => (loads.has id).2 (Or.inr old)
    rw [upTo, ShardState.unloaded_append, h.behind] at waits
    exact (loads.has id).2 (Or.inl waits)
  · exact ShardState.unloaded_congr (fun id waits now => ((loads.has id).1 now).elim
      (fun new => apart id new id waits rfl) (ShardState.not_has_of_unloaded waits))
      fun id old => (loads.has id).2 (Or.inr old)

/-- The cursor goes back to the start of the log. -/
theorem rewind (h : Spilling queue now e rs i pushed ids onDisk) :
    Spilling queue now { e with spillReadOffset := 0 } rs 0 pushed ids onDisk := by
  obtain ⟨xs, layout, named, eq⟩ := h.log
  exact { h with log := ⟨xs, layout.rewind, named, eq⟩, behind := rfl, ahead := h.unloaded }

/-- One turn of the page-in loop moves a front of what is on disk to the end of the line. -/
theorem pageInStep (h : Spilling queue now e rs i pushed ids onDisk)
    (early : now + hotDelayHorizonSec < 2 ^ 64) (env : Env) (targetQueue : String)
    (fetchLimit : Nat) (flushed : Bool) :
    ∃ j new left, onDisk = new ++ left ∧
      Spilling queue now (QueueEngine.pageInStep env now targetQueue fetchLimit e flushed).1 rs j
        pushed (ids ++ new) left := by
  obtain ⟨xs, layout, named, eq⟩ := h.log
  rcases pageInStep_cases layout env now targetQueue fetchLimit flushed with
    ⟨k, records, inside, read, ⟨_, step⟩ | ⟨acksOnly, step⟩⟩ | same | rewound
  · rw [named.map_readBack, ← eq] at read
    rw [step, read]
    exact ⟨i + k, h.chunk ⟨xs, layout.move inside, named, eq⟩ early targetQueue⟩
  · rw [named.map_readBack, ← eq] at read
    rw [read] at acksOnly
    rw [step]
    refine ⟨i + k, [], onDisk, rfl, ?_⟩
    rw [List.append_nil]
    exact h.pass ⟨xs, layout.move inside, named, eq⟩ acksOnly
  · rw [same]
    exact ⟨i, [], onDisk, rfl, by rwa [List.append_nil]⟩
  · rw [rewound]
    exact ⟨0, [], onDisk, rfl, by rw [List.append_nil]; exact h.rewind⟩

theorem prefetch (h : Spilling queue now e rs i pushed ids onDisk)
    (early : now + hotDelayHorizonSec < 2 ^ 64) (env : Env) (maxMessages : Nat) :
    ∃ j new left, onDisk = new ++ left ∧
      Spilling queue now (e.prefetch env queue now maxMessages) rs j pushed (ids ++ new) left := by
  refine prefetch_induction (P := fun e' => ∃ j new left, onDisk = new ++ left ∧
    Spilling queue now e' rs j pushed (ids ++ new) left) ?_
    ⟨i, [], onDisk, rfl, by rwa [List.append_nil]⟩ maxMessages
  rintro fetchLimit e' flushed ⟨j, new, left, rfl, before⟩
  obtain ⟨j', more, left', rfl, after⟩ := before.pageInStep early env queue fetchLimit flushed
  refine ⟨j', new ++ more, left', (List.append_assoc _ _ _).symm, ?_⟩
  rw [← List.append_assoc]
  exact after

/-- The sweep of a poll that finds no lease expired. -/
theorem routed (h : Spilling queue now e rs i pushed ids onDisk)
    (unexpired : e.Unexpired queue now) :
    Spilling queue now (e.routed (shardIdx queue) now) rs i pushed ids onDisk := by
  obtain ⟨disk, cursor, _⟩ := disk_routeExpired_foldl now (e.collectExpired (shardIdx queue) now).1
    (e.collectExpired (shardIdx queue) now).2
  have line : ((e.routed (shardIdx queue) now).shards (shardIdx queue)).Line queue ids := by
    rw [unexpired.routed]
    simp only [QueueEngine.collectExpired, shards_setShard]
    exact h.flow.toLine.collectExpired unexpired
  exact h.kept disk cursor unexpired.kept line

/-- A poll returns the front of what is ready and of what page-in adds to it. -/
theorem poll (h : Spilling queue now e rs i pushed ids onDisk)
    (early : now + hotDelayHorizonSec < 2 ^ 64) (unexpired : e.Unexpired queue now) (env : Env)
    (visibilitySec maxMessages : Nat) :
    let polled := e.poll env now queue visibilitySec maxMessages
    ∃ j ids' onDisk', ids ++ onDisk = polled.2.map (·.id) ++ ids' ++ onDisk' ∧
      Spilling queue now polled.1 rs j pushed ids' onDisk' := by
  intro polled
  obtain ⟨j, new, left, rfl, ready⟩ := (h.routed unexpired).prefetch early env maxMessages
  have claimed : polled = ((e.routed (shardIdx queue) now).prefetch env queue now
      maxMessages).claimSection env queue now (e.visibility visibilitySec) maxMessages :=
    poll_eq env _ _ _ _ _
  obtain ⟨front, line⟩ := ready.flow.toLine.claimSection env now (e.visibility visibilitySec)
    maxMessages
  obtain ⟨disk, cursor⟩ := disk_claimSection env ((e.routed (shardIdx queue) now).prefetch env
    queue now maxMessages) queue now (e.visibility visibilitySec) maxMessages
  refine ⟨j, (ids ++ new).drop maxMessages, left, ?_, ?_⟩
  · rw [claimed, front, List.take_append_drop, List.append_assoc]
  · rw [claimed]
    exact ready.kept disk cursor (kept_claimSection env _ queue now _ maxMessages) line

/-! ### Sections that append a record -/

/-- A section of the shard and the append that goes with it. -/
theorem append (h : Spilling queue now e rs i pushed ids onDisk) {r : WalRecord} {st : ShardState}
    (shards : e'.shards = (e.setShard (shardIdx queue) st).shards)
    (disk : e'.disk = e.disk.append r) (cursor : e'.spillReadOffset = e.spillReadOffset)
    (fits : r.Fits) (mine : r.queueName = queue)
    (has : ∀ id, (e.shards (shardIdx queue)).Has id → st.Has id)
    (acked : ∀ id ∈ (e.shards (shardIdx queue)).ackedIds, id ∈ st.ackedIds)
    (grows : ∀ id ∈ (e.shards (shardIdx queue)).seenIds, id ∈ st.seenIds)
    (every : st.Every fun _ msg => msg.queue = queue ∧ msg.payload.length < 2 ^ 32)
    {pushed' ids' onDisk' : List Ulid} (flow : st.Flow queue ids')
    (meets : st.Meets queue now r.stored) (known : ∀ id, st.Has id → id ∈ st.seenIds)
    (seen : ∀ id ∈ st.seenIds, id ∈ pushed') (once : onDisk'.Nodup)
    (ahead : st.unloaded (rs.drop i) ++ st.unloaded [r.stored] = onDisk') :
    Spilling queue now e' (rs ++ [r.stored]) i pushed' ids' onDisk' := by
  have here : e'.shards (shardIdx queue) = st := by rw [shards, shards_setShard]
  have only : e'.disk.registry.Only queue := by
    rw [disk, DiskLog.registry_append, mine]
    exact h.only.getOrRegister
  have few : (e.disk.append r).registry.idToName.length ≤ 65536 := by
    have few := only.few
    rw [disk] at few
    omega
  obtain ⟨xs, layout, named, rfl⟩ := h.log
  have inside : i ≤ (xs.map fun x => x.2.stored).length := by
    rw [List.length_map]
    exact layout.inside
  refine {
    log := ⟨_, layout.append fits disk cursor, disk ▸ named.append few, by simp [DiskLog.newEntry]⟩
    only := only
    every := (h.every.setShard every).congr shards
    placed := fun s id stored => ?_
    flow := here ▸ flow
    mine := fun r' later => ?_
    meets := fun r' later => ?_
    known := here ▸ known
    seen := here ▸ seen
    once := once
    behind := ?_
    ahead := ?_ }
  · by_contra other
    rw [shards, shards_setShard_of_ne other] at stored
    exact other (h.placed s id stored)
  · rcases List.mem_append.1 later with old | new
    · exact h.mine r' old
    · rw [List.mem_singleton.1 new, WalRecord.queueName_stored, mine]
  · rw [here]
    rcases List.mem_append.1 later with old | new
    · exact (h.meets r' old).congr has acked grows
    · rw [List.mem_singleton.1 new]
      exact meets
  · rw [here, List.take_append_of_le_length inside]
    refine ShardState.unloaded_of_has (e.shards (shardIdx queue)) (fun id waits => ?_) has
    rw [h.behind] at waits
    cases waits
  · rw [here, List.drop_append_of_le_length inside, ShardState.unloaded_append]
    exact ahead

/-- An ack that is accepted. -/
theorem accept (h : Spilling queue now e rs i pushed ids onDisk) {receipt : String} {id : Ulid}
    {done : ShardState × Bool}
    (valid : (e.shards (shardIdx queue)).ackLease queue id receipt = some done)
    (shards : e'.shards = (e.setShard (shardIdx queue) done.1).shards)
    (disk : e'.disk = e.disk.append (.ack id queue))
    (cursor : e'.spillReadOffset = e.spillReadOffset) :
    Spilling queue now e' (rs ++ [.ack id queue]) i pushed ids onDisk := by
  obtain ⟨flow, has⟩ := h.flow.accept valid
  obtain ⟨_, acked⟩ := ShardState.ackLease_messages valid
  have seen := ShardState.ackLease_seenIds valid
  refine h.append (r := .ack id queue) shards disk cursor trivial rfl (fun id' => (has id').2)
    (fun id' old => acked ▸ Finset.mem_insert_of_mem old) (fun id' old => seen ▸ old)
    ((h.every _).ackLease valid) flow ?_ (fun id' has' => seen ▸ h.known id' ((has id').1 has'))
    (fun id' old => h.seen id' (seen ▸ old)) h.once ?_
  · show id ∈ done.1.ackedIds
    rw [acked]
    exact Finset.mem_insert_self _ _
  · rw [ShardState.unloaded_eq has, h.ahead, WalRecord.stored, ShardState.unloaded_ack]
    exact List.append_nil _

section Push

variable {id : Ulid} {payload : List UInt8}

/-- A push that finds RAM full. -/
theorem spill (h : Spilling queue now e rs i pushed ids onDisk) (late : epoch2020Sec ≤ now)
    (small : payload.length < 2 ^ 32) (unseen : id ∉ (e.shards (shardIdx queue)).seenIds)
    (shards : e'.shards = (e.setShard (shardIdx queue) { e.shards (shardIdx queue) with
      seenIds := insert id (e.shards (shardIdx queue)).seenIds }).shards)
    (disk : e'.disk = e.disk.append (.push id queue now payload))
    (cursor : e'.spillReadOffset = e.spillReadOffset) :
    Spilling queue now e' (rs ++ [.push id queue (storedTime now) payload]) i (pushed ++ [id]) ids
      (onDisk ++ [id]) := by
  have absent : ¬ (e.shards (shardIdx queue)).Has id := fun has => unseen (h.known id has)
  refine h.append (r := .push id queue now payload) shards disk cursor small rfl (fun _ old => old)
    (fun _ old => old) (fun _ old => Finset.mem_insert_of_mem old) (h.every _)
    ⟨h.flow.toLine.congr rfl (fun _ _ old => old) fun _ _ old => old, h.flow.held, h.flow.gone⟩
    ⟨rfl, Or.inr ⟨Finset.mem_insert_self _ _, storedTime_le le_rfl late⟩⟩
    (fun id' has => Finset.mem_insert_of_mem (h.known id' has)) (fun id' member => ?_) ?_ ?_
  · rcases Finset.mem_insert.1 member with rfl | old
    · exact List.mem_append_right _ (List.mem_singleton_self _)
    · exact List.mem_append_left _ (h.seen id' old)
  · refine List.nodup_append.2 ⟨h.once, List.nodup_singleton _, fun a old b last same => unseen ?_⟩
    rw [← List.mem_singleton.1 last, ← same]
    exact (h.waits old).1
  · show (e.shards (shardIdx queue)).unloaded (rs.drop i) ++
      (e.shards (shardIdx queue)).unloaded [.push id queue (storedTime now) payload] = _
    rw [ShardState.unloaded_push, if_neg absent, h.ahead]
    rfl

/-- A push that enters RAM while nothing is on disk only. -/
theorem enter (h : Spilling queue now e rs i pushed ids []) (msg : StoredMsg)
    (mine : msg.queue = queue) (due : msg.visibleAt = now) (small : msg.payload.length < 2 ^ 32)
    (unseen : msg.id ∉ (e.shards (shardIdx queue)).seenIds)
    (shards : e'.shards = (e.setShard (shardIdx queue)
      ((e.shards (shardIdx queue)).enter now msg)).shards)
    (disk : e'.disk = e.disk.append (.push msg.id queue now msg.payload))
    (cursor : e'.spillReadOffset = e.spillReadOffset) :
    Spilling queue now e' (rs ++ [.push msg.id queue (storedTime now) msg.payload]) i
      (pushed ++ [msg.id]) (ids ++ [msg.id]) [] := by
  subst mine
  have absent : ¬ (e.shards (shardIdx msg.queue)).Has msg.id := fun has => unseen (h.known _ has)
  have has : ∀ id, (e.shards (shardIdx msg.queue)).Has id →
      ((e.shards (shardIdx msg.queue)).enter now msg).Has id := fun id old =>
    ShardState.has_enter.2 (Or.inr old)
  have every : ((e.shards (shardIdx msg.queue)).enter now msg).Every fun _ msg' =>
      msg'.queue = msg.queue ∧ msg'.payload.length < 2 ^ 32 := by
    have seen : ({ e.shards (shardIdx msg.queue) with
        seenIds := insert msg.id (e.shards (shardIdx msg.queue)).seenIds } : ShardState).Every
          fun _ msg' => msg'.queue = msg.queue ∧ msg'.payload.length < 2 ^ 32 := h.every _
    exact seen.store now ⟨rfl, small⟩
  refine h.append (r := .push msg.id msg.queue now msg.payload) shards disk cursor small rfl has
    (fun _ old => old) (fun _ old => Finset.mem_insert_of_mem old) every
    (h.flow.enter due.le absent) ⟨rfl, Or.inl (ShardState.has_enter.2 (Or.inl rfl))⟩
    (fun id' has' => ?_) (fun id' member => ?_) List.nodup_nil ?_
  · rcases ShardState.has_enter.1 has' with rfl | old
    · exact Finset.mem_insert_self _ _
    · exact Finset.mem_insert_of_mem (h.known id' old)
  · rcases Finset.mem_insert.1 member with rfl | old
    · exact List.mem_append_right _ (List.mem_singleton_self _)
    · exact List.mem_append_left _ (h.seen id' old)
  · rw [WalRecord.stored, ShardState.unloaded_push, if_pos (ShardState.has_enter.2 (Or.inl rfl))]
    refine List.append_eq_nil_iff.2 ⟨ShardState.unloaded_of_has
      (e.shards (shardIdx msg.queue)) (fun id' waits => ?_) has, rfl⟩
    rw [h.ahead] at waits
    cases waits

end Push

/-! ### Compaction -/

/-- A compaction runs with page-in at the end of the log, when nothing is on disk only. -/
theorem checkAndTriggerCompaction (h : Spilling queue now e rs i pushed ids onDisk) (env : Env) :
    ∃ rs' j, Spilling queue now (e.checkAndTriggerCompaction env) rs' j pushed ids onDisk := by
  unfold QueueEngine.checkAndTriggerCompaction
  split
  · rename_i compacts
    have atEof : e.isSpillAtEof = true := (Bool.and_eq_true_iff.1 compacts).1
    obtain ⟨xs, layout, named, eq⟩ := h.log
    have empty : onDisk = [] := by
      have behind : rs.length ≤ i := by
        rw [eq, List.length_map]
        exact layout.length_le_of_atEof atEof
      rw [← h.ahead, List.drop_of_length_le behind]
      rfl
    have stored : ∀ survivor ∈ e.surviving env, survivor.1 ∈ (e.shards (shardIdx queue)).messages ∧
        survivor.2.1 = queue ∧ survivor.2.2.2.length < 2 ^ 32 := by
      intro survivor survives
      obtain ⟨s, msg, found, same⟩ := mem_surviving.1 survives
      have inside := FMap.mem_of_lookup found
      rw [same]
      exact ⟨h.placed s _ inside ▸ inside, h.every s _ _ found⟩
    obtain ⟨ys, records, layout', named'⟩ := layout.compact env fun survivor survives =>
      (stored survivor survives).2.2
    have only : (e.disk.performFlipFlopCompaction (e.surviving env)).registry.Only queue := by
      rw [DiskLog.performFlipFlopCompaction_eq, DiskLog.registry_truncateInactive]
      refine DiskLog.only_appendAll (d := e.disk.flip) h.only fun r inside => ?_
      obtain ⟨survivor, survives, rfl⟩ := List.mem_map.1 inside
      exact (stored survivor survives).2.1
    have kept : ∀ r ∈ e.survivors env, ∃ id visibleAt payload,
        r = .push id queue visibleAt payload ∧ (e.shards (shardIdx queue)).Has id := by
      intro r inside
      obtain ⟨survivor, survives, rfl⟩ := List.mem_map.1 inside
      obtain ⟨held, name, _⟩ := stored survivor survives
      exact ⟨survivor.1, _, _, by rw [← name]; rfl, Or.inl held⟩
    refine ⟨e.survivors env, 0, { h with
      log := ⟨ys, layout', named' named (only.few.trans (by norm_num)), ?_⟩
      only := only
      mine := fun r inside => ?_
      meets := fun r inside => ?_
      behind := rfl
      ahead := ?_ }⟩
    · have same := congrArg (List.map WalRecord.stored) records
      simp only [List.map_map] at same
      exact same.symm
    · obtain ⟨id, visibleAt, payload, rfl, _⟩ := kept r inside
      rfl
    · obtain ⟨id, visibleAt, payload, rfl, has⟩ := kept r inside
      exact ⟨rfl, Or.inl has⟩
    · rw [empty]
      refine List.map_eq_nil_iff.2 (List.filter_eq_nil_iff.2 fun r inside => ?_)
      obtain ⟨id, visibleAt, payload, rfl, has⟩ := kept r inside
      simp only [decide_eq_true_eq, not_and, not_not]
      exact fun _ => has
  · exact ⟨rs, i, h⟩

/-! ### Operations -/

variable {id : Ulid} {payload : List UInt8} {ram cap : Nat}

/-- A push goes to the end of the line or, when RAM is full, to the end of the log; it may not
go to the line while something is on disk only. -/
theorem place (h : Spilling queue now e rs i pushed ids onDisk) (late : epoch2020Sec ≤ now)
    (small : payload.length < 2 ^ 32) (unseen : id ∉ (e.shards (shardIdx queue)).seenIds)
    (disk : e'.disk = e.disk.append (.push id queue now payload))
    (cursor : e'.spillReadOffset = e.spillReadOffset) (maxDelivery : Nat)
    (shards : (ram < cap ∧ e'.shards = (e.setShard (shardIdx queue)
        ((e.shards (shardIdx queue)).enter now
          ⟨id, queue, payload, now, 0, maxDelivery⟩)).shards) ∨
      (cap ≤ ram ∧ e'.shards = (e.setShard (shardIdx queue) { e.shards (shardIdx queue) with
        seenIds := insert id (e.shards (shardIdx queue)).seenIds }).shards))
    (order : onDisk = [] ∨ cap ≤ ram) :
    ∃ ids' onDisk', ids' ++ onDisk' = ids ++ onDisk ++ [id] ∧ (onDisk' = [] ∨ cap ≤ ram) ∧
      Spilling queue now e' (rs ++ [.push id queue (storedTime now) payload]) i (pushed ++ [id])
        ids' onDisk' := by
  rcases shards with ⟨room, entered⟩ | ⟨full, spilled⟩
  · obtain rfl : onDisk = [] := order.resolve_right (by omega)
    refine ⟨ids ++ [id], [], by simp, Or.inl rfl, ?_⟩
    exact h.enter ⟨id, queue, payload, now, 0, maxDelivery⟩ rfl rfl small unseen entered disk cursor
  · exact ⟨ids, onDisk ++ [id], (List.append_assoc _ _ _).symm, Or.inr full,
      h.spill late small unseen spilled disk cursor⟩

theorem pushUnchecked (h : Spilling queue now e rs i pushed ids onDisk)
    (late : epoch2020Sec ≤ now) (early : now + hotDelayHorizonSec < 2 ^ 64)
    (small : payload.length < 2 ^ 32) (unseen : id ∉ (e.shards (shardIdx queue)).seenIds)
    (order : onDisk = [] ∨ e.options.maxHotMessagesInRam ≤ e.totalMessagesInRam) :
    ∃ ids' onDisk', ids' ++ onDisk' = ids ++ onDisk ++ [id] ∧
      Spilling queue now (e.pushUnchecked now queue id payload 0).1
        (rs ++ [.push id queue (storedTime now) payload]) i (pushed ++ [id]) ids' onDisk' := by
  have due : addU64 now 0 = now := addU64_of_lt (by omega)
  have soon : now ≤ addU64 now hotDelayHorizonSec := by
    rw [addU64_of_lt early]
    exact Nat.le_add_right _ _
  have absent : id ∉ (e.shards (shardIdx queue)).messages := fun inside =>
    unseen (h.known id (Or.inl inside))
  obtain ⟨disk, cursor⟩ := disk_pushUnchecked e now queue id payload 0
  rw [due] at disk
  have shards : (e.totalMessagesInRam < e.options.maxHotMessagesInRam ∧
        (e.pushUnchecked now queue id payload 0).1.shards = (e.setShard (shardIdx queue)
          ((e.shards (shardIdx queue)).enter now
            ⟨id, queue, payload, now, 0, e.options.maxDeliveryCount⟩)).shards) ∨
      (e.options.maxHotMessagesInRam ≤ e.totalMessagesInRam ∧
        (e.pushUnchecked now queue id payload 0).1.shards =
          (e.setShard (shardIdx queue) { e.shards (shardIdx queue) with
            seenIds := insert id (e.shards (shardIdx queue)).seenIds }).shards) := by
    unfold QueueEngine.pushUnchecked pushSection
    dsimp only
    rw [if_neg unseen, due]
    by_cases room : e.totalMessagesInRam < e.options.maxHotMessagesInRam
    · rw [if_pos ⟨soon, room, absent⟩]
      exact Or.inl ⟨room, rfl⟩
    · rw [if_neg fun enters => room enters.2.1]
      exact Or.inr ⟨not_lt.1 room, rfl⟩
  obtain ⟨ids', onDisk', all, _, after⟩ := h.place late small unseen disk cursor
    e.options.maxDeliveryCount shards order
  exact ⟨ids', onDisk', all, after⟩

/-- One item of a batch.  The count of a batch only grows, so once an item is spilled the rest
of the batch is. -/
theorem pushBatchItem {acc : PushBatch} {item : PushItem}
    (h : Spilling queue now acc.engine rs i pushed ids onDisk)
    (late : epoch2020Sec ≤ now) (early : now + hotDelayHorizonSec < 2 ^ 64)
    (small : item.payload.length < 2 ^ 32) (undelayed : item.delaySeconds = 0)
    (new : (drawId env acc.engine.draws item.id).1 ∉ pushed)
    (order : onDisk = [] ∨ acc.engine.options.maxHotMessagesInRam ≤ acc.curRam) :
    let done := QueueEngine.pushBatchItem env now queue acc item
    ∃ rs' ids' onDisk',
      ids' ++ onDisk' = ids ++ onDisk ++ [(drawId env acc.engine.draws item.id).1] ∧
      (onDisk' = [] ∨ done.engine.options.maxHotMessagesInRam ≤ done.curRam) ∧
      Spilling queue now done.engine rs' i (pushed ++ [(drawId env acc.engine.draws item.id).1])
        ids' onDisk' := by
  intro done
  generalize drawn : drawId env acc.engine.draws item.id = draw at new ⊢
  have unseen : draw.1 ∉ (acc.engine.shards (shardIdx queue)).seenIds := fun seen =>
    new (h.seen _ seen)
  have due : addU64 now item.delaySeconds = now := by
    rw [undelayed]
    exact addU64_of_lt (by omega)
  have soon : now ≤ addU64 now hotDelayHorizonSec := by
    rw [addU64_of_lt early]
    exact Nat.le_add_right _ _
  have absent : draw.1 ∉ (acc.engine.shards (shardIdx queue)).messages := fun inside =>
    unseen (h.known _ (Or.inl inside))
  have eq : done = pushBatchNew now queue { acc with
      engine := { acc.engine with draws := draw.2 }
      ids := acc.ids ++ [draw.1] } draw.1 item := by
    rw [← drawn] at unseen ⊢
    exact if_neg unseen
  obtain ⟨disk, cursor⟩ := disk_pushBatchNew now queue { acc with
      engine := { acc.engine with draws := draw.2 }
      ids := acc.ids ++ [draw.1] } draw.1 item
  rw [← eq] at disk cursor
  rw [due] at disk
  unfold pushBatchNew at eq
  dsimp only at eq
  rw [due] at eq
  by_cases room : acc.curRam < acc.engine.options.maxHotMessagesInRam
  · rw [if_pos ⟨soon, room, absent⟩] at eq
    obtain ⟨ids', onDisk', all, order', after⟩ := h.place late small unseen disk cursor
      acc.engine.options.maxDeliveryCount
      (Or.inl ⟨room, congrArg (fun acc : PushBatch => acc.engine.shards) eq⟩) order
    refine ⟨_, ids', onDisk', all, order'.imp_right fun full => ?_, after⟩
    rw [eq]
    exact full.trans (Nat.le_succ _)
  · rw [if_neg fun enters => room enters.2.1] at eq
    obtain ⟨ids', onDisk', all, order', after⟩ := h.place late small unseen disk cursor
      acc.engine.options.maxDeliveryCount
      (Or.inr ⟨not_lt.1 room, congrArg (fun acc : PushBatch => acc.engine.shards) eq⟩) order
    refine ⟨_, ids', onDisk', all, order'.imp_right fun full => ?_, after⟩
    rw [eq]
    exact full

/-- The loop of a batch. -/
theorem pushBatchLoop {acc : PushBatch} {items : List PushItem}
    (h : Spilling queue now acc.engine rs i pushed ids onDisk)
    (late : epoch2020Sec ≤ now) (early : now + hotDelayHorizonSec < 2 ^ 64)
    (small : ∀ item ∈ items, item.payload.length < 2 ^ 32)
    (undelayed : ∀ item ∈ items, item.delaySeconds = 0)
    (distinct : (pushed ++ (pushBatchAsked env now queue acc items).map (·.1)).Nodup)
    (order : onDisk = [] ∨ acc.engine.options.maxHotMessagesInRam ≤ acc.curRam) :
    ∃ rs' ids' onDisk', ids' ++ onDisk' =
        ids ++ onDisk ++ (pushBatchAsked env now queue acc items).map (·.1) ∧
      Spilling queue now (items.foldl (QueueEngine.pushBatchItem env now queue) acc).engine rs' i
        (pushed ++ (pushBatchAsked env now queue acc items).map (·.1)) ids' onDisk' := by
  induction items generalizing acc rs pushed ids onDisk with
  | nil =>
      simp only [pushBatchAsked, List.map_nil, List.append_nil]
      exact ⟨rs, ids, onDisk, rfl, h⟩
  | cons item items ih =>
      have cut : ∀ before : List Ulid,
          before ++ (pushBatchAsked env now queue acc (item :: items)).map (·.1) =
          before ++ [(drawId env acc.engine.draws item.id).1] ++ (pushBatchAsked env now queue
            (QueueEngine.pushBatchItem env now queue acc item) items).map (·.1) := fun before => by
        simp [pushBatchAsked]
      rw [cut] at distinct
      have new : (drawId env acc.engine.draws item.id).1 ∉ pushed := fun old =>
        (List.nodup_append.1 (List.nodup_append.1 distinct).1).2.2 _ old _
          (List.mem_singleton_self _) rfl
      obtain ⟨rs', ids', onDisk', all, order', first⟩ := h.pushBatchItem late early
        (small item List.mem_cons_self) (undelayed item List.mem_cons_self) new order
      obtain ⟨rs'', ids'', onDisk'', all', rest⟩ := ih first
        (fun item' later => small item' (.tail _ later))
        (fun item' later => undelayed item' (.tail _ later)) distinct order'
      refine ⟨rs'', ids'', onDisk'', ?_, ?_⟩
      · rw [all', all, cut]
      · rw [cut]
        exact rest

theorem ackUnchecked (h : Spilling queue now e rs i pushed ids onDisk) {receipt : String}
    {done : QueueEngine} (success : e.ackUnchecked queue id receipt = some done) :
    Spilling queue now done (rs ++ [.ack id queue]) i pushed ids onDisk := by
  unfold QueueEngine.ackUnchecked at success
  split at success
  · cases success
  · rename_i st wasLive valid
    cases success
    exact h.accept valid rfl rfl rfl

theorem ack (h : Spilling queue now e rs i pushed ids onDisk) (env : Env)
    (messageId receipt : String) :
    ∃ rs' j, Spilling queue now (e.ack env queue messageId receipt).1 rs' j pushed ids onDisk := by
  unfold QueueEngine.ack
  split
  · exact ⟨rs, i, h⟩
  · rename_i done success
    obtain ⟨id, _, success⟩ := Option.bind_eq_some_iff.1 success
    exact (h.ackUnchecked success).checkAndTriggerCompaction env

theorem ackBatch (h : Spilling queue now e rs i pushed ids onDisk) (env : Env)
    (items : List (String × String)) :
    ∃ rs' j, Spilling queue now (e.ackBatch env queue items).1 rs' j pushed ids onDisk := by
  have loop : ∃ rs', Spilling queue now (ackBatchLoop env e queue items).engine rs' i pushed ids
      onDisk := by
    refine List.foldlRecOn (motive := fun acc : AckBatch =>
      ∃ rs', Spilling queue now acc.engine rs' i pushed ids onDisk) _ _ ⟨rs, h⟩ ?_
    rintro acc ⟨rs', before⟩ item _
    cases valid : (acc.engine.shards (shardIdx queue)).ackLease queue item.1 item.2 with
    | none =>
        rw [ackBatchItem_of_invalid valid]
        exact ⟨rs', before⟩
    | some done =>
        obtain ⟨shards, disk, cursor, _⟩ := ackBatchItem_of_valid valid
        exact ⟨_, before.accept valid shards disk cursor⟩
  obtain ⟨rs', after⟩ := loop
  obtain ⟨disk, cursor, shards⟩ := disk_ackBatchUnchecked env e queue items
  exact (after.congr shards disk cursor).checkAndTriggerCompaction env

end Spilling

/-! ## Runs -/

/-- The operation names no other queue. -/
def Op.On (queue : String) : Op → Prop
  | .push other .. | .pushBatch other _ | .poll other .. | .ack other .. | .ackBatch other _ =>
      other = queue
  | .advance _ => True

instance (queue : String) : (op : Op) → Decidable (op.On queue)
  | .push other .. | .pushBatch other _ | .poll other .. | .ack other .. | .ackBatch other _ =>
      inferInstanceAs (Decidable (other = queue))
  | .advance _ => inferInstanceAs (Decidable True)

/-- A push does not enter RAM while a message of its shard is on disk only: there is none, or
RAM is full. -/
def World.KeepsOrder (w : World) : Op → Prop
  | .push queue .. | .pushBatch queue _ =>
      (∀ id ∈ (w.engine.shards (shardIdx queue)).seenIds,
        (w.engine.shards (shardIdx queue)).Has id) ∨
      w.engine.options.maxHotMessagesInRam ≤ w.engine.totalMessagesInRam
  | _ => True

instance (w : World) : (op : Op) → Decidable (w.KeepsOrder op)
  | .push .. | .pushBatch .. => @instDecidableOr _ _ Finset.decidableDforallFinset inferInstance
  | .poll .. | .ack .. | .ackBatch .. | .advance _ => inferInstanceAs (Decidable True)

/-- What is asked of an operation on a queue that may spill. -/
structure MaySpill (queue : String) (w : World) (op : Op) : Prop where
  mine : op.On queue
  undelayed : Undelayed queue op
  small : ∀ payload ∈ op.payloads, payload.length < 2 ^ 32
  late : epoch2020Sec ≤ w.clock
  early : w.clock + hotDelayHorizonSec < 2 ^ 64
  unexpired : w.Unexpired op
  order : w.KeepsOrder op

instance (queue : String) (w : World) (op : Op) : Decidable (MaySpill queue w op) :=
  decidable_of_iff (op.On queue ∧ Undelayed queue op ∧
      (∀ payload ∈ op.payloads, payload.length < 2 ^ 32) ∧ epoch2020Sec ≤ w.clock ∧
      w.clock + hotDelayHorizonSec < 2 ^ 64 ∧ w.Unexpired op ∧ w.KeepsOrder op)
    ⟨fun h => ⟨h.1, h.2.1, h.2.2.1, h.2.2.2.1, h.2.2.2.2.1, h.2.2.2.2.2.1, h.2.2.2.2.2.2⟩,
      fun h => ⟨h.mine, h.undelayed, h.small, h.late, h.early, h.unexpired, h.order⟩⟩

/-- What was returned, what is ready and what is on disk only is what was pushed. -/
def Sequenced (queue : String) (w : World) (pushed returned : List Ulid) : Prop :=
  ∃ rs i ids onDisk, Spilling queue w.clock w.engine rs i pushed ids onDisk ∧
    returned ++ ids ++ onDisk = pushed

section Run

variable {queue : String} {env : Env} {w : World} {op : Op} {pushed returned : List Ulid}

theorem Sequenced.fresh (env : Env) (opts : QueueOptions) (clock : Nat) :
    Sequenced queue (World.fresh env opts clock) [] [] := by
  refine ⟨[], 0, [], [], ?_, rfl⟩
  exact {
    log := ⟨[], .fresh env opts clock, ⟨fun name id found => (by cases found), rfl, by simp⟩, rfl⟩
    only := ⟨Nat.zero_le _, fun some => absurd rfl some⟩
    every := fun s id msg found => by cases found
    placed := fun s id inside => by cases inside
    flow := .new
    mine := fun r inside => by cases inside
    meets := fun r inside => by cases inside
    known := fun id has => has.elim (fun inside => by cases inside) fun acked => acked
    seen := fun id seen => absurd seen (Finset.notMem_empty _)
    once := List.nodup_nil
    behind := rfl
    ahead := rfl }

theorem Sequenced.step (h : Sequenced queue w pushed returned) (may : MaySpill queue w op)
    (distinct : (pushed ++ (w.asked env op).map (·.1)).Nodup) :
    Sequenced queue (w.step env op) (pushed ++ (w.asked env op).map (·.1))
      (returned ++ w.returnedFrom env queue op) := by
  obtain ⟨mine, undelayed, small, late, early, unexpired, order⟩ := may
  obtain ⟨rs, i, ids, onDisk, spilling, all⟩ := h
  have ordered : ∀ other, other = queue →
      ((∀ id ∈ (w.engine.shards (shardIdx other)).seenIds,
        (w.engine.shards (shardIdx other)).Has id) ∨
      w.engine.options.maxHotMessagesInRam ≤ w.engine.totalMessagesInRam) →
      onDisk = [] ∨ w.engine.options.maxHotMessagesInRam ≤ w.engine.totalMessagesInRam := by
    rintro other rfl order
    refine order.imp_left fun none => List.eq_nil_iff_forall_not_mem.2 fun id waits => ?_
    obtain ⟨seen, absent⟩ := spilling.waits waits
    exact absent (none id seen)
  cases op with
  | push other id payload delaySec =>
      obtain rfl : other = queue := mine
      obtain rfl : delaySec = 0 := undelayed rfl
      have new : id ∉ pushed := fun old =>
        (List.nodup_append.1 distinct).2.2 id old id (List.mem_singleton_self _) rfl
      have unseen : id ∉ (w.engine.shards (shardIdx other)).seenIds := fun seen =>
        new (spilling.seen id seen)
      obtain ⟨ids', onDisk', all', after⟩ := spilling.pushUnchecked late early
        (small payload (List.mem_singleton_self _)) unseen (ordered other rfl order)
      obtain ⟨rs', j, checked⟩ := after.checkAndTriggerCompaction env
      have eq : (w.step env (.push other id payload 0)).engine =
          (w.engine.pushUnchecked w.clock other id payload 0).1.checkAndTriggerCompaction env := by
        refine if_pos ?_
        unfold QueueEngine.pushUnchecked
        dsimp only
        rw [if_neg unseen]
      refine ⟨rs', j, ids', onDisk', eq ▸ checked, ?_⟩
      simp only [World.returnedFrom, List.append_nil]
      rw [List.append_assoc, all', ← all]
      simp [World.asked]
  | pushBatch other items =>
      obtain rfl : other = queue := mine
      have start : Spilling other w.clock
          (PushBatch.mk w.engine [] 0 w.engine.totalMessagesInRam).engine rs i pushed ids onDisk :=
        spilling
      obtain ⟨rs', ids', onDisk', all', after⟩ := start.pushBatchLoop late early
        (fun item inside => small _ (List.mem_map_of_mem inside)) (undelayed rfl) distinct
        (ordered other rfl order)
      have counted : Spilling other w.clock (w.engine.pushBatchUnchecked env w.clock other items)
          rs' i _ ids' onDisk' := after.congr rfl rfl rfl
      obtain ⟨rs'', j, checked⟩ := counted.checkAndTriggerCompaction env
      refine ⟨rs'', j, ids', onDisk', checked, ?_⟩
      simp only [World.returnedFrom, List.append_nil]
      rw [List.append_assoc, all', ← all]
      simp [World.asked]
  | poll other visibilitySec maxMessages =>
      obtain rfl : other = queue := mine
      obtain ⟨j, ids', onDisk', all', after⟩ := spilling.poll early unexpired env visibilitySec
        maxMessages
      simp only [World.asked, List.map_nil, List.append_nil, World.returnedFrom, if_pos]
      refine ⟨rs, j, ids', onDisk', after, ?_⟩
      rw [← all, List.append_assoc returned ids, all']
      simp
  | ack other messageId receipt =>
      obtain rfl : other = queue := mine
      obtain ⟨rs', j, after⟩ := spilling.ack env messageId receipt
      simp only [World.asked, List.map_nil, List.append_nil, World.returnedFrom]
      exact ⟨rs', j, ids, onDisk, after, all⟩
  | ackBatch other items =>
      obtain rfl : other = queue := mine
      obtain ⟨rs', j, after⟩ := spilling.ackBatch env items
      simp only [World.asked, List.map_nil, List.append_nil, World.returnedFrom]
      exact ⟨rs', j, ids, onDisk, after, all⟩
  | advance seconds =>
      simp only [World.asked, List.map_nil, List.append_nil, World.returnedFrom]
      exact ⟨rs, i, ids, onDisk, spilling.later (Nat.le_add_right _ _), all⟩

theorem World.sequenced_run {opts : QueueOptions} {clock : Nat} {ops : List Op}
    (run : Trace.Along (World.step env) (MaySpill queue) (World.fresh env opts clock) ops)
    (distinct : ((Trace.emitted (World.step env) (World.asked env) (World.fresh env opts clock)
      ops).map (·.1)).Nodup) :
    let start := World.fresh env opts clock
    Sequenced queue (start.run env ops)
      ((Trace.emitted (World.step env) (World.asked env) start ops).map (·.1))
      (Trace.emitted (World.step env) (World.returnedFrom env queue) start ops) := by
  intro start
  induction ops using List.reverseRecOn with
  | nil => exact .fresh env opts clock
  | append_singleton ops op ih =>
      obtain ⟨before, last⟩ := Trace.along_append.1 run
      rw [Trace.emitted_concat, List.map_append] at distinct
      rw [World.run_concat, Trace.emitted_concat, Trace.emitted_concat, List.map_append]
      exact (ih before (List.nodup_append.1 distinct).1).step last.1 distinct

/-- A queue that spills is first in, first out as long as no push enters RAM past a message on
disk: what its polls returned, in order, what is ready and what is on disk only is what was
pushed. -/
theorem World.spilled_fifo {opts : QueueOptions} {clock : Nat} {ops : List Op}
    (run : Trace.Along (World.step env) (MaySpill queue) (World.fresh env opts clock) ops)
    (distinct : ((Trace.emitted (World.step env) (World.asked env) (World.fresh env opts clock)
      ops).map (·.1)).Nodup) :
    let start := World.fresh env opts clock
    let pushed := (Trace.emitted (World.step env) (World.asked env) start ops).map (·.1)
    let returned := Trace.emitted (World.step env) (World.returnedFrom env queue) start ops
    let shard := (start.run env ops).engine.shards (shardIdx queue)
    returned <+: pushed ∧
    ∃ onDisk, returned ++ (shard.queueOf queue).ready ++ onDisk = pushed ∧
      ∀ id ∈ onDisk, ¬ shard.Has id := by
  intro start pushed returned shard
  obtain ⟨rs, i, ids, onDisk, spilling, all⟩ := World.sequenced_run run distinct
  refine ⟨⟨ids ++ onDisk, by rw [← List.append_assoc]; exact all⟩, onDisk, ?_, fun id waits =>
    (spilling.waits waits).2⟩
  rw [spilling.flow.lined.ready]
  exact all

end Run

/-! ## Runs that spill -/

/-- RAM for two messages, and a log that is compacted whenever page-in has read all of it. -/
def twoSlots : QueueOptions where
  defaultVisibilityTimeoutSec := 300
  maxDeliveryCount := 3
  maxHotMessagesInRam := 2
  maxWalSegmentSize := 64

/-- The second item of the batch and the next push are spilled; the first poll loads both, and a
compaction follows.  The acked message leaves RAM over its cap, so the last two pushes are
spilled as well, and the last poll loads one of them. -/
def spillingOps : List Op :=
  [.push "jobs" 1 [7] 0, .pushBatch "jobs" [⟨some 2, [8], 0⟩, ⟨none, [9], 0⟩],
    .push "jobs" 4 [6] 0, .poll "jobs" 30 2, .ackBatch "jobs" [],
    .ack "jobs" (ulidText 1) (ulidText (Env.sample.ulidNew 2)), .push "jobs" 5 [7] 0,
    .poll "jobs" 30 1, .push "jobs" 6 [7] 0]

theorem World.spilled_fifo_sample :
    let start := World.fresh .sample twoSlots 1600000000
    let shard := (start.run .sample spillingOps).engine.shards (shardIdx "jobs")
    Trace.Along (World.step .sample) (MaySpill "jobs") start spillingOps ∧
      Trace.emitted (World.step .sample) (World.returnedFrom .sample "jobs") start spillingOps =
        [1, 2, Env.sample.ulidNew 0] ∧
      (shard.queueOf "jobs").ready = [4, 5] ∧ ¬ shard.Has 6 := by
  intro start
  have run : Trace.Along (World.step .sample) (MaySpill "jobs") start spillingOps := by
    decide +kernel
  have pushed : (Trace.emitted (World.step .sample) (World.asked .sample) start
      spillingOps).map (·.1) = [1, 2, Env.sample.ulidNew 0] ++ [4, 5] ++ [6] := by decide +kernel
  have returned : Trace.emitted (World.step .sample) (World.returnedFrom .sample "jobs") start
      spillingOps = [1, 2, Env.sample.ulidNew 0] := by decide +kernel
  have ready : (((start.run .sample spillingOps).engine.shards (shardIdx "jobs")).queueOf
      "jobs").ready = [4, 5] := by decide +kernel
  have distinct : ((Trace.emitted (World.step .sample) (World.asked .sample) start
      spillingOps).map (·.1)).Nodup := by
    rw [pushed]
    decide
  obtain ⟨_, onDisk, all, absent⟩ := World.spilled_fifo run distinct
  rw [returned, pushed] at all
  generalize (start.run .sample spillingOps).engine.shards (shardIdx "jobs") = shard at *
  rw [ready] at all
  exact ⟨run, returned, ready, absent 6 (List.append_cancel_left all ▸ List.mem_singleton_self 6)⟩

/-- RAM for one message. -/
def oneSlot : QueueOptions := { twoSlots with maxHotMessagesInRam := 1, ramCap_lt := by decide }

/-- The third message is spilled; both acks come before the fourth push, which finds room. -/
def overtakingOps : List Op :=
  [.push "jobs" 1 [7] 0, .push "jobs" 2 [7] 0, .poll "jobs" 30 2, .push "jobs" 3 [7] 0,
    .ackBatch "jobs" [(ulidText 1, ulidText (Env.sample.ulidNew 1)),
      (ulidText 2, ulidText (Env.sample.ulidNew 2))],
    .push "jobs" 4 [7] 0, .poll "jobs" 30 2]

/-- The fourth message is returned before the third, although no lease expired. -/
theorem World.spilled_overtaken :
    let start := World.fresh .sample oneSlot 1600000000
    (∀ op ∈ overtakingOps, op.On "jobs" ∧ Undelayed "jobs" op) ∧
      Trace.Along (World.step .sample) World.Unexpired start overtakingOps ∧
      (Trace.emitted (World.step .sample) (World.asked .sample) start overtakingOps).map (·.1) =
        [1, 2, 3, 4] ∧
      Trace.emitted (World.step .sample) (World.returnedFrom .sample "jobs") start overtakingOps =
        [1, 2, 4, 3] := by
  decide +kernel

end WalrQueue
