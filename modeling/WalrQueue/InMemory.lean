import WalrQueue.RamAccounting
import WalrQueue.Replica
import WalrQueue.WrittenLog

/-!
# Runs that stay in memory

While the RAM cap is not reached, no push is delayed beyond the horizon and no lease
expires, every id that a shard has seen is in memory or acked.  A page-in then loads
nothing: it only sets tombstones of acked ids again.

`Quick` says what an operation does to the shards in such a run, which records it logs and
what it was asked to push: it keeps the messages, enters a new one, passes over or logs
again one that is known, or accepts an ack.
-/

namespace WalrQueue

open QueueEngine

/-! ## Shards -/

/-- What a delivery does not change of a message. -/
def StoredMsg.core (msg : StoredMsg) : String × List UInt8 := (msg.queue, msg.payload)

namespace ShardState

variable {st st' st'' : ShardState} {id : Ulid} {queue : String} {r : WalRecord}

/-- The same messages under the same ids, and no new lease but of a message. -/
structure Kept (st st' : ShardState) : Prop where
  messages : ∀ id, (AList.lookup id st'.messages).map StoredMsg.core =
    (AList.lookup id st.messages).map StoredMsg.core
  seen : st'.seenIds = st.seenIds
  acked : st'.ackedIds = st.ackedIds
  leases : ∀ id ∈ st'.wheel.indexById, id ∈ st.wheel.indexById ∨ id ∈ st.messages

theorem Kept.refl (st : ShardState) : st.Kept st := ⟨fun _ => rfl, rfl, rfl, fun _ => Or.inl⟩

theorem Kept.mem_messages (h : st.Kept st') (id : Ulid) : id ∈ st'.messages ↔ id ∈ st.messages := by
  rw [← AList.lookup_isSome, ← AList.lookup_isSome, ← Option.isSome_map (f := StoredMsg.core),
    h.messages id, Option.isSome_map]

theorem Kept.lookup (h : st.Kept st') {msg : StoredMsg}
    (found : AList.lookup id st'.messages = some msg) :
    ∃ old, AList.lookup id st.messages = some old ∧ old.core = msg.core := by
  have same := h.messages id
  rw [found] at same
  exact Option.map_eq_some_iff.1 same.symm

theorem Kept.trans (first : st.Kept st') (second : st'.Kept st'') : st.Kept st'' where
  messages id := (second.messages id).trans (first.messages id)
  seen := second.seen.trans first.seen
  acked := second.acked.trans first.acked
  leases id leased := by
    rcases second.leases id leased with old | inside
    · exact first.leases id old
    · exact Or.inr ((first.mem_messages id).1 inside)

/-- Every id the shard has seen is in memory or acked, and not both. -/
structure Resident (st : ShardState) : Prop where
  stored : ∀ id ∈ st.messages, id ∈ st.seenIds
  known : ∀ id ∈ st.seenIds, id ∈ st.messages ∨ id ∈ st.ackedIds
  gone : ∀ id ∈ st.ackedIds, id ∈ st.seenIds ∧ id ∉ st.messages
  leased : ∀ id ∈ st.wheel.indexById, id ∈ st.seenIds

/-- The id of the record was seen, and acked if it is an Ack. -/
def Covers (st : ShardState) (r : WalRecord) : Prop :=
  r.msgId ∈ st.seenIds ∧ (r.isPush = false → r.msgId ∈ st.ackedIds)

theorem Resident.kept (h : st.Resident) (kept : st.Kept st') : st'.Resident where
  stored id inside := by
    rw [kept.seen]
    exact h.stored id ((kept.mem_messages id).1 inside)
  known id seen := by
    rw [kept.seen] at seen
    rw [kept.mem_messages, kept.acked]
    exact h.known id seen
  gone id acked := by
    rw [kept.acked] at acked
    rw [kept.seen, kept.mem_messages]
    exact h.gone id acked
  leased id leased := by
    rw [kept.seen]
    exact (kept.leases id leased).elim (h.leased id) (h.stored id)

/-! ## Page-in -/

/-- Tombstones set one after another. -/
def mark (st : ShardState) (marks : List (String × Ulid)) : ShardState :=
  marks.foldl (fun st mark => st.markDeleted mark.1 mark.2) st

/-- The tombstones that the Acks of a list of records set. -/
def marksOf (records : List WalRecord) : List (String × Ulid) :=
  records.filterMap fun
    | .ack msgId queueName => some (queueName, msgId)
    | .push .. => none

theorem mark_frame (st : ShardState) (marks : List (String × Ulid)) :
    (st.mark marks).messages = st.messages ∧ (st.mark marks).seenIds = st.seenIds ∧
      (st.mark marks).ackedIds = st.ackedIds ∧ (st.mark marks).wheel = st.wheel := by
  unfold mark
  induction marks generalizing st with
  | nil => exact ⟨rfl, rfl, rfl, rfl⟩
  | cons mark marks ih =>
      obtain ⟨messages, seen, acked, wheel⟩ := ih (st.markDeleted mark.1 mark.2)
      rw [List.foldl_cons, messages, seen, acked, wheel]
      exact ⟨messages_markDeleted, seenIds_markDeleted, ackedIds_markDeleted, wheel_markDeleted⟩

theorem mark_append (st : ShardState) (marks more : List (String × Ulid)) :
    st.mark (marks ++ more) = (st.mark marks).mark more :=
  List.foldl_append

theorem kept_mark (st : ShardState) (marks : List (String × Ulid)) : st.Kept (st.mark marks) := by
  obtain ⟨messages, seen, acked, wheel⟩ := st.mark_frame marks
  refine ⟨fun id => by rw [messages], seen, acked, fun id leased => ?_⟩
  rw [wheel] at leased
  exact Or.inl leased

/-- The Ack of an id that is acked and not in memory only sets a tombstone. -/
theorem load_ack_of_gone (acked : id ∈ st.ackedIds) (absent : id ∉ st.messages)
    (opts : QueueOptions) (now : Nat) (queue : String) :
    st.load opts now (.ack id queue) = st.mark [(queue, id)] := by
  have same : ({ st with
      ackedIds := insert id st.ackedIds
      messages := AList.erase id st.messages } : ShardState) = st := by
    rw [Finset.insert_eq_of_mem acked, FMap.erase_of_notMem absent]
  show ShardState.markDeleted { st with
      ackedIds := insert id st.ackedIds
      messages := AList.erase id st.messages } queue id = _
  rw [same]
  rfl

/-- A record of an id that is in memory or acked loads nothing. -/
theorem Resident.load (h : st.Resident) (covers : st.Covers r) (opts : QueueOptions) (now : Nat) :
    st.load opts now r = st.mark (marksOf [r]) := by
  obtain ⟨seen, acked⟩ := covers
  cases r with
  | push msgId queueName visibleAt payload =>
      refine if_neg ?_
      rintro ⟨_, absent, unacked⟩
      exact (h.known msgId seen).elim absent unacked
  | ack msgId queueName =>
      have acked : msgId ∈ st.ackedIds := acked rfl
      exact load_ack_of_gone acked (h.gone msgId acked).2 opts now queueName

theorem Resident.loadAll (h : st.Resident) {records : List WalRecord}
    (covers : ∀ r ∈ records, st.Covers r) (opts : QueueOptions) (now : Nat) :
    st.loadAll opts now records = st.mark (marksOf records) := by
  induction records generalizing st with
  | nil => rfl
  | cons r records ih =>
      have first := h.load (covers r List.mem_cons_self) opts now
      have kept := st.kept_mark (marksOf [r])
      have rest := ih (h.kept kept) fun r' later => by
        unfold Covers
        rw [kept.seen, kept.acked]
        exact covers r' (.tail _ later)
      have split : marksOf (r :: records) = marksOf [r] ++ marksOf records := by
        rw [← List.singleton_append]
        exact List.filterMap_append
      show (st.load opts now r).loadAll opts now records = _
      rw [first, rest, split, mark_append]

/-! ## Poll -/

/-- A sweep that takes no message keeps them all. -/
theorem kept_collectExpired {now : Nat} (none : (st.collectExpired now).2 = []) :
    st.Kept (st.collectExpired now).1 := by
  obtain ⟨remains, _, _, leaves⟩ :=
    takeExpired_foldl_spec (st.wheel.collectExpired now).2 (st.messages, [])
  have same : ∀ id, AList.lookup id (st.collectExpired now).1.messages =
      AList.lookup id st.messages := by
    intro id
    cases found : AList.lookup id st.messages with
    | some msg =>
        rcases leaves id msg found with stays | taken
        · exact stays
        · have taken : msg ∈ (st.collectExpired now).2 := taken
          rw [none] at taken
          cases taken
    | none =>
        cases found' : AList.lookup id (st.collectExpired now).1.messages with
        | none => rfl
        | some msg => exact (remains id msg found').symm.trans found
  refine ⟨fun id => by rw [same id], rfl, rfl, fun id leased => ?_⟩
  obtain ⟨entry, found⟩ := (FMap.mem_iff_lookup _ _).1 leased
  exact Or.inl (FMap.mem_of_lookup (TimerWheel.lookup_collectExpired found))

/-- A claimed id that has a message is counted and leased. -/
theorem claimOne_cases (env : Env) (now : Nat) (queue : String) (timeout : Nat) (acc : Claim)
    (id : Ulid) :
    (∃ msg item, AList.lookup id acc.messages = some msg ∧ item.id = id ∧
      (claimOne env now queue timeout acc id).messages =
        AList.insert id (delivered msg) acc.messages ∧
      (claimOne env now queue timeout acc id).wheel = acc.wheel.insert item) ∨
    (AList.lookup id acc.messages = none ∧ claimOne env now queue timeout acc id = acc) := by
  unfold claimOne
  cases found : AList.lookup id acc.messages with
  | none => exact Or.inr ⟨rfl, rfl⟩
  | some msg => exact Or.inl ⟨msg, _, rfl, rfl, rfl, rfl⟩

/-- Claims change delivery counts and lease messages. -/
theorem kept_claim (env : Env) (st : ShardState) (draws : Nat) (queue : String) (q : SingleQueue)
    (now timeout maxMessages : Nat) :
    st.Kept (st.claim env draws queue q now timeout maxMessages).1 := by
  have loop : ∀ (ids : List Ulid) (acc : Claim),
      (∀ id, (AList.lookup id acc.messages).map StoredMsg.core =
        (AList.lookup id st.messages).map StoredMsg.core) →
      (∀ id ∈ acc.wheel.indexById, id ∈ st.wheel.indexById ∨ id ∈ st.messages) →
      let done := ids.foldl (claimOne env now queue timeout) acc
      (∀ id, (AList.lookup id done.messages).map StoredMsg.core =
        (AList.lookup id st.messages).map StoredMsg.core) ∧
      ∀ id ∈ done.wheel.indexById, id ∈ st.wheel.indexById ∨ id ∈ st.messages := by
    intro ids
    induction ids with
    | nil => exact fun acc messages leases => ⟨messages, leases⟩
    | cons id ids ih =>
        intro acc messages leases
        rcases claimOne_cases env now queue timeout acc id with
          ⟨msg, item, found, mine, messages', wheel⟩ | ⟨_, same⟩
        · have here : id ∈ st.messages := by
            have inside := congrArg Option.isSome (messages id)
            rw [found, Option.isSome_map, Option.isSome_map] at inside
            exact AList.lookup_isSome.1 inside.symm
          refine ih _ (fun id' => ?_) fun id' leased => ?_
          · rw [messages', ← messages id', FMap.lookup_insert_ite]
            split
            · rename_i same
              rw [same, found]
              rfl
            · rfl
          · rw [wheel, TimerWheel.insert, AList.mem_insert, mine] at leased
            rcases leased with rfl | old
            · exact Or.inr here
            · exact leases id' old
        · rw [List.foldl_cons, same]
          exact ih acc messages leases
  obtain ⟨messages, leases⟩ := loop
    ((q.advanceAndDrain (env.hashOrder draws Nat) now).popMany maxMessages).2
    ⟨st.messages, st.wheel, draws + 1, []⟩ (fun _ => rfl) fun _ => Or.inl
  exact ⟨messages, rfl, rfl, leases⟩

end ShardState

/-! ## Engines -/

/-- Every shard is resident, holds the messages of its own queues, and covers its records. -/
structure Resident (shards : Fin numShards → ShardState) (rs : List WalRecord) : Prop where
  shard : ∀ s, (shards s).Resident
  placed : ∀ s id msg, AList.lookup id (shards s).messages = some msg → shardIdx msg.queue = s
  log : ∀ r ∈ rs, (shards (shardIdx r.queueName)).Covers r

variable {e e' : QueueEngine} {rs new : List WalRecord} {env : Env} {now : Nat} {queue : String}
  {a b c : Fin numShards → ShardState}

theorem Resident.kept (h : Resident a rs) (kept : ∀ s, (a s).Kept (b s)) : Resident b rs where
  shard s := (h.shard s).kept (kept s)
  placed s id msg found := by
    obtain ⟨old, wasFound, core⟩ := (kept s).lookup found
    have queue : old.queue = msg.queue := congrArg Prod.fst core
    rw [← queue]
    exact h.placed s id old wasFound
  log r inside := by
    unfold ShardState.Covers
    rw [(kept _).seen, (kept _).acked]
    exact h.log r inside

/-- The shards differ by tombstones of acked ids only. -/
def Marks (a b : Fin numShards → ShardState) : Prop :=
  ∀ s, ∃ marks : List (String × Ulid), (∀ mark ∈ marks, mark.2 ∈ (a s).ackedIds) ∧
    b s = (a s).mark marks

theorem Marks.refl (a : Fin numShards → ShardState) : Marks a a :=
  fun _ => ⟨[], by simp, rfl⟩

theorem Marks.kept (h : Marks a b) (s : Fin numShards) : (a s).Kept (b s) := by
  obtain ⟨marks, _, eq⟩ := h s
  rw [eq]
  exact (a s).kept_mark marks

theorem Marks.trans (first : Marks a b) (second : Marks b c) : Marks a c := by
  intro s
  obtain ⟨marks, acked, eq⟩ := first s
  obtain ⟨more, acked', eq'⟩ := second s
  refine ⟨marks ++ more, fun mark inside => ?_, by rw [eq', eq, ShardState.mark_append]⟩
  rcases List.mem_append.1 inside with old | new
  · exact acked mark old
  · rw [← (first.kept s).acked]
    exact acked' mark new

/-- A chunk of covered records sets tombstones and loads nothing. -/
theorem Resident.pageInChunk (h : Resident e.shards rs) {records : List WalRecord}
    (inside : ∀ r ∈ records, r ∈ rs) (now : Nat) (targetQueue : String) :
    Marks e.shards (QueueEngine.pageInChunk now targetQueue e records).engine.shards := by
  intro s
  have covers : ∀ r ∈ shardRecords records s, (e.shards s).Covers r := by
    intro r member
    obtain ⟨member, here⟩ := List.mem_filter.1 member
    have here : shardIdx r.queueName = s := by simpa using here
    rw [← here]
    exact h.log r (inside r member)
  refine ⟨ShardState.marksOf (shardRecords records s), fun mark member => ?_, ?_⟩
  · obtain ⟨r, here, eq⟩ := List.mem_filterMap.1 member
    cases r with
    | push msgId queueName visibleAt payload => cases eq
    | ack msgId queueName =>
        cases eq
        exact (covers (.ack msgId queueName) here).2 rfl
  · rw [shards_pageInChunk]
    exact (h.shard s).loadAll covers e.options now

/-- The prefetch of a poll loads nothing. -/
theorem Resident.prefetch (h : Resident e.shards rs) (written : Written e rs) (env : Env)
    (queue : String) (now maxMessages : Nat) :
    Marks e.shards (e.prefetch env queue now maxMessages).shards := by
  have turn : ∀ fetchLimit e' flushed, (Written e' rs ∧ Marks e.shards e'.shards) →
      Written (pageInStep env now queue fetchLimit e' flushed).1 rs ∧
        Marks e.shards (pageInStep env now queue fetchLimit e' flushed).1.shards := by
    rintro fetchLimit e' flushed ⟨written, marks⟩
    refine ⟨written.pageInStep env now queue fetchLimit flushed, ?_⟩
    obtain ⟨offset, _, ⟨records, part, eq⟩ | eq⟩ :=
      written.pageInStep_cases env now queue fetchLimit flushed
    · rw [eq]
      have here : Resident ({ e' with spillReadOffset := offset } : QueueEngine).shards rs :=
        h.kept marks.kept
      exact marks.trans (here.pageInChunk (fun r member => part.subset member) now queue)
    · rw [eq]
      exact marks
  exact (prefetch_induction (P := fun e' => Written e' rs ∧ Marks e.shards e'.shards) turn
    ⟨written, .refl _⟩ maxMessages).2

/-- The poll finds no message whose lease has expired. -/
def QueueEngine.Unexpired (e : QueueEngine) (queue : String) (now : Nat) : Prop :=
  (e.collectExpired (shardIdx queue) now).2 = []

theorem QueueEngine.Unexpired.routed (h : e.Unexpired queue now) :
    e.routed (shardIdx queue) now = (e.collectExpired (shardIdx queue) now).1 := by
  have h : (e.collectExpired (shardIdx queue) now).2 = [] := h
  unfold QueueEngine.routed
  rw [h]
  rfl

theorem QueueEngine.Unexpired.kept (h : e.Unexpired queue now) (s : Fin numShards) :
    (e.shards s).Kept ((e.routed (shardIdx queue) now).shards s) := by
  rw [h.routed]
  by_cases here : s = shardIdx queue
  · subst here
    simp only [QueueEngine.collectExpired, shards_setShard]
    exact ShardState.kept_collectExpired h
  · simp only [QueueEngine.collectExpired, shards_setShard_of_ne here]
    exact .refl _

theorem kept_claimSection (env : Env) (e : QueueEngine) (queue : String)
    (now timeout maxMessages : Nat) (s : Fin numShards) :
    (e.shards s).Kept ((e.claimSection env queue now timeout maxMessages).1.shards s) := by
  unfold claimSection
  dsimp only
  split
  · by_cases here : s = shardIdx queue
    · subst here
      simp only [shards_setShard]
      exact ShardState.kept_claim env _ _ _ _ _ _ _
    · simp only [shards_setShard_of_ne here]
      exact .refl _
  · exact .refl _

/-- A poll that finds no lease expired keeps the messages. -/
theorem Resident.poll (h : Resident e.shards rs) (written : Written e rs)
    (unexpired : e.Unexpired queue now) (env : Env) (visibilitySec maxMessages : Nat)
    (s : Fin numShards) :
    (e.shards s).Kept ((e.poll env now queue visibilitySec maxMessages).1.shards s) := by
  have routed : Resident (e.routed (shardIdx queue) now).shards rs := h.kept unexpired.kept
  have paged := routed.prefetch (written.route (shardIdx queue) now) env queue now maxMessages
  rw [poll_eq]
  exact ((unexpired.kept s).trans (paged.kept s)).trans (kept_claimSection env _ queue now _ _ s)

/-! ## What an operation does -/

/-- A new message, seen and stored. -/
def ShardState.enter (st : ShardState) (now : Nat) (msg : StoredMsg) : ShardState :=
  { st with seenIds := insert msg.id st.seenIds }.store now msg

/-- What an operation does to the shards, the records it logs and what it was asked to push.
Whether it may log a known id again is a parameter, and so is the RAM cap. -/
inductive Quick (cap : Nat) (repeats : Prop) : (Fin numShards → ShardState) → List WalRecord →
    List (Ulid × String × List UInt8) → (Fin numShards → ShardState) → Prop
  | keep {a b : Fin numShards → ShardState} :
      (∀ s, (a s).Kept (b s)) → Quick cap repeats a [] [] b
  | enter {a : Fin numShards → ShardState} (now visibleAt : Nat) (msg : StoredMsg) :
      msg.id ∉ (a (shardIdx msg.queue)).seenIds → messageCount a < cap →
      Quick cap repeats a [.push msg.id msg.queue visibleAt msg.payload]
        [(msg.id, msg.queue, msg.payload)]
        (Function.update a (shardIdx msg.queue) ((a (shardIdx msg.queue)).enter now msg))
  | again {a : Fin numShards → ShardState} (id : Ulid) (queue : String) (visibleAt : Nat)
      (payload : List UInt8) : repeats → id ∈ (a (shardIdx queue)).seenIds →
      Quick cap repeats a [.push id queue visibleAt payload] [(id, queue, payload)] a
  | skip {a : Fin numShards → ShardState} (id : Ulid) (queue : String) (payload : List UInt8) :
      id ∈ (a (shardIdx queue)).seenIds → Quick cap repeats a [] [(id, queue, payload)] a
  | accept {a : Fin numShards → ShardState} (id : Ulid) (queue receipt : String)
      (done : ShardState × Bool) : (a (shardIdx queue)).ackLease queue id receipt = some done →
      Quick cap repeats a [.ack id queue] [] (Function.update a (shardIdx queue) done.1)
  | trans {a b c : Fin numShards → ShardState} {rs rs' : List WalRecord}
      {asked asked' : List (Ulid × String × List UInt8)} :
      Quick cap repeats a rs asked b → Quick cap repeats b rs' asked' c →
      Quick cap repeats a (rs ++ rs') (asked ++ asked') c

section Step

variable {cap : Nat} {repeats : Prop} {asked : List (Ulid × String × List UInt8)}

theorem Quick.refl (a : Fin numShards → ShardState) : Quick cap repeats a [] [] a :=
  .keep fun s => .refl (a s)

namespace ShardState

variable {st : ShardState} {id : Ulid} {queue : String} {msg : StoredMsg}

theorem lookup_enter (now : Nat) (id : Ulid) : AList.lookup id (st.enter now msg).messages =
    if id = msg.id then some msg else AList.lookup id st.messages :=
  FMap.lookup_insert_ite _ _ _ _

theorem mem_enter {now : Nat} : id ∈ (st.enter now msg).messages ↔ id = msg.id ∨ id ∈ st.messages :=
  AList.mem_insert _

/-- A new message in a resident shard. -/
theorem Resident.enter (h : st.Resident) (now : Nat) (unseen : msg.id ∉ st.seenIds) :
    (st.enter now msg).Resident where
  stored id inside := by
    refine Finset.mem_insert.2 ((mem_enter.1 inside).imp_right fun old => h.stored id old)
  known id seen := by
    rcases Finset.mem_insert.1 seen with new | old
    · exact Or.inl (mem_enter.2 (Or.inl new))
    · exact (h.known id old).imp_left fun inside => mem_enter.2 (Or.inr inside)
  gone id acked := by
    obtain ⟨seen, absent⟩ := h.gone id acked
    refine ⟨Finset.mem_insert_of_mem seen, fun inside => ?_⟩
    rcases mem_enter.1 inside with new | old
    · exact unseen (new ▸ seen)
    · exact absent old
  leased id leased := Finset.mem_insert_of_mem (h.leased id leased)

/-- What an accepted ack leaves of the leases and of the sets. -/
theorem ackLease_leases {receipt : String} {done : ShardState × Bool}
    (valid : st.ackLease queue id receipt = some done) :
    id ∈ st.wheel.indexById ∧ ∀ id' ∈ done.1.wheel.indexById, id' ∈ st.wheel.indexById := by
  unfold ShardState.ackLease at valid
  dsimp only at valid
  split at valid
  · rename_i accepted
    obtain ⟨here, index⟩ := TimerWheel.index_removeIfValid accepted
    have rest : ∀ id' ∈ (st.wheel.removeIfValid id receipt).1.indexById,
        id' ∈ st.wheel.indexById := by
      intro id' inside
      rw [index] at inside
      exact (AList.mem_erase.1 inside).2
    refine ⟨here, ?_⟩
    split at valid
    · cases valid
      rw [wheel_markDeleted]
      exact rest
    · cases valid
      exact rest
  · cases valid

theorem Resident.accept (h : st.Resident) {receipt : String} {done : ShardState × Bool}
    (valid : st.ackLease queue id receipt = some done) : done.1.Resident := by
  obtain ⟨messages, acked⟩ := ackLease_messages valid
  obtain ⟨here, leases⟩ := ackLease_leases valid
  have seen := ackLease_seenIds valid
  refine ⟨fun id' inside => ?_, fun id' known => ?_, fun id' gone => ?_, fun id' leased => ?_⟩
  · rw [messages, AList.mem_erase] at inside
    rw [seen]
    exact h.stored id' inside.2
  · rw [seen] at known
    rw [messages, acked, AList.mem_erase, Finset.mem_insert]
    by_cases same : id' = id
    · exact Or.inr (Or.inl same)
    · exact (h.known id' known).imp (fun inside => ⟨same, inside⟩) Or.inr
  · rw [acked, Finset.mem_insert] at gone
    rw [seen, messages, AList.mem_erase]
    rcases gone with rfl | old
    · exact ⟨h.leased id' here, fun inside => inside.1 rfl⟩
    · exact ⟨(h.gone id' old).1, fun inside => (h.gone id' old).2 inside.2⟩
  · rw [seen]
    exact h.leased id' (leases id' leased)

end ShardState

/-- The shards of a quick operation know what they knew. -/
theorem Quick.grows (h : Quick cap repeats a new asked b) (s : Fin numShards) :
    (a s).seenIds ⊆ (b s).seenIds ∧ (a s).ackedIds ⊆ (b s).ackedIds := by
  induction h with
  | keep kept => rw [(kept s).seen, (kept s).acked]; exact ⟨subset_rfl, subset_rfl⟩
  | @enter a now visibleAt msg unseen room =>
      by_cases here : s = shardIdx msg.queue
      · subst here
        rw [Function.update_self]
        exact ⟨Finset.subset_insert _ _, subset_rfl⟩
      · rw [Function.update_of_ne here]
        exact ⟨subset_rfl, subset_rfl⟩
  | again | skip => exact ⟨subset_rfl, subset_rfl⟩
  | @accept a id queue receipt done valid =>
      by_cases here : s = shardIdx queue
      · subst here
        rw [Function.update_self, ShardState.ackLease_seenIds valid,
          (ShardState.ackLease_messages valid).2]
        exact ⟨subset_rfl, Finset.subset_insert _ _⟩
      · rw [Function.update_of_ne here]
        exact ⟨subset_rfl, subset_rfl⟩
  | trans _ _ first second => exact ⟨first.1.trans second.1, first.2.trans second.2⟩

theorem ShardState.Covers.mono {st st' : ShardState} {r : WalRecord} (h : st.Covers r)
    (seen : st.seenIds ⊆ st'.seenIds) (acked : st.ackedIds ⊆ st'.ackedIds) : st'.Covers r :=
  ⟨seen h.1, fun ack => acked (h.2 ack)⟩

theorem resident_update {s : Fin numShards} {st : ShardState} (h : ∀ s, (a s).Resident)
    (here : st.Resident) : ∀ t, (Function.update a s st t).Resident :=
  (Function.forall_update_iff a fun _ st => st.Resident).2 ⟨here, fun t _ => h t⟩

/-- The records of the log stay covered, and those of the operation are. -/
theorem Resident.log_append (h : Resident a rs) (quick : Quick cap repeats a new asked b)
    (covers : ∀ r ∈ new, (b (shardIdx r.queueName)).Covers r) :
    ∀ r ∈ rs ++ new, (b (shardIdx r.queueName)).Covers r := by
  intro r inside
  rcases List.mem_append.1 inside with old | here
  · exact (h.log r old).mono (quick.grows _).1 (quick.grows _).2
  · exact covers r here

/-- What an operation does keeps the shards resident. -/
theorem Resident.quick (h : Resident a rs) (quick : Quick cap repeats a new asked b) :
    Resident b (rs ++ new) := by
  induction quick generalizing rs with
  | keep kept =>
      rw [List.append_nil]
      exact h.kept kept
  | @enter a now visibleAt msg unseen room =>
      have quick : Quick cap repeats a _ _ _ := .enter now visibleAt msg unseen room
      refine ⟨resident_update h.shard ((h.shard _).enter now unseen), fun s id msg' found => ?_,
        h.log_append quick fun r inside => ?_⟩
      · by_cases here : s = shardIdx msg.queue
        · subst here
          rw [Function.update_self, ShardState.lookup_enter] at found
          split at found
          · cases found
            rfl
          · exact h.placed _ id msg' found
        · rw [Function.update_of_ne here] at found
          exact h.placed s id msg' found
      · rw [List.mem_singleton.1 inside]
        refine ⟨?_, fun bad => by cases bad⟩
        simp only [WalRecord.queueName, WalRecord.msgId, Function.update_self]
        exact Finset.mem_insert_self _ _
  | again id queue visibleAt payload allowed seen =>
      have quick : Quick cap repeats _ _ _ _ := .again id queue visibleAt payload allowed seen
      refine ⟨h.shard, h.placed, h.log_append quick fun r inside => ?_⟩
      rw [List.mem_singleton.1 inside]
      exact ⟨seen, fun bad => by cases bad⟩
  | skip id queue payload seen =>
      rw [List.append_nil]
      exact h
  | @accept a id queue receipt done valid =>
      obtain ⟨messages, acked⟩ := ShardState.ackLease_messages valid
      have quick : Quick cap repeats a _ _ _ := .accept id queue receipt done valid
      refine ⟨resident_update h.shard ((h.shard _).accept valid), fun s id' msg' found => ?_,
        h.log_append quick fun r inside => ?_⟩
      · by_cases here : s = shardIdx queue
        · subst here
          rw [Function.update_self, messages, FMap.lookup_erase_ite] at found
          split at found
          · cases found
          · exact h.placed _ id' msg' found
        · rw [Function.update_of_ne here] at found
          exact h.placed s id' msg' found
      · rw [List.mem_singleton.1 inside]
        simp only [ShardState.Covers, WalRecord.queueName, WalRecord.msgId, Function.update_self]
        rw [ShardState.ackLease_seenIds valid, acked]
        exact ⟨(h.shard _).leased id (ShardState.ackLease_leases valid).1,
          fun _ => Finset.mem_insert_self _ _⟩
  | trans _ _ first second =>
      rw [← List.append_assoc]
      exact second (first h)

/-- An operation fills RAM up to the cap at most. -/
theorem Quick.messageCount_le (h : Quick cap repeats a new asked b) (fits : messageCount a ≤ cap) :
    messageCount b ≤ cap := by
  induction h with
  | keep kept =>
      rw [messageCount_of_mem fun s => (kept s).mem_messages]
      exact fits
  | @enter a now visibleAt msg unseen room =>
      have total := messageCount_update a (shardIdx msg.queue)
        ((a (shardIdx msg.queue)).enter now msg)
      have size := FMap.size_insert_le (a (shardIdx msg.queue)).messages msg.id msg
      have entered : ((a (shardIdx msg.queue)).enter now msg).messages =
        AList.insert msg.id msg (a (shardIdx msg.queue)).messages := rfl
      rw [entered] at total
      omega
  | again | skip => exact fits
  | @accept a id queue receipt done valid =>
      have total := messageCount_update a (shardIdx queue) done.1
      have size := ShardState.size_ackLease valid
      omega
  | trans _ _ first second => exact second (first fits)

end Step

/-- The messages in memory may take the place of the log. -/
theorem Resident.compact (h : Resident e.shards rs) (env : Env) :
    Resident e.shards (e.survivors env) := by
  refine ⟨h.shard, h.placed, fun r inside => ?_⟩
  obtain ⟨s, id, msg, found, rfl⟩ := mem_survivors.1 inside
  have placed : shardIdx msg.queue = s := h.placed s id msg found
  refine ⟨?_, fun bad => by cases bad⟩
  rw [WalRecord.queueName, placed]
  exact (h.shard s).stored id (FMap.mem_of_lookup found)

/-! ## Operations -/

/-- An operation that polls finds no message whose lease has expired. -/
def World.Unexpired (w : World) : Op → Prop
  | .poll queue _ _ => w.engine.Unexpired queue w.clock
  | _ => True

instance (w : World) : (op : Op) → Decidable (w.Unexpired op)
  | .poll queue _ _ => inferInstanceAs
      (Decidable ((w.engine.collectExpired (shardIdx queue) w.clock).2 = []))
  | .push .. | .pushBatch .. | .ack .. | .ackBatch .. | .advance _ =>
      inferInstanceAs (Decidable True)

/-- The operation pushes nothing beyond the horizon, leaves RAM below its cap, and finds no
lease expired. -/
structure StaysInMemory (env : Env) (w : World) (op : Op) : Prop where
  near : ∀ delay ∈ op.delays, delay ≤ hotDelayHorizonSec
  clock : w.clock + hotDelayHorizonSec < 2 ^ 64
  room : w.engine.totalMessagesInRam < w.engine.options.maxHotMessagesInRam
  roomAfter : (w.step env op).engine.totalMessagesInRam < w.engine.options.maxHotMessagesInRam
  unexpired : w.Unexpired op

instance (env : Env) (w : World) (op : Op) : Decidable (StaysInMemory env w op) :=
  decidable_of_iff ((∀ delay ∈ op.delays, delay ≤ hotDelayHorizonSec) ∧
      w.clock + hotDelayHorizonSec < 2 ^ 64 ∧
      w.engine.totalMessagesInRam < w.engine.options.maxHotMessagesInRam ∧
      (w.step env op).engine.totalMessagesInRam < w.engine.options.maxHotMessagesInRam ∧
      w.Unexpired op)
    ⟨fun ⟨near, clock, room, roomAfter, unexpired⟩ => ⟨near, clock, room, roomAfter, unexpired⟩,
      fun h => ⟨h.near, h.clock, h.room, h.roomAfter, h.unexpired⟩⟩

/-- No single push is of an id that its shard has seen. -/
def PushesNew (w : World) : Op → Prop
  | .push queue id _ _ => id ∉ (w.engine.shards (shardIdx queue)).seenIds
  | _ => True

instance (w : World) : (op : Op) → Decidable (PushesNew w op)
  | .push queue id _ _ =>
      inferInstanceAs (Decidable (id ∉ (w.engine.shards (shardIdx queue)).seenIds))
  | .pushBatch .. | .poll .. | .ack .. | .ackBatch .. | .advance _ =>
      inferInstanceAs (Decidable True)

/-- The items of a batch under the ids they are pushed with. -/
def pushBatchAsked (env : Env) (now : Nat) (queue : String) :
    PushBatch → List PushItem → List (Ulid × String × List UInt8)
  | _, [] => []
  | acc, item :: items =>
      ((drawId env acc.engine.draws item.id).1, queue, item.payload) ::
        pushBatchAsked env now queue (QueueEngine.pushBatchItem env now queue acc item) items

/-- What an operation is asked to push: id, queue and payload. -/
def World.asked (env : Env) (w : World) : Op → List (Ulid × String × List UInt8)
  | .push queue id payload _ => [(id, queue, payload)]
  | .pushBatch queue items =>
      pushBatchAsked env w.clock queue ⟨w.engine, [], 0, w.engine.totalMessagesInRam⟩ items
  | _ => []

theorem within_horizon {now delay : Nat} (near : delay ≤ hotDelayHorizonSec)
    (clock : now + hotDelayHorizonSec < 2 ^ 64) :
    addU64 now delay ≤ addU64 now hotDelayHorizonSec := by
  rw [addU64_of_lt (by omega), addU64_of_lt clock]
  omega

/-- What a run in memory keeps. -/
structure AllInMemory (w : World) (rs : List WalRecord) : Prop where
  written : Written w.engine rs
  resident : Resident w.engine.shards rs
  accounted : Accounted w.engine
  below : w.engine.ramCount ≤ w.engine.options.maxHotMessagesInRam

section Operations

variable {cap : Nat} {repeats : Prop} {w : World} {op : Op}

theorem AllInMemory.total (h : AllInMemory w rs) :
    w.engine.totalMessagesInRam = w.engine.ramCount :=
  h.accounted.eq_ramCount (h.below.trans_lt w.engine.options.ramCap_lt)

/-- `push_with_ulid`. -/
theorem Resident.push (h : Resident e.shards rs) (env : Env) {now delaySec : Nat} {queue : String}
    {id : Ulid} (payload : List UInt8)
    (near : addU64 now delaySec ≤ addU64 now hotDelayHorizonSec)
    (room : e.totalMessagesInRam < e.options.maxHotMessagesInRam)
    (exact : messageCount e.shards < cap)
    (new : ¬ repeats → id ∉ (e.shards (shardIdx queue)).seenIds) :
    Quick cap repeats e.shards [(WalRecord.push id queue (addU64 now delaySec) payload).stored]
      [(id, queue, payload)] (e.pushWithUlid env now queue id payload delaySec).1.shards := by
  obtain ⟨_, ⟨seen, same, _⟩ | ⟨unseen, outside, _⟩ | ⟨unseen, _, entered, _⟩⟩ :=
    pushWithUlid_cases env e now queue id payload delaySec
  · rw [same]
    exact .again id queue _ payload (by_contra fun no => new no seen) seen
  · exact absurd ⟨near, room, fun inside => unseen ((h.shard _).stored id inside)⟩ outside
  · rw [entered]
    exact .enter now _ (e.newMsg queue id payload (addU64 now delaySec)) unseen exact

/-- RAM only fills up in a batch. -/
theorem curRam_le_pushBatchLoop (env : Env) (now : Nat) (queue : String) (items : List PushItem)
    (acc : PushBatch) :
    acc.curRam ≤ (items.foldl (QueueEngine.pushBatchItem env now queue) acc).curRam := by
  refine List.foldlRecOn (motive := fun (out : PushBatch) => acc.curRam ≤ out.curRam) items _ le_rfl
    fun out before item _ => before.trans ?_
  unfold QueueEngine.pushBatchItem
  dsimp only
  split
  · exact le_rfl
  · unfold QueueEngine.pushBatchNew
    dsimp only
    split
    · exact Nat.le_succ _
    · exact le_rfl

/-- One item of a batch, while RAM has room. -/
theorem Resident.pushBatchItem {acc : PushBatch} (h : Resident acc.engine.shards rs)
    {item : PushItem} (near : addU64 now item.delaySeconds ≤ addU64 now hotDelayHorizonSec)
    (room : acc.curRam < acc.engine.options.maxHotMessagesInRam)
    (exact : messageCount acc.engine.shards < cap) (env : Env) (queue : String) :
    Quick cap repeats acc.engine.shards
      ((if (drawId env acc.engine.draws item.id).1 ∈ (acc.engine.shards (shardIdx queue)).seenIds
        then [] else [WalRecord.push (drawId env acc.engine.draws item.id).1 queue
          (addU64 now item.delaySeconds) item.payload]).map WalRecord.stored)
      [((drawId env acc.engine.draws item.id).1, queue, item.payload)]
      (QueueEngine.pushBatchItem env now queue acc item).engine.shards := by
  unfold QueueEngine.pushBatchItem
  dsimp only
  split
  · rename_i seen
    exact .skip _ queue item.payload seen
  · rename_i unseen
    unfold pushBatchNew
    dsimp only
    rw [if_pos ⟨near, room, fun inside => unseen ((h.shard _).stored _ inside)⟩]
    exact .enter now _ (acc.engine.newMsg queue (drawId env acc.engine.draws item.id).1
      item.payload (addU64 now item.delaySeconds)) unseen exact

/-- The loop of `push_batch`. -/
theorem Resident.pushBatchLoop {acc : PushBatch} (h : Resident acc.engine.shards rs)
    (batch : Counts.Batch e acc) (counted : e.totalMessagesInRam = e.ramCount)
    {items : List PushItem}
    (near : ∀ item ∈ items, addU64 now item.delaySeconds ≤ addU64 now hotDelayHorizonSec)
    (room : (items.foldl (QueueEngine.pushBatchItem env now queue) acc).curRam <
      e.options.maxHotMessagesInRam) :
    Quick e.options.maxHotMessagesInRam repeats acc.engine.shards
      ((pushBatchRecords env now queue acc items).map WalRecord.stored)
      (pushBatchAsked env now queue acc items)
      (items.foldl (QueueEngine.pushBatchItem env now queue) acc).engine.shards := by
  induction items generalizing acc rs with
  | nil => exact .refl _
  | cons item items ih =>
      have below := (curRam_le_pushBatchLoop env now queue (item :: items) acc).trans_lt room
      have exact : messageCount acc.engine.shards < e.options.maxHotMessagesInRam := by
        have memory : messageCount acc.engine.shards = e.ramCount + acc.addedCount := batch.memory
        have curRam := batch.curRam
        omega
      have first : Quick e.options.maxHotMessagesInRam repeats acc.engine.shards _ _ _ :=
        h.pushBatchItem (near item List.mem_cons_self) (by rw [batch.options]; exact below) exact
          env queue
      have rest := ih (h.quick first) (batch.pushBatchItem env now queue item)
        (fun item' later => near item' (.tail _ later)) room
      rw [List.foldl_cons, pushBatchRecords, List.map_append]
      exact first.trans rest

/-- A batch that leaves RAM below its cap never fills it. -/
theorem curRam_pushBatch_lt {items : List PushItem}
    (room : w.engine.totalMessagesInRam < w.engine.options.maxHotMessagesInRam)
    (after : (w.step env (.pushBatch queue items)).engine.totalMessagesInRam <
      w.engine.options.maxHotMessagesInRam) :
    (pushBatchLoop env w.engine w.clock queue items).curRam <
      w.engine.options.maxHotMessagesInRam := by
  have batch := Counts.Batch.pushBatchLoop env w.engine w.clock queue items
  have total : (w.step env (.pushBatch queue items)).engine.totalMessagesInRam =
      fetchAdd w.engine.totalMessagesInRam
        (pushBatchLoop env w.engine w.clock queue items).addedCount := by
    rw [← batch.counter]
    exact ram_checkAndTriggerCompaction env _
  have small := w.engine.options.ramCap_lt
  have curRam := batch.curRam
  rcases batch.room with none | full
  · omega
  · rw [total, fetchAdd, Nat.mod_eq_of_lt (by omega)] at after
    omega

/-- The loop of `ack_batch`. -/
theorem quick_ackBatchLoop (queue : String) (items : List (Ulid × String)) (acc : AckBatch) :
    ∃ accepted, (items.foldl (ackBatchItem queue) acc).accepted = acc.accepted ++ accepted ∧
      Quick cap repeats acc.engine.shards (accepted.map fun item => .ack item.1 queue) []
        (items.foldl (ackBatchItem queue) acc).engine.shards := by
  induction items generalizing acc with
  | nil => exact ⟨[], by simp, .refl _⟩
  | cons item items ih =>
      obtain ⟨accepted, list, quick⟩ := ih (ackBatchItem queue acc item)
      rw [List.foldl_cons]
      cases valid : (acc.engine.shards (shardIdx queue)).ackLease queue item.1 item.2 with
      | none =>
          rw [ackBatchItem_of_invalid valid] at list quick ⊢
          exact ⟨accepted, list, quick⟩
      | some done =>
          obtain ⟨shards, _, _, list', _⟩ := ackBatchItem_of_valid valid
          rw [shards] at quick
          refine ⟨item :: accepted, by rw [list, list']; simp, ?_⟩
          exact Quick.trans (.accept item.1 queue item.2 done valid) quick

/-- What an operation does in a run that stays in memory. -/
theorem AllInMemory.quick (h : AllInMemory w rs) (stays : StaysInMemory env w op)
    (new : ¬ repeats → PushesNew w op) :
    Quick w.engine.options.maxHotMessagesInRam repeats w.engine.shards
      ((w.appended env op).map WalRecord.stored) (w.asked env op)
      (w.step env op).engine.shards := by
  have exact : messageCount w.engine.shards < w.engine.options.maxHotMessagesInRam := by
    have total : w.engine.totalMessagesInRam = messageCount w.engine.shards := h.total
    have room := stays.room
    omega
  cases op with
  | push queue id payload delaySec =>
      exact h.resident.push env payload (within_horizon (stays.near _ (by simp [Op.delays]))
        stays.clock) stays.room exact new
  | pushBatch queue items =>
      have near : ∀ item ∈ items,
          addU64 w.clock item.delaySeconds ≤ addU64 w.clock hotDelayHorizonSec :=
        fun item inside => within_horizon (stays.near _ (List.mem_map_of_mem inside)) stays.clock
      have shards : (w.step env (.pushBatch queue items)).engine.shards =
          (pushBatchLoop env w.engine w.clock queue items).engine.shards :=
        shards_checkAndTriggerCompaction env _
      rw [shards]
      exact h.resident.pushBatchLoop (.start w.engine) h.total near
        (curRam_pushBatch_lt stays.room stays.roomAfter)
  | poll queue visibilitySec maxMessages =>
      exact .keep fun s => h.resident.poll h.written stays.unexpired env visibilitySec
        maxMessages s
  | ack queue messageId receipt =>
      cases reached : (parseIdFast env messageId).bind (w.engine.ackUnchecked queue · receipt) with
      | none =>
          have failed : w.engine.ack env queue messageId receipt = (w.engine, false) := by
            simp [QueueEngine.ack, reached]
          simp only [World.step, World.exec, World.appended, failed]
          exact .refl _
      | some done =>
          obtain ⟨id, parsed, success⟩ := Option.bind_eq_some_iff.1 reached
          have acked : w.engine.ack env queue messageId receipt =
              (done.checkAndTriggerCompaction env, true) := by
            simp [QueueEngine.ack, reached]
          simp only [World.step, World.exec, World.appended, acked, parsed, if_true]
          rw [shards_checkAndTriggerCompaction]
          unfold QueueEngine.ackUnchecked at success
          split at success
          · cases success
          · rename_i st wasLive valid
            cases success
            exact .accept id queue receipt (st, wasLive) valid
  | ackBatch queue items =>
      have loop : ∃ accepted, (ackBatchLoop env w.engine queue items).accepted = [] ++ accepted ∧
          Quick w.engine.options.maxHotMessagesInRam repeats w.engine.shards
            (accepted.map fun item => .ack item.1 queue) [] _ :=
        quick_ackBatchLoop queue (parsedItems env items) ⟨w.engine, 0, []⟩
      obtain ⟨accepted, list, quick⟩ := loop
      have shards : (w.step env (.ackBatch queue items)).engine.shards =
          (ackBatchLoop env w.engine queue items).engine.shards :=
        (shards_checkAndTriggerCompaction env _).trans
          (disk_ackBatchUnchecked env w.engine queue items).2.2
      have records : (w.appended env (.ackBatch queue items)).map WalRecord.stored =
          accepted.map fun item => .ack item.1 queue := by
        rw [World.appended, list, List.nil_append, List.map_map]
        rfl
      rw [shards, records]
      exact quick
  | advance seconds => exact .refl _

/-- No message is put back when none is taken. -/
theorem QueueEngine.Unexpired.putsBackFresh (h : e.Unexpired queue now) :
    PutsBackFresh e (shardIdx queue) now := by
  intro msg taken
  have none : (e.collectExpired (shardIdx queue) now).2 = [] := h
  rw [none] at taken
  cases taken

theorem AllInMemory.accounted_step (h : AllInMemory w rs) (stays : StaysInMemory env w op) :
    Accounted (w.step env op).engine := by
  cases op with
  | push queue id payload delaySec => exact h.accounted.pushWithUlid env w.clock queue id payload _
  | pushBatch queue items => exact h.accounted.pushBatch env w.clock queue items
  | poll queue visibilitySec maxMessages =>
      exact h.accounted.poll env visibilitySec maxMessages
        (Unexpired.putsBackFresh stays.unexpired)
  | ack queue messageId receipt => exact h.accounted.ack env queue messageId receipt
  | ackBatch queue items => exact h.accounted.ackBatch env queue items
  | advance seconds => exact h.accounted

/-- An operation that stays in memory. -/
theorem AllInMemory.step (h : AllInMemory w rs) (stays : StaysInMemory env w op)
    (small : ∀ payload ∈ op.payloads, payload.length < 2 ^ 32)
    (few : (w.step env op).engine.names.length ≤ 65536) :
    AllInMemory (w.step env op) (w.logAfter env op rs) := by
  have quick : Quick _ True _ _ _ _ := h.quick stays fun no => absurd trivial no
  have resident := h.resident.quick quick
  refine ⟨h.written.step small few, ?_, h.accounted_step stays, ?_⟩
  · unfold World.logAfter
    cases reached : w.checkpoint env op with
    | none => exact resident
    | some mid =>
        have shards : (w.step env op).engine.shards = mid.shards := by
          rw [World.step_of_checkpoint reached, shards_checkAndTriggerCompaction]
        rw [shards] at resident ⊢
        unfold QueueEngine.checkedLog
        dsimp only
        split
        · exact resident.compact env
        · exact resident
  · rw [World.options_step]
    exact quick.messageCount_le h.below

end Operations

/-- An engine opened on an empty directory. -/
theorem AllInMemory.fresh (env : Env) (opts : QueueOptions) (clock : Nat) :
    AllInMemory (World.fresh env opts clock) [] where
  written := .fresh env opts clock
  resident :=
    { shard := fun _ =>
        { stored := fun _ inside => absurd inside (AList.notMem_empty _)
          known := fun _ seen => absurd seen (Finset.notMem_empty _)
          gone := fun _ acked => absurd acked (Finset.notMem_empty _)
          leased := fun _ leased => absurd leased (AList.notMem_empty _) }
      placed := fun _ _ _ found => by cases found
      log := fun _ inside => by cases inside }
  accounted := .fresh env opts clock
  below := messageCount_new.le.trans (Nat.zero_le _)

end WalrQueue
