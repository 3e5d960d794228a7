import WalrQueue.Engine
import WalrQueue.WheelLeases
import WalrQueue.QueueOccurrence

/-!
# Where one id is in a shard

For one fixed id a shard is in one of three states (`Status`): the id is not
there, it is in `messages` and waits once in the queue its message names, or it
is in `messages` with one lease and waits in no queue.  `At` says which, over
all five structures of the shard at once.  Each shard section is then described
by what it does to the status of every id.
-/

namespace WalrQueue

/-- What a shard does with one id. -/
inductive Status where
  | away
  | pending (msg : StoredMsg)
  | leased (msg : StoredMsg) (item : InFlightItem)

namespace Status

/-- The entry of `messages`. -/
def msg? : Status → Option StoredMsg
  | away => none
  | pending msg => some msg
  | leased msg _ => some msg

/-- The lease. -/
def item? : Status → Option InFlightItem
  | leased _ item => some item
  | _ => none

/-- How often the id waits in a queue. -/
def waitsIn : Status → String → Nat
  | pending msg, queue => if msg.queue = queue then 1 else 0
  | _, _ => 0

end Status

/-- The wheel holds exactly the lease given, or none. -/
def TimerWheel.LeaseIs (w : TimerWheel) (m : Ulid) : Option InFlightItem → Prop
  | some item => w.Leased m item
  | none => w.Unleased m

theorem TimerWheel.SameLease.leaseIs {m : Ulid} {w w' : TimerWheel} {lease : Option InFlightItem}
    (same : SameLease m w w') (h : w.LeaseIs m lease) : w'.LeaseIs m lease := by
  cases lease with
  | none => exact same.unleased h
  | some item => exact same.leased h

namespace ShardState

variable {st st' : ShardState} {m id : Ulid} {status : Status} {msg : StoredMsg}
  {item : InFlightItem} {queue : String}

/-- How often an id occurs in a queue of the shard. -/
def occ (st : ShardState) (queue : String) (m : Ulid) : Nat :=
  match AList.lookup queue st.queues with
  | some q => q.occ m
  | none => 0

/-- The id is tombstoned in a queue of the shard. -/
def Tomb (st : ShardState) (queue : String) (m : Ulid) : Prop :=
  ∃ q, AList.lookup queue st.queues = some q ∧ m ∈ q.deleted

/-- The status of an id in a shard. -/
structure At (st : ShardState) (m : Ulid) (status : Status) : Prop where
  msg : AList.lookup m st.messages = status.msg?
  lease : st.wheel.LeaseIs m status.item?
  occ : ∀ queue, st.occ queue m = status.waitsIn queue
  tomb : ∀ queue, st.Tomb queue m → status.waitsIn queue = 0

/-- Every message is filed under its own id. -/
def Keyed (st : ShardState) : Prop :=
  ∀ id msg, AList.lookup id st.messages = some msg → msg.id = id

theorem At.new : ShardState.new.At m .away where
  msg := rfl
  lease := .new _
  occ _ := rfl
  tomb queue tomb := by
    obtain ⟨q, found, _⟩ := tomb
    cases found

theorem At.mem_messages (h : st.At m status) : m ∈ st.messages ↔ status.msg?.isSome := by
  rw [← AList.lookup_isSome, h.msg]

/-- `At` reads neither `seenIds` nor `ackedIds`. -/
theorem At.of_fields (h : st.At m status) (queues : st'.queues = st.queues)
    (messages : st'.messages = st.messages) (wheel : st'.wheel = st.wheel) : st'.At m status where
  msg := by rw [messages]; exact h.msg
  lease := by rw [wheel]; exact h.lease
  occ queue := by rw [ShardState.occ, queues]; exact h.occ queue
  tomb queue tomb := h.tomb queue (by rwa [Tomb, queues] at tomb)

/-- A queue of the shard is clean for every id with a status. -/
theorem At.clean (h : st.At m status) {q : SingleQueue}
    (found : AList.lookup queue st.queues = some q) : q.Clean m := by
  intro tomb
  have none := h.tomb queue ⟨q, found, tomb⟩
  have count := h.occ queue
  rw [none, ShardState.occ, found] at count
  exact count

/-! ## One queue replaced -/

theorem occ_insert_queue (st : ShardState) (m : Ulid) (queue : String) (q : SingleQueue)
    (name : String) :
    ({ st with queues := AList.insert queue q st.queues } : ShardState).occ name m =
      if name = queue then q.occ m else st.occ name m := by
  unfold ShardState.occ
  dsimp only
  rw [FMap.lookup_insert_ite]
  by_cases same : name = queue <;> simp [same]

theorem tomb_insert_queue (st : ShardState) (m : Ulid) (queue : String) (q : SingleQueue)
    (name : String) :
    ({ st with queues := AList.insert queue q st.queues } : ShardState).Tomb name m ↔
      if name = queue then m ∈ q.deleted else st.Tomb name m := by
  unfold Tomb
  dsimp only
  rw [FMap.lookup_insert_ite]
  split
  · simp
  · rfl

theorem occ_getD (now : Nat) : (FMap.getD st.queues queue (.new now)).occ m = st.occ queue m := by
  unfold FMap.getD ShardState.occ
  cases AList.lookup queue st.queues <;> rfl

theorem tomb_of_mem_getD {now : Nat}
    (tomb : m ∈ (FMap.getD st.queues queue (.new now)).deleted) : st.Tomb queue m := by
  unfold FMap.getD at tomb
  cases found : AList.lookup queue st.queues with
  | none => simp [found] at tomb
  | some q => exact ⟨q, found, by simpa [found] using tomb⟩

/-! ## Store -/

@[simp] theorem seenIds_store (now : Nat) : (st.store now msg).seenIds = st.seenIds := rfl

@[simp] theorem ackedIds_store (now : Nat) : (st.store now msg).ackedIds = st.ackedIds := rfl

theorem occ_store (now : Nat) (name : String) : (st.store now msg).occ name m =
    st.occ name m + if msg.id = m ∧ msg.queue = name then 1 else 0 := by
  have inserted := occ_insert_queue st m msg.queue
    ((FMap.getD st.queues msg.queue (.new now)).insert msg.id msg.visibleAt now) name
  refine Eq.trans inserted ?_
  rw [SingleQueue.occ_insert, occ_getD]
  by_cases same : name = msg.queue
  · subst same
    simp
  · have other : msg.queue ≠ name := fun eq => same eq.symm
    simp [same, other]

theorem tomb_of_store {now : Nat} {name : String} (tomb : (st.store now msg).Tomb name m) :
    st.Tomb name m ∧ ¬ (msg.id = m ∧ msg.queue = name) := by
  have tomb' := (tomb_insert_queue st m msg.queue
    ((FMap.getD st.queues msg.queue (.new now)).insert msg.id msg.visibleAt now) name).1 tomb
  by_cases same : name = msg.queue
  · rw [if_pos same, SingleQueue.mem_deleted_insert] at tomb'
    exact ⟨same ▸ tomb_of_mem_getD tomb'.2, fun hit => tomb'.1 hit.1.symm⟩
  · rw [if_neg same] at tomb'
    exact ⟨tomb', fun hit => same hit.2.symm⟩

/-- Storing another message changes nothing for `m`. -/
theorem At.store_of_ne (h : st.At m status) (now : Nat) (other : msg.id ≠ m) :
    (st.store now msg).At m status where
  msg := (AList.lookup_insert_ne other.symm).trans h.msg
  lease := h.lease
  occ name := by simp [occ_store, other, h.occ]
  tomb name tomb := h.tomb name (tomb_of_store tomb).1

/-- Storing a message that was away makes it pending. -/
theorem At.store (h : st.At m .away) (now : Nat) (same : msg.id = m) :
    (st.store now msg).At m (.pending msg) where
  msg := by
    subst same
    exact AList.lookup_insert st.messages
  lease := h.lease
  occ name := by simp [occ_store, same, h.occ, Status.waitsIn]
  tomb name tomb := by
    have miss := (tomb_of_store tomb).2
    exact if_neg fun hit => miss ⟨same, hit⟩

/-! ## Tombstones -/

theorem markDeleted_eq (st : ShardState) (queue : String) (id : Ulid) :
    st.markDeleted queue id = { st with queues := (st.markDeleted queue id).queues } := by
  unfold markDeleted
  split <;> rfl

@[simp] theorem messages_markDeleted : (st.markDeleted queue id).messages = st.messages := by
  rw [markDeleted_eq]

@[simp] theorem wheel_markDeleted : (st.markDeleted queue id).wheel = st.wheel := by
  rw [markDeleted_eq]

@[simp] theorem seenIds_markDeleted : (st.markDeleted queue id).seenIds = st.seenIds := by
  rw [markDeleted_eq]

@[simp] theorem ackedIds_markDeleted : (st.markDeleted queue id).ackedIds = st.ackedIds := by
  rw [markDeleted_eq]

/-- A tombstone changes nothing for `m`, unless `m` waits in that very queue. -/
theorem At.markDeleted (h : st.At m status) (absent : id = m → status.waitsIn queue = 0) :
    (st.markDeleted queue id).At m status := by
  unfold ShardState.markDeleted
  cases found : AList.lookup queue st.queues with
  | none => exact h
  | some q =>
      have here : q.occ m = status.waitsIn queue := by
        have count := h.occ queue
        rwa [ShardState.occ, found] at count
      refine ⟨h.msg, h.lease, fun name => ?_, fun name tomb => ?_⟩
      · rw [occ_insert_queue]
        split
        · rename_i same
          subst same
          by_cases hit : id = m
          · have := SingleQueue.occ_markDeleted_le m id q
            have := absent hit
            omega
          · rw [SingleQueue.occ_markDeleted_of_ne hit, here]
        · exact h.occ name
      · rw [tomb_insert_queue] at tomb
        split at tomb
        · rename_i same
          subst same
          by_cases hit : id = m
          · exact absent hit
          · exact h.tomb name ⟨q, found, (SingleQueue.mem_deleted_markDeleted_of_ne hit).1 tomb⟩
        · exact h.tomb name tomb

/-! ## Acks from the log -/

@[simp] theorem seenIds_applyAck : (st.applyAck queue id).seenIds = st.seenIds := by
  simp [applyAck]

@[simp] theorem ackedIds_applyAck : (st.applyAck queue id).ackedIds = insert id st.ackedIds := by
  simp [applyAck]

theorem At.applyAck_of_ne (h : st.At m status) (other : id ≠ m) :
    (st.applyAck queue id).At m status :=
  At.markDeleted ⟨(AList.lookup_erase_ne other.symm).trans h.msg, h.lease, h.occ, h.tomb⟩
    fun same => absurd same other

theorem At.applyAck (h : st.At m .away) : (st.applyAck queue m).At m .away :=
  At.markDeleted ⟨AList.lookup_erase m st.messages, h.lease, h.occ, h.tomb⟩ fun _ => rfl

/-! ## Acks with a receipt -/

/-- The state after a valid receipt. -/
def acked (st : ShardState) (queue : String) (id : Ulid) (receipt : String) : ShardState :=
  { st with
    wheel := (st.wheel.removeIfValid id receipt).1
    messages := AList.erase id st.messages
    ackedIds := insert id st.ackedIds }.markDeleted queue id

/-- With a message under every lease, a valid receipt always finds its message. -/
theorem At.ackLease (h : st.At m status) (queue receipt : String) :
    st.ackLease queue m receipt =
      if status.item?.map (·.receipt) = some receipt then some (st.acked queue m receipt, true)
      else none := by
  unfold ShardState.ackLease
  cases status with
  | away => simp [h.lease.removeIfValid, Status.item?]
  | pending msg => simp [h.lease.removeIfValid, Status.item?]
  | leased msg item =>
      have lease : st.wheel.Leased m item := h.lease
      have live : m ∈ st.messages := FMap.mem_of_lookup h.msg
      by_cases valid : item.receipt = receipt
      · subst valid
        simp [lease.removeIfValid.1, live, Status.item?, acked]
      · simp [lease.removeIfValid_of_ne valid, Status.item?, valid]

/-- The id that is acked is away afterwards. -/
theorem At.acked (h : st.At m (.leased msg item)) : (st.acked queue m item.receipt).At m .away := by
  have lease : st.wheel.Leased m item := h.lease
  exact At.markDeleted ⟨AList.lookup_erase m st.messages, lease.removeIfValid.2, h.occ, h.tomb⟩
    fun _ => rfl

/-- A valid receipt of `id` removes `id` from memory and nothing else. -/
theorem ackLease_messages {receipt : String} {done : ShardState × Bool}
    (valid : st.ackLease queue id receipt = some done) :
    done.1.messages = AList.erase id st.messages ∧ done.1.ackedIds = insert id st.ackedIds := by
  unfold ShardState.ackLease at valid
  dsimp only at valid
  split at valid
  · split at valid
    · cases valid
      simp
    · rename_i absent
      cases valid
      refine ⟨?_, rfl⟩
      exact (FMap.erase_of_lookup_none (AList.lookup_eq_none.2 absent)).symm
  · cases valid

theorem ackLease_seenIds {receipt : String} {done : ShardState × Bool}
    (valid : st.ackLease queue id receipt = some done) : done.1.seenIds = st.seenIds := by
  unfold ShardState.ackLease at valid
  dsimp only at valid
  split at valid
  · split at valid <;> cases valid
    · simp
    · rfl
  · cases valid

/-- A valid receipt of another id. -/
theorem At.ackLease_of_ne (h : st.At m status) {receipt : String} {done : ShardState × Bool}
    (valid : st.ackLease queue id receipt = some done) (other : id ≠ m) : done.1.At m status := by
  have wheel : (st.wheel.removeIfValid id receipt).1.LeaseIs m status.item? :=
    (TimerWheel.removeIfValid_sameLease receipt other).leaseIs h.lease
  unfold ShardState.ackLease at valid
  dsimp only at valid
  split at valid
  · split at valid <;> cases valid
    · exact At.markDeleted ⟨(AList.lookup_erase_ne other.symm).trans h.msg, wheel, h.occ, h.tomb⟩
        fun same => absurd same other
    · exact ⟨h.msg, wheel, h.occ, h.tomb⟩
  · cases valid

@[simp] theorem seenIds_acked (receipt : String) :
    (st.acked queue id receipt).seenIds = st.seenIds := by
  simp [ShardState.acked]

@[simp] theorem ackedIds_acked (receipt : String) :
    (st.acked queue id receipt).ackedIds = insert id st.ackedIds := by
  simp [ShardState.acked]

/-! ## Collecting expired leases -/

/-- The messages of one list that carry the id `m`. -/
def messagesOf (m : Ulid) (msgs : List StoredMsg) : List StoredMsg :=
  msgs.filter (fun msg => msg.id = m)

theorem takeExpired_of_ne {acc : FMap Ulid StoredMsg × List StoredMsg}
    (keyed : ∀ id msg, AList.lookup id acc.1 = some msg → msg.id = id) (other : item.id ≠ m) :
    AList.lookup m (takeExpired acc item).1 = AList.lookup m acc.1 ∧
      messagesOf m (takeExpired acc item).2 = messagesOf m acc.2 := by
  unfold takeExpired
  cases found : AList.lookup item.id acc.1 with
  | none => exact ⟨rfl, rfl⟩
  | some msg =>
      have key : msg.id ≠ m := by rw [keyed item.id msg found]; exact other
      exact ⟨AList.lookup_erase_ne other.symm, by simp [messagesOf, key]⟩

theorem keyed_takeExpired {acc : FMap Ulid StoredMsg × List StoredMsg}
    (keyed : ∀ id msg, AList.lookup id acc.1 = some msg → msg.id = id) (item : InFlightItem) :
    ∀ id msg, AList.lookup id (takeExpired acc item).1 = some msg → msg.id = id := by
  intro id msg found
  unfold takeExpired at found
  split at found
  · rw [FMap.lookup_erase_ite] at found
    split at found
    · cases found
    · exact keyed id msg found
  · exact keyed id msg found

/-- Items of other ids leave `m` alone. -/
theorem takeExpired_foldl_of_ne {items : List InFlightItem}
    (acc : FMap Ulid StoredMsg × List StoredMsg)
    (keyed : ∀ id msg, AList.lookup id acc.1 = some msg → msg.id = id)
    (others : TimerWheel.itemsOf m items = []) :
    AList.lookup m (items.foldl takeExpired acc).1 = AList.lookup m acc.1 ∧
      messagesOf m (items.foldl takeExpired acc).2 = messagesOf m acc.2 := by
  induction items generalizing acc with
  | nil => exact ⟨rfl, rfl⟩
  | cons item items ih =>
      have other : item.id ≠ m := by
        intro same
        simp [TimerWheel.itemsOf, same] at others
      have rest : TimerWheel.itemsOf m items = [] := by
        simpa [TimerWheel.itemsOf, other] using others
      obtain ⟨lookup, taken⟩ := takeExpired_of_ne keyed other
      obtain ⟨lookup', taken'⟩ := ih _ (keyed_takeExpired keyed item) rest
      exact ⟨lookup'.trans lookup, taken'.trans taken⟩

theorem keyed_takeExpired_foldl (items : List InFlightItem)
    {acc : FMap Ulid StoredMsg × List StoredMsg}
    (keyed : ∀ id msg, AList.lookup id acc.1 = some msg → msg.id = id) :
    ∀ id msg, AList.lookup id (items.foldl takeExpired acc).1 = some msg → msg.id = id := by
  induction items generalizing acc with
  | nil => exact keyed
  | cons item items ih => exact ih (keyed_takeExpired keyed item)

/-- One item of `m` takes the message of `m` out. -/
theorem takeExpired_foldl_of_mem {items : List InFlightItem}
    (acc : FMap Ulid StoredMsg × List StoredMsg)
    (keyed : ∀ id msg, AList.lookup id acc.1 = some msg → msg.id = id)
    (one : TimerWheel.itemsOf m items = [item]) (found : AList.lookup m acc.1 = some msg) :
    AList.lookup m (items.foldl takeExpired acc).1 = none ∧
      messagesOf m (items.foldl takeExpired acc).2 = messagesOf m acc.2 ++ [msg] := by
  obtain ⟨before, after, split, noneBefore, hit, noneAfter⟩ := List.filter_eq_cons_iff.1 one
  have hit : item.id = m := by simpa using hit
  have noneBefore : TimerWheel.itemsOf m before = [] := List.filter_eq_nil_iff.2 noneBefore
  subst split
  obtain ⟨lookup, taken⟩ := takeExpired_foldl_of_ne acc keyed noneBefore
  have keyed' := keyed_takeExpired_foldl before keyed
  simp only [List.foldl_append, List.foldl_cons]
  generalize before.foldl takeExpired acc = mid at lookup taken keyed' ⊢
  have here : takeExpired mid item = (AList.erase m mid.1, mid.2 ++ [msg]) := by
    unfold takeExpired
    rw [hit, lookup, found]
  obtain ⟨lookup', taken'⟩ := takeExpired_foldl_of_ne _ (keyed_takeExpired keyed' item) noneAfter
  have key : msg.id = m := keyed m msg found
  rw [here] at lookup' taken' ⊢
  refine ⟨lookup'.trans (AList.lookup_erase m mid.1), taken'.trans ?_⟩
  rw [← taken]
  simp [messagesOf, key]

@[simp] theorem seenIds_collectExpired (now : Nat) :
    (st.collectExpired now).1.seenIds = st.seenIds := rfl

@[simp] theorem ackedIds_collectExpired (now : Nat) :
    (st.collectExpired now).1.ackedIds = st.ackedIds := rfl

/-- What the expiry section does with one id: nothing, or it takes the message
out of the shard together with its lease. -/
inductive Collected (now : Nat) (m : Ulid) (status : Status) :
    ShardState × List StoredMsg → Prop
  | kept {after} : after.1.At m status → messagesOf m after.2 = [] →
      Collected now m status after
  | taken {after} (msg : StoredMsg) (item : InFlightItem) : status = .leased msg item →
      item.expireAt ≤ now → after.1.At m .away → messagesOf m after.2 = [msg] →
      Collected now m status after

theorem At.collectExpired (h : st.At m status) (keyed : st.Keyed) (now : Nat) :
    Collected now m status (st.collectExpired now) := by
  cases status with
  | away | pending msg =>
      obtain ⟨unleased, none⟩ := TimerWheel.Unleased.collectExpired h.lease now
      obtain ⟨lookup, taken⟩ := takeExpired_foldl_of_ne (st.messages, []) keyed none
      exact .kept ⟨lookup.trans h.msg, unleased, h.occ, h.tomb⟩ taken
  | leased msg item =>
      rcases hswept : st.wheel.collectExpired now with ⟨wheel, items⟩
      have swept := TimerWheel.Leased.collectExpired h.lease now
      rw [hswept] at swept
      have after : st.collectExpired now =
          ({ st with wheel, messages := (items.foldl takeExpired (st.messages, [])).1 },
            (items.foldl takeExpired (st.messages, [])).2) := by
        simp only [ShardState.collectExpired, hswept]
      rw [after]
      cases swept with
      | kept leased none =>
          obtain ⟨lookup, taken⟩ := takeExpired_foldl_of_ne (st.messages, []) keyed none
          exact .kept ⟨lookup.trans h.msg, leased, h.occ, h.tomb⟩ taken
      | collected due unleased one =>
          obtain ⟨lookup, taken⟩ :=
            takeExpired_foldl_of_mem (st.messages, []) keyed one h.msg
          exact .taken msg item rfl due ⟨lookup, unleased, h.occ, h.tomb⟩ taken

/-! ## Claiming -/

/-- The polled messages that carry the id `m`. -/
def polledOf (m : Ulid) (polled : List PolledMessage) : List PolledMessage :=
  polled.filter (fun p => p.id = m)

theorem claimOne_of_ne (env : Env) (now : Nat) (queue : String) (timeout : Nat) (acc : Claim)
    (other : id ≠ m) :
    AList.lookup m (claimOne env now queue timeout acc id).messages =
        AList.lookup m acc.messages ∧
      TimerWheel.SameLease m acc.wheel (claimOne env now queue timeout acc id).wheel ∧
      polledOf m (claimOne env now queue timeout acc id).polled = polledOf m acc.polled := by
  unfold claimOne
  cases AList.lookup id acc.messages with
  | none => exact ⟨rfl, .refl, rfl⟩
  | some msg =>
      exact ⟨AList.lookup_insert_ne other.symm, TimerWheel.insert_sameLease other,
        by simp [polledOf, other]⟩

theorem claimOne_foldl_of_notMem (env : Env) (now : Nat) (queue : String) (timeout : Nat)
    {ids : List Ulid} (acc : Claim) (others : m ∉ ids) :
    AList.lookup m (ids.foldl (claimOne env now queue timeout) acc).messages =
        AList.lookup m acc.messages ∧
      TimerWheel.SameLease m acc.wheel (ids.foldl (claimOne env now queue timeout) acc).wheel ∧
      polledOf m (ids.foldl (claimOne env now queue timeout) acc).polled =
        polledOf m acc.polled := by
  induction ids generalizing acc with
  | nil => exact ⟨rfl, .refl, rfl⟩
  | cons id ids ih =>
      have other : id ≠ m := fun same => others (by simp [same])
      obtain ⟨lookup, lease, polled⟩ := claimOne_of_ne env now queue timeout acc other
      obtain ⟨lookup', lease', polled'⟩ :=
        ih (claimOne env now queue timeout acc id) (fun member => others (by simp [member]))
      exact ⟨lookup'.trans lookup, lease.trans lease', polled'.trans polled⟩

/-- A message as its next delivery leaves it. -/
def delivered (msg : StoredMsg) : StoredMsg :=
  { msg with deliveryCount := (msg.deliveryCount + 1) % 2 ^ 32 }

/-- What a poll returns for a message it leases. -/
def polledMessage (env : Env) (msg : StoredMsg) (item : InFlightItem) : PolledMessage :=
  { id := item.id, messageId := env.ulidToString item.id, payload := msg.payload
    receiptHandle := item.receipt, deliveryCount := (delivered msg).deliveryCount }

/-- A lease of `m` taken by a poll of `queue`. -/
structure IsLease (m : Ulid) (queue : String) (now timeout : Nat) (item : InFlightItem) :
    Prop where
  id : item.id = m
  queue : item.queue = queue
  expireAt : item.expireAt = addU64 now timeout

theorem claimOne_of_lookup (env : Env) (now : Nat) (queue : String) (timeout : Nat) {acc : Claim}
    (found : AList.lookup m acc.messages = some msg) (unleased : acc.wheel.Unleased m) :
    ∃ item, IsLease m queue now timeout item ∧
      AList.lookup m (claimOne env now queue timeout acc m).messages = some (delivered msg) ∧
      (claimOne env now queue timeout acc m).wheel.Leased m item ∧
      polledOf m (claimOne env now queue timeout acc m).polled =
        polledOf m acc.polled ++ [polledMessage env msg item] := by
  refine ⟨⟨m, queue, env.ulidToString (env.ulidNew acc.draws), addU64 now timeout⟩,
    ⟨rfl, rfl, rfl⟩, ?_⟩
  unfold claimOne
  rw [found]
  refine ⟨AList.lookup_insert acc.messages, TimerWheel.Unleased.insert unleased, ?_⟩
  simp [polledOf, polledMessage, delivered]

/-- An id claimed once is leased once. -/
theorem claimOne_foldl_of_mem (env : Env) (now : Nat) (queue : String) (timeout : Nat)
    {ids : List Ulid} (acc : Claim)
    (once : ids.count m = 1) (found : AList.lookup m acc.messages = some msg)
    (unleased : acc.wheel.Unleased m) :
    ∃ item, IsLease m queue now timeout item ∧
      AList.lookup m (ids.foldl (claimOne env now queue timeout) acc).messages =
        some (delivered msg) ∧
      (ids.foldl (claimOne env now queue timeout) acc).wheel.Leased m item ∧
      polledOf m (ids.foldl (claimOne env now queue timeout) acc).polled =
        polledOf m acc.polled ++ [polledMessage env msg item] := by
  have member : m ∈ ids := List.count_pos_iff.1 (by omega)
  obtain ⟨before, after, split⟩ := List.append_of_mem member
  subst split
  have noneBefore : m ∉ before := fun inside => by
    have := List.count_pos_iff.2 inside
    simp at once
    omega
  have noneAfter : m ∉ after := fun inside => by
    have := List.count_pos_iff.2 inside
    simp at once
    omega
  obtain ⟨lookup, lease, polled⟩ :=
    claimOne_foldl_of_notMem env now queue timeout acc noneBefore
  simp only [List.foldl_append, List.foldl_cons]
  generalize before.foldl (claimOne env now queue timeout) acc = mid at lookup lease polled ⊢
  obtain ⟨item, isLease, lookup', lease', polled'⟩ :=
    claimOne_of_lookup env now queue timeout (lookup.trans found)
      (lease.unleased unleased)
  obtain ⟨lookup'', lease'', polled''⟩ :=
    claimOne_foldl_of_notMem env now queue timeout (claimOne env now queue timeout mid m) noneAfter
  exact ⟨item, isLease, lookup''.trans lookup', lease''.leased lease',
    polled''.trans (polled'.trans (by rw [polled]))⟩

/-- What the claim section does with one id: nothing, or it turns a waiting
message of the polled queue into a leased one and returns it. -/
inductive Claimed (env : Env) (queue : String) (now timeout : Nat) (m : Ulid)
    (status : Status) (after : ShardState) (polled : List PolledMessage) : Prop
  | kept : after.At m status → polledOf m polled = [] →
      Claimed env queue now timeout m status after polled
  | leased (msg : StoredMsg) (item : InFlightItem) : status = .pending msg → msg.queue = queue →
      IsLease m queue now timeout item → after.At m (.leased (delivered msg) item) →
      polledOf m polled = [polledMessage env msg item] →
      Claimed env queue now timeout m status after polled

theorem At.claim (h : st.At m status) {q : SingleQueue}
    (found : AList.lookup queue st.queues = some q) (env : Env)
    (draws now timeout maxMessages : Nat) :
    Claimed env queue now timeout m status
      (st.claim env draws queue q now timeout maxMessages).1
      (st.claim env draws queue q now timeout maxMessages).2.2 := by
  have clean : q.Clean m := h.clean found
  have here : q.occ m = status.waitsIn queue := by
    have count := h.occ queue
    rwa [ShardState.occ, found] at count
  obtain ⟨drainedOcc, drainedTomb⟩ := clean.advanceAndDrain (env.hashOrder draws Nat) now
  have clean' : (q.advanceAndDrain (env.hashOrder draws Nat) now).Clean m := fun tomb => by
    rw [drainedOcc]
    exact clean (drainedTomb tomb)
  obtain ⟨counts, tombs⟩ := clean'.popMany maxMessages
  unfold ShardState.claim
  dsimp only
  generalize (q.advanceAndDrain (env.hashOrder draws Nat) now).popMany maxMessages = popped
    at counts tombs ⊢
  rw [drainedOcc, here] at counts
  have tomb' : m ∈ popped.1.deleted → st.Tomb queue m := fun tomb =>
    ⟨q, found, drainedTomb (tombs tomb)⟩
  rcases Nat.eq_zero_or_pos (popped.2.count m) with none | some
  · obtain ⟨lookup, lease, polled⟩ := claimOne_foldl_of_notMem env now queue timeout
      ⟨st.messages, st.wheel, draws + 1, []⟩ (List.count_eq_zero.1 none)
    refine .kept ⟨lookup.trans h.msg, lease.leaseIs h.lease, fun name => ?_, fun name tomb => ?_⟩
      polled
    · refine (occ_insert_queue st m queue popped.1 name).trans ?_
      split
      · rename_i same
        subst same
        omega
      · exact h.occ name
    · have tomb := (tomb_insert_queue st m queue popped.1 name).1 tomb
      split at tomb
      · rename_i same
        exact h.tomb name (same ▸ tomb' tomb)
      · exact h.tomb name tomb
  · cases status with
    | away => simp [Status.waitsIn] at counts; omega
    | leased msg item => simp [Status.waitsIn] at counts; omega
    | pending msg =>
        have mine : msg.queue = queue := by
          by_contra other
          simp [Status.waitsIn, other] at counts
          omega
        simp only [Status.waitsIn, mine, if_true] at counts
        obtain ⟨item, isLease, lookup, lease, polled⟩ := claimOne_foldl_of_mem env now queue
          timeout ⟨st.messages, st.wheel, draws + 1, []⟩
          (show popped.2.count m = 1 by omega) h.msg h.lease
        refine .leased msg item rfl mine isLease ⟨lookup, lease, fun name => ?_, fun name _ => rfl⟩ polled
        refine (occ_insert_queue st m queue popped.1 name).trans ?_
        split
        · simp only [Status.waitsIn]
          omega
        · rename_i other
          refine (h.occ name).trans ?_
          simp only [Status.waitsIn, mine]
          exact if_neg fun same => other same.symm

@[simp] theorem seenIds_claim (env : Env) (draws : Nat) (q : SingleQueue)
    (now timeout maxMessages : Nat) :
    (st.claim env draws queue q now timeout maxMessages).1.seenIds = st.seenIds := rfl

@[simp] theorem ackedIds_claim (env : Env) (draws : Nat) (q : SingleQueue)
    (now timeout maxMessages : Nat) :
    (st.claim env draws queue q now timeout maxMessages).1.ackedIds = st.ackedIds := rfl

end ShardState

end WalrQueue
