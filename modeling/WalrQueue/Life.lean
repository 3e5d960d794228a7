import WalrQueue.EngineFrames
import WalrQueue.ShardLocation

/-!
# The life of one message

`Life` is the life cycle the engine implements for one id: a message is fresh
(unknown, or only on disk), then waits in a queue, is leased, comes back into
the hand of a poll when its lease expires, is put back or dead-lettered, and is
dead once acked.  `Next` lists the transitions.

`Tracks` says which point of the cycle an engine has an id at, and that the
`seen_ids` and `acked_ids` of the shards agree with it.  It is stated for one id
over all shards, a set `log` of records that may still be read from the WAL, and
the messages `held` that polls have taken out of `messages` and not yet put
back.
-/

namespace WalrQueue

/-! ## The cycle -/

/-- A point of the life cycle. -/
inductive Life where
  | fresh
  | pending (msg : StoredMsg)
  | leased (msg : StoredMsg) (item : InFlightItem)
  | inHand (msg : StoredMsg)
  | dead
  deriving Inhabited

namespace Life

/-- The message, while the engine holds it in memory. -/
def msg? : Life → Option StoredMsg
  | pending msg => some msg
  | leased msg _ => some msg
  | inHand msg => some msg
  | fresh => none
  | dead => none

/-- The queue it belongs to. -/
def queue? (life : Life) : Option String := life.msg?.map (·.queue)

/-- The queue and the receipt of its lease. -/
def lease? : Life → Option (String × String)
  | leased _ item => some (item.queue, item.receipt)
  | _ => none

/-- Whether it was acked. -/
def isDead : Life → Bool
  | dead => true
  | _ => false

/-- What the polls hold of it. -/
def hand : Life → Multiset StoredMsg
  | inHand msg => {msg}
  | _ => 0

/-- Its status in each shard. -/
def status : Life → Fin numShards → Status
  | pending msg, s => if s = shardIdx msg.queue then .pending msg else .away
  | leased msg item, s => if s = shardIdx msg.queue then .leased msg item else .away
  | _, _ => .away

theorem eq_leased_of_status {life : Life} {s : Fin numShards} {msg : StoredMsg}
    {item : InFlightItem} (is : life.status s = .leased msg item) :
    life = leased msg item ∧ s = shardIdx msg.queue := by
  cases life with
  | leased msg' item' =>
      simp only [status] at is
      split at is
      · cases is
        exact ⟨rfl, by assumption⟩
      · cases is
  | pending msg' =>
      simp only [status] at is
      split at is <;> cases is
  | fresh | inHand | dead => cases is

theorem eq_pending_of_status {life : Life} {s : Fin numShards} {msg : StoredMsg}
    (is : life.status s = .pending msg) : life = pending msg ∧ s = shardIdx msg.queue := by
  cases life with
  | pending msg' =>
      simp only [status] at is
      split at is
      · cases is
        exact ⟨rfl, by assumption⟩
      · cases is
  | leased msg' item' =>
      simp only [status] at is
      split at is <;> cases is
  | fresh | inHand | dead => cases is

/-- An ack under a queue name with a receipt ends the current lease. -/
def Accepts (life : Life) (queue receipt : String) : Prop :=
  ∃ msg item, life = leased msg item ∧ shardIdx msg.queue = shardIdx queue ∧
    item.receipt = receipt

/-- A message put back by the poll that found its lease expired. -/
def routed (now : Nat) (msg : StoredMsg) : StoredMsg :=
  if msg.maxDelivery ≤ msg.deliveryCount then
    { msg with queue := dlqName msg.queue, visibleAt := now }
  else { msg with visibleAt := now }

/-- The transitions of the life cycle. -/
inductive Next : Life → Life → Prop
  | load (msg : StoredMsg) : msg.deliveryCount = 0 → Next fresh (pending msg)
  | lease (msg : StoredMsg) (item : InFlightItem) :
      Next (pending msg) (leased (ShardState.delivered msg) item)
  | expire (msg : StoredMsg) (item : InFlightItem) : Next (leased msg item) (inHand msg)
  | route (msg : StoredMsg) (now : Nat) : Next (inHand msg) (pending (routed now msg))
  | ack (msg : StoredMsg) (item : InFlightItem) : Next (leased msg item) dead

/-- A new message is loaded, or nothing happens. -/
inductive Loads : Life → Life → Prop
  | same (life : Life) : Loads life life
  | load (msg : StoredMsg) : msg.deliveryCount = 0 → Loads fresh (pending msg)

theorem Loads.trans {a b c : Life} (first : Loads a b) (second : Loads b c) : Loads a c := by
  cases first with
  | same => exact second
  | load msg zero =>
      cases second with
      | same => exact .load msg zero

theorem Loads.not_inHand {a b : Life} (loads : Loads a b) (idle : ∀ msg, a ≠ .inHand msg) :
    ∀ msg, b ≠ .inHand msg := by
  cases loads with
  | same => exact idle
  | load msg zero => exact fun _ h => by cases h

end Life

/-! ## The invariant of one id -/

/-- `m` was logged under the queue name, or it is its home. -/
def LoggedAs (log : Set WalRecord) (m : Ulid) (home queue : String) : Prop :=
  queue = home ∨ ∃ visibleAt payload, WalRecord.push m queue visibleAt payload ∈ log

/-- The engine has `m`, pushed to the queue `home`, at the point `life`. -/
structure Tracks (e : QueueEngine) (m : Ulid) (home : String) (log : Set WalRecord)
    (held : Multiset StoredMsg) (life : Life) : Prop where
  shards : ∀ s, (e.shards s).At m (life.status s)
  hand : held.filter (fun msg => msg.id = m) = life.hand
  msg : ∀ msg, life.msg? = some msg → msg.id = m
  seen : (life ≠ .fresh ∨ ∃ r ∈ log, r.msgId = m) → m ∈ (e.shards (shardIdx home)).seenIds
  elsewhere : ∀ queue, life.queue? = some queue → ∀ other, LoggedAs log m home other →
    shardIdx other ≠ shardIdx queue → m ∈ (e.shards (shardIdx other)).ackedIds
  fresh : life = .fresh → m ∉ (e.shards (shardIdx home)).ackedIds ∧
    ∀ other, LoggedAs log m home other → other = home
  dead : life = .dead → ∀ other, LoggedAs log m home other →
    m ∈ (e.shards (shardIdx other)).ackedIds
  acks : ∀ queue, WalRecord.ack m queue ∈ log → life = .dead

namespace Tracks

variable {e e' : QueueEngine} {m id : Ulid} {home queue : String} {log log' : Set WalRecord}
  {held : Multiset StoredMsg} {life : Life} {msg : StoredMsg} {s : Fin numShards}
  {st : ShardState}

/-- Only the shards matter. -/
theorem congr (h : Tracks e m home log held life) (shards : e'.shards = e.shards) :
    Tracks e' m home log held life where
  shards := by rw [shards]; exact h.shards
  hand := h.hand
  msg := h.msg
  seen := by rw [shards]; exact h.seen
  elsewhere := by rw [shards]; exact h.elsewhere
  fresh := by rw [shards]; exact h.fresh
  dead := by rw [shards]; exact h.dead
  acks := h.acks

/-- A section of one shard that leaves `m` where it is.  The ids seen and acked
may grow, but a fresh id is not acked. -/
theorem setShard (h : Tracks e m home log held life) (here : st.At m (life.status s))
    (seen : m ∈ (e.shards s).seenIds → m ∈ st.seenIds)
    (acked : m ∈ (e.shards s).ackedIds → m ∈ st.ackedIds)
    (unacked : life = .fresh → m ∈ st.ackedIds → m ∈ (e.shards s).ackedIds) :
    Tracks (e.setShard s st) m home log held life where
  shards s' := by
    by_cases same : s' = s
    · subst same
      simpa using here
    · simpa [same] using h.shards s'
  hand := h.hand
  msg := h.msg
  seen known := QueueEngine.seen_setShard seen (h.seen known)
  elsewhere queue present other logged ne :=
    QueueEngine.acked_setShard acked (h.elsewhere queue present other logged ne)
  fresh is := by
    refine ⟨fun bad => (h.fresh is).1 ?_, (h.fresh is).2⟩
    by_cases same : shardIdx home = s
    · subst same
      exact unacked is (by simpa using bad)
    · simpa [same] using bad
  dead is other logged := QueueEngine.acked_setShard acked (h.dead is other logged)
  acks := h.acks

/-- A section of one shard that changes nothing about `m`. -/
theorem frame (h : Tracks e m home log held life) (here : st.At m (life.status s))
    (seen : m ∈ (e.shards s).seenIds → m ∈ st.seenIds)
    (acked : m ∈ st.ackedIds ↔ m ∈ (e.shards s).ackedIds) :
    Tracks (e.setShard s st) m home log held life :=
  h.setShard here seen acked.2 fun _ => acked.1

/-- The log may grow by records that fit the life of `m`. -/
theorem grow (h : Tracks e m home log held life)
    (new : ∀ r ∈ log', r.msgId = m → r ∈ log ∨
      (∃ visibleAt payload, r = .push m home visibleAt payload ∧
        m ∈ (e.shards (shardIdx home)).seenIds) ∨
      (∃ queue visibleAt payload, r = .push m queue visibleAt payload ∧
        life.queue? = some queue) ∨
      (∃ queue, r = .ack m queue ∧ life = .dead)) :
    Tracks e m home log' held life := by
  have named : ∀ other, LoggedAs log' m home other →
      LoggedAs log m home other ∨ life.queue? = some other := by
    intro other logged
    rcases logged with rfl | ⟨visibleAt, payload, member⟩
    · exact Or.inl (Or.inl rfl)
    · rcases new _ member rfl with old | ⟨v, p, eq, _⟩ | ⟨q, v, p, eq, here⟩ | ⟨q, eq, _⟩
      · exact Or.inl (Or.inr ⟨visibleAt, payload, old⟩)
      · cases eq
        exact Or.inl (Or.inl rfl)
      · cases eq
        exact Or.inr here
      · cases eq
  have present : ∀ queue, life.queue? = some queue → life ≠ .fresh := by
    rintro queue here rfl
    cases here
  refine ⟨h.shards, h.hand, h.msg, fun known => ?_, fun queue here other logged ne => ?_,
    fun is => ⟨(h.fresh is).1, fun other logged => ?_⟩, fun is other logged => ?_,
    fun queue member => ?_⟩
  · rcases known with known | ⟨r, member, same⟩
    · exact h.seen (Or.inl known)
    · rcases new r member same with old | ⟨_, _, _, seen⟩ | ⟨q, _, _, _, here⟩ | ⟨_, _, is⟩
      · exact h.seen (Or.inr ⟨r, old, same⟩)
      · exact seen
      · exact h.seen (Or.inl (present q here))
      · exact h.seen (Or.inl (by rw [is]; exact fun bad => by cases bad))
  · rcases named other logged with old | now
    · exact h.elsewhere queue here other old ne
    · rw [here] at now
      cases now
      exact absurd rfl ne
  · rcases named other logged with old | now
    · exact (h.fresh is).2 other old
    · exact absurd is (present other now)
  · rcases named other logged with old | now
    · exact h.dead is other old
    · rw [is] at now
      cases now
  · rcases new _ member rfl with old | ⟨_, _, eq, _⟩ | ⟨_, _, _, eq, _⟩ | ⟨_, _, is⟩
    · exact h.acks queue old
    · cases eq
    · cases eq
    · exact is

end Tracks

end WalrQueue
