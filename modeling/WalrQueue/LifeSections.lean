import WalrQueue.Life
import WalrQueue.WrittenLog

/-!
# Every lock section follows the life cycle

For each lock section of the engine, what it does to the point at which the
engine has one id.  A section either leaves the id where it is or makes one
transition of `Life.Next`.
-/

namespace WalrQueue.Tracks

open QueueEngine

variable {e : QueueEngine} {m id : Ulid} {home queue : String} {log : Set WalRecord}
  {held : Multiset StoredMsg} {life : Life} {msg : StoredMsg} {s : Fin numShards}

/-! ## Loading a message -/

/-- Recording an id as seen changes nothing else. -/
theorem see (h : Tracks e m home log held life) (s : Fin numShards) (id : Ulid) :
    Tracks (e.setShard s { e.shards s with seenIds := insert id (e.shards s).seenIds })
      m home log held life :=
  h.frame ((h.shards s).of_fields rfl rfl rfl) (fun seen => Finset.mem_insert_of_mem seen) Iff.rfl

/-- Storing a new message moves its id from fresh to pending. -/
theorem load (h : Tracks e m home log held life) (msg : StoredMsg) (now : Nat) (zero : msg.deliveryCount = 0)
    (mine : msg.id = m → life = .fresh ∧ msg.queue = home ∧
      m ∈ (e.shards (shardIdx home)).seenIds) :
    ∃ life', life.Loads life' ∧
      Tracks (e.setShard (shardIdx msg.queue) ((e.shards (shardIdx msg.queue)).store now msg))
        m home log held life' := by
  by_cases same : msg.id = m
  · obtain ⟨rfl, rfl, seen⟩ := mine same
    refine ⟨.pending msg, .load msg zero, fun s => ?_, h.hand, ?_, ?_, ?_, ?_, ?_, ?_⟩
    · by_cases here : s = shardIdx msg.queue
      · subst here
        simpa [Life.status] using (h.shards _).store now same
      · simpa [Life.status, here] using h.shards s
    · rintro _ ⟨⟩
      exact same
    · exact fun _ => seen_setShard (fun seen => by simpa using seen) seen
    · rintro queue ⟨⟩ other logged ne
      exact absurd (congrArg shardIdx ((h.fresh rfl).2 other logged)) ne
    · exact fun bad => by cases bad
    · exact fun bad => by cases bad
    · exact fun queue member => by cases h.acks queue member
  · exact ⟨life, .same life, h.frame ((h.shards _).store_of_ne now same) (fun seen => seen) Iff.rfl⟩

/-- An unseen id is fresh. -/
theorem fresh_of_unseen (h : Tracks e m home log held life)
    (unseen : m ∉ (e.shards (shardIdx home)).seenIds) : life = .fresh := by
  by_contra known
  exact unseen (h.seen (Or.inl known))

/-- The locked part of a push, whether the message is kept in memory or not. -/
theorem enter (h : Tracks e m home log held life) (msg : StoredMsg) (now : Nat) (zero : msg.deliveryCount = 0)
    (mine : msg.id = m → msg.queue = home)
    (unseen : msg.id ∉ (e.shards (shardIdx msg.queue)).seenIds) {st : ShardState}
    (after : st = { e.shards (shardIdx msg.queue) with
        seenIds := insert msg.id (e.shards (shardIdx msg.queue)).seenIds } ∨
      st = ShardState.store { e.shards (shardIdx msg.queue) with
        seenIds := insert msg.id (e.shards (shardIdx msg.queue)).seenIds } now msg) :
    ∃ life', life.Loads life' ∧ Tracks (e.setShard (shardIdx msg.queue) st) m home log held life' ∧
      msg.id ∈ ((e.setShard (shardIdx msg.queue) st).shards (shardIdx msg.queue)).seenIds := by
  have seen := h.see (shardIdx msg.queue) msg.id
  rcases after with rfl | rfl
  · exact ⟨life, .same life, seen, by simp⟩
  · have loaded := seen.load msg now zero fun same => by
      obtain rfl := mine same
      subst same
      exact ⟨h.fresh_of_unseen unseen, rfl, by simp⟩
    simp only [shards_setShard, setShard_setShard] at loaded
    obtain ⟨life', loads, tracks⟩ := loaded
    exact ⟨life', loads, tracks, by simp⟩

/-- After a push of `m` its Push record may be in the log. -/
theorem logPush (h : Tracks e m home log held life) {visibleAt : Nat} {payload : List UInt8}
    (mine : id = m → queue = home) (seen : id ∈ (e.shards (shardIdx queue)).seenIds) :
    Tracks e m home (insert (.push id queue visibleAt payload) log) held life := by
  refine h.grow fun r member same => ?_
  rcases member with rfl | old
  · have same : id = m := same
    obtain rfl := mine same
    subst same
    exact Or.inr (Or.inl ⟨visibleAt, payload, rfl, seen⟩)
  · exact Or.inl old

/-! ## Page-in -/

/-- A logged Push of an id that its shard neither holds nor has acked is a fresh
id at home, unless a poll has it in hand. -/
theorem fresh_of_absent (h : Tracks e m home log held life) (idle : ∀ msg, life ≠ .inHand msg)
    (logged : LoggedAs log m home queue) (absent : m ∉ (e.shards (shardIdx queue)).messages)
    (unacked : m ∉ (e.shards (shardIdx queue)).ackedIds) : life = .fresh ∧ queue = home := by
  have here := h.shards (shardIdx queue)
  rw [here.mem_messages] at absent
  have present : ∀ other, life.queue? = some other → shardIdx queue = shardIdx other := by
    intro other is
    by_contra ne
    exact unacked (h.elsewhere other is queue logged ne)
  cases life with
  | fresh => exact ⟨rfl, (h.fresh rfl).2 queue logged⟩
  | pending msg => simp [Life.status, present msg.queue rfl, Status.msg?] at absent
  | leased msg item => simp [Life.status, present msg.queue rfl, Status.msg?] at absent
  | inHand msg => exact absurd rfl (idle msg)
  | dead => exact absurd (h.dead rfl queue logged) unacked

/-- An Ack record of a dead id, or of another id, changes no life. -/
theorem applyAck (h : Tracks e m home log held life) (logged : .ack id queue ∈ log)
    (s : Fin numShards) :
    Tracks (e.setShard s ((e.shards s).applyAck queue id)) m home log held life := by
  by_cases same : id = m
  · subst same
    obtain rfl := h.acks queue logged
    exact h.setShard (h.shards s).applyAck (by simp) (fun acked => by simp [acked])
      (fun bad => by cases bad)
  · have other : m ≠ id := fun eq => same eq.symm
    exact h.frame ((h.shards s).applyAck_of_ne same) (by simp) (by simp [other])

/-- Page-in would load a Push of `m` in the shard, unless the shard has its message. -/
def Loadable (st : ShardState) (m : Ulid) (now : Nat) : WalRecord → Prop
  | .push msgId _ visibleAt _ =>
      msgId = m ∧ visibleAt ≤ addU64 now hotDelayHorizonSec ∧ m ∉ st.ackedIds
  | .ack .. => False

instance (st : ShardState) (m : Ulid) (now : Nat) :
    (r : WalRecord) → Decidable (Loadable st m now r)
  | .push .. => inferInstanceAs (Decidable (_ ∧ _ ∧ _))
  | .ack .. => inferInstanceAs (Decidable False)

/-- One record of a page-in section. -/
theorem pageInRecord (h : Tracks e m home log held life) {r : WalRecord} {now : Nat}
    (idle : Loadable (e.shards s) m now r → ∀ msg, life ≠ .inHand msg)
    (logged : r ∈ log) (here : shardIdx r.queueName = s) (opts : QueueOptions)
    (targetQueue : String) {acc : PageIn} (state : acc.state = e.shards s) :
    ∃ life', life.Loads life' ∧
      Tracks (e.setShard s (QueueEngine.pageInRecord opts now targetQueue acc r).state)
        m home log held life' := by
  cases r with
  | ack msgId queueName =>
      refine ⟨life, .same life, ?_⟩
      simp only [QueueEngine.pageInRecord, state]
      exact h.applyAck logged s
  | push msgId queueName visibleAt payload =>
      simp only [WalRecord.queueName] at here
      subst here
      unfold QueueEngine.pageInRecord
      dsimp only
      rw [state]
      split
      · rename_i taken
        obtain ⟨soon, absent, unacked⟩ := taken
        have seen := h.see (shardIdx queueName) msgId
        have loaded := seen.load ⟨msgId, queueName, payload, visibleAt, 0,
          opts.maxDeliveryCount⟩ now rfl fun same => by
            have same : msgId = m := same
            subst same
            obtain ⟨rfl, rfl⟩ := h.fresh_of_absent (idle ⟨rfl, soon, unacked⟩)
              (Or.inr ⟨visibleAt, payload, logged⟩) absent unacked
            exact ⟨rfl, rfl, by simp⟩
        simpa only [shards_setShard, setShard_setShard] using loaded
      · exact ⟨life, .same life, by simpa [state] using h⟩

theorem acked_pageInRecord (opts : QueueOptions) (now : Nat) (targetQueue : String) (acc : PageIn)
    (r : WalRecord) :
    acc.state.ackedIds ⊆ (QueueEngine.pageInRecord opts now targetQueue acc r).state.ackedIds := by
  unfold QueueEngine.pageInRecord
  cases r with
  | ack msgId queueName =>
      intro id acked
      simp [acked]
  | push msgId queueName visibleAt payload =>
      dsimp only
      split
      · exact fun id acked => acked
      · exact fun id acked => acked

/-- The records of one shard section of page-in. -/
theorem pageInRecords (records : List WalRecord) (h : Tracks e m home log held life) {now : Nat}
    (idle : (∃ r ∈ records, Loadable (e.shards s) m now r) → ∀ msg, life ≠ .inHand msg)
    (logged : ∀ r ∈ records, r ∈ log)
    (here : ∀ r ∈ records, shardIdx r.queueName = s) (opts : QueueOptions)
    (targetQueue : String) (acc : PageIn) (state : acc.state = e.shards s) :
    ∃ life', life.Loads life' ∧
      Tracks (e.setShard s (records.foldl (QueueEngine.pageInRecord opts now targetQueue)
        acc).state) m home log held life' := by
  induction records generalizing e life acc with
  | nil => exact ⟨life, .same life, by simpa [state] using h⟩
  | cons r records ih =>
      obtain ⟨mid, loads, tracks⟩ := h.pageInRecord
        (fun hit => idle ⟨r, by simp, hit⟩) (logged r (by simp)) (here r (by simp))
        opts targetQueue state
      have rest := ih tracks (fun later => loads.not_inHand (idle ?_))
        (fun r' member => logged r' (by simp [member]))
        (fun r' member => here r' (by simp [member]))
        (QueueEngine.pageInRecord opts now targetQueue acc r) (by simp)
      · obtain ⟨life', loads', tracks'⟩ := rest
        exact ⟨life', loads.trans loads', by simpa using tracks'⟩
      · obtain ⟨r', member, hit⟩ := later
        refine ⟨r', by simp [member], ?_⟩
        cases r' with
        | ack msgId queueName => exact hit
        | push msgId queueName visibleAt payload =>
            obtain ⟨same, soon, unacked⟩ := hit
            refine ⟨same, soon, fun acked => unacked ?_⟩
            rw [shards_setShard]
            exact acked_pageInRecord opts now targetQueue acc r (state ▸ acked)

/-- One shard section of page-in. -/
theorem pageInShard {records : List WalRecord} {acc : PageInChunk}
    (h : Tracks acc.engine m home log held life) (now : Nat)
    (idle : (∃ r ∈ shardRecords records s, Loadable (acc.engine.shards s) m now r) →
      ∀ msg, life ≠ .inHand msg)
    (logged : ∀ r ∈ records, r ∈ log) (targetQueue : String) :
    ∃ life', life.Loads life' ∧
      Tracks (QueueEngine.pageInShard now targetQueue records acc s).engine
        m home log held life' := by
  have member : ∀ r ∈ shardRecords records s, r ∈ records ∧ shardIdx r.queueName = s := by
    intro r inside
    simpa [shardRecords] using inside
  obtain ⟨life', loads, tracks⟩ := Tracks.pageInRecords (shardRecords records s) h idle
    (fun r inside => logged r (member r inside).1) (fun r inside => (member r inside).2)
    acc.engine.options targetQueue
    ⟨acc.engine.shards s, acc.engine.totalMessagesInRam, acc.added, acc.targetAdded⟩ rfl
  exact ⟨life', loads, tracks.congr rfl⟩

/-- One chunk of page-in, while no poll has a message in hand. -/
theorem pageInChunk {records : List WalRecord} (h : Tracks e m home log held life)
    (idle : ∀ msg, life ≠ .inHand msg) (logged : ∀ r ∈ records, r ∈ log) (now : Nat)
    (targetQueue : String) :
    ∃ life', life.Loads life' ∧
      Tracks (QueueEngine.pageInChunk now targetQueue e records).engine m home log held life' := by
  have shards : ∀ (ss : List (Fin numShards)) (acc : PageInChunk) (life : Life),
      (∀ msg, life ≠ .inHand msg) → Tracks acc.engine m home log held life →
      ∃ life', life.Loads life' ∧
        Tracks (ss.foldl (QueueEngine.pageInShard now targetQueue records) acc).engine
          m home log held life' := by
    intro ss
    induction ss with
    | nil => exact fun acc life _ h => ⟨life, .same life, h⟩
    | cons s ss ih =>
        intro acc life idle h
        obtain ⟨mid, loads, tracks⟩ :=
          h.pageInShard (s := s) now (fun _ => idle) logged targetQueue
        obtain ⟨life', loads', tracks'⟩ := ih _ mid (loads.not_inHand idle) tracks
        exact ⟨life', loads.trans loads', tracks'⟩
  obtain ⟨life', loads, tracks⟩ := shards (List.finRange numShards) ⟨e, 0, 0⟩ life idle h
  exact ⟨life', loads, tracks.congr rfl⟩

/-! ## Expiry -/

/-- What the expiry section does with one id. -/
inductive Expires (now : Nat) (m : Ulid) (s : Fin numShards) (taken : List StoredMsg) :
    Life → Life → Prop
  | kept (life : Life) : ShardState.messagesOf m taken = [] → Expires now m s taken life life
  | expire (msg : StoredMsg) (item : InFlightItem) : item.expireAt ≤ now →
      s = shardIdx msg.queue → ShardState.messagesOf m taken = [msg] →
      Expires now m s taken (.leased msg item) (.inHand msg)

/-- A poll takes messages of other ids in hand. -/
theorem hold (h : Tracks e m home log held life) {taken : List StoredMsg}
    (others : ShardState.messagesOf m taken = []) : Tracks e m home log (held + taken) life := by
  have hand : (held + taken).filter (fun msg => msg.id = m) = life.hand := by
    rw [Multiset.filter_add, Multiset.filter_coe, h.hand]
    have none : taken.filter (fun msg => msg.id = m) = [] := others
    rw [none]
    simp
  exact { h with hand }

/-- The expiry section of a poll: what it takes goes into the hands of the poll. -/
theorem collectExpired (h : Tracks e m home log held life) (keyed : (e.shards s).Keyed)
    (now : Nat) :
    ∃ life', Expires now m s (e.collectExpired s now).2 life life' ∧
      Tracks (e.collectExpired s now).1 m home log (held + (e.collectExpired s now).2) life' := by
  have outcome := (h.shards s).collectExpired keyed now
  have seen : ((e.shards s).collectExpired now).1.seenIds = (e.shards s).seenIds := rfl
  have acked : ((e.shards s).collectExpired now).1.ackedIds = (e.shards s).ackedIds := rfl
  simp only [QueueEngine.collectExpired]
  generalize (e.shards s).collectExpired now = after at outcome seen acked ⊢
  cases outcome with
  | kept here none =>
      exact ⟨life, .kept life none,
        (h.frame here (by rw [seen]; exact id) (by rw [acked])).hold none⟩
  | taken msg item is due away one =>
      obtain ⟨rfl, rfl⟩ := Life.eq_leased_of_status is
      refine ⟨.inHand msg, .expire msg item due rfl one, fun s' => ?_, ?_, h.msg,
        fun _ => ?_, ?_, ?_, ?_, ?_⟩
      · by_cases same : s' = shardIdx msg.queue
        · subst same
          simpa [Life.status] using away
        · simpa [same, Life.status] using h.shards s'
      · rw [Multiset.filter_add, Multiset.filter_coe, h.hand]
        have one : after.2.filter (fun msg => msg.id = m) = [msg] := one
        rw [one]
        rfl
      · exact seen_setShard (by rw [seen]; exact id) (h.seen (Or.inl fun bad => by cases bad))
      · exact fun queue here other logged ne =>
          acked_setShard (by rw [acked]; exact id) (h.elsewhere queue here other logged ne)
      · exact fun bad => by cases bad
      · exact fun bad => by cases bad
      · exact fun queue member => by cases h.acks queue member

/-! ## Routing an expired message -/

/-- A poll with a message of `m` in hand. -/
theorem inHand_of_mem (h : Tracks e m home log held life) (member : msg ∈ held)
    (same : msg.id = m) : life = .inHand msg := by
  have inHand : msg ∈ life.hand := by
    rw [← h.hand]
    exact Multiset.mem_filter.2 ⟨member, same⟩
  cases life with
  | inHand msg' => rw [Multiset.mem_singleton.1 inHand]
  | fresh | pending | leased | dead => simp [Life.hand] at inHand

/-- The first lock of the dead-letter branch. -/
theorem retireExpired (h : Tracks e m home log held life) (member : msg ∈ held) :
    Tracks (e.retireExpired msg) m home log held life := by
  unfold QueueEngine.retireExpired
  dsimp only
  have unchanged : ({ e.shards (shardIdx msg.queue) with
      ackedIds := insert msg.id (e.shards (shardIdx msg.queue)).ackedIds } : ShardState).At m
        (life.status (shardIdx msg.queue)) := (h.shards _).of_fields rfl rfl rfl
  by_cases same : msg.id = m
  · obtain rfl := h.inHand_of_mem member same
    exact h.setShard (unchanged.markDeleted fun _ => rfl) (by simp) (fun acked => by simp [acked])
      (fun bad => by cases bad)
  · have other : m ≠ msg.id := fun eq => same eq.symm
    exact h.frame (unchanged.markDeleted fun eq => absurd eq same) (by simp) (by simp [other])

theorem acked_retireExpired :
    msg.id ∈ ((e.retireExpired msg).shards (shardIdx msg.queue)).ackedIds := by
  simp [QueueEngine.retireExpired]

/-- A message in hand is stored again: in its own shard, or in another one once
its own has recorded it as acked. -/
theorem putBack (h : Tracks e m home log (msg ::ₘ held) life) (msg' : StoredMsg)
    (sameId : msg'.id = msg.id) (now : Nat)
    (moved : shardIdx msg'.queue = shardIdx msg.queue ∨
      msg.id ∈ (e.shards (shardIdx msg.queue)).ackedIds) :
    Tracks (e.setShard (shardIdx msg'.queue) ((e.shards (shardIdx msg'.queue)).store now msg'))
      m home log held (if msg.id = m then .pending msg' else life) := by
  by_cases same : msg.id = m
  · obtain rfl := h.inHand_of_mem (Multiset.mem_cons_self msg held) same
    rw [if_pos same]
    refine ⟨fun s => ?_, ?_, ?_, fun _ => ?_, ?_, ?_, ?_, ?_⟩
    · by_cases here : s = shardIdx msg'.queue
      · subst here
        simpa [Life.status] using (h.shards _).store now (sameId.trans same)
      · simpa [Life.status, here] using h.shards s
    · have hand := h.hand
      rw [Multiset.filter_cons_of_pos (p := fun msg => msg.id = m) held same] at hand
      exact (Multiset.cons_inj_right msg).1 hand
    · rintro _ ⟨⟩
      exact sameId.trans same
    · exact seen_setShard (fun seen => by simpa using seen)
        (h.seen (Or.inl fun bad => by cases bad))
    · rintro queue ⟨⟩ other logged ne
      refine acked_setShard (fun acked => by simpa using acked) ?_
      by_cases original : shardIdx other = shardIdx msg.queue
      · rcases moved with stays | acked
        · exact absurd (original.trans stays.symm) ne
        · rw [original, ← same]
          exact acked
      · exact h.elsewhere msg.queue rfl other logged original
    · exact fun bad => by cases bad
    · exact fun bad => by cases bad
    · exact fun queue member => by cases h.acks queue member
  · rw [if_neg same]
    have hand := h.hand
    rw [Multiset.filter_cons_of_neg (p := fun msg => msg.id = m) held same] at hand
    have other : msg'.id ≠ m := by rw [sameId]; exact same
    exact Tracks.frame { h with hand } ((h.shards _).store_of_ne now other) (fun seen => seen)
      Iff.rfl

/-- The second lock of the dead-letter branch. -/
theorem deadLetter (h : Tracks e m home log (msg ::ₘ held) life) (now : Nat)
    (retired : msg.id ∈ (e.shards (shardIdx msg.queue)).ackedIds) :
    Tracks (e.deadLetter now msg) m home log held
      (if msg.id = m then .pending { msg with queue := dlqName msg.queue, visibleAt := now }
        else life) := by
  have seen := h.see (shardIdx (dlqName msg.queue)) msg.id
  have stored := seen.putBack { msg with queue := dlqName msg.queue, visibleAt := now }
    rfl now (Or.inr (acked_setShard (fun acked => acked) retired))
  simp only [shards_setShard, setShard_setShard] at stored
  exact stored

/-- The other branch: back to the queue it came from. -/
theorem requeue (h : Tracks e m home log (msg ::ₘ held) life) (now : Nat) :
    Tracks (e.requeue now msg) m home log held
      (if msg.id = m then .pending { msg with visibleAt := now } else life) :=
  h.putBack { msg with visibleAt := now } rfl now (Or.inl rfl)

/-- One expired message is put back. -/
theorem routeExpired (h : Tracks e m home log (msg ::ₘ held) life) (now : Nat) :
    Tracks (QueueEngine.routeExpired now e msg) m home log held
      (if msg.id = m then .pending (Life.routed now msg) else life) := by
  unfold QueueEngine.routeExpired Life.routed
  split
  · exact (h.retireExpired (Multiset.mem_cons_self msg held)).deadLetter now acked_retireExpired
  · exact h.requeue now

/-! ## Claiming -/

/-- What the claim section does with one id. -/
inductive Leases (env : Env) (queue : String) (now timeout : Nat) (m : Ulid)
    (polled : List PolledMessage) : Life → Life → Prop
  | kept (life : Life) : ShardState.polledOf m polled = [] →
      Leases env queue now timeout m polled life life
  | lease (msg : StoredMsg) (item : InFlightItem) : msg.queue = queue →
      ShardState.IsLease m queue now timeout item →
      ShardState.polledOf m polled = [ShardState.polledMessage env msg item] →
      Leases env queue now timeout m polled (.pending msg)
        (.leased (ShardState.delivered msg) item)

/-- The claim section of a poll. -/
theorem claimSection (h : Tracks e m home log held life) (env : Env) (queue : String)
    (now timeout maxMessages : Nat) :
    ∃ life', Leases env queue now timeout m
        (e.claimSection env queue now timeout maxMessages).2 life life' ∧
      Tracks (e.claimSection env queue now timeout maxMessages).1 m home log held life' := by
  unfold QueueEngine.claimSection
  dsimp only
  cases found : AList.lookup queue (e.shards (shardIdx queue)).queues with
  | none => exact ⟨life, .kept life rfl, h⟩
  | some q =>
      have outcome := (h.shards (shardIdx queue)).claim found env e.draws now timeout maxMessages
      dsimp only
      generalize claimed : (e.shards (shardIdx queue)).claim env e.draws queue q now timeout
        maxMessages = after at outcome ⊢
      have seen : after.1.seenIds = (e.shards (shardIdx queue)).seenIds := by rw [← claimed]; rfl
      have acked : after.1.ackedIds = (e.shards (shardIdx queue)).ackedIds := by
        rw [← claimed]; rfl
      cases outcome with
      | kept here none =>
          exact ⟨life, .kept life none,
            (h.frame here (by rw [seen]; exact id) (by rw [acked])).congr rfl⟩
      | leased msg item is mine isLease here one =>
          obtain ⟨rfl, _⟩ := Life.eq_pending_of_status is
          subst mine
          refine ⟨.leased (ShardState.delivered msg) item, .lease msg item rfl isLease one,
            Tracks.congr (e := e.setShard (shardIdx msg.queue) after.1) ?_ rfl⟩
          refine ⟨fun s => ?_, h.hand, ?_, fun _ => ?_, ?_, ?_, ?_, ?_⟩
          · by_cases same : s = shardIdx msg.queue
            · subst same
              simpa [Life.status, ShardState.delivered] using here
            · simpa [same, Life.status, ShardState.delivered] using h.shards s
          · rintro _ ⟨⟩
            exact h.msg msg rfl
          · exact seen_setShard (by rw [seen]; exact id) (h.seen (Or.inl fun bad => by cases bad))
          · rintro queue ⟨⟩ other logged ne
            exact acked_setShard (by rw [acked]; exact id)
              (h.elsewhere msg.queue rfl other logged ne)
          · exact fun bad => by cases bad
          · exact fun bad => by cases bad
          · exact fun queue member => by cases h.acks queue member

/-! ## Acknowledging -/

/-- The locked section of an ack of `m`: it succeeds exactly on the receipt of
the current lease, given to the shard that holds it. -/
theorem ackLease_eq (h : Tracks e m home log held life) (queue receipt : String) :
    (life.Accepts queue receipt ∧
      (e.shards (shardIdx queue)).ackLease queue m receipt =
        some ((e.shards (shardIdx queue)).acked queue m receipt, true)) ∨
    (¬ life.Accepts queue receipt ∧
      (e.shards (shardIdx queue)).ackLease queue m receipt = none) := by
  rw [(h.shards (shardIdx queue)).ackLease queue receipt]
  by_cases valid : ((life.status (shardIdx queue)).item?.map (·.receipt)) = some receipt
  · rw [if_pos valid]
    refine Or.inl ⟨?_, rfl⟩
    cases is : life.status (shardIdx queue) with
    | away => simp [is, Status.item?] at valid
    | pending msg => simp [is, Status.item?] at valid
    | leased msg item =>
        obtain ⟨rfl, here⟩ := Life.eq_leased_of_status is
        exact ⟨msg, item, rfl, here.symm, by simpa [is, Status.item?] using valid⟩
  · rw [if_neg valid]
    refine Or.inr ⟨?_, rfl⟩
    rintro ⟨msg, item, rfl, here, same⟩
    simp [Life.status, here, Status.item?, same] at valid

/-- A successful ack ends the life of its id. -/
theorem acked (h : Tracks e m home log held life) {receipt : String}
    (accepts : life.Accepts queue receipt) :
    Tracks (e.setShard (shardIdx queue) ((e.shards (shardIdx queue)).acked queue m receipt))
      m home log held .dead := by
  obtain ⟨msg, item, rfl, here, rfl⟩ := accepts
  have status : (e.shards (shardIdx queue)).At m (.leased msg item) := by
    simpa [Life.status, here] using h.shards (shardIdx queue)
  refine ⟨fun s => ?_, h.hand, fun msg' is => (by cases is), fun _ => ?_,
    fun q is => (by cases is), fun bad => (by cases bad), fun _ other logged => ?_,
    fun q member => rfl⟩
  · by_cases same : s = shardIdx queue
    · subst same
      simpa [Life.status] using status.acked
    · have away : s ≠ shardIdx msg.queue := by rw [here]; exact same
      simpa [Life.status, same, away] using h.shards s
  · exact seen_setShard (by simp) (h.seen (Or.inl fun bad => by cases bad))
  · by_cases same : shardIdx other = shardIdx queue
    · rw [same]
      simp
    · refine acked_setShard (fun old => by simp [old]) ?_
      exact h.elsewhere msg.queue rfl other logged (by rw [here]; exact same)

/-- An ack of another id. -/
theorem ackLease_of_ne (h : Tracks e m home log held life) {receipt : String}
    {done : ShardState × Bool} (valid : (e.shards s).ackLease queue id receipt = some done)
    (other : id ≠ m) : Tracks (e.setShard s done.1) m home log held life := by
  have other' : m ≠ id := fun eq => other eq.symm
  refine h.frame ((h.shards s).ackLease_of_ne valid other) ?_ ?_
  · rw [ShardState.ackLease_seenIds valid]
    exact fun seen => seen
  · rw [(ShardState.ackLease_messages valid).2]
    simp [other']

/-- After an ack of `m` its Ack record may be in the log. -/
theorem logAck (h : Tracks e m home log held life) (mine : id = m → life = .dead) :
    Tracks e m home (insert (.ack id queue) log) held life := by
  refine h.grow fun r member same => ?_
  rcases member with rfl | old
  · have same : id = m := same
    subst same
    exact Or.inr (Or.inr (Or.inr ⟨queue, rfl, mine rfl⟩))
  · exact Or.inl old

/-! ## Compaction -/

/-- The queue a survivor of `m` is written under is the one `m` belongs to. -/
theorem queue_of_lookup (h : Tracks e m home log held life)
    (found : AList.lookup m (e.shards s).messages = some msg) :
    life.msg? = some msg ∧ s = shardIdx msg.queue := by
  have is := (h.shards s).msg.symm.trans found
  cases status : life.status s with
  | away => simp [status, Status.msg?] at is
  | pending msg' =>
      obtain ⟨rfl, here⟩ := Life.eq_pending_of_status status
      simp only [status, Status.msg?, Option.some.injEq] at is
      subst is
      exact ⟨rfl, here⟩
  | leased msg' item =>
      obtain ⟨rfl, here⟩ := Life.eq_leased_of_status status
      simp only [status, Status.msg?, Option.some.injEq] at is
      subst is
      exact ⟨rfl, here⟩

/-- The survivors of a compaction may be in the log. -/
theorem logSurvivors (h : Tracks e m home log held life) (env : Env) :
    Tracks e m home (log ∪ {r | r ∈ e.survivors env}) held life := by
  refine h.grow fun r member same => ?_
  rcases member with old | survives
  · exact Or.inl old
  · obtain ⟨s, id, msg, found, rfl⟩ := mem_survivors.1 survives
    have same : id = m := same
    subst same
    refine Or.inr (Or.inr (Or.inl ⟨msg.queue, _, _, rfl, ?_⟩))
    rw [Life.queue?, (h.queue_of_lookup found).1]
    rfl

end WalrQueue.Tracks
