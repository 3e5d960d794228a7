import WalrQueue.Lib.Broker
import WalrQueue.ReadyCount
import WalrQueue.Redelivery
import WalrQueue.Restart
import WalrQueue.SnapshotInstall

/-!
# The engine refines a broker

The abstract broker hands out what was offered, under leases; it knows neither memory nor disk.
Every ordinary run of the engine is one of its runs with the same answers, whatever the RAM cap,
the delays and the clock, through page-ins, expired leases, dead-letter queues and compactions.
What holds of every history of the broker therefore holds of what the engine returns.
-/

namespace WalrQueue

open QueueEngine

/-! ## Where the payloads of a run come from -/

namespace Sourced

variable {source : Ulid → List UInt8 → Prop} {e e' : QueueEngine}

theorem pushBatchItem {acc : PushBatch} (h : Sourced source acc.engine) (env : Env) (now : Nat)
    (queue : String) {item : PushItem} (fits : item.payload.length < 2 ^ 32)
    (known : source (drawId env acc.engine.draws item.id).1 item.payload) :
    Sourced source (QueueEngine.pushBatchItem env now queue acc item).engine := by
  have memory : (QueueEngine.pushBatchItem env now queue acc item).engine.Every
      (ComesFrom source) := h.memory.pushBatchItem env ⟨⟨rfl, fits⟩, known⟩
  have drawn : Sourced source
      { acc.engine with draws := (drawId env acc.engine.draws item.id).2 } :=
    h.congr rfl rfl (h.memory.congr rfl)
  rcases pushBatchItem_cases env now queue acc item with ⟨_, eq⟩ | ⟨_, eq⟩
  · rw [eq]
    exact drawn
  · rw [eq] at memory ⊢
    obtain ⟨disk, cursor⟩ := disk_pushBatchNew now queue { acc with
      engine := { acc.engine with draws := (drawId env acc.engine.draws item.id).2 }
      ids := acc.ids ++ [(drawId env acc.engine.draws item.id).1] }
      (drawId env acc.engine.draws item.id).1 item
    refine drawn.append (r := .push _ queue (addU64 now item.delaySeconds) item.payload) fits ?_
      disk cursor memory
    intro id queue' visibleAt payload is
    cases is
    exact known

theorem pushBatch (h : Sourced source e) (env : Env) (now : Nat) (queue : String)
    {items : List PushItem} (fits : ∀ item ∈ items, item.payload.length < 2 ^ 32)
    (known : ∀ asked ∈ pushBatchAsked env now queue ⟨e, [], 0, e.totalMessagesInRam⟩ items,
      source asked.1 asked.2.2) :
    Sourced source (e.pushBatch env now queue items).1 := by
  have loop : ∀ (items : List PushItem) (acc : PushBatch), Sourced source acc.engine →
      (∀ item ∈ items, item.payload.length < 2 ^ 32) →
      (∀ asked ∈ pushBatchAsked env now queue acc items, source asked.1 asked.2.2) →
      Sourced source (items.foldl (QueueEngine.pushBatchItem env now queue) acc).engine := by
    intro items
    induction items with
    | nil => exact fun acc h _ _ => h
    | cons item items ih =>
        intro acc h fits known
        have first := h.pushBatchItem env now queue (fits item List.mem_cons_self)
          (known _ List.mem_cons_self)
        exact ih _ first (fun item' inside => fits item' (.tail _ inside))
          fun asked inside => known asked (.tail _ inside)
  have pushed := loop items ⟨e, [], 0, e.totalMessagesInRam⟩ h fits known
  have unchecked : Sourced source (e.pushBatchUnchecked env now queue items) :=
    pushed.congr rfl rfl (pushed.memory.congr rfl)
  exact unchecked.checkAndTriggerCompaction env

/-- An accepted receipt and its Ack record. -/
theorem accept (h : Sourced source e) {queue receipt : String} {id : Ulid}
    {done : ShardState × Bool}
    (valid : (e.shards (shardIdx queue)).ackLease queue id receipt = some done)
    (shards : e'.shards = (e.setShard (shardIdx queue) done.1).shards)
    (disk : e'.disk = e.disk.append (.ack id queue))
    (cursor : e'.spillReadOffset = e.spillReadOffset) : Sourced source e' := by
  have memory := (h.memory.setShard ((h.memory _).ackLease valid)).congr shards
  exact h.append (r := .ack id queue) trivial (fun _ _ _ _ is => by cases is) disk cursor memory

theorem ack (h : Sourced source e) (env : Env) (queue messageId receipt : String) :
    Sourced source (e.ack env queue messageId receipt).1 := by
  unfold QueueEngine.ack
  split
  · exact h
  · rename_i done success
    obtain ⟨id, _, success⟩ := Option.bind_eq_some_iff.1 success
    unfold QueueEngine.ackUnchecked at success
    split at success
    · cases success
    · rename_i st wasLive valid
      cases success
      refine Sourced.checkAndTriggerCompaction ?_ env
      exact h.accept valid rfl rfl rfl

theorem ackBatch (h : Sourced source e) (env : Env) (queue : String)
    (items : List (String × String)) : Sourced source (e.ackBatch env queue items).1 := by
  have loop : ∀ (items : List (Ulid × String)) (acc : AckBatch), Sourced source acc.engine →
      Sourced source (items.foldl (ackBatchItem queue) acc).engine := by
    intro items
    induction items with
    | nil => exact fun acc h => h
    | cons item items ih =>
        intro acc h
        apply ih
        cases valid : (acc.engine.shards (shardIdx queue)).ackLease queue item.1 item.2 with
        | none =>
            rw [ackBatchItem_of_invalid valid]
            exact h
        | some done =>
            obtain ⟨shards, disk, cursor, _⟩ := ackBatchItem_of_valid valid
            exact h.accept valid shards disk cursor
  obtain ⟨disk, cursor, shards⟩ := disk_ackBatchUnchecked env e queue items
  have acked := loop (parsedItems env items) ⟨e, 0, []⟩ h
  have unchecked : Sourced source (e.ackBatchUnchecked env queue items) :=
    acked.congr disk cursor (acked.memory.congr shards)
  exact unchecked.checkAndTriggerCompaction env

/-- An operation keeps to a source that has what it is asked to push. -/
theorem step {env : Env} {w : World} {op : Op} (h : Sourced source w.engine)
    (small : ∀ payload ∈ op.payloads, payload.length < 2 ^ 32)
    (known : ∀ asked ∈ w.asked env op, source asked.1 asked.2.2) :
    Sourced source (w.step env op).engine := by
  cases op with
  | push queue id payload delaySec =>
      exact h.pushWithUlid env w.clock queue (small payload List.mem_cons_self)
        (known (id, queue, payload) List.mem_cons_self) delaySec
  | pushBatch queue items =>
      exact h.pushBatch env w.clock queue (fun item inside => small _ (List.mem_map_of_mem inside))
        known
  | poll queue visibilitySec maxMessages =>
      exact (h.poll env w.clock queue visibilitySec maxMessages).1
  | ack queue messageId receipt => exact h.ack env queue messageId receipt
  | ackBatch queue items => exact h.ackBatch env queue items
  | advance seconds => exact h

end Sourced

/-! ## The broker of an engine -/

/-- The queues of a shard are a group; the consumer is told the delivery count in 32 bits, and
the limit is compared with that. -/
def brokerRules (opts : QueueOptions) : Broker.Rules String (Fin numShards) where
  group := shardIdx
  deadLetter := dlqName
  spent n := opts.maxDeliveryCount ≤ n % 2 ^ 32
  count n := n % 2 ^ 32

/-- A polled message as a delivery. -/
def PolledMessage.delivery (p : PolledMessage) : Broker.Delivery Ulid (List UInt8) String :=
  ⟨p.id, p.payload, p.receiptHandle, p.deliveryCount⟩

/-- An operation as an event, with what the engine answers. -/
def World.event (env : Env) (w : World) :
    Op → List (Broker.Event Ulid String (List UInt8) String)
  | .push queue id payload _ => [.push queue [(id, payload)]]
  | .pushBatch queue items => [.push queue
      ((w.asked env (.pushBatch queue items)).map fun asked => (asked.1, asked.2.2))]
  | .poll queue visibilitySec maxMessages => [.poll queue w.clock
      (addU64 w.clock (w.engine.visibility visibilitySec)) maxMessages
      ((w.engine.poll env w.clock queue visibilitySec maxMessages).2.map PolledMessage.delivery)]
  | .ack queue messageId receipt => [.ack queue (parsedItems env [(messageId, receipt)])
      (if (w.engine.ack env queue messageId receipt).2 then 1 else 0)]
  | .ackBatch queue items => [.ack queue (parsedItems env items)
      (w.engine.ackBatch env queue items).2]
  | .advance _ => []

/-- The events of a run. -/
def World.transcript (env : Env) (w : World) (ops : List Op) :
    List (Broker.Event Ulid String (List UInt8) String) :=
  Trace.emitted (World.step env) (World.event env) w ops

theorem World.transcript_concat (env : Env) (w : World) (ops : List Op) (op : Op) :
    w.transcript env (ops ++ [op]) = w.transcript env ops ++ (w.run env ops).event env op :=
  Trace.emitted_concat op

/-- The message of a job. -/
structure StoredMsg.IsJob (msg : StoredMsg) (job : Broker.Job String (List UInt8)) : Prop where
  queue : msg.queue = job.queue
  payload : msg.payload = job.payload
  count : msg.deliveryCount = job.deliveries % 2 ^ 32

/-- The point of the life cycle an id may be at in an engine whose limit is `cap`, seen from where
it stands at the broker. -/
inductive Stands (cap : Nat) : Life → Broker.Place String (List UInt8) String → Prop
  | fresh (offers : Set (String × List UInt8)) : Stands cap .fresh (.offered offers)
  | stored (msg : StoredMsg) (offers : Set (String × List UInt8)) : msg.maxDelivery = cap →
      msg.deliveryCount = 0 → (msg.queue, msg.payload) ∈ offers →
      Stands cap (.pending msg) (.offered offers)
  | waiting (msg : StoredMsg) (job : Broker.Job String (List UInt8)) : msg.maxDelivery = cap →
      msg.IsJob job → Stands cap (.pending msg) (.waiting job)
  | leased (msg : StoredMsg) (item : InFlightItem) (job : Broker.Job String (List UInt8)) :
      msg.maxDelivery = cap → msg.IsJob job →
      Stands cap (.leased msg item) (.leased job item.receipt item.expireAt)
  | dead : Stands cap .dead .settled

namespace Stands

variable {opts : QueueOptions} {life life' : Life}
  {place place' : Broker.Place String (List UInt8) String} {m : Ulid} {queue : String} {now : Nat}

/-- More offers change nothing for the engine. -/
theorem offer (h : Stands opts.maxDeliveryCount life place) (queue : String)
    (payload : List UInt8) : Stands opts.maxDeliveryCount life (place.offer queue payload) := by
  cases h with
  | fresh offers => exact .fresh _
  | stored msg offers limit zero inside => exact .stored msg _ limit zero (Or.inr inside)
  | waiting msg job limit is => exact .waiting msg job limit is
  | leased msg item job limit is => exact .leased msg item job limit is
  | dead => exact .dead

theorem foldl_offer {lives : Ulid → Life} {state : Broker.State Ulid String (List UInt8) String}
    (h : ∀ m, Stands opts.maxDeliveryCount (lives m) (state m)) (queue : String)
    (items : List (Ulid × List UInt8)) (m : Ulid) :
    Stands opts.maxDeliveryCount (lives m) (items.foldl (Broker.State.offer queue) state m) := by
  induction items generalizing state with
  | nil => exact h m
  | cons item items ih =>
      apply ih
      intro m'
      rw [Broker.State.offer_eq]
      split
      · exact (h m').offer queue item.2
      · exact h m'

/-- The same receipts are good. -/
theorem accepts_iff (h : Stands opts.maxDeliveryCount life place) (queue receipt : String) :
    life.Accepts queue receipt ↔ place.Accepts (brokerRules opts) queue receipt := by
  cases h with
  | leased msg item job limit is =>
      constructor
      · rintro ⟨msg', item', eq, shard, same⟩
        cases eq
        refine ⟨job, item.expireAt, by rw [same], ?_⟩
        show shardIdx job.queue = shardIdx queue
        rw [← is.queue]
        exact shard
      · rintro ⟨job', expireAt, eq, shard⟩
        cases eq
        refine ⟨msg, item, rfl, ?_, rfl⟩
        rw [is.queue]
        exact shard
  | fresh | stored | waiting | dead =>
      constructor
      · rintro ⟨_, _, bad, _⟩
        cases bad
      · rintro ⟨_, _, bad, _⟩
        cases bad

/-- The message of a lease that ran out goes where the broker puts it. -/
theorem routed {msg : StoredMsg} {job : Broker.Job String (List UInt8)}
    (limit : msg.maxDelivery = opts.maxDeliveryCount) (is : msg.IsJob job) (now : Nat) :
    Stands opts.maxDeliveryCount (.pending (Life.routed now msg))
      (.waiting ((brokerRules opts).back job)) := by
  have spent : (brokerRules opts).spent job.deliveries =
      decide (msg.maxDelivery ≤ msg.deliveryCount) := by
    rw [limit, is.count]
    rfl
  unfold Life.routed
  split
  · rename_i full
    refine .waiting _ _ limit ⟨?_, is.payload, is.count⟩
    simp only [Broker.Rules.back, Broker.Rules.next, spent, full, decide_true, if_true]
    rw [is.queue]
    rfl
  · rename_i room
    refine .waiting _ _ limit ⟨?_, is.payload, is.count⟩
    simp only [Broker.Rules.back, Broker.Rules.next, spent, room, decide_false]
    exact is.queue

theorem expires (h : Stands opts.maxDeliveryCount life place) {s : Fin numShards}
    {taken : List StoredMsg} {expired : Life}
    (expires : Tracks.Expires now m s taken life expired) :
    ∃ place', Broker.Released (brokerRules opts) s now place place' ∧
      Stands opts.maxDeliveryCount (expired.putBack now) place' := by
  cases expires with
  | kept _ none =>
      refine ⟨place, .kept place, ?_⟩
      cases h with
      | fresh offers => exact .fresh offers
      | stored msg offers limit zero inside => exact .stored msg offers limit zero inside
      | waiting msg job limit is => exact .waiting msg job limit is
      | leased msg item job limit is => exact .leased msg item job limit is
      | dead => exact .dead
  | expire msg item due here one =>
      cases h with
      | leased _ _ job limit is =>
          refine ⟨_, .expired job item.receipt item.expireAt due ?_, routed limit is now⟩
          rw [here, is.queue]
          rfl

/-- A message that page-in or a push put in memory is one that was offered. -/
theorem loads (h : Stands opts.maxDeliveryCount life place) (loads : life.Loads life')
    (new : life = .fresh → ∀ msg, life'.msg? = some msg →
      msg.maxDelivery = opts.maxDeliveryCount ∧
        ∀ offers, place = .offered offers → (msg.queue, msg.payload) ∈ offers) :
    Stands opts.maxDeliveryCount life' place := by
  cases loads with
  | same => exact h
  | load msg zero =>
      obtain ⟨limit, inside⟩ := new rfl msg rfl
      cases h with
      | fresh offers => exact .stored msg offers limit zero (inside offers rfl)

theorem deliveriesOf_map (m : Ulid) (polled : List PolledMessage) :
    Broker.deliveriesOf m (polled.map PolledMessage.delivery) =
      (ShardState.polledOf m polled).map PolledMessage.delivery := by
  rw [Broker.deliveriesOf, List.filter_map]
  rfl

/-- What a poll leases the broker may hand out. -/
theorem leases (h : Stands opts.maxDeliveryCount life place) {env : Env} {timeout : Nat}
    {polled : List PolledMessage}
    (leases : Tracks.Leases env queue now timeout m polled life life') :
    ∃ place', Broker.Taken (brokerRules opts) queue (addU64 now timeout) m
        (polled.map PolledMessage.delivery) place place' ∧
      Stands opts.maxDeliveryCount life' place' := by
  cases leases with
  | kept _ none => exact ⟨place, .kept place (by rw [deliveriesOf_map, none]; rfl), h⟩
  | lease msg item mine isLease one =>
      have got : Broker.deliveriesOf m (polled.map PolledMessage.delivery) =
          [⟨m, msg.payload, item.receipt, (msg.deliveryCount + 1) % 2 ^ 32⟩] := by
        rw [deliveriesOf_map, one, ← isLease.id]
        rfl
      rw [← isLease.expireAt]
      cases h with
      | stored _ offers limit zero inside =>
          rw [zero] at got
          refine ⟨_, .first offers msg.payload item.receipt (mine ▸ inside) got, ?_⟩
          refine .leased _ item _ limit ⟨mine, rfl, ?_⟩
          show (msg.deliveryCount + 1) % 2 ^ 32 = 1 % 2 ^ 32
          rw [zero]
      | waiting _ job limit is =>
          have count : (msg.deliveryCount + 1) % 2 ^ 32 = (job.deliveries + 1) % 2 ^ 32 := by
            rw [is.count, Nat.mod_add_mod]
          rw [is.payload, count] at got
          refine ⟨_, .again job item.receipt (is.queue ▸ mine) got, ?_⟩
          exact .leased _ item _ limit ⟨is.queue, is.payload, count⟩

end Stands

/-! ## One operation -/

section Step

variable {env : Env} {home : Ulid → String} {w : World} {op : Op} {rs rs' : List WalRecord}
  {log log' : Set WalRecord} {lives lives' : Ulid → Life} {opts : QueueOptions}
  {events : List (Broker.Event Ulid String (List UInt8) String)}
  {state : Broker.State Ulid String (List UInt8) String}

/-- Only an id that was fresh is fresh after the expired messages are put back. -/
theorem Tracks.Expires.eq_fresh {now : Nat} {m : Ulid} {s : Fin numShards}
    {taken : List StoredMsg} {life expired : Life}
    (expires : Tracks.Expires now m s taken life expired) (fresh : expired.putBack now = .fresh) :
    life = .fresh := by
  cases expires with
  | kept _ none =>
      cases life with
      | fresh => rfl
      | pending | leased | inHand | dead => cases fresh
  | expire => cases fresh

/-- A lease changes the count of a message and nothing else. -/
theorem Tracks.Leases.keeps {queue : String} {now timeout : Nat} {m : Ulid}
    {polled : List PolledMessage} {life life' : Life}
    (leases : Tracks.Leases env queue now timeout m polled life life') {msg : StoredMsg}
    (is : life.msg? = some msg) :
    ∃ msg', life'.msg? = some msg' ∧ msg'.queue = msg.queue ∧ msg'.payload = msg.payload ∧
      msg'.maxDelivery = msg.maxDelivery := by
  cases leases with
  | kept _ none => exact ⟨msg, is, rfl, rfl, rfl⟩
  | lease msg' item =>
      cases is
      exact ⟨_, rfl, rfl, rfl, rfl⟩

/-- What was offered for an id in its own queue. -/
def Offered (home : Ulid → String)
    (events : List (Broker.Event Ulid String (List UInt8) String)) (id : Ulid)
    (payload : List UInt8) : Prop :=
  (home id, payload) ∈ Broker.offersOf events id

/-- A message that comes into memory was offered. -/
theorem Sound.loaded (h : Sound Set.univ home w.engine rs log lives)
    (after : Sound Set.univ home (w.step env op).engine rs' log' lives')
    (ordinary : OrdinaryFor Set.univ home env w op)
    {source : Ulid → List UInt8 → Prop} (sourced : Sourced source (w.step env op).engine) {m : Ulid}
    (fresh : lives m = .fresh) {msg : StoredMsg} (is : (lives' m).msg? = some msg) :
    msg.queue = home m ∧ msg.maxDelivery = w.engine.options.maxDeliveryCount ∧
      source m msg.payload := by
  have found := (after.tracks m trivial).lookup is
  obtain ⟨atHome, limit⟩ := h.every_step (m := m) trivial fresh ordinary _ m msg found rfl
  exact ⟨atHome, limit, (sourced.memory _ m msg found).2⟩

theorem length_claimOne_foldl (env : Env) (now : Nat) (queue : String) (timeout : Nat)
    (ids : List Ulid) (acc : ShardState.Claim) :
    (ids.foldl (ShardState.claimOne env now queue timeout) acc).polled.length ≤
      acc.polled.length + ids.length := by
  induction ids generalizing acc with
  | nil => exact le_rfl
  | cons id ids ih =>
      refine (ih _).trans ?_
      unfold ShardState.claimOne
      split
      · simp only [List.length_append, List.length_cons, List.length_nil]
        omega
      · simp only [List.length_cons]
        omega

/-- A poll returns at most as many messages as it was asked for. -/
theorem length_poll_le (env : Env) (e : QueueEngine) (now : Nat) (queue : String)
    (visibilitySec maxMessages : Nat) :
    (e.poll env now queue visibilitySec maxMessages).2.length ≤ maxMessages := by
  rw [poll_eq]
  unfold QueueEngine.claimSection
  dsimp only
  split
  · refine (length_claimOne_foldl ..).trans ?_
    rw [SingleQueue.popMany_eq_take, List.length_nil, Nat.zero_add]
    exact List.length_take_le _ _
  · exact Nat.zero_le _

/-- What the event of an operation offers is what the operation is asked to push. -/
theorem World.offers_event (env : Env) (w : World) (op : Op) :
    (w.event env op).flatMap Broker.Event.offers = w.asked env op := by
  cases op with
  | pushBatch queue items =>
      have queues : ∀ asked ∈ w.asked env (.pushBatch queue items), asked.2.1 = queue := by
        intro asked inside
        have pushed : (asked.1, asked.2.1) ∈ w.pushes env (.pushBatch queue items) := by
          rw [← World.map_asked]
          exact List.mem_map.2 ⟨asked, inside, rfl⟩
        obtain ⟨id, _, eq⟩ := List.mem_map.1 pushed
        exact (congrArg Prod.snd eq).symm
      simp only [World.event, List.flatMap_cons, List.flatMap_nil, List.append_nil,
        Broker.Event.offers, List.map_map]
      refine (List.map_congr_left fun asked inside => ?_).trans (List.map_id _)
      simp only [Function.comp_apply, id, ← queues asked inside]
  | push | poll | ack | ackBatch | advance => rfl

theorem offersOf_event (env : Env) (w : World) (op : Op) (id : Ulid) :
    Broker.offersOf (events ++ w.event env op) id =
      Broker.offersOf events id ∪ {offer | (id, offer) ∈ w.asked env op} := by
  ext offer
  simp only [Broker.offersOf, List.flatMap_append, World.offers_event, List.mem_append]
  rfl

/-- The payloads of an engine stay among those offered. -/
theorem Sourced.event (h : Sourced (Offered home events) w.engine)
    (ordinary : Ordinary home env w op) :
    Sourced (Offered home (events ++ w.event env op)) (w.step env op).engine := by
  have wider : Sourced (Offered home (events ++ w.event env op)) w.engine := by
    refine h.mono fun id payload offered => ?_
    rw [Offered, offersOf_event]
    exact Or.inl offered
  refine wider.step ordinary.small fun asked inside => ?_
  rw [Offered, offersOf_event, ordinary.asked asked inside]
  exact Or.inr inside

/-- How the engine stands to the broker after the events so far. -/
structure Brokered (home : Ulid → String) (opts : QueueOptions)
    (events : List (Broker.Event Ulid String (List UInt8) String)) (e : QueueEngine)
    (lives : Ulid → Life) (state : Broker.State Ulid String (List UInt8) String) : Prop where
  runs : Broker.Runs (brokerRules opts) events state
  stands : ∀ m, Stands opts.maxDeliveryCount (lives m) (state m)
  sourced : Sourced (Offered home events) e

namespace Brokered

/-- The offers of an id that was never handed out. -/
theorem offers (h : Brokered home opts events w.engine lives state) {m : Ulid}
    {offers : Set (String × List UInt8)} (is : state m = .offered offers) :
    offers = Broker.offersOf events m := by
  have agrees := h.runs.agrees m
  rw [is] at agrees
  exact agrees.1

theorem push (h : Brokered home opts events w.engine lives state)
    {items : List (Ulid × List UInt8)} {queue : String}
    (loads : ∀ m, (lives m).Loads (lives' m))
    (new : ∀ m, lives m = .fresh → ∀ msg, (lives' m).msg? = some msg →
      msg.maxDelivery = opts.maxDeliveryCount ∧ (msg.queue, msg.payload) ∈
        Broker.offersOf (events ++ [.push queue items]) m) :
    ∃ state', Broker.Runs (brokerRules opts) (events ++ [.push queue items]) state' ∧
      ∀ m, Stands opts.maxDeliveryCount (lives' m) (state' m) := by
  have runs : Broker.Runs (brokerRules opts) (events ++ [.push queue items])
      (items.foldl (Broker.State.offer queue) state) := .step h.runs rfl
  refine ⟨_, runs, fun m => ?_⟩
  refine (Stands.foldl_offer h.stands queue items m).loads (loads m) fun fresh msg is => ?_
  obtain ⟨limit, offered⟩ := new m fresh msg is
  refine ⟨limit, fun offers place => ?_⟩
  have agrees := runs.agrees m
  rw [place] at agrees
  rw [agrees.1]
  exact offered

theorem poll (h : Brokered home opts events w.engine lives state) {queue : String}
    {visibilitySec maxMessages : Nat}
    (polls : ∀ m, Polls env w.engine w.clock queue visibilitySec maxMessages m (lives m) (lives' m))
    (new : ∀ m, lives m = .fresh → ∀ msg, (lives' m).msg? = some msg →
      msg.maxDelivery = opts.maxDeliveryCount ∧
        (msg.queue, msg.payload) ∈ Broker.offersOf events m) :
    ∃ state', Broker.Runs (brokerRules opts)
        (events ++ w.event env (.poll queue visibilitySec maxMessages)) state' ∧
      ∀ m, Stands opts.maxDeliveryCount (lives' m) (state' m) := by
  have each : ∀ m, ∃ place', (∃ place,
      Broker.Released (brokerRules opts) (shardIdx queue) w.clock (state m) place ∧
      Broker.Taken (brokerRules opts) queue (addU64 w.clock (w.engine.visibility visibilitySec)) m
        ((w.engine.poll env w.clock queue visibilitySec maxMessages).2.map
          PolledMessage.delivery) place place') ∧
      Stands opts.maxDeliveryCount (lives' m) place' := by
    intro m
    obtain ⟨expired, loaded, expires, loads, leases⟩ := polls m
    obtain ⟨place, released, back⟩ := (h.stands m).expires expires
    have loadedStands : Stands opts.maxDeliveryCount loaded place := by
      refine back.loads loads fun fresh msg is => ?_
      obtain ⟨msg', is', queue', payload', limit'⟩ := leases.keeps is
      obtain ⟨limit, offered⟩ := new m (expires.eq_fresh fresh) msg' is'
      rw [limit'] at limit
      rw [queue', payload'] at offered
      refine ⟨limit, fun offers place => ?_⟩
      rw [place] at released
      rw [h.offers released.eq_offered]
      exact offered
    obtain ⟨place', taken, stands⟩ := loadedStands.leases leases
    exact ⟨place', ⟨place, released, taken⟩, stands⟩
  choose state' moves stands using each
  have length : ((w.engine.poll env w.clock queue visibilitySec maxMessages).2.map
      PolledMessage.delivery).length ≤ maxMessages := by
    rw [List.length_map]
    exact length_poll_le env w.engine w.clock queue visibilitySec maxMessages
  exact ⟨state', .step h.runs ⟨length, moves⟩, stands⟩

/-- Receipts in order. -/
theorem settles {queue : String} {items accepted : List (Ulid × String)}
    (settles : Settles Set.univ queue items lives accepted lives')
    (stands : ∀ m, Stands opts.maxDeliveryCount (lives m) (state m)) :
    ∃ state', Broker.Settled (brokerRules opts) queue items state accepted.length state' ∧
      ∀ m, Stands opts.maxDeliveryCount (lives' m) (state' m) := by
  induction settles generalizing state with
  | nil lives => exact ⟨state, .nil state, stands⟩
  | @accept id receipt items accepted lives lives' accepts _ ih =>
      have next : ∀ m, Stands opts.maxDeliveryCount (Function.update lives id .dead m)
          (Function.update state id .settled m) := by
        intro m
        by_cases same : m = id
        · subst same
          rw [Function.update_self, Function.update_self]
          exact .dead
        · rw [Function.update_of_ne same, Function.update_of_ne same]
          exact stands m
      obtain ⟨state', settled, after⟩ := ih next
      exact ⟨state', .accept (((stands id).accepts_iff queue receipt).1 (accepts trivial)) settled,
        after⟩
  | @reject id receipt items accepted lives lives' rejects _ ih =>
      obtain ⟨state', settled, after⟩ := ih stands
      refine ⟨state', .reject (fun good => rejects trivial ?_) settled, after⟩
      exact ((stands id).accepts_iff queue receipt).2 good

theorem ack (h : Brokered home opts events w.engine lives state) {queue messageId receipt : String}
    (moves : Moves Set.univ env w lives lives' (.ack queue messageId receipt)) :
    ∃ state', Broker.Runs (brokerRules opts)
        (events ++ w.event env (.ack queue messageId receipt)) state' ∧
      ∀ m, Stands opts.maxDeliveryCount (lives' m) (state' m) := by
  have judged : ∃ accepted, Settles Set.univ queue (parsedItems env [(messageId, receipt)]) lives
      accepted lives' ∧
      (if (w.engine.ack env queue messageId receipt).2 then 1 else 0) = accepted.length := by
    rcases moves with ⟨id, parsed, accepts, success, rfl⟩ | ⟨rejects, failure, rfl⟩
    · refine ⟨[(id, receipt)], ?_, by rw [success]; rfl⟩
      simp only [parsedItems, List.filterMap_cons, parsed, Option.map_some, List.filterMap_nil]
      exact .accept accepts (.nil _)
    · refine ⟨[], ?_, by rw [failure]; rfl⟩
      cases parsed : parseIdFast env messageId with
      | none =>
          simp only [parsedItems, List.filterMap_cons, parsed, Option.map_none, List.filterMap_nil]
          exact .nil _
      | some id =>
          simp only [parsedItems, List.filterMap_cons, parsed, Option.map_some, List.filterMap_nil]
          exact .reject (rejects id parsed) (.nil _)
  obtain ⟨accepted, judged, count⟩ := judged
  obtain ⟨state', settled, stands⟩ := settles judged h.stands
  rw [← count] at settled
  exact ⟨state', .step h.runs settled, stands⟩

/-- Every operation is something the broker may do. -/
theorem step (h : Brokered home opts events w.engine lives state)
    (options : w.engine.options = opts)
    (before : Sound Set.univ home w.engine rs log lives)
    (after : Sound Set.univ home (w.step env op).engine rs' log' lives')
    (ordinary : Ordinary home env w op) (moves : Moves Set.univ env w lives lives' op) :
    ∃ state', Brokered home opts (events ++ w.event env op) (w.step env op).engine lives'
      state' := by
  have sourced := h.sourced.event ordinary
  have new : ∀ m, lives m = .fresh → ∀ msg, (lives' m).msg? = some msg →
      msg.maxDelivery = opts.maxDeliveryCount ∧
        (msg.queue, msg.payload) ∈ Broker.offersOf (events ++ w.event env op) m := by
    intro m fresh msg is
    obtain ⟨atHome, limit, offered⟩ :=
      before.loaded after (ordinary.all Set.univ) sourced fresh is
    rw [atHome, limit, options]
    exact ⟨rfl, offered⟩
  have moved : ∃ state', Broker.Runs (brokerRules opts) (events ++ w.event env op) state' ∧
      ∀ m, Stands opts.maxDeliveryCount (lives' m) (state' m) := by
    cases op with
    | push queue id payload delaySec => exact h.push (fun m => moves m trivial) new
    | pushBatch queue items => exact h.push (fun m => moves m trivial) new
    | poll queue visibilitySec maxMessages =>
        refine h.poll (fun m => moves m trivial) fun m fresh msg is => ?_
        obtain ⟨limit, offered⟩ := new m fresh msg is
        rw [offersOf_event] at offered
        rcases offered with offered | bad
        · exact ⟨limit, offered⟩
        · cases bad
    | ack queue messageId receipt => exact h.ack moves
    | ackBatch queue items =>
        obtain ⟨state', settled, stands⟩ := settles moves.1 h.stands
        rw [← moves.2 fun _ => trivial] at settled
        exact ⟨state', .step h.runs settled, stands⟩
    | advance seconds =>
        have same : lives' = lives := moves
        rw [same]
        refine ⟨state, ?_, h.stands⟩
        rw [World.event, List.append_nil]
        exact h.runs
  obtain ⟨state', runs, stands⟩ := moved
  exact ⟨state', runs, stands, sourced⟩

end Brokered

end Step

/-! ## Whole runs -/

/-- What the place of an id says about the engine: the payload, the count and the lease it has,
and where it waits. -/
def QueueEngine.Shows (e : QueueEngine) (m : Ulid) : Broker.Place String (List UInt8) String → Prop
  | .offered offers => ∀ s msg, AList.lookup m (e.shards s).messages = some msg →
      e.PendingOnce msg ∧ msg.deliveryCount = 0 ∧ (msg.queue, msg.payload) ∈ offers
  | .waiting job => ∃ msg, msg.id = m ∧ msg.IsJob job ∧ e.PendingOnce msg
  | .leased job receipt expireAt => ∃ msg item,
      AList.lookup m (e.shards (shardIdx job.queue)).messages = some msg ∧ msg.IsJob job ∧
        (e.shards (shardIdx job.queue)).wheel.Leased m item ∧ item.receipt = receipt ∧
        item.expireAt = expireAt
  | .settled => ∀ s, m ∉ (e.shards s).messages

theorem Stands.shows {cap : Nat} {life : Life} {place : Broker.Place String (List UInt8) String}
    {e : QueueEngine} {m : Ulid} {home : String} {log : Set WalRecord}
    (h : Stands cap life place) (tracks : Tracks e m home log 0 life) : e.Shows m place := by
  have located := tracks.shards
  cases h with
  | fresh offers =>
      intro s msg found
      have none : AList.lookup m (e.shards s).messages = none := (located s).msg
      rw [found] at none
      cases none
  | stored msg offers limit zero inside =>
      intro s msg' found
      have here := (located s).msg
      rw [found, Life.status] at here
      split at here
      · cases here
        exact ⟨tracks.pendingOnce, zero, inside⟩
      · cases here
  | waiting msg job limit is => exact ⟨msg, tracks.msg msg rfl, is, tracks.pendingOnce⟩
  | leased msg item job limit is =>
      have here := located (shardIdx msg.queue)
      rw [Life.status, if_pos rfl] at here
      rw [QueueEngine.Shows, ← is.queue]
      exact ⟨msg, item, here.msg, is, here.lease, rfl, rfl⟩
  | dead =>
      intro s inside
      obtain ⟨msg, found⟩ := (FMap.mem_iff_lookup _ m).1 inside
      have none : AList.lookup m (e.shards s).messages = none := (located s).msg
      rw [found] at none
      cases none

theorem World.refines_run {env : Env} {home : Ulid → String} {opts : QueueOptions} {clock : Nat}
    {ops : List Op}
    (ordinary : Trace.Along (World.step env) (Ordinary home env) (World.fresh env opts clock) ops)
    (few : ((World.fresh env opts clock).run env ops).engine.names.length < 65536) :
    ∃ rs log lives state,
      Sound Set.univ home ((World.fresh env opts clock).run env ops).engine rs log lives ∧
      Brokered home opts ((World.fresh env opts clock).transcript env ops)
        ((World.fresh env opts clock).run env ops).engine lives state := by
  have start : Brokered home opts ((World.fresh env opts clock).transcript env [])
      (World.fresh env opts clock).engine (fun _ => .fresh) Broker.start := by
    refine ⟨.start, fun m => .fresh _, ⟨[], 0, DiskLayout.fresh env opts clock, ?_⟩, ?_⟩
    · exact fun x bad => by cases bad
    · exact fun s id msg found => by cases found
  obtain ⟨rs, log, lives, sound, state, refines⟩ :=
    (Sound.fresh env Set.univ home opts clock).run
      (I := fun ops lives => ∃ state, Brokered home opts ((World.fresh env opts clock).transcript
        env ops) ((World.fresh env opts clock).run env ops).engine lives state)
      ⟨_, start⟩ (fun ops op rs log lives rs' log' lives' before sound sound' ordinary moves => by
        obtain ⟨state, refines⟩ := before
        have options : ((World.fresh env opts clock).run env ops).engine.options = opts :=
          World.options_run env _ ops
        rw [World.run_concat] at sound'
        rw [World.transcript_concat, World.run_concat]
        exact refines.step options sound sound'
          ⟨fun pushed member => ordinary.oneQueue pushed member trivial, ordinary.small⟩ moves)
      (ordinary.imp fun _ _ h => h.all Set.univ) few.le
  exact ⟨rs, log, lives, state, sound, refines⟩

/-- Every ordinary run of the engine is a run of the broker with the same answers, and the engine
holds what the broker says. -/
theorem World.refines_broker {env : Env} {home : Ulid → String} {opts : QueueOptions} {clock : Nat}
    {ops : List Op}
    (ordinary : Trace.Along (World.step env) (Ordinary home env) (World.fresh env opts clock) ops)
    (few : ((World.fresh env opts clock).run env ops).engine.names.length < 65536) :
    ∃ state, Broker.Runs (brokerRules opts) ((World.fresh env opts clock).transcript env ops)
        state ∧
      ∀ m, ((World.fresh env opts clock).run env ops).engine.Shows m (state m) := by
  obtain ⟨rs, log, lives, state, sound, refines⟩ := World.refines_run ordinary few
  exact ⟨state, refines.runs, fun m => (refines.stands m).shows (sound.tracks m trivial)⟩

theorem World.refines_broker_sample :
    Trace.Along (World.step .sample) (Ordinary (fun _ => "jobs") .sample)
        (World.fresh .sample oneDelivery 1600000000) (expiringOps ++ [.poll "jobs" 30 1]) ∧
      ∃ state, Broker.Runs (brokerRules oneDelivery)
          ((World.fresh .sample oneDelivery 1600000000).transcript .sample
            (expiringOps ++ [.poll "jobs" 30 1])) state ∧
        ∀ m, ((World.fresh .sample oneDelivery 1600000000).run .sample
          (expiringOps ++ [.poll "jobs" 30 1])).engine.Shows m (state m) :=
  have ordinary : Trace.Along (World.step .sample) (Ordinary (fun _ => "jobs") .sample)
      (World.fresh .sample oneDelivery 1600000000) (expiringOps ++ [.poll "jobs" 30 1]) := by
    decide +kernel
  ⟨ordinary, World.refines_broker ordinary (by decide +kernel)⟩

/-! ## What consumers see of a message -/

/-- What an operation returns, with the queue it was polled from. -/
def World.handed (env : Env) (w : World) : Op → List (String × PolledMessage)
  | .poll queue visibilitySec maxMessages =>
      (w.engine.poll env w.clock queue visibilitySec maxMessages).2.map fun p => (queue, p)
  | _ => []

/-- All deliveries of an id along a run, in order. -/
def World.handedOut (env : Env) (w : World) (m : Ulid) (ops : List Op) :
    List (String × PolledMessage) :=
  (Trace.emitted (World.step env) (World.handed env) w ops).filter fun handed => handed.2.id = m

/-- Everything a run was asked to push. -/
def World.everAsked (env : Env) (w : World) (ops : List Op) :
    List (Ulid × String × List UInt8) :=
  Trace.emitted (World.step env) (World.asked env) w ops

theorem World.offers_transcript (env : Env) (w : World) (ops : List Op) :
    (w.transcript env ops).flatMap Broker.Event.offers = w.everAsked env ops := by
  induction ops generalizing w with
  | nil => rfl
  | cons op ops ih =>
      have rest := ih (w.step env op)
      simp only [World.transcript, World.everAsked, Trace.emitted, List.flatMap_append,
        World.offers_event] at rest ⊢
      rw [rest]

theorem World.handed_transcript (env : Env) (w : World) (ops : List Op) :
    (w.transcript env ops).flatMap Broker.Event.handedOut =
      (Trace.emitted (World.step env) (World.handed env) w ops).map fun handed =>
        (handed.1, handed.2.delivery) := by
  induction ops generalizing w with
  | nil => rfl
  | cons op ops ih =>
      have rest := ih (w.step env op)
      have first : (w.event env op).flatMap Broker.Event.handedOut =
          (w.handed env op).map fun handed => (handed.1, handed.2.delivery) := by
        cases op with
        | poll queue visibilitySec maxMessages =>
            simp [World.event, World.handed, Broker.Event.handedOut]
        | push | pushBatch | ack | ackBatch | advance => rfl
      simp only [World.transcript, Trace.emitted, List.flatMap_append, List.map_append]
        at rest ⊢
      rw [rest, first]

theorem World.history_transcript (env : Env) (w : World) (m : Ulid) (ops : List Op) :
    Broker.history (w.transcript env ops) m =
      (w.handedOut env m ops).map fun handed => (handed.1, handed.2.delivery) := by
  rw [Broker.history, World.handed_transcript, List.filter_map]
  rfl

/-- While the count fits 32 bits, a message stays in its queue up to the limit and goes one
dead-letter queue further with every delivery after that. -/
theorem route_eq (opts : QueueOptions) (queue : String) {n : Nat} (small : n < 2 ^ 32) :
    (brokerRules opts).route queue n = dlqName^[n + 1 - max 1 opts.maxDeliveryCount] queue := by
  induction n with
  | zero =>
      have none : 0 + 1 - max 1 opts.maxDeliveryCount = 0 := by omega
      rw [none]
      rfl
  | succ n ih =>
      have value : (n + 1) % 2 ^ 32 = n + 1 := Nat.mod_eq_of_lt small
      rw [Broker.Rules.route, ih (by omega), Broker.Rules.next]
      by_cases full : opts.maxDeliveryCount ≤ n + 1
      · have spent : (brokerRules opts).spent (n + 1) = true := by
          simp only [brokerRules, value, full, decide_true]
        have more : n + 1 + 1 - max 1 opts.maxDeliveryCount =
            (n + 1 - max 1 opts.maxDeliveryCount) + 1 := by omega
        rw [if_pos spent, more, Function.iterate_succ_apply']
        rfl
      · have unspent : ¬ (brokerRules opts).spent (n + 1) = true := by
          simp only [brokerRules, value, full, decide_false]
          exact Bool.false_ne_true
        have none : n + 1 + 1 - max 1 opts.maxDeliveryCount =
            n + 1 - max 1 opts.maxDeliveryCount := by omega
        rw [if_neg unspent, none]

/-- Along every ordinary run all deliveries of an id, from whatever queue, carry the payload of one
push of the id to its queue and are numbered 1, 2, 3, …; they come from its queue up to the
limit, and each later one from one dead-letter queue further. -/
theorem World.run_deliveries {env : Env} {home : Ulid → String} {opts : QueueOptions} {clock : Nat}
    {ops : List Op}
    (ordinary : Trace.Along (World.step env) (Ordinary home env) (World.fresh env opts clock) ops)
    (few : ((World.fresh env opts clock).run env ops).engine.names.length < 65536) (m : Ulid) :
    let w := World.fresh env opts clock
    w.handedOut env m ops = [] ∨ ∃ payload, (m, home m, payload) ∈ w.everAsked env ops ∧
      ∀ i handed, (w.handedOut env m ops)[i]? = some handed →
        handed.2.payload = payload ∧ handed.2.deliveryCount = (i + 1) % 2 ^ 32 ∧
        (i < 2 ^ 32 → handed.1 = dlqName^[i + 1 - max 1 opts.maxDeliveryCount] (home m)) := by
  intro w
  obtain ⟨rs, log, lives, state, sound, refines⟩ := World.refines_run ordinary few
  rcases refines.runs.tells m with none | ⟨queue, payload, n, tells⟩
  · rw [World.history_transcript, List.map_eq_nil_iff] at none
    exact Or.inl none
  · have offer : (m, queue, payload) ∈ w.everAsked env ops := by
      rw [← World.offers_transcript]
      exact tells.offer
    have mine : home m = queue := ordinary.forall_emitted
      (R := fun asked : Ulid × String × List UInt8 => home asked.1 = asked.2.1)
      (fun _ _ ok asked inside => ok.asked asked inside) _ offer
    rw [← mine] at offer tells
    have all := tells.handed
    rw [World.history_transcript, List.map_map] at all
    refine Or.inr ⟨payload, offer, fun i handed is => ?_⟩
    have here := congrArg (fun l => l[i]?) all
    simp only [List.getElem?_map, w, is, Option.map_some] at here
    rcases lt_or_ge i n with inside | outside
    · rw [List.getElem?_range inside] at here
      obtain ⟨route, rest⟩ := Prod.mk.inj (Option.some.inj here)
      obtain ⟨same, count⟩ := Prod.mk.inj rest
      exact ⟨same, count, fun small => route.trans (route_eq opts _ small)⟩
    · rw [List.getElem?_eq_none (by simpa using outside)] at here
      cases here

/-- The message of the expiring run comes back from the dead-letter queue. -/
theorem World.run_deliveries_sample :
    let w := World.fresh .sample oneDelivery 1600000000
    let ops := expiringOps ++ [.poll "jobs" 30 1, .poll "jobs.dlq" 30 1]
    Trace.Along (World.step .sample) (Ordinary (fun _ => "jobs") .sample) w ops ∧
      (w.handedOut .sample 1 ops).map (fun handed => (handed.1, handed.2.deliveryCount)) =
        [("jobs", 1), ("jobs.dlq", 2)] ∧
      ∃ payload, (1, "jobs", payload) ∈ w.everAsked .sample ops := by
  intro w ops
  have ordinary : Trace.Along (World.step .sample) (Ordinary (fun _ => "jobs") .sample) w ops := by
    decide +kernel
  have handed : (w.handedOut .sample 1 ops).map (fun handed => (handed.1, handed.2.deliveryCount)) =
      [("jobs", 1), ("jobs.dlq", 2)] := by decide +kernel
  refine ⟨ordinary, handed, ?_⟩
  rcases World.run_deliveries ordinary (by decide +kernel) 1 with none | ⟨payload, asked, _⟩
  · have none : w.handedOut .sample 1 ops = [] := none
    rw [none] at handed
    cases handed
  · exact ⟨payload, asked⟩

end WalrQueue
