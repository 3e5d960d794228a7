import Mathlib

/-!
# A broker that leases its messages

What a message broker with visibility timeouts is for, in its own terms.  Producers offer
payloads under ids.  A poll hands a message out under a lease, and the consumer settles it
with the receipt of the lease.  A lease that runs out brings the message back: to its queue,
or to the dead-letter queue when it was handed out often enough.  Queues are kept in groups;
a poll looks for leases that ran out in the group of its queue, and a receipt is good under
every queue name of the group.
-/

namespace Broker

/-- A message that was handed out, and how often. -/
structure Job (Queue Payload : Type) where
  queue : Queue
  payload : Payload
  deliveries : Nat

/-- Where an id stands.  Nothing of an id that is `offered` was handed out yet. -/
inductive Place (Queue Payload Receipt : Type) where
  | offered (offers : Set (Queue × Payload))
  | waiting (job : Job Queue Payload)
  | leased (job : Job Queue Payload) (receipt : Receipt) (expireAt : Nat)
  | settled

/-- What a poll hands out. -/
structure Delivery (Id Payload Receipt : Type) where
  id : Id
  payload : Payload
  receipt : Receipt
  count : Nat

/-- The groups of the queues, what becomes of a message that was handed out in vain, and the
number a consumer is told for a number of deliveries. -/
structure Rules (Queue Group : Type) where
  group : Queue → Group
  deadLetter : Queue → Queue
  spent : Nat → Bool
  count : Nat → Nat

/-- What happens at a broker, with its answers. -/
inductive Event (Id Queue Payload Receipt : Type) where
  | push (queue : Queue) (items : List (Id × Payload))
  | poll (queue : Queue) (now expireAt maxMessages : Nat) (got : List (Delivery Id Payload Receipt))
  | ack (queue : Queue) (items : List (Id × Receipt)) (accepted : Nat)

variable {Id Queue Payload Receipt Group : Type} [DecidableEq Id]

/-- Where every id stands. -/
abbrev State (Id Queue Payload Receipt : Type) : Type := Id → Place Queue Payload Receipt

/-- The deliveries of one id. -/
def deliveriesOf (id : Id) (got : List (Delivery Id Payload Receipt)) :
    List (Delivery Id Payload Receipt) :=
  got.filter fun delivery => delivery.id = id

/-! ## What a broker may do -/

/-- One more offer; it does not matter once the id was handed out. -/
def Place.offer (queue : Queue) (payload : Payload) :
    Place Queue Payload Receipt → Place Queue Payload Receipt
  | .offered offers => .offered (insert (queue, payload) offers)
  | place => place

/-- One item of a push. -/
def State.offer (queue : Queue) (state : State Id Queue Payload Receipt) (item : Id × Payload) :
    State Id Queue Payload Receipt :=
  Function.update state item.1 ((state item.1).offer queue item.2)

/-- The queue of a message handed out so often from a queue, when its lease runs out. -/
def Rules.next (rules : Rules Queue Group) (deliveries : Nat) (queue : Queue) : Queue :=
  if rules.spent deliveries then rules.deadLetter queue else queue

/-- The message of a lease that ran out. -/
def Rules.back (rules : Rules Queue Group) (job : Job Queue Payload) : Job Queue Payload :=
  { job with queue := rules.next job.deliveries job.queue }

/-- A poll may find that the lease of an id ran out. -/
inductive Released (rules : Rules Queue Group) (group : Group) (now : Nat) :
    Place Queue Payload Receipt → Place Queue Payload Receipt → Prop
  | kept (place : Place Queue Payload Receipt) : Released rules group now place place
  | expired (job : Job Queue Payload) (receipt : Receipt) (expireAt : Nat) : expireAt ≤ now →
      rules.group job.queue = group →
      Released rules group now (.leased job receipt expireAt) (.waiting (rules.back job))

/-- A poll hands out a message that waits in the queue, at most once. -/
inductive Taken (rules : Rules Queue Group) (queue : Queue) (expireAt : Nat) (id : Id)
    (got : List (Delivery Id Payload Receipt)) :
    Place Queue Payload Receipt → Place Queue Payload Receipt → Prop
  | kept (place : Place Queue Payload Receipt) : deliveriesOf id got = [] →
      Taken rules queue expireAt id got place place
  | first (offers : Set (Queue × Payload)) (payload : Payload) (receipt : Receipt) :
      (queue, payload) ∈ offers →
      deliveriesOf id got = [⟨id, payload, receipt, rules.count 1⟩] →
      Taken rules queue expireAt id got (.offered offers)
        (.leased ⟨queue, payload, 1⟩ receipt expireAt)
  | again (job : Job Queue Payload) (receipt : Receipt) : job.queue = queue →
      deliveriesOf id got = [⟨id, job.payload, receipt, rules.count (job.deliveries + 1)⟩] →
      Taken rules queue expireAt id got (.waiting job)
        (.leased { job with deliveries := job.deliveries + 1 } receipt expireAt)

/-- The receipt is that of the current lease, and the queue name is in its group. -/
def Place.Accepts (rules : Rules Queue Group) (queue : Queue) (receipt : Receipt)
    (place : Place Queue Payload Receipt) : Prop :=
  ∃ job expireAt, place = .leased job receipt expireAt ∧ rules.group job.queue = rules.group queue

/-- Receipts are judged one after the other, and the accepted ones are counted. -/
inductive Settled (rules : Rules Queue Group) (queue : Queue) :
    List (Id × Receipt) → State Id Queue Payload Receipt → Nat → State Id Queue Payload Receipt →
      Prop
  | nil (state : State Id Queue Payload Receipt) : Settled rules queue [] state 0 state
  | accept {id : Id} {receipt : Receipt} {items : List (Id × Receipt)} {accepted : Nat}
      {state state' : State Id Queue Payload Receipt} :
      (state id).Accepts rules queue receipt →
      Settled rules queue items (Function.update state id .settled) accepted state' →
      Settled rules queue ((id, receipt) :: items) state (accepted + 1) state'
  | reject {id : Id} {receipt : Receipt} {items : List (Id × Receipt)} {accepted : Nat}
      {state state' : State Id Queue Payload Receipt} :
      ¬ (state id).Accepts rules queue receipt → Settled rules queue items state accepted state' →
      Settled rules queue ((id, receipt) :: items) state accepted state'

/-- What may happen in a state, with what it leads to. -/
def Step (rules : Rules Queue Group) (state : State Id Queue Payload Receipt) :
    Event Id Queue Payload Receipt → State Id Queue Payload Receipt → Prop
  | .push queue items, state' => state' = items.foldl (State.offer queue) state
  | .poll queue now expireAt maxMessages got, state' => got.length ≤ maxMessages ∧
      ∀ id, ∃ place, Released rules (rules.group queue) now (state id) place ∧
        Taken rules queue expireAt id got place (state' id)
  | .ack queue items accepted, state' => Settled rules queue items state accepted state'

/-- Nothing was offered yet. -/
def start : State Id Queue Payload Receipt := fun _ => .offered ∅

/-- The events of a history may happen one after the other. -/
inductive Runs (rules : Rules Queue Group) :
    List (Event Id Queue Payload Receipt) → State Id Queue Payload Receipt → Prop
  | start : Runs rules [] start
  | step {events : List (Event Id Queue Payload Receipt)} {event : Event Id Queue Payload Receipt}
      {state state' : State Id Queue Payload Receipt} :
      Runs rules events state → Step rules state event state' → Runs rules (events ++ [event]) state'

/-! ## What a history says about an id -/

/-- What an event offers. -/
def Event.offers : Event Id Queue Payload Receipt → List (Id × Queue × Payload)
  | .push queue items => items.map fun item => (item.1, queue, item.2)
  | _ => []

/-- What an event hands out, with the queue. -/
def Event.handedOut : Event Id Queue Payload Receipt → List (Queue × Delivery Id Payload Receipt)
  | .poll queue _ _ _ got => got.map fun delivery => (queue, delivery)
  | _ => []

/-- What was offered under an id. -/
def offersOf (events : List (Event Id Queue Payload Receipt)) (id : Id) : Set (Queue × Payload) :=
  {offer | (id, offer) ∈ events.flatMap Event.offers}

/-- The deliveries of an id, with their queues, in order. -/
def history (events : List (Event Id Queue Payload Receipt)) (id : Id) :
    List (Queue × Delivery Id Payload Receipt) :=
  (events.flatMap Event.handedOut).filter fun handed => handed.2.id = id

/-- The queue of a message that was handed out so often, none of the leases being settled. -/
def Rules.route (rules : Rules Queue Group) (queue : Queue) : Nat → Queue
  | 0 => queue
  | n + 1 => rules.next (n + 1) (rules.route queue n)

/-- The history of an id is that of one offer, handed out `n` times. -/
structure Tells (rules : Rules Queue Group) (events : List (Event Id Queue Payload Receipt))
    (id : Id) (queue : Queue) (payload : Payload) (n : Nat) : Prop where
  offer : (queue, payload) ∈ offersOf events id
  handed : (history events id).map (fun handed => (handed.1, handed.2.payload, handed.2.count)) =
    (List.range n).map fun i => (rules.route queue i, payload, rules.count (i + 1))

/-- What a history says about an id agrees with where it stands. -/
def Agrees (rules : Rules Queue Group) (events : List (Event Id Queue Payload Receipt)) (id : Id) :
    Place Queue Payload Receipt → Prop
  | .offered offers => offers = offersOf events id ∧ history events id = []
  | .waiting job => ∃ queue, Tells rules events id queue job.payload job.deliveries ∧
      job.queue = rules.route queue job.deliveries
  | .leased job _ _ => ∃ queue n, Tells rules events id queue job.payload (n + 1) ∧
      job.deliveries = n + 1 ∧ job.queue = rules.route queue n
  | .settled => ∃ queue payload n, Tells rules events id queue payload n

/-! ## Histories -/

variable {rules : Rules Queue Group} {events : List (Event Id Queue Payload Receipt)}
  {event : Event Id Queue Payload Receipt} {state state' : State Id Queue Payload Receipt} {id : Id}
  {queue : Queue} {payload : Payload} {n : Nat}

omit [DecidableEq Id] in
theorem offersOf_concat (event : Event Id Queue Payload Receipt) :
    offersOf (events ++ [event]) id = offersOf events id ∪ {offer | (id, offer) ∈ event.offers} := by
  ext offer
  simp [offersOf]

theorem history_concat (event : Event Id Queue Payload Receipt) :
    history (events ++ [event]) id = history events id ++
      event.handedOut.filter fun handed => handed.2.id = id := by
  simp [history]

theorem handedOut_poll (now expireAt maxMessages : Nat) (got : List (Delivery Id Payload Receipt)) :
    ((Event.poll queue now expireAt maxMessages got).handedOut.filter fun handed =>
      handed.2.id = id) = (deliveriesOf id got).map fun delivery => (queue, delivery) := by
  rw [Event.handedOut, deliveriesOf, List.filter_map]
  rfl

/-- An event that hands nothing out of an id. -/
theorem Tells.quiet (h : Tells rules events id queue payload n)
    (quiet : (event.handedOut.filter fun handed => handed.2.id = id) = []) :
    Tells rules (events ++ [event]) id queue payload n where
  offer := by
    rw [offersOf_concat]
    exact Or.inl h.offer
  handed := by
    rw [history_concat, quiet, List.append_nil]
    exact h.handed

/-- One more delivery. -/
theorem Tells.hand (h : Tells rules events id queue payload n) {delivery : Delivery Id Payload Receipt}
    (here : (event.handedOut.filter fun handed => handed.2.id = id) =
      [(rules.route queue n, delivery)])
    (same : delivery.payload = payload) (count : delivery.count = rules.count (n + 1)) :
    Tells rules (events ++ [event]) id queue payload (n + 1) where
  offer := by
    rw [offersOf_concat]
    exact Or.inl h.offer
  handed := by
    rw [history_concat, here, List.map_append, h.handed, List.range_succ, List.map_append]
    simp [same, count]

/-- An event that neither hands an id out nor adds to the offers that matter. -/
theorem Agrees.quiet {place : Place Queue Payload Receipt} (h : Agrees rules events id place)
    (none : ∀ offers, place = .offered offers → ∀ offer, (id, offer) ∉ event.offers)
    (quiet : (event.handedOut.filter fun handed => handed.2.id = id) = []) :
    Agrees rules (events ++ [event]) id place := by
  cases place with
  | offered offers =>
      obtain ⟨same, nothing⟩ := h
      have noMore : {offer | (id, offer) ∈ event.offers} = ∅ :=
        Set.eq_empty_of_forall_notMem (none offers rfl)
      rw [Agrees, offersOf_concat, history_concat, noMore, quiet, nothing, Set.union_empty]
      exact ⟨same, rfl⟩
  | waiting job =>
      obtain ⟨queue, tells, at_⟩ := h
      exact ⟨queue, tells.quiet quiet, at_⟩
  | leased job receipt expireAt =>
      obtain ⟨queue, n, tells, often, at_⟩ := h
      exact ⟨queue, n, tells.quiet quiet, often, at_⟩
  | settled =>
      obtain ⟨queue, payload, n, tells⟩ := h
      exact ⟨queue, payload, n, tells.quiet quiet⟩

/-! ## One event -/

theorem State.offer_eq (state : State Id Queue Payload Receipt) (item : Id × Payload) (id : Id) :
    State.offer queue state item id =
      if id = item.1 then (state id).offer queue item.2 else state id := by
  unfold State.offer
  split
  · rename_i same
    rw [same, Function.update_self]
  · rename_i other
    rw [Function.update_of_ne other]

/-- A push adds to the offers of an id that was never handed out. -/
theorem foldl_offer_of_offered (items : List (Id × Payload)) {offers : Set (Queue × Payload)}
    (is : state id = .offered offers) : items.foldl (State.offer queue) state id =
      .offered (offers ∪ {offer | offer.1 = queue ∧ (id, offer.2) ∈ items}) := by
  induction items generalizing state offers with
  | nil => simp [is]
  | cons item items ih =>
      obtain ⟨other, payload⟩ := item
      by_cases same : id = other
      · have grown : State.offer queue state (other, payload) id =
            .offered (insert (queue, payload) offers) := by
          rw [State.offer_eq, if_pos same, is]
          rfl
        rw [List.foldl_cons, ih grown]
        congr 1
        ext ⟨queue', payload'⟩
        simp only [same, Set.mem_union, Set.mem_insert_iff, Set.mem_ofPred_eq, List.mem_cons,
          Prod.mk.injEq, true_and]
        tauto
      · have kept : State.offer queue state (other, payload) id = .offered offers := by
          rw [State.offer_eq, if_neg same, is]
        rw [List.foldl_cons, ih kept]
        congr 1
        ext ⟨queue', payload'⟩
        simp [same]

/-- It does nothing to another. -/
theorem foldl_offer_of_handed (items : List (Id × Payload))
    (handed : ∀ offers, state id ≠ .offered offers) :
    items.foldl (State.offer queue) state id = state id := by
  induction items generalizing state with
  | nil => rfl
  | cons item items ih =>
      have kept : State.offer queue state item id = state id := by
        rw [State.offer_eq]
        split
        · cases place : state id with
          | offered offers => exact absurd place (handed offers)
          | waiting | leased | settled => rfl
        · rfl
      rw [List.foldl_cons, ih (by rw [kept]; exact handed), kept]

theorem Agrees.push (h : Agrees rules events id (state id)) (queue : Queue)
    (items : List (Id × Payload)) :
    Agrees rules (events ++ [.push queue items]) id
      (items.foldl (State.offer queue) state id) := by
  by_cases handed : ∀ offers, state id ≠ .offered offers
  · rw [foldl_offer_of_handed items handed]
    exact h.quiet (fun offers is => absurd is (handed offers)) rfl
  · obtain ⟨offers, place⟩ : ∃ offers, state id = .offered offers := by simpa using handed
    rw [place] at h
    obtain ⟨same, nothing⟩ := h
    rw [foldl_offer_of_offered items place]
    refine ⟨?_, by rw [history_concat, nothing]; rfl⟩
    rw [offersOf_concat, same]
    congr 1
    ext ⟨queue', payload⟩
    simp only [Event.offers, Set.mem_ofPred_eq, List.mem_map, Prod.mk.injEq, Prod.exists]
    constructor
    · rintro ⟨rfl, inside⟩
      exact ⟨id, payload, inside, rfl, rfl, rfl⟩
    · rintro ⟨_, _, inside, rfl, rfl, rfl⟩
      exact ⟨rfl, inside⟩

/-- Receipts end leases and change nothing else. -/
theorem Settled.cases {items : List (Id × Receipt)} {accepted : Nat}
    (settled : Settled rules queue items state accepted state') (id : Id) :
    state' id = state id ∨
      (∃ job receipt expireAt, state id = .leased job receipt expireAt) ∧ state' id = .settled := by
  induction settled with
  | nil state => exact Or.inl rfl
  | @accept other receipt items accepted state state' accepts _ ih =>
      by_cases same : id = other
      · subst same
        rw [Function.update_self] at ih
        obtain ⟨job, expireAt, is, _⟩ := accepts
        refine Or.inr ⟨⟨job, receipt, expireAt, is⟩, ?_⟩
        rcases ih with kept | ⟨⟨_, _, _, bad⟩, _⟩
        · exact kept
        · cases bad
      · rwa [Function.update_of_ne same] at ih
  | reject _ _ ih => exact ih

/-- Only a lease runs out. -/
theorem Released.eq_offered {place : Place Queue Payload Receipt} {group : Group} {now : Nat}
    {offers : Set (Queue × Payload)} (released : Released rules group now place (.offered offers)) :
    place = .offered offers := by
  cases released with
  | kept => rfl

theorem Agrees.released {place place' : Place Queue Payload Receipt} {group : Group} {now : Nat}
    (h : Agrees rules events id place) (released : Released rules group now place place') :
    Agrees rules events id place' := by
  cases released with
  | kept => exact h
  | expired job receipt expireAt due mine =>
      obtain ⟨first, n, tells, often, at_⟩ := h
      refine ⟨first, ?_, ?_⟩
      · show Tells rules events id first job.payload job.deliveries
        rw [often]
        exact tells
      · show rules.next job.deliveries job.queue = rules.route first job.deliveries
        rw [often, at_]
        rfl

theorem Agrees.taken {place place' : Place Queue Payload Receipt} {now expireAt maxMessages : Nat}
    {got : List (Delivery Id Payload Receipt)} (h : Agrees rules events id place)
    (taken : Taken rules queue expireAt id got place place') :
    Agrees rules (events ++ [.poll queue now expireAt maxMessages got]) id place' := by
  cases taken with
  | kept _ none =>
      refine h.quiet (fun _ _ offer bad => by cases bad) ?_
      rw [handedOut_poll, none]
      rfl
  | first offers payload receipt inside one =>
      obtain ⟨same, nothing⟩ := h
      have begun : Tells rules events id queue payload 0 :=
        ⟨same ▸ inside, by rw [nothing]; rfl⟩
      have here : ((Event.poll queue now expireAt maxMessages got).handedOut.filter fun handed =>
          handed.2.id = id) = [(queue, ⟨id, payload, receipt, rules.count 1⟩)] := by
        rw [handedOut_poll, one]
        rfl
      exact ⟨queue, 0, begun.hand here rfl rfl, rfl, rfl⟩
  | again job receipt here one =>
      obtain ⟨first, tells, at_⟩ := h
      have handed : ((Event.poll queue now expireAt maxMessages got).handedOut.filter fun handed =>
          handed.2.id = id) = [(rules.route first job.deliveries,
            ⟨id, job.payload, receipt, rules.count (job.deliveries + 1)⟩)] := by
        rw [handedOut_poll, one, ← at_, here]
        rfl
      exact ⟨first, job.deliveries, tells.hand handed rfl rfl, rfl, at_⟩

/-- Every event keeps the history of every id in agreement with where it stands. -/
theorem Agrees.step (h : ∀ id, Agrees rules events id (state id)) (step : Step rules state event state')
    (id : Id) : Agrees rules (events ++ [event]) id (state' id) := by
  cases event with
  | push queue items =>
      have step : state' = items.foldl (State.offer queue) state := step
      rw [step]
      exact (h id).push queue items
  | poll queue now expireAt maxMessages got =>
      obtain ⟨place, released, taken⟩ := step.2 id
      exact ((h id).released released).taken taken
  | ack queue items accepted =>
      have settled : Settled rules queue items state accepted state' := step
      rcases settled.cases id with same | ⟨⟨job, receipt, expireAt, is⟩, ended⟩
      · rw [same]
        exact (h id).quiet (fun _ _ offer bad => by cases bad) rfl
      · have before := h id
        rw [is] at before
        obtain ⟨first, n, tells, _, _⟩ := before
        rw [ended]
        exact ⟨first, job.payload, n + 1, tells.quiet rfl⟩

/-- Along every history. -/
theorem Runs.agrees (runs : Runs rules events state) (id : Id) :
    Agrees rules events id (state id) := by
  induction runs generalizing id with
  | start => exact ⟨by simp [offersOf], rfl⟩
  | step _ step ih => exact Agrees.step ih step id

/-- An id was never handed out, or all its deliveries are of one offer: they have its payload, are
numbered from 1, and come from its queue until the message goes to the dead-letter queue. -/
theorem Runs.tells (runs : Runs rules events state) (id : Id) :
    history events id = [] ∨ ∃ queue payload n, Tells rules events id queue payload n := by
  have agrees := runs.agrees id
  cases place : state id with
  | offered offers =>
      rw [place] at agrees
      exact Or.inl agrees.2
  | waiting job =>
      rw [place] at agrees
      obtain ⟨queue, tells, _⟩ := agrees
      exact Or.inr ⟨queue, _, _, tells⟩
  | leased job receipt expireAt =>
      rw [place] at agrees
      obtain ⟨queue, n, tells, _⟩ := agrees
      exact Or.inr ⟨queue, _, _, tells⟩
  | settled =>
      rw [place] at agrees
      exact Or.inr agrees

end Broker
