import WalrQueue.Location

/-!
# Acknowledgement is exactly once

What a run does to leases is a list of events: a poll issues a lease, a later
poll's expiry sweep collects it, an ack ends it.  The lease an id holds
according to the events is the one the engine accepts.
-/

namespace WalrQueue

/-! ## The history of a run -/

/-- An event in the history of an id. -/
inductive Event where
  | leased (id : Ulid) (queue receipt : String)
  | expired (id : Ulid)
  | acked (id : Ulid)
  deriving DecidableEq

namespace Event

/-- The id of an event. -/
def id : Event → Ulid
  | leased id _ _ => id
  | expired id => id
  | acked id => id

/-- The lease issued last, once an event has happened. -/
def issue (m : Ulid) (lease : Option (String × String)) : Event → Option (String × String)
  | leased id queue receipt => if id = m then some (queue, receipt) else lease
  | expired _ => lease
  | acked _ => lease

/-- The lease in force, once an event has happened. -/
def settle (m : Ulid) (lease : Option (String × String)) : Event → Option (String × String)
  | leased id queue receipt => if id = m then some (queue, receipt) else lease
  | expired id => if id = m then none else lease
  | acked id => if id = m then none else lease

/-- The lease issued by the most recent poll of an id: its queue and receipt. -/
def lastLease (history : List Event) (m : Ulid) : Option (String × String) :=
  history.foldl (issue m) none

/-- That lease, unless it has been acked or collected since. -/
def current (history : List Event) (m : Ulid) : Option (String × String) :=
  history.foldl (settle m) none

/-- The items of an ack batch for `queue` that end a current lease, each judged
after the items before it. -/
def settled (history : List Event) (queue : String) :
    List (Ulid × String) → List (Ulid × String)
  | [] => []
  | item :: items =>
      if current history item.1 = some (queue, item.2) then
        item :: settled (history ++ [.acked item.1]) queue items
      else settled history queue items

variable {history events : List Event} {m : Ulid} {lease : String × String}

/-- A current lease is the last one. -/
theorem lastLease_of_current (is : current history m = some lease) :
    lastLease history m = some lease := by
  induction history using List.reverseRecOn with
  | nil => cases is
  | append_singleton history event ih =>
      simp only [current, lastLease, List.foldl_append, List.foldl_cons, List.foldl_nil] at is ih ⊢
      cases event with
      | leased id queue receipt =>
          simp only [settle, issue] at is ⊢
          by_cases same : id = m
          · simpa [same] using is
          · simp only [same, if_false] at is ⊢
            exact ih is
      | expired id | acked id =>
          simp only [settle, issue] at is ⊢
          split at is
          · cases is
          · exact ih is

/-- Only the events of an id change its lease. -/
theorem foldl_settle (events : List Event) (lease : Option (String × String)) :
    events.foldl (settle m) lease =
      (events.filter (fun event => event.id = m)).foldl (settle m) lease := by
  induction events generalizing lease with
  | nil => rfl
  | cons event events ih =>
      by_cases same : event.id = m
      · simp [same, ih]
      · have skip : settle m lease event = lease := by
          cases event <;> exact if_neg same
        simp [same, skip, ih]

theorem current_append : current (history ++ events) m =
    (events.filter (fun event => event.id = m)).foldl (settle m) (current history m) := by
  rw [current, List.foldl_append, foldl_settle events]
  rfl

/-- An ack issues no lease. -/
theorem lastLease_append_acked (id : Ulid) :
    lastLease (history ++ [.acked id]) m = lastLease history m := by
  simp [lastLease, issue]

end Event

/-- What an operation does to leases. -/
def World.events (env : Env) (w : World) : Op → List Event
  | .poll queue visibilitySec maxMessages =>
      (w.engine.collectExpired (shardIdx queue) w.clock).2.map (fun msg => .expired msg.id) ++
        (w.engine.poll env w.clock queue visibilitySec maxMessages).2.map
          fun p => .leased p.id queue p.receiptHandle
  | .ack queue messageId receipt =>
      if (w.engine.ack env queue messageId receipt).2 then
        ((QueueEngine.parseIdFast env messageId).map Event.acked).toList
      else []
  | .ackBatch queue items =>
      (QueueEngine.ackBatchLoop env w.engine queue items).accepted.map fun item => .acked item.1
  | _ => []

/-- The history of a run. -/
def World.history (env : Env) (w : World) : List Op → List Event
  | [] => []
  | op :: ops => w.events env op ++ World.history env (w.step env op) ops

theorem World.history_append (env : Env) (w : World) (ops more : List Op) :
    w.history env (ops ++ more) = w.history env ops ++ (w.run env ops).history env more := by
  induction ops generalizing w with
  | nil => rfl
  | cons op ops ih =>
      simp only [List.cons_append, World.history, ih, List.append_assoc]
      rfl

/-! ## The history agrees with the lives -/

/-- The history of an id gives the lease the engine has for it. -/
structure Agrees (history : List Event) (m : Ulid) (life : Life) : Prop where
  lease : Event.current history m = life.lease?
  queue : ∀ msg item, life = .leased msg item → item.queue = msg.queue
  acks : history.count (.acked m) = if life.isDead then 1 else 0

variable {env : Env} {tracked : Set Ulid} {home : Ulid → String} {w : World} {op : Op}
  {history : List Event} {m : Ulid} {life life' : Life} {rs : List WalRecord}
  {log : Set WalRecord} {lives : Ulid → Life}

theorem Agrees.loads (h : Agrees history m life) (loads : life.Loads life') :
    Agrees history m life' := by
  cases loads with
  | same => exact h
  | load msg zero => exact ⟨h.lease, fun _ _ is => (by cases is), h.acks⟩

theorem Agrees.putBack (h : Agrees history m life) (now : Nat) :
    Agrees history m (life.putBack now) := by
  cases life with
  | inHand msg => exact ⟨h.lease, fun _ _ is => (by cases is), h.acks⟩
  | fresh | pending | leased | dead => exact h

theorem Agrees.expires (h : Agrees history m life) {now : Nat} {s : Fin numShards}
    {taken : List StoredMsg} (expires : Tracks.Expires now m s taken life life') :
    Agrees (history ++ taken.map fun msg => .expired msg.id) m life' := by
  have filtered : (taken.map fun msg => Event.expired msg.id).filter (fun event => event.id = m) =
      (ShardState.messagesOf m taken).map fun msg => Event.expired msg.id := by
    rw [List.filter_map]
    rfl
  have count : (history ++ taken.map fun msg => Event.expired msg.id).count (.acked m) =
      history.count (.acked m) := by
    simp [List.count_append, List.count_eq_zero]
  cases expires with
  | kept _ none =>
      refine ⟨?_, h.queue, count.trans h.acks⟩
      rw [Event.current_append, filtered, none]
      exact h.lease
  | expire msg item due here one =>
      have mine : msg.id = m := by
        have member : msg ∈ ShardState.messagesOf m taken := by rw [one]; simp
        simpa using (List.mem_filter.1 member).2
      refine ⟨?_, fun _ _ is => (by cases is), count.trans h.acks⟩
      rw [Event.current_append, filtered, one]
      simp [Event.settle, mine, Life.lease?]

theorem Agrees.leases (h : Agrees history m life) {queue : String} {now timeout : Nat}
    {polled : List PolledMessage}
    (leases : Tracks.Leases env queue now timeout m polled life life') :
    Agrees (history ++ polled.map fun p => .leased p.id queue p.receiptHandle) m life' := by
  have filtered : (polled.map fun p => Event.leased p.id queue p.receiptHandle).filter
      (fun event => event.id = m) =
      (ShardState.polledOf m polled).map fun p => Event.leased p.id queue p.receiptHandle := by
    rw [List.filter_map]
    rfl
  have count : (history ++ polled.map fun p => Event.leased p.id queue p.receiptHandle).count
      (.acked m) = history.count (.acked m) := by
    simp [List.count_append, List.count_eq_zero]
  cases leases with
  | kept _ none =>
      refine ⟨?_, h.queue, count.trans h.acks⟩
      rw [Event.current_append, filtered, none]
      exact h.lease
  | lease msg item mine isLease one =>
      refine ⟨?_, ?_, count.trans h.acks⟩
      · rw [Event.current_append, filtered, one]
        simp [Event.settle, ShardState.polledMessage, isLease.id, isLease.queue, Life.lease?]
      · rintro _ _ ⟨⟩
        exact isLease.queue.trans mine.symm

/-- A poll adds its events to the history of every id. -/
theorem Agrees.polls (h : Agrees history m life) {queue : String}
    {visibilitySec maxMessages : Nat}
    (polls : Polls env w.engine w.clock queue visibilitySec maxMessages m life life') :
    Agrees (history ++ w.events env (.poll queue visibilitySec maxMessages)) m life' := by
  obtain ⟨expired, loaded, expires, loads, leases⟩ := polls
  simp only [World.events]
  rw [← List.append_assoc]
  exact (((h.expires expires).putBack w.clock).loads loads).leases leases

/-- An accepted ack ends the life of its id and of no other. -/
theorem Agrees.accept {id : Ulid} {queue receipt : String}
    (h : ∀ m ∈ tracked, Agrees history m (lives m))
    (accepts : id ∈ tracked → (lives id).Accepts queue receipt) (m : Ulid) (inside : m ∈ tracked) :
    Agrees (history ++ [.acked id]) m (Function.update lives id .dead m) := by
  by_cases same : m = id
  · subst same
    rw [Function.update_self]
    obtain ⟨msg, item, is, _, _⟩ := accepts inside
    have before := (h m inside).acks
    rw [is] at before
    refine ⟨?_, fun _ _ is => (by cases is), ?_⟩
    · rw [Event.current_append]
      simp [Event.settle, Event.id, Life.lease?]
    · rw [List.count_append, before]
      simp [Life.isDead]
  · rw [Function.update_of_ne same]
    have other : id ≠ m := fun eq => same eq.symm
    refine ⟨?_, (h m inside).queue, ?_⟩
    · rw [Event.current_append]
      simpa [Event.id, other] using (h m inside).lease
    · have none : [Event.acked id].count (.acked m) = 0 := by simp [other]
      rw [List.count_append, none, Nat.add_zero]
      exact (h m inside).acks

/-- The items a batch accepts are those that end a current lease. -/
theorem Agrees.settles {queue : String} {items accepted : List (Ulid × String)}
    {lives' : Ulid → Life} (settles : Settles tracked queue items lives accepted lives')
    (h : ∀ m ∈ tracked, Agrees history m (lives m)) :
    ∀ m ∈ tracked, Agrees (history ++ accepted.map fun item => .acked item.1) m (lives' m) := by
  induction settles generalizing history with
  | nil lives => simpa using h
  | accept accepts _ ih =>
      have rest := ih (Agrees.accept h accepts)
      simpa using rest
  | reject _ _ ih => exact ih h

/-- Every operation adds its events to the history of every id. -/
theorem Agrees.step {lives' : Ulid → Life} (h : ∀ m ∈ tracked, Agrees history m (lives m))
    (moves : Moves tracked env w lives lives' op) :
    ∀ m ∈ tracked, Agrees (history ++ w.events env op) m (lives' m) := by
  intro m inside
  cases op with
  | push queue id payload delaySec =>
      simpa [World.events] using (h m inside).loads (moves m inside)
  | pushBatch queue items => simpa [World.events] using (h m inside).loads (moves m inside)
  | poll queue visibilitySec maxMessages => exact (h m inside).polls (moves m inside)
  | ack queue messageId receipt =>
      rcases moves with ⟨id, parsed, accepts, success, rfl⟩ | ⟨_, failed, rfl⟩
      · simpa [World.events, success, parsed] using Agrees.accept h accepts m inside
      · simpa [World.events, failed] using h m inside
  | ackBatch queue items => exact Agrees.settles moves.1 h m inside
  | advance seconds =>
      have same : lives' = lives := moves
      simpa [World.events, same] using h m inside

theorem World.history_concat (env : Env) (w : World) (ops : List Op) (op : Op) :
    w.history env (ops ++ [op]) = w.history env ops ++ (w.run env ops).events env op := by
  rw [World.history_append]
  simp [World.history]

/-- Along every run that is ordinary for the tracked ids, their history agrees
with their lives. -/
theorem World.agrees_run {opts : QueueOptions} {clock : Nat} {ops : List Op}
    (ordinary : Trace.Along (World.step env) (OrdinaryFor tracked home env)
      (World.fresh env opts clock) ops)
    (few : ((World.fresh env opts clock).run env ops).engine.names.length ≤ 65536) :
    ∃ rs log lives,
      Sound tracked home ((World.fresh env opts clock).run env ops).engine rs log lives ∧
      ∀ m ∈ tracked, Agrees ((World.fresh env opts clock).history env ops) m (lives m) := by
  refine World.sound_run_with (I := fun ops lives =>
      ∀ m ∈ tracked, Agrees ((World.fresh env opts clock).history env ops) m (lives m))
    (fun m _ => ⟨rfl, fun _ _ is => (by cases is), rfl⟩) ?_ ordinary few
  intro ops op lives lives' agrees moves
  rw [World.history_concat]
  exact Agrees.step agrees moves

/-! ## Exactly-once acknowledgement -/

/-- An ack for `queue` names the queue its id was last polled from. -/
def NamesQueue (history : List Event) (queue : String) (id : Ulid) : Prop :=
  ∀ lease, Event.lastLease history id = some lease → lease.1 = queue

/-- An ack that names the queue polled ends exactly the current lease. -/
theorem Agrees.accepts_iff (h : Agrees history m life) {queue receipt : String}
    (names : NamesQueue history queue m) :
    life.Accepts queue receipt ↔ Event.current history m = some (queue, receipt) := by
  rw [h.lease]
  constructor
  · rintro ⟨msg, item, rfl, _, rfl⟩
    have named := names (item.queue, item.receipt) (Event.lastLease_of_current h.lease)
    simp only at named
    simp [Life.lease?, named]
  · intro is
    cases life with
    | leased msg item =>
        simp only [Life.lease?, Option.some.injEq, Prod.mk.injEq] at is
        exact ⟨msg, item, rfl, by rw [← is.1, h.queue msg item rfl], is.2⟩
    | fresh | pending | inHand | dead => cases is

theorem Agrees.settled_of_settles {queue : String} {items accepted : List (Ulid × String)}
    {lives' : Ulid → Life} (settles : Settles Set.univ queue items lives accepted lives')
    (h : ∀ m ∈ Set.univ, Agrees history m (lives m))
    (names : ∀ item ∈ items, NamesQueue history queue item.1) :
    accepted = Event.settled history queue items := by
  induction settles generalizing history with
  | nil lives => rfl
  | @accept id receipt items accepted lives lives' accepts _ ih =>
      have valid := ((h id trivial).accepts_iff (names (id, receipt) (by simp))).1
        (accepts trivial)
      have rest := ih (Agrees.accept h accepts) fun item member lease last => by
        rw [Event.lastLease_append_acked] at last
        exact names item (by simp [member]) lease last
      simp only [Event.settled, valid, if_true, ← rest]
  | @reject id receipt items accepted lives lives' rejects _ ih =>
      have invalid : Event.current history id ≠ some (queue, receipt) := fun valid =>
        rejects trivial (((h id trivial).accepts_iff (names (id, receipt) (by simp))).2 valid)
      simp only [Event.settled, invalid, if_false]
      exact ih h fun item member => names item (by simp [member])

theorem Agrees.dead_of_acked (h : Agrees history m life) (acked : .acked m ∈ history) :
    life = .dead := by
  have positive := List.count_pos_iff.2 acked
  have count := h.acks
  cases life with
  | dead => rfl
  | fresh | pending | leased | inHand =>
      have none : history.count (.acked m) = 0 := count
      omega

/-- A poll returns no dead id. -/
theorem Polls.not_dead {e : QueueEngine} {now : Nat} {queue : String}
    {visibilitySec maxMessages : Nat}
    (polls : Polls env e now queue visibilitySec maxMessages m .dead life') {p : PolledMessage}
    (member : p ∈ (e.poll env now queue visibilitySec maxMessages).2) : p.id ≠ m := by
  rintro same
  obtain ⟨expired, loaded, expires, loads, leases⟩ := polls
  cases expires with
  | kept _ none =>
      cases loads with
      | same =>
          cases leases with
          | kept _ none =>
              have hit : p ∈ ShardState.polledOf m
                  (e.poll env now queue visibilitySec maxMessages).2 :=
                List.mem_filter.2 ⟨member, by simpa using same⟩
              rw [none] at hit
              cases hit

/-- The last operation of an ordinary run, after any history: an ack, or an item
of an ack batch, that names the queue polled succeeds exactly on the lease in
force; no id is acked twice; and no poll returns an id that was acked. -/
theorem World.run_ackOnce {opts : QueueOptions} {clock : Nat} {ops : List Op} {op : Op}
    (ordinary : Trace.Along (World.step env) (Ordinary home env) (World.fresh env opts clock)
      (ops ++ [op]))
    (few : ((World.fresh env opts clock).run env (ops ++ [op])).engine.names.length < 65536) :
    let w := (World.fresh env opts clock).run env ops
    let history := (World.fresh env opts clock).history env ops
    (∀ queue messageId receipt, op = .ack queue messageId receipt →
      (∀ id, QueueEngine.parseIdFast env messageId = some id → NamesQueue history queue id) →
      ((w.exec env op).2 = .acked true ↔ ∃ id, QueueEngine.parseIdFast env messageId = some id ∧
        Event.current history id = some (queue, receipt))) ∧
    (∀ queue items, op = .ackBatch queue items →
      (∀ item ∈ QueueEngine.parsedItems env items, NamesQueue history queue item.1) →
      (QueueEngine.ackBatchLoop env w.engine queue items).accepted =
          Event.settled history queue (QueueEngine.parsedItems env items) ∧
        (w.exec env op).2 = .ackedBatch
          (Event.settled history queue (QueueEngine.parsedItems env items)).length) ∧
    (∀ id, ((World.fresh env opts clock).history env (ops ++ [op])).count (.acked id) ≤ 1) ∧
    ∀ queue visibilitySec maxMessages, op = .poll queue visibilitySec maxMessages →
      ∀ p ∈ (w.engine.poll env w.clock queue visibilitySec maxMessages).2,
        Event.acked p.id ∉ history := by
  intro w history
  have ordinary := ordinary.imp fun _ _ h => h.all Set.univ
  have whole := World.agrees_run ordinary few.le
  obtain ⟨before, last⟩ := Trace.along_append.1 ordinary
  rw [World.run_concat] at few
  obtain ⟨rs, log, lives, sound, agrees⟩ := World.agrees_run before
    ((World.names_step env _ op).length_le.trans few.le)
  obtain ⟨_, _, lives', _, moves⟩ := sound.step last.1 few.le
  refine ⟨?_, ?_, fun id => ?_, ?_⟩
  · rintro queue messageId receipt rfl names
    have reply : (w.exec env (.ack queue messageId receipt)).2 =
        .acked (w.engine.ack env queue messageId receipt).2 := rfl
    rw [reply]
    rcases moves with ⟨id, parsed, accepts, success, _⟩ | ⟨rejects, failed, _⟩
    · rw [success]
      exact iff_of_true rfl ⟨id, parsed,
        ((agrees id trivial).accepts_iff (names id parsed)).1 (accepts trivial)⟩
    · rw [failed]
      refine iff_of_false (by simp) ?_
      rintro ⟨id, parsed, valid⟩
      exact rejects id parsed trivial (((agrees id trivial).accepts_iff (names id parsed)).2 valid)
  · rintro queue items rfl names
    obtain ⟨settles, count⟩ := moves
    have eq := Agrees.settled_of_settles settles agrees names
    refine ⟨eq, ?_⟩
    rw [← eq]
    exact congrArg Reply.ackedBatch (count Set.mem_univ)
  · obtain ⟨_, _, after, _, agrees'⟩ := whole
    rw [(agrees' id trivial).acks]
    split <;> decide
  · rintro queue visibilitySec maxMessages rfl p member acked
    have polls := moves p.id trivial
    rw [(agrees p.id trivial).dead_of_acked acked] at polls
    exact polls.not_dead member rfl

/-- The sample run, then a re-push of the acked id and a poll. -/
theorem World.run_ackOnce_sample :
    Trace.Along (World.step .sample) (Ordinary sampleHome .sample)
        (World.fresh .sample .default 1600000000)
        (sampleOps ++ [.push "jobs" 1 [7] 0] ++ [.poll "jobs" 30 5]) ∧
      ((World.fresh .sample .default 1600000000).history .sample
        (sampleOps ++ [.push "jobs" 1 [7] 0] ++ [.poll "jobs" 30 5])).count (.acked 1) ≤ 1 :=
  have ordinary : Trace.Along (World.step .sample) (Ordinary sampleHome .sample)
      (World.fresh .sample .default 1600000000)
      (sampleOps ++ [.push "jobs" 1 [7] 0] ++ [.poll "jobs" 30 5]) := by decide +kernel
  ⟨ordinary, (World.run_ackOnce ordinary (by decide +kernel)).2.2.1 1⟩

end WalrQueue
