import WalrQueue.Location
import WalrQueue.RamAccounting

/-!
# Redelivery is bounded

A message is pushed to its home queue and delivered from there with the counts
1, 2, 3 and so on, until a lease of it expires with the count at the limit.  It
then moves to the dead-letter queue and never comes back.
-/

namespace WalrQueue

variable {env : Env} {tracked : Set Ulid} {home : Ulid → String} {w : World} {op : Op}
  {rs rs' : List WalRecord} {log log' : Set WalRecord} {lives lives' : Ulid → Life} {m : Ulid}
  {cap : Nat} {life life' : Life}

/-! ## New messages -/

/-- A message of `m` is in its home queue under the limit of the engine. -/
def AtHome (home : Ulid → String) (cap : Nat) (m id : Ulid) (msg : StoredMsg) : Prop :=
  id = m → msg.queue = home m ∧ msg.maxDelivery = cap

/-- An id that is fresh has no message. -/
theorem Tracks.every_of_fresh {e : QueueEngine} {held : Multiset StoredMsg}
    (h : Tracks e m (home m) log held .fresh) (cap : Nat) : e.Every (AtHome home cap m) := by
  intro s id msg found same
  subst same
  have none : AList.lookup id (e.shards s).messages = none := (h.shards s).msg
  rw [found] at none
  cases none

/-- Page-in loads a fresh id from a record of its home queue only. -/
theorem Sound.every_prefetch {e : QueueEngine} (h : Sound tracked home e rs log lives)
    (inside : m ∈ tracked) (fresh : lives m = .fresh) (env : Env) (queue : String)
    (now maxMessages : Nat) :
    (e.prefetch env queue now maxMessages).Every
      (AtHome home e.options.maxDeliveryCount m) := by
  have tracks := h.tracks m inside
  rw [fresh] at tracks
  have paged : Written (e.prefetch env queue now maxMessages) rs ∧
      (e.prefetch env queue now maxMessages).options = e.options ∧
      (e.prefetch env queue now maxMessages).Every
        (AtHome home e.options.maxDeliveryCount m) := by
    refine prefetch_induction (P := fun e' => Written e' rs ∧ e'.options = e.options ∧
        e'.Every (AtHome home e.options.maxDeliveryCount m)) (fun fetchLimit e' flushed before => ?_)
      ⟨h.written, rfl, tracks.every_of_fresh _⟩ maxMessages
    obtain ⟨written, options, every⟩ := before
    refine ⟨written.pageInStep env now queue fetchLimit flushed,
      (disk_pageInStep env now queue fetchLimit e' flushed).2.trans options, ?_⟩
    obtain ⟨offset, _, ⟨records, part, eq⟩ | eq⟩ :=
      written.pageInStep_cases env now queue fetchLimit flushed
    · have moved : ({ e' with spillReadOffset := offset } : QueueEngine).Every
          (AtHome home e.options.maxDeliveryCount m) := every.congr rfl
      rw [eq]
      refine moved.pageInChunk ?_ queue
      intro id queueName visibleAt payload member same
      subst same
      refine ⟨(tracks.fresh rfl).2 queueName (Or.inr ⟨visibleAt, payload, ?_⟩), ?_⟩
      · exact h.logged _ (part.subset member)
      · exact congrArg QueueOptions.maxDeliveryCount options
    · rw [eq]
      exact every.congr rfl
  exact paged.2.2

/-- What an operation puts in memory of a fresh id is in its home queue. -/
theorem Sound.every_step (h : Sound tracked home w.engine rs log lives) (inside : m ∈ tracked)
    (fresh : lives m = .fresh) (ordinary : OrdinaryFor tracked home env w op) :
    (w.step env op).engine.Every (AtHome home w.engine.options.maxDeliveryCount m) := by
  have tracks := h.tracks m inside
  rw [fresh] at tracks
  have before := tracks.every_of_fresh w.engine.options.maxDeliveryCount
  cases op with
  | push queue id payload delaySec =>
      refine before.pushWithUlid env fun same => ?_
      subst same
      exact ⟨(ordinary.oneQueue (id, queue) (by simp [World.pushes]) inside).symm, rfl⟩
  | pushBatch queue items =>
      refine (before.pushBatchUnchecked env fun item _ id member same => ?_).checkAndTriggerCompaction
        env
      subst same
      exact ⟨(ordinary.oneQueue (id, queue) (List.mem_map_of_mem member) inside).symm, rfl⟩
  | poll queue visibilitySec maxMessages =>
      obtain ⟨expired, expires, routed⟩ := h.route (shardIdx queue) w.clock
      have still : (expired m).putBack w.clock = .fresh := by
        have expires := expires m inside
        rw [fresh] at expires
        generalize expired m = after at expires
        cases expires with
        | kept _ _ => rfl
      have options := (disk_routeExpired_foldl w.clock
        (w.engine.collectExpired (shardIdx queue) w.clock).1
        (w.engine.collectExpired (shardIdx queue) w.clock).2).2.2
      have loaded := routed.every_prefetch inside still env queue w.clock maxMessages
      rw [options] at loaded
      have claimed := loaded.claimSection (fun id msg athome same => athome same) env queue w.clock
        (w.engine.visibility visibilitySec) maxMessages
      have eq : (w.step env (.poll queue visibilitySec maxMessages)).engine =
          ((w.engine.polling env w.clock queue maxMessages).claimSection env queue w.clock
            (w.engine.visibility visibilitySec) maxMessages).1 :=
        congrArg Prod.fst (poll_eq env w.engine w.clock queue visibilitySec maxMessages)
      rw [eq]
      exact claimed
  | ack queue messageId receipt =>
      simp only [World.step, World.exec, QueueEngine.ack]
      split
      · exact before
      · rename_i done success
        obtain ⟨id, _, success⟩ := Option.bind_eq_some_iff.1 success
        exact (before.ackUnchecked success).checkAndTriggerCompaction env
  | ackBatch queue items =>
      exact (before.ackBatchUnchecked env queue items).checkAndTriggerCompaction env
  | advance seconds => exact before

/-! ## Deliveries of a run -/

/-- The counts under which an operation returns an id from a queue. -/
def World.returns (env : Env) (w : World) (queue : String) (m : Ulid) : Op → List Nat
  | .poll q visibilitySec maxMessages =>
      if q = queue then
        (ShardState.polledOf m (w.engine.poll env w.clock q visibilitySec maxMessages).2).map
          (·.deliveryCount)
      else []
  | _ => []

/-- The counts under which the polls of a queue return an id, in order. -/
def World.deliveries (env : Env) (queue : String) (m : Ulid) : World → List Op → List Nat
  | _, [] => []
  | w, op :: ops =>
      w.returns env queue m op ++ World.deliveries env queue m (w.step env op) ops

theorem World.deliveries_append (env : Env) (queue : String) (m : Ulid) (w : World)
    (ops more : List Op) :
    World.deliveries env queue m w (ops ++ more) =
      World.deliveries env queue m w ops ++ World.deliveries env queue m (w.run env ops) more := by
  induction ops generalizing w with
  | nil => rfl
  | cons op ops ih =>
      simp only [List.cons_append, World.deliveries, ih, List.append_assoc]
      rfl

theorem World.deliveries_concat (env : Env) (queue : String) (m : Ulid) (w : World)
    (ops : List Op) (op : Op) :
    World.deliveries env queue m w (ops ++ [op]) =
      World.deliveries env queue m w ops ++ (w.run env ops).returns env queue m op := by
  rw [World.deliveries_append]
  simp [World.deliveries]

/-- The counts are `1, 2, …, n` for some `n` within the limit; the first delivery is
always allowed. -/
def Within (cap : Nat) (counts : List Nat) : Prop :=
  ∃ n, n ≤ max 1 cap ∧ counts = List.range' 1 n

/-- The message is in a queue with a longer name: a dead-letter queue of `home`, or of
one of those. -/
def StoredMsg.Left (home : String) (msg : StoredMsg) : Prop := home.length < msg.queue.length

/-- Where a message is, and the counts it was delivered with from its home queue. -/
def Delivered (cap : Nat) (home : String) (counts : List Nat) : Life → Prop
  | .fresh => counts = []
  | .pending msg => msg.maxDelivery = cap ∧
      (msg.queue = home ∧ counts = List.range' 1 msg.deliveryCount ∧
          (msg.deliveryCount = 0 ∨ msg.deliveryCount < cap) ∨
        msg.Left home ∧ Within cap counts)
  | .leased msg _ => msg.maxDelivery = cap ∧
      (msg.queue = home ∧ counts = List.range' 1 msg.deliveryCount ∧
          msg.deliveryCount ≤ max 1 cap ∨
        msg.Left home ∧ Within cap counts)
  | .inHand msg => msg.maxDelivery = cap ∧
      (msg.queue = home ∧ counts = List.range' 1 msg.deliveryCount ∧
          msg.deliveryCount ≤ max 1 cap ∨
        msg.Left home ∧ Within cap counts)
  | .dead => Within cap counts

namespace Delivered

variable {counts : List Nat} {name : String}

theorem within (h : Delivered cap name counts life) : Within cap counts := by
  cases life with
  | fresh => exact ⟨0, Nat.zero_le _, h⟩
  | pending msg =>
      obtain ⟨_, ⟨_, eq, bound⟩ | ⟨_, within⟩⟩ := h
      · refine ⟨_, ?_, eq⟩
        rcases bound with zero | below
        · rw [zero]
          exact Nat.zero_le _
        · exact below.le.trans (Nat.le_max_right _ _)
      · exact within
  | leased msg item =>
      obtain ⟨_, ⟨_, eq, bound⟩ | ⟨_, within⟩⟩ := h
      · exact ⟨_, bound, eq⟩
      · exact within
  | inHand msg =>
      obtain ⟨_, ⟨_, eq, bound⟩ | ⟨_, within⟩⟩ := h
      · exact ⟨_, bound, eq⟩
      · exact within
  | dead => exact h

theorem expires (h : Delivered cap name counts life) {now : Nat} {s : Fin numShards}
    {taken : List StoredMsg} (expires : Tracks.Expires now m s taken life life') :
    Delivered cap name counts life' := by
  cases expires with
  | kept _ _ => exact h
  | expire msg item _ _ _ => exact h

theorem left_dlq {msg : StoredMsg} (h : msg.queue = name ∨ msg.Left name) (now : Nat)
    (limit : msg.maxDelivery ≤ msg.deliveryCount) : (Life.routed now msg).Left name := by
  have longer : (dlqName msg.queue).length = msg.queue.length + 4 := by
    rw [dlqName, String.length_append]
    rfl
  rw [Life.routed, if_pos limit]
  unfold StoredMsg.Left at h ⊢
  simp only [longer]
  rcases h with rfl | left
  · omega
  · omega

/-- A message at its limit leaves, any other one waits again where it was. -/
theorem putBack (h : Delivered cap name counts life) (now : Nat) :
    Delivered cap name counts (life.putBack now) := by
  cases life with
  | inHand msg =>
      obtain ⟨limit, place⟩ := h
      by_cases spent : msg.maxDelivery ≤ msg.deliveryCount
      · refine ⟨by rw [Life.routed, if_pos spent]; exact limit, Or.inr ⟨left_dlq ?_ now spent, ?_⟩⟩
        · exact place.imp (fun home => home.1) (fun left => left.1)
        · rcases place with ⟨_, eq, bound⟩ | ⟨_, within⟩
          · exact ⟨_, bound, eq⟩
          · exact within
      · have same : Life.routed now msg = { msg with visibleAt := now } := by
          simp [Life.routed, spent]
        simp only [Life.putBack, same]
        refine ⟨limit, place.imp (fun home => ⟨home.1, home.2.1, Or.inr ?_⟩) id⟩
        rw [limit] at spent
        exact Nat.lt_of_not_le spent
  | fresh | pending | leased | dead => exact h

/-- A new message has not been delivered. -/
theorem loads (h : Delivered cap name counts life) (loads : life.Loads life')
    (born : ∀ msg, life = .fresh → life' = .pending msg →
      msg.queue = name ∧ msg.maxDelivery = cap) :
    Delivered cap name counts life' := by
  cases loads with
  | same => exact h
  | load msg zero =>
      obtain ⟨atHome, limit⟩ := born msg rfl rfl
      have none : counts = [] := h
      refine ⟨limit, Or.inl ⟨atHome, ?_, Or.inl zero⟩⟩
      rw [zero]
      exact none

/-- A delivery from the home queue has the next count. -/
theorem leases (h : Delivered cap name counts life) (small : cap < 2 ^ 32) {queue : String}
    {now timeout : Nat} {polled : List PolledMessage}
    (leases : Tracks.Leases env queue now timeout m polled life life') :
    Delivered cap name (counts ++ if queue = name then
      (ShardState.polledOf m polled).map (·.deliveryCount) else []) life' := by
  cases leases with
  | kept _ none => simpa [none] using h
  | lease msg item mine isLease one =>
      obtain ⟨limit, ⟨atHome, eq, bound⟩ | ⟨left, within⟩⟩ := h
      · have next : (msg.deliveryCount + 1) % 2 ^ 32 = msg.deliveryCount + 1 :=
          Nat.mod_eq_of_lt (by omega)
        refine ⟨limit, Or.inl ⟨atHome, ?_, ?_⟩⟩
        · rw [if_pos (mine.symm.trans atHome), one, eq]
          simp only [List.map_cons, List.map_nil, ShardState.polledMessage, ShardState.delivered,
            next]
          rw [← List.range'_append_1]
          simp [Nat.add_comm]
        · show (msg.deliveryCount + 1) % 2 ^ 32 ≤ max 1 cap
          omega
      · have other : queue ≠ name := by
          rintro rfl
          unfold StoredMsg.Left at left
          rw [mine] at left
          exact absurd left (lt_irrefl _)
        rw [if_neg other, List.append_nil]
        exact ⟨limit, Or.inr ⟨left, within⟩⟩

end Delivered

/-! ## One step -/

/-- The message of an id that is not in the hand of a poll. -/
theorem Tracks.lookup {e : QueueEngine} {name : String} (h : Tracks e m name log 0 life)
    {msg : StoredMsg} (is : life.msg? = some msg) :
    AList.lookup m (e.shards (shardIdx msg.queue)).messages = some msg := by
  have here := (h.shards (shardIdx msg.queue)).msg
  cases life with
  | pending msg' =>
      cases is
      simpa [Life.status, Status.msg?] using here
  | leased msg' item =>
      cases is
      simpa [Life.status, Status.msg?] using here
  | inHand msg' => exact absurd rfl (h.idle msg')
  | fresh | dead => cases is

/-- An accepted ack ends a lease. -/
theorem Settles.ends {queue : String} {items accepted : List (Ulid × String)}
    (settles : Settles tracked queue items lives accepted lives') (inside : m ∈ tracked) :
    lives' m = lives m ∨ (∃ msg item, lives m = .leased msg item) ∧ lives' m = .dead := by
  induction settles with
  | nil lives => exact Or.inl rfl
  | @accept id receipt items accepted lives lives' accepts _ ih =>
      by_cases same : m = id
      · subst same
        rw [Function.update_self] at ih
        obtain ⟨msg, item, is, _, _⟩ := accepts inside
        refine Or.inr ⟨⟨msg, item, is⟩, ?_⟩
        rcases ih with kept | ⟨⟨_, _, bad⟩, _⟩
        · exact kept
        · cases bad
      · rwa [Function.update_of_ne same] at ih
  | reject _ _ ih => exact ih

/-- How an operation that is not a poll moves an id. -/
theorem Moves.cases (moves : Moves tracked env w lives lives' op) (inside : m ∈ tracked) :
    (∃ queue visibilitySec maxMessages, op = .poll queue visibilitySec maxMessages) ∨
    (∀ queue, w.returns env queue m op = []) ∧ ((lives m).Loads (lives' m) ∨
      (∃ msg item, lives m = .leased msg item) ∧ lives' m = .dead) := by
  cases op with
  | push queue id payload delaySec => exact Or.inr ⟨fun _ => rfl, Or.inl (moves m inside)⟩
  | pushBatch queue items => exact Or.inr ⟨fun _ => rfl, Or.inl (moves m inside)⟩
  | poll queue visibilitySec maxMessages => exact Or.inl ⟨_, _, _, rfl⟩
  | ack queue messageId receipt =>
      refine Or.inr ⟨fun _ => rfl, ?_⟩
      rcases moves with ⟨id, _, accepts, _, rfl⟩ | ⟨_, _, rfl⟩
      · by_cases same : m = id
        · subst same
          obtain ⟨msg, item, is, _, _⟩ := accepts inside
          exact Or.inr ⟨⟨msg, item, is⟩, Function.update_self ..⟩
        · rw [Function.update_of_ne same]
          exact Or.inl (.same _)
      · exact Or.inl (.same _)
  | ackBatch queue items =>
      refine Or.inr ⟨fun _ => rfl, ?_⟩
      rcases moves.1.ends inside with same | ends
      · rw [same]
        exact Or.inl (.same _)
      · exact Or.inr ends
  | advance seconds =>
      have same : lives' = lives := moves
      rw [same]
      exact Or.inr ⟨fun _ => rfl, Or.inl (.same _)⟩

/-- Every operation keeps the counts of every id in order. -/
theorem Delivered.step {counts : List Nat}
    (h : Delivered cap (home m) counts (lives m)) (small : cap < 2 ^ 32)
    (limit : w.engine.options.maxDeliveryCount = cap)
    (before : Sound tracked home w.engine rs log lives)
    (after : Sound tracked home (w.step env op).engine rs' log' lives') (inside : m ∈ tracked)
    (ordinary : OrdinaryFor tracked home env w op)
    (moves : Moves tracked env w lives lives' op) :
    Delivered cap (home m) (counts ++ w.returns env (home m) m op) (lives' m) := by
  -- a message that is new after the operation is in its home queue
  have born : lives m = .fresh → ∀ msg, (lives' m).msg? = some msg →
      msg.queue = home m ∧ msg.maxDelivery = cap := by
    intro fresh msg is
    have found := (after.tracks m inside).lookup is
    rw [← limit]
    exact before.every_step inside fresh ordinary _ m msg found rfl
  rcases moves.cases inside with ⟨queue, visibilitySec, maxMessages, rfl⟩ | ⟨none, outcome⟩
  · obtain ⟨expired, loaded, expires, loads, leases⟩ := moves m inside
    have back := (h.expires expires).putBack w.clock
    have load := back.loads loads fun msg fresh is => ?_
    · exact load.leases small leases
    · have start : lives m = .fresh := by
        generalize lives m = life at expires
        cases expires with
        | kept _ _ =>
            cases expired with
            | fresh => rfl
            | pending | leased | inHand | dead => cases fresh
        | expire msg item _ _ _ => cases fresh
      subst is
      have born := born start
      generalize lives' m = life' at leases born
      cases leases with
      | kept _ _ => exact born msg rfl
      | lease _ item _ _ _ => exact born (ShardState.delivered msg) rfl
  · rw [none, List.append_nil]
    rcases outcome with loads | ⟨⟨msg, item, is⟩, ends⟩
    · refine h.loads loads fun msg fresh is => born fresh msg ?_
      rw [is]
      rfl
    · rw [ends]
      exact h.within

/-! ## A message that has left -/

/-- The id is in a dead-letter queue, or acked. -/
def Gone (home : String) : Life → Prop
  | .fresh => False
  | .pending msg => msg.Left home
  | .leased msg _ => msg.Left home
  | .inHand msg => msg.Left home
  | .dead => True

theorem Gone.putBack {name : String} (h : Gone name life) (now : Nat) :
    Gone name (life.putBack now) := by
  cases life with
  | inHand msg =>
      by_cases spent : msg.maxDelivery ≤ msg.deliveryCount
      · exact Delivered.left_dlq (Or.inr h) now spent
      · have same : Life.routed now msg = { msg with visibleAt := now } := by
          simp [Life.routed, spent]
        simp only [Life.putBack, same]
        exact h
  | fresh | pending | leased | dead => exact h

theorem Gone.loads {name : String} (h : Gone name life) (loads : life.Loads life') :
    Gone name life' := by
  cases loads with
  | same => exact h
  | load msg zero => exact h.elim

theorem Gone.leases {name : String} (h : Gone name life) {queue : String} {now timeout : Nat}
    {polled : List PolledMessage}
    (leases : Tracks.Leases env queue now timeout m polled life life') :
    Gone name life' ∧ (queue = name → ShardState.polledOf m polled = []) := by
  cases leases with
  | kept _ none => exact ⟨h, fun _ => none⟩
  | lease msg item mine _ _ =>
      refine ⟨h, fun same => ?_⟩
      have left : name.length < msg.queue.length := h
      rw [mine, same] at left
      exact absurd left (lt_irrefl _)

/-- A poll does not return a message that has left when it was put back. -/
theorem Gone.polled {expired loaded : Life} {queue : String} {visibilitySec maxMessages : Nat}
    (h : Gone (home m) (expired.putBack w.clock)) (loads : (expired.putBack w.clock).Loads loaded)
    (leases : Tracks.Leases env queue w.clock (w.engine.visibility visibilitySec) m
      (w.engine.poll env w.clock queue visibilitySec maxMessages).2 loaded life') :
    Gone (home m) life' ∧
      w.returns env (home m) m (.poll queue visibilitySec maxMessages) = [] := by
  obtain ⟨gone, none⟩ := (h.loads loads).leases leases
  refine ⟨gone, ?_⟩
  simp only [World.returns]
  split
  · rename_i same
    rw [none same]
    rfl
  · rfl

/-- Once a message has left its home queue, no operation brings it back. -/
theorem Gone.step (h : Gone (home m) (lives m)) (inside : m ∈ tracked)
    (moves : Moves tracked env w lives lives' op) :
    Gone (home m) (lives' m) ∧ w.returns env (home m) m op = [] := by
  rcases moves.cases inside with ⟨queue, visibilitySec, maxMessages, rfl⟩ | ⟨none, outcome⟩
  · obtain ⟨expired, loaded, expires, loads, leases⟩ := moves m inside
    have taken : Gone (home m) expired := by
      generalize lives m = life at expires h
      cases expires with
      | kept _ _ => exact h
      | expire msg item _ _ _ => exact h
    exact (taken.putBack w.clock).polled loads leases
  · refine ⟨?_, none _⟩
    rcases outcome with loads | ⟨_, ends⟩
    · exact h.loads loads
    · rw [ends]
      trivial

/-- A message that waits when a poll has put it back still waits after the poll,
unless it is returned. -/
theorem Tracks.Leases.waits {expired loaded : Life} {queue : String}
    {visibilitySec maxMessages : Nat} {msg : StoredMsg}
    (leases : Tracks.Leases env queue w.clock (w.engine.visibility visibilitySec) m
      (w.engine.poll env w.clock queue visibilitySec maxMessages).2 loaded life')
    (is : expired.putBack w.clock = .pending msg)
    (loads : (expired.putBack w.clock).Loads loaded)
    (none : w.returns env msg.queue m (.poll queue visibilitySec maxMessages) = []) :
    life' = .pending msg := by
  rw [is] at loads
  cases loads with
  | same =>
      cases leases with
      | kept _ _ => rfl
      | lease _ item mine _ one => simp [World.returns, mine, one] at none

/-- A message that waits in a queue stays there until a poll of the queue returns it. -/
theorem Moves.waits {msg : StoredMsg} (moves : Moves tracked env w lives lives' op)
    (is : lives m = .pending msg) (inside : m ∈ tracked)
    (none : w.returns env msg.queue m op = []) : lives' m = .pending msg := by
  rcases moves.cases inside with ⟨queue, visibilitySec, maxMessages, rfl⟩ | ⟨_, outcome⟩
  · obtain ⟨expired, loaded, expires, loads, leases⟩ := moves m inside
    rw [is] at expires
    cases expires with
    | kept _ _ => exact leases.waits rfl loads none
  · rw [is] at outcome
    rcases outcome with loads | ⟨⟨_, _, bad⟩, _⟩
    · generalize lives' m = life' at loads
      cases loads with
      | same => rfl
    · cases bad

/-! ## Bounded redelivery -/

/-- The id waits exactly once in the engine, as the message given. -/
def QueueEngine.PendingOnce (e : QueueEngine) (msg : StoredMsg) : Prop :=
  (e.shards (shardIdx msg.queue)).At msg.id (.pending msg) ∧
    ∀ s, s ≠ shardIdx msg.queue → (e.shards s).At msg.id .away

theorem Tracks.pendingOnce {e : QueueEngine} {name : String} {held : Multiset StoredMsg}
    {msg : StoredMsg} (h : Tracks e m name log held (.pending msg)) : e.PendingOnce msg := by
  have same := h.msg msg rfl
  subst same
  refine ⟨?_, fun s other => ?_⟩
  · simpa [Life.status] using h.shards (shardIdx msg.queue)
  · simpa [Life.status, other] using h.shards s

/-- The message a poll takes back was leased. -/
theorem Tracks.Expires.of_mem {now : Nat} {s : Fin numShards} {taken : List StoredMsg}
    {msg : StoredMsg} (expires : Tracks.Expires now msg.id s taken life life')
    (member : msg ∈ taken) : life' = .inHand msg ∧ ∃ item, life = .leased msg item := by
  have hit : msg ∈ ShardState.messagesOf msg.id taken := List.mem_filter.2 ⟨member, by simp⟩
  cases expires with
  | kept _ none =>
      rw [none] at hit
      cases hit
  | expire other item _ _ one =>
      rw [one, List.mem_singleton] at hit
      subst hit
      exact ⟨rfl, item, rfl⟩

/-- Along a run the counts of every id are in order. -/
theorem World.run_delivered {opts : QueueOptions} {clock : Nat} {ops : List Op}
    (small : opts.maxDeliveryCount < 2 ^ 32)
    (ordinary : Trace.Along (World.step env) (Ordinary home env) (World.fresh env opts clock) ops)
    (few : ((World.fresh env opts clock).run env ops).engine.names.length < 65536) :
    ∃ rs log lives, Sound Set.univ home ((World.fresh env opts clock).run env ops).engine
        rs log lives ∧
      ∀ m, Delivered opts.maxDeliveryCount (home m)
        (World.deliveries env (home m) m (World.fresh env opts clock) ops) (lives m) := by
  refine (Sound.fresh env Set.univ home opts clock).run
    (I := fun ops lives => ∀ m, Delivered opts.maxDeliveryCount (home m)
      (World.deliveries env (home m) m (World.fresh env opts clock) ops) (lives m))
    (fun m => rfl) ?_ (ordinary.imp fun _ _ h => h.all Set.univ) few.le
  intro ops op rs log lives rs' log' lives' holds before after ordinary moves m
  have options : ((World.fresh env opts clock).run env ops).engine.options = opts :=
    World.options_run env _ ops
  rw [World.run_concat] at after
  rw [World.deliveries_concat]
  exact (holds m).step small (by rw [options]) before after trivial ordinary moves

/-- A message that left for its dead-letter queue is never back in its home queue, and
waits there as it was put until a poll of the dead-letter queue returns it. -/
theorem Sound.run_left {later : List Op} (h : Sound tracked home w.engine rs log lives)
    (inside : m ∈ tracked) (gone : Gone (home m) (lives m)) (msg : StoredMsg)
    (ordinary : Trace.Along (World.step env) (OrdinaryFor tracked home env) w later)
    (few : (w.run env later).engine.names.length ≤ 65536) :
    ∃ rs log lives', Sound tracked home (w.run env later).engine rs log lives' ∧
      (Gone (home m) (lives' m) ∧ World.deliveries env (home m) m w later = []) ∧
      (lives m = .pending msg → World.deliveries env msg.queue m w later = [] →
        lives' m = .pending msg) := by
  refine h.run (I := fun later lives' =>
      (Gone (home m) (lives' m) ∧ World.deliveries env (home m) m w later = []) ∧
      (lives m = .pending msg → World.deliveries env msg.queue m w later = [] →
        lives' m = .pending msg)) ⟨⟨gone, rfl⟩, fun is _ => is⟩ ?_ ordinary few
  intro later op _ _ lives _ _ lives' holds _ _ _ moves
  obtain ⟨⟨gone, none⟩, waits⟩ := holds
  obtain ⟨gone', none'⟩ := gone.step inside moves
  refine ⟨⟨gone', ?_⟩, fun is unpolled => ?_⟩
  · rw [World.deliveries_concat, none, none']
    rfl
  · rw [World.deliveries_concat, List.append_eq_nil_iff] at unpolled
    exact moves.waits (waits is unpolled.1) inside unpolled.2

/-- A message of an id that has left is not in its home queue. -/
theorem Gone.not_home {e : QueueEngine} {name : String} (tracks : Tracks e m name log 0 life)
    (gone : Gone name life) (s : Fin numShards) {msg : StoredMsg}
    (found : AList.lookup m (e.shards s).messages = some msg) : msg.queue ≠ name := by
  have here := (tracks.shards s).msg
  rw [found] at here
  cases status : life.status s with
  | away =>
      rw [status] at here
      cases here
  | pending msg' =>
      obtain ⟨rfl, -⟩ := Life.eq_pending_of_status status
      rw [status] at here
      cases here
      have left : name.length < msg.queue.length := gone
      exact fun same => absurd left (by rw [same]; exact lt_irrefl _)
  | leased msg' item =>
      obtain ⟨rfl, -⟩ := Life.eq_leased_of_status status
      rw [status] at here
      cases here
      have left : name.length < msg.queue.length := gone
      exact fun same => absurd left (by rw [same]; exact lt_irrefl _)

/-- An expired message waits exactly once when the poll has put it back. -/
theorem Sound.pendingOnce_routed {e : QueueEngine} (h : Sound tracked home e rs log lives)
    {s : Fin numShards} {now : Nat} {msg : StoredMsg} (inside : msg.id ∈ tracked)
    (member : msg ∈ (e.collectExpired s now).2) :
    (e.routed s now).PendingOnce (Life.routed now msg) ∧
      ∃ item, lives msg.id = .leased msg item := by
  obtain ⟨expired, expires, routed⟩ := h.route s now
  obtain ⟨inHand, leased⟩ := (expires msg.id inside).of_mem member
  refine ⟨?_, leased⟩
  have tracks := routed.tracks msg.id inside
  rw [inHand] at tracks
  exact Tracks.pendingOnce tracks

/-- A poll that sends a message to the dead-letter queue, and all that follows. -/
theorem Sound.poll_left (h : Sound tracked home w.engine rs log lives) {queue : String}
    {visibilitySec maxMessages : Nat} {msg : StoredMsg} (inside : msg.id ∈ tracked)
    (member : msg ∈ (w.engine.collectExpired (shardIdx queue) w.clock).2)
    (atHome : msg.queue = home msg.id) (spent : msg.maxDelivery ≤ msg.deliveryCount)
    {later : List Op} (ordinary : Trace.Along (World.step env) (OrdinaryFor tracked home env) w
      (.poll queue visibilitySec maxMessages :: later))
    (few : (w.run env (.poll queue visibilitySec maxMessages :: later)).engine.names.length ≤
      65536) :
    let rest := Op.poll queue visibilitySec maxMessages :: later
    let dead := Life.routed w.clock msg
    World.deliveries env (home msg.id) msg.id w rest = [] ∧
    (∀ s found, AList.lookup msg.id ((w.run env rest).engine.shards s).messages = some found →
      found.queue ≠ home msg.id) ∧
    (World.deliveries env dead.queue msg.id w rest = [] →
      (w.run env rest).engine.PendingOnce dead) := by
  obtain ⟨lives', sound, moves⟩ := h.poll env w.clock queue visibilitySec maxMessages
  obtain ⟨expired, loaded, expires, loads, leases⟩ := moves msg.id inside
  obtain ⟨inHand, _⟩ := expires.of_mem member
  have waits : expired.putBack w.clock = .pending (Life.routed w.clock msg) := by
    rw [inHand]
    rfl
  have left : Gone (home msg.id) (expired.putBack w.clock) := by
    rw [waits]
    exact Delivered.left_dlq (Or.inl atHome) w.clock spent
  obtain ⟨gone, none⟩ := left.polled loads leases
  obtain ⟨_, _, last, after, ⟨goneAfter, noneAfter⟩, stays⟩ :=
    Sound.run_left (w := w.step env (.poll queue visibilitySec maxMessages)) sound inside gone
      (Life.routed w.clock msg) ordinary.2 few
  refine ⟨?_, fun s found is => goneAfter.not_home (after.tracks _ inside) s is, ?_⟩
  · simp only [World.deliveries, none, noneAfter, List.append_nil]
  · intro unpolled
    simp only [World.deliveries, List.append_eq_nil_iff] at unpolled
    have final := stays (leases.waits waits loads unpolled.1) unpolled.2
    have tracks := after.tracks msg.id inside
    rw [final] at tracks
    exact Tracks.pendingOnce tracks

/-- In every ordinary run the polls of its home queue return a message with the counts
`1, 2, …`, at most `max(1, max_delivery_count)` times.  A message whose lease a poll
finds expired waits exactly once when the poll has put it back: in its queue while the
count is below the limit, and otherwise in the dead-letter queue, with its id and
payload.  Then it is never again returned from its queue nor in memory there, and it
waits in the dead-letter queue until a poll of that queue returns it. -/
theorem World.run_redelivery {opts : QueueOptions} {clock : Nat} {ops : List Op}
    (small : opts.maxDeliveryCount < 2 ^ 32)
    (ordinary : Trace.Along (World.step env) (Ordinary home env) (World.fresh env opts clock) ops)
    (few : ((World.fresh env opts clock).run env ops).engine.names.length < 65536) :
    (∀ m, Within opts.maxDeliveryCount
      (World.deliveries env (home m) m (World.fresh env opts clock) ops)) ∧
    ∀ before queue visibilitySec maxMessages later,
      ops = before ++ Op.poll queue visibilitySec maxMessages :: later →
      let w := (World.fresh env opts clock).run env before
      let rest := Op.poll queue visibilitySec maxMessages :: later
      let back := w.engine.routed (shardIdx queue) w.clock
      let last := ((World.fresh env opts clock).run env ops).engine
      ∀ msg ∈ (w.engine.collectExpired (shardIdx queue) w.clock).2, msg.queue = home msg.id →
        (msg.deliveryCount < opts.maxDeliveryCount →
          back.PendingOnce { msg with visibleAt := w.clock }) ∧
        (opts.maxDeliveryCount ≤ msg.deliveryCount →
          let dead := { msg with queue := dlqName msg.queue, visibleAt := w.clock }
          back.PendingOnce dead ∧
          World.deliveries env msg.queue msg.id w rest = [] ∧
          (∀ s found, AList.lookup msg.id (last.shards s).messages = some found →
            found.queue ≠ msg.queue) ∧
          (World.deliveries env dead.queue msg.id w rest = [] → last.PendingOnce dead)) := by
  refine ⟨fun m => ?_, fun before queue visibilitySec maxMessages later split => ?_⟩
  · obtain ⟨_, _, _, _, delivered⟩ := World.run_delivered small ordinary few
    exact (delivered m).within
  · intro w rest back last msg member atHome
    subst split
    obtain ⟨first, second⟩ := Trace.along_append.1 ordinary
    have whole : (World.fresh env opts clock).run env (before ++ rest) = w.run env rest :=
      List.foldl_append
    have names : (w.run env rest).engine.names.length < 65536 := by
      rw [← whole]
      exact few
    obtain ⟨_, _, lives, sound, delivered⟩ := World.run_delivered small first
      ((World.names_run env w rest).length_le.trans_lt names)
    obtain ⟨pending, item, leased⟩ := sound.pendingOnce_routed trivial member
    have limit : msg.maxDelivery = opts.maxDeliveryCount := by
      have here := delivered msg.id
      rw [leased] at here
      exact here.1
    refine ⟨fun below => ?_, fun spent => ?_⟩
    · have again : Life.routed w.clock msg = { msg with visibleAt := w.clock } := by
        rw [Life.routed, if_neg (by omega)]
      rw [again] at pending
      exact pending
    · have toDlq : Life.routed w.clock msg =
          { msg with queue := dlqName msg.queue, visibleAt := w.clock } := by
        rw [Life.routed, if_pos (by omega)]
      have left := sound.poll_left trivial member atHome (by omega)
        (second.imp fun _ _ h => h.all Set.univ) names.le
      rw [toDlq, ← atHome] at left
      rw [toDlq] at pending
      refine ⟨pending, ?_⟩
      show _ ∧ (∀ s found, AList.lookup msg.id
        (((World.fresh env opts clock).run env (before ++ rest)).engine.shards s).messages = _ → _) ∧
        (_ → ((World.fresh env opts clock).run env (before ++ rest)).engine.PendingOnce _)
      rw [whole]
      exact left

/-- One delivery, then the dead-letter queue. -/
def oneDelivery : QueueOptions where
  defaultVisibilityTimeoutSec := 300
  maxDeliveryCount := 1
  maxHotMessagesInRam := 1000
  maxWalSegmentSize := 64 * 1024 * 1024

/-- A lease of the only message of `jobs` runs out. -/
def expiringOps : List Op := [.push "jobs" 1 [7] 0, .poll "jobs" 30 1, .advance 31]

theorem World.run_redelivery_sample :
    let w := (World.fresh .sample oneDelivery 1600000000).run .sample expiringOps
    let rest := [Op.poll "jobs" 30 1, .push "jobs" 1 [8] 0, .advance 40, .poll "jobs" 30 1]
    Trace.Along (World.step .sample) (Ordinary (fun _ => "jobs") .sample)
        (World.fresh .sample oneDelivery 1600000000) (expiringOps ++ rest) ∧
      ((World.fresh .sample oneDelivery 1600000000).run .sample
        (expiringOps ++ rest)).engine.PendingOnce ⟨1, dlqName "jobs", [7], w.clock, 1, 1⟩ := by
  intro w rest
  have ordinary : Trace.Along (World.step .sample) (Ordinary (fun _ => "jobs") .sample)
      (World.fresh .sample oneDelivery 1600000000) (expiringOps ++ rest) := by decide +kernel
  refine ⟨ordinary, ?_⟩
  have left := (World.run_redelivery (by decide) ordinary (by decide +kernel)).2 expiringOps "jobs"
    30 1 _ rfl ⟨1, "jobs", [7], 1600000000, 1, 1⟩ (by decide +kernel) rfl
  exact (left.2 (by decide)).2.2.2 (by decide +kernel)

/-- A message of the dead-letter queue whose lease expires there moves on, to the
dead-letter queue of the dead-letter queue. -/
theorem World.redelivery_leaves_dlq :
    let w := (World.fresh .sample oneDelivery 1600000000).run .sample
      (expiringOps ++ [.poll "jobs" 30 1])
    let w' := w.run .sample [.poll "jobs.dlq" 30 1, .advance 31, .poll "jobs.dlq" 30 1]
    AList.lookup 1 (w.engine.shards (shardIdx "jobs.dlq")).messages =
        some ⟨1, "jobs.dlq", [7], 1600000031, 1, 1⟩ ∧
      AList.lookup 1 (w'.engine.shards (shardIdx "jobs.dlq")).messages = none ∧
      AList.lookup 1 (w'.engine.shards (shardIdx "jobs.dlq.dlq")).messages =
        some ⟨1, "jobs.dlq.dlq", [7], 1600000062, 2, 1⟩ := by
  decide +kernel

end WalrQueue
