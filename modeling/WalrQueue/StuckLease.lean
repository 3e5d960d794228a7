import WalrQueue.Interleaving
import WalrQueue.LeaseExpiry

/-!
# Leases under concurrent polls

A sweep starts after the second checked last.  A poll that claims with an older clock
can insert a lease behind that second, where no sweep looks until the wheel has gone
round.  As long as every claim is ahead of the second checked last, the first sweep
that finds a lease due returns it.
-/

namespace WalrQueue

open QueueEngine

/-! ## The shape of a wheel -/

namespace TimerWheel

variable {w : TimerWheel} {item : InFlightItem}

/-- All items are in the `size` slots. -/
structure Shaped (w : TimerWheel) : Prop where
  sized : 0 < w.size
  outside : ∀ k, w.size ≤ k → w.slots k = []

/-- The wheel holds nothing of the id. -/
def Vacant (w : TimerWheel) (id : Ulid) : Prop :=
  AList.lookup id w.indexById = none ∧ ∀ k < w.size, ∀ item ∈ w.slots k, item.id ≠ id

instance (w : TimerWheel) (id : Ulid) : Decidable (w.Vacant id) :=
  decidable_of_iff (AList.lookup id w.indexById = none ∧
    (List.range w.size).all (fun k => (w.slots k).all fun item => item.id ≠ id) = true)
    (by simp [Vacant])

theorem Shaped.unleased (h : Shaped w) {id : Ulid} (vacant : w.Vacant id) : Unleased w id where
  index := vacant.1
  slots k := by
    refine List.filter_eq_nil_iff.2 fun item inSlot => ?_
    by_cases inside : k < w.size
    · simpa using vacant.2 k inside item inSlot
    · rw [h.outside k (Nat.le_of_not_lt inside)] at inSlot
      cases inSlot

theorem Shaped.new (capacity : Nat) : Shaped (.new capacity) where
  sized := lt_of_lt_of_le (by norm_num) (Nat.le_max_right capacity 60)
  outside _ _ := rfl

theorem Shaped.insert (h : Shaped w) (item : InFlightItem) : Shaped (w.insert item) where
  sized := h.sized
  outside k far := by
    have inside := Nat.mod_lt item.expireAt h.sized
    have other : k ≠ item.expireAt % w.size := by
      have far : w.size ≤ k := far
      omega
    simp only [TimerWheel.insert]
    rw [Function.update_of_ne other]
    exact h.outside k far

theorem Shaped.insert_foldl (h : Shaped w) (items : List InFlightItem) :
    Shaped (items.foldl TimerWheel.insert w) := by
  induction items generalizing w with
  | nil => exact h
  | cons item items ih => exact ih (h.insert item)

theorem Shaped.removeIfValid (h : Shaped w) (id : Ulid) (receipt : String) :
    Shaped (w.removeIfValid id receipt).1 where
  sized := by rw [size_removeIfValid]; exact h.sized
  outside k far := by
    rw [size_removeIfValid] at far
    have empty := h.outside k far
    unfold TimerWheel.removeIfValid
    split
    · split
      · dsimp only
        split
        · rename_i slot _ _ _ inside
          by_cases here : k = slot
          · subst here
            rw [empty] at inside
            cases inside
          · rwa [Function.update_of_ne here]
        · exact empty
      · exact empty
    · exact empty

theorem Shaped.removeIfValid_foldl (h : Shaped w) (items : List (Ulid × String)) :
    Shaped (items.foldl (fun w item => (w.removeIfValid item.1 item.2).1) w) := by
  induction items generalizing w with
  | nil => exact h
  | cons item items ih => exact ih (h.removeIfValid item.1 item.2)

theorem Shaped.collectExpired (h : Shaped w) (now : Nat) : Shaped (w.collectExpired now).1 where
  sized := by rw [size_collectExpired]; exact h.sized
  outside k far := by
    rw [size_collectExpired] at far
    have sweep : ∀ (ks : List Nat) (acc : TimerWheel × List InFlightItem), acc.1.slots k = [] →
        (ks.foldl (sweepSlot now) acc).1.slots k = [] := by
      intro ks
      induction ks with
      | nil => exact fun _ empty => empty
      | cons j ks ih =>
          intro acc empty
          refine ih _ ?_
          simp only [sweepSlot]
          by_cases here : k = j
          · subst here
            rw [Function.update_self, empty]
            rfl
          · rwa [Function.update_of_ne here]
    unfold TimerWheel.collectExpired
    split
    · exact h.outside k far
    · exact sweep _ (w, []) (h.outside k far)

/-- The lease is in the wheel, ahead of the second checked last. -/
structure Due (w : TimerWheel) (item : InFlightItem) : Prop where
  leased : Leased w item.id item
  sized : 0 < w.size
  started : 0 < w.lastCheckedSec
  ahead : w.lastCheckedSec < item.expireAt

theorem lastCheckedSec_insert_foldl (items : List InFlightItem) (w : TimerWheel) :
    (items.foldl TimerWheel.insert w).lastCheckedSec = w.lastCheckedSec ∧
      (items.foldl TimerWheel.insert w).size = w.size := by
  induction items generalizing w with
  | nil => exact ⟨rfl, rfl⟩
  | cons item items ih => exact ih (w.insert item)

theorem insert_foldl_sameLease {m : Ulid} {items : List InFlightItem}
    (others : ∀ item ∈ items, item.id ≠ m) : SameLease m w (items.foldl TimerWheel.insert w) := by
  induction items generalizing w with
  | nil => exact .refl
  | cons item items ih =>
      exact (insert_sameLease (others item List.mem_cons_self)).trans
        (ih fun other member => others other (List.mem_cons_of_mem item member))

/-- Leases of distinct ids without a lease. -/
theorem leased_insert_foldl {items : List InFlightItem} (distinct : (items.map (·.id)).Nodup)
    (unleased : ∀ item ∈ items, Unleased w item.id) (member : item ∈ items) :
    Leased (items.foldl TimerWheel.insert w) item.id item := by
  induction items generalizing w with
  | nil => cases member
  | cons head items ih =>
      rw [List.map_cons, List.nodup_cons] at distinct
      have apart : ∀ other ∈ items, other.id ≠ head.id := fun other member same =>
        distinct.1 (List.mem_map.2 ⟨other, member, same⟩)
      rcases List.mem_cons.1 member with rfl | member
      · exact (insert_foldl_sameLease apart).leased (unleased item List.mem_cons_self).insert
      · refine ih distinct.2 (fun other inside => ?_) member
        exact (insert_sameLease (apart other inside).symm).unleased
          (unleased other (List.mem_cons_of_mem head inside))

theorem Due.insert_foldl (h : Due w item) {items : List InFlightItem}
    (vacant : ∀ new ∈ items, w.Vacant new.id) : Due (items.foldl TimerWheel.insert w) item := by
  obtain ⟨last, size⟩ := lastCheckedSec_insert_foldl items w
  have others : ∀ new ∈ items, new.id ≠ item.id := by
    intro new member same
    have none := (vacant new member).1
    rw [same, h.leased.index] at none
    cases none
  refine ⟨(insert_foldl_sameLease others).leased h.leased, ?_, ?_, ?_⟩
  · rw [size]
    exact h.sized
  · rw [last]
    exact h.started
  · rw [last]
    exact h.ahead

/-- Only an ack with its receipt ends a lease. -/
theorem Due.removeIfValid (h : Due w item) {id : Ulid} {receipt : String}
    (other : ¬ (id = item.id ∧ receipt = item.receipt)) :
    Due (w.removeIfValid id receipt).1 item := by
  by_cases same : id = item.id
  · subst same
    rw [h.leased.removeIfValid_of_ne fun valid => other ⟨rfl, valid.symm⟩]
    exact h
  · refine ⟨(removeIfValid_sameLease receipt same).leased h.leased, ?_, ?_, ?_⟩
    · rw [size_removeIfValid]
      exact h.sized
    · rw [lastCheckedSec_removeIfValid]
      exact h.started
    · rw [lastCheckedSec_removeIfValid]
      exact h.ahead

theorem Due.collectExpired (h : Due w item) {now : Nat} (started : 0 < now)
    (early : now < item.expireAt) : Due (w.collectExpired now).1 item := by
  refine ⟨?_, ?_, ?_, ?_⟩
  · cases h.leased.collectExpired now with
    | kept leased _ => exact leased
    | collected due _ _ => exact absurd due (Nat.not_le_of_lt early)
  · rw [size_collectExpired]
    exact h.sized
  · rwa [lastCheckedSec_collectExpired]
  · rwa [lastCheckedSec_collectExpired]

/-- The first sweep that finds the lease due returns it. -/
theorem Due.returned (h : Due w item) {now : Nat} (due : item.expireAt ≤ now) :
    item ∈ (w.collectExpired now).2 := by
  have inSlot : item ∈ w.slots (item.expireAt % w.size) := by
    have mine : item ∈ itemsOf item.id (w.slots (item.expireAt % w.size)) := by
      rw [h.leased.slot]
      exact List.mem_singleton_self item
    exact (List.mem_filter.1 mine).1
  exact (collectExpired_due h.sized h.leased.index inSlot h.started h.ahead due).1

end TimerWheel

/-! ## What a section does to the wheels -/

/-- Whether the next section of a poll is its claim. -/
def PollCall.claims (e : QueueEngine) (c : PollCall) : Bool :=
  match c.stage with
  | .claiming => true
  | .routing [] => !e.needsPageIn c.queue (prefetchThreshold c.maxMessages)
  | _ => false

/-- The leases the next section of a poll inserts. -/
def PollCall.leases (env : Env) (e : QueueEngine) (c : PollCall) : List InFlightItem :=
  if c.claims e then
    (e.claimSection env c.queue c.now (e.visibility c.visibilitySec) c.maxMessages).2.map
      (PolledMessage.lease c.queue (addU64 c.now (e.visibility c.visibilitySec)))
  else []

theorem PollCall.wheels_resume (env : Env) (e : QueueEngine) (c : PollCall) :
    (c.resume env e).1.wheels =
      if c.stage = .entered then
        Function.update e.wheels (shardIdx c.queue)
          ((e.wheels (shardIdx c.queue)).collectExpired c.now).1
      else Function.update e.wheels (shardIdx c.queue)
        ((c.leases env e).foldl TimerWheel.insert (e.wheels (shardIdx c.queue))) := by
  have still : c.claims e = false → e.wheels = Function.update e.wheels (shardIdx c.queue)
      ((c.leases env e).foldl TimerWheel.insert (e.wheels (shardIdx c.queue))) := by
    intro none
    rw [PollCall.leases, none]
    exact (Function.update_eq_self _ _).symm
  have claim : c.claims e = true → (c.claim env e).1.wheels =
      Function.update e.wheels (shardIdx c.queue)
        ((c.leases env e).foldl TimerWheel.insert (e.wheels (shardIdx c.queue))) := by
    intro claims
    rw [PollCall.leases, if_pos claims]
    exact wheels_claimSection env e c.queue c.now (e.visibility c.visibilitySec) c.maxMessages
  cases stage : c.stage with
  | entered =>
      rw [if_pos rfl]
      simp only [PollCall.resume, stage]
      exact wheels_setShard e (shardIdx c.queue) _
  | routing taken =>
      rw [if_neg (by simp)]
      cases taken with
      | nil =>
          simp only [PollCall.resume, stage]
          split
          · rename_i short
            exact still (by simp [PollCall.claims, stage, short])
          · rename_i long
            exact claim (by simpa [PollCall.claims, stage] using long)
      | cons msg taken =>
          refine Eq.trans ?_ (still (by simp [PollCall.claims, stage]))
          simp only [PollCall.resume, stage]
          split
          · exact wheels_setShard_of_eq (by simp)
          · exact wheels_setShard_of_eq (by rfl)
  | retired msg taken =>
      rw [if_neg (by simp)]
      refine Eq.trans ?_ (still (by simp [PollCall.claims, stage]))
      simp only [PollCall.resume, stage]
      exact wheels_setShard_of_eq (by rfl)
  | reading flushed =>
      rw [if_neg (by simp)]
      refine Eq.trans ?_ (still (by simp [PollCall.claims, stage]))
      simp only [PollCall.resume, stage]
      split
      · split <;> rfl
      · split
        · split <;> rfl
        · rfl
  | paging records left added targetAdded flushed =>
      rw [if_neg (by simp)]
      refine Eq.trans ?_ (still (by simp [PollCall.claims, stage]))
      cases left with
      | nil =>
          simp only [PollCall.resume, stage]
          split <;> rfl
      | cons s left =>
          simp only [PollCall.resume, stage]
          exact wheels_pageInShard c.now c.queue records ⟨e, added, targetAdded⟩ s
  | claiming =>
      rw [if_neg (by simp)]
      simp only [PollCall.resume, stage]
      exact claim (by simp [PollCall.claims, stage])
  | returned polled =>
      rw [if_neg (by simp)]
      refine Eq.trans ?_ (still (by simp [PollCall.claims, stage]))
      simp only [PollCall.resume, stage]

/-- The lease an ack asks to end in its next section. -/
def AckCall.ends (env : Env) (c : AckCall) : Option (Ulid × String) :=
  if c.stage = .entered then
    (parseIdFast env c.messageId).map fun id => (id, c.receipt)
  else none

theorem AckCall.wheels_resume (env : Env) (e : QueueEngine) (c : AckCall) :
    (c.resume env e).1.wheels = e.wheels ∨
      ∃ id, c.ends env = some (id, c.receipt) ∧
        (c.resume env e).1.wheels = Function.update e.wheels (shardIdx c.queue)
          ((e.wheels (shardIdx c.queue)).removeIfValid id c.receipt).1 := by
  cases stage : c.stage with
  | entered =>
      cases parsed : parseIdFast env c.messageId with
      | none =>
          refine Or.inl ?_
          simp only [AckCall.resume, stage, parsed]
      | some id =>
          cases outcome : (e.shards (shardIdx c.queue)).ackLease c.queue id c.receipt with
          | none =>
              refine Or.inl ?_
              simp only [AckCall.resume, stage, parsed, AckCall.locked, outcome]
          | some done =>
              refine Or.inr ⟨id, by simp [AckCall.ends, stage, parsed], ?_⟩
              simp only [AckCall.resume, stage, parsed, AckCall.locked, outcome]
              refine Eq.trans (wheels_congr (by rfl))
                ((wheels_setShard e (shardIdx c.queue) done.1).trans ?_)
              exact congrArg _ (wheels_ackLease outcome)
  | acked id =>
      refine Or.inl ?_
      simp only [AckCall.resume, stage]
      exact wheels_congr rfl
  | logged =>
      refine Or.inl ?_
      simp only [AckCall.resume, stage]
      exact wheels_checkAndTriggerCompaction env e
  | returned success =>
      refine Or.inl ?_
      simp only [AckCall.resume, stage]

/-! ## Servers -/

namespace Server

variable {env : Env} {v : Server} {a : Action} {item : InFlightItem}

/-- The call an action resumes. -/
def resumed (v : Server) : Action → Option Call
  | .resume i => v.calls[i]?
  | _ => none

/-- The leases an action inserts. -/
def leases (env : Env) (v : Server) (a : Action) : List InFlightItem :=
  match v.resumed a with
  | some (.poll c) => c.leases env v.engine
  | _ => []

/-- The shard and the time of the expiry collection an action runs. -/
def sweep (v : Server) (a : Action) : Option (Fin numShards × Nat) :=
  match v.resumed a with
  | some (.poll c) => if c.stage = .entered then some (shardIdx c.queue, c.now) else none
  | _ => none

/-- The leases an expiry collection returns. -/
def collected (v : Server) (a : Action) : List InFlightItem :=
  match v.sweep a with
  | some (s, now) => ((v.engine.wheels s).collectExpired now).2
  | none => []

/-- The action is the locked section of an ack with the receipt of the lease. -/
def Acks (env : Env) (v : Server) (a : Action) (item : InFlightItem) : Prop :=
  match v.resumed a with
  | some (.ack c) => c.ends env = some (item.id, item.receipt)
  | _ => False

/-- Every lease the action inserts is ahead of the second its wheel checked last, and
is the only one of its id there. -/
def LeasesAhead (env : Env) (v : Server) (a : Action) : Prop :=
  ((v.leases env a).map (·.id)).Nodup ∧
    ∀ item ∈ v.leases env a,
      (v.engine.wheels (shardIdx item.queue)).lastCheckedSec < item.expireAt ∧
      (v.engine.wheels (shardIdx item.queue)).Vacant item.id

instance (env : Env) (v : Server) (a : Action) : Decidable (LeasesAhead env v a) :=
  inferInstanceAs (Decidable (_ ∧ _))

/-- What an action can do to the wheel of a shard: nothing, a sweep, the insertion of
leases, or the end of one. -/
inductive Turn (env : Env) (v : Server) (a : Action) (s : Fin numShards) (wheel : TimerWheel) : Prop
  | still : (∀ now, v.sweep a ≠ some (s, now)) → wheel = v.engine.wheels s → Turn env v a s wheel
  | swept (now : Nat) : v.sweep a = some (s, now) →
      wheel = ((v.engine.wheels s).collectExpired now).1 → Turn env v a s wheel
  | leased : v.sweep a = none → (∀ item ∈ v.leases env a, shardIdx item.queue = s) →
      wheel = (v.leases env a).foldl TimerWheel.insert (v.engine.wheels s) → Turn env v a s wheel
  | acked (c : AckCall) (id : Ulid) : v.sweep a = none → v.resumed a = some (.ack c) →
      c.ends env = some (id, c.receipt) → shardIdx c.queue = s →
      wheel = ((v.engine.wheels s).removeIfValid id c.receipt).1 → Turn env v a s wheel

theorem queue_of_mem_leases {c : PollCall} {e : QueueEngine} (member : item ∈ c.leases env e) :
    item.queue = c.queue := by
  unfold PollCall.leases at member
  split at member
  · obtain ⟨p, _, rfl⟩ := List.mem_map.1 member
    rfl
  · cases member

theorem step_turn (env : Env) (v : Server) (a : Action) (s : Fin numShards) :
    Turn env v a s ((v.step env a).engine.wheels s) := by
  cases a with
  | tick | poll | ack => exact .still (fun _ bad => by cases bad) rfl
  | resume i =>
      cases found : v.calls[i]? with
      | none =>
          refine .still (fun _ bad => ?_) (by simp only [Server.step, found])
          simp [sweep, resumed, found] at bad
      | some call =>
          have engine : (v.step env (.resume i)).engine = (call.resume env v.engine).1 := by
            simp only [Server.step, found]
          rw [engine]
          cases call with
          | poll c =>
              have turned := c.wheels_resume env v.engine
              have leases : v.leases env (.resume i) = c.leases env v.engine := by
                simp only [Server.leases, resumed, found]
              have sweeps : v.sweep (.resume i) =
                  if c.stage = .entered then some (shardIdx c.queue, c.now) else none := by
                simp only [sweep, resumed, found]
              rw [show (Call.resume env v.engine (.poll c)).1 = (c.resume env v.engine).1 from rfl,
                turned]
              by_cases entered : c.stage = .entered
              · rw [if_pos entered] at sweeps ⊢
                by_cases here : s = shardIdx c.queue
                · subst here
                  exact .swept c.now sweeps (Function.update_self ..)
                · refine .still (fun now bad => ?_) (Function.update_of_ne here ..)
                  rw [sweeps] at bad
                  cases bad
                  exact here rfl
              · rw [if_neg entered] at sweeps ⊢
                by_cases here : s = shardIdx c.queue
                · subst here
                  refine .leased sweeps (fun item member => ?_) ?_
                  · rw [leases] at member
                    rw [queue_of_mem_leases member]
                  · rw [leases]
                    exact Function.update_self ..
                · refine .still (fun now bad => ?_) (Function.update_of_ne here ..)
                  rw [sweeps] at bad
                  cases bad
          | ack c =>
              have sweeps : v.sweep (.resume i) = none := by simp only [sweep, resumed, found]
              have still : ∀ now, v.sweep (.resume i) ≠ some (s, now) := by
                intro now bad
                rw [sweeps] at bad
                cases bad
              rw [show (Call.resume env v.engine (.ack c)).1 = (c.resume env v.engine).1 from rfl]
              rcases c.wheels_resume env v.engine with same | ⟨id, ends, turned⟩
              · exact .still still (congrFun same s)
              · rw [turned]
                by_cases here : shardIdx c.queue = s
                · subst here
                  refine .acked c id sweeps ?_ ends rfl (Function.update_self ..)
                  simp only [resumed, found]
                · exact .still still (Function.update_of_ne (Ne.symm here) ..)

/-- The invariant of the clocks: every call reads a positive time, and the wheels of the
shards it has swept have been checked at one. -/
structure Clocked (v : Server) : Prop where
  clock : 0 < v.clock
  shaped : ∀ s, (v.engine.wheels s).Shaped
  calls : ∀ c, Call.poll c ∈ v.calls → 0 < c.now ∧
    (c.stage ≠ .entered → 0 < (v.engine.wheels (shardIdx c.queue)).lastCheckedSec)

/-- A lease in the wheel of its shard, ahead of the second checked last. -/
def Due (v : Server) (item : InFlightItem) : Prop :=
  (v.engine.wheels (shardIdx item.queue)).Due item

theorem Clocked.sweep_pos (h : Clocked v) {s : Fin numShards} {now : Nat}
    (sweeps : v.sweep a = some (s, now)) : 0 < now := by
  cases a with
  | resume i =>
      simp only [sweep, resumed] at sweeps
      cases found : v.calls[i]? with
      | none => simp [found] at sweeps
      | some call =>
          cases call with
          | ack c => simp [found] at sweeps
          | poll c =>
              simp only [found] at sweeps
              split at sweeps
              · cases sweeps
                exact (h.calls c (List.mem_of_getElem? found)).1
              · cases sweeps
  | tick | poll | ack => cases sweeps

theorem Clocked.shaped_step (h : Clocked v) (s : Fin numShards) :
    ((v.step env a).engine.wheels s).Shaped := by
  cases step_turn env v a s with
  | still _ wheel =>
      rw [wheel]
      exact h.shaped s
  | swept now _ wheel =>
      rw [wheel]
      exact (h.shaped s).collectExpired now
  | leased _ _ wheel =>
      rw [wheel]
      exact (h.shaped s).insert_foldl _
  | acked c id _ _ _ _ wheel =>
      rw [wheel]
      exact (h.shaped s).removeIfValid id c.receipt

/-- A wheel that was checked stays so, and a sweep checks it. -/
theorem Clocked.checked_step (h : Clocked v) {s : Fin numShards}
    (checked : 0 < (v.engine.wheels s).lastCheckedSec ∨ ∃ now, v.sweep a = some (s, now)) :
    0 < ((v.step env a).engine.wheels s).lastCheckedSec := by
  cases step_turn env v a s with
  | still unswept wheel =>
      rw [wheel]
      exact checked.resolve_right fun ⟨now, sweeps⟩ => unswept now sweeps
  | swept now sweeps wheel =>
      rw [wheel, TimerWheel.lastCheckedSec_collectExpired]
      exact h.sweep_pos sweeps
  | leased unswept _ wheel =>
      rw [wheel, (TimerWheel.lastCheckedSec_insert_foldl _ _).1]
      refine checked.resolve_right fun ⟨now, sweeps⟩ => ?_
      rw [unswept] at sweeps
      cases sweeps
  | acked c id unswept _ _ _ wheel =>
      rw [wheel, TimerWheel.lastCheckedSec_removeIfValid]
      refine checked.resolve_right fun ⟨now, sweeps⟩ => ?_
      rw [unswept] at sweeps
      cases sweeps

theorem Clocked.step (h : Clocked v) (env : Env) (a : Action) : Clocked (v.step env a) where
  clock := by
    cases a with
    | tick seconds => exact h.clock.trans_le (Nat.le_add_right _ _)
    | poll | ack => exact h.clock
    | resume i =>
        simp only [Server.step]
        split
        · exact h.clock
        · exact h.clock
  shaped := h.shaped_step
  calls := by
    intro c member
    cases a with
    | tick seconds => exact h.calls c member
    | poll queue visibilitySec maxMessages =>
        rcases List.mem_append.1 member with old | new
        · exact h.calls c old
        · cases List.mem_singleton.1 new
          exact ⟨h.clock, fun bad => absurd rfl bad⟩
    | ack queue messageId receipt =>
        rcases List.mem_append.1 member with old | new
        · exact h.calls c old
        · cases List.mem_singleton.1 new
    | resume i =>
        cases found : v.calls[i]? with
        | none =>
            have same : v.step env (.resume i) = v := by simp only [Server.step, found]
            rw [same] at member ⊢
            exact h.calls c member
        | some call =>
            have calls : (v.step env (.resume i)).calls =
                v.calls.set i (call.resume env v.engine).2 := by
              simp only [Server.step, found]
            rw [calls] at member
            rcases List.mem_or_eq_of_mem_set member with old | new
            · obtain ⟨positive, swept⟩ := h.calls c old
              exact ⟨positive, fun past => h.checked_step (Or.inl (swept past))⟩
            · cases call with
              | ack other => cases new
              | poll other =>
                  cases new
                  obtain ⟨positive, swept⟩ := h.calls other (List.mem_of_getElem? found)
                  refine ⟨positive, fun _ => h.checked_step ?_⟩
                  by_cases entered : other.stage = .entered
                  · refine Or.inr ⟨other.now, ?_⟩
                    simp only [sweep, resumed, found, if_pos entered]
                  · exact Or.inl (swept entered)

/-- A lease stays due until an ack ends it or a sweep finds it due. -/
theorem Due.step (h : Due v item) (clocked : Clocked v) (ahead : LeasesAhead env v a)
    (early : ∀ now, v.sweep a = some (shardIdx item.queue, now) → now < item.expireAt)
    (unacked : ¬ Acks env v a item) : Due (v.step env a) item := by
  unfold Due at h ⊢
  cases step_turn env v a (shardIdx item.queue) with
  | still _ wheel =>
      rw [wheel]
      exact h
  | swept now sweeps wheel =>
      rw [wheel]
      exact h.collectExpired (clocked.sweep_pos sweeps) (early now sweeps)
  | leased _ placed wheel =>
      rw [wheel]
      refine h.insert_foldl fun new member => ?_
      rw [← placed new member]
      exact (ahead.2 new member).2
  | acked c id _ resumes ends _ wheel =>
      rw [wheel]
      refine h.removeIfValid fun same => unacked ?_
      simp only [Acks, resumes, ends, same.1, same.2]

/-- Leases come from the claim section of a poll. -/
theorem of_mem_leases (inserted : item ∈ v.leases env a) :
    ∃ i c, a = .resume i ∧ v.calls[i]? = some (.poll c) ∧ c.stage ≠ .entered ∧
      item ∈ c.leases env v.engine := by
  cases a with
  | tick | poll | ack => cases inserted
  | resume i =>
      cases found : v.calls[i]? with
      | none => simp [Server.leases, resumed, found] at inserted
      | some call =>
          cases call with
          | ack c => simp [Server.leases, resumed, found] at inserted
          | poll c =>
              simp only [Server.leases, resumed, found] at inserted
              refine ⟨i, c, rfl, found, fun entered => ?_, inserted⟩
              simp [PollCall.leases, PollCall.claims, entered] at inserted

/-- A new lease is due. -/
theorem Clocked.lease (h : Clocked v) (ahead : LeasesAhead env v a)
    (inserted : item ∈ v.leases env a) : Due (v.step env a) item := by
  obtain ⟨i, c, rfl, found, past, mine⟩ := of_mem_leases inserted
  have leases : v.leases env (.resume i) = c.leases env v.engine := by
    simp only [Server.leases, resumed, found]
  have engine : (v.step env (.resume i)).engine = (c.resume env v.engine).1 := by
    simp only [Server.step, found]
    rfl
  have turned := c.wheels_resume env v.engine
  rw [if_neg past, ← queue_of_mem_leases mine, ← leases] at turned
  have checked := (h.calls c (List.mem_of_getElem? found)).2 past
  rw [← queue_of_mem_leases mine] at checked
  have wheel : (v.step env (.resume i)).engine.wheels (shardIdx item.queue) =
      (v.leases env (.resume i)).foldl TimerWheel.insert
        (v.engine.wheels (shardIdx item.queue)) := by
    rw [engine, turned, Function.update_self]
  obtain ⟨last, size⟩ := TimerWheel.lastCheckedSec_insert_foldl (v.leases env (.resume i))
    (v.engine.wheels (shardIdx item.queue))
  have shaped := h.shaped (shardIdx item.queue)
  unfold Due
  rw [wheel]
  refine ⟨TimerWheel.leased_insert_foldl ahead.1 (fun new member => ?_) inserted, ?_, ?_, ?_⟩
  · have vacant := (ahead.2 new member).2
    rw [leases] at member
    rw [queue_of_mem_leases member, ← queue_of_mem_leases mine] at vacant
    exact shaped.unleased vacant
  · rw [size]
    exact shaped.sized
  · rw [last]
    exact checked
  · rw [last]
    exact (ahead.2 item inserted).1

end Server

/-! ## Runs -/

theorem World.shaped_nodeStep {w : World} (h : ∀ s, (w.engine.wheels s).Shaped) (env : Env)
    (op : NodeOp) (s : Fin numShards) : ((w.nodeStep env op).engine.wheels s).Shaped := by
  cases World.nodeStep_turns env w op with
  | still wheels =>
      rw [wheels]
      exact h s
  | emptied wheels =>
      rw [wheels]
      exact .new 3600
  | acked t items wheels =>
      rw [wheels]
      by_cases here : s = t
      · subst here
        rw [Function.update_self]
        exact (h s).removeIfValid_foldl items
      · rw [Function.update_of_ne here]
        exact h s
  | polled queue visibilitySec maxMessages _ wheels =>
      rw [wheels]
      by_cases here : s = shardIdx queue
      · subst here
        rw [Function.update_self]
        exact ((h _).collectExpired w.clock).insert_foldl _
      · rw [Function.update_of_ne here]
        exact h s

theorem World.clocked_serve {env : Env} {opts : QueueOptions} {clock : Nat} (started : 0 < clock)
    (ops : List NodeOp) :
    (ops.foldl (World.nodeStep env) (World.fresh env opts clock)).serve.Clocked where
  clock := started.trans_le (World.clock_le_nodeRun env (World.fresh env opts clock) ops)
  shaped := by
    have start : ∀ s, ((World.fresh env opts clock).engine.wheels s).Shaped := by
      intro s
      have wheels := wheels_openDir env .empty opts clock 0
      show ((QueueEngine.openDir env .empty opts clock 0).wheels s).Shaped
      rw [wheels]
      exact .new 3600
    generalize World.fresh env opts clock = w at start ⊢
    induction ops generalizing w with
    | nil => exact start
    | cons op ops ih => exact ih _ (World.shaped_nodeStep start env op)
  calls c member := by cases member

theorem Server.Clocked.run {env : Env} {v : Server} (h : v.Clocked) (actions : List Action) :
    (actions.foldl (Server.step env) v).Clocked := by
  induction actions generalizing v with
  | nil => exact h
  | cons a actions ih => exact ih (h.step env a)

theorem Server.Due.run {env : Env} {v : Server} {item : InFlightItem} {actions : List Action}
    (h : v.Due item) (clocked : v.Clocked)
    (ahead : Trace.Along (Server.step env) (LeasesAhead env) v actions)
    (early : Trace.Along (Server.step env) (fun v a =>
      ∀ now, v.sweep a = some (shardIdx item.queue, now) → now < item.expireAt) v actions)
    (unacked : Trace.Along (Server.step env) (fun v a => ¬ v.Acks env a item) v actions) :
    (actions.foldl (Server.step env) v).Due item := by
  induction actions generalizing v with
  | nil => exact h
  | cons a actions ih =>
      exact ih (h.step clocked ahead.1 early.1 unacked.1) (clocked.step env a) ahead.2 early.2
        unacked.2

/-- In every interleaving whose claims are all ahead of the second their wheel checked
last, a lease that is not acked is returned by the first expiry collection of its shard
that runs at or after its expiry. -/
theorem Server.lease_collected {env : Env} {opts : QueueOptions} {clock : Nat} {ops : List NodeOp}
    {before later : List Action} {claim : Action} (started : 0 < clock)
    (ahead : Trace.Along (Server.step env) (LeasesAhead env)
      (ops.foldl (World.nodeStep env) (World.fresh env opts clock)).serve
      (before ++ claim :: later)) :
    let v := before.foldl (Server.step env)
      (ops.foldl (World.nodeStep env) (World.fresh env opts clock)).serve
    let last := later.foldl (Server.step env) (v.step env claim)
    ∀ item ∈ v.leases env claim,
      Trace.Along (Server.step env) (fun v a =>
        ∀ now, v.sweep a = some (shardIdx item.queue, now) → now < item.expireAt)
        (v.step env claim) later →
      Trace.Along (Server.step env) (fun v a => ¬ v.Acks env a item) (v.step env claim) later →
      ∀ sweep now, last.sweep sweep = some (shardIdx item.queue, now) → item.expireAt ≤ now →
        item ∈ last.collected sweep := by
  intro v last item inserted early unacked sweep now sweeps due
  obtain ⟨_, aheadHere, aheadLater⟩ := Trace.along_append.1 ahead
  have clocked : v.Clocked := (World.clocked_serve started ops).run before
  have ready : last.Due item := (clocked.lease aheadHere inserted).run (clocked.step env claim)
    aheadLater early unacked
  unfold Server.collected
  rw [sweeps]
  exact ready.returned due

/-- A poll of `jobs` up to its claim section, with one message in the queue. -/
def claimingServer (visibilitySec : Nat) : Server :=
  (Action.poll "jobs" visibilitySec 1 :: List.replicate 38 (.resume 0)).foldl (Server.step .sample)
    ([NodeOp.engine (.push "jobs" 1 [7] 0)].foldl (World.nodeStep .sample)
      (World.fresh .sample .default 1600000000)).serve

/-- A second poll sweeps five seconds later, before the first one claims for one second:
the lease is behind the second checked last and the next sweep does not find it. -/
theorem Server.lease_stuck :
    let v := [Action.tick 5, .poll "jobs" 30 1, .resume 1].foldl (Server.step .sample)
      (claimingServer 1)
    let item : InFlightItem := ⟨1, "jobs", ulidText (Env.sample.ulidNew 1), 1600000001⟩
    let last := [Action.tick 5, .poll "jobs" 30 1].foldl (Server.step .sample)
      (v.step .sample (.resume 0))
    v.leases .sample (.resume 0) = [item] ∧
      last.sweep (.resume 2) = some (shardIdx "jobs", 1600000010) ∧
      item.expireAt ≤ 1600000010 ∧ last.collected (.resume 2) = [] := by
  decide +kernel

theorem Server.lease_collected_sample :
    let v := claimingServer 30
    let item : InFlightItem := ⟨1, "jobs", ulidText (Env.sample.ulidNew 1), 1600000030⟩
    let last := [Action.tick 30, .poll "jobs2" 30 1].foldl (Server.step .sample)
      (v.step .sample (.resume 0))
    v.leases .sample (.resume 0) = [item] ∧ item ∈ last.collected (.resume 1) := by
  intro v item last
  have inserted : v.leases .sample (.resume 0) = [item] := by decide +kernel
  refine ⟨inserted, ?_⟩
  have ahead : Trace.Along (Server.step .sample) (LeasesAhead .sample)
      ([NodeOp.engine (.push "jobs" 1 [7] 0)].foldl (World.nodeStep .sample)
        (World.fresh .sample .default 1600000000)).serve
      ((Action.poll "jobs" 30 1 :: List.replicate 38 (.resume 0)) ++
        .resume 0 :: [.tick 30, .poll "jobs2" 30 1]) := by decide +kernel
  refine Server.lease_collected (by decide) ahead item ?_ ?_ ?_ (.resume 1) 1600000030
    (by decide +kernel) (by decide)
  · show item ∈ v.leases .sample (.resume 0)
    rw [inserted]
    exact List.mem_singleton_self item
  · exact ⟨(fun _ bad => by cases bad), (fun _ bad => by cases bad), trivial⟩
  · exact ⟨id, id, trivial⟩

end WalrQueue
