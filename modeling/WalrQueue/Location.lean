import WalrQueue.Run
import WalrQueue.LifeOps

/-!
# Where messages and leases are, along a run

The invariant of the operations holds along every sequential run from an empty
directory.  Read off for all ids at once it is the location and lease
invariant of every shard.
-/

namespace WalrQueue

variable {env : Env} {tracked : Set Ulid} {home : Ulid → String} {w : World} {op : Op}
  {rs : List WalRecord} {log : Set WalRecord} {lives : Ulid → Life}

/-- An engine opened on an empty directory. -/
theorem Sound.fresh (env : Env) (tracked : Set Ulid) (home : Ulid → String) (opts : QueueOptions)
    (clock : Nat) :
    Sound tracked home (World.fresh env opts clock).engine [] ∅ (fun _ => .fresh) where
  written := Written.fresh env opts clock
  logged := by simp
  tracks m _ :=
    { shards := fun s => ShardState.At.new
      hand := rfl
      msg := fun msg is => by cases is
      seen := by simp
      elsewhere := fun queue is => by cases is
      fresh := fun _ => ⟨by simp [World.fresh, QueueEngine.openDir, QueueEngine.replay, DataDir.empty,
        DiskLog.openDir, readWalFile, takeRecords, ShardState.new], fun other logged => by
          simpa [LoggedAs] using logged⟩
      dead := fun is => by cases is
      acks := fun queue member => by simp at member }

/-! ## One step -/

/-- How an operation moves the lives of the tracked ids. -/
def Moves (tracked : Set Ulid) (env : Env) (w : World) (lives lives' : Ulid → Life) : Op → Prop
  | .push .. => ∀ m ∈ tracked, (lives m).Loads (lives' m)
  | .pushBatch .. => ∀ m ∈ tracked, (lives m).Loads (lives' m)
  | .poll queue visibilitySec maxMessages => ∀ m ∈ tracked,
      Polls env w.engine w.clock queue visibilitySec maxMessages m (lives m) (lives' m)
  | .ack queue messageId receipt =>
      (∃ id, QueueEngine.parseIdFast env messageId = some id ∧
        (id ∈ tracked → (lives id).Accepts queue receipt) ∧
        (w.engine.ack env queue messageId receipt).2 = true ∧
        lives' = Function.update lives id .dead) ∨
      ((∀ id, QueueEngine.parseIdFast env messageId = some id → id ∈ tracked →
          ¬ (lives id).Accepts queue receipt) ∧
        (w.engine.ack env queue messageId receipt).2 = false ∧ lives' = lives)
  | .ackBatch queue items =>
      Settles tracked queue (QueueEngine.parsedItems env items) lives
        (QueueEngine.ackBatchLoop env w.engine queue items).accepted lives' ∧
      ((∀ m, m ∈ tracked) → (w.engine.ackBatch env queue items).2 =
        (QueueEngine.ackBatchLoop env w.engine queue items).accepted.length)
  | .advance _ => lives' = lives

/-- Every operation keeps the invariant. -/
theorem Sound.step (h : Sound tracked home w.engine rs log lives)
    (ordinary : OrdinaryFor tracked home env w op)
    (few : (w.step env op).engine.names.length ≤ 65536) :
    ∃ rs' log' lives', Sound tracked home (w.step env op).engine rs' log' lives' ∧
      Moves tracked env w lives lives' op := by
  cases op with
  | push queue id payload delaySec =>
      exact h.pushWithUlid env delaySec (ordinary.oneQueue (id, queue) (by simp [World.pushes]))
        (ordinary.small payload (by simp [Op.payloads])) few
  | pushBatch queue items =>
      exact h.pushBatch env
        (fun id member => ordinary.oneQueue (id, queue) (List.mem_map_of_mem member))
        (fun item member => ordinary.small item.payload (List.mem_map_of_mem member)) few
  | poll queue visibilitySec maxMessages =>
      obtain ⟨lives', sound, moves⟩ := h.poll env w.clock queue visibilitySec maxMessages
      exact ⟨rs, log, lives', sound, moves⟩
  | ack queue messageId receipt =>
      rcases h.ack env queue messageId receipt few with
        ⟨id, parsed, accepts, success, rs', log', sound⟩ | ⟨rejects, eq⟩
      · exact ⟨rs', log', _, sound, Or.inl ⟨id, parsed, accepts, success, rfl⟩⟩
      · refine ⟨rs, log, lives, ?_, Or.inr ⟨rejects, by rw [eq], rfl⟩⟩
        simp only [World.step, World.exec, eq]
        exact h
  | ackBatch queue items =>
      obtain ⟨lives', rs', log', settles, count, sound⟩ := h.ackBatch env queue items few
      exact ⟨rs', log', lives', sound, settles, count⟩
  | advance seconds => exact ⟨rs, log, lives, h, rfl⟩

theorem World.run_concat (env : Env) (w : World) (ops : List Op) (op : Op) :
    w.run env (ops ++ [op]) = (w.run env ops).step env op := by
  simp [World.run]

theorem World.names_run (env : Env) (w : World) (ops : List Op) :
    w.engine.names <+: (w.run env ops).engine.names := by
  induction ops generalizing w with
  | nil => exact List.prefix_rfl
  | cons op ops ih => exact (World.names_step env w op).trans (ih _)

/-- Along every ordinary run with fewer than 65536 queue names the invariant holds,
together with every property of the lives that each step keeps. -/
theorem Sound.run (h : Sound tracked home w.engine rs log lives) {ops : List Op}
    {I : List Op → (Ulid → Life) → Prop} (start : I [] lives)
    (keep : ∀ ops op rs log lives rs' log' lives', I ops lives →
      Sound tracked home (w.run env ops).engine rs log lives →
      Sound tracked home (w.run env (ops ++ [op])).engine rs' log' lives' →
      OrdinaryFor tracked home env (w.run env ops) op →
      Moves tracked env (w.run env ops) lives lives' op → I (ops ++ [op]) lives')
    (ordinary : Trace.Along (World.step env) (OrdinaryFor tracked home env) w ops)
    (few : (w.run env ops).engine.names.length ≤ 65536) :
    ∃ rs log lives, Sound tracked home (w.run env ops).engine rs log lives ∧ I ops lives := by
  induction ops using List.reverseRecOn with
  | nil => exact ⟨rs, log, lives, h, start⟩
  | append_singleton ops op ih =>
      obtain ⟨before, last⟩ := Trace.along_append.1 ordinary
      have few' := few
      rw [World.run_concat] at few'
      obtain ⟨rs, log, lives, sound, holds⟩ :=
        ih before ((World.names_step env _ op).length_le.trans few')
      obtain ⟨rs', log', lives', sound', moves⟩ := sound.step last.1 few'
      rw [← World.run_concat] at sound'
      exact ⟨rs', log', lives', sound',
        keep ops op rs log lives rs' log' lives' holds sound sound' last.1 moves⟩

/-- From an empty directory, with a property that the moves of the lives keep. -/
theorem World.sound_run_with {opts : QueueOptions} {clock : Nat} {ops : List Op}
    {I : List Op → (Ulid → Life) → Prop} (start : I [] fun _ => .fresh)
    (keep : ∀ ops op lives lives', I ops lives →
      Moves tracked env ((World.fresh env opts clock).run env ops) lives lives' op →
      I (ops ++ [op]) lives')
    (ordinary : Trace.Along (World.step env) (OrdinaryFor tracked home env)
      (World.fresh env opts clock) ops)
    (few : ((World.fresh env opts clock).run env ops).engine.names.length ≤ 65536) :
    ∃ rs log lives, Sound tracked home ((World.fresh env opts clock).run env ops).engine
      rs log lives ∧ I ops lives :=
  (Sound.fresh env tracked home opts clock).run start
    (fun ops op _ _ lives _ _ lives' holds _ _ _ moves => keep ops op lives lives' holds moves)
    ordinary few

/-- A run that is ordinary is so for every set of ids. -/
theorem Ordinary.all (h : Ordinary home env w op) (tracked : Set Ulid) :
    OrdinaryFor tracked home env w op :=
  ⟨fun pushed member _ => h.oneQueue pushed member, h.small⟩

theorem World.sound_run {opts : QueueOptions} {clock : Nat} {ops : List Op}
    (ordinary : Trace.Along (World.step env) (Ordinary home env) (World.fresh env opts clock) ops)
    (few : ((World.fresh env opts clock).run env ops).engine.names.length < 65536) :
    ∃ rs log lives, Sound Set.univ home ((World.fresh env opts clock).run env ops).engine
      rs log lives := by
  obtain ⟨rs, log, lives, sound, _⟩ := World.sound_run_with (I := fun _ _ => True) trivial
    (fun _ _ _ _ _ _ => trivial) (ordinary.imp fun _ _ h => h.all Set.univ) few.le
  exact ⟨rs, log, lives, sound⟩

/-! ## The location and lease invariant -/

/-- Every id in `messages` has exactly one lease and waits nowhere, or has no
lease and waits exactly once, in the queue its message names, without a
tombstone; and every leased id is in `messages`. -/
structure ShardState.LocationInvariant (st : ShardState) : Prop where
  placed : ∀ id msg, AList.lookup id st.messages = some msg →
    (∃ item, st.wheel.Leased id item ∧ ∀ queue, st.occ queue id = 0) ∨
    (st.wheel.Unleased id ∧ st.occ msg.queue id = 1 ∧
      (∀ queue, queue ≠ msg.queue → st.occ queue id = 0) ∧ ¬ st.Tomb msg.queue id)
  leased : ∀ id, ¬ st.wheel.Unleased id → id ∈ st.messages

theorem ShardState.LocationInvariant.of_at {st : ShardState}
    (located : ∀ id, ∃ status, st.At id status) : st.LocationInvariant where
  placed id msg found := by
    obtain ⟨status, here⟩ := located id
    have is := here.msg.symm.trans found
    cases status with
    | away => cases is
    | pending msg' =>
        cases is
        refine Or.inr ⟨here.lease, ?_, fun queue other => ?_, fun tomb => ?_⟩
        · simpa [Status.waitsIn] using here.occ msg.queue
        · simpa [Status.waitsIn, other.symm] using here.occ queue
        · simpa [Status.waitsIn] using here.tomb msg.queue tomb
    | leased msg' item => exact Or.inl ⟨item, here.lease, here.occ⟩
  leased id leased := by
    obtain ⟨status, here⟩ := located id
    rw [here.mem_messages]
    cases status with
    | away => exact absurd here.lease leased
    | pending msg => rfl
    | leased msg item => rfl

theorem Sound.locationInvariant {e : QueueEngine} (h : Sound Set.univ home e rs log lives)
    (s : Fin numShards) : (e.shards s).LocationInvariant :=
  .of_at fun id => ⟨_, (h.tracks id trivial).shards s⟩

/-- A wheel holds a lease only of an id whose life is that lease. -/
theorem Tracks.leased_of_wheel {e : QueueEngine} {m : Ulid} {home : String}
    {held : Multiset StoredMsg} {life : Life} (h : Tracks e m home log held life)
    {s : Fin numShards} {item : InFlightItem} (lease : (e.shards s).wheel.Leased m item) :
    ∃ msg, life = .leased msg item ∧ s = shardIdx msg.queue := by
  have here := (h.shards s).lease
  cases status : life.status s with
  | away => rw [status] at here; exact absurd here lease.not_unleased
  | pending msg => rw [status] at here; exact absurd here lease.not_unleased
  | leased msg item' =>
      rw [status] at here
      obtain rfl := lease.unique here
      exact ⟨msg, Life.eq_leased_of_status status⟩

theorem length_polledOf (m : Ulid) (polled : List PolledMessage) :
    (polled.map (·.id)).count m = (ShardState.polledOf m polled).length := by
  rw [List.count, List.countP_map, List.countP_eq_length_filter]
  congr

/-- A poll returns an id at most once. -/
theorem Sound.nodup_poll {e : QueueEngine} (h : Sound Set.univ home e rs log lives) (env : Env) (now : Nat)
    (queue : String) (visibilitySec maxMessages : Nat) :
    ((e.poll env now queue visibilitySec maxMessages).2.map (·.id)).Nodup := by
  obtain ⟨lives', _, polls⟩ := h.poll env now queue visibilitySec maxMessages
  refine List.nodup_iff_count_le_one.2 fun m => ?_
  rw [length_polledOf]
  obtain ⟨_, _, _, _, leases⟩ := polls m trivial
  generalize lives' m = life' at leases
  cases leases with
  | kept life none => simp [none]
  | lease msg item mine isLease one => simp [one]

/-- A poll returns an id that was leased only after it took the message back
from a lease that was due. -/
theorem Sound.poll_due {e : QueueEngine} (h : Sound Set.univ home e rs log lives) {now : Nat}
    {queue : String} {visibilitySec maxMessages : Nat} {p : PolledMessage} {s : Fin numShards}
    {item : InFlightItem} (member : p ∈ (e.poll env now queue visibilitySec maxMessages).2)
    (lease : (e.shards s).wheel.Leased p.id item) :
    item.expireAt ≤ now ∧ p.id ∈ (e.collectExpired (shardIdx queue) now).2.map (·.id) := by
  obtain ⟨lives', _, polls⟩ := h.poll env now queue visibilitySec maxMessages
  obtain ⟨msg, is, _⟩ := (h.tracks p.id trivial).leased_of_wheel lease
  obtain ⟨expired, loaded, expires, loads, leases⟩ := polls p.id trivial
  rw [is] at expires
  generalize lives' p.id = life' at leases
  cases expires with
  | kept _ none =>
      -- an uncollected lease is neither loaded nor leased again
      cases loads with
      | same =>
          cases leases with
          | kept _ none =>
              have hit : p ∈ ShardState.polledOf p.id
                  (e.poll env now queue visibilitySec maxMessages).2 :=
                List.mem_filter.2 ⟨member, by simp⟩
              rw [none] at hit
              cases hit
  | expire msg item due here one =>
      refine ⟨due, ?_⟩
      have taken : msg ∈ ShardState.messagesOf p.id
          (e.collectExpired (shardIdx queue) now).2 := by rw [one]; simp
      obtain ⟨inside, same⟩ := List.mem_filter.1 taken
      exact List.mem_map.2 ⟨msg, inside, by simpa using same⟩

/-- Along every sequential run every shard satisfies the location and lease
invariant, and no poll returns an id whose lease is outstanding. -/
theorem World.run_locationInvariant {opts : QueueOptions} {clock : Nat} {ops : List Op}
    (ordinary : Trace.Along (World.step env) (Ordinary home env) (World.fresh env opts clock) ops)
    (few : ((World.fresh env opts clock).run env ops).engine.names.length < 65536) :
    let w := (World.fresh env opts clock).run env ops
    (∀ s, (w.engine.shards s).LocationInvariant) ∧
      ∀ queue visibilitySec maxMessages,
        let polled := (w.engine.poll env w.clock queue visibilitySec maxMessages).2
        (polled.map (·.id)).Nodup ∧
        ∀ p ∈ polled, ∀ s item, (w.engine.shards s).wheel.Leased p.id item →
          item.expireAt ≤ w.clock ∧
          p.id ∈ (w.engine.collectExpired (shardIdx queue) w.clock).2.map (·.id) := by
  obtain ⟨rs, log, lives, sound⟩ := World.sound_run ordinary few
  intro w
  refine ⟨sound.locationInvariant, fun queue visibilitySec maxMessages => ⟨?_, ?_⟩⟩
  · exact sound.nodup_poll env w.clock queue visibilitySec maxMessages
  · exact fun p member s item lease => sound.poll_due member lease

/-- A run that pushes, delays, polls, acks and lets a lease expire. -/
def sampleOps : List Op :=
  [.push "jobs" 1 [7] 0, .push "jobs" 2 [8] 5,
    .pushBatch "mail" [⟨some 3, [9], 0⟩, ⟨none, [], 400⟩], .advance 6, .poll "jobs" 30 10,
    .ack "jobs" (ulidText 1) (ulidText (BitVec.ofNat 128 (2 ^ 64 + 2))), .advance 31,
    .poll "jobs" 30 1]

/-- The queue of each id of the sample run. -/
def sampleHome (id : Ulid) : String := if id = 1 ∨ id = 2 then "jobs" else "mail"

theorem World.run_locationInvariant_sample :
    Trace.Along (World.step .sample) (Ordinary sampleHome .sample)
        (World.fresh .sample .default 1600000000) sampleOps ∧
      (((World.fresh .sample .default 1600000000).run .sample sampleOps).engine.shards
        (shardIdx "jobs")).LocationInvariant :=
  have ordinary : Trace.Along (World.step .sample) (Ordinary sampleHome .sample)
      (World.fresh .sample .default 1600000000) sampleOps := by decide +kernel
  ⟨ordinary, (World.run_locationInvariant ordinary (by decide +kernel)).1 _⟩

end WalrQueue
