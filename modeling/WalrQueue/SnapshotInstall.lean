import WalrQueue.CatchUp

/-!
# Installing a snapshot

`handle_install_snapshot` forgets the messages in RAM and rewinds the page-in cursor, and
leaves the write-ahead log as it is.  Whatever a later poll returns was in the snapshot, in
an entry applied since, or in a Push record that was already in the log.
-/

namespace WalrQueue

open QueueEngine RaftCommand

/-! ## Where messages come from -/

/-- A message filed under its id, whose id and payload come from `source`. -/
def ComesFrom (source : Ulid → List UInt8 → Prop) (id : Ulid) (msg : StoredMsg) : Prop :=
  Filed id msg ∧ source id msg.payload

/-- What a poll returns it has found in memory. -/
theorem ShardState.Every.polled {Q : Ulid → StoredMsg → Prop} {st : ShardState} (h : st.Every Q)
    (closed : ∀ id msg, Q id msg → Q id (delivered msg)) (env : Env) (draws : Nat) (queue : String)
    (q : SingleQueue) (now timeout maxMessages : Nat) :
    ∀ p ∈ (st.claim env draws queue q now timeout maxMessages).2.2,
      ∃ msg, Q p.id msg ∧ p.payload = msg.payload := by
  have loop : ∀ (ids : List Ulid) (acc : Claim),
      (∀ id msg, AList.lookup id acc.messages = some msg → Q id msg) →
      (∀ p ∈ acc.polled, ∃ msg, Q p.id msg ∧ p.payload = msg.payload) →
      ∀ p ∈ (ids.foldl (claimOne env now queue timeout) acc).polled,
        ∃ msg, Q p.id msg ∧ p.payload = msg.payload := by
    intro ids
    induction ids with
    | nil => exact fun acc _ polled => polled
    | cons id ids ih =>
        intro acc every polled
        have next := (claimOne_foldl_messages (m := 0) env now queue timeout [id] acc closed every).1
        refine ih (claimOne env now queue timeout acc id) next fun p inside => ?_
        cases found : AList.lookup id acc.messages with
        | none =>
            rw [claimOne, found] at inside
            exact polled p inside
        | some msg =>
            rw [claimOne, found] at inside
            rcases List.mem_append.1 inside with before | here
            · exact polled p before
            · rw [List.mem_singleton.1 here]
              exact ⟨msg, every id msg found, rfl⟩
  exact loop _ ⟨st.messages, st.wheel, draws + 1, []⟩ h (by simp)

/-- The messages in memory and the Push records of the active segment come from `source`. -/
structure Sourced (source : Ulid → List UInt8 → Prop) (e : QueueEngine) : Prop where
  log : ∃ xs i, DiskLayout e xs i ∧ ∀ x ∈ xs, ∀ id queue visibleAt payload,
    x.2 = .push id queue visibleAt payload → source id payload
  memory : e.Every (ComesFrom source)

namespace Sourced

variable {source wider : Ulid → List UInt8 → Prop} {e e' : QueueEngine} {now : Nat}

theorem mono (h : Sourced source e) (more : ∀ id payload, source id payload → wider id payload) :
    Sourced wider e := by
  obtain ⟨xs, i, layout, records⟩ := h.log
  refine ⟨⟨xs, i, layout, fun x inside id queue visibleAt payload is => ?_⟩, fun s id msg found => ?_⟩
  · exact more id payload (records x inside id queue visibleAt payload is)
  · obtain ⟨filed, known⟩ := h.memory s id msg found
    exact ⟨filed, more id msg.payload known⟩

theorem congr (h : Sourced source e) (disk : e'.disk = e.disk)
    (cursor : e'.spillReadOffset = e.spillReadOffset) (memory : e'.Every (ComesFrom source)) :
    Sourced source e' := by
  obtain ⟨xs, i, layout, records⟩ := h.log
  exact ⟨⟨xs, i, layout.congr disk cursor, records⟩, memory⟩

/-- A section and the append that goes with it. -/
theorem append (h : Sourced source e) {r : WalRecord} (fits : r.Fits)
    (pushed : ∀ id queue visibleAt payload, r = .push id queue visibleAt payload →
      source id payload)
    (disk : e'.disk = e.disk.append r) (cursor : e'.spillReadOffset = e.spillReadOffset)
    (memory : e'.Every (ComesFrom source)) : Sourced source e' := by
  obtain ⟨xs, i, layout, records⟩ := h.log
  refine ⟨⟨_, i, layout.append fits disk cursor, fun x inside => ?_⟩, memory⟩
  rcases List.mem_append.1 inside with old | new
  · exact records x old
  · rw [List.mem_singleton.1 new]
    exact pushed

theorem checkAndTriggerCompaction (h : Sourced source e) (env : Env) :
    Sourced source (e.checkAndTriggerCompaction env) := by
  unfold QueueEngine.checkAndTriggerCompaction
  split
  · have filed : ∀ survivor ∈ e.surviving env, survivor.2.2.2.length < 2 ^ 32 ∧
        source survivor.1 survivor.2.2.2 := by
      intro survivor survives
      obtain ⟨s, msg, found, eq⟩ := mem_surviving.1 survives
      rw [eq]
      obtain ⟨⟨_, fits⟩, known⟩ := h.memory s _ _ found
      exact ⟨fits, known⟩
    obtain ⟨xs, i, layout, _⟩ := h.log
    obtain ⟨ys, records, layout', _⟩ := layout.compact env fun survivor survives =>
      (filed survivor survives).1
    refine ⟨⟨ys, 0, layout', fun y inside id queue visibleAt payload is => ?_⟩, h.memory.congr rfl⟩
    have written : y.2 ∈ ys.map Prod.snd := List.mem_map_of_mem inside
    rw [records] at written
    obtain ⟨survivor, survives, eq⟩ := List.mem_map.1 written
    rw [is] at eq
    cases eq
    exact (filed survivor survives).2
  · exact h

/-! ## What a follower does -/

theorem pushWithUlid (h : Sourced source e) (env : Env) (now : Nat) (queue : String) {id : Ulid}
    {payload : List UInt8} (fits : payload.length < 2 ^ 32) (known : source id payload)
    (delaySec : Nat) : Sourced source (e.pushWithUlid env now queue id payload delaySec).1 := by
  have memory : (e.pushUnchecked now queue id payload delaySec).1.Every (ComesFrom source) :=
    h.memory.pushUnchecked ⟨⟨rfl, fits⟩, known⟩
  obtain ⟨disk, cursor⟩ := disk_pushUnchecked e now queue id payload delaySec
  have pushed : Sourced source (e.pushUnchecked now queue id payload delaySec).1 := by
    refine h.append (r := .push id queue (addU64 now delaySec) payload) fits ?_ disk cursor memory
    intro id' queue' visibleAt' payload' is
    cases is
    exact known
  unfold QueueEngine.pushWithUlid
  dsimp only
  split
  · exact pushed.checkAndTriggerCompaction env
  · exact pushed

theorem ackFollower (h : Sourced source e) (env : Env) (queue messageId : String) :
    Sourced source (e.ackFollower env queue messageId).1 := by
  unfold QueueEngine.ackFollower
  split
  · exact h
  · rename_i id _
    have memory := h.memory.setShard (s := shardIdx queue)
      ((h.memory (shardIdx queue)).applyAck queue id)
    have noPush : ∀ id' queue' visibleAt payload,
        WalRecord.ack id queue = .push id' queue' visibleAt payload → source id' payload :=
      fun _ _ _ _ is => by cases is
    dsimp only
    split
    · refine Sourced.checkAndTriggerCompaction
        (h.append (r := .ack id queue) trivial noPush ?_ ?_ (memory.congr ?_)) env <;> rfl
    · refine h.append (r := .ack id queue) trivial noPush ?_ ?_ (memory.congr ?_) <;> rfl

theorem loads (h : Sourced source e) (env : Env) (now : Nat) (targetQueue : String)
    (fetchLimit : Nat) (flushed : Bool) :
    Sourced source (pageInStep env now targetQueue fetchLimit e flushed).1 := by
  obtain ⟨xs, i, layout, records⟩ := h.log
  rcases pageInStep_cases layout env now targetQueue fetchLimit flushed with
    ⟨k, chunk, inside, rfl, ⟨_, eq⟩ | ⟨_, eq⟩⟩ | eq | eq
  · rw [eq]
    obtain ⟨disk, cursor, _⟩ := disk_pageInChunk now targetQueue
      { e with spillReadOffset := (segment (xs.take (i + k))).length }
      (((xs.drop i).take k).map (readBack e.disk.registry))
    have moved : Sourced source { e with spillReadOffset := (segment (xs.take (i + k))).length } :=
      ⟨⟨xs, i + k, layout.move inside, records⟩, h.memory.congr rfl⟩
    refine moved.congr disk cursor (moved.memory.pageInChunk ?_ targetQueue)
    intro id queue visibleAt payload member
    obtain ⟨⟨qId, record⟩, taken, back⟩ := List.mem_map.1 member
    have held := List.mem_of_mem_drop (List.mem_of_mem_take taken)
    cases record with
    | ack msgId queueName => cases back
    | push msgId queueName visibleAt' payload' =>
        cases back
        exact ⟨⟨rfl, (layout.holds.fits _ held).2⟩, records _ held _ _ _ _ rfl⟩
  · rw [eq]
    exact ⟨⟨xs, i + k, layout.move inside, records⟩, h.memory.congr rfl⟩
  · rw [eq]
    exact h
  · rw [eq]
    exact ⟨⟨xs, 0, layout.rewind, records⟩, h.memory.congr rfl⟩

/-- A poll keeps to the source, and so does what it returns. -/
theorem poll (h : Sourced source e) (env : Env) (now : Nat) (queue : String)
    (visibilitySec maxMessages : Nat) :
    Sourced source (e.poll env now queue visibilitySec maxMessages).1 ∧
      ∀ p ∈ (e.poll env now queue visibilitySec maxMessages).2, source p.id p.payload := by
  have closed : ∀ id msg, ComesFrom source id msg → ComesFrom source id (ShardState.delivered msg) :=
    fun _ _ comes => comes
  obtain ⟨disk, cursor, _⟩ := disk_routeExpired_foldl now (e.collectExpired (shardIdx queue) now).1
    (e.collectExpired (shardIdx queue) now).2
  have routed : Sourced source (e.routed (shardIdx queue) now) := by
    refine h.congr disk cursor (h.memory.route (shardIdx queue) ?_)
    rintro id msg ⟨⟨same, fits⟩, known⟩ msg' sameId samePayload _
    rw [ComesFrom, Filed, samePayload, sameId, same]
    exact ⟨⟨rfl, fits⟩, known⟩
  have loaded : Sourced source (e.polling env now queue maxMessages) :=
    prefetch_induction (fun fetchLimit e flushed h => h.loads env now queue fetchLimit flushed)
      routed maxMessages
  rw [poll_eq]
  generalize e.polling env now queue maxMessages = mid at loaded
  obtain ⟨disk, cursor⟩ := disk_claimSection env mid queue now (e.visibility visibilitySec) maxMessages
  refine ⟨loaded.congr disk cursor (loaded.memory.claimSection closed env queue now _ _), ?_⟩
  intro p returned
  unfold QueueEngine.claimSection at returned
  dsimp only at returned
  split at returned
  · obtain ⟨msg, ⟨_, known⟩, same⟩ := (loaded.memory (shardIdx queue)).polled closed env mid.draws
      queue _ now _ maxMessages p returned
    rw [same]
    exact known
  · cases returned

end Sourced

/-! ## A follower after a snapshot -/

/-- The id and the payload an entry pushes at a follower. -/
def RaftCommand.brings (env : Env) : RaftCommand → Option (Ulid × List UInt8)
  | .push _ msgId payload _ => (followerId env msgId).map fun id => (id, payload)
  | .ack .. => none

/-- The id and the payload of an item of a snapshot. -/
def SnapshotItem.brings (env : Env) (item : SnapshotItem) : Option (Ulid × List UInt8) :=
  (item.readId env).map fun id => (id, item.payload)

theorem Sourced.applyCommand {source : Ulid → List UInt8 → Prop} {e : QueueEngine}
    (h : Sourced source e) (env : Env) (now : Nat) {command : RaftCommand} (fits : command.Small)
    (known : ∀ pair ∈ command.brings env, source pair.1 pair.2) :
    Sourced source (RaftNode.applyCommand env now e command) := by
  cases command with
  | push queue msgId payload visibleAt =>
      rw [RaftNode.applyCommand_push]
      rw [RaftCommand.brings] at known
      cases read : followerId env msgId with
      | none => exact h
      | some id => exact h.pushWithUlid env now queue fits (known (id, payload) (by simp [read])) visibleAt
  | ack queue msgId receipt => exact h.ackFollower env queue msgId

theorem Sourced.installItem {source : Ulid → List UInt8 → Prop} {e : QueueEngine}
    (h : Sourced source e) (env : Env) (now : Nat) {item : SnapshotItem}
    (fits : item.payload.length < 2 ^ 32)
    (known : ∀ pair ∈ item.brings env, source pair.1 pair.2) :
    Sourced source (RaftNode.installItem env now e item) := by
  rw [RaftNode.installItem_eq]
  rw [SnapshotItem.brings] at known
  cases read : item.readId env with
  | none => exact h
  | some id =>
      exact h.pushWithUlid env now item.queue fits (known (id, item.payload) (by simp [read])) _

/-- What happens at a follower after a snapshot. -/
inductive FollowerOp where
  | poll (now : Nat) (queue : String) (visibilitySec maxMessages : Nat)
  | append (now : Nat) (request : RaftAppend)
  deriving DecidableEq

namespace FollowerOp

def step (env : Env) (codec : Postcard) (n : RaftNode) : FollowerOp → RaftNode
  | .poll now queue visibilitySec maxMessages =>
      { n with engine := (n.engine.poll env now queue visibilitySec maxMessages).1 }
  | .append now request => (n.handleAppendEntries env codec now request).1

/-- The commands a follower of a term applies. -/
def commands (codec : Postcard) (term : Nat) : FollowerOp → List RaftCommand
  | .poll .. => []
  | .append now request => (RaftNode.applied codec term [(now, request)]).map Prod.snd

theorem currentTerm_step (env : Env) (codec : Postcard) (n : RaftNode) (op : FollowerOp) :
    (op.step env codec n).currentTerm = n.currentTerm := by
  cases op with
  | poll now queue visibilitySec maxMessages => rfl
  | append now request => exact (RaftNode.handleAppendEntries_engine env codec now n request).2

/-- A follower keeps to a source that has what its entries bring. -/
theorem sourced_step {source : Ulid → List UInt8 → Prop} {env : Env} {codec : Postcard}
    {n : RaftNode} (h : Sourced source n.engine) (op : FollowerOp)
    (small : ∀ command ∈ op.commands codec n.currentTerm, command.Small)
    (known : ∀ pair ∈ (op.commands codec n.currentTerm).filterMap (RaftCommand.brings env),
      source pair.1 pair.2) :
    Sourced source (op.step env codec n).engine := by
  cases op with
  | poll now queue visibilitySec maxMessages =>
      exact (h.poll env now queue visibilitySec maxMessages).1
  | append now request =>
      have engine := (RaftNode.handleAppendEntries_engine env codec now n request).1
      unfold step
      rw [engine]
      refine List.foldlRecOn _ (RaftNode.applyAt env) h fun e h c inside => ?_
      have applied : c.2 ∈ commands codec n.currentTerm (.append now request) :=
        List.mem_map_of_mem inside
      exact h.applyCommand env c.1 (small c.2 applied) fun pair brings =>
        known pair (List.mem_filterMap.2 ⟨c.2, applied, brings⟩)

end FollowerOp

namespace RaftNode

/-- What the items of a snapshot and the entries applied after it bring. -/
def broughtSince (env : Env) (codec : Postcard) (term : Nat) (items : List SnapshotItem)
    (ops : List FollowerOp) : List (Ulid × List UInt8) :=
  items.filterMap (SnapshotItem.brings env) ++
    (ops.flatMap (FollowerOp.commands codec term)).filterMap (RaftCommand.brings env)

section

variable {env : Env} {codec : Postcard} {n : RaftNode} {request : RaftInstallSnapshot}
  {xs : List WalEntry} {i : Nat}

/-- A follower whose log had no Push record but of items of the snapshot holds nothing but
items of the snapshot once it is installed. -/
theorem sourced_install (now : Nat) (accepted : n.currentTerm ≤ request.term)
    (small : ∀ item ∈ request.items, item.payload.length < 2 ^ 32)
    (layout : DiskLayout n.engine xs i)
    (covered : ∀ id queue visibleAt payload,
      WalRecord.push id queue visibleAt payload ∈ n.engine.disk.activeRecords env →
      (id, payload) ∈ request.items.filterMap (SnapshotItem.brings env)) :
    Sourced (fun id payload => (id, payload) ∈ request.items.filterMap (SnapshotItem.brings env))
      (n.handleInstallSnapshot env now request).1.engine := by
  rw [(n.handleInstallSnapshot_of_le env now accepted).1]
  refine List.foldlRecOn _ (RaftNode.installItem env now) ?_ fun e h item inside => ?_
  · -- the cursor goes back to the start of records that are all covered
    refine ⟨⟨xs, 0, layout.rewind.congr rfl rfl, fun x inside id queue visibleAt payload is => ?_⟩,
      fun s id msg found => by cases found⟩
    refine covered id (recordQueue n.engine.disk.registry x.1) (storedTime visibleAt) payload ?_
    rw [layout.activeRecords]
    exact List.mem_map.2 ⟨x, inside, by rw [readBack, is]⟩
  · exact h.installItem env now (small item inside) fun pair brings =>
      List.mem_filterMap.2 ⟨item, inside, brings⟩

/-- From then on it holds nothing but what the snapshot and the entries applied bring. -/
theorem sourced_since {items : List SnapshotItem} {ops : List FollowerOp}
    (start : Sourced (fun id payload => (id, payload) ∈ items.filterMap (SnapshotItem.brings env))
      n.engine)
    (small : ∀ op ∈ ops, ∀ command ∈ op.commands codec n.currentTerm, command.Small) :
    (ops.foldl (FollowerOp.step env codec) n).currentTerm = n.currentTerm ∧
      Sourced (fun id payload => (id, payload) ∈ broughtSince env codec n.currentTerm items ops)
        (ops.foldl (FollowerOp.step env codec) n).engine := by
  induction ops using List.reverseRecOn with
  | nil => exact ⟨rfl, start.mono fun id payload known => List.mem_append_left _ known⟩
  | append_singleton ops op ih =>
      obtain ⟨term, sourced⟩ := ih fun op' inside => small op' (by simp [inside])
      simp only [List.foldl_append, List.foldl_cons, List.foldl_nil]
      refine ⟨(FollowerOp.currentTerm_step env codec _ op).trans term, ?_⟩
      refine FollowerOp.sourced_step (sourced.mono fun id payload known => ?_) op ?_ ?_
      · rw [broughtSince] at known ⊢
        rw [List.flatMap_append, List.filterMap_append, ← List.append_assoc]
        exact List.mem_append_left _ known
      · rw [term]
        exact small op (by simp)
      · rw [term, broughtSince, List.flatMap_append, List.filterMap_append]
        intro pair brings
        simp only [List.mem_append, List.flatMap_cons, List.flatMap_nil, List.append_nil]
        exact Or.inr (Or.inr brings)

end

/-- A follower whose log had no Push record but of items of the snapshot returns nothing
but items of the snapshot and what was applied after it. -/
theorem polls_installed (env : Env) (codec : Postcard) (now : Nat) (n : RaftNode)
    {request : RaftInstallSnapshot} {xs : List WalEntry} {i : Nat}
    (accepted : n.currentTerm ≤ request.term)
    (smallItems : ∀ item ∈ request.items, item.payload.length < 2 ^ 32)
    (layout : DiskLayout n.engine xs i)
    (covered : ∀ id queue visibleAt payload,
      WalRecord.push id queue visibleAt payload ∈ n.engine.disk.activeRecords env →
      (id, payload) ∈ request.items.filterMap (SnapshotItem.brings env))
    {ops : List FollowerOp}
    (small : ∀ op ∈ ops, ∀ command ∈ op.commands codec n.currentTerm, command.Small)
    (later : Nat) (queue : String) (visibilitySec maxMessages : Nat) :
    let after := ops.foldl (FollowerOp.step env codec) (n.handleInstallSnapshot env now request).1
    ∀ p ∈ (after.engine.poll env later queue visibilitySec maxMessages).2,
      (p.id, p.payload) ∈ broughtSince env codec n.currentTerm request.items ops := by
  intro after
  have term := (n.handleInstallSnapshot_of_le env now accepted).2
  have installed := sourced_install now accepted smallItems layout covered
  have small' : ∀ op ∈ ops, ∀ command ∈ op.commands codec
      (n.handleInstallSnapshot env now request).1.currentTerm, command.Small := by
    rw [term]
    exact small
  have since := sourced_since installed small'
  rw [term] at since
  exact (since.2.poll env later queue visibilitySec maxMessages).2

/-- A snapshot of the items, sent by `n1` in term 0. -/
def sampleSnapshot (items : List SnapshotItem) : RaftInstallSnapshot := ⟨0, "n1", 1, 0, items⟩

/-- The old message is still in the log, and the next poll pages it in. -/
theorem polls_overwritten :
    let old := sampleFollower.deliver .sample .format ((sampleLeader.proposePushBatch .sample
      .format 1600000000 [] "a" [(ulidText 7, [1], 0)]).2.2.toList.map (Prod.mk 1600000000))
    let installed := old.handleInstallSnapshot .sample 1600000000 (sampleSnapshot [])
    installed.2 = true ∧ ¬ installed.1.engine.InMemory 7 ∧
      (installed.1.engine.poll .sample 1600000000 "a" 30 10).2.map (fun p => (p.id, p.payload)) =
        [(7, [1])] := by
  decide +kernel

/-- A follower that has applied a push of message 7, which a poll has leased. -/
def sampleHolder : RaftNode :=
  let held := sampleFollower.deliver .sample .format ((sampleLeader.proposePushBatch .sample
    .format 1600000000 [] "a" [(ulidText 7, [1], 0)]).2.2.toList.map (Prod.mk 1600000000))
  { held with engine := (held.engine.poll .sample 1600000000 "a" 30 10).1 }

theorem layout_sampleHolder : ∃ xs, DiskLayout sampleHolder.engine xs 0 := by
  have fits : (WalRecord.push 7 "a" 1600000000 [1]).Fits := by
    rw [WalRecord.Fits]
    decide
  have cursor : sampleHolder.engine.spillReadOffset = 0 := by decide +kernel
  exact ⟨_, (DiskLayout.fresh .sample .default 1600000000).append fits rfl cursor⟩

/-- The holder takes a snapshot of its own message and another one.  Its Push record is still in
the log, and both messages are polled again. -/
theorem polls_installed_sample :
    let request := sampleSnapshot
      [⟨ulidText 7, "a", 1600000000, [1]⟩, ⟨ulidText 8, "a", 1600000000, [2]⟩]
    let ops : List FollowerOp := [.poll 1600000000 "b" 30 10]
    let after := ops.foldl (FollowerOp.step .sample .format)
      (sampleHolder.handleInstallSnapshot .sample 1600000000 request).1
    sampleHolder.engine.disk.activeRecords .sample = [.push 7 "a" 1600000000 [1]] ∧
      (after.engine.poll .sample 1600000000 "a" 30 10).2.map (·.id) = [7, 8] ∧
      ∀ p ∈ (after.engine.poll .sample 1600000000 "a" 30 10).2,
        (p.id, p.payload) ∈ broughtSince .sample .format 0 request.items ops := by
  intro request ops after
  obtain ⟨xs, layout⟩ := layout_sampleHolder
  have old : sampleHolder.engine.disk.activeRecords .sample = [.push 7 "a" 1600000000 [1]] := by
    decide +kernel
  refine ⟨old, by decide +kernel, polls_installed .sample .format 1600000000 sampleHolder
    (by decide +kernel) (by decide +kernel) layout (fun id queue visibleAt payload written => ?_)
    (by decide +kernel) 1600000000 "a" 30 10⟩
  rw [old, List.mem_singleton] at written
  cases written
  decide +kernel

end RaftNode

end WalrQueue
