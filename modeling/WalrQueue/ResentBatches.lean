import WalrQueue.Replica

/-!
# Batches that arrive again

A leader sends a batch again after a broken connection, and its whole log to a follower that
fell behind.  A follower that has applied every Ack after the Push of its id is not changed
by a command it has applied before: the Push finds its id seen, and the Ack finds no message.
What other commands find does not change either, so a run with such batches anywhere in it
ends with the same messages and the same counter as the run without them.
-/

namespace WalrQueue

namespace QueueEngine

/-- Two engines with the same messages, ids seen, counter and options.  Files, leases and the
queues of ids may differ. -/
structure SameStore (e e' : QueueEngine) : Prop where
  messages : ∀ s, (e'.shards s).messages = (e.shards s).messages
  seen : ∀ s, (e'.shards s).seenIds = (e.shards s).seenIds
  ram : e'.totalMessagesInRam = e.totalMessagesInRam
  options : e'.options = e.options

variable {env : Env} {e e' : QueueEngine} {queue : String} {id : Ulid}

theorem SameStore.refl (e : QueueEngine) : SameStore e e := ⟨fun _ => rfl, fun _ => rfl, rfl, rfl⟩

theorem SameStore.trans {e'' : QueueEngine} (h : SameStore e e') (h' : SameStore e' e'') :
    SameStore e e'' :=
  ⟨fun s => (h'.messages s).trans (h.messages s), fun s => (h'.seen s).trans (h.seen s),
    h'.ram.trans h.ram, h'.options.trans h.options⟩

theorem SameStore.enters (h : SameStore e e') (now : Nat) (queue : String) (id : Ulid)
    (delaySec : Nat) : e'.Enters now queue id delaySec ↔ e.Enters now queue id delaySec := by
  unfold Enters
  rw [h.ram, h.options, h.messages]

/-- What an ack without a receipt does to the counter and the options. -/
theorem ram_ackFollower (e : QueueEngine) (queue : String) {messageId : String}
    (parsed : parseIdFast env messageId = some id) :
    (e.ackFollower env queue messageId).1.options = e.options ∧
    (e.ackFollower env queue messageId).1.totalMessagesInRam =
      if id ∈ (e.shards (shardIdx queue)).messages then fetchSub e.totalMessagesInRam 1
      else e.totalMessagesInRam := by
  unfold ackFollower
  rw [parsed]
  dsimp only
  by_cases live : id ∈ (e.shards (shardIdx queue)).messages
  · rw [if_pos live, if_pos (decide_eq_true live), options_checkAndTriggerCompaction,
      ram_checkAndTriggerCompaction]
    exact ⟨rfl, rfl⟩
  · rw [if_neg live, if_neg (by simpa using live)]
    exact ⟨rfl, rfl⟩

theorem messages_ackFollower (e : QueueEngine) (queue : String) {messageId : String}
    (parsed : parseIdFast env messageId = some id) (s : Fin numShards) :
    ((e.ackFollower env queue messageId).1.shards s).messages =
        (if s = shardIdx queue then AList.erase id (e.shards s).messages else (e.shards s).messages) ∧
      ((e.ackFollower env queue messageId).1.shards s).seenIds = (e.shards s).seenIds := by
  rw [shards_ackFollower e queue parsed]
  by_cases same : s = shardIdx queue
  · subst same
    rw [shards_setShard, if_pos rfl]
    simp [ShardState.applyAck]
  · rw [shards_setShard_of_ne same, if_neg same]
    exact ⟨rfl, rfl⟩

/-- What a Push does to the messages, the ids seen and the counter: it stores a message when
the id is new and there is room. -/
theorem pushWithUlid_store (env : Env) (e : QueueEngine) (now : Nat) (queue : String) (id : Ulid)
    (payload : List UInt8) (delaySec : Nat) :
    let done := (e.pushWithUlid env now queue id payload delaySec).1
    let stores := id ∉ (e.shards (shardIdx queue)).seenIds ∧ e.Enters now queue id delaySec
    let msg := e.newMsg queue id payload (addU64 now delaySec)
    done.options = e.options ∧
    (∀ s, (done.shards s).seenIds =
      if s = shardIdx queue then insert id (e.shards s).seenIds else (e.shards s).seenIds) ∧
    ((stores ∧ done.totalMessagesInRam = fetchAdd e.totalMessagesInRam 1 ∧
        ∀ s, (done.shards s).messages = if s = shardIdx queue then
          AList.insert id msg (e.shards s).messages else (e.shards s).messages) ∨
      (¬ stores ∧ done.totalMessagesInRam = e.totalMessagesInRam ∧
        ∀ s, (done.shards s).messages = (e.shards s).messages)) := by
  intro done stores msg
  obtain ⟨options, ⟨seen, shards, ram⟩ | ⟨unseen, out, shards, ram⟩ | ⟨unseen, enters, shards, ram⟩⟩ :=
    pushWithUlid_cases env e now queue id payload delaySec
  · refine ⟨options, fun s => ?_, Or.inr ⟨fun h => h.1 seen, ram, fun s => by rw [shards]⟩⟩
    rw [shards]
    split
    · rename_i here
      rw [here, Finset.insert_eq_of_mem seen]
    · rfl
  · refine ⟨options, fun s => ?_, Or.inr ⟨fun h => out h.2, ram, fun s => ?_⟩⟩
    all_goals
      rw [shards]
      by_cases here : s = shardIdx queue
      · subst here
        simp
      · simp [here]
  · refine ⟨options, fun s => ?_, Or.inl ⟨⟨unseen, enters⟩, ram, fun s => ?_⟩⟩
    all_goals
      rw [shards]
      by_cases here : s = shardIdx queue
      · subst here
        rw [shards_setShard, if_pos rfl]
        rfl
      · simp [here]

/-- A Push has the same effect on both. -/
theorem SameStore.pushWithUlid (h : SameStore e e') (env : Env) (now : Nat) (queue : String)
    (id : Ulid) (payload : List UInt8) (delaySec : Nat) :
    SameStore (e.pushWithUlid env now queue id payload delaySec).1
      (e'.pushWithUlid env now queue id payload delaySec).1 := by
  have msg : e'.newMsg queue id payload (addU64 now delaySec) =
      e.newMsg queue id payload (addU64 now delaySec) := by
    unfold newMsg
    rw [h.options]
  obtain ⟨options, seen, outcome⟩ := pushWithUlid_store env e now queue id payload delaySec
  obtain ⟨options', seen', outcome'⟩ := pushWithUlid_store env e' now queue id payload delaySec
  rw [h.seen, h.enters, h.ram] at outcome'
  refine ⟨fun s => ?_, fun s => by rw [seen', seen, h.seen], ?_,
    options'.trans (h.options.trans options.symm)⟩
  · rcases outcome with ⟨stores, _, same⟩ | ⟨skips, _, same⟩ <;>
    rcases outcome' with ⟨stores', _, same'⟩ | ⟨skips', _, same'⟩
    · rw [same, same', h.messages, msg]
    · exact absurd stores skips'
    · exact absurd stores' skips
    · rw [same, same', h.messages]
  · rcases outcome with ⟨stores, ram, _⟩ | ⟨skips, ram, _⟩ <;>
    rcases outcome' with ⟨stores', ram', _⟩ | ⟨skips', ram', _⟩
    · rw [ram, ram']
    · exact absurd stores skips'
    · exact absurd stores' skips
    · rw [ram, ram']

/-- A Push of an id that was seen changes neither messages nor counter. -/
theorem sameStore_push_seen (env : Env) (e : QueueEngine) (now : Nat) (queue : String) {id : Ulid}
    (payload : List UInt8) (delaySec : Nat) (seen : id ∈ (e.shards (shardIdx queue)).seenIds) :
    SameStore e (e.pushWithUlid env now queue id payload delaySec).1 := by
  obtain ⟨options, ids, ⟨stores, _⟩ | ⟨_, ram, messages⟩⟩ :=
    pushWithUlid_store env e now queue id payload delaySec
  · exact absurd seen stores.1
  · refine ⟨messages, fun s => ?_, ram, options⟩
    rw [ids]
    split
    · rename_i here
      rw [here, Finset.insert_eq_of_mem seen]
    · rfl

theorem SameStore.ackFollower (h : SameStore e e') (queue : String) {messageId : String}
    (parsed : parseIdFast env messageId = some id) :
    SameStore (e.ackFollower env queue messageId).1 (e'.ackFollower env queue messageId).1 := by
  obtain ⟨options, ram⟩ := ram_ackFollower e queue parsed
  obtain ⟨options', ram'⟩ := ram_ackFollower e' queue parsed
  refine ⟨fun s => ?_, fun s => ?_, ?_, options'.trans (h.options.trans options.symm)⟩
  · rw [(messages_ackFollower e queue parsed s).1, (messages_ackFollower e' queue parsed s).1,
      h.messages]
  · rw [(messages_ackFollower e queue parsed s).2, (messages_ackFollower e' queue parsed s).2,
      h.seen]
  · rw [ram, ram', h.messages, h.ram]

/-- An Ack of an id without a message changes neither messages nor counter. -/
theorem sameStore_ack_gone (e : QueueEngine) (queue : String) {messageId : String}
    (parsed : parseIdFast env messageId = some id)
    (gone : id ∉ (e.shards (shardIdx queue)).messages) :
    SameStore e (e.ackFollower env queue messageId).1 := by
  obtain ⟨options, ram⟩ := ram_ackFollower e queue parsed
  rw [if_neg gone] at ram
  refine ⟨fun s => ?_, fun s => (messages_ackFollower e queue parsed s).2, ram, options⟩
  rw [(messages_ackFollower e queue parsed s).1]
  split
  · rename_i here
    subst here
    exact FMap.erase_of_notMem gone
  · rfl

/-! ## Commands -/

theorem SameStore.applyAt (h : SameStore e e') (env : Env) (c : Nat × RaftCommand) :
    SameStore (RaftNode.applyAt env e c) (RaftNode.applyAt env e' c) := by
  obtain ⟨now, command⟩ := c
  cases command with
  | push queue msgId payload visibleAt =>
      unfold RaftNode.applyAt
      rw [RaftNode.applyCommand_push, RaftNode.applyCommand_push]
      cases RaftCommand.followerId env msgId with
      | some id => exact h.pushWithUlid env now queue id payload visibleAt
      | none => exact h
  | ack queue msgId receipt =>
      unfold RaftNode.applyAt RaftNode.applyCommand
      cases read : parseIdFast env msgId with
      | some id => exact h.ackFollower queue read
      | none =>
          simp only [QueueEngine.ackFollower, read]
          exact h

theorem SameStore.applyAll (h : SameStore e e') (env : Env) (cs : List (Nat × RaftCommand)) :
    SameStore (cs.foldl (RaftNode.applyAt env) e) (cs.foldl (RaftNode.applyAt env) e') := by
  induction cs generalizing e e' with
  | nil => exact h
  | cons c cs ih => exact ih (h.applyAt env c)

end QueueEngine

namespace RaftNode

open RaftCommand QueueEngine

variable {env : Env} {codec : Postcard} {e e' : QueueEngine}

/-! ## Commands that were applied before -/

/-- The engine has applied the command before: the id it pushes was seen, and the id it acks
was seen and has no message. -/
structure Known (env : Env) (e : QueueEngine) (c : RaftCommand) : Prop where
  pushed : ∀ s m, c.pushes env = some (s, m) → m ∈ (e.shards s).seenIds
  acked : ∀ s m, c.acks env = some (s, m) →
    m ∈ (e.shards s).seenIds ∧ m ∉ (e.shards s).messages

theorem Known.congr {c : RaftCommand} (h : Known env e c) (same : SameStore e e') :
    Known env e' c := by
  constructor
  · intro s m pushes
    rw [same.seen]
    exact h.pushed s m pushes
  · intro s m acks
    rw [same.seen, same.messages]
    exact h.acked s m acks

/-- A command stays known whatever is applied next. -/
theorem Known.applyAt {c : RaftCommand} (h : Known env e c) (next : Nat × RaftCommand) :
    Known env (applyAt env e next) c := by
  constructor
  · intro s m pushes
    exact (applyAt_keyStep env e next s m).seen.2 (Or.inl (h.pushed s m pushes))
  · intro s m acks
    obtain ⟨seen, gone⟩ := h.acked s m acks
    have step := applyAt_keyStep env e next s m
    refine ⟨step.seen.2 (Or.inl seen), fun inside => ?_⟩
    rcases step.origin inside with old | ⟨_, unseen⟩
    · exact gone old
    · exact unseen seen

/-- A command that is applied is known then, when the id it acks was seen. -/
theorem known_applyAt (c : Nat × RaftCommand)
    (order : ∀ s m, c.2.acks env = some (s, m) → m ∈ (e.shards s).seenIds) :
    Known env (applyAt env e c) c.2 := by
  constructor
  · intro s m pushes
    exact (applyAt_keyStep env e c s m).seen.2 (Or.inr pushes)
  · intro s m acks
    have step := applyAt_keyStep env e c s m
    exact ⟨step.seen.2 (Or.inl (order s m acks)), step.gone acks⟩

/-- A known command changes neither messages nor counter. -/
theorem Known.sameStore {c : Nat × RaftCommand} (h : Known env e c.2) :
    SameStore e (RaftNode.applyAt env e c) := by
  obtain ⟨now, command⟩ := c
  cases command with
  | push queue msgId payload visibleAt =>
      unfold RaftNode.applyAt
      rw [applyCommand_push]
      cases read : followerId env msgId with
      | some id =>
          exact sameStore_push_seen env e now queue payload visibleAt
            (h.pushed (shardIdx queue) id (by simp [RaftCommand.pushes, read]))
      | none => exact .refl e
  | ack queue msgId receipt =>
      unfold RaftNode.applyAt applyCommand
      cases read : parseIdFast env msgId with
      | some id =>
          exact sameStore_ack_gone e queue read
            (h.acked (shardIdx queue) id (by simp [RaftCommand.acks, read])).2
      | none =>
          simp only [QueueEngine.ackFollower, read]
          exact .refl e

/-! ## Runs -/

/-- Every Ack comes after a Push of its id. -/
def AcksFollow (env : Env) (commands : List RaftCommand) : Prop :=
  ∀ before c after, commands = before ++ c :: after → ∀ key, c.acks env = some key →
    ∃ c' ∈ before, c'.pushes env = some key

instance (env : Env) (commands : List RaftCommand) : Decidable (AcksFollow env commands) :=
  decidable_of_iff (∀ i, ∀ inside : i < commands.length, ((commands[i].acks env).all fun key =>
      decide (∃ c' ∈ commands.take i, c'.pushes env = some key)) = true) <| by
    constructor
    · rintro each before c after rfl key acks
      have here := each before.length (by simp)
      simpa [acks] using here
    · intro h i inside
      rw [Option.all_eq_true]
      intro key acks
      exact decide_eq_true (h (commands.take i) commands[i] (commands.drop (i + 1)) (by simp) key acks)

theorem AcksFollow.of_append {xs ys : List RaftCommand} (h : AcksFollow env (xs ++ ys)) :
    AcksFollow env xs := by
  rintro before c after rfl key acks
  exact h before c (after ++ ys) (by simp) key acks

/-- Every command of such a run is known at its end. -/
theorem known_foldl (cs : List (Nat × RaftCommand)) (order : AcksFollow env (cs.map Prod.snd))
    (e : QueueEngine) : ∀ c ∈ cs.map Prod.snd, Known env (cs.foldl (applyAt env) e) c := by
  induction cs using List.reverseRecOn with
  | nil => simp
  | append_singleton cs last ih =>
      rw [List.map_append] at order
      have before := ih order.of_append
      intro c inside
      rw [List.foldl_append, List.foldl_cons, List.foldl_nil]
      rw [List.map_append, List.mem_append] at inside
      rcases inside with old | new
      · exact (before c old).applyAt last
      · cases List.mem_singleton.1 new
        refine known_applyAt last fun s m acks => ?_
        obtain ⟨c', earlier, pushes⟩ := order (cs.map Prod.snd) last.2 [] rfl (s, m) acks
        exact (before c' earlier).pushed s m pushes

/-- Commands that are all known change neither messages nor counter. -/
theorem sameStore_foldl_known {cs : List (Nat × RaftCommand)}
    (known : ∀ c ∈ cs, Known env e c.2) : SameStore e (cs.foldl (applyAt env) e) := by
  induction cs generalizing e with
  | nil => exact .refl e
  | cons c cs ih =>
      have here := (known c List.mem_cons_self).sameStore
      exact here.trans (ih fun c' inside => (known c' (.tail c inside)).congr here)

/-- `ys` is `xs` with requests in between whose commands all were applied before: a batch
sent again, the whole log, or any part of it in any batches, at any time. -/
inductive Resends (codec : Postcard) (term : Nat) :
    List (Nat × RaftAppend) → List (Nat × RaftAppend) → Prop
  | nil : Resends codec term [] []
  | first {xs ys} (arrival : Nat × RaftAppend) :
      Resends codec term xs ys → Resends codec term (xs ++ [arrival]) (ys ++ [arrival])
  | again {xs ys} (now : Nat) (request : RaftAppend) :
      Resends codec term xs ys →
      (∀ c ∈ commandsOf codec request, c ∈ (applied codec term xs).map Prod.snd) →
      Resends codec term xs (ys ++ [(now, request)])

theorem Resends.refl (codec : Postcard) (term : Nat) (xs : List (Nat × RaftAppend)) :
    Resends codec term xs xs := by
  induction xs using List.reverseRecOn with
  | nil => exact .nil
  | append_singleton xs arrival ih => exact .first arrival ih

/-- Any number of old requests, one after the other. -/
theorem Resends.again_all {term : Nat} {xs ys : List (Nat × RaftAppend)}
    (h : Resends codec term xs ys) (zs : List (Nat × RaftAppend))
    (old : ∀ z ∈ zs, ∀ c ∈ commandsOf codec z.2, c ∈ (applied codec term xs).map Prod.snd) :
    Resends codec term xs (ys ++ zs) := by
  induction zs generalizing ys with
  | nil => simpa using h
  | cons z zs ih =>
      have next := ih (h.again z.1 z.2 (old z List.mem_cons_self))
        fun z' inside => old z' (.tail z inside)
      simpa using next

theorem applied_append (codec : Postcard) (term : Nat) (xs ys : List (Nat × RaftAppend)) :
    applied codec term (xs ++ ys) = applied codec term xs ++ applied codec term ys := by
  simp [applied]

/-- Batches that arrive again leave the messages and the counter of a follower as they are
without them, when every Ack comes after a Push of its id. -/
theorem resending_harmless (n : RaftNode) {xs ys : List (Nat × RaftAppend)}
    (resends : Resends codec n.currentTerm xs ys)
    (order : AcksFollow env ((applied codec n.currentTerm xs).map Prod.snd)) :
    let e := (n.deliver env codec xs).engine
    let e' := (n.deliver env codec ys).engine
    (∀ s, (e'.shards s).messages = (e.shards s).messages) ∧
      e'.totalMessagesInRam = e.totalMessagesInRam := by
  intro e e'
  have same : SameStore ((applied codec n.currentTerm xs).foldl (applyAt env) n.engine)
      ((applied codec n.currentTerm ys).foldl (applyAt env) n.engine) := by
    clear e e'
    induction resends with
    | nil => exact .refl _
    | first arrival _ ih =>
        rw [applied_append, List.map_append] at order
        rw [applied_append, applied_append, List.foldl_append, List.foldl_append]
        exact (ih order.of_append).applyAll env _
    | again now request _ old ih =>
        have before := ih order
        rw [applied_append, List.foldl_append]
        refine before.trans (sameStore_foldl_known fun c inside => ?_)
        refine Known.congr (known_foldl _ order n.engine c.2 (old c.2 ?_)) before
        simp only [applied, List.mem_flatMap, List.mem_filter, List.mem_singleton,
          List.mem_map] at inside
        obtain ⟨_, ⟨rfl, _⟩, command, member, rfl⟩ := inside
        exact member
  rw [← (n.deliver_engine env codec xs).1, ← (n.deliver_engine env codec ys).1] at same
  exact ⟨same.messages, same.ram⟩

/-- The push and the ack arrive, then another push, then all of it again. -/
theorem resending_harmless_sample :
    let xs := (sampleRequests ++ sampleOther).map (Prod.mk 1600000001)
    let ys := xs ++ (sampleRequests ++ sampleOther).map (Prod.mk 1600000009)
    let e := (sampleFollower.deliver .sample .format xs).engine
    let e' := (sampleFollower.deliver .sample .format ys).engine
    e.totalMessagesInRam = 1 ∧ (∀ s, (e'.shards s).messages = (e.shards s).messages) ∧
      e'.totalMessagesInRam = e.totalMessagesInRam := by
  intro xs ys
  have resends : Resends .format sampleFollower.currentTerm xs ys :=
    (Resends.refl .format _ xs).again_all _ (by decide +kernel)
  exact ⟨by decide +kernel, resending_harmless sampleFollower resends (by decide +kernel)⟩

end RaftNode

end WalrQueue
