import WalrQueue.Location
import WalrQueue.StuckLease

/-!
# The expiry hand-off

A poll takes the messages of expired leases out of `messages` in one section and puts them back
in later ones, with no lock in between.  While such a message is in the hand of the poll, another
poll may find its Push record in the log and take it for one that was spilled.  As long as no
page-in loads a message that a poll has in hand, every interleaving of polls and acks keeps each
message at one point of its life cycle: it has at most one lease, and its delivery count does
not fall.
-/

namespace WalrQueue

open QueueEngine

/-! ## Lives that only go on -/

namespace Life

/-- The second point comes after the first one or is the same: an id does not become fresh
again, a dead one stays dead, and the delivery count does not fall. -/
structure Rises (a b : Life) : Prop where
  known : a ≠ .fresh → b ≠ .fresh
  dead : a = .dead → b = .dead
  count : ∀ msg msg', a.msg? = some msg → b.msg? = some msg' →
    msg.deliveryCount ≤ msg'.deliveryCount

theorem Rises.refl (a : Life) : a.Rises a where
  known := id
  dead := id
  count msg msg' is is' := by
    cases is.symm.trans is'
    exact le_rfl

theorem Rises.trans {a b c : Life} (first : a.Rises b) (second : b.Rises c) : a.Rises c where
  known h := second.known (first.known h)
  dead h := second.dead (first.dead h)
  count msg msg' is is' := by
    -- the point in between has a message, as it is neither fresh nor dead
    cases mid : b.msg? with
    | some msg'' => exact (first.count msg msg'' is mid).trans (second.count msg'' msg' mid is')
    | none =>
        cases b with
        | fresh => exact absurd rfl (first.known fun bad => by rw [bad] at is; cases is)
        | dead =>
            rw [second.dead rfl] at is'
            cases is'
        | pending | leased | inHand => cases mid

theorem Loads.rises {a b : Life} (loads : a.Loads b) : a.Rises b := by
  cases loads with
  | same => exact .refl a
  | load msg zero => exact ⟨fun h => absurd rfl h, (by nofun), (by nofun)⟩

end Life

theorem Tracks.Expires.rises {now : Nat} {m : Ulid} {s : Fin numShards} {taken : List StoredMsg}
    {a b : Life} (h : Tracks.Expires now m s taken a b) : a.Rises b := by
  cases h with
  | kept => exact .refl a
  | expire msg item due here one =>
      refine ⟨fun _ => by nofun, (by nofun), fun msg' msg'' is is' => ?_⟩
      cases is
      cases is'
      exact le_rfl

theorem Tracks.Leases.rises {env : Env} {queue : String} {now timeout : Nat} {m : Ulid}
    {polled : List PolledMessage} {a b : Life}
    (h : Tracks.Leases env queue now timeout m polled a b)
    (counts : ∀ msg, a = .pending msg → msg.deliveryCount + 1 < 2 ^ 32) : a.Rises b := by
  cases h with
  | kept => exact .refl a
  | lease msg item mine isLease one =>
      refine ⟨fun _ => by nofun, (by nofun), fun msg' msg'' is is' => ?_⟩
      cases is
      cases is'
      have next : (ShardState.delivered msg).deliveryCount = msg.deliveryCount + 1 :=
        Nat.mod_eq_of_lt (counts msg rfl)
      omega

/-! ## Sections and the log -/

section Written

variable {e : QueueEngine} {rs : List WalRecord} {msg : StoredMsg}

theorem Written.retireExpired (h : Written e rs) (msg : StoredMsg) :
    Written (e.retireExpired msg) rs := by
  refine h.congr rfl rfl (h.every.setShard fun id msg' found => ?_)
  rw [ShardState.messages_markDeleted] at found
  exact h.every _ id msg' found

theorem Written.requeue (h : Written e rs) (small : msg.payload.length < 2 ^ 32) (now : Nat) :
    Written (e.requeue now msg) rs :=
  h.congr rfl rfl (h.every.setShard ((h.every _).store now ⟨rfl, small⟩))

theorem Written.deadLetter (h : Written e rs) (small : msg.payload.length < 2 ^ 32) (now : Nat) :
    Written (e.deadLetter now msg) rs := by
  refine h.congr rfl rfl (h.every.setShard ?_)
  have seen : ({ e.shards (shardIdx (dlqName msg.queue)) with
      seenIds := insert msg.id (e.shards (shardIdx (dlqName msg.queue))).seenIds } :
        ShardState).Every Filed := h.every _
  exact seen.store now ⟨rfl, small⟩

/-- A paging read returns records of the log and leaves the cursor between two of them. -/
theorem Written.read (h : Written e rs) (env : Env) (limit : Nat) :
    Written { e with spillReadOffset :=
      (e.disk.readEntriesFromOffset env e.spillReadOffset limit).2 } rs ∧
    (e.disk.readEntriesFromOffset env e.spillReadOffset limit).1 <:+: rs := by
  obtain ⟨xs, i, layout, named, rfl⟩ := h.log
  obtain ⟨k, inside, result⟩ := layout.read env limit
  rw [result, named.map_readBack]
  exact ⟨⟨⟨xs, i + k, layout.move inside, named, rfl⟩, h.every.congr rfl⟩,
    (List.take_prefix _ _).isInfix.trans (List.drop_suffix _ _).isInfix⟩

theorem Written.rewind (h : Written e rs) : Written { e with spillReadOffset := 0 } rs := by
  obtain ⟨xs, i, layout, named, eq⟩ := h.log
  exact ⟨⟨xs, 0, layout.rewind, named, eq⟩, h.every.congr rfl⟩

theorem Written.pageInShard (h : Written e rs) {records : List WalRecord}
    (loads : LoadsOnly Filed records) (now added targetAdded : Nat) (targetQueue : String)
    (s : Fin numShards) :
    Written (QueueEngine.pageInShard now targetQueue records ⟨e, added, targetAdded⟩ s).engine
      rs := by
  have loaded : ((e.shards s).loadAll e.options now (shardRecords records s)).Every Filed :=
    List.foldlRecOn (motive := ShardState.Every Filed) _ _ (h.every s)
      fun st kept r inside => kept.load fun id queue visibleAt payload same =>
        loads id queue visibleAt payload (same ▸ List.mem_of_mem_filter inside) _
  have whole : (e.setShard s
      ((e.shards s).loadAll e.options now (shardRecords records s))).Every Filed :=
    h.every.setShard loaded
  refine h.congr rfl rfl (whole.congr ?_)
  rw [← state_pageInRecords _ _ targetQueue _
    ⟨e.shards s, e.totalMessagesInRam, added, targetAdded⟩]
  rfl

end Written

/-! ## What calls have in hand -/

/-- The messages a poll has taken out of memory and not put back. -/
def PollStage.hand : PollStage → List StoredMsg
  | .routing taken => taken
  | .retired msg taken => msg :: taken
  | _ => []

def Call.hand : Call → Multiset StoredMsg
  | .poll c => c.stage.hand
  | .ack _ => 0

/-- The messages in the hands of all calls. -/
def Server.hand (v : Server) : Multiset StoredMsg := (v.calls.map Call.hand).sum

/-- What a poll has done so far still stands: a message between the two locks of the
dead-letter branch is acked where it was, and the chunk of a page-in was read from the log. -/
def PollStage.Stands (e : QueueEngine) (log : Set WalRecord) : PollStage → Prop
  | .retired msg _ => msg.id ∈ (e.shards (shardIdx msg.queue)).ackedIds
  | .paging records .. => (∀ r ∈ records, r ∈ log) ∧ LoadsOnly Filed records
  | _ => True

/-- The same for an ack: a message whose Ack is still to be logged is dead. -/
def AckStage.Stands (lives : Ulid → Life) : AckStage → Prop
  | .acked id => lives id = .dead
  | _ => True

def Call.Stands (e : QueueEngine) (log : Set WalRecord) (lives : Ulid → Life) : Call → Prop
  | .poll c => c.stage.Stands e log
  | .ack c => c.stage.Stands lives

/-- Every id is at a point of its life cycle, with the messages `held` in the hands of polls. -/
structure Handing (home : Ulid → String) (held : Multiset StoredMsg) (e : QueueEngine)
    (rs : List WalRecord) (log : Set WalRecord) (lives : Ulid → Life) : Prop where
  written : Written e rs
  logged : ∀ r ∈ rs, r ∈ log
  small : ∀ msg ∈ held, msg.payload.length < 2 ^ 32
  tracks : ∀ m, Tracks e m (home m) log held (lives m)

/-- A section moves every life on, and leaves the call that ran it where it says. -/
def HandsOn (home : Ulid → String) (others : Multiset StoredMsg) (log : Set WalRecord)
    (lives : Ulid → Life) (e : QueueEngine) (call : Call) : Prop :=
  ∃ rs' log' lives', Handing home (call.hand + others) e rs' log' lives' ∧ log ⊆ log' ∧
    (∀ m, (lives m).Rises (lives' m)) ∧ call.Stands e log' lives'

/-- Every message in memory was delivered fewer than 2^32 - 1 times. -/
def QueueEngine.CountsFit (e : QueueEngine) : Prop :=
  ∀ s, ∀ entry ∈ (e.shards s).messages.entries, entry.2.deliveryCount + 1 < 2 ^ 32

instance (e : QueueEngine) : Decidable e.CountsFit := inferInstanceAs (Decidable (∀ _, _))

/-- The next section of the poll loads no message of the multiset. -/
def PollCall.Spares (e : QueueEngine) (held : Multiset StoredMsg) (c : PollCall) : Prop :=
  match c.stage with
  | .paging records (s :: _) _ _ _ => ∀ msg ∈ held, ∀ r ∈ shardRecords records s,
      ¬ Tracks.Loadable (e.shards s) msg.id c.now r
  | _ => True

instance (e : QueueEngine) (held : Multiset StoredMsg) :
    (c : PollCall) → Decidable (c.Spares e held)
  | ⟨_, _, _, now, .paging records (s :: _) _ _ _⟩ => inferInstanceAs (Decidable
      (∀ msg ∈ held, ∀ r ∈ shardRecords records s, ¬ Tracks.Loadable (e.shards s) msg.id now r))
  | ⟨_, _, _, _, .paging _ [] _ _ _⟩ | ⟨_, _, _, _, .entered⟩ | ⟨_, _, _, _, .routing _⟩
  | ⟨_, _, _, _, .retired _ _⟩ | ⟨_, _, _, _, .reading _⟩ | ⟨_, _, _, _, .claiming⟩
  | ⟨_, _, _, _, .returned _⟩ => isTrue trivial

section Sections

variable {home : Ulid → String} {others : Multiset StoredMsg} {e : QueueEngine}
  {rs : List WalRecord} {log : Set WalRecord} {lives : Ulid → Life} {env : Env}

/-- A section that leaves the shards and the log alone. -/
theorem Handing.congr {held : Multiset StoredMsg} (h : Handing home held e rs log lives)
    {e' : QueueEngine} (written : Written e' rs) (shards : e'.shards = e.shards) :
    Handing home held e' rs log lives :=
  ⟨written, h.logged, h.small, fun m => (h.tracks m).congr shards⟩

/-- A section of a poll with nothing in hand that moves no life. -/
theorem Handing.still (h : Handing home others e rs log lives) (c : PollCall) (stage : PollStage)
    (free : stage.hand = []) (stands : stage.Stands e log) :
    HandsOn home others log lives e (.poll { c with stage := stage }) := by
  have hand : Call.hand (.poll { c with stage := stage }) + others = others := by
    rw [Call.hand, free]
    exact zero_add others
  exact ⟨rs, log, lives, hand.symm ▸ h, subset_rfl, fun _ => .refl _, stands⟩

namespace PollCall

/-- The expiry collection. -/
theorem collect_handsOn {c : PollCall} (h : Handing home others e rs log lives) :
    HandsOn home others log lives (e.collectExpired (shardIdx c.queue) c.now).1
      (.poll { c with stage := .routing (e.collectExpired (shardIdx c.queue) c.now).2 }) := by
  have each := fun m => (h.tracks m).collectExpired (h.written.keyed (shardIdx c.queue)) c.now
  choose lives' expires tracks using each
  obtain ⟨left, taken⟩ := (h.written.every (shardIdx c.queue)).collectExpired c.now
  refine ⟨rs, log, lives', ⟨?_, h.logged, fun msg inside => ?_, fun m => ?_⟩, subset_rfl,
    fun m => (expires m).rises, trivial⟩
  · exact h.written.congr rfl rfl (h.written.every.setShard left)
  · rcases Multiset.mem_add.1 inside with mine | other
    · obtain ⟨id, filed⟩ := taken msg mine
      exact filed.2
    · exact h.small msg other
  · have held := tracks m
    rw [add_comm] at held
    exact held

/-- The claim section. -/
theorem claim_handsOn {c : PollCall} (h : Handing home others e rs log lives)
    (counts : e.CountsFit) :
    HandsOn home others log lives (c.claim env e).1
      (.poll { c with stage := (c.claim env e).2 }) := by
  have each := fun m => (h.tracks m).claimSection env c.queue c.now (e.visibility c.visibilitySec)
    c.maxMessages
  choose lives' leases tracks using each
  have free : Call.hand (.poll { c with stage := (c.claim env e).2 }) + others = others :=
    zero_add others
  refine ⟨rs, log, lives', ⟨h.written.claimSection env c.queue c.now _ c.maxMessages, h.logged,
    fun msg inside => ?_, fun m => ?_⟩, subset_rfl, fun m => (leases m).rises fun msg is => ?_,
    trivial⟩
  · rw [free] at inside
    exact h.small msg inside
  · rw [free]
    exact tracks m
  · have here := ((h.tracks m).shards (shardIdx msg.queue)).msg
    rw [is, Life.status, if_pos rfl] at here
    exact counts _ ⟨m, msg⟩ (AList.mem_lookup_iff.1 here)

/-- The first lock of the dead-letter branch. -/
theorem retire_handsOn {c : PollCall} {msg : StoredMsg} {taken : List StoredMsg}
    (h : Handing home (msg ::ₘ ((taken : Multiset StoredMsg) + others)) e rs log lives) :
    HandsOn home others log lives (e.retireExpired msg)
      (.poll { c with stage := .retired msg taken }) := by
  have inside : msg ∈ ((msg :: taken : List StoredMsg) : Multiset StoredMsg) + others :=
    Multiset.mem_add.2 (Or.inl List.mem_cons_self)
  rw [← Multiset.cons_add] at h
  exact ⟨rs, log, lives, ⟨h.written.retireExpired msg, h.logged, h.small,
    fun m => (h.tracks m).retireExpired inside⟩, subset_rfl, fun _ => .refl _,
    Tracks.acked_retireExpired⟩

/-- A message in hand is stored again. -/
theorem putBack_handsOn {c : PollCall} {msg : StoredMsg} {taken : List StoredMsg}
    {e' : QueueEngine} (msg' : StoredMsg)
    (h : Handing home (msg ::ₘ ((taken : Multiset StoredMsg) + others)) e rs log lives)
    (same : msg'.deliveryCount = msg.deliveryCount) (written : Written e' rs)
    (tracks : ∀ m, Tracks e' m (home m) log ((taken : Multiset StoredMsg) + others)
      (if msg.id = m then .pending msg' else lives m)) :
    HandsOn home others log lives e' (.poll { c with stage := .routing taken }) := by
  refine ⟨rs, log, fun m => if msg.id = m then .pending msg' else lives m,
    ⟨written, h.logged, fun msg'' member => h.small msg'' (Multiset.mem_cons_of_mem member),
      tracks⟩, subset_rfl, fun m => ?_, trivial⟩
  dsimp only
  split
  · rename_i mine
    rw [(h.tracks m).inHand_of_mem (Multiset.mem_cons_self msg _) mine]
    refine ⟨fun _ => by nofun, (by nofun), fun msg₁ msg₂ is is' => ?_⟩
    cases is
    cases is'
    exact same.ge
  · exact .refl _

/-- One shard section of page-in. -/
theorem page_handsOn {c : PollCall} {records : List WalRecord} {s : Fin numShards}
    {left : List (Fin numShards)} {added targetAdded : Nat} {flushed : Bool}
    (h : Handing home others e rs log lives) (logged : ∀ r ∈ records, r ∈ log)
    (filed : LoadsOnly Filed records)
    (spares : ∀ msg ∈ others, ∀ r ∈ shardRecords records s,
      ¬ Tracks.Loadable (e.shards s) msg.id c.now r) (added' targetAdded' : Nat) :
    HandsOn home others log lives
      (QueueEngine.pageInShard c.now c.queue records ⟨e, added, targetAdded⟩ s).engine
      (.poll { c with stage := .paging records left added' targetAdded' flushed }) := by
  have idle : ∀ m, (∃ r ∈ shardRecords records s, Tracks.Loadable (e.shards s) m c.now r) →
      ∀ msg, lives m ≠ .inHand msg := by
    rintro m ⟨r, inside, loadable⟩ msg is
    have held : msg ∈ others.filter fun msg => msg.id = m := by
      rw [(h.tracks m).hand, is]
      exact Multiset.mem_singleton_self msg
    obtain ⟨member, rfl⟩ := Multiset.mem_filter.1 held
    exact spares msg member r inside loadable
  have tracked : ∀ m, Tracks (PageInChunk.mk e added targetAdded).engine m (home m) log others
      (lives m) := h.tracks
  have each := fun m => (tracked m).pageInShard c.now (idle m) logged c.queue
  choose lives' loads tracks using each
  have free : Call.hand (.poll { c with
      stage := .paging records left added' targetAdded' flushed }) + others = others :=
    zero_add others
  refine ⟨rs, log, lives', ⟨h.written.pageInShard filed c.now added targetAdded c.queue s,
    h.logged, fun msg inside => ?_, fun m => ?_⟩, subset_rfl, fun m => (loads m).rises,
    logged, filed⟩
  · rw [free] at inside
    exact h.small msg inside
  · rw [free]
    exact tracks m

/-- Every section of a poll that loads no message another poll has in hand. -/
theorem resume_handsOn {c : PollCall}
    (h : Handing home ((c.stage.hand : Multiset StoredMsg) + others) e rs log lives)
    (stands : c.stage.Stands e log)
    (spares : c.Spares e ((c.stage.hand : Multiset StoredMsg) + others)) (counts : e.CountsFit) :
    HandsOn home others log lives (c.resume env e).1
      (.poll { c with stage := (c.resume env e).2 }) := by
  unfold PollCall.resume
  unfold PollCall.Spares at spares
  cases is : c.stage with
  | entered =>
      rw [is] at h
      exact collect_handsOn (zero_add others ▸ h)
  | routing taken =>
      rw [is] at h
      cases taken with
      | nil =>
          have free : Handing home others e rs log lives := zero_add others ▸ h
          dsimp only
          split
          · exact free.still c (.reading false) rfl trivial
          · exact claim_handsOn free counts
      | cons msg taken =>
          have held : Handing home (msg ::ₘ ((taken : Multiset StoredMsg) + others)) e rs log
              lives := Multiset.cons_add msg (taken : Multiset StoredMsg) others ▸ h
          dsimp only
          split
          · exact retire_handsOn held
          · have small := held.small msg (Multiset.mem_cons_self msg _)
            exact putBack_handsOn { msg with visibleAt := c.now } held rfl
              (h.written.requeue small c.now) fun m => Tracks.requeue (held.tracks m) c.now
  | retired msg taken =>
      rw [is] at h stands
      have held : Handing home (msg ::ₘ ((taken : Multiset StoredMsg) + others)) e rs log lives :=
        Multiset.cons_add msg (taken : Multiset StoredMsg) others ▸ h
      have small := held.small msg (Multiset.mem_cons_self msg _)
      exact putBack_handsOn { msg with queue := dlqName msg.queue, visibleAt := c.now } held rfl
        (h.written.deadLetter small c.now) fun m => Tracks.deadLetter (held.tracks m) c.now stands
  | reading flushed =>
      rw [is] at h
      have free : Handing home others e rs log lives := zero_add others ▸ h
      obtain ⟨moved, read⟩ := free.written.read env c.fetchLimit
      have stepped := free.congr moved rfl
      dsimp only
      split
      · split
        · exact stepped.still c (.paging _ _ _ _ _) rfl
            ⟨fun r inside => free.logged r (read.subset inside), free.written.loadsOnly read⟩
        · exact stepped.still c (.reading flushed) rfl trivial
      · split
        · split
          · exact (free.congr free.written.rewind rfl).still c .claiming rfl trivial
          · exact free.still c .claiming rfl trivial
        · exact free.still c (.reading true) rfl trivial
  | paging records left added targetAdded flushed =>
      rw [is] at h stands spares
      have free : Handing home others e rs log lives := zero_add others ▸ h
      cases left with
      | nil =>
          have counted : Written { e with
              totalMessagesInRam := fetchAdd e.totalMessagesInRam added } rs :=
            free.written.congr rfl rfl (free.written.every.congr rfl)
          have stepped := free.congr counted rfl
          dsimp only
          split
          · exact stepped.still c .claiming rfl trivial
          · exact stepped.still c (.reading flushed) rfl trivial
      | cons s left =>
          refine page_handsOn free stands.1 stands.2 (fun msg inside => spares msg ?_) _ _
          exact Multiset.mem_add.2 (Or.inr inside)
  | claiming =>
      rw [is] at h
      exact claim_handsOn (zero_add others ▸ h) counts
  | returned polled =>
      rw [is] at h
      have free : Handing home others e rs log lives := zero_add others ▸ h
      exact free.still c (.returned polled) rfl trivial

/-- No section of a poll forgets an ack. -/
theorem acked_resume (env : Env) (e : QueueEngine) (c : PollCall) {s : Fin numShards} {id : Ulid}
    (acked : id ∈ (e.shards s).ackedIds) : id ∈ ((c.resume env e).1.shards s).ackedIds := by
  have claim : id ∈ ((c.claim env e).1.shards s).ackedIds := by
    unfold PollCall.claim QueueEngine.claimSection
    dsimp only
    split
    · exact acked_setShard (fun old => old) acked
    · exact acked
  unfold PollCall.resume
  cases c.stage with
  | entered => exact acked_setShard (fun old => old) acked
  | routing taken =>
      cases taken with
      | nil =>
          dsimp only
          split
          · exact acked
          · exact claim
      | cons msg taken =>
          dsimp only
          split
          · exact acked_setShard (fun old => by simp [old]) acked
          · exact acked_setShard (fun old => old) acked
  | retired msg taken => exact acked_setShard (fun old => old) acked
  | reading flushed =>
      dsimp only
      split
      · split <;> exact acked
      · split
        · split <;> exact acked
        · exact acked
  | paging records left added targetAdded flushed =>
      cases left with
      | nil =>
          dsimp only
          split <;> exact acked
      | cons s left =>
          refine acked_setShard (fun old => ?_) acked
          exact List.foldlRecOn (motive := fun acc : PageIn => id ∈ acc.state.ackedIds) _ _ old
            fun acc kept r _ => Tracks.acked_pageInRecord e.options c.now c.queue acc r kept
  | claiming => exact claim
  | returned polled => exact acked

end PollCall

namespace AckCall

/-- The locked section. -/
theorem lock_handsOn {c : AckCall} (h : Handing home others e rs log lives) (id : Ulid) :
    HandsOn home others log lives (c.locked e id).1
      (.ack { c with stage := (c.locked e id).2 }) := by
  unfold AckCall.locked
  cases valid : (e.shards (shardIdx c.queue)).ackLease c.queue id c.receipt with
  | none =>
      exact ⟨rs, log, lives, (zero_add others).symm ▸ h, subset_rfl, fun _ => .refl _, trivial⟩
  | some done =>
      have written : Written { e.setShard (shardIdx c.queue) done.1 with
          totalMessagesInRam := if done.2 then fetchSub e.totalMessagesInRam 1
            else e.totalMessagesInRam } rs :=
        h.written.congr rfl rfl (Every.congr (h.written.every.setShard (s := shardIdx c.queue)
          ((h.written.every _).ackLease valid)) rfl)
      refine ⟨rs, log, Function.update lives id .dead, ⟨written, h.logged, ?_, fun m => ?_⟩,
        subset_rfl, fun m => ?_, Function.update_self ..⟩
      · rw [show Call.hand (.ack { c with stage := .acked id }) = 0 from rfl, zero_add]
        exact h.small
      · rw [show Call.hand (.ack { c with stage := .acked id }) = 0 from rfl, zero_add]
        by_cases same : m = id
        · subst same
          rw [Function.update_self]
          rcases (h.tracks m).ackLease_eq c.queue c.receipt with ⟨accepts, eq⟩ | ⟨_, eq⟩
          · rw [valid] at eq
            cases eq
            exact ((h.tracks m).acked accepts).congr rfl
          · rw [valid] at eq
            cases eq
        · rw [Function.update_of_ne same]
          exact ((h.tracks m).ackLease_of_ne valid (Ne.symm same)).congr rfl
      · by_cases same : m = id
        · rw [same, Function.update_self]
          exact ⟨fun _ => by nofun, fun _ => rfl, fun _ _ _ bad => by cases bad⟩
        · rw [Function.update_of_ne same]
          exact .refl _

theorem resume_handsOn {c : AckCall} (h : Handing home others e rs log lives)
    (stands : c.stage.Stands lives) (few : (c.resume env e).1.names.length ≤ 65536) :
    HandsOn home others log lives (c.resume env e).1
      (.ack { c with stage := (c.resume env e).2 }) := by
  have held : 0 + others = others := zero_add others
  unfold AckCall.resume at few ⊢
  cases is : c.stage with
  | entered =>
      dsimp only
      split
      · exact ⟨rs, log, lives, held.symm ▸ h, subset_rfl, fun _ => .refl _, trivial⟩
      · exact lock_handsOn h _
  | acked id =>
      rw [is] at few stands
      have written : Written { e with disk := e.disk.append (.ack id c.queue) }
          (rs ++ [.ack id c.queue]) :=
        h.written.append (r := .ack id c.queue) trivial rfl rfl (h.written.every.congr rfl) few
      refine ⟨_, insert (.ack id c.queue) log, lives, ⟨written, fun r inside => ?_,
        held.symm ▸ h.small, fun m => held.symm ▸ ?_⟩, Set.subset_insert _ _, fun _ => .refl _,
        trivial⟩
      · rcases List.mem_append.1 inside with old | new
        · exact Set.mem_insert_of_mem _ (h.logged r old)
        · rw [List.mem_singleton.1 new]
          exact Set.mem_insert _ _
      · exact ((h.tracks m).logAck fun same => same ▸ stands).congr rfl
  | logged =>
      rw [is] at few
      refine ⟨_, log ∪ {r | r ∈ e.survivors env}, lives,
        ⟨h.written.checkAndTriggerCompaction env few, fun r inside => ?_, held.symm ▸ h.small,
          fun m => held.symm ▸ ?_⟩, Set.subset_union_left, fun _ => .refl _, trivial⟩
      · unfold QueueEngine.checkedLog at inside
        split at inside
        · exact Or.inr inside
        · exact Or.inl (h.logged r inside)
      · exact ((h.tracks m).logSurvivors env).congr (shards_checkAndTriggerCompaction env e)
  | returned success =>
      exact ⟨rs, log, lives, held.symm ▸ h, subset_rfl, fun _ => .refl _, trivial⟩

/-- No section of an ack forgets an ack. -/
theorem acked_resume (env : Env) (e : QueueEngine) (c : AckCall) {s : Fin numShards} {id : Ulid}
    (acked : id ∈ (e.shards s).ackedIds) : id ∈ ((c.resume env e).1.shards s).ackedIds := by
  unfold AckCall.resume
  cases c.stage with
  | entered =>
      dsimp only
      split
      · exact acked
      · rename_i id' _
        unfold AckCall.locked
        cases valid : (e.shards (shardIdx c.queue)).ackLease c.queue id' c.receipt with
        | none => exact acked
        | some done =>
            refine acked_setShard (fun old => ?_) acked
            rw [(ShardState.ackLease_messages valid).2]
            exact Finset.mem_insert_of_mem old
  | acked id' => exact acked
  | logged =>
      dsimp only
      rw [shards_checkAndTriggerCompaction]
      exact acked
  | returned success => exact acked

end AckCall

end Sections

/-! ## Servers -/

/-- A call stands while acks are kept, the log grows and lives go on. -/
theorem Call.Stands.mono {e e' : QueueEngine} {log log' : Set WalRecord}
    {lives lives' : Ulid → Life} {call : Call} (h : call.Stands e log lives)
    (acked : ∀ s, ∀ id ∈ (e.shards s).ackedIds, id ∈ (e'.shards s).ackedIds) (more : log ⊆ log')
    (rises : ∀ m, (lives m).Rises (lives' m)) : call.Stands e' log' lives' := by
  cases call with
  | poll c =>
      have h : c.stage.Stands e log := h
      show c.stage.Stands e' log'
      cases is : c.stage with
      | retired msg taken =>
          rw [is] at h
          exact acked _ _ h
      | paging records left added targetAdded flushed =>
          rw [is] at h
          exact ⟨fun r inside => more (h.1 r inside), h.2⟩
      | entered | routing | reading | claiming | returned => exact trivial
  | ack c =>
      have h : c.stage.Stands lives := h
      show c.stage.Stands lives'
      cases is : c.stage with
      | acked id =>
          rw [is] at h
          exact (rises id).dead h
      | entered | logged | returned => exact trivial

/-- No section of a call drops a queue name. -/
theorem Call.names_resume (env : Env) (e : QueueEngine) (call : Call) :
    e.names <+: (call.resume env e).1.names := by
  cases call with
  | poll c =>
      have disk : (c.resume env e).1.disk = e.disk := by
        have claim : (c.claim env e).1.disk = e.disk := (disk_claimSection env e _ _ _ _).1
        unfold PollCall.resume
        cases c.stage with
        | routing taken =>
            cases taken with
            | nil =>
                dsimp only
                split
                · rfl
                · exact claim
            | cons msg taken =>
                dsimp only
                split <;> rfl
        | reading flushed =>
            dsimp only
            split
            · split <;> rfl
            · split
              · split <;> rfl
              · rfl
        | paging records left added targetAdded flushed =>
            cases left with
            | nil =>
                dsimp only
                split <;> rfl
            | cons s left => rfl
        | claiming => exact claim
        | entered | retired | returned => rfl
      show e.names <+: (c.resume env e).1.names
      rw [names, names, disk]
  | ack c =>
      show e.names <+: (c.resume env e).1.names
      unfold AckCall.resume
      cases c.stage with
      | entered =>
          dsimp only
          split
          · exact List.prefix_rfl
          · unfold AckCall.locked
            split <;> exact List.prefix_rfl
      | acked id => exact DiskLog.names_append
      | logged => exact names_checkAndTriggerCompaction env e
      | returned success => exact List.prefix_rfl

namespace Server

/-- The action is no section that loads a message which a poll has in hand. -/
def Spares (v : Server) (a : Action) : Prop :=
  match v.resumed a with
  | some (.poll c) => c.Spares v.engine v.hand
  | _ => True

instance (v : Server) (a : Action) : Decidable (v.Spares a) := by
  unfold Server.Spares
  split <;> infer_instance

/-- What is asked of the actions of an interleaving. -/
structure Careful (v : Server) (a : Action) : Prop where
  spares : v.Spares a
  counts : v.engine.CountsFit

instance (v : Server) (a : Action) : Decidable (v.Careful a) :=
  decidable_of_iff (v.Spares a ∧ v.engine.CountsFit)
    ⟨fun h => ⟨h.1, h.2⟩, fun h => ⟨h.spares, h.counts⟩⟩

/-- Every id is at a point of its life cycle, and every call stands where it says. -/
structure Safe (home : Ulid → String) (v : Server) (rs : List WalRecord) (log : Set WalRecord)
    (lives : Ulid → Life) : Prop where
  handing : Handing home v.hand v.engine rs log lives
  stands : ∀ call ∈ v.calls, call.Stands v.engine log lives

variable {home : Ulid → String} {v : Server} {a : Action} {rs : List WalRecord}
  {log : Set WalRecord} {lives : Ulid → Life} {env : Env}

/-- The hand of one call and those of the others. -/
theorem hand_split {calls : List Call} {i : Nat} {call : Call} (found : calls[i]? = some call) :
    ∃ others : Multiset StoredMsg, (calls.map Call.hand).sum = call.hand + others ∧
      ∀ call', ((calls.set i call').map Call.hand).sum = call'.hand + others := by
  induction calls generalizing i with
  | nil => cases found
  | cons first calls ih =>
      cases i with
      | zero =>
          cases found
          exact ⟨(calls.map Call.hand).sum, by simp, fun call' => by simp⟩
      | succ i =>
          obtain ⟨others, all, after⟩ := ih found
          refine ⟨first.hand + others, ?_, fun call' => ?_⟩
          · rw [List.map_cons, List.sum_cons, all, add_left_comm]
          · rw [List.set_cons_succ, List.map_cons, List.sum_cons, after, add_left_comm]

/-- Every careful action moves every life on. -/
theorem Safe.step (h : Safe home v rs log lives) (careful : v.Careful a)
    (few : (v.step env a).engine.names.length ≤ 65536) :
    ∃ rs' log' lives', Safe home (v.step env a) rs' log' lives' ∧
      ∀ m, (lives m).Rises (lives' m) := by
  have still : ∀ call : Call, call.hand = 0 → (∀ log lives, call.Stands v.engine log lives) →
      Safe home { v with calls := v.calls ++ [call] } rs log lives := by
    intro call free stands
    refine ⟨?_, fun call' inside => ?_⟩
    · have hand : Server.hand { v with calls := v.calls ++ [call] } = v.hand := by
        simp [Server.hand, free]
      rw [hand]
      exact h.handing
    · rcases List.mem_append.1 inside with old | new
      · exact h.stands call' old
      · rw [List.mem_singleton.1 new]
        exact stands log lives
  cases a with
  | tick seconds => exact ⟨rs, log, lives, ⟨h.handing, h.stands⟩, fun _ => .refl _⟩
  | poll queue visibilitySec maxMessages =>
      exact ⟨rs, log, lives, still _ rfl fun _ _ => trivial, fun _ => .refl _⟩
  | ack queue messageId receipt =>
      exact ⟨rs, log, lives, still _ rfl fun _ _ => trivial, fun _ => .refl _⟩
  | resume i =>
      cases found : v.calls[i]? with
      | none =>
          have same : v.step env (.resume i) = v := by simp only [Server.step, found]
          rw [same]
          exact ⟨rs, log, lives, h, fun _ => .refl _⟩
      | some call =>
          have engine : (v.step env (.resume i)).engine = (call.resume env v.engine).1 := by
            simp only [Server.step, found]
          have calls : (v.step env (.resume i)).calls =
              v.calls.set i (call.resume env v.engine).2 := by
            simp only [Server.step, found]
          obtain ⟨others, all, after⟩ := hand_split found
          have all : v.hand = call.hand + others := all
          have handing := h.handing
          rw [all] at handing
          have stands := h.stands call (List.mem_of_getElem? found)
          have spares := careful.spares
          unfold Server.Spares at spares
          rw [show v.resumed (.resume i) = some call from found, all] at spares
          rw [engine] at few
          have next : HandsOn home others log lives (call.resume env v.engine).1
              (call.resume env v.engine).2 := by
            cases call with
            | poll c => exact PollCall.resume_handsOn handing stands spares careful.counts
            | ack c =>
                have handing : Handing home others v.engine rs log lives :=
                  zero_add others ▸ handing
                exact AckCall.resume_handsOn handing stands few
          have acked : ∀ s, ∀ id ∈ (v.engine.shards s).ackedIds,
              id ∈ ((call.resume env v.engine).1.shards s).ackedIds := by
            intro s id old
            cases call with
            | poll c => exact c.acked_resume env v.engine old
            | ack c => exact c.acked_resume env v.engine old
          obtain ⟨rs', log', lives', handing', more, rises, stands'⟩ := next
          refine ⟨rs', log', lives', ⟨?_, fun call' inside => ?_⟩, rises⟩
          · rw [Server.hand, calls, after, engine]
            exact handing'
          · rw [calls] at inside
            rw [engine]
            rcases List.mem_or_eq_of_mem_set inside with old | rfl
            · exact (h.stands call' old).mono acked more rises
            · exact stands'

theorem names_step (env : Env) (v : Server) (a : Action) :
    v.engine.names <+: (v.step env a).engine.names := by
  cases a with
  | tick | poll | ack => exact List.prefix_rfl
  | resume i =>
      cases found : v.calls[i]? with
      | none =>
          simp only [Server.step, found]
          exact List.prefix_rfl
      | some call =>
          simp only [Server.step, found]
          exact call.names_resume env v.engine

theorem names_run (env : Env) (v : Server) (actions : List Action) :
    v.engine.names <+: (actions.foldl (Server.step env) v).engine.names := by
  induction actions generalizing v with
  | nil => exact List.prefix_rfl
  | cons a actions ih => exact (names_step env v a).trans (ih _)

theorem Safe.run {actions : List Action} (h : Safe home v rs log lives)
    (careful : Trace.Along (Server.step env) Careful v actions)
    (few : (actions.foldl (Server.step env) v).engine.names.length ≤ 65536) :
    ∃ rs' log' lives', Safe home (actions.foldl (Server.step env) v) rs' log' lives' ∧
      ∀ m, (lives m).Rises (lives' m) := by
  induction actions generalizing v rs log lives with
  | nil => exact ⟨rs, log, lives, h, fun _ => .refl _⟩
  | cons a actions ih =>
      obtain ⟨rs₁, log₁, lives₁, next, rises⟩ :=
        h.step careful.1 ((names_run env _ actions).length_le.trans few)
      obtain ⟨rs₂, log₂, lives₂, last, later⟩ := ih next careful.2 few
      exact ⟨rs₂, log₂, lives₂, last, fun m => (rises m).trans (later m)⟩

/-- A sequential run ends in a safe server. -/
theorem safe_serve {opts : QueueOptions} {clock : Nat} {ops : List Op}
    (ordinary : Trace.Along (World.step env) (Ordinary home env) (World.fresh env opts clock) ops)
    (few : ((World.fresh env opts clock).run env ops).engine.names.length ≤ 65536) :
    ∃ rs log lives, Safe home ((World.fresh env opts clock).run env ops).serve rs log lives := by
  obtain ⟨rs, log, lives, sound, _⟩ := World.sound_run_with (I := fun _ _ => True) trivial
    (fun _ _ _ _ _ _ => trivial) (ordinary.imp fun _ _ h => h.all Set.univ) few
  exact ⟨rs, log, lives, ⟨⟨sound.written, sound.logged, by nofun,
    fun m => sound.tracks m (Set.mem_univ m)⟩, by nofun⟩⟩

/-- The id has no lease, or one in one shard. -/
def OneLease (v : Server) (m : Ulid) : Prop :=
  (∀ s, (v.engine.wheels s).Unleased m) ∨
    ∃ s item, (v.engine.wheels s).Leased m item ∧ ∀ s', s' ≠ s → (v.engine.wheels s').Unleased m

/-- A copy of the message of an id, in memory or in the hand of a poll. -/
def Copy (v : Server) (m : Ulid) (msg : StoredMsg) : Prop :=
  (∃ s, AList.lookup m (v.engine.shards s).messages = some msg) ∨ (msg ∈ v.hand ∧ msg.id = m)

theorem Safe.oneLease (h : Safe home v rs log lives) (m : Ulid) : v.OneLease m := by
  have each := fun s => ((h.handing.tracks m).shards s).lease
  cases is : lives m with
  | leased msg item =>
      rw [is] at each
      refine Or.inr ⟨shardIdx msg.queue, item, ?_, fun s other => ?_⟩
      · have here := each (shardIdx msg.queue)
        rw [Life.status, if_pos rfl] at here
        exact here
      · have here := each s
        rw [Life.status, if_neg other] at here
        exact here
  | pending msg =>
      rw [is] at each
      refine Or.inl fun s => ?_
      have here := each s
      rw [Life.status] at here
      split at here <;> exact here
  | fresh | inHand | dead =>
      rw [is] at each
      exact Or.inl each

theorem Safe.copy (h : Safe home v rs log lives) {m : Ulid} {msg : StoredMsg}
    (copy : v.Copy m msg) : (lives m).msg? = some msg := by
  rcases copy with ⟨s, found⟩ | ⟨held, mine⟩
  · exact ((h.handing.tracks m).queue_of_lookup found).1
  · rw [(h.handing.tracks m).inHand_of_mem held mine]
    rfl

end Server

/-! ## Interleavings -/

/-- In every interleaving of polls and acks after a sequential run, as long as no section of a
page-in loads a message that a poll has in hand, every message has at most one lease, and its
delivery count does not fall. -/
theorem Server.handOff_safe {home : Ulid → String} {env : Env} {opts : QueueOptions}
    {clock : Nat} {ops : List Op} {before after : List Action}
    (ordinary : Trace.Along (World.step env) (Ordinary home env) (World.fresh env opts clock) ops)
    (careful : Trace.Along (Server.step env) Careful
      ((World.fresh env opts clock).run env ops).serve (before ++ after)) :
    let u := before.foldl (Server.step env) ((World.fresh env opts clock).run env ops).serve
    let v := after.foldl (Server.step env) u
    v.engine.names.length ≤ 65536 →
      (∀ m, v.OneLease m) ∧
      ∀ m msg msg', u.Copy m msg → v.Copy m msg' → msg.deliveryCount ≤ msg'.deliveryCount := by
  intro u v few
  have fewBefore : u.engine.names.length ≤ 65536 := (names_run env u after).length_le.trans few
  have fewStart := (names_run env ((World.fresh env opts clock).run env ops).serve before).length_le
  obtain ⟨rs, log, lives, start⟩ := safe_serve ordinary (fewStart.trans fewBefore)
  obtain ⟨first, second⟩ := Trace.along_append.1 careful
  obtain ⟨rs₁, log₁, lives₁, mid, _⟩ := start.run first fewBefore
  obtain ⟨rs₂, log₂, lives₂, last, rises⟩ := mid.run second few
  refine ⟨last.oneLease, fun m msg msg' copy copy' => ?_⟩
  exact (rises m).count msg msg' (mid.copy copy) (last.copy copy')

/-- One message, delivered once, whose lease has expired. -/
def expiredOps : List Op := [.push "jobs" 1 [7] 0, .poll "jobs" 30 1, .advance 31]

/-- Two polls, of which the first has taken the message. -/
def rivalPolls : List Action := [.poll "jobs" 30 1, .poll "jobs" 30 1, .resume 0]

/-- The server after them and more actions. -/
def rivalServer (actions : List Action) : Server :=
  (rivalPolls ++ actions).foldl (Server.step .sample)
    ((World.fresh .sample .default 1600000000).run .sample expiredOps).serve

/-- The second poll runs to its end before the first puts the message back: it pages the
message in with no delivery counted, and both polls lease it. -/
theorem Server.handOff_doubled :
    let v := rivalServer (List.replicate 36 (.resume 1))
    let last := rivalServer (List.replicate 37 (.resume 1) ++ List.replicate 5 (.resume 0))
    (rivalServer []).Copy 1 ⟨1, "jobs", [7], 1600000000, 1, 3⟩ ∧
      v.Copy 1 ⟨1, "jobs", [7], 1600000000, 0, 3⟩ ∧ last.clock = 1600000031 ∧
      TimerWheel.itemsOf 1
        ((last.engine.wheels (shardIdx "jobs")).slots (1600000061 % 3600)) =
        [⟨1, "jobs", ulidText (Env.sample.ulidNew 3), 1600000061⟩,
          ⟨1, "jobs", ulidText (Env.sample.ulidNew 5), 1600000061⟩] := by
  refine ⟨Or.inr ?_, Or.inl ⟨shardIdx "jobs", ?_⟩, rfl, ?_⟩
  · decide +kernel
  · decide +kernel
  · decide +kernel

/-- The second poll reads the log while the message is in the hand of the first. -/
def readingPoll : List Action := rivalPolls ++ List.replicate 10 (.resume 1)

/-- The first poll puts the message back before the section of its shard, and both run to
their ends. -/
def bothReturn : List Action :=
  .resume 0 :: List.replicate 27 (.resume 1) ++ List.replicate 5 (.resume 0)

theorem Server.handOff_safe_sample :
    let u := readingPoll.foldl (Server.step .sample)
      ((World.fresh .sample .default 1600000000).run .sample expiredOps).serve
    let v := bothReturn.foldl (Server.step .sample) u
    u.Copy 1 ⟨1, "jobs", [7], 1600000000, 1, 3⟩ ∧ v.Copy 1 ⟨1, "jobs", [7], 1600000031, 2, 3⟩ ∧
      v.OneLease 1 := by
  have ordinary : Trace.Along (World.step .sample) (Ordinary (fun _ => "jobs") .sample)
      (World.fresh .sample .default 1600000000) expiredOps := by decide +kernel
  have careful : Trace.Along (Server.step .sample) Careful
      ((World.fresh .sample .default 1600000000).run .sample expiredOps).serve
      (readingPoll ++ bothReturn) := by decide +kernel
  have few : (bothReturn.foldl (Server.step .sample) (readingPoll.foldl (Server.step .sample)
      ((World.fresh .sample .default 1600000000).run .sample expiredOps).serve)).engine.names.length
        ≤ 65536 := by decide +kernel
  refine ⟨Or.inr ?_, Or.inl ⟨shardIdx "jobs", ?_⟩, ?_⟩
  · decide +kernel
  · decide +kernel
  · exact (Server.handOff_safe ordinary careful few).1 1

end WalrQueue
