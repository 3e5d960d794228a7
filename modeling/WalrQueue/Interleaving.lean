import WalrQueue.EngineFrames
import WalrQueue.Run

/-!
# Interleaved calls

A server runs `poll` and `ack` calls at once.  A call is a list of sections, each of
which holds one shard lock, reads the log, or writes it; an action starts a call,
moves the clock, or lets one call run its next section.  A poll reads the clock once,
when it starts.
-/

namespace WalrQueue

/-! ## Calls -/

/-- Where a poll stands: the section it runs next and what it carries there. -/
inductive PollStage where
  /-- The expiry collection. -/
  | entered
  /-- Expired messages to put back; with none left, the prefetch test. -/
  | routing (taken : List StoredMsg)
  /-- Between the two locks of the dead-letter branch. -/
  | retired (msg : StoredMsg) (taken : List StoredMsg)
  /-- The read of the next chunk of the log. -/
  | reading (flushed : Bool)
  /-- The shard sections left for a chunk. -/
  | paging (records : List WalRecord) (left : List (Fin numShards)) (added targetAdded : Nat)
      (flushed : Bool)
  /-- The claim section. -/
  | claiming
  | returned (polled : List PolledMessage)
  deriving DecidableEq

/-- A `poll` call; `now` is the clock when it started. -/
structure PollCall where
  queue : String
  visibilitySec : Nat
  maxMessages : Nat
  now : Nat
  stage : PollStage
  deriving DecidableEq

/-- Where an ack stands. -/
inductive AckStage where
  /-- The locked section. -/
  | entered
  /-- The append of the Ack record. -/
  | acked (id : Ulid)
  /-- The compaction check. -/
  | logged
  | returned (success : Bool)
  deriving DecidableEq

/-- An `ack` call. -/
structure AckCall where
  queue : String
  messageId : String
  receipt : String
  stage : AckStage
  deriving DecidableEq

inductive Call where
  | poll (call : PollCall)
  | ack (call : AckCall)
  deriving DecidableEq

namespace PollCall

/-- The chunk size of its page-in. -/
def fetchLimit (c : PollCall) : Nat := max (QueueEngine.prefetchThreshold c.maxMessages) 1000

/-- The claim section. -/
def claim (env : Env) (e : QueueEngine) (c : PollCall) : QueueEngine × PollStage :=
  let claimed := e.claimSection env c.queue c.now (e.visibility c.visibilitySec) c.maxMessages
  (claimed.1, .returned claimed.2)

/-- The next section of a poll.  The prefetch test and the claim section share one
lock when there is nothing to page in. -/
def resume (env : Env) (e : QueueEngine) (c : PollCall) : QueueEngine × PollStage :=
  match c.stage with
  | .entered =>
      let collected := e.collectExpired (shardIdx c.queue) c.now
      (collected.1, .routing collected.2)
  | .routing [] =>
      if e.needsPageIn c.queue (QueueEngine.prefetchThreshold c.maxMessages) then
        (e, .reading false)
      else c.claim env e
  | .routing (msg :: taken) =>
      if msg.maxDelivery ≤ msg.deliveryCount then (e.retireExpired msg, .retired msg taken)
      else (e.requeue c.now msg, .routing taken)
  | .retired msg taken => (e.deadLetter c.now msg, .routing taken)
  | .reading flushed =>
      let read := e.disk.readEntriesFromOffset env e.spillReadOffset c.fetchLimit
      if read.1 ≠ [] then
        let e := { e with spillReadOffset := read.2 }
        if read.1.any WalRecord.isPush then
          (e, .paging read.1 (List.finRange numShards) 0 0 flushed)
        else (e, .reading flushed)
      else if flushed then
        (if 0 < read.2 then { e with spillReadOffset := 0 } else e, .claiming)
      else (e, .reading true)
  | .paging records (s :: left) added targetAdded flushed =>
      let acc := QueueEngine.pageInShard c.now c.queue records ⟨e, added, targetAdded⟩ s
      (acc.engine, .paging records left acc.added acc.targetAdded flushed)
  | .paging _ [] added targetAdded flushed =>
      let e := { e with totalMessagesInRam := fetchAdd e.totalMessagesInRam added }
      if 0 < targetAdded ∨ e.options.maxHotMessagesInRam ≤ e.totalMessagesInRam then
        (e, .claiming)
      else (e, .reading flushed)
  | .claiming => c.claim env e
  | .returned polled => (e, .returned polled)

end PollCall

namespace AckCall

/-- The locked section for an id that parses, and the stage after it. -/
def locked (e : QueueEngine) (c : AckCall) (id : Ulid) : QueueEngine × AckStage :=
  match (e.shards (shardIdx c.queue)).ackLease c.queue id c.receipt with
  | none => (e, .returned false)
  | some (st, wasLive) =>
      let e := e.setShard (shardIdx c.queue) st
      ({ e with totalMessagesInRam :=
          if wasLive then fetchSub e.totalMessagesInRam 1 else e.totalMessagesInRam }, .acked id)

/-- The next section of an ack. -/
def resume (env : Env) (e : QueueEngine) (c : AckCall) : QueueEngine × AckStage :=
  match c.stage with
  | .entered =>
      match QueueEngine.parseIdFast env c.messageId with
      | none => (e, .returned false)
      | some id => c.locked e id
  | .acked id => ({ e with disk := e.disk.append (.ack id c.queue) }, .logged)
  | .logged => (e.checkAndTriggerCompaction env, .returned true)
  | .returned success => (e, .returned success)

end AckCall

/-- The next section of a call. -/
def Call.resume (env : Env) (e : QueueEngine) : Call → QueueEngine × Call
  | .poll c => ((c.resume env e).1, .poll { c with stage := (c.resume env e).2 })
  | .ack c => ((c.resume env e).1, .ack { c with stage := (c.resume env e).2 })

/-! ## Servers -/

/-- The engine, the clock and the calls made so far. -/
structure Server where
  engine : QueueEngine
  clock : Nat
  calls : List Call

/-- Start a call, let time pass, or run the next section of a call. -/
inductive Action where
  | tick (seconds : Nat)
  | poll (queue : String) (visibilitySec maxMessages : Nat)
  | ack (queue messageId receipt : String)
  | resume (i : Nat)
  deriving DecidableEq

/-- One action. -/
def Server.step (env : Env) (v : Server) : Action → Server
  | .tick seconds => { v with clock := v.clock + seconds }
  | .poll queue visibilitySec maxMessages =>
      { v with calls := v.calls ++ [.poll ⟨queue, visibilitySec, maxMessages, v.clock, .entered⟩] }
  | .ack queue messageId receipt =>
      { v with calls := v.calls ++ [.ack ⟨queue, messageId, receipt, .entered⟩] }
  | .resume i =>
      match v.calls[i]? with
      | some call =>
          { v with
            engine := (call.resume env v.engine).1
            calls := v.calls.set i (call.resume env v.engine).2 }
      | none => v

/-- A server with no call running. -/
def World.serve (w : World) : Server := ⟨w.engine, w.clock, []⟩

/-! ## The page-in loop ends -/

section PageIn

open QueueEngine

variable {env : Env} {e e' : QueueEngine} {now fetchLimit : Nat} {targetQueue : String}
  {flushed flushed' : Bool}

/-- The turns the page-in loop has left. -/
def turnsLeft (e : QueueEngine) (flushed : Bool) : Nat :=
  e.disk.active.length - e.spillReadOffset + if flushed then 1 else 2

/-- A turn after which the loop goes on leaves fewer turns. -/
theorem turnsLeft_pageInStep
    (goesOn : pageInStep env now targetQueue fetchLimit e flushed = (e', some flushed')) :
    turnsLeft e' flushed' < turnsLeft e flushed := by
  unfold turnsLeft
  obtain ⟨disk, ⟨read, stands, rfl⟩ | ⟨-, rfl, rfl, rfl⟩⟩ := pageInStep_goesOn goesOn
  · have moves := readEntries_moves read
    rw [disk, stands, DiskLog.readEntriesFromOffset]
    omega
  · simp

end PageIn

/-! ## A call that runs alone -/

section Alone

open QueueEngine Relation

variable {env : Env} {c : PollCall} {e : QueueEngine}

/-- The poll runs some sections with nothing in between. -/
def PollCall.Resumes (env : Env) (c : PollCall) :
    QueueEngine × PollStage → QueueEngine × PollStage → Prop :=
  ReflTransGen fun before after => after = { c with stage := before.2 }.resume env before.1

theorem PollCall.Resumes.routing (c : PollCall) (taken : List StoredMsg) (e : QueueEngine) :
    c.Resumes env (e, .routing taken) (taken.foldl (routeExpired c.now) e, .routing []) := by
  induction taken generalizing e with
  | nil => exact .refl
  | cons msg taken ih =>
      by_cases spent : msg.maxDelivery ≤ msg.deliveryCount
      · have rest := ih ((e.retireExpired msg).deadLetter c.now msg)
        rw [List.foldl_cons, routeExpired, if_pos spent]
        have second : c.Resumes env (e.retireExpired msg, .retired msg taken)
            (taken.foldl (routeExpired c.now) ((e.retireExpired msg).deadLetter c.now msg),
              .routing []) := .head rfl rest
        refine .head ?_ second
        simp only [PollCall.resume, if_pos spent]
      · have rest := ih (e.requeue c.now msg)
        rw [List.foldl_cons, routeExpired, if_neg spent]
        refine .head ?_ rest
        simp only [PollCall.resume, if_neg spent]

theorem PollCall.Resumes.paging (c : PollCall) (records : List WalRecord) (flushed : Bool)
    (ss : List (Fin numShards)) (acc : PageInChunk) :
    c.Resumes env (acc.engine, .paging records ss acc.added acc.targetAdded flushed)
      ((ss.foldl (pageInShard c.now c.queue records) acc).engine, .paging records []
        (ss.foldl (pageInShard c.now c.queue records) acc).added
        (ss.foldl (pageInShard c.now c.queue records) acc).targetAdded flushed) := by
  induction ss generalizing acc with
  | nil => exact .refl
  | cons s ss ih => exact .head rfl (ih (pageInShard c.now c.queue records acc s))

/-- The stage after a turn of the page-in loop. -/
def PollStage.afterTurn : QueueEngine × Option Bool → QueueEngine × PollStage
  | (e, some flushed) => (e, .reading flushed)
  | (e, none) => (e, .claiming)

/-- One turn of the page-in loop. -/
theorem PollCall.Resumes.turn (c : PollCall) (e : QueueEngine) (flushed : Bool) :
    c.Resumes env (e, .reading flushed)
      (PollStage.afterTurn (pageInStep env c.now c.queue c.fetchLimit e flushed)) := by
  unfold pageInStep
  dsimp only
  generalize result : e.disk.readEntriesFromOffset env e.spillReadOffset c.fetchLimit = read
  have first : ({ c with stage := .reading flushed } : PollCall).resume env e =
      if read.1 ≠ [] then
        if read.1.any WalRecord.isPush then ({ e with spillReadOffset := read.2 },
          .paging read.1 (List.finRange numShards) 0 0 flushed)
        else ({ e with spillReadOffset := read.2 }, .reading flushed)
      else if flushed then
        (if 0 < read.2 then { e with spillReadOffset := 0 } else e, .claiming)
      else (e, .reading true) := by
    rw [← result]
    rfl
  by_cases some : read.1 ≠ []
  · rw [if_pos some] at first ⊢
    by_cases hasPush : read.1.any WalRecord.isPush = true
    · rw [if_pos hasPush] at first ⊢
      have options := (disk_pageInChunk c.now c.queue { e with spillReadOffset := read.2 } read.1).2.2
      refine .head first.symm ((PollCall.Resumes.paging c read.1 flushed (List.finRange numShards)
        ⟨{ e with spillReadOffset := read.2 }, 0, 0⟩).tail ?_)
      simp only [PollCall.resume]
      unfold pageInChunk at options ⊢
      dsimp only at options ⊢
      rw [options]
      split
      · rfl
      · rfl
    · rw [if_neg hasPush] at first ⊢
      exact .single first.symm
  · rw [if_neg some] at first ⊢
    cases flushed with
    | true => exact .single first.symm
    | false => exact .single first.symm

/-- With enough fuel the loop is all the turns up to the claim section. -/
theorem PollCall.Resumes.loop (c : PollCall) (fuel : Nat) (e : QueueEngine) (flushed : Bool)
    (enough : turnsLeft e flushed ≤ fuel) :
    c.Resumes env (e, .reading flushed)
      (pageInLoop env c.now c.queue c.fetchLimit fuel e flushed, .claiming) := by
  induction fuel generalizing e flushed with
  | zero =>
      unfold turnsLeft at enough
      split at enough <;> omega
  | succ fuel ih =>
      have turn : c.Resumes env (e, .reading flushed)
          (PollStage.afterTurn (pageInStep env c.now c.queue c.fetchLimit e flushed)) := .turn c e flushed
      unfold pageInLoop
      rcases next : pageInStep env c.now c.queue c.fetchLimit e flushed with ⟨e', _ | flushed'⟩
      · rw [next] at turn
        exact turn
      · rw [next] at turn
        have fewer := turnsLeft_pageInStep next
        exact turn.trans (ih e' flushed' (by omega))

/-- The sections of a poll with nothing in between are `poll`. -/
theorem PollCall.resumes_poll (env : Env) (e : QueueEngine) (c : PollCall) :
    c.Resumes env (e, .entered)
      ((e.poll env c.now c.queue c.visibilitySec c.maxMessages).1,
        .returned (e.poll env c.now c.queue c.visibilitySec c.maxMessages).2) := by
  have collected : c.Resumes env (e, .entered) ((e.collectExpired (shardIdx c.queue) c.now).1,
      .routing (e.collectExpired (shardIdx c.queue) c.now).2) := .single rfl
  have routed := collected.trans (PollCall.Resumes.routing c _ _)
  unfold poll prefetch
  dsimp only
  generalize (e.collectExpired (shardIdx c.queue) c.now).2.foldl (routeExpired c.now)
    (e.collectExpired (shardIdx c.queue) c.now).1 = back at routed ⊢
  split
  · rename_i short
    have test : c.Resumes env (back, .routing []) (back, .reading false) := by
      refine .single ?_
      simp only [PollCall.resume, if_pos short]
    have enough : turnsLeft back false ≤ back.disk.active.length + 3 := by
      simp only [turnsLeft, Bool.false_eq_true, if_false]
      omega
    exact (routed.trans (test.trans (PollCall.Resumes.loop c _ back false enough))).tail rfl
  · rename_i long
    refine routed.tail ?_
    simp only [PollCall.resume, if_neg long]
    rfl

/-- The sections of an ack with nothing in between are `ack`. -/
theorem AckCall.resumes_ack (env : Env) (e : QueueEngine) (c : AckCall) :
    ReflTransGen (fun before after => after = { c with stage := before.2 }.resume env before.1)
      (e, .entered) ((e.ack env c.queue c.messageId c.receipt).1,
        AckStage.returned (e.ack env c.queue c.messageId c.receipt).2) := by
  unfold QueueEngine.ack
  cases parsed : parseIdFast env c.messageId with
  | none =>
      refine .single ?_
      simp only [AckCall.resume, parsed, Option.bind_none]
  | some id =>
      have first : ({ c with stage := .entered } : AckCall).resume env e = c.locked e id := by
        simp only [AckCall.resume, parsed]
        rfl
      rw [Option.bind_some]
      unfold ackUnchecked
      unfold AckCall.locked at first
      cases outcome : (e.shards (shardIdx c.queue)).ackLease c.queue id c.receipt with
      | none =>
          rw [outcome] at first
          exact .single first.symm
      | some done =>
          rw [outcome] at first
          exact .head first.symm (.head rfl (.single rfl))

end Alone

end WalrQueue
