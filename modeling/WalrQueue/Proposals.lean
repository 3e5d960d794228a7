import WalrQueue.RaftLog

/-!
# Interleaved proposals

`propose_push_batch` and `propose_ack_batch` hold the lock of the log while they number
and append their entries and no lock while they wait for the peers or store the commit
index, so the sections of several calls interleave.  Here a call is a value that says
where it stands and what it has in hand; resuming it runs its next section.  A call that
runs with nothing in between does what the functions of the sequential model do.
-/

namespace WalrQueue

open RaftNode

/-! ## Calls -/

/-- What a call is asked to do. -/
inductive LeaderRequest where
  | push (queue : String) (items : List (String × List UInt8 × Nat))
  | ack (queue : String) (items : List (String × String))
  | compact
  deriving DecidableEq

/-- What a call returns. -/
inductive LeaderReply where
  | pushed (ids : Except String (List String))
  | acked (count : Except String Nat)
  | compacted

/-- What a proposal has in hand after its first section: the ids resolved, or the
number of messages its own engine acked. -/
inductive Work where
  | push (queue : String) (proposals : List Proposal)
  | ack (queue : String) (items : List (String × String)) (acked : Nat)
  deriving DecidableEq

/-- The commands a proposal logs. -/
def Work.commands : Work → List RaftCommand
  | .push queue proposals => proposals.map (Proposal.command queue)
  | .ack queue items _ => items.map fun item => .ack queue item.1 item.2

/-- What a proposal that goes through returns. -/
def Work.reply : Work → LeaderReply
  | .push _ proposals => .pushed (.ok (proposals.map (·.msgId)))
  | .ack _ _ acked => .acked (.ok acked)

/-- Where a call stands: about to take the lock of the log, waiting for its peers, about
to store the commit index, about to push to its own engine, about to test whether to cut
the log, or about to take the lock to cut it. -/
inductive LeaderStage where
  | entered
  | assigning (term : Nat) (work : Work)
  | replicating (work : Work)
  | committing (work : Work)
  | pushing (queue : String) (proposals : List Proposal)
  | compacting (work : Work)
  | trimming (commit : Nat) (reply : LeaderReply)
  | returned (reply : LeaderReply)

/-- Without a quorum a push fails; an ack goes on. -/
def Work.outvoted : Work → LeaderStage
  | .push .. =>
      .returned (.pushed (.error "QUORUM_FAILED: Failed to replicate batch to majority quorum"))
  | work@(.ack ..) => .committing work

/-- After the commit index is stored, a push goes to the leader's own engine. -/
def Work.stored : Work → LeaderStage
  | .push queue proposals => .pushing queue proposals
  | work@(.ack ..) => .compacting work

/-- A call: the entries it has logged and the answers of its peers so far. -/
structure LeaderCall where
  request : LeaderRequest
  stage : LeaderStage
  entries : List LogEntry
  replies : List Bool

namespace LeaderCall

/-- The last index a call was assigned. -/
def lastIndex (c : LeaderCall) : Nat := (c.entries.getLast?.map LogEntry.index).getD 0

/-- The first section of a push: the ids of its items. -/
def enterPush (env : Env) (n : RaftNode) (queue : String)
    (items : List (String × List UInt8 × Nat)) : RaftNode × LeaderStage :=
  if n.role ≠ .leader then
    (n, .returned (.pushed (.error ("NOT_LEADER:" ++ n.currentLeader.getD ""))))
  else if items = [] then (n, .returned (.pushed (.ok [])))
  else
    let resolved := resolveItems env n.engine.draws items
    ({ n with engine := { n.engine with draws := resolved.2 } },
      .assigning n.currentTerm (.push queue resolved.1))

/-- The first section of an ack: the leader's own engine acks. -/
def enterAck (env : Env) (n : RaftNode) (queue : String) (items : List (String × String)) :
    RaftNode × LeaderStage :=
  if n.role ≠ .leader then
    (n, .returned (.acked (.error ("NOT_LEADER:" ++ n.currentLeader.getD ""))))
  else if items = [] then (n, .returned (.acked (.ok 0)))
  else
    let acked := n.engine.ackBatch env queue items
    ({ n with engine := acked.1 },
      if acked.2 = 0 then .returned (.acked (.ok 0))
      else .assigning n.currentTerm (.ack queue items acked.2))

/-- The first section of a call. -/
def enter (env : Env) (n : RaftNode) : LeaderRequest → RaftNode × LeaderStage
  | .push queue items => enterPush env n queue items
  | .ack queue items => enterAck env n queue items
  | .compact => (n, .trimming n.commitIndex .compacted)

/-- The next section of a call.  A call that waits for its peers goes on as soon as it has
a quorum, or has heard from every peer. -/
def resume (env : Env) (now : Nat) (n : RaftNode) (c : LeaderCall) : RaftNode × LeaderCall :=
  match c.stage with
  | .entered => ((enter env n c.request).1, { c with stage := (enter env n c.request).2 })
  | .assigning term work =>
      let entries := entriesFrom term n.nextIndex work.commands
      ({ n with log := n.log ++ entries },
        { c with stage := .replicating work, entries := entries })
  | .replicating work =>
      if n.quorumReached c.replies then (n, { c with stage := .committing work })
      else if n.peers.length ≤ c.replies.length then (n, { c with stage := work.outvoted })
      else (n, c)
  | .committing work =>
      ({ n with commitIndex := c.lastIndex }, { c with stage := work.stored })
  | .pushing queue proposals =>
      ({ n with engine := (n.engine.pushBatch env now queue (proposals.map Proposal.item)).1 },
        { c with stage := .compacting (.push queue proposals) })
  | .compacting work =>
      if 0 < n.compactionThreshold ∧ c.lastIndex % n.compactionThreshold = 0 then
        (n, { c with stage := .trimming n.commitIndex work.reply })
      else (n, { c with stage := .returned work.reply })
  | .trimming commit reply => (n.compactAt commit, { c with stage := .returned reply })
  | .returned _ => (n, c)

end LeaderCall

/-! ## A node with calls under way -/

/-- A node, its clock, the calls made on it, and the batches it has logged, in the order
in which they took the lock. -/
structure Leading where
  node : RaftNode
  clock : Nat
  calls : List LeaderCall
  batches : List (List LogEntry)

/-- Let time pass, poll the engine, begin a call, receive the answer of a peer, run the next
section of a call, or install a snapshot. -/
inductive LeaderAction where
  | tick (seconds : Nat)
  | poll (queue : String) (visibilitySec maxMessages : Nat)
  | begins (request : LeaderRequest)
  | answer (i : Nat) (success : Bool)
  | resume (i : Nat)
  | install (request : RaftInstallSnapshot)
  deriving DecidableEq

/-- The batch a section appends to the log. -/
def LeaderCall.batch (n : RaftNode) (c : LeaderCall) : List (List LogEntry) :=
  match c.stage with
  | .assigning term work => [entriesFrom term n.nextIndex work.commands]
  | _ => []

/-- A peer has answered a call that waits for its peers. -/
def LeaderCall.answered (n : RaftNode) (c : LeaderCall) (success : Bool) : LeaderCall :=
  match c.stage with
  | .replicating _ =>
      if c.replies.length < n.peers.length then { c with replies := c.replies ++ [success] } else c
  | _ => c

/-- One action. -/
def Leading.step (env : Env) (v : Leading) : LeaderAction → Leading
  | .tick seconds => { v with clock := v.clock + seconds }
  | .poll queue visibilitySec maxMessages =>
      { v with node := { v.node with
          engine := (v.node.engine.poll env v.clock queue visibilitySec maxMessages).1 } }
  | .begins request => { v with calls := v.calls ++ [⟨request, .entered, [], []⟩] }
  | .answer i success =>
      match v.calls[i]? with
      | some c => { v with calls := v.calls.set i (c.answered v.node success) }
      | none => v
  | .resume i =>
      match v.calls[i]? with
      | some c =>
          { v with
            node := (c.resume env v.clock v.node).1
            calls := v.calls.set i (c.resume env v.clock v.node).2
            batches := v.batches ++ c.batch v.node }
      | none => v
  | .install request =>
      { v with node := (v.node.handleInstallSnapshot env v.clock request).1 }

/-- A node with no call running. -/
def RaftNode.lead (n : RaftNode) (clock : Nat) : Leading := ⟨n, clock, [], []⟩

/-! ## A call that runs alone -/

section Alone

variable {env : Env} {codec : Postcard} {now : Nat} {n : RaftNode} {queue : String}
  {replies : List Bool}

/-- The sections of a call, one after another with nothing in between. -/
def LeaderCall.resumes (env : Env) (now : Nat) (count : Nat) (s : RaftNode × LeaderCall) :
    RaftNode × LeaderCall :=
  (fun s => s.2.resume env now s.1)^[count] s

theorem LeaderCall.resumes_returned (count : Nat) {c : LeaderCall} {reply : LeaderReply}
    (over' : c.stage = .returned reply) (n : RaftNode) :
    resumes env now count (n, c) = (n, c) := by
  have still : (fun s : RaftNode × LeaderCall => s.2.resume env now s.1) (n, c) = (n, c) := by
    simp only [LeaderCall.resume, over']
  exact Function.iterate_fixed still count

theorem LeaderCall.resumes_succ (count : Nat) (s : RaftNode × LeaderCall) :
    resumes env now (count + 1) s = resumes env now count (s.2.resume env now s.1) :=
  Function.iterate_succ_apply _ _ _

/-- The last sections: the test and the cut. -/
theorem LeaderCall.resumes_compacting (count : Nat) (n : RaftNode) {c : LeaderCall} {work : Work}
    (stands : c.stage = .compacting work) :
    resumes env now (count + 2) (n, c) =
      (if 0 < n.compactionThreshold ∧ c.lastIndex % n.compactionThreshold = 0 then
        n.compactLogSnapshot else n, { c with stage := .returned work.reply }) := by
  rw [resumes_succ]
  by_cases multiple : 0 < n.compactionThreshold ∧ c.lastIndex % n.compactionThreshold = 0
  · simp only [LeaderCall.resume, stands, if_pos multiple]
    rw [resumes_succ]
    exact resumes_returned count rfl _
  · simp only [LeaderCall.resume, stands, if_neg multiple]
    exact resumes_returned (count + 1) rfl n

theorem lastIndex_entriesFrom {term start : Nat} {commands : List RaftCommand}
    (some : commands ≠ []) (request : LeaderRequest) (stage : LeaderStage) :
    LeaderCall.lastIndex ⟨request, stage, entriesFrom term start commands, replies⟩ =
      start + commands.length - 1 := by
  rcases List.eq_nil_or_concat commands with none | ⟨front, last, rfl⟩
  · exact absurd none some
  · rw [LeaderCall.lastIndex, entriesFrom, List.concat_eq_append, List.zipIdx_append]
    simp

/-- A push with nothing in between is `propose_push_batch`. -/
theorem LeaderCall.resumes_push (items : List (String × List UInt8 × Nat))
    (heard : n.peers.length ≤ replies.length) :
    (resumes env now 7 (n, ⟨.push queue items, .entered, [], replies⟩)).1 =
        (n.proposePushBatch env codec now replies queue items).1 ∧
      (resumes env now 7 (n, ⟨.push queue items, .entered, [], replies⟩)).2.stage =
        .returned (.pushed (n.proposePushBatch env codec now replies queue items).2.1) := by
  rw [resumes_succ]
  simp only [LeaderCall.resume, enter, enterPush]
  unfold proposePushBatch
  by_cases leads : n.role ≠ .leader
  · rw [if_pos leads, if_pos leads, resumes_returned 6 rfl]
    exact ⟨rfl, rfl⟩
  · rw [if_neg leads, if_neg leads]
    by_cases none : items = []
    · rw [if_pos none, if_pos none, resumes_returned 6 rfl]
      exact ⟨rfl, rfl⟩
    · rw [if_neg none, if_neg none]
      dsimp only
      rw [resumes_succ, resumes_succ]
      have some : (resolveItems env n.engine.draws items).1.map (Proposal.command queue) ≠ [] := by
        rw [ne_eq, List.map_eq_nil_iff, ← List.length_eq_zero_iff, length_resolveItems,
          List.length_eq_zero_iff]
        exact none
      have keep : ∀ (log : List LogEntry) (e : QueueEngine),
          ({ n with log := log, engine := e } : RaftNode).quorumReached replies =
            n.quorumReached replies := fun _ _ => rfl
      simp only [LeaderCall.resume, Work.commands, keep]
      by_cases quorum : n.quorumReached replies = true
      · rw [if_pos quorum, if_pos quorum, resumes_succ]
        simp only [LeaderCall.resume, Work.stored]
        rw [resumes_succ]
        simp only [LeaderCall.resume]
        rw [resumes_compacting 0 _ rfl]
        simp only [lastIndex_entriesFrom some]
        exact ⟨rfl, rfl⟩
      · rw [if_neg quorum, if_neg quorum]
        simp only [heard, if_true]
        exact ⟨congrArg Prod.fst (resumes_returned 4 rfl _),
          congrArg (fun s => s.2.stage) (resumes_returned 4 rfl _)⟩

/-- An ack with nothing in between is `propose_ack_batch`. -/
theorem LeaderCall.resumes_ack (items : List (String × String))
    (heard : n.peers.length ≤ replies.length) :
    (resumes env now 7 (n, ⟨.ack queue items, .entered, [], replies⟩)).1 =
        (n.proposeAckBatch env codec queue items).1 ∧
      (resumes env now 7 (n, ⟨.ack queue items, .entered, [], replies⟩)).2.stage =
        .returned (.acked (n.proposeAckBatch env codec queue items).2.1) := by
  rw [resumes_succ]
  simp only [LeaderCall.resume, enter, enterAck]
  unfold proposeAckBatch
  by_cases leads : n.role ≠ .leader
  · rw [if_pos leads, if_pos leads, resumes_returned 6 rfl]
    exact ⟨rfl, rfl⟩
  · rw [if_neg leads, if_neg leads]
    by_cases none : items = []
    · rw [if_pos none, if_pos none, resumes_returned 6 rfl]
      exact ⟨rfl, rfl⟩
    · rw [if_neg none, if_neg none]
      dsimp only
      by_cases nothing : (n.engine.ackBatch env queue items).2 = 0
      · rw [if_pos nothing, if_pos nothing, resumes_returned 6 rfl]
        exact ⟨rfl, rfl⟩
      · rw [if_neg nothing, if_neg nothing, resumes_succ, resumes_succ]
        have some : (items.map fun item => RaftCommand.ack queue item.1 item.2) ≠ [] := by
          rw [ne_eq, List.map_eq_nil_iff]
          exact none
        simp only [LeaderCall.resume, Work.commands, Work.outvoted, heard, if_true, ite_self]
        rw [resumes_succ]
        simp only [LeaderCall.resume, Work.stored]
        rw [resumes_compacting 1 _ rfl]
        simp only [lastIndex_entriesFrom some]
        exact ⟨rfl, rfl⟩

end Alone

/-! ## What a section does -/

/-- The call has not logged anything yet. -/
def LeaderStage.isEarly : LeaderStage → Bool
  | .entered | .assigning .. => true
  | _ => false

/-- The call has logged its entries and may still store the commit index. -/
def LeaderStage.isOpen : LeaderStage → Bool
  | .replicating _ | .committing _ => true
  | _ => false

/-- A section leaves the log, the snapshot and the commit index alone, or it is one of the
five that touch them or decide about them. -/
inductive LeaderCall.Turn (n : RaftNode) (c : LeaderCall) : RaftNode → LeaderCall → Prop
  | quiet {n' : RaftNode} {stage : LeaderStage} (log : n'.log = n.log)
      (snapshot : n'.snapshotIndex = n.snapshotIndex) (commit : n'.commitIndex = n.commitIndex)
      (peers : n'.peers = n.peers) (silent : c.batch n = []) (closed : c.stage.isOpen = false)
      (closed' : stage.isOpen = false) (early : stage.isEarly → c.stage.isEarly)
      (some : ∀ term work, stage = .assigning term work → work.commands ≠ [])
      (read : ∀ commit reply, stage = .trimming commit reply → commit = n.commitIndex) :
      Turn n c n' { c with stage }
  | assign {term : Nat} {work : Work} (stands : c.stage = .assigning term work) :
      Turn n c { n with log := n.log ++ entriesFrom term n.nextIndex work.commands }
        { c with
          stage := .replicating work
          entries := entriesFrom term n.nextIndex work.commands }
  | wait {work : Work} (stands : c.stage = .replicating work) : Turn n c n c
  | goes {work : Work} (stands : c.stage = .replicating work)
      (decided : n.quorumReached c.replies ∨ n.peers.length ≤ c.replies.length) :
      Turn n c n { c with stage := .committing work }
  | fails {work : Work} {reply : LeaderReply} (stands : c.stage = .replicating work)
      (outvoted : ¬ n.quorumReached c.replies) (heard : n.peers.length ≤ c.replies.length) :
      Turn n c n { c with stage := .returned reply }
  | commits {work : Work} (stands : c.stage = .committing work) :
      Turn n c { n with commitIndex := c.lastIndex } { c with stage := work.stored }
  | trims {commit : Nat} {reply : LeaderReply} (stands : c.stage = .trimming commit reply) :
      Turn n c (n.compactAt commit) { c with stage := .returned reply }

section Turn

variable {env : Env} {now : Nat} {n : RaftNode} {c : LeaderCall}

theorem LeaderCall.enter_turn (env : Env) (n : RaftNode) (stands : c.stage = .entered)
    (request : LeaderRequest) :
    c.Turn n (enter env n request).1 { c with stage := (enter env n request).2 } := by
  have silent : c.batch n = [] := by simp only [LeaderCall.batch, stands]
  have closed : c.stage.isOpen = false := by rw [stands]; rfl
  have early : c.stage.isEarly = true := by rw [stands]; rfl
  cases request with
  | push queue items =>
      simp only [enter, enterPush]
      split
      · exact .quiet rfl rfl rfl rfl silent closed rfl (fun _ => early) (by simp) (by simp)
      · split
        · exact .quiet rfl rfl rfl rfl silent closed rfl (fun _ => early) (by simp) (by simp)
        · rename_i some
          refine .quiet rfl rfl rfl rfl silent closed rfl (fun _ => early) (fun term work same => ?_)
            (by simp)
          cases same
          rw [Work.commands, ne_eq, List.map_eq_nil_iff, ← List.length_eq_zero_iff,
            length_resolveItems, List.length_eq_zero_iff]
          exact some
  | ack queue items =>
      simp only [enter, enterAck]
      split
      · exact .quiet rfl rfl rfl rfl silent closed rfl (fun _ => early) (by simp) (by simp)
      · split
        · exact .quiet rfl rfl rfl rfl silent closed rfl (fun _ => early) (by simp) (by simp)
        · rename_i some
          dsimp only
          split
          · exact .quiet rfl rfl rfl rfl silent closed rfl (fun _ => early) (by simp) (by simp)
          · refine .quiet rfl rfl rfl rfl silent closed rfl (fun _ => early) (fun term work same => ?_)
              (by simp)
            cases same
            rw [Work.commands, ne_eq, List.map_eq_nil_iff]
            exact some
  | compact =>
      refine .quiet rfl rfl rfl rfl silent closed rfl (fun _ => early) (by simp [enter]) ?_
      intro commit reply same
      cases same
      rfl

theorem LeaderCall.resume_turn (env : Env) (now : Nat) (n : RaftNode) (c : LeaderCall) :
    c.Turn n (c.resume env now n).1 (c.resume env now n).2 := by
  unfold LeaderCall.resume
  split
  · rename_i stands
    exact LeaderCall.enter_turn env n stands c.request
  · rename_i stands
    exact .assign stands
  · rename_i work stands
    split
    · rename_i quorum
      exact .goes stands (Or.inl quorum)
    · rename_i outvoted
      split
      · rename_i heard
        cases work with
        | push queue proposals => exact .fails stands outvoted heard
        | ack queue items acked => exact .goes stands (Or.inr heard)
      · exact .wait stands
  · rename_i stands
    exact .commits stands
  · rename_i stands
    have silent : c.batch n = [] := by simp only [LeaderCall.batch, stands]
    have closed : c.stage.isOpen = false := by rw [stands]; rfl
    exact .quiet rfl rfl rfl rfl silent closed rfl (by simp [LeaderStage.isEarly]) (by simp) (by simp)
  · rename_i stands
    have silent : c.batch n = [] := by simp only [LeaderCall.batch, stands]
    have closed : c.stage.isOpen = false := by rw [stands]; rfl
    split
    · refine .quiet rfl rfl rfl rfl silent closed rfl (by simp [LeaderStage.isEarly]) (by simp) ?_
      intro commit reply same
      cases same
      rfl
    · exact .quiet rfl rfl rfl rfl silent closed rfl (by simp [LeaderStage.isEarly]) (by simp) (by simp)
  · rename_i stands
    exact .trims stands
  · rename_i reply stands
    have silent : c.batch n = [] := by simp only [LeaderCall.batch, stands]
    have closed : c.stage.isOpen = false := by rw [stands]; rfl
    have still : c.Turn n n { c with stage := c.stage } :=
      .quiet rfl rfl rfl rfl silent closed closed id (by simp [stands]) (by simp [stands])
    exact still

end Turn

/-- What an action does to the node and the calls. -/
inductive Leading.Moves (env : Env) (v : Leading) : LeaderAction → Leading → Prop
  | idle {action : LeaderAction} {v' : Leading} (engine : QueueEngine)
      (node : v'.node = { v.node with engine }) (calls : v'.calls = v.calls)
      (batches : v'.batches = v.batches) : Moves env v action v'
  | begins {request : LeaderRequest} {v' : Leading} (node : v'.node = v.node)
      (calls : v'.calls = v.calls ++ [⟨request, .entered, [], []⟩])
      (batches : v'.batches = v.batches) : Moves env v (.begins request) v'
  | answers {i : Nat} {success : Bool} {c : LeaderCall} {v' : Leading}
      (call : v.calls[i]? = some c) (node : v'.node = v.node)
      (calls : v'.calls = v.calls.set i (c.answered v.node success))
      (batches : v'.batches = v.batches) : Moves env v (.answer i success) v'
  | turns {i : Nat} {c c' : LeaderCall} {v' : Leading} (call : v.calls[i]? = some c)
      (turn : c.Turn v.node v'.node c') (calls : v'.calls = v.calls.set i c')
      (batches : v'.batches = v.batches ++ c.batch v.node) : Moves env v (.resume i) v'
  | installs {request : RaftInstallSnapshot} {v' : Leading}
      (node : v'.node = (v.node.handleInstallSnapshot env v.clock request).1)
      (calls : v'.calls = v.calls) (batches : v'.batches = v.batches) :
      Moves env v (.install request) v'

theorem Leading.step_moves (env : Env) (v : Leading) (action : LeaderAction) :
    v.Moves env action (v.step env action) := by
  cases action with
  | tick seconds => exact .idle _ rfl rfl rfl
  | poll queue visibilitySec maxMessages => exact .idle _ rfl rfl rfl
  | begins request => exact .begins rfl rfl rfl
  | answer i success =>
      unfold Leading.step
      dsimp only
      split
      · rename_i c call
        exact .answers call rfl rfl rfl
      · exact .idle _ rfl rfl rfl
  | resume i =>
      unfold Leading.step
      dsimp only
      split
      · rename_i c call
        exact .turns call (c.resume_turn env v.clock v.node) rfl rfl
      · exact .idle _ rfl rfl rfl
  | install request => exact .installs rfl rfl rfl

end WalrQueue
