import WalrQueue.LeaderLog

/-!
# Clusters

Nodes exchange messages over a network that may lose them and deliver them again: what was
sent once can be handled by any node at any later time.  A node takes the lead on its own
when it knows no leader and no smaller id, and neither appending nor installing a snapshot
raises its term.  So two nodes lead in one term when they do not know each other, and a
node that has accepted a message of a term still accepts older ones.  Both are excluded by
a condition on the single steps.
-/

namespace WalrQueue

open RaftNode

/-! ## Messages -/

/-- What a node is sent by another. -/
inductive Message where
  | append (request : RaftAppend)
  | snapshot (request : RaftInstallSnapshot)
  | vote (term : Nat) (candidateId : String)
  deriving DecidableEq

namespace Message

/-- The term a message was sent in. -/
def term : Message → Nat
  | .append request => request.term
  | .snapshot request => request.term
  | .vote term _ => term

/-- The entries a message carries. -/
def entries : Message → List RaftLogEntryWire
  | .append request => request.entries
  | .snapshot _ | .vote .. => []

end Message

/-- A node handles a message, and whether it accepts it. -/
def RaftNode.handle (env : Env) (codec : Postcard) (n : RaftNode) (now : Nat) :
    Message → RaftNode × Bool
  | .append request => n.handleAppendEntries env codec now request
  | .snapshot request => n.handleInstallSnapshot env now request
  | .vote term candidateId => n.handleVote term candidateId

/-! ## The term of a node -/

section Fencing

variable {env : Env} {codec : Postcard} {n : RaftNode} {now : Nat} {m : Message}

/-- A node handles a message at a time. -/
def RaftNode.receive (env : Env) (codec : Postcard) (n : RaftNode) (arrival : Nat × Message) :
    RaftNode :=
  (n.handle env codec arrival.1 arrival.2).1

/-- Appends and snapshots come from terms the node has already reached. -/
def RaftNode.Knows (n : RaftNode) (arrival : Nat × Message) : Prop :=
  match arrival.2 with
  | .append request => request.term ≤ n.currentTerm
  | .snapshot request => request.term ≤ n.currentTerm
  | .vote .. => True

instance (n : RaftNode) (arrival : Nat × Message) : Decidable (n.Knows arrival) := by
  unfold RaftNode.Knows
  split <;> infer_instance

theorem RaftNode.currentTerm_handle (env : Env) (codec : Postcard) (n : RaftNode) (now : Nat)
    (m : Message) : n.currentTerm ≤ (n.handle env codec now m).1.currentTerm := by
  cases m with
  | append request => exact (handleAppendEntries_engine env codec now n request).2.ge
  | snapshot request =>
      unfold RaftNode.handle handleInstallSnapshot
      dsimp only
      split <;> exact le_rfl
  | vote term candidateId =>
      unfold RaftNode.handle handleVote
      dsimp only
      split
      · rename_i higher
        exact higher.le
      · exact le_rfl

/-- A node that accepts a message of a term it knows stands at that term or above. -/
theorem RaftNode.term_le_of_accepted (known : n.Knows (now, m))
    (accepted : (n.handle env codec now m).2 = true) :
    m.term ≤ (n.handle env codec now m).1.currentTerm := by
  cases m with
  | append request => exact known.trans (n.currentTerm_handle env codec now _)
  | snapshot request => exact known.trans (n.currentTerm_handle env codec now _)
  | vote term candidateId =>
      unfold RaftNode.handle handleVote at accepted ⊢
      dsimp only at accepted ⊢
      split at accepted
      · rename_i higher
        rw [if_pos higher]
        exact le_rfl
      · cases accepted

/-- A message of an older term is rejected and changes nothing. -/
theorem RaftNode.handle_of_lt (env : Env) (codec : Postcard) (now : Nat)
    (older : m.term < n.currentTerm) : n.handle env codec now m = (n, false) := by
  cases m with
  | append request => exact if_pos older
  | snapshot request => exact if_pos older
  | vote term candidateId => exact if_neg (Nat.not_lt.2 older.le)

/-- When appends and snapshots only come from terms the node has already reached, a node
that has accepted a message rejects every later message of an older term. -/
theorem RaftNode.fenced (env : Env) (codec : Postcard) (n : RaftNode)
    (before between : List (Nat × Message)) (now now' : Nat) (m m' : Message)
    (run : Trace.Along (RaftNode.receive env codec) RaftNode.Knows n
      (before ++ (now, m) :: between))
    (accepted : ((before.foldl (RaftNode.receive env codec) n).handle env codec now m).2 = true)
    (older : m'.term < m.term) :
    let v := (before ++ (now, m) :: between).foldl (RaftNode.receive env codec) n
    v.handle env codec now' m' = (v, false) := by
  intro v
  obtain ⟨_, known, later⟩ := Trace.along_append.1 run
  have reached := term_le_of_accepted known accepted
  have kept : m.term ≤ v.currentTerm := by
    simp only [v, List.foldl_append, List.foldl_cons]
    exact later.invariant (I := fun w => m.term ≤ w.currentTerm) reached
      fun w arrival at' _ => at'.trans (w.currentTerm_handle env codec arrival.1 arrival.2)
  exact handle_of_lt env codec now' (older.trans_le kept)

/-- A heartbeat of a term. -/
def sampleHeartbeat (term : Nat) : Message :=
  .append { sampleLeader.heartbeat with term }

/-- A node accepts a heartbeat of term 5, and then one of term 3. -/
theorem RaftNode.unfenced :
    (sampleFollower.handle .sample .format 1600000000 (sampleHeartbeat 5)).2 = true ∧
      ((sampleFollower.handle .sample .format 1600000000 (sampleHeartbeat 5)).1.handle .sample
        .format 1600000000 (sampleHeartbeat 3)).2 = true := by
  decide +kernel

/-- After a vote of term 5 and a heartbeat of that term, older messages are rejected. -/
theorem RaftNode.fenced_sample :
    let v := [(1600000000, .vote 5 "n1"), (1600000000, sampleHeartbeat 5)].foldl
      (RaftNode.receive .sample .format) sampleFollower
    v.currentTerm = 5 ∧ v.handle .sample .format 1600000000 (sampleHeartbeat 3) = (v, false) :=
  ⟨by decide +kernel, RaftNode.fenced .sample .format sampleFollower
    [(1600000000, .vote 5 "n1")] [] 1600000000 1600000000 (sampleHeartbeat 5) (sampleHeartbeat 3)
    (by decide +kernel) (by decide +kernel) (by decide)⟩

end Fencing

/-! ## Nodes and what they have sent -/

/-- The nodes, and every message sent so far. -/
structure Cluster (ι : Type) where
  nodes : ι → RaftNode
  sent : List Message

/-- The steps of a cluster.  A delivery hands a message sent before to a node, as often and
as late as one likes; votes come from outside, since no node asks for one. -/
inductive ClusterAction (ι : Type) where
  | push (i : ι) (now : Nat) (replies : List Bool) (queue : String)
      (items : List (String × List UInt8 × Nat))
  | ack (i : ι) (queue : String) (items : List (String × String))
  | poll (i : ι) (now : Nat) (queue : String) (visibilitySec maxMessages : Nat)
  | heartbeat (i : ι)
  | sync (i : ι)
  | deliver (i : ι) (now k : Nat)
  | vote (i : ι) (term : Nat) (candidateId : String)
  | tick (i : ι) (now : Nat)
  | promote (i : ι) (now : Nat)
  | addPeer (i : ι) (peer : String)
  | compact (i : ι)
  deriving DecidableEq

variable {ι : Type}

namespace ClusterAction

/-- The node an action is about. -/
def node : ClusterAction ι → ι
  | .push i .. | .ack i .. | .poll i .. | .heartbeat i | .sync i | .deliver i .. | .vote i ..
  | .tick i _ | .promote i _ | .addPeer i _ | .compact i => i

/-- What becomes of the node and what it sends. -/
def act (env : Env) (codec : Postcard) (sent : List Message) (n : RaftNode) :
    ClusterAction ι → RaftNode × List Message
  | .push _ now replies queue items =>
      let done := n.proposePushBatch env codec now replies queue items
      (done.1, done.2.2.toList.map .append)
  | .ack _ queue items =>
      let done := n.proposeAckBatch env codec queue items
      (done.1, done.2.2.toList.map .append)
  | .poll _ now queue visibilitySec maxMessages =>
      ({ n with engine := (n.engine.poll env now queue visibilitySec maxMessages).1 }, [])
  | .heartbeat _ => (n, [.append n.heartbeat])
  | .sync _ => (n, .snapshot (n.snapshotRequest env) :: (n.logRequest codec).toList.map .append)
  | .deliver _ now k =>
      match sent[k]? with
      | some m => ((n.handle env codec now m).1, [])
      | none => (n, [])
  | .vote _ term candidateId => ((n.handleVote term candidateId).1, [])
  | .tick _ now =>
      (n.electionTick env now, if n.role = .leader then [.append n.heartbeat] else [])
  | .promote _ now => (n.recoverAsNewLeader env now, [])
  | .addPeer _ peer => (n.addPeer peer, [])
  | .compact _ => (n.compactLogSnapshot, [])

end ClusterAction

/-- One step. -/
def Cluster.step [DecidableEq ι] (env : Env) (codec : Postcard) (v : Cluster ι)
    (a : ClusterAction ι) : Cluster ι where
  nodes := Function.update v.nodes a.node (a.act env codec v.sent (v.nodes a.node)).1
  sent := v.sent ++ (a.act env codec v.sent (v.nodes a.node)).2

/-! ## Leaders -/

section Leaders

variable {env : Env} {codec : Postcard} {now : Nat} {n : RaftNode}

theorem compactLogSnapshot_self (n : RaftNode) : n.compactLogSnapshot.nodeId = n.nodeId ∧
    n.compactLogSnapshot.role = n.role ∧ n.compactLogSnapshot.currentTerm = n.currentTerm := by
  rw [compactLogSnapshot]
  rcases compactAt_cases n n.commitIndex with same | ⟨_, _, _, _, _, _, cut⟩
  · rw [same]
    exact ⟨rfl, rfl, rfl⟩
  · rw [cut]
    exact ⟨rfl, rfl, rfl⟩

theorem proposePushBatch_self (env : Env) (codec : Postcard) (now : Nat) (replies : List Bool)
    (n : RaftNode) (queue : String) (items : List (String × List UInt8 × Nat)) :
    (n.proposePushBatch env codec now replies queue items).1.nodeId = n.nodeId ∧
      (n.proposePushBatch env codec now replies queue items).1.role = n.role := by
  unfold proposePushBatch
  dsimp only
  split
  · exact ⟨rfl, rfl⟩
  · split
    · exact ⟨rfl, rfl⟩
    · split
      · dsimp only
        split
        · exact ⟨(compactLogSnapshot_self _).1, (compactLogSnapshot_self _).2.1⟩
        · exact ⟨rfl, rfl⟩
      · exact ⟨rfl, rfl⟩

theorem proposeAckBatch_self (env : Env) (codec : Postcard) (n : RaftNode) (queue : String)
    (items : List (String × String)) :
    (n.proposeAckBatch env codec queue items).1.nodeId = n.nodeId ∧
      (n.proposeAckBatch env codec queue items).1.role = n.role := by
  unfold proposeAckBatch
  dsimp only
  split
  · exact ⟨rfl, rfl⟩
  · split
    · exact ⟨rfl, rfl⟩
    · split
      · exact ⟨rfl, rfl⟩
      · dsimp only
        split
        · exact ⟨(compactLogSnapshot_self _).1, (compactLogSnapshot_self _).2.1⟩
        · exact ⟨rfl, rfl⟩

theorem trimLog_self (n : RaftNode) : n.trimLog.nodeId = n.nodeId ∧ n.trimLog.role = n.role := by
  unfold trimLog
  split
  · dsimp only
    split <;> exact ⟨rfl, rfl⟩
  · exact ⟨rfl, rfl⟩

theorem applyEntry_self (env : Env) (codec : Postcard) (now : Nat) (n : RaftNode)
    (entries : List RaftLogEntryWire) :
    (entries.foldl (applyEntry env codec now) n).nodeId = n.nodeId ∧
      (entries.foldl (applyEntry env codec now) n).role = n.role := by
  induction entries generalizing n with
  | nil => exact ⟨rfl, rfl⟩
  | cons entry entries ih =>
      have rest := ih (applyEntry env codec now n entry)
      rw [List.foldl_cons, rest.1, rest.2]
      unfold applyEntry
      split <;> exact ⟨rfl, rfl⟩

/-- No message makes a node a leader. -/
theorem handle_self (env : Env) (codec : Postcard) (n : RaftNode) (now : Nat) (m : Message) :
    (n.handle env codec now m).1.nodeId = n.nodeId ∧
      ((n.handle env codec now m).1.role = .leader → n.role = .leader) := by
  cases m with
  | append request =>
      unfold RaftNode.handle handleAppendEntries
      dsimp only
      split
      · exact ⟨rfl, id⟩
      · have applied := applyEntry_self env codec now
          { n with currentLeader := some request.leaderId } request.entries
        exact ⟨(trimLog_self _).1.trans applied.1, fun leads =>
          applied.2.symm.trans ((trimLog_self _).2.symm.trans leads)⟩
  | snapshot request =>
      unfold RaftNode.handle handleInstallSnapshot
      dsimp only
      split <;> exact ⟨rfl, id⟩
  | vote term candidateId =>
      unfold RaftNode.handle handleVote
      dsimp only
      split
      · exact ⟨rfl, by simp⟩
      · exact ⟨rfl, id⟩

theorem recoverAsNewLeader_self (env : Env) (now : Nat) (n : RaftNode) :
    (n.recoverAsNewLeader env now).nodeId = n.nodeId := by
  unfold recoverAsNewLeader
  dsimp only
  split <;> rfl

/-- A node that becomes leader in a step was promoted, or ticked with no leader known and no
smaller id among its peers. -/
theorem ClusterAction.act_self (env : Env) (codec : Postcard) (sent : List Message)
    (n : RaftNode) (a : ClusterAction ι) :
    (a.act env codec sent n).1.nodeId = n.nodeId ∧
      ((a.act env codec sent n).1.role = .leader → n.role = .leader ∨
        (∃ now, a = .promote a.node now) ∨
        (∃ now, a = .tick a.node now) ∧ n.currentLeader = none ∧
          ∀ peer ∈ n.peers, n.nodeId ≤ peer) := by
  cases a with
  | push i now replies queue items =>
      have self := proposePushBatch_self env codec now replies n queue items
      exact ⟨self.1, fun leads => Or.inl (self.2.symm.trans leads)⟩
  | ack i queue items =>
      have self := proposeAckBatch_self env codec n queue items
      exact ⟨self.1, fun leads => Or.inl (self.2.symm.trans leads)⟩
  | poll | heartbeat | sync => exact ⟨rfl, Or.inl⟩
  | deliver i now k =>
      unfold ClusterAction.act
      dsimp only
      split
      · rename_i m _
        have self := handle_self env codec n now m
        exact ⟨self.1, fun leads => Or.inl (self.2 leads)⟩
      · exact ⟨rfl, Or.inl⟩
  | vote i term candidateId =>
      have self := handle_self env codec n 0 (.vote term candidateId)
      exact ⟨self.1, fun leads => Or.inl (self.2 leads)⟩
  | tick i now =>
      unfold ClusterAction.act electionTick
      dsimp only
      split
      · rename_i elects
        refine ⟨recoverAsNewLeader_self env now n, fun _ => Or.inr (Or.inr ⟨⟨now, rfl⟩, elects.2.1, ?_⟩)⟩
        simpa using elects.2.2
      · exact ⟨rfl, Or.inl⟩
  | promote i now =>
      exact ⟨recoverAsNewLeader_self env now n, fun _ => Or.inr (Or.inl ⟨now, rfl⟩)⟩
  | addPeer i peer =>
      unfold ClusterAction.act RaftNode.addPeer
      dsimp only
      split <;> exact ⟨rfl, Or.inl⟩
  | compact i =>
      have self := compactLogSnapshot_self n
      exact ⟨self.1, fun leads => Or.inl (self.2.1.symm.trans leads)⟩

variable [DecidableEq ι]

/-- A node that ticks without a known leader knows every other node, and nodes take the lead
only in their election loops. -/
def Cluster.Acquainted (v : Cluster ι) : ClusterAction ι → Prop
  | .tick i _ => (v.nodes i).currentLeader = none →
      ∀ j, j ≠ i → (v.nodes j).nodeId ∈ (v.nodes i).peers
  | .promote .. => False
  | _ => True

instance [Fintype ι] (v : Cluster ι) : (a : ClusterAction ι) → Decidable (v.Acquainted a)
  | .tick i _ => inferInstanceAs (Decidable ((v.nodes i).currentLeader = none →
      ∀ j, j ≠ i → (v.nodes j).nodeId ∈ (v.nodes i).peers))
  | .promote .. => isFalse id
  | .push .. | .ack .. | .poll .. | .heartbeat _ | .sync _ | .deliver .. | .vote ..
  | .addPeer .. | .compact _ => isTrue trivial

/-- Only the node with the smallest id leads. -/
structure Cluster.Smallest (name : ι → String) (v : Cluster ι) : Prop where
  names : ∀ i, (v.nodes i).nodeId = name i
  least : ∀ i, (v.nodes i).role = .leader → ∀ j, name i ≤ name j

theorem Cluster.Smallest.step {name : ι → String} {v : Cluster ι} {a : ClusterAction ι}
    (env : Env) (codec : Postcard) (smallest : v.Smallest name) (known : v.Acquainted a) :
    (v.step env codec a).Smallest name := by
  have self := a.act_self env codec v.sent (v.nodes a.node)
  refine ⟨fun i => ?_, fun i leads => ?_⟩
  · by_cases same : i = a.node
    · subst same
      simp only [Cluster.step, Function.update_self]
      exact self.1.trans (smallest.names _)
    · simp only [Cluster.step, Function.update_of_ne same]
      exact smallest.names i
  · by_cases same : i = a.node
    · subst same
      simp only [Cluster.step, Function.update_self] at leads
      rcases self.2 leads with before | ⟨now, promoted⟩ | ⟨⟨now, ticked⟩, unknown, least⟩
      · exact smallest.least _ before
      · rw [promoted] at known
        exact absurd known id
      · intro j
        by_cases other : j = a.node
        · rw [other]
        · rw [ticked] at known
          have peer := known unknown j other
          rw [← smallest.names a.node, ← smallest.names j]
          exact least _ peer
    · simp only [Cluster.step, Function.update_of_ne same] at leads
      exact smallest.least i leads

/-- When every node that ticks without a known leader knows all the others, no two nodes lead
in one term. -/
theorem Cluster.one_leader (env : Env) (codec : Postcard) (v : Cluster ι)
    (actions : List (ClusterAction ι)) (distinct : Function.Injective fun i => (v.nodes i).nodeId)
    (fresh : ∀ i, (v.nodes i).role = .follower)
    (run : Trace.Along (Cluster.step env codec) Cluster.Acquainted v actions) :
    let w := actions.foldl (Cluster.step env codec) v
    ∀ i j, (w.nodes i).role = .leader → (w.nodes j).role = .leader →
      (w.nodes i).currentTerm = (w.nodes j).currentTerm → i = j := by
  intro w i j leads leads' _
  have start : v.Smallest fun i => (v.nodes i).nodeId :=
    ⟨fun _ => rfl, fun i leads => by rw [fresh i] at leads; cases leads⟩
  have smallest : w.Smallest fun i => (v.nodes i).nodeId :=
    run.invariant start fun _ _ smallest known => smallest.step env codec known
  exact distinct (le_antisymm (smallest.least i leads j) (smallest.least j leads' i))

/-- Two nodes, freshly started, with the peers they know. -/
def samplePair (peers : Fin 2 → List String) : Cluster (Fin 2) where
  nodes i := RaftNode.new (["n1", "n2"].getD i "") (peers i)
    (QueueEngine.openDir .sample .empty .default 1600000000 0)
  sent := []

/-- Two nodes that do not know each other yet both take the lead, in the same term. -/
theorem Cluster.two_leaders :
    let w := [ClusterAction.tick 0 1600000000, .tick 1 1600000000, .addPeer 0 "n2",
      .addPeer 1 "n1"].foldl (Cluster.step .sample .format) (samplePair fun _ => [])
    (w.nodes 0).role = .leader ∧ (w.nodes 1).role = .leader ∧
      (w.nodes 0).currentTerm = (w.nodes 1).currentTerm := by
  decide +kernel

theorem Cluster.one_leader_sample :
    let w := [ClusterAction.addPeer 0 "n2", .addPeer 1 "n1", .tick 1 1600000000,
      .tick 0 1600000000].foldl (Cluster.step .sample .format) (samplePair fun _ => [])
    (w.nodes 0).role = .leader ∧ ∀ i j, (w.nodes i).role = .leader → (w.nodes j).role = .leader →
      (w.nodes i).currentTerm = (w.nodes j).currentTerm → i = j :=
  ⟨by decide +kernel, Cluster.one_leader .sample .format (samplePair fun _ => [])
    [.addPeer 0 "n2", .addPeer 1 "n1", .tick 1 1600000000, .tick 0 1600000000]
    (by decide +kernel) (fun _ => rfl) (by decide +kernel)⟩

end Leaders

end WalrQueue
