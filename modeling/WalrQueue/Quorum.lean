import WalrQueue.Failover
import WalrQueue.LeaderLog
import WalrQueue.UlidText

/-!
# Commits and quorums

A push stores the commit index only after a quorum of its peers has accepted its entries;
an ack stores it in any case, and the entries of a push that failed stay in the log below
those of later calls.  So the commit index covers entries that no quorum has, unless no call
loses more peers than a quorum can spare.  One push that returns, on the other hand, is on a
quorum of engines.
-/

namespace WalrQueue

open RaftNode Consecutive

/-! ## Committed entries -/

/-- The call waits for its peers. -/
def LeaderStage.isReplicating : LeaderStage → Bool
  | .replicating _ => true
  | _ => false

theorem LeaderStage.isOpen_of_isReplicating {stage : LeaderStage} (waits : stage.isReplicating) :
    stage.isOpen = true := by
  cases stage <;> first | rfl | cases waits

/-- How many peers may fail a call: what a cluster has beyond a quorum. -/
def RaftNode.spare (n : RaftNode) : Nat := n.peers.length + 1 - ((n.peers.length + 1) / 2 + 1)

/-- The answer leaves the call with no more failed peers than the cluster can spare, and no
snapshot comes. -/
def Leading.FewFail (v : Leading) : LeaderAction → Prop
  | .answer i success =>
      match v.calls[i]? with
      | some c => (c.answered v.node success).replies.count false ≤ v.node.spare
      | none => True
  | .install _ => False
  | .tick _ | .poll .. | .begins _ | .resume _ => True

instance (v : Leading) : (action : LeaderAction) → Decidable (v.FewFail action)
  | .answer i success =>
      match call : v.calls[i]? with
      | some c => decidable_of_iff
          ((c.answered v.node success).replies.count false ≤ v.node.spare)
            (by simp only [Leading.FewFail, call])
      | none => isTrue (by simp only [Leading.FewFail, call])
  | .install _ => isFalse id
  | .tick _ | .poll .. | .begins _ | .resume _ => isTrue trivial

section Accepted

variable {start n n' : RaftNode} {calls : List LeaderCall} {c c' : LeaderCall} {i : Nat}

theorem quorumReached_congr {replies : List Bool} (same : n'.peers = n.peers) :
    n'.quorumReached replies = n.quorumReached replies := by
  unfold quorumReached
  rw [same]

/-- A call that has heard from every peer and has lost few of them has a quorum. -/
theorem quorumReached_of_few {replies : List Bool} (few : replies.count false ≤ n.spare)
    (heard : n.peers.length ≤ replies.length) : n.quorumReached replies := by
  have all : replies.count true + replies.count false = replies.length :=
    List.count_not_add_count replies false
  unfold RaftNode.spare at few
  unfold quorumReached
  rw [Bool.or_eq_true, decide_eq_true_eq, decide_eq_true_eq]
  right
  omega

/-- Every entry of the log was there at the start or belongs to a call, every call that has
heard enough has a quorum, and what waits for its peers lies above the commit index. -/
structure Accepted (start n : RaftNode) (calls : List LeaderCall) : Prop where
  ordered : Ordered n calls
  peers : n.peers = start.peers
  covered : ∀ e ∈ n.log, e ∈ start.log ∨ ∃ c ∈ calls, e ∈ c.entries
  decided : ∀ c ∈ calls, c.entries ≠ [] → c.stage.isReplicating ∨ n.quorumReached c.replies
  above : ∀ c ∈ calls, c.stage.isReplicating → ∀ e ∈ c.entries, n.commitIndex < e.index

/-- Entries stay covered when a call is replaced by one with the same entries. -/
theorem covered_set (call : calls[i]? = some c) (entries : c'.entries = c.entries) {e : LogEntry}
    (covered : ∃ d ∈ calls, e ∈ d.entries) : ∃ d ∈ calls.set i c', e ∈ d.entries := by
  obtain ⟨d, inside, entry⟩ := covered
  obtain ⟨j, found⟩ := List.mem_iff_getElem?.1 inside
  by_cases same : i = j
  · subst same
    rw [call, Option.some_inj] at found
    subst found
    refine ⟨c', List.mem_set (List.getElem?_eq_some_iff.1 call).1 _, ?_⟩
    rw [entries]
    exact entry
  · exact ⟨d, List.mem_of_getElem? ((List.getElem?_set_ne same).trans found), entry⟩

/-- A section keeps every committed entry on a quorum when no call is outvoted and commit
indices are stored in order. -/
theorem Accepted.turn (accepted : Accepted start n calls) (call : calls[i]? = some c)
    (turn : c.Turn n n' c') (first : c.stage.isCommitting → ∀ d ∈ calls.eraseIdx i,
      d.stage.isOpen → ∀ e ∈ d.entries, c.lastIndex ≤ e.index)
    (quorate : c.stage.isReplicating → n.peers.length ≤ c.replies.length →
      n.quorumReached c.replies) : Accepted start n' (calls.set i c') := by
  have member : c ∈ calls := List.mem_of_getElem? call
  have ordered := (accepted.ordered.turn call turn first).1
  have before := accepted.ordered.shaped
  have low := accepted.ordered.commit
  obtain ⟨_, same, covered, decided, above⟩ := accepted
  -- all sections but the append and the store
  have keeps : n'.peers = n.peers → n'.commitIndex = n.commitIndex → (∀ e ∈ n'.log, e ∈ n.log) →
      c'.entries = c.entries → c'.replies = c.replies →
      (c'.stage.isReplicating → c.stage.isReplicating) →
      (c.entries ≠ [] → c.stage.isReplicating → c'.stage.isReplicating ∨
        n.quorumReached c.replies) → Accepted start n' (calls.set i c') := by
    intro peers' commit log entries replies waits leaves
    refine ⟨ordered, peers'.trans same, ?_, ?_, ?_⟩
    · exact fun e inside => (covered e (log e inside)).imp_right (covered_set call entries)
    · intro d inside some
      rw [quorumReached_congr peers']
      rcases List.mem_or_eq_of_mem_set inside with inside | rfl
      · exact decided d inside some
      · rw [entries] at some
        rw [replies]
        rcases decided c member some with stage | quorum
        · exact leaves some stage
        · exact Or.inr quorum
    · intro d inside stage
      rw [commit]
      rcases List.mem_or_eq_of_mem_set inside with inside | rfl
      · exact above d inside stage
      · rw [entries]
        exact above c member (waits stage)
  cases turn with
  | quiet log snapshot commit peers' silent closed closed' early some read =>
      have idle : ∀ stage : LeaderStage, stage.isOpen = false → ¬ stage.isReplicating :=
        fun stage closed waits => Bool.false_ne_true
          (closed.symm.trans (LeaderStage.isOpen_of_isReplicating waits))
      exact keeps peers' commit (by simp [log]) rfl rfl (fun waits => absurd waits (idle _ closed'))
        fun _ waits => absurd waits (idle _ closed)
  | @assign term work stands =>
      have empty : c.entries = [] := before.early c member (by simp [stands, LeaderStage.isEarly])
      have inside := (List.getElem?_eq_some_iff.1 call).1
      refine ⟨ordered, same, ?_, ?_, ?_⟩
      · intro e entry
        rcases List.mem_append.1 entry with entry | entry
        · rcases covered e entry with old | ⟨d, found, entry⟩
          · exact Or.inl old
          obtain ⟨j, found⟩ := List.mem_iff_getElem?.1 found
          have self : i ≠ j := by
            rintro rfl
            rw [call, Option.some_inj] at found
            rw [← found, empty] at entry
            cases entry
          exact Or.inr
            ⟨d, List.mem_of_getElem? ((List.getElem?_set_ne self).trans found), entry⟩
        · exact Or.inr ⟨_, List.mem_set inside _, entry⟩
      · intro d found some
        rcases List.mem_or_eq_of_mem_set found with found | rfl
        · exact decided d found some
        · exact Or.inl rfl
      · intro d found stage
        rcases List.mem_or_eq_of_mem_set found with found | rfl
        · exact above d found stage
        · intro e entry
          rw [before.numbered.nextIndex] at entry
          exact low.trans_lt ((from_entriesFrom term n.lastIndex work.commands).mem entry).1
  | wait stands => exact keeps rfl rfl (fun _ => id) rfl rfl id fun _ stage => Or.inl stage
  | goes stands heard =>
      refine keeps rfl rfl (fun _ => id) rfl rfl (by simp [LeaderStage.isReplicating]) ?_
      intro _ stage
      exact Or.inr (heard.elim id fun all => quorate stage all)
  | fails stands outvoted heard =>
      exact absurd (quorate (by simp [stands, LeaderStage.isReplicating]) heard) outvoted
  | @commits work stands =>
      refine ⟨ordered, same, fun e inside => ?_, ?_, ?_⟩
      · refine (covered e inside).imp_right (covered_set call ?_)
        rfl
      · intro d inside some
        rcases List.mem_or_eq_of_mem_set inside with inside | rfl
        · exact decided d inside some
        · refine Or.inr ((decided c member some).resolve_left ?_)
          simp [stands, LeaderStage.isReplicating]
      · intro d inside stage e entry
        obtain ⟨j, found⟩ := List.mem_iff_getElem?.1 inside
        rcases getElem?_set_cases found with ⟨_, rfl⟩ | ⟨other, kept⟩
        · cases work <;> cases stage
        · have opened : c.stage.isOpen := by simp [stands, LeaderStage.isOpen]
          obtain ⟨f, mine, last⟩ := LeaderCall.lastIndex_mem (before.holds c member opened)
          have order := first (by simp [stands, LeaderStage.isCommitting]) d
            (List.mem_eraseIdx_iff_getElem?.2 ⟨j, other, kept⟩)
            (LeaderStage.isOpen_of_isReplicating stage) e entry
          have differs := before.apart j i d c other kept call e entry f mine
          dsimp only
          omega
  | @trims k reply stands =>
      obtain ⟨_, _, _, dropped, split, _⟩ := before.numbered.compactAt k
      refine keeps (compactAt_frame n k).2.1 (compactAt_frame n k).1 (fun e inside => ?_) rfl rfl
        (by simp [LeaderStage.isReplicating]) (by simp [stands, LeaderStage.isReplicating])
      rw [split]
      exact List.mem_append_right _ inside

theorem Accepted.answers (accepted : Accepted start n calls) (call : calls[i]? = some c)
    (success : Bool) : Accepted start n (calls.set i (c.answered n success)) := by
  have member : c ∈ calls := List.mem_of_getElem? call
  obtain ⟨stage, entries⟩ := c.answered_frame n success
  refine ⟨accepted.ordered.answers call success, accepted.peers,
    fun e inside => (accepted.covered e inside).imp_right (covered_set call entries), ?_, ?_⟩
  · intro d inside some
    rcases List.mem_or_eq_of_mem_set inside with inside | rfl
    · exact accepted.decided d inside some
    · rw [entries] at some
      rcases accepted.decided c member some with waits | quorum
      · rw [stage]
        exact Or.inl waits
      · -- a call that no longer waits does not look at answers
        unfold LeaderCall.answered
        split
        · rename_i work stands
          left
          split <;> simp [stands, LeaderStage.isReplicating]
        · exact Or.inr quorum
  · intro d inside
    rcases List.mem_or_eq_of_mem_set inside with inside | rfl
    · exact accepted.above d inside
    · rw [stage, entries]
      exact accepted.above c member

end Accepted

/-- A section of a call hears nothing. -/
theorem LeaderCall.Turn.replies {n n' : RaftNode} {c c' : LeaderCall} (turn : c.Turn n n' c') :
    c'.replies = c.replies := by
  cases turn <;> rfl

/-- As long as few peers fail, every call has lost few of them. -/
theorem Leading.fewFail_step (env : Env) {v : Leading} {action : LeaderAction} {spare : Nat}
    (same : v.node.spare = spare) (few : ∀ c ∈ v.calls, c.replies.count false ≤ spare)
    (fits : v.FewFail action) : ∀ c ∈ (v.step env action).calls, c.replies.count false ≤ spare := by
  have moves := v.step_moves env action
  generalize v.step env action = v' at moves ⊢
  cases moves with
  | idle engine node calls =>
      rw [calls]
      exact few
  | begins node calls =>
      rw [calls]
      intro c inside
      rcases List.mem_append.1 inside with inside | inside
      · exact few c inside
      · rw [List.mem_singleton.1 inside]
        exact Nat.zero_le _
  | answers call node calls =>
      rw [calls]
      simp only [Leading.FewFail, call] at fits
      intro d inside
      rcases List.mem_or_eq_of_mem_set inside with inside | rfl
      · exact few d inside
      · exact same ▸ fits
  | turns call turn calls =>
      rw [calls]
      intro d inside
      rcases List.mem_or_eq_of_mem_set inside with inside | rfl
      · exact few d inside
      · rw [turn.replies]
        exact few _ (List.mem_of_getElem? call)
  | installs node calls => exact absurd fits id

theorem Leading.accepted_step (env : Env) {start : RaftNode} {v : Leading}
    {action : LeaderAction} (accepted : Accepted start v.node v.calls)
    (few : ∀ c ∈ v.calls, c.replies.count false ≤ v.node.spare)
    (fits : v.InOrder action ∧ v.FewFail action) :
    Accepted start (v.step env action).node (v.step env action).calls := by
  have moves := v.step_moves env action
  generalize v.step env action = v' at moves ⊢
  cases moves with
  | idle engine node calls =>
      rw [node, calls]
      exact ⟨accepted.ordered.engine engine, accepted.peers, accepted.covered, accepted.decided,
        accepted.above⟩
  | @begins request _ node calls =>
      rw [node, calls]
      refine ⟨accepted.ordered.begins request, accepted.peers, fun e inside => ?_, ?_, ?_⟩
      · rcases accepted.covered e inside with old | ⟨c, member, entry⟩
        · exact Or.inl old
        · exact Or.inr ⟨c, List.mem_append_left _ member, entry⟩
      · intro c inside some
        rcases List.mem_append.1 inside with inside | inside
        · exact accepted.decided c inside some
        · rw [List.mem_singleton.1 inside] at some
          exact absurd rfl some
      · intro c inside stage
        rcases List.mem_append.1 inside with inside | inside
        · exact accepted.above c inside stage
        · rw [List.mem_singleton.1 inside] at stage
          cases stage
  | @answers i success c _ call node calls =>
      rw [node, calls]
      exact accepted.answers call success
  | turns call turn calls =>
      rw [calls]
      simp only [Leading.InOrder, call] at fits
      exact accepted.turn call turn fits.1 fun _ heard =>
        quorumReached_of_few (few _ (List.mem_of_getElem? call)) heard
  | installs node calls => exact absurd fits.2 id

/-- A leader of three nodes pushes a message with the answer of one peer; the message is
polled and acked, and no peer accepts the ack. -/
def sampleUnheard : List LeaderAction :=
  [.begins (.push "a" [("", [1], 0)]), .resume 0, .resume 0, .answer 0 true, .resume 0, .resume 0,
    .resume 0, .resume 0, .poll "a" 30 1,
    .begins (.ack "a" [(ulidText (Env.sample.ulidNew 0), ulidText (Env.sample.ulidNew 2))]),
    .resume 1, .resume 1, .answer 1 false, .answer 1 false, .resume 1, .resume 1]

/-- A push and the ack of what it pushed, with one peer failing each time. -/
def sampleHeard : List LeaderAction :=
  sampleUnheard.take 12 ++ [.answer 1 false, .answer 1 true, .resume 1, .resume 1]

/-- The loop over the answers of the peers, which stops at the quorum. -/
def countAcks (quorum : Nat) : Nat → List Bool → Nat
  | acks, [] => acks
  | acks, false :: replies => countAcks quorum acks replies
  | acks, true :: replies =>
      if quorum ≤ acks + 1 then acks + 1 else countAcks quorum (acks + 1) replies

/-- Stopping early changes nothing about whether the quorum is reached. -/
theorem le_countAcks {quorum acks : Nat} {replies : List Bool} :
    quorum ≤ countAcks quorum acks replies ↔ quorum ≤ acks + replies.count true := by
  induction replies generalizing acks with
  | nil => rfl
  | cons reply replies ih =>
      cases reply with
      | false => simpa [countAcks] using ih
      | true =>
          unfold countAcks
          rw [List.count_cons_self]
          split
          · omega
          · rw [ih]
            omega

/-- What becomes of the request to a peer: it is lost, it is handled and answered, or it is
handled and the answer is lost. -/
inductive Delivery where
  | lost
  | answered
  | unanswered
  deriving DecidableEq

/-- A peer, its clock when the request arrives, and what becomes of the request. -/
structure Peer where
  node : RaftNode
  clock : Nat
  delivery : Delivery

namespace Peer

/-- The peer after a request, if one was sent. -/
def after (env : Env) (codec : Postcard) (p : Peer) : Option RaftAppend → RaftNode
  | none => p.node
  | some request =>
      match p.delivery with
      | .lost => p.node
      | .answered | .unanswered => (p.node.handleAppendEntries env codec p.clock request).1

/-- What the leader hears: a lost connection counts as a failure. -/
def answer (env : Env) (codec : Postcard) (p : Peer) : Option RaftAppend → Bool
  | none => false
  | some request =>
      match p.delivery with
      | .answered => (p.node.handleAppendEntries env codec p.clock request).2
      | .lost | .unanswered => false

end Peer

namespace RaftNode

variable {env : Env} {codec : Postcard} {now draws : Nat} {n : RaftNode} {queue : String}
  {items : List (String × List UInt8 × Nat)}

/-- The entries `propose_push_batch` logs. -/
def pushEntries (env : Env) (n : RaftNode) (queue : String)
    (items : List (String × List UInt8 × Nat)) : List LogEntry :=
  n.newEntries ((resolveItems env n.engine.draws items).1.map (Proposal.command queue))

/-- The request `propose_push_batch` sends: none for an empty batch. -/
def pushRequest (env : Env) (codec : Postcard) (n : RaftNode) (queue : String)
    (items : List (String × List UInt8 × Nat)) : Option RaftAppend :=
  if items = [] then none else some (n.appendRequest codec (n.pushEntries env queue items))

/-- A batch of messages passed to an engine one by one. -/
def pushAll (env : Env) (now : Nat) (queue : String) (e : QueueEngine) (proposals : List Proposal) :
    QueueEngine :=
  proposals.foldl (fun e p => (e.pushWithUlid env now queue p.ulid p.payload p.delaySeconds).1) e

/-- The node has appended the entries to its log, which it may then have cut, and its engine
has become the given one. -/
def Takes (n : RaftNode) (entries : List LogEntry) (engine : QueueEngine) (n' : RaftNode) : Prop :=
  ∃ m : RaftNode, m.log = n.log ++ entries ∧ m.engine = engine ∧
    (n' = m ∨ n' = m.trimLog ∨ n' = m.compactLogSnapshot)

/-- The item a proposal is made from: the payload and the delay are the item's, the id is
the item's or a new one, and a follower reads the text of the id as the leader does. -/
structure Resolves (env : Env) (item : String × List UInt8 × Nat) (p : Proposal) : Prop where
  id : p.msgId = item.1 ∨ p.msgId = env.ulidToString p.ulid
  payload : p.payload = item.2.1
  delay : p.delaySeconds = item.2.2
  read : RaftCommand.followerId env p.msgId = some p.ulid

theorem resolveId_spec (texts : env.UlidTexts) (draws : Nat) (mId : String) :
    ((resolveId env draws mId).1.1 = mId ∨
        (resolveId env draws mId).1.1 = env.ulidToString (resolveId env draws mId).1.2) ∧
      RaftCommand.followerId env (resolveId env draws mId).1.1 =
        some (resolveId env draws mId).1.2 := by
  have fresh : ∀ u, RaftCommand.followerId env (env.ulidToString u) = some u := by
    intro u
    simp only [RaftCommand.followerId, texts.read]
  unfold resolveId
  dsimp only
  split
  · exact ⟨Or.inr rfl, fresh _⟩
  · split
    · split
      · rename_i u reads
        exact ⟨Or.inl rfl, by simp only [RaftCommand.followerId, reads]⟩
      · exact ⟨Or.inr rfl, fresh _⟩
    · rename_i long
      split
      · rename_i u reads
        refine ⟨Or.inl rfl, ?_⟩
        unfold RaftCommand.followerId
        cases text : env.ulidFromString mId with
        | none => exact reads
        | some v => exact absurd (texts.length mId v text) long
      · exact ⟨Or.inr rfl, fresh _⟩

theorem resolveItems_spec (texts : env.UlidTexts) (draws : Nat)
    (items : List (String × List UInt8 × Nat)) :
    List.Forall₂ (Resolves env) items (resolveItems env draws items).1 := by
  induction items generalizing draws with
  | nil => exact .nil
  | cons item items ih =>
      obtain ⟨mId, payload, delaySeconds⟩ := item
      have id := resolveId_spec texts draws mId
      exact .cons ⟨id.1, rfl, rfl, id.2⟩ (ih _)

/-- The commands of a batch at a follower are pushes of its messages. -/
theorem applyAt_foldl_pushAll (now : Nat) (queue : String) {proposals : List Proposal}
    (resolved : List.Forall₂ (Resolves env) items proposals) (e : QueueEngine) :
    ((proposals.map (Proposal.command queue)).map (Prod.mk now)).foldl (applyAt env) e =
      pushAll env now queue e proposals := by
  induction resolved generalizing e with
  | nil => rfl
  | @cons item p items proposals one _ ih =>
      have first : applyAt env e (now, p.command queue) =
          (e.pushWithUlid env now queue p.ulid p.payload p.delaySeconds).1 := by
        rw [applyAt, Proposal.command, applyCommand_push, one.read]
      simp only [List.map_cons, List.foldl_cons, first, pushAll]
      exact ih _

/-- A follower that accepts the request of a push has taken the batch. -/
theorem handleAppendEntries_takes (texts : env.UlidTexts) {f : RaftNode} {request : RaftAppend}
    (sent : n.pushRequest env codec queue items = some request)
    (accepted : (f.handleAppendEntries env codec now request).2 = true) :
    f.Takes (n.pushEntries env queue items)
      (pushAll env now queue f.engine (resolveItems env n.engine.draws items).1)
      (f.handleAppendEntries env codec now request).1 := by
  unfold pushRequest at sent
  split at sent
  · cases sent
  · cases sent
    have engine := (handleAppendEntries_engine env codec now f
      (n.appendRequest codec (n.pushEntries env queue items))).1
    unfold handleAppendEntries at accepted engine ⊢
    split at accepted
    · cases accepted
    · rename_i current
      rw [if_neg current] at engine ⊢
      dsimp only at engine ⊢
      rw [(trimLog_engine _).1] at engine
      obtain ⟨log, _⟩ := applyEntry_foldl_log env codec now (n.pushEntries env queue items)
        { f with currentLeader := some n.nodeId }
      refine ⟨_, log, engine.trans ?_, Or.inr (Or.inl rfl)⟩
      have commands : commandsOf codec (n.appendRequest codec (n.pushEntries env queue items)) =
          (resolveItems env n.engine.draws items).1.map (Proposal.command queue) :=
        commandsOf_newEntries codec n _
      simp only [applied, List.filter_cons, Nat.not_lt.1 current, decide_true, if_true,
        List.filter_nil, List.flatMap_cons, List.flatMap_nil, List.append_nil, commands]
      exact applyAt_foldl_pushAll now queue (resolveItems_spec texts n.engine.draws items) f.engine

/-- A peer that answers `true` has taken the batch. -/
theorem Takes.of_answer (texts : env.UlidTexts) {p : Peer}
    (answer : p.answer env codec (n.pushRequest env codec queue items) = true) :
    p.node.Takes (n.pushEntries env queue items)
      (pushAll env p.clock queue p.node.engine (resolveItems env n.engine.draws items).1)
      (p.after env codec (n.pushRequest env codec queue items)) := by
  cases sent : n.pushRequest env codec queue items with
  | none =>
      rw [sent] at answer
      cases answer
  | some request =>
      rw [sent] at answer
      unfold Peer.answer at answer
      unfold Peer.after
      dsimp only at answer ⊢
      cases delivery : p.delivery with
      | lost =>
          rw [delivery] at answer
          cases answer
      | unanswered =>
          rw [delivery] at answer
          cases answer
      | answered =>
          rw [delivery] at answer
          exact handleAppendEntries_takes texts sent answer

/-- The peers whose answers the leader counts have taken the batch. -/
theorem exists_takes (texts : env.UlidTexts) {peers : List Peer} {arrivals : List Bool}
    (heard : arrivals.Perm
      (peers.map fun p => p.answer env codec (n.pushRequest env codec queue items))) :
    ∃ S : List Peer, S.Sublist peers ∧ S.length = arrivals.count true ∧
      ∀ p ∈ S, p.node.Takes (n.pushEntries env queue items)
        (pushAll env p.clock queue p.node.engine (resolveItems env n.engine.draws items).1)
        (p.after env codec (n.pushRequest env codec queue items)) := by
  refine ⟨peers.filter fun p => p.answer env codec (n.pushRequest env codec queue items),
    List.filter_sublist, ?_, fun p inside => .of_answer texts (List.mem_filter.1 inside).2⟩
  rw [heard.count_eq, List.count, List.countP_map, List.countP_eq_length_filter]
  congr 2
  funext p
  simp

/-- A push that returns ids has one for each item, in order, and the leader and enough of its
peers have taken the batch; when too few have, the push fails and leaves the engine and the
commit index of the leader as they were. -/
theorem push_on_majority (texts : env.UlidTexts) (codec : Postcard) (now : Nat)
    (leader : RaftNode) (peers : List Peer) (arrivals : List Bool) (queue : String)
    (items : List (String × List UInt8 × Nat)) (leads : leader.role = .leader)
    (each : peers.length = leader.peers.length) (heard : arrivals.Perm
      (peers.map fun p => p.answer env codec (leader.pushRequest env codec queue items))) :
    let proposals := (resolveItems env leader.engine.draws items).1
    let done := leader.proposePushBatch env codec now arrivals queue items
    let taken := fun p : Peer => p.node.Takes (leader.pushEntries env queue items)
      (pushAll env p.clock queue p.node.engine proposals)
      (p.after env codec (leader.pushRequest env codec queue items))
    (∀ ids, done.2.1 = .ok ids →
      ids = proposals.map (·.msgId) ∧ List.Forall₂ (Resolves env) items proposals ∧
      (items ≠ [] → done.2.2 = leader.pushRequest env codec queue items ∧
        leader.Takes (leader.pushEntries env queue items)
          ((({ leader.engine with draws := (resolveItems env leader.engine.draws items).2 } :
            QueueEngine).pushBatch env now queue (proposals.map Proposal.item)).1) done.1) ∧
      ∃ S : List Peer, S.Sublist peers ∧ (peers.length + 1) / 2 + 1 ≤ 1 + S.length ∧
        ∀ p ∈ S, taken p) ∧
    ((∀ S : List Peer, S.Sublist peers → (∀ p ∈ S, taken p) →
        1 + S.length < (peers.length + 1) / 2 + 1) →
      (∃ why, done.2.1 = .error why) ∧
        done.1.engine = { leader.engine with draws := done.1.engine.draws } ∧
        done.1.commitIndex = leader.commitIndex) := by
  intro proposals done taken
  have resolved := resolveItems_spec texts leader.engine.draws items
  by_cases none : items = []
  · have finished : done = (leader, .ok [], Option.none) := by
      simp only [done, proposePushBatch, leads, none, ne_eq, not_true_eq_false, if_false, if_true]
    have all : ∀ p ∈ peers, taken p := by
      intro p _
      simp only [taken, proposals, pushRequest, if_pos none, Peer.after]
      refine ⟨p.node, ?_, ?_, Or.inl rfl⟩ <;> rw [none]
      · exact (List.append_nil _).symm
      · rfl
    rw [finished]
    refine ⟨fun ids ok => ?_, fun few => ?_⟩
    · cases ok
      refine ⟨?_, resolved, fun some => absurd none some, peers, .refl _, by omega, all⟩
      simp only [proposals, none]
      rfl
    · have := few peers (.refl _) all
      omega
  · obtain ⟨S, part, count, takes⟩ := exists_takes texts heard
    have sent : leader.pushRequest env codec queue items =
        some (leader.appendRequest codec (leader.pushEntries env queue items)) := if_neg none
    by_cases quorum : leader.quorumReached arrivals = true
    · have enough : (peers.length + 1) / 2 + 1 ≤ 1 + S.length := by
        unfold quorumReached at quorum
        rw [Bool.or_eq_true, decide_eq_true_eq, decide_eq_true_eq] at quorum
        rw [each, count]
        rcases quorum with alone | enough
        · simp [alone]
        · exact enough
      have finished : done = _ := (if_neg (not_not.2 leads)).trans ((if_neg none).trans
        (if_pos quorum))
      rw [finished]
      refine ⟨fun ids ok => ?_, fun few => ?_⟩
      · cases ok
        refine ⟨rfl, resolved, fun _ => ⟨sent.symm, ?_⟩, S, part, enough, takes⟩
        dsimp only
        split
        · exact ⟨_, rfl, rfl, Or.inr (Or.inr rfl)⟩
        · exact ⟨_, rfl, rfl, Or.inl rfl⟩
      · have := few S part takes
        omega
    · have finished : done = _ := (if_neg (not_not.2 leads)).trans ((if_neg none).trans
        (if_neg quorum))
      rw [finished]
      exact ⟨(fun ids ok => by cases ok), fun _ => ⟨⟨_, rfl⟩, rfl, rfl⟩⟩

/-- A leader and a peer that answers, of three nodes. -/
theorem push_on_majority_sample :
    let leader := { sampleLeader with peers := ["n2", "n3"] }
    let peers : List Peer := [⟨sampleFollower, 1600000000, .answered⟩,
      ⟨{ sampleFollower with nodeId := "n3" }, 1600000000, .lost⟩]
    (leader.proposePushBatch .sample .format 1600000000 [false, true] "a" [("", [1], 0)]).2.1.isOk =
        true ∧
      ∃ S : List Peer, S.Sublist peers ∧ (2 + 1) / 2 + 1 ≤ 1 + S.length ∧ ∀ p ∈ S,
        p.node.Takes (leader.pushEntries .sample "a" [("", [1], 0)])
          (pushAll .sample p.clock "a" p.node.engine
            (resolveItems .sample leader.engine.draws [("", [1], 0)]).1)
          (p.after .sample .format (leader.pushRequest .sample .format "a" [("", [1], 0)])) := by
  intro leader peers
  have heard : [false, true].Perm (peers.map fun p => p.answer .sample .format
      (leader.pushRequest .sample .format "a" [("", [1], 0)])) := by decide +kernel
  have isOk : (leader.proposePushBatch .sample .format 1600000000 [false, true] "a"
      [("", [1], 0)]).2.1.isOk = true := by decide +kernel
  have majority := push_on_majority Env.sample_ulidTexts .format 1600000000 leader peers
    [false, true] "a" [("", [1], 0)] rfl rfl heard
  refine ⟨isOk, ?_⟩
  cases result : (leader.proposePushBatch .sample .format 1600000000 [false, true] "a"
      [("", [1], 0)]).2.1 with
  | error why =>
      rw [result] at isOk
      cases isOk
  | ok ids =>
      obtain ⟨_, _, _, taken⟩ := majority.1 ids result
      exact taken

end RaftNode

end WalrQueue
