import WalrQueue.Cluster

/-!
# Matching logs

A follower appends whatever a message brings, whether or not its log holds those indices
already, and a node that takes the lead goes on from the end of its own log in the term it
has.  Two logs match as long as one node proposes in each term and the entries of a message come
behind what the log they arrive at has.
-/

namespace WalrQueue

open RaftNode

variable {ι : Type}

section Logs

variable {codec : Postcard} {n n' : RaftNode} {out : List Message}

/-! ## The indices of a log -/

/-- The snapshot of a node and the entries of its log, by index. -/
def RaftNode.indices (n : RaftNode) : List Nat := n.snapshotIndex :: n.log.map LogEntry.index

/-- What a request counts on, and the entries it brings, by index. -/
def Message.indices : Message → List Nat
  | .append request => request.prevLogIndex :: request.entries.map RaftLogEntryWire.index
  | .snapshot _ | .vote .. => []

theorem RaftNode.indices_ne_nil (n : RaftNode) : n.indices ≠ [] := List.cons_ne_nil _ _

/-- The next index follows the last one. -/
theorem RaftNode.nextIndex_eq (n : RaftNode) :
    n.nextIndex = n.indices.getLast n.indices_ne_nil + 1 := by
  unfold RaftNode.nextIndex
  rcases n.log.eq_nil_or_concat with empty | ⟨front, last, split⟩
  · simp [RaftNode.indices, empty]
  · simp [RaftNode.indices, split]

theorem RaftNode.lt_nextIndex (rising : n.indices.Pairwise (· < ·)) {k : Nat}
    (inside : k ∈ n.indices) : k < n.nextIndex := by
  rw [nextIndex_eq]
  exact Nat.lt_succ_of_le (rising.imp Nat.le_of_lt |>.rel_getLast inside)

/-- Cutting the front keeps the end. -/
theorem RaftNode.nextIndex_of_suffix {more : List Nat} (cut : n'.indices <:+ n.indices ++ more) :
    n'.nextIndex = (n.indices ++ more).getLast (List.append_ne_nil_of_left_ne_nil
      n.indices_ne_nil more) + 1 := by
  obtain ⟨front, whole⟩ := cut
  rw [nextIndex_eq]
  simp only [← whole, List.getLast_append_of_right_ne_nil _ _ n'.indices_ne_nil]

theorem RaftNode.nextIndex_le_of_suffix {more : List Nat}
    (cut : n'.indices <:+ n.indices ++ more) (rising : (n.indices ++ more).Pairwise (· < ·)) :
    n.nextIndex ≤ n'.nextIndex ∧ ∀ k ∈ more, k < n'.nextIndex := by
  have last : ∀ k ∈ n.indices ++ more, k < n'.nextIndex := by
    intro k inside
    rw [nextIndex_of_suffix cut]
    exact Nat.lt_succ_of_le (rising.imp Nat.le_of_lt |>.rel_getLast inside)
  refine ⟨?_, fun k inside => last k (List.mem_append_right _ inside)⟩
  rw [nextIndex_eq]
  exact last _ (List.mem_append_left _ (List.getLast_mem _))

theorem RaftNode.suffix_compactAt (n : RaftNode) (commit : Nat) :
    (n.compactAt commit).log <:+ n.log ∧ (n.compactAt commit).indices <:+ n.indices := by
  rcases compactAt_cases n commit with same | ⟨front, last, rest, split, _, _, cut⟩
  · rw [same]
    exact ⟨List.suffix_refl _, List.suffix_refl _⟩
  · rw [cut]
    refine ⟨⟨front ++ [last], ?_⟩, n.snapshotIndex :: front.map LogEntry.index, ?_⟩
    · rw [split, List.append_assoc, List.singleton_append]
    · simp [RaftNode.indices, split]

theorem RaftNode.suffix_trimLog (n : RaftNode) :
    n.trimLog.log <:+ n.log ∧ n.trimLog.indices <:+ n.indices := by
  unfold trimLog
  split
  · dsimp only
    split
    · rename_i last found
      obtain ⟨inside, rfl⟩ := List.getElem?_eq_some_iff.1 found
      refine ⟨List.drop_suffix _ _, ?_⟩
      have cut : n.log.drop (n.log.length - n.compactionThreshold - 1) =
          n.log[n.log.length - n.compactionThreshold - 1] ::
            n.log.drop (n.log.length - n.compactionThreshold) := by
        rw [List.drop_eq_getElem_cons inside]
        congr 2
        omega
      have tail : (n.log.drop (n.log.length - n.compactionThreshold - 1)).map LogEntry.index <:+
          n.indices := ((List.drop_suffix _ _).map _).trans (List.suffix_cons _ _)
      rw [cut] at tail
      exact tail
    · exact ⟨List.suffix_refl _, List.suffix_refl _⟩
  · exact ⟨List.suffix_refl _, List.suffix_refl _⟩

/-! ## Steps -/

/-- The action is a proposal. -/
def ClusterAction.asks : ClusterAction ι → Bool
  | .push .. | .ack .. => true
  | _ => false

/-- The message an action delivers. -/
def ClusterAction.brings (sent : List Message) : ClusterAction ι → Option Message
  | .deliver _ _ k => sent[k]?
  | _ => none

theorem ClusterAction.mem_of_brings {sent : List Message} {a : ClusterAction ι} {m : Message}
    (brings : a.brings sent = some m) : m ∈ sent := by
  cases a <;> first | exact List.mem_of_getElem? brings | cases brings

/-- What a step does to the log of its node: it cuts it, it appends new entries and sends
them, it appends the entries of a request, or it drops what a snapshot covers.  What else it
sends is the log itself or carries no entries. -/
inductive LogStep (codec : Postcard) (asked : Bool) (brought : Option Message) (n : RaftNode) :
    RaftNode → List Message → Prop
  | keeps {n' : RaftNode} {out : List Message} (log : n'.log <:+ n.log)
      (indices : n'.indices <:+ n.indices)
      (sends : ∀ m ∈ out, m.entries = [] ∨
        m.entries = n.log.map (LogEntry.wire codec) ∧ m.indices = n.indices) :
      LogStep codec asked brought n n' out
  | proposes {n' : RaftNode} {m : Message} (commands : List RaftCommand) (asks : asked = true)
      (leads : n.role = .leader) (log : n'.log <:+ n.log ++ n.newEntries commands)
      (indices : n'.indices <:+ n.indices ++ (n.newEntries commands).map LogEntry.index)
      (carries : m.entries = (n.newEntries commands).map (LogEntry.wire codec))
      (counts : m.indices = (n.nextIndex - 1) :: (n.newEntries commands).map LogEntry.index) :
      LogStep codec asked brought n n' [m]
  | receives {n' : RaftNode} {request : RaftAppend} (brings : brought = some (.append request))
      (current : n.currentTerm ≤ request.term)
      (log : ∀ es : List LogEntry, request.entries = es.map (LogEntry.wire codec) →
        n'.log <:+ n.log ++ es ∧ n'.indices <:+ n.indices ++ es.map LogEntry.index) :
      LogStep codec asked brought n n' []
  | installs {n' : RaftNode} {request : RaftInstallSnapshot}
      (brings : brought = some (.snapshot request)) (current : n.currentTerm ≤ request.term)
      (snapshot : n'.snapshotIndex = request.lastIncludedIndex)
      (log : n'.log = n.log.filter fun entry => request.lastIncludedIndex < entry.index) :
      LogStep codec asked brought n n' []

/-- A step that does not touch the log and sends no entries. -/
theorem LogStep.rests {asked : Bool} {brought : Option Message} (log : n'.log = n.log)
    (snapshot : n'.snapshotIndex = n.snapshotIndex) (sends : ∀ m ∈ out, m.entries = []) :
    LogStep codec asked brought n n' out := by
  refine .keeps (by rw [log]) ?_ fun m inside => Or.inl (sends m inside)
  rw [RaftNode.indices, log, snapshot]
  exact List.suffix_refl _

/-- A proposal appends its entries and may cut the log after that. -/
theorem LogStep.of_appends {asked : Bool} {brought : Option Message} {request : RaftAppend}
    (commands : List RaftCommand) (asks : asked = true) (leads : n.role = .leader)
    {grown : RaftNode} (cut : n'.log <:+ grown.log ∧ n'.indices <:+ grown.indices)
    (log : grown.log = n.log ++ n.newEntries commands)
    (snapshot : grown.snapshotIndex = n.snapshotIndex)
    (sends : request = n.appendRequest codec (n.newEntries commands)) :
    LogStep codec asked brought n n' [.append request] := by
  have indices : grown.indices = n.indices ++ (n.newEntries commands).map LogEntry.index := by
    rw [RaftNode.indices, log, snapshot, List.map_append]
    rfl
  rw [log, indices] at cut
  subst sends
  refine .proposes commands asks leads cut.1 cut.2 rfl ?_
  simp [Message.indices, RaftNode.appendRequest]

theorem LogStep.push (env : Env) (codec : Postcard) (now : Nat) (replies : List Bool)
    (n : RaftNode) (queue : String) (items : List (String × List UInt8 × Nat)) :
    LogStep codec true none n (n.proposePushBatch env codec now replies queue items).1
      ((n.proposePushBatch env codec now replies queue items).2.2.toList.map .append) := by
  unfold proposePushBatch
  split
  · exact .rests rfl rfl (by simp)
  · rename_i leads
    split
    · exact .rests rfl rfl (by simp)
    · dsimp only
      split
      · split
        · exact .of_appends _ rfl (not_not.1 leads) (suffix_compactAt _ _) rfl rfl rfl
        · exact .of_appends _ rfl (not_not.1 leads)
            ⟨List.suffix_refl _, List.suffix_refl _⟩ rfl rfl rfl
      · exact .of_appends _ rfl (not_not.1 leads)
          ⟨List.suffix_refl _, List.suffix_refl _⟩ rfl rfl rfl

theorem LogStep.ack (env : Env) (codec : Postcard) (n : RaftNode) (queue : String)
    (items : List (String × String)) :
    LogStep codec true none n (n.proposeAckBatch env codec queue items).1
      ((n.proposeAckBatch env codec queue items).2.2.toList.map .append) := by
  unfold proposeAckBatch
  split
  · exact .rests rfl rfl (by simp)
  · rename_i leads
    split
    · exact .rests rfl rfl (by simp)
    · dsimp only
      split
      · exact .rests rfl rfl (by simp)
      · split
        · exact .of_appends _ rfl (not_not.1 leads) (suffix_compactAt _ _) rfl rfl rfl
        · exact .of_appends _ rfl (not_not.1 leads)
            ⟨List.suffix_refl _, List.suffix_refl _⟩ rfl rfl rfl

theorem LogStep.handle (env : Env) (codec : Postcard) (n : RaftNode) (now : Nat) (m : Message) :
    LogStep codec false (some m) n (n.handle env codec now m).1 [] := by
  cases m with
  | append request =>
      unfold RaftNode.handle handleAppendEntries
      dsimp only
      split
      · exact .rests rfl rfl (by simp)
      · rename_i current
        refine .receives rfl (Nat.not_lt.1 current) fun es carries => ?_
        rw [carries]
        obtain ⟨log, snapshot, _⟩ := applyEntry_foldl_log env codec now es
          { n with currentLeader := some request.leaderId }
        have cut := suffix_trimLog ((es.map (LogEntry.wire codec)).foldl (applyEntry env codec now)
          { n with currentLeader := some request.leaderId })
        refine ⟨cut.1.trans (by rw [log]), cut.2.trans ?_⟩
        rw [RaftNode.indices, log, snapshot, List.map_append]
        exact List.suffix_refl _
  | snapshot request =>
      unfold RaftNode.handle handleInstallSnapshot
      dsimp only
      split
      · exact .rests rfl rfl (by simp)
      · rename_i current
        exact .installs rfl (Nat.not_lt.1 current) rfl rfl
  | vote term candidateId =>
      unfold RaftNode.handle handleVote
      dsimp only
      split <;> exact .rests rfl rfl (by simp)

theorem recoverAsNewLeader_log (env : Env) (now : Nat) (n : RaftNode) :
    (n.recoverAsNewLeader env now).log = n.log ∧
      (n.recoverAsNewLeader env now).snapshotIndex = n.snapshotIndex := by
  unfold recoverAsNewLeader
  dsimp only
  split <;> exact ⟨rfl, rfl⟩

theorem ClusterAction.act_logStep (env : Env) (codec : Postcard) (sent : List Message)
    (n : RaftNode) (a : ClusterAction ι) :
    LogStep codec a.asks (a.brings sent) n (a.act env codec sent n).1
      (a.act env codec sent n).2 := by
  cases a with
  | push i now replies queue items => exact .push env codec now replies n queue items
  | ack i queue items => exact .ack env codec n queue items
  | poll => exact .rests rfl rfl (by simp [ClusterAction.act])
  | heartbeat i => exact .rests rfl rfl fun m inside => by rw [List.mem_singleton.1 inside]; rfl
  | sync i =>
      refine .keeps (List.suffix_refl _) (List.suffix_refl _) fun m inside => ?_
      rcases List.mem_cons.1 inside with rfl | inside
      · exact Or.inl rfl
      · obtain ⟨request, found, rfl⟩ := List.mem_map.1 inside
        rw [Option.mem_toList] at found
        unfold logRequest at found
        split at found
        · cases found
        · cases found
          exact Or.inr ⟨rfl, by simp [Message.indices, RaftNode.indices]⟩
  | deliver i now k =>
      unfold ClusterAction.act ClusterAction.brings
      dsimp only
      split
      · rename_i m found
        rw [found]
        exact .handle env codec n now m
      · exact .rests rfl rfl (by simp)
  | vote i term candidateId =>
      unfold ClusterAction.act handleVote
      dsimp only
      split <;> exact .rests rfl rfl (by simp)
  | tick i now =>
      have log : (n.electionTick env now).log = n.log ∧
          (n.electionTick env now).snapshotIndex = n.snapshotIndex := by
        unfold electionTick
        split
        · exact recoverAsNewLeader_log env now n
        · exact ⟨rfl, rfl⟩
      refine .rests log.1 log.2 fun m inside => ?_
      unfold ClusterAction.act at inside
      dsimp only at inside
      split at inside
      · rw [List.mem_singleton.1 inside]
        rfl
      · cases inside
  | promote i now =>
      exact .rests (recoverAsNewLeader_log env now n).1 (recoverAsNewLeader_log env now n).2
        (by simp [ClusterAction.act])
  | addPeer i peer =>
      unfold ClusterAction.act RaftNode.addPeer
      dsimp only
      split <;> exact .rests rfl rfl (by simp)
  | compact i =>
      exact .keeps (suffix_compactAt n _).1 (suffix_compactAt n _).2 (by simp [ClusterAction.act])

/-! ## Runs -/

/-- The entries of a request come behind what the log has, and a snapshot is not older than
the one of the node. -/
def RaftNode.Awaits (n : RaftNode) : Message → Prop
  | .append request => request.entries ≠ [] → n.nextIndex ≤ request.prevLogIndex + 1
  | .snapshot request => n.snapshotIndex ≤ request.lastIncludedIndex
  | .vote .. => True

instance (n : RaftNode) : (m : Message) → Decidable (n.Awaits m)
  | .append _ => inferInstanceAs (Decidable (_ → _))
  | .snapshot _ => inferInstanceAs (Decidable (_ ≤ _))
  | .vote .. => isTrue trivial

/-- One node proposes in each term, and messages that are accepted arrive in order. -/
def Cluster.InTurn (chair : Nat → ι) (v : Cluster ι) (a : ClusterAction ι) : Prop :=
  (a.asks → (v.nodes a.node).role = .leader → chair (v.nodes a.node).currentTerm = a.node) ∧
    ∀ m ∈ a.brings v.sent, (v.nodes a.node).currentTerm ≤ m.term → (v.nodes a.node).Awaits m

instance [DecidableEq ι] (chair : Nat → ι) (v : Cluster ι) (a : ClusterAction ι) :
    Decidable (v.InTurn chair a) :=
  inferInstanceAs (Decidable (_ ∧ _))

theorem LogEntry.wire_injective (codec : Postcard) : Function.Injective (LogEntry.wire codec) := by
  intro e f same
  obtain ⟨term, index, command⟩ := e
  obtain ⟨term', index', command'⟩ := f
  simp only [LogEntry.wire, RaftLogEntryWire.mk.injEq] at same
  obtain ⟨rfl, rfl, bytes⟩ := same
  have decoded := codec.fromBytes_toAllocvec command
  rw [bytes, codec.fromBytes_toAllocvec, Option.some_inj] at decoded
  rw [decoded]

/-- Some log or some message holds the entry. -/
def Cluster.Holds (codec : Postcard) (v : Cluster ι) (e : LogEntry) : Prop :=
  (∃ i, e ∈ (v.nodes i).log) ∨ ∃ m ∈ v.sent, e.wire codec ∈ m.entries

/-- Entries of one index and term are one, in logs and messages; the node that proposes in a
term is past all entries of that term; and indices rise in every log and every message. -/
structure Cluster.Matched (codec : Postcard) (chair : Nat → ι) (v : Cluster ι) : Prop where
  agree : ∀ e f, v.Holds codec e → v.Holds codec f → e.index = f.index → e.term = f.term → e = f
  below : ∀ e, v.Holds codec e → e.index < (v.nodes (chair e.term)).nextIndex
  rising : ∀ i, (v.nodes i).indices.Pairwise (· < ·)
  wires : ∀ m ∈ v.sent, m.indices.Pairwise (· < ·) ∧
    ∃ es : List LogEntry, m.entries = es.map (LogEntry.wire codec)

variable [DecidableEq ι] {chair : Nat → ι} {v : Cluster ι} {i : ι}

/-- A step of the node that proposes in the term of the new entries, if there are any. -/
theorem Cluster.Matched.update (matched : v.Matched codec chair) (new : List LogEntry)
    (fresh : ∀ f ∈ new, chair f.term = i ∧ (v.nodes i).nextIndex ≤ f.index ∧ f.index < n'.nextIndex)
    (distinct : (new.map LogEntry.index).Nodup)
    (log : ∀ e ∈ n'.log, v.Holds codec e ∨ e ∈ new)
    (rising : n'.indices.Pairwise (· < ·)) (grows : (v.nodes i).nextIndex ≤ n'.nextIndex)
    (wires : ∀ m ∈ out, m.indices.Pairwise (· < ·) ∧ ∃ es : List LogEntry,
      m.entries = es.map (LogEntry.wire codec) ∧ ∀ e ∈ es, v.Holds codec e ∨ e ∈ new) :
    Cluster.Matched codec chair ⟨Function.update v.nodes i n', v.sent ++ out⟩ := by
  have held : ∀ e, Cluster.Holds codec ⟨Function.update v.nodes i n', v.sent ++ out⟩ e →
      v.Holds codec e ∨ e ∈ new := by
    rintro e (⟨j, inside⟩ | ⟨m, inside, entry⟩)
    · dsimp only at inside
      by_cases same : j = i
      · subst same
        rw [Function.update_self] at inside
        exact log e inside
      · rw [Function.update_of_ne same] at inside
        exact Or.inl (Or.inl ⟨j, inside⟩)
    · rcases List.mem_append.1 inside with inside | inside
      · exact Or.inl (Or.inr ⟨m, inside, entry⟩)
      · obtain ⟨_, es, carries, held⟩ := wires m inside
        rw [carries, List.mem_map_of_injective (LogEntry.wire_injective codec)] at entry
        exact held e entry
  have apart : ∀ e, v.Holds codec e → ∀ f ∈ new, e.term = f.term → e.index < f.index := by
    intro e old f inside term
    obtain ⟨leads, above, _⟩ := fresh f inside
    have below := matched.below e old
    rw [term, leads] at below
    exact below.trans_le above
  refine ⟨fun e f first second index term => ?_, fun e inside => ?_, ?_, fun m inside => ?_⟩
  · rcases held e first with old | inside
    · rcases held f second with old' | inside'
      · exact matched.agree e f old old' index term
      · exact absurd index (apart e old f inside' term).ne
    · rcases held f second with old' | inside'
      · exact absurd index (apart f old' e inside term.symm).ne'
      · exact List.inj_on_of_nodup_map distinct inside inside' index
  · dsimp only
    rcases held e inside with old | inside
    · have below := matched.below e old
      by_cases leads : chair e.term = i
      · rw [leads, Function.update_self]
        rw [leads] at below
        exact below.trans_le grows
      · rw [Function.update_of_ne leads]
        exact below
    · obtain ⟨leads, _, low⟩ := fresh e inside
      rw [leads, Function.update_self]
      exact low
  · exact (Function.forall_update_iff v.nodes fun _ n => n.indices.Pairwise (· < ·)).2
      ⟨rising, fun j _ => matched.rising j⟩
  · rcases List.mem_append.1 inside with inside | inside
    · exact matched.wires m inside
    · obtain ⟨rises, es, carries, _⟩ := wires m inside
      exact ⟨rises, es, carries⟩

/-- The new entries of a node are of its term and go on from its last index. -/
theorem newEntries_spec (n : RaftNode) (commands : List RaftCommand) :
    (n.newEntries commands).map LogEntry.index = List.range' n.nextIndex commands.length ∧
      ∀ e ∈ n.newEntries commands, e.term = n.currentTerm := by
  refine ⟨?_, fun e inside => ?_⟩
  · rw [newEntries, List.map_map, ← List.zipIdx_map_snd]
    rfl
  · obtain ⟨command, _, rfl⟩ := List.mem_map.1 inside
    rfl

/-- Indices behind the last one keep them rising. -/
theorem RaftNode.rising_append (rising : n.indices.Pairwise (· < ·)) {more : List Nat}
    (rises : more.Pairwise (· < ·)) (above : ∀ k ∈ more, n.nextIndex ≤ k) :
    (n.indices ++ more).Pairwise (· < ·) :=
  List.pairwise_append.2 ⟨rising, rises,
    fun _ inside k later => (lt_nextIndex rising inside).trans_le (above k later)⟩

theorem Message.rising_of_empty {m : Message} (empty : m.entries = []) :
    m.indices.Pairwise (· < ·) := by
  cases m with
  | append request =>
      have none : request.entries = [] := empty
      rw [Message.indices, none]
      exact List.pairwise_singleton _ _
  | snapshot => exact .nil
  | vote => exact .nil

/-- A snapshot that is not older than the node's moves the last index on or leaves it. -/
theorem RaftNode.rising_install {index : Nat} (rising : n.indices.Pairwise (· < ·))
    (newer : n.snapshotIndex ≤ index) (snapshot : n'.snapshotIndex = index)
    (log : n'.log = n.log.filter fun entry => index < entry.index) :
    n'.indices.Pairwise (· < ·) ∧ n.nextIndex ≤ n'.nextIndex := by
  have rises : n'.indices.Pairwise (· < ·) := by
    rw [RaftNode.indices, log, snapshot, List.pairwise_cons]
    refine ⟨fun k inside => ?_, ?_⟩
    · obtain ⟨e, member, rfl⟩ := List.mem_map.1 inside
      exact of_decide_eq_true (List.mem_filter.1 member).2
    · exact (List.pairwise_cons.1 rising).2.sublist (List.filter_sublist.map _)
  refine ⟨rises, ?_⟩
  -- the last index is covered by the snapshot, or it is still in the log
  rw [nextIndex_eq n]
  have last := List.getLast_mem n.indices_ne_nil
  generalize n.indices.getLast n.indices_ne_nil = k at last
  rcases le_or_gt k index with covered | beyond
  · have start : index < n'.nextIndex := by
      refine lt_nextIndex rises ?_
      rw [RaftNode.indices, snapshot]
      exact List.mem_cons_self
    omega
  · refine lt_nextIndex rises ?_
    rcases List.mem_cons.1 last with rfl | inside
    · omega
    · obtain ⟨e, member, rfl⟩ := List.mem_map.1 inside
      rw [RaftNode.indices, log]
      exact List.mem_cons_of_mem _ (List.mem_map_of_mem
        (List.mem_filter.2 ⟨member, decide_eq_true beyond⟩))

/-- Steps in turn keep the logs matched. -/
theorem Cluster.Matched.step {a : ClusterAction ι} (env : Env)
    (matched : v.Matched codec chair) (turn : v.InTurn chair a) :
    (v.step env codec a).Matched codec chair := by
  have log := a.act_logStep env codec v.sent (v.nodes a.node)
  obtain ⟨leads, awaits⟩ := turn
  unfold Cluster.step
  generalize (a.act env codec v.sent (v.nodes a.node)).1 = n' at log ⊢
  generalize (a.act env codec v.sent (v.nodes a.node)).2 = out at log ⊢
  have rising := matched.rising a.node
  have held : ∀ e ∈ (v.nodes a.node).log, v.Holds codec e := fun e inside =>
    Or.inl ⟨a.node, inside⟩
  cases log with
  | keeps log indices sends =>
      have cut : n'.indices <:+ (v.nodes a.node).indices ++ [] := by rwa [List.append_nil]
      refine matched.update [] (by simp) List.nodup_nil
        (fun e inside => Or.inl (held e (log.subset inside))) (rising.sublist indices.sublist)
        (nextIndex_le_of_suffix cut (by rwa [List.append_nil])).1 fun m inside => ?_
      rcases sends m inside with empty | ⟨carries, counts⟩
      · exact ⟨Message.rising_of_empty empty, [], empty, by simp⟩
      · exact ⟨counts ▸ rising, _, carries, fun e inside => Or.inl (held e inside)⟩
  | @proposes m commands asks role log indices carries counts =>
      obtain ⟨numbers, term⟩ := newEntries_spec (v.nodes a.node) commands
      have above : ∀ k ∈ ((v.nodes a.node).newEntries commands).map LogEntry.index,
          (v.nodes a.node).nextIndex ≤ k := by
        rw [numbers]
        exact fun k inside => (List.mem_range'_1.1 inside).1
      have rises : (((v.nodes a.node).newEntries commands).map LogEntry.index).Pairwise
          (· < ·) := by
        rw [numbers]
        exact List.pairwise_lt_range'
      have grown := rising_append rising rises above
      have past := nextIndex_le_of_suffix indices grown
      refine matched.update ((v.nodes a.node).newEntries commands) (fun f inside => ?_)
        (rises.imp Nat.ne_of_lt) (fun e inside => ?_) (grown.sublist indices.sublist) past.1
        fun m' inside => ?_
      · rw [term f inside]
        have index := List.mem_map_of_mem (f := LogEntry.index) inside
        exact ⟨leads asks role, above _ index, past.2 _ index⟩
      · rcases List.mem_append.1 (log.subset inside) with inside | inside
        · exact Or.inl (held e inside)
        · exact Or.inr inside
      · rw [List.mem_singleton.1 inside, counts]
        refine ⟨List.pairwise_cons.2 ⟨fun k inside => ?_, rises⟩, _, carries,
          fun e inside => Or.inr inside⟩
        have next := nextIndex_eq (v.nodes a.node)
        have first := above k inside
        omega
  | @receives request brings current log =>
      have inside := ClusterAction.mem_of_brings brings
      obtain ⟨rises, es, carries⟩ := matched.wires _ inside
      obtain ⟨log, indices⟩ := log es carries
      have numbers : request.entries.map RaftLogEntryWire.index = es.map LogEntry.index := by
        have carries : request.entries = es.map (LogEntry.wire codec) := carries
        rw [carries, List.map_map]
        rfl
      rw [Message.indices, numbers, List.pairwise_cons] at rises
      have above : ∀ k ∈ es.map LogEntry.index, (v.nodes a.node).nextIndex ≤ k := by
        intro k inside
        have some : request.entries ≠ [] := by
          intro empty
          rw [← numbers, empty] at inside
          cases inside
        have behind := awaits _ brings current some
        have beyond := rises.1 k inside
        omega
      have grown := rising_append rising rises.2 above
      refine matched.update [] (by simp) List.nodup_nil (fun e member => Or.inl ?_)
        (grown.sublist indices.sublist) (nextIndex_le_of_suffix indices grown).1 (by simp)
      rcases List.mem_append.1 (log.subset member) with member | member
      · exact held e member
      · refine Or.inr ⟨_, inside, ?_⟩
        rw [carries]
        exact List.mem_map_of_mem member
  | @installs request brings current snapshot log =>
      obtain ⟨rises, grows⟩ := rising_install rising (awaits _ brings current) snapshot log
      refine matched.update [] (by simp) List.nodup_nil (fun e member => Or.inl ?_)
        rises grows (by simp)
      rw [log] at member
      exact held e (List.mem_filter.1 member).1

/-- When one node proposes in each term and the entries of every request that is accepted come
behind what the log of the receiver has, entries of one index and term are the same in all logs
and no index occurs twice in one. -/
theorem Cluster.logs_match (env : Env) (codec : Postcard) (chair : Nat → ι) (v : Cluster ι)
    (actions : List (ClusterAction ι)) (empty : ∀ i, (v.nodes i).log = []) (quiet : v.sent = [])
    (run : Trace.Along (Cluster.step env codec) (Cluster.InTurn chair) v actions) :
    let w := actions.foldl (Cluster.step env codec) v
    (∀ i j, ∀ e ∈ (w.nodes i).log, ∀ f ∈ (w.nodes j).log, e.index = f.index → e.term = f.term →
      e.command = f.command) ∧
    ∀ i, ((w.nodes i).log.map LogEntry.index).Nodup := by
  intro w
  have nothing : ∀ e, ¬ v.Holds codec e := by
    rintro e (⟨i, inside⟩ | ⟨m, inside, _⟩)
    · rw [empty i] at inside
      cases inside
    · rw [quiet] at inside
      cases inside
  have start : v.Matched codec chair := by
    refine ⟨fun e f held => absurd held (nothing e), fun e held => absurd held (nothing e),
      fun i => ?_, by simp [quiet]⟩
    rw [RaftNode.indices, empty i]
    exact List.pairwise_singleton _ _
  have matched : w.Matched codec chair :=
    run.invariant start fun _ _ matched turn => matched.step env turn
  refine ⟨fun i j e first f second index term => congrArg LogEntry.command
    (matched.agree e f (Or.inl ⟨i, first⟩) (Or.inl ⟨j, second⟩) index term), fun i => ?_⟩
  exact (List.pairwise_cons.1 (matched.rising i)).2.imp Nat.ne_of_lt

/-- The first node takes the lead and pushes a message. -/
def samplePushed : List (ClusterAction (Fin 2)) :=
  [.addPeer 0 "n2", .tick 0 1600000000, .push 0 1600000000 [true] "a" [("", [1], 0)]]

/-- A batch that is delivered again is appended again. -/
theorem Cluster.index_twice :
    let w := (samplePushed ++ [ClusterAction.deliver 1 1600000000 0, .deliver 1 1600000000 0]).foldl
      (Cluster.step .sample .format) (samplePair fun _ => [])
    ¬ ((w.nodes 1).log.map LogEntry.index).Nodup := by
  decide +kernel

/-- The second node takes the batch, is moved to term 1, takes the lead there and pushes; the
first one takes its batch. -/
def sampleHandover : List (ClusterAction (Fin 2)) :=
  samplePushed ++ [.deliver 1 1600000000 0, .vote 1 1 "n2", .promote 1 1600000001,
    .push 1 1600000001 [] "a" [("", [2], 0)], .deliver 0 1600000001 1]

theorem Cluster.logs_match_sample :
    let w := sampleHandover.foldl (Cluster.step .sample .format) (samplePair fun _ => [])
    (w.nodes 0).log.map (fun e => (e.index, e.term)) = [(1, 0), (2, 1)] ∧
      (∀ i j, ∀ e ∈ (w.nodes i).log, ∀ f ∈ (w.nodes j).log, e.index = f.index → e.term = f.term →
        e.command = f.command) ∧
      ∀ i, ((w.nodes i).log.map LogEntry.index).Nodup :=
  ⟨by decide +kernel, Cluster.logs_match .sample .format (fun term => if term = 0 then 0 else 1)
    (samplePair fun _ => []) sampleHandover (fun _ => rfl) rfl (by decide +kernel)⟩

end Logs

end WalrQueue
