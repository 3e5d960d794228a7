import WalrQueue.Lib.Consecutive
import WalrQueue.Lib.Trace
import WalrQueue.Replica

/-!
# The log of one node

A log is appended to at its end, under its lock, and cut at its front in two ways: a
leader cuts by position of the commit index, a follower by length.  Both keep the
indices consecutive from `snapshot_index + 1`.  The leader cuts only after a batch
whose last index is a multiple of the threshold, so that the size of its log depends
on where its batches end.
-/

namespace WalrQueue

namespace RaftNode

open Consecutive

variable {n : RaftNode} {entries : List LogEntry} {entry : LogEntry} {term start commit : Nat}
  {commands : List RaftCommand}

/-! ## Appending -/

/-- The indices of the log are consecutive and start after the snapshot. -/
def Numbered (n : RaftNode) : Prop := From LogEntry.index n.snapshotIndex n.log

instance (n : RaftNode) : Decidable n.Numbered := From.decidable _ _ _

/-- The index of the last entry logged, whether still in the log or not. -/
def lastIndex (n : RaftNode) : Nat := n.snapshotIndex + n.log.length

theorem Numbered.nextIndex (numbered : n.Numbered) : n.nextIndex = n.lastIndex + 1 := by
  unfold RaftNode.nextIndex
  split
  · rename_i last found
    rw [numbered.getLast found, lastIndex]
  · rename_i empty
    rw [lastIndex, List.getLast?_eq_none_iff.1 empty, List.length_nil, Nat.add_zero]

/-- Commands as entries of a term, from an index on. -/
def entriesFrom (term start : Nat) (commands : List RaftCommand) : List LogEntry :=
  (commands.zipIdx start).map fun command => ⟨term, command.2, command.1⟩

@[simp] theorem length_entriesFrom : (entriesFrom term start commands).length = commands.length := by
  simp [entriesFrom]

theorem newEntries_eq (n : RaftNode) (commands : List RaftCommand) :
    n.newEntries commands = entriesFrom n.currentTerm n.nextIndex commands := rfl

theorem from_entriesFrom (term start : Nat) (commands : List RaftCommand) :
    From LogEntry.index start (entriesFrom term (start + 1) commands) :=
  from_zipIdx commands start _ fun _ => rfl

/-- Entries from the next index on continue a log. -/
theorem Numbered.append (numbered : n.Numbered) (term : Nat) (commands : List RaftCommand) :
    From LogEntry.index n.snapshotIndex (n.log ++ entriesFrom term n.nextIndex commands) := by
  rw [numbered.nextIndex]
  exact from_append.2 ⟨numbered, from_entriesFrom term n.lastIndex commands⟩

/-! ## Cutting by position -/

theorem splitLast_eq_some {test : LogEntry → Bool} {log rest : List LogEntry}
    (found : splitLast test log = some (entry, rest)) :
    test entry = true ∧ ∃ front, log = front ++ entry :: rest := by
  induction log with
  | nil => cases found
  | cons first log ih =>
      unfold splitLast at found
      split at found
      · rename_i later inside
        cases found
        obtain ⟨passes, front, rfl⟩ := ih inside
        exact ⟨passes, first :: front, rfl⟩
      · split at found
        · rename_i passes
          cases found
          exact ⟨passes, [], rfl⟩
        · cases found

theorem splitLast_eq_none {test : LogEntry → Bool} {log : List LogEntry}
    (missing : splitLast test log = none) : ∀ entry ∈ log, test entry = false := by
  induction log with
  | nil => simp
  | cons first log ih =>
      unfold splitLast at missing
      split at missing
      · cases missing
      · rename_i missing'
        split at missing
        · cases missing
        · rename_i fails
          exact List.forall_mem_cons.2 ⟨by simpa using fails, ih missing'⟩

/-- What passes the test after the cut was not there before it. -/
theorem splitLast_rest {test : LogEntry → Bool} {log rest : List LogEntry}
    (found : splitLast test log = some (entry, rest)) : ∀ e ∈ rest, test e = false := by
  induction log with
  | nil => cases found
  | cons first log ih =>
      unfold splitLast at found
      split at found
      · cases found
        rename_i inside
        exact ih inside
      · rename_i missing
        split at found
        · cases found
          exact splitLast_eq_none missing
        · cases found

/-- A cut leaves the node as it is, or drops the entries up to one at or below the
commit index read and makes that one the snapshot. -/
theorem compactAt_cases (n : RaftNode) (commit : Nat) :
    n.compactAt commit = n ∨ ∃ front last rest, n.log = front ++ last :: rest ∧
      last.index ≤ commit ∧ (∀ entry ∈ rest, commit < entry.index) ∧ n.compactAt commit =
        { n with log := rest, snapshotIndex := last.index, snapshotTerm := last.term } := by
  unfold compactAt
  split
  · exact Or.inl rfl
  · split
    · split
      · rename_i last rest found
        obtain ⟨passes, front, split⟩ := splitLast_eq_some found
        refine Or.inr ⟨front, last, rest, split, of_decide_eq_true passes, fun entry inside => ?_, rfl⟩
        exact Nat.lt_of_not_le (of_decide_eq_false (splitLast_rest found entry inside))
      · exact Or.inl rfl
    · exact Or.inl rfl

/-- What a cut keeps: the shape of the log, its end, and everything outside of it. -/
theorem Numbered.compactAt (numbered : n.Numbered) (commit : Nat) :
    (n.compactAt commit).Numbered ∧ (n.compactAt commit).lastIndex = n.lastIndex ∧
      n.snapshotIndex ≤ (n.compactAt commit).snapshotIndex ∧
      ∃ dropped, n.log = dropped ++ (n.compactAt commit).log ∧
        ∀ entry ∈ dropped, entry.index ≤ commit := by
  rcases compactAt_cases n commit with same | ⟨front, last, rest, split, low, _, cut⟩
  · rw [same]
    exact ⟨numbered, rfl, le_rfl, [], rfl, by simp⟩
  · rw [cut]
    unfold Numbered at numbered
    rw [split] at numbered
    obtain ⟨before, here⟩ := from_append.1 numbered
    have number := here.1
    refine ⟨numbered.behind, ?_, ?_, front ++ [last], by simp [split], ?_⟩
    · simp only [lastIndex, split, List.length_append, List.length_cons]
      omega
    · dsimp only
      omega
    · intro entry inside
      rcases List.mem_append.1 inside with inside | inside
      · have below := (before.mem inside).2
        omega
      · rw [List.mem_singleton.1 inside]
        exact low

/-- A cut touches the log and the snapshot and nothing else. -/
theorem compactAt_frame (n : RaftNode) (commit : Nat) :
    (n.compactAt commit).commitIndex = n.commitIndex ∧ (n.compactAt commit).peers = n.peers ∧
      (n.compactAt commit).role = n.role ∧ (n.compactAt commit).engine = n.engine ∧
      (n.compactAt commit).currentTerm = n.currentTerm ∧
      (n.compactAt commit).compactionThreshold = n.compactionThreshold := by
  rcases compactAt_cases n commit with same | ⟨front, last, rest, _, _, _, cut⟩
  · rw [same]
    exact ⟨rfl, rfl, rfl, rfl, rfl, rfl⟩
  · rw [cut]
    exact ⟨rfl, rfl, rfl, rfl, rfl, rfl⟩

/-! ## Cutting by length -/

/-- What `handle_append_entries` keeps of a log when it cuts it. -/
theorem Numbered.trimLog (numbered : n.Numbered) :
    n.trimLog.Numbered ∧ n.trimLog.lastIndex = n.lastIndex ∧
      (0 < n.compactionThreshold → n.trimLog.log.length ≤ 2 * n.compactionThreshold) := by
  unfold RaftNode.trimLog
  split
  · rename_i long
    obtain ⟨k, cut⟩ : ∃ k, n.log.length - n.compactionThreshold = k + 1 :=
      ⟨n.log.length - n.compactionThreshold - 1, by omega⟩
    have inside : k < n.log.length := by omega
    dsimp only
    rw [cut, Nat.add_sub_cancel, List.getElem?_eq_getElem inside]
    have split : n.log.take k ++ n.log[k] :: n.log.drop (k + 1) = n.log := by simp
    have numbered' := numbered
    unfold Numbered at numbered'
    rw [← split] at numbered'
    have number := (from_append.1 numbered').2.1
    refine ⟨numbered'.behind, ?_, fun _ => ?_⟩
    · rw [List.length_take] at number
      simp only [lastIndex, List.length_drop]
      omega
    · rw [List.length_drop]
      omega
  · rename_i short
    exact ⟨numbered, rfl, fun positive => by
      by_contra long
      exact short ⟨positive, by omega⟩⟩

theorem trimLog_compactionThreshold (n : RaftNode) :
    n.trimLog.compactionThreshold = n.compactionThreshold := by
  unfold RaftNode.trimLog
  split
  · dsimp only
    split <;> rfl
  · rfl

/-! ## A leader, one call at a time -/

/-- The calls on a leader. -/
inductive LeaderOp where
  | push (now : Nat) (replies : List Bool) (queue : String)
      (items : List (String × List UInt8 × Nat))
  | ack (queue : String) (items : List (String × String))
  | poll (now : Nat) (queue : String) (visibilitySec maxMessages : Nat)
  | compact
  deriving DecidableEq

namespace LeaderOp

/-- The node after a call. -/
def step (env : Env) (codec : Postcard) (n : RaftNode) : LeaderOp → RaftNode
  | .push now replies queue items => (n.proposePushBatch env codec now replies queue items).1
  | .ack queue items => (n.proposeAckBatch env codec queue items).1
  | .poll now queue visibilitySec maxMessages =>
      { n with engine := (n.engine.poll env now queue visibilitySec maxMessages).1 }
  | .compact => n.compactLogSnapshot

/-- A proposal returns `Ok`. -/
def succeeds (env : Env) (codec : Postcard) (n : RaftNode) : LeaderOp → Bool
  | .push now replies queue items =>
      (n.proposePushBatch env codec now replies queue items).2.1.isOk
  | .ack queue items => (n.proposeAckBatch env codec queue items).2.1.isOk
  | .poll .. | .compact => true

/-- The items of a batch. -/
def size : LeaderOp → Nat
  | .push _ _ _ items => items.length
  | .ack _ items => items.length
  | .poll .. | .compact => 0

/-- The entries a call of a leader adds to the log. -/
def logged (env : Env) (n : RaftNode) : LeaderOp → Nat
  | .push _ _ _ items => items.length
  | .ack queue items => if (n.engine.ackBatch env queue items).2 = 0 then 0 else items.length
  | .poll .. | .compact => 0

/-- The batch passes no multiple of the threshold, or it ends on one. -/
def EndsInBlock (env : Env) (n : RaftNode) (op : LeaderOp) : Prop :=
  (n.nextIndex + op.logged env n - 1) % n.compactionThreshold = 0 ∨
    (n.nextIndex + op.logged env n - 1) / n.compactionThreshold =
      (n.nextIndex - 1) / n.compactionThreshold

instance (env : Env) (n : RaftNode) (op : LeaderOp) : Decidable (op.EndsInBlock env n) :=
  inferInstanceAs (Decidable (_ ∨ _))

end LeaderOp

/-- The log starts at most one entry before the block of the last index. -/
structure InBlock (n : RaftNode) : Prop where
  numbered : n.Numbered
  block : n.compactionThreshold * (n.lastIndex / n.compactionThreshold) ≤ n.snapshotIndex + 1

/-- A node whose log and snapshot are those of another. -/
theorem InBlock.congr {m : RaftNode} (inside : n.InBlock) (log : m.log = n.log)
    (snapshot : m.snapshotIndex = n.snapshotIndex)
    (threshold : m.compactionThreshold = n.compactionThreshold) : m.InBlock := by
  obtain ⟨numbered, block⟩ := inside
  unfold Numbered lastIndex at *
  refine ⟨?_, ?_⟩
  · unfold Numbered
    rw [log, snapshot]
    exact numbered
  · unfold lastIndex
    rw [log, snapshot, threshold]
    exact block

theorem InBlock.compactAt (inside : n.InBlock) (commit : Nat) : (n.compactAt commit).InBlock := by
  obtain ⟨numbered, last, grown, _⟩ := inside.numbered.compactAt commit
  refine ⟨numbered, ?_⟩
  rw [last, (compactAt_frame n commit).2.2.2.2.2]
  exact inside.block.trans (by omega)

/-- A cut up to the last index leaves at most the entry it starts with. -/
theorem Numbered.compactAt_lastIndex (numbered : n.Numbered) (all : commit = n.lastIndex) :
    n.lastIndex ≤ (n.compactAt commit).snapshotIndex + 1 := by
  unfold RaftNode.compactAt
  split
  · rename_i empty
    simp [lastIndex, empty]
  · rename_i first rest log
    have start : first.index = n.snapshotIndex + 1 := by
      have numbered' := numbered
      unfold Numbered at numbered'
      rw [log] at numbered'
      exact numbered'.1
    split
    · rename_i below
      split
      · rename_i last rest' found
        obtain ⟨passes, front, split⟩ := splitLast_eq_some found
        have numbered' := numbered
        unfold Numbered at numbered'
        rw [split] at numbered'
        -- what follows the cut lies above the last index, so there is nothing
        have nothing : rest' = [] := by
          refine List.eq_nil_iff_forall_not_mem.2 fun entry inside => ?_
          have above := of_decide_eq_false (splitLast_rest found entry inside)
          have below := (numbered.mem (split ▸ List.mem_append_right _
            (List.mem_cons_of_mem _ inside) : entry ∈ n.log)).2
          rw [all, lastIndex] at above
          exact above below
        have number := (from_append.1 numbered').2.1
        subst nothing
        simp only [lastIndex, split, List.length_append, List.length_cons, List.length_nil]
        omega
      · rename_i missing
        have low := splitLast_eq_none missing first (by rw [log]; exact List.mem_cons_self ..)
        exact absurd below.le (of_decide_eq_false low)
    · omega

/-- The node right after a batch was logged and committed. -/
structure Logged (n : RaftNode) (count : Nat) (m : RaftNode) : Prop where
  numbered : m.Numbered
  last : m.lastIndex = n.lastIndex + count
  snapshot : m.snapshotIndex = n.snapshotIndex
  commit : m.commitIndex = n.lastIndex + count
  threshold : m.compactionThreshold = n.compactionThreshold

theorem InBlock.logged {m : RaftNode} {count : Nat} (inside : n.InBlock)
    (logs : n.Logged count m) (ends : (n.lastIndex + count) % n.compactionThreshold = 0 ∨
      (n.lastIndex + count) / n.compactionThreshold = n.lastIndex / n.compactionThreshold)
    (positive : 0 < n.compactionThreshold) :
    (if 0 < m.compactionThreshold ∧ (n.lastIndex + count) % m.compactionThreshold = 0 then
      m.compactLogSnapshot else m).InBlock := by
  rw [logs.threshold]
  split
  · rename_i multiple
    rw [compactLogSnapshot]
    obtain ⟨numbered, last, _, _⟩ := logs.numbered.compactAt m.commitIndex
    have start := logs.numbered.compactAt_lastIndex (logs.commit.trans logs.last.symm)
    refine ⟨numbered, ?_⟩
    rw [last, (compactAt_frame m _).2.2.2.2.2]
    exact (Nat.mul_div_le _ _).trans start
  · rename_i off
    have same := ends.resolve_left fun multiple => off ⟨positive, multiple⟩
    refine ⟨logs.numbered, ?_⟩
    rw [logs.last, logs.threshold, logs.snapshot, same]
    exact inside.block

theorem length_resolveItems (env : Env) (draws : Nat) (items : List (String × List UInt8 × Nat)) :
    (resolveItems env draws items).1.length = items.length := by
  induction items generalizing draws with
  | nil => rfl
  | cons item items ih =>
      unfold resolveItems
      simp [ih]

/-- Logging and committing a batch, whatever happens to the engine. -/
theorem Numbered.logs {m : RaftNode} {count : Nat} (numbered : n.Numbered)
    (size : commands.length = count) (some : 0 < count)
    (log : m.log = n.log ++ n.newEntries commands) (snapshot : m.snapshotIndex = n.snapshotIndex)
    (commit : m.commitIndex = n.nextIndex + count - 1)
    (threshold : m.compactionThreshold = n.compactionThreshold) : n.Logged count m := by
  have next := numbered.nextIndex
  refine ⟨?_, ?_, snapshot, by omega, threshold⟩
  · unfold Numbered
    rw [log, snapshot, newEntries_eq]
    exact numbered.append _ _
  · unfold lastIndex
    rw [log, snapshot, newEntries_eq, List.length_append, length_entriesFrom, size]
    omega

theorem InBlock.push {env : Env} {codec : Postcard} {now : Nat} {replies : List Bool}
    {queue : String} {items : List (String × List UInt8 × Nat)} (inside : n.InBlock)
    (positive : 0 < n.compactionThreshold)
    (ends : (LeaderOp.push now replies queue items).EndsInBlock env n)
    (ok : (n.proposePushBatch env codec now replies queue items).2.1.isOk) :
    (n.proposePushBatch env codec now replies queue items).1.InBlock := by
  have next := inside.numbered.nextIndex
  unfold LeaderOp.EndsInBlock LeaderOp.logged at ends
  dsimp only at ends
  rw [show n.nextIndex + items.length - 1 = n.lastIndex + items.length by omega,
    show n.nextIndex - 1 = n.lastIndex by omega] at ends
  unfold proposePushBatch at ok ⊢
  split at ok
  · cases ok
  · rename_i leads
    rw [if_neg leads]
    split at ok
    · rename_i none
      rw [if_pos none]
      exact inside
    · rename_i some
      rw [if_neg some]
      dsimp only at ok ⊢
      split at ok
      · rename_i quorum
        rw [if_pos quorum]
        have count : ((resolveItems env n.engine.draws items).1.map
            (Proposal.command queue)).length = items.length := by
          rw [List.length_map, length_resolveItems]
        have last : n.nextIndex + ((resolveItems env n.engine.draws items).1.map
            (Proposal.command queue)).length - 1 = n.lastIndex + items.length := by omega
        have logs : ∀ e : QueueEngine, n.Logged items.length { n with
            log := n.log ++ n.newEntries ((resolveItems env n.engine.draws items).1.map
              (Proposal.command queue))
            commitIndex := n.lastIndex + items.length, engine := e } := fun e =>
          inside.numbered.logs count (List.length_pos_iff.2 some) rfl rfl
            (by dsimp only; omega) rfl
        have done := inside.logged (logs ((({ n.engine with
          draws := (resolveItems env n.engine.draws items).2 } : QueueEngine).pushBatch env now queue
            ((resolveItems env n.engine.draws items).1.map Proposal.item)).1)) ends positive
        rw [← last] at done
        exact done
      · cases ok

theorem InBlock.ack {env : Env} {codec : Postcard} {queue : String}
    {items : List (String × String)} (inside : n.InBlock) (positive : 0 < n.compactionThreshold)
    (ends : (LeaderOp.ack queue items).EndsInBlock env n) :
    (n.proposeAckBatch env codec queue items).1.InBlock := by
  have next := inside.numbered.nextIndex
  unfold LeaderOp.EndsInBlock LeaderOp.logged at ends
  dsimp only at ends
  unfold proposeAckBatch
  split
  · exact inside
  · split
    · exact inside
    · rename_i some
      dsimp only
      split
      · exact inside.congr rfl rfl rfl
      · rename_i acked
        rw [if_neg acked, show n.nextIndex + items.length - 1 = n.lastIndex + items.length by omega,
          show n.nextIndex - 1 = n.lastIndex by omega] at ends
        have count : (items.map fun item => RaftCommand.ack queue item.1 item.2).length =
            items.length := List.length_map _
        have last : n.nextIndex + (items.map fun item =>
            RaftCommand.ack queue item.1 item.2).length - 1 = n.lastIndex + items.length := by omega
        have logs : n.Logged items.length { n with
            engine := (n.engine.ackBatch env queue items).1
            log := n.log ++ n.newEntries (items.map fun item => .ack queue item.1 item.2)
            commitIndex := n.lastIndex + items.length } :=
          inside.numbered.logs count (List.length_pos_iff.2 some) rfl rfl (by dsimp only; omega) rfl
        have done := inside.logged logs ends positive
        rw [← last] at done
        exact done

theorem LeaderOp.step_compactionThreshold (env : Env) (codec : Postcard) (n : RaftNode)
    (op : LeaderOp) : (op.step env codec n).compactionThreshold = n.compactionThreshold := by
  have trims : ∀ (m : RaftNode) (p : Prop) [Decidable p],
      (if p then m.compactLogSnapshot else m).compactionThreshold = m.compactionThreshold := by
    intro m p _
    split
    · exact (compactAt_frame m _).2.2.2.2.2
    · rfl
  cases op with
  | push now replies queue items =>
      unfold LeaderOp.step proposePushBatch
      dsimp only
      split
      · rfl
      · split
        · rfl
        · split
          · exact trims _ _
          · rfl
  | ack queue items =>
      unfold LeaderOp.step proposeAckBatch
      dsimp only
      split
      · rfl
      · split
        · rfl
        · split
          · rfl
          · exact trims _ _
  | poll => rfl
  | compact => exact (compactAt_frame n _).2.2.2.2.2

theorem InBlock.step {env : Env} {codec : Postcard} {op : LeaderOp} (inside : n.InBlock)
    (positive : 0 < n.compactionThreshold) (ok : op.succeeds env codec n)
    (ends : op.EndsInBlock env n) : (op.step env codec n).InBlock := by
  cases op with
  | push now replies queue items => exact inside.push positive ends ok
  | ack queue items => exact inside.ack positive ends
  | poll => exact inside.congr rfl rfl rfl
  | compact => exact inside.compactAt _

/-- When the log starts in the block of its last index and every batch that reaches a multiple
of the threshold ends on one, the log of a leader stays within the threshold and the size of a
batch. -/
theorem log_bounded (env : Env) (codec : Postcard) (n : RaftNode) (ops : List LeaderOp) (b : Nat)
    (start : n.InBlock) (positive : 0 < n.compactionThreshold)
    (run : Trace.Along (LeaderOp.step env codec) (fun n op =>
      op.succeeds env codec n ∧ op.size ≤ b ∧ op.EndsInBlock env n) n ops) :
    (ops.foldl (LeaderOp.step env codec) n).log.length ≤ n.compactionThreshold + b := by
  let Inside (m : RaftNode) : Prop :=
    m.InBlock ∧ m.compactionThreshold = n.compactionThreshold
  obtain ⟨inside, threshold⟩ := run.invariant (I := Inside) ⟨start, rfl⟩ fun m op inside cond =>
    ⟨inside.1.step (inside.2 ▸ positive) cond.1 cond.2.2,
      (LeaderOp.step_compactionThreshold env codec m op).trans inside.2⟩
  have block := inside.block
  rw [threshold] at block
  have part := Nat.div_add_mod
    (ops.foldl (LeaderOp.step env codec) n).lastIndex n.compactionThreshold
  have rest := Nat.mod_lt
    (ops.foldl (LeaderOp.step env codec) n).lastIndex positive
  unfold lastIndex at block part rest
  omega

/-- Pushes of one batch for each size, by a leader without peers. -/
def samplePushes (sizes : List Nat) : List LeaderOp :=
  sizes.map fun size => .push 1600000000 [] "a" (List.replicate size ("", [1], 0))

/-- With a threshold of 2 and one entry in the log, a batch of 1 and a batch of 2 end on its
multiples. -/
theorem log_bounded_sample :
    let leader := (samplePushes [1]).foldl (LeaderOp.step .sample .format)
      { sampleLeader with compactionThreshold := 2 }
    let run := (samplePushes [1, 2]).foldl (LeaderOp.step .sample .format) leader
    leader.log.length = 1 ∧ run.commitIndex = 4 ∧ run.log.length ≤ 2 + 2 := by
  intro leader run
  have start : leader.InBlock := ⟨by decide +kernel, by decide +kernel⟩
  exact ⟨by decide +kernel, by decide +kernel,
    log_bounded .sample .format leader (samplePushes [1, 2]) 2 start (by decide +kernel)
      (by decide +kernel)⟩

/-- With a threshold of 2, batches of 2 that start at index 2 end between its multiples:
the log is never cut and holds five entries after three calls. -/
theorem log_unbounded :
    let leader := { sampleLeader with compactionThreshold := 2 }
    Trace.Along (LeaderOp.step .sample .format)
        (fun n op => op.succeeds .sample .format n ∧ op.size ≤ 2) leader (samplePushes [1, 2, 2]) ∧
      ¬ ((samplePushes [1, 2, 2]).foldl (LeaderOp.step .sample .format) leader).log.length ≤
        2 + 2 := by
  decide +kernel

end RaftNode

end WalrQueue
