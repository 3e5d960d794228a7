import WalrQueue.DiskContents

/-!
# Group commit

The writer thread of the disk log.  It waits for a command, takes as many more as it finds
until the buffer passes 128 KiB, writes the buffer to the active segment and then tells the
senders that wait.  Elsewhere a command is applied when it is sent; here the channel, the
buffer and the order of the thread's own steps are modelled, with senders free to send
between any two of them.

Whatever the batches, the segment gets the records in sending order and no waiter is told
before the records up to its own are written.  Once the channel is empty and the thread
waits again, the log is the one the commands give when each is applied at once.
-/

namespace WalrQueue

/-- `WalCommand`: `Push` and `Ack` carry a record to write.  The `oneshot` sender is reduced to
whether there is one; a waiter is named by the number of its command in the order of sending. -/
inductive WalCommand where
  | write (record : WalRecord) (notify : Bool)
  | flush
  deriving DecidableEq

namespace WalCommand

/-- The record a command writes. -/
def record? : WalCommand → Option WalRecord
  | write record _ => some record
  | flush => none

/-- Whether the sender waits. -/
def waits : WalCommand → Bool
  | write _ notify => notify
  | flush => true

/-- The records of a list of commands. -/
def records (cmds : List WalCommand) : List WalRecord := cmds.filterMap record?

/-- The numbers of the commands whose senders wait. -/
def waiting (cmds : List WalCommand) : List Nat :=
  (cmds.zipIdx.filter fun numbered => numbered.1.waits).map (·.2)

theorem records_concat (cmds : List WalCommand) (c : WalCommand) :
    records (cmds ++ [c]) = records cmds ++ c.record?.toList := by
  unfold records
  rw [List.filterMap_append]
  cases h : c.record? <;> simp [h]

theorem waiting_concat (cmds : List WalCommand) (c : WalCommand) :
    waiting (cmds ++ [c]) = waiting cmds ++ if c.waits then [cmds.length] else [] := by
  unfold waiting
  rw [List.zipIdx_append, List.filter_append, List.map_append]
  cases h : c.waits <;> simp [h]

theorem lt_length_of_waiting {cmds : List WalCommand} {w : Nat} (inside : w ∈ waiting cmds) :
    w < cmds.length := by
  obtain ⟨⟨c, w'⟩, kept, rfl⟩ := List.mem_map.1 inside
  have numbered := List.mem_zipIdx (List.mem_of_mem_filter kept)
  simpa using numbered.2.1

end WalCommand

/-! ## What a list of records is encoded to -/

/-- The registry after the names of the records were looked up or registered in order. -/
def QueueRegistry.registerAll (reg : QueueRegistry) (rs : List WalRecord) : QueueRegistry :=
  rs.foldl (fun reg r => (reg.getOrRegister r.queueName).1) reg

/-- `encode_push` and `encode_ack` of the records in order, each with the id its queue name
has by then. -/
def QueueRegistry.encodeAll : QueueRegistry → List WalRecord → List UInt8
  | _, [] => []
  | reg, r :: rs =>
      let registered := reg.getOrRegister r.queueName
      encodeRecord registered.2 r ++ registered.1.encodeAll rs

theorem QueueRegistry.registerAll_concat (reg : QueueRegistry) (rs : List WalRecord)
    (r : WalRecord) :
    reg.registerAll (rs ++ [r]) = ((reg.registerAll rs).getOrRegister r.queueName).1 := by
  simp [registerAll]

theorem QueueRegistry.encodeAll_concat (reg : QueueRegistry) (rs : List WalRecord) (r : WalRecord) :
    reg.encodeAll (rs ++ [r]) =
      reg.encodeAll rs ++ encodeRecord ((reg.registerAll rs).getOrRegister r.queueName).2 r := by
  induction rs generalizing reg with
  | nil => simp [encodeAll, registerAll]
  | cons head rs ih =>
      simp only [List.cons_append, encodeAll, ih, List.append_assoc]
      rfl

/-- What was encoded stays a prefix when more records follow. -/
theorem QueueRegistry.encodeAll_prefix (reg : QueueRegistry) {rs rs' : List WalRecord}
    (part : rs <+: rs') : reg.encodeAll rs <+: reg.encodeAll rs' := by
  obtain ⟨more, rfl⟩ := part
  induction rs generalizing reg with
  | nil => exact List.nil_prefix
  | cons r rs ih => exact (List.prefix_append_right_inj _).2 (ih _)

namespace DiskLog

theorem write_nil (d : DiskLog) : d.write [] = d := by
  unfold write
  split <;> simp

theorem write_write (d : DiskLog) (xs ys : List UInt8) :
    (d.write xs).write ys = d.write (xs ++ ys) := by
  unfold write
  split
  all_goals simp_all [Nat.add_assoc]

theorem write_registry (d : DiskLog) (reg : QueueRegistry) (bytes : List UInt8) :
    { d.write bytes with registry := reg } = { d with registry := reg }.write bytes := by
  unfold write
  split <;> rfl

/-- Appending records one by one registers their names and writes their encodings. -/
theorem appendAll_eq_write (d : DiskLog) (rs : List WalRecord) :
    d.appendAll rs =
      { d with registry := d.registry.registerAll rs }.write (d.registry.encodeAll rs) := by
  induction rs generalizing d with
  | nil => exact (write_nil d).symm
  | cons r rs ih =>
      rw [appendAll_cons, ih, append]
      rw [registry_write, write_registry, write_write]
      rfl

end DiskLog

/-! ## The thread -/

/-- Where the thread is: in `blocking_recv`, in the inner loop, about to write, or telling
the waiters. -/
inductive WriterPhase where
  | receiving
  | coalescing
  | writing
  | notifying
  deriving DecidableEq

/-- The log, the commands sent so far and how many the thread has taken, and what the thread
holds.  `notified` lists the waiters told, in order. -/
structure GroupCommit where
  disk : DiskLog
  sent : List WalCommand
  taken : Nat
  batchBuf : List UInt8
  waiters : List Nat
  notified : List Nat
  phase : WriterPhase

/-- A command is sent, or the thread makes its next step.  `try_recv` may miss a command that
is being sent. -/
inductive WriterAct where
  | send (c : WalCommand)
  | blockingRecv
  | tryRecv
  | tryRecvEmpty
  | write
  | notify
  deriving DecidableEq

namespace GroupCommit

/-- The thread of a log that was just opened. -/
def start (d : DiskLog) : GroupCommit := ⟨d, [], 0, [], [], [], .receiving⟩

/-- The body of both `match cmd`: register the name and encode into the buffer, and keep the
sender. -/
def receive (s : GroupCommit) (c : WalCommand) : GroupCommit :=
  let s := match c with
    | .write record _ =>
        let registered := s.disk.registry.getOrRegister record.queueName
        { s with
          disk := { s.disk with registry := registered.1 }
          batchBuf := s.batchBuf ++ encodeRecord registered.2 record }
    | .flush => s
  { s with
    taken := s.taken + 1
    waiters := if c.waits then s.waiters ++ [s.taken] else s.waiters }

/-- The size of the buffer that ends the inner loop. -/
def batchLimit : Nat := 128 * 1024

/-- One step, when it can be made. -/
def step (s : GroupCommit) : WriterAct → Option GroupCommit
  | .send c => some { s with sent := s.sent ++ [c] }
  | .blockingRecv =>
      match s.phase, s.sent[s.taken]? with
      | .receiving, some c => some { s.receive c with phase := .coalescing }
      | _, _ => none
  | .tryRecv =>
      match s.phase, s.sent[s.taken]? with
      | .coalescing, some c =>
          let s := s.receive c
          some { s with phase := if batchLimit < s.batchBuf.length then .writing else .coalescing }
      | _, _ => none
  | .tryRecvEmpty => if s.phase = .coalescing then some { s with phase := .writing } else none
  | .write =>
      if s.phase = .writing then
        if s.batchBuf ≠ [] then
          some { s with disk := s.disk.write s.batchBuf, batchBuf := [], phase := .notifying }
        else some { s with phase := .notifying }
      else none
  | .notify =>
      match s.phase, s.waiters with
      | .notifying, w :: waiters => some { s with waiters, notified := s.notified ++ [w] }
      | .notifying, [] => some { s with phase := .receiving }
      | _, _ => none

/-- The state after a list of steps, when all of them can be made. -/
def run (s : GroupCommit) (acts : List WriterAct) : Option GroupCommit := acts.foldlM step s

/-- The commands taken so far. -/
def takenCommands (s : GroupCommit) : List WalCommand := s.sent.take s.taken

/-! ## What holds of every state -/

/-- Of the commands taken, the first `k` are on disk and the rest in the buffer; the waiters
told are among those of the first `k`, and no waiter was forgotten or told twice. -/
structure Committed (d : DiskLog) (s : GroupCommit) (k : Nat) : Prop where
  written_le : k ≤ s.taken
  taken_le : s.taken ≤ s.sent.length
  disk : s.disk = { d with registry := d.registry.registerAll (WalCommand.records s.takenCommands) }.write
    (d.registry.encodeAll (WalCommand.records (s.sent.take k)))
  buffer : d.registry.encodeAll (WalCommand.records s.takenCommands) =
    d.registry.encodeAll (WalCommand.records (s.sent.take k)) ++ s.batchBuf
  waiting : s.notified ++ s.waiters = WalCommand.waiting s.takenCommands
  told : ∀ w ∈ s.notified, w < k
  idle : s.phase = .receiving → k = s.taken ∧ s.waiters = []
  done : s.phase = .notifying → k = s.taken

variable {d : DiskLog} {s s' : GroupCommit} {k : Nat}

theorem committed_start (d : DiskLog) : Committed d (start d) 0 where
  written_le := le_rfl
  taken_le := le_rfl
  disk := (DiskLog.write_nil d).symm
  buffer := rfl
  waiting := rfl
  told := by simp [start]
  idle := fun _ => ⟨rfl, rfl⟩
  done := fun _ => rfl

theorem Committed.send (h : Committed d s k) (c : WalCommand) :
    Committed d { s with sent := s.sent ++ [c] } k := by
  have taken : takenCommands { s with sent := s.sent ++ [c] } = s.takenCommands :=
    List.take_append_of_le_length h.taken_le
  have written : (s.sent ++ [c]).take k = s.sent.take k :=
    List.take_append_of_le_length (h.written_le.trans h.taken_le)
  obtain ⟨written_le, taken_le, disk, buffer, waiting, told, idle, done⟩ := h
  refine ⟨written_le, taken_le.trans (by simp), ?_, ?_, ?_, told, idle, done⟩
  · rw [taken, written]
    exact disk
  · rw [taken, written]
    exact buffer
  · rw [taken]
    exact waiting

/-- A command that is taken goes behind the commands in the buffer. -/
theorem Committed.receive (h : Committed d s k) {c : WalCommand}
    (next : s.sent[s.taken]? = some c) {phase : WriterPhase} (busy : phase ≠ .receiving)
    (early : phase ≠ .notifying) : Committed d { s.receive c with phase := phase } k := by
  obtain ⟨written_le, taken_le, disk, buffer, waiting, told, _, _⟩ := h
  have inside : s.taken < s.sent.length := (List.getElem?_eq_some_iff.1 next).1
  have sent : ({ s.receive c with phase := phase } : GroupCommit).sent = s.sent := by cases c <;> rfl
  have count : ({ s.receive c with phase := phase } : GroupCommit).taken = s.taken + 1 := by
    cases c <;> rfl
  have taken : takenCommands { s.receive c with phase := phase } = s.takenCommands ++ [c] := by
    rw [takenCommands, sent, count, List.take_add_one, next]
    rfl
  have registry : s.disk.registry = d.registry.registerAll (WalCommand.records s.takenCommands) := by
    rw [disk, DiskLog.registry_write]
  have waiters : ({ s.receive c with phase := phase } : GroupCommit).notified ++
      ({ s.receive c with phase := phase } : GroupCommit).waiters =
        WalCommand.waiting (s.takenCommands ++ [c]) := by
    rw [WalCommand.waiting_concat, ← waiting, takenCommands, List.length_take_of_le taken_le]
    cases c <;> simp only [GroupCommit.receive] <;> split <;> simp
  refine ⟨count ▸ written_le.trans (Nat.le_succ _), by rw [sent, count]; exact inside, ?_, ?_,
    waiters.trans (by rw [taken]), by cases c <;> exact told, fun is => absurd is busy,
    fun is => absurd is early⟩
  all_goals rw [taken, WalCommand.records_concat, sent]
  · cases c with
    | flush => simpa [WalCommand.record?, GroupCommit.receive] using disk
    | write r notify =>
        simp only [WalCommand.record?, Option.toList_some, QueueRegistry.registerAll_concat,
          GroupCommit.receive, registry]
        have moved := DiskLog.write_registry
          { d with registry := d.registry.registerAll (WalCommand.records s.takenCommands) }
          ((d.registry.registerAll (WalCommand.records s.takenCommands)).getOrRegister r.queueName).1
          (d.registry.encodeAll (WalCommand.records (s.sent.take k)))
        rw [← disk] at moved
        exact moved
  · cases c with
    | flush => simpa [WalCommand.record?, GroupCommit.receive] using buffer
    | write r notify =>
        simp only [WalCommand.record?, Option.toList_some, QueueRegistry.encodeAll_concat,
          GroupCommit.receive, registry]
        rw [buffer, List.append_assoc]

/-- The buffer is written behind what is on disk. -/
theorem Committed.write (h : Committed d s k) :
    Committed d { s with disk := s.disk.write s.batchBuf, batchBuf := [], phase := .notifying }
      s.taken := by
  obtain ⟨written_le, taken_le, disk, buffer, waiting, told, _, _⟩ := h
  refine ⟨le_rfl, taken_le, ?_, ?_, waiting, fun w inside => (told w inside).trans_le written_le,
    fun is => (by cases is), fun _ => rfl⟩
  · dsimp only
    rw [disk, DiskLog.write_write, ← buffer]
    rfl
  · exact (List.append_nil _).symm

/-- One step of the thread or of a sender. -/
theorem Committed.step (h : Committed d s k) {act : WriterAct} (made : s.step act = some s') :
    ∃ k', Committed d s' k' := by
  cases act with
  | send c =>
      cases made
      exact ⟨k, h.send c⟩
  | blockingRecv =>
      simp only [GroupCommit.step] at made
      split at made
      · rename_i c _ next
        cases made
        exact ⟨k, h.receive next (by simp) (by simp)⟩
      · cases made
  | tryRecv =>
      simp only [GroupCommit.step] at made
      split at made
      · rename_i c _ next
        cases made
        exact ⟨k, h.receive next (by split <;> simp) (by split <;> simp)⟩
      · cases made
  | tryRecvEmpty =>
      simp only [GroupCommit.step] at made
      split at made
      · cases made
        exact ⟨k, { h with idle := fun is => (by cases is), done := fun is => (by cases is) }⟩
      · cases made
  | write =>
      simp only [GroupCommit.step] at made
      split at made
      · split at made
        · cases made
          exact ⟨s.taken, h.write⟩
        · rename_i empty
          cases made
          have empty : s.batchBuf = [] := by simpa using empty
          have written := h.write
          rw [empty, DiskLog.write_nil] at written
          exact ⟨s.taken, { written with buffer := by rw [empty]; exact written.buffer }⟩
      · cases made
  | notify =>
      simp only [GroupCommit.step] at made
      split at made
      · rename_i w waiters notifying here
        cases made
        have all := h.done notifying
        have order := h.waiting
        rw [here] at order
        refine ⟨k, { h with waiting := ?_, told := ?_, idle := ?_ }⟩
        · exact (List.append_assoc _ [w] _).trans order
        · intro w' inside
          rcases List.mem_append.1 inside with old | new
          · exact h.told w' old
          · cases List.mem_singleton.1 new
            have bound : w < s.takenCommands.length := by
              refine WalCommand.lt_length_of_waiting ?_
              rw [← order]
              simp
            rw [all]
            exact bound.trans_le (List.length_take_le _ _)
        · intro is
          rw [notifying] at is
          cases is
      · rename_i notifying here
        cases made
        exact ⟨k, { h with
          idle := fun _ => ⟨h.done notifying, here⟩, done := fun is => (by cases is) }⟩
      · cases made

theorem Committed.run (h : Committed d s k) {acts : List WriterAct} (made : s.run acts = some s') :
    ∃ k', Committed d s' k' := by
  induction acts generalizing s k with
  | nil =>
      cases made
      exact ⟨k, h⟩
  | cons act acts ih =>
      obtain ⟨mid, first, rest⟩ := Option.bind_eq_some_iff.1 made
      obtain ⟨k', next⟩ := h.step first
      exact ih next rest

/-! ## The thread comes to rest -/

theorem run_append (s : GroupCommit) (acts more : List WriterAct) :
    s.run (acts ++ more) = (s.run acts).bind (·.run more) := List.foldlM_append

/-- The thread tells all its waiters and goes back to `blocking_recv`. -/
theorem exists_run_notifying (h : s.phase = .notifying) :
    ∃ acts s', s.run acts = some s' ∧ s'.sent = s.sent ∧ s'.taken = s.taken ∧
      s'.phase = .receiving := by
  obtain ⟨disk, sent, taken, batchBuf, waiters, notified, phase⟩ := s
  cases h
  induction waiters generalizing notified with
  | nil => exact ⟨[.notify], _, rfl, rfl, rfl, rfl⟩
  | cons w waiters ih =>
      obtain ⟨acts, s', made, same⟩ := ih (notified ++ [w])
      exact ⟨.notify :: acts, s', made, same⟩

theorem exists_run_writing (h : s.phase = .writing) :
    ∃ acts s', s.run acts = some s' ∧ s'.sent = s.sent ∧ s'.taken = s.taken ∧
      s'.phase = .receiving := by
  obtain ⟨mid, first, sent, taken, phase⟩ : ∃ mid, s.step .write = some mid ∧ mid.sent = s.sent ∧
      mid.taken = s.taken ∧ mid.phase = .notifying := by
    simp only [GroupCommit.step, h, if_true]
    split <;> exact ⟨_, rfl, rfl, rfl, rfl⟩
  obtain ⟨acts, s', made, sent', taken', idle⟩ := exists_run_notifying phase
  exact ⟨.write :: acts, s', Option.bind_eq_some_iff.2 ⟨mid, first, made⟩, sent'.trans sent,
    taken'.trans taken, idle⟩

/-- The thread ends the batch it has. -/
theorem exists_run_coalescing (h : s.phase = .coalescing) :
    ∃ acts s', s.run acts = some s' ∧ s'.sent = s.sent ∧ s'.taken = s.taken ∧
      s'.phase = .receiving := by
  obtain ⟨acts, s', made, same⟩ :=
    exists_run_writing (s := { s with phase := .writing }) rfl
  refine ⟨.tryRecvEmpty :: acts, s', Option.bind_eq_some_iff.2 ⟨_, ?_, made⟩, same⟩
  simp only [GroupCommit.step, h, if_true]

theorem exists_run_idle (s : GroupCommit) :
    ∃ acts s', s.run acts = some s' ∧ s'.sent = s.sent ∧ s'.taken = s.taken ∧
      s'.phase = .receiving := by
  cases phase : s.phase with
  | receiving => exact ⟨[], s, rfl, rfl, rfl, phase⟩
  | coalescing => exact exists_run_coalescing phase
  | writing => exact exists_run_writing phase
  | notifying => exact exists_run_notifying phase

/-- The thread can always take and write everything that was sent. -/
theorem exists_run_rest (s : GroupCommit) (bounded : s.taken ≤ s.sent.length) :
    ∃ acts s', s.run acts = some s' ∧ s'.sent = s.sent ∧ s'.phase = .receiving ∧
      s'.taken = s.sent.length := by
  induction missing : s.sent.length - s.taken generalizing s with
  | zero =>
      obtain ⟨acts, s', made, sent, taken, idle⟩ := s.exists_run_idle
      exact ⟨acts, s', made, sent, idle, by omega⟩
  | succ n ih =>
      obtain ⟨acts, idle, made, sent, taken, phase⟩ := s.exists_run_idle
      have inside : idle.taken < idle.sent.length := by
        rw [sent, taken]
        omega
      let next : GroupCommit :=
        { idle.receive idle.sent[idle.taken] with phase := .coalescing }
      have received : idle.step .blockingRecv = some next := by
        simp only [GroupCommit.step, phase, List.getElem?_eq_getElem inside]
        rfl
      have sentNext : next.sent = s.sent := by
        rw [← sent]
        simp only [next, GroupCommit.receive]
        split <;> rfl
      have takenNext : next.taken = s.taken + 1 := by
        rw [← taken]
        simp only [next, GroupCommit.receive]
        split <;> rfl
      obtain ⟨acts', s', made', sent', phase', taken'⟩ :=
        ih next (by rw [sentNext, takenNext]; omega) (by rw [sentNext, takenNext]; omega)
      refine ⟨acts ++ .blockingRecv :: acts', s', ?_, sent'.trans sentNext, phase',
        taken'.trans (by rw [sentNext])⟩
      rw [run_append, made]
      change idle.run (.blockingRecv :: acts') = some s'
      exact Option.bind_eq_some_iff.2 ⟨next, received, made'⟩

/-! ## Faithful, and durable before a waiter is told -/

/-- In every state of the thread, however commands arrived and were put into batches: the
active segment has grown by the encodings of the first commands sent, in order, and the
counter by their length; a waiter that was told has its record and all before it in the
segment.  When the thread waits for a command, all it took are written, the log is the one
the commands give when each is applied at once, and each of their waiters was told once, in
order.  And the thread can always go on until nothing is left. -/
theorem group_commit {acts : List WriterAct} (made : (start d).run acts = some s) :
    let bytes := fun n => d.registry.encodeAll (WalCommand.records (s.sent.take n))
    (∃ k ≤ s.taken, s.disk.active = d.active ++ bytes k ∧
      s.disk.activeBytes = d.activeBytes + (bytes k).length ∧ s.disk.inactive = d.inactive ∧
      (∀ w ∈ s.notified, d.active ++ bytes (w + 1) <+: s.disk.active) ∧
      (s.phase = .receiving → k = s.taken ∧
        s.disk = d.appendAll (WalCommand.records (s.sent.take k)) ∧
        s.notified = WalCommand.waiting (s.sent.take k))) ∧
    ∃ acts' s', s.run acts' = some s' ∧ s'.sent = s.sent ∧ s'.phase = .receiving ∧
      s'.taken = s.sent.length := by
  intro bytes
  obtain ⟨k, h⟩ := (committed_start d).run made
  refine ⟨⟨k, h.written_le, ?_, ?_, ?_, fun w told => ?_, fun idle => ?_⟩,
    s.exists_run_rest h.taken_le⟩
  · rw [h.disk, DiskLog.active_write]
    rfl
  · rw [h.disk, DiskLog.activeBytes_write]
  · rw [h.disk, DiskLog.inactive_write]
    rfl
  · rw [h.disk, DiskLog.active_write]
    refine (List.prefix_append_right_inj _).2 (QueueRegistry.encodeAll_prefix _ ?_)
    have part : s.sent.take (w + 1) <+: s.sent.take k :=
      List.take_prefix_take_left (h.told w told)
    exact part.filterMap _
  · obtain ⟨rfl, none⟩ := h.idle idle
    refine ⟨rfl, ?_, ?_⟩
    · rw [h.disk, DiskLog.appendAll_eq_write]
      rfl
    · have order := h.waiting
      rw [none, List.append_nil] at order
      exact order

/-- Two commands in one batch, sent while the thread waits and while it collects, and a flush
that is left for the next. -/
def twoBatches : List WriterAct :=
  [.send (.write (.push 7 "jobs" 1600000000 [1, 2]) true), .blockingRecv,
    .send (.write (.ack 7 "jobs") false), .send .flush, .tryRecv, .tryRecvEmpty, .write, .notify]

theorem group_commit_sample :
    let d : DiskLog := ⟨.empty, [], [], false, 0, 64⟩
    ∃ s, (start d).run twoBatches = some s ∧ s.notified = [0] ∧
      ∃ k ≤ s.taken, s.disk.active =
          d.active ++ d.registry.encodeAll (WalCommand.records (s.sent.take k)) ∧
        ∀ w ∈ s.notified,
          d.active ++ d.registry.encodeAll (WalCommand.records (s.sent.take (w + 1))) <+:
            s.disk.active := by
  intro d
  obtain ⟨s, made⟩ := Option.isSome_iff_exists.1
    (show ((start d).run twoBatches).isSome = true by decide +kernel)
  have told : ((start d).run twoBatches).map (·.notified) = some [0] := by decide +kernel
  rw [made] at told
  obtain ⟨k, inside, active, _, _, durable, _⟩ := (group_commit made).1
  exact ⟨s, made, Option.some.inj told, k, inside, active, durable⟩

end GroupCommit

end WalrQueue
