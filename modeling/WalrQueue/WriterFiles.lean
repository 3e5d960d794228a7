import WalrQueue.GroupCommit
import WalrQueue.TornTail

/-!
# The files of the writer thread

The segment holds the entries of the first records sent, so a paging read that starts where a
record ends returns records that were sent and ends where a record ends.  A crash in the middle
of a write leaves whole records and a torn one behind them, and `open` reads the whole ones.
-/

namespace WalrQueue

/-! ## The entries of a log -/

namespace QueueRegistry

variable {reg : QueueRegistry} {rs : List WalRecord}

/-- The records with the queue ids under which they are written. -/
def entries : QueueRegistry → List WalRecord → List WalEntry
  | _, [] => []
  | reg, r :: rs =>
      let registered := reg.getOrRegister r.queueName
      (registered.2, r) :: registered.1.entries rs

theorem segment_entries (reg : QueueRegistry) (rs : List WalRecord) :
    segment (reg.entries rs) = reg.encodeAll rs := by
  induction rs generalizing reg with
  | nil => rfl
  | cons r rs ih => rw [entries, segment_cons, ih]; rfl

theorem map_snd_entries (reg : QueueRegistry) (rs : List WalRecord) :
    (reg.entries rs).map Prod.snd = rs := by
  induction rs generalizing reg with
  | nil => rfl
  | cons r rs ih => rw [entries, List.map_cons, ih]

theorem length_entries (reg : QueueRegistry) (rs : List WalRecord) :
    (reg.entries rs).length = rs.length := by
  rw [← List.length_map (f := Prod.snd), map_snd_entries]

theorem take_entries (reg : QueueRegistry) (rs : List WalRecord) (n : Nat) :
    (reg.entries rs).take n = reg.entries (rs.take n) := by
  induction rs generalizing reg n with
  | nil => simp [entries]
  | cons r rs ih =>
      cases n with
      | zero => rfl
      | succ n => rw [entries, List.take_succ_cons, List.take_succ_cons, entries, ih]

theorem idToName_prefix_registerAll (reg : QueueRegistry) (rs : List WalRecord) :
    reg.idToName <+: (reg.registerAll rs).idToName := by
  induction rs generalizing reg with
  | nil => exact List.prefix_rfl
  | cons r rs ih => exact (reg.idToName_prefix_getOrRegister r.queueName).trans (ih _)

/-- Registering the names of records that fit gives entries that fit. -/
theorem IdsFit.registerAll (h : reg.IdsFit) (fits : ∀ r ∈ rs, r.Fits) :
    (reg.registerAll rs).IdsFit ∧ ∀ x ∈ reg.entries rs, x.Fits := by
  induction rs generalizing reg with
  | nil => exact ⟨h, fun x bad => by cases bad⟩
  | cons r rs ih =>
      obtain ⟨ids, small⟩ := h.getOrRegister r.queueName
      obtain ⟨rest, all⟩ := ih ids fun r' later => fits r' (.tail _ later)
      refine ⟨rest, fun x inside => ?_⟩
      rcases List.mem_cons.1 inside with rfl | later
      · exact ⟨small, fits r List.mem_cons_self⟩
      · exact all x later

/-- While there are ids for the names, each entry has the id of its name. -/
theorem Agrees.registerAll (h : reg.Agrees) (manifest : reg.Manifested)
    (few : (reg.registerAll rs).idToName.length ≤ 65536) :
    (reg.registerAll rs).Manifested ∧ ∀ x ∈ reg.entries rs,
      (reg.registerAll rs).idToName[x.1]? = some x.2.queueName := by
  induction rs generalizing reg with
  | nil => exact ⟨manifest, fun x bad => by cases bad⟩
  | cons r rs ih =>
      have rest := (reg.getOrRegister r.queueName).1.idToName_prefix_registerAll rs
      obtain ⟨agrees, named⟩ := h.getOrRegister r.queueName (rest.length_le.trans few)
      obtain ⟨sound, all⟩ := ih agrees (manifest.getOrRegister r.queueName) few
      refine ⟨sound, fun x inside => ?_⟩
      rcases List.mem_cons.1 inside with rfl | later
      · exact getElem?_of_prefix rest named
      · exact all x later

end QueueRegistry

/-! ## The files -/

/-- A reader that knows the name of an entry gets its record back. -/
theorem readBack_of_name {reg : QueueRegistry} {x : WalEntry}
    (name : reg.idToName[x.1]? = some x.2.queueName) : readBack reg x = x.2.stored := by
  have name : recordQueue reg x.1 = x.2.queueName := by
    simp [recordQueue, QueueRegistry.getName, name]
  rcases x with ⟨qId, record⟩
  cases record with
  | push | ack => simp_all [readBack, WalRecord.stored, WalRecord.queueName]

/-- A log that was opened on an empty directory. -/
structure DiskLog.Blank (d : DiskLog) : Prop where
  active : d.active = []
  bytes : d.activeBytes = 0
  inactive : d.inactive = []
  ids : d.registry.IdsFit
  agrees : d.registry.Agrees
  manifest : d.registry.Manifested

namespace GroupCommit

variable {d : DiskLog} {s s' : GroupCommit} {k : Nat}

/-- The records of the commands the writer has taken. -/
def takenRecords (s : GroupCommit) : List WalRecord := WalCommand.records s.takenCommands

/-- How many of them are in the segment, when the first `k` commands are. -/
def writtenRecords (s : GroupCommit) (k : Nat) : Nat := (WalCommand.records (s.sent.take k)).length

theorem takenRecords_isPrefix (s : GroupCommit) : s.takenRecords <+: WalCommand.records s.sent :=
  (List.take_prefix _ _).filterMap _

theorem Committed.records_isPrefix (h : Committed d s k) :
    WalCommand.records (s.sent.take k) <+: s.takenRecords := by
  have taken : s.sent.take k <+: s.takenCommands := List.take_prefix_take_left h.written_le
  exact taken.filterMap _

theorem Committed.registry (h : Committed d s k) :
    s.disk.registry = d.registry.registerAll s.takenRecords := by
  rw [h.disk, DiskLog.registry_write]
  rfl

theorem Committed.segment_written (h : Committed d s k) :
    segment ((d.registry.entries s.takenRecords).take (s.writtenRecords k)) =
      d.registry.encodeAll (WalCommand.records (s.sent.take k)) := by
  have taken : s.takenRecords.take (s.writtenRecords k) = WalCommand.records (s.sent.take k) :=
    (List.prefix_iff_eq_take.1 h.records_isPrefix).symm
  rw [QueueRegistry.take_entries, taken, QueueRegistry.segment_entries]

/-- The segment is the entries of the records written. -/
theorem Committed.holds (h : Committed d s k) (blank : d.Blank)
    (fits : ∀ r ∈ s.takenRecords, r.Fits) :
    s.disk.Holds ((d.registry.entries s.takenRecords).take (s.writtenRecords k)) := by
  obtain ⟨ids, entries⟩ := blank.ids.registerAll fits
  refine ⟨?_, ?_, fun x inside => entries x (List.mem_of_mem_take inside), ?_⟩
  · rw [h.segment_written, h.disk, DiskLog.active_write]
    show d.active ++ _ = _
    rw [blank.active, List.nil_append]
  · rw [h.segment_written, h.disk, DiskLog.activeBytes_write]
    show d.activeBytes + _ = _
    rw [blank.bytes, Nat.zero_add]
  · rw [h.registry]
    exact ids

/-- What a crash may leave of the directory: the manifest, and the active segment with a part
of the buffer when the thread is about to write it. -/
def Leaves (s : GroupCommit) (dir : DataDir) : Prop :=
  ∃ part, part <+: s.batchBuf ∧ (s.phase ≠ .writing → part = []) ∧
    dir = .single s.disk.registry.manifest s.disk.activeIsB (s.disk.active ++ part)

/-- What `open` recovers after a crash: the first records that were sent, all that are in the
segment among them. -/
theorem Committed.recovered (h : Committed d s k) (blank : d.Blank) {dir : DataDir}
    (leaves : s.Leaves dir) (env : Env) (maxSegmentSize : Nat)
    (short : QueueRegistry.ShortNames s.disk.registry.idToName)
    (few : s.disk.registry.idToName.length ≤ 65536) (fits : ∀ r ∈ s.takenRecords, r.Fits) :
    ∃ n, s.writtenRecords k ≤ n ∧ (DiskLog.openDir env dir maxSegmentSize).2 =
      (s.takenRecords.take n).map WalRecord.stored := by
  obtain ⟨part, inside, _, rfl⟩ := leaves
  have active := (h.holds blank fits).active
  have names := few
  rw [h.registry] at names
  obtain ⟨manifest, named⟩ := blank.agrees.registerAll blank.manifest names
  rw [← h.registry] at manifest named
  -- the segment and the part are a prefix of the encodings of all the records taken
  have all : segment (d.registry.entries s.takenRecords) = s.disk.active ++ s.batchBuf := by
    rw [QueueRegistry.segment_entries, active, h.segment_written]
    exact h.buffer
  have cut : s.disk.active ++ part = (segment (d.registry.entries s.takenRecords)).take
      (s.disk.active ++ part).length := by
    rw [all]
    exact List.prefix_iff_eq_take.1 ((List.prefix_append_right_inj _).2 inside)
  obtain ⟨n, bound, whole, read⟩ := readWalFile_whole env
    (QueueRegistry.openManifest s.disk.registry.manifest) (blank.ids.registerAll fits).2
    (s.disk.active ++ part).length
  refine ⟨n, (whole _ ?_).2 ?_, ?_⟩
  · rw [QueueRegistry.length_entries]
    exact h.records_isPrefix.length_le
  · rw [← active, List.length_append]
    exact Nat.le_add_right _ _
  · have opened := (manifest.openManifest short few).1
    have back : ∀ x ∈ (d.registry.entries s.takenRecords).take n,
        readBack (QueueRegistry.openManifest s.disk.registry.manifest) x = x.2.stored := by
      intro x member
      refine readBack_of_name ?_
      rw [opened]
      exact named x (List.mem_of_mem_take member)
    have records : ((d.registry.entries s.takenRecords).take n).map Prod.snd =
        s.takenRecords.take n := by
      rw [QueueRegistry.take_entries, QueueRegistry.map_snd_entries]
    rw [(DiskLog.openDir_single env _ _ _ _).2.2.2.2.2, cut, read, List.map_congr_left back,
      ← records, List.map_map]
    rfl

/-! ## Where a paging read may start -/

/-- An offset in the segment at which a record ends, or its start. -/
def Boundary (d : DiskLog) (s : GroupCommit) (offset : Nat) : Prop :=
  (∃ i, offset = (segment ((d.registry.entries s.takenRecords).take i)).length) ∧
    offset ≤ s.disk.active.length

theorem boundary_zero (d : DiskLog) (s : GroupCommit) : s.Boundary d 0 :=
  ⟨⟨0, by simp⟩, Nat.zero_le _⟩

/-- The boundaries are those of the records in the segment. -/
theorem Boundary.inside (h : Committed d s k) (blank : d.Blank)
    (fits : ∀ r ∈ s.takenRecords, r.Fits) {offset : Nat} (boundary : s.Boundary d offset) :
    let xs := (d.registry.entries s.takenRecords).take (s.writtenRecords k)
    ∃ i ≤ xs.length, offset = (segment (xs.take i)).length := by
  intro xs
  obtain ⟨⟨i, eq⟩, le⟩ := boundary
  by_cases early : i ≤ s.writtenRecords k
  · refine ⟨min i xs.length, Nat.min_le_right _ _, ?_⟩
    rw [eq, ← List.take_take, List.take_length, List.take_take, Nat.min_eq_left early]
  · -- past the end of the segment there is no record, so the offset is its end
    have late := length_segment_take_le (d.registry.entries s.takenRecords)
      (Nat.le_of_not_le early)
    rw [(h.holds blank fits).active] at le
    refine ⟨xs.length, le_rfl, ?_⟩
    rw [List.take_length, eq]
    exact Nat.le_antisymm (eq ▸ le) late

/-- A read at a boundary returns records that were taken and ends at a boundary. -/
theorem Committed.reads (h : Committed d s k) (blank : d.Blank)
    (fits : ∀ r ∈ s.takenRecords, r.Fits) {e : QueueEngine} (disk : e.disk = s.disk)
    (boundary : s.Boundary d e.spillReadOffset) (env : Env) (fetchLimit : Nat) :
    let read := e.disk.readEntriesFromOffset env e.spillReadOffset fetchLimit
    (∀ r ∈ read.1, ∃ r' ∈ s.takenRecords, r'.isPush = r.isPush ∧ r'.msgId = r.msgId) ∧
      s.Boundary d read.2 := by
  obtain ⟨i, inside, eq⟩ := boundary.inside h blank fits
  have holds := h.holds blank fits
  rw [disk, eq]
  obtain ⟨n, reach, result⟩ := holds.readEntriesFromOffset env inside fetchLimit
  rw [result]
  refine ⟨fun r member => ?_, ⟨min (i + n) (s.writtenRecords k), ?_⟩, ?_⟩
  · obtain ⟨x, taken, rfl⟩ := List.mem_map.1 member
    have here : x.2 ∈ (d.registry.entries s.takenRecords).map Prod.snd :=
      List.mem_map_of_mem (List.mem_of_mem_take
        (List.mem_of_mem_drop (List.mem_of_mem_take taken)))
    rw [QueueRegistry.map_snd_entries] at here
    exact ⟨x.2, here, (isPush_readBack x).symm, (msgId_readBack x).symm⟩
  · rw [List.take_take]
  · rw [holds.active]
    have last := length_segment_take_le
      ((d.registry.entries s.takenRecords).take (s.writtenRecords k)) reach
    rw [List.take_length] at last
    exact last

/-- What the writer and the senders never take back. -/
structure Extends (s s' : GroupCommit) : Prop where
  sent : s.sent <+: s'.sent
  notified : s.notified ⊆ s'.notified
  taken : s.takenRecords <+: s'.takenRecords
  active : s.disk.active.length ≤ s'.disk.active.length

theorem extends_phase (s : GroupCommit) (phase : WriterPhase) : s.Extends { s with phase } :=
  ⟨List.prefix_rfl, List.Subset.refl _, List.prefix_rfl, le_rfl⟩

theorem Boundary.extends {offset : Nat} (h : s.Boundary d offset) (grows : s.Extends s') :
    s'.Boundary d offset := by
  obtain ⟨⟨i, eq⟩, le⟩ := h
  refine ⟨⟨min i s.takenRecords.length, ?_⟩, le.trans grows.active⟩
  have here := List.prefix_iff_eq_take.1 grows.taken
  rw [eq, QueueRegistry.take_entries, QueueRegistry.take_entries]
  nth_rewrite 1 [here]
  rw [List.take_take]

theorem extends_send (s : GroupCommit) (sends : List WalCommand)
    (bounded : s.taken ≤ s.sent.length) :
    s.Extends { s with sent := s.sent ++ sends } := by
  refine ⟨List.prefix_append _ _, List.Subset.refl _, ?_, le_rfl⟩
  have same : takenCommands { s with sent := s.sent ++ sends } = s.takenCommands :=
    List.take_append_of_le_length bounded
  unfold takenRecords
  rw [same]

/-- A command that is taken. -/
theorem extends_receive (s : GroupCommit) (c : WalCommand) (phase : WriterPhase) :
    s.Extends { s.receive c with phase } := by
  have taken : ∀ n, s.takenRecords <+: WalCommand.records (s.sent.take (s.taken + n)) := by
    intro n
    have part : s.takenCommands <+: s.sent.take (s.taken + n) :=
      List.take_prefix_take_left (Nat.le_add_right _ _)
    exact part.filterMap _
  cases c with
  | write record notify => exact ⟨List.prefix_rfl, List.Subset.refl _, taken 1, le_rfl⟩
  | flush => exact ⟨List.prefix_rfl, List.Subset.refl _, taken 1, le_rfl⟩

theorem extends_step {act : WriterAct} (made : s.step act = some s')
    (bounded : s.taken ≤ s.sent.length) : s.Extends s' := by
  cases act with
  | send c =>
      cases made
      exact s.extends_send [c] bounded
  | blockingRecv =>
      simp only [GroupCommit.step] at made
      split at made
      · cases made
        exact s.extends_receive _ _
      · cases made
  | tryRecv =>
      simp only [GroupCommit.step] at made
      split at made
      · cases made
        exact s.extends_receive _ _
      · cases made
  | tryRecvEmpty =>
      simp only [GroupCommit.step] at made
      split at made
      · cases made
        exact s.extends_phase _
      · cases made
  | write =>
      simp only [GroupCommit.step] at made
      split at made
      · split at made
        · cases made
          refine ⟨List.prefix_rfl, List.Subset.refl _, List.prefix_rfl, ?_⟩
          rw [DiskLog.active_write, List.length_append]
          exact Nat.le_add_right _ _
        · cases made
          exact s.extends_phase _
      · cases made
  | notify =>
      simp only [GroupCommit.step] at made
      split at made
      · cases made
        exact ⟨List.prefix_rfl, List.subset_append_left _ _, List.prefix_rfl, le_rfl⟩
      · cases made
        exact s.extends_phase _
      · cases made

/-- The steps of the thread itself send nothing. -/
theorem sent_step {act : WriterAct} (own : ∀ c, act ≠ .send c) (made : s.step act = some s') :
    s'.sent = s.sent := by
  cases act with
  | send c => exact absurd rfl (own c)
  | blockingRecv | tryRecv =>
      simp only [GroupCommit.step] at made
      split at made
      · rename_i c _ _
        cases made
        cases c <;> rfl
      · cases made
  | tryRecvEmpty =>
      simp only [GroupCommit.step] at made
      split at made <;> cases made
      rfl
  | write =>
      simp only [GroupCommit.step] at made
      split at made
      · split at made <;> cases made <;> rfl
      · cases made
  | notify =>
      simp only [GroupCommit.step] at made
      split at made <;> cases made <;> rfl

end GroupCommit

end WalrQueue
