import WalrQueue.DiskLog
import WalrQueue.WalRoundTrip

/-!
# What the active segment holds

`Holds d xs` says that the active segment is exactly the entries `xs`; it is
kept by every append and by compaction.  `Named d xs` adds that the registry
attributes every entry to the queue it was written for, which needs the `u16`
ids not to have wrapped around.
-/

namespace WalrQueue

/-! ## The registry only grows -/

namespace QueueRegistry

theorem idToName_prefix_getOrRegister (reg : QueueRegistry) (name : String) :
    reg.idToName <+: (reg.getOrRegister name).1.idToName := by
  unfold getOrRegister
  split
  · exact List.prefix_rfl
  · exact List.prefix_append _ _

/-- Ids fit in sixteen bits. -/
def IdsFit (reg : QueueRegistry) : Prop :=
  ∀ name id, AList.lookup name reg.nameToId = some id → id < 2 ^ 16

/-- The two maps agree. -/
def Agrees (reg : QueueRegistry) : Prop :=
  ∀ name id, AList.lookup name reg.nameToId = some id → reg.idToName[id]? = some name

theorem IdsFit.getOrRegister {reg : QueueRegistry} (h : IdsFit reg) (name : String) :
    IdsFit (reg.getOrRegister name).1 ∧ (reg.getOrRegister name).2 < 2 ^ 16 := by
  unfold QueueRegistry.getOrRegister
  cases known : AList.lookup name reg.nameToId with
  | some id => exact ⟨h, h name id known⟩
  | none =>
      have bound : reg.idToName.length % 2 ^ 16 < 2 ^ 16 := Nat.mod_lt _ (by norm_num)
      refine ⟨fun other id found => ?_, bound⟩
      dsimp only at found
      rw [FMap.lookup_insert_ite] at found
      split at found
      · cases found
        exact bound
      · exact h other id found

/-- While at most 65536 names are registered, the id returned for a name looks
up to that name. -/
theorem Agrees.getOrRegister {reg : QueueRegistry} (h : Agrees reg) (name : String)
    (few : (reg.getOrRegister name).1.idToName.length ≤ 65536) :
    Agrees (reg.getOrRegister name).1 ∧
      (reg.getOrRegister name).1.idToName[(reg.getOrRegister name).2]? = some name := by
  unfold QueueRegistry.getOrRegister at few ⊢
  cases known : AList.lookup name reg.nameToId with
  | some id => exact ⟨h, h name id known⟩
  | none =>
      simp only [known, List.length_append, List.length_singleton] at few
      have next : reg.idToName.length % 2 ^ 16 = reg.idToName.length :=
        Nat.mod_eq_of_lt (by omega)
      have here : (reg.idToName ++ [name])[reg.idToName.length]? = some name := by simp
      refine ⟨fun other id found => ?_, by simp only [next]; exact here⟩
      dsimp only at found ⊢
      rw [FMap.lookup_insert_ite, next] at found
      split at found
      · rename_i same
        cases found
        rw [same]
        exact here
      · have old := h other id found
        have inside : id < reg.idToName.length := (List.getElem?_eq_some_iff.1 old).1
        rw [List.getElem?_append_left inside]
        exact old

/-- The entries of the manifest for names with ids from `next` on. -/
def encodeNames (next : Nat) (names : List String) : List UInt8 :=
  (names.zipIdx next).flatMap fun entry =>
    BigEndian.toBE 2 (entry.2 % 2 ^ 16) ++ BigEndian.toBE 2 (utf8 entry.1).length ++ utf8 entry.1

/-- The manifest lists the names in the order of their ids. -/
def Manifested (reg : QueueRegistry) : Prop := reg.manifest = encodeNames 0 reg.idToName

theorem Manifested.getOrRegister {reg : QueueRegistry} (h : Manifested reg) (name : String) :
    Manifested (reg.getOrRegister name).1 := by
  unfold QueueRegistry.getOrRegister
  cases AList.lookup name reg.nameToId with
  | some id => exact h
  | none =>
      have h : reg.manifest = encodeNames 0 reg.idToName := h
      simp [Manifested, encodeNames, h, List.zipIdx_append]

theorem getElem?_of_prefix {reg reg' : QueueRegistry} (grows : reg.idToName <+: reg'.idToName)
    {id : Nat} {name : String} (found : reg.idToName[id]? = some name) :
    reg'.idToName[id]? = some name := by
  obtain ⟨more, eq⟩ := grows
  have inside : id < reg.idToName.length := (List.getElem?_eq_some_iff.1 found).1
  rw [← eq, List.getElem?_append_left inside]
  exact found

end QueueRegistry

/-! ## The active segment -/

/-- The record as a reader gets it when the registry is unambiguous. -/
def WalRecord.stored : WalRecord → WalRecord
  | .push msgId queueName visibleAt payload =>
      .push msgId queueName (storedTime visibleAt) payload
  | .ack msgId queueName => .ack msgId queueName

@[simp] theorem WalRecord.msgId_stored (r : WalRecord) : r.stored.msgId = r.msgId := by
  cases r <;> rfl

@[simp] theorem WalRecord.queueName_stored (r : WalRecord) : r.stored.queueName = r.queueName := by
  cases r <;> rfl

@[simp] theorem WalRecord.isPush_stored (r : WalRecord) : r.stored.isPush = r.isPush := by
  cases r <;> rfl

namespace DiskLog

variable {d : DiskLog} {xs : List WalEntry} {r : WalRecord}

/-- The active segment is the entries `xs`, and the counter is its length. -/
structure Holds (d : DiskLog) (xs : List WalEntry) : Prop where
  active : d.active = segment xs
  bytes : d.activeBytes = (segment xs).length
  fits : ∀ x ∈ xs, x.Fits
  ids : d.registry.IdsFit

/-- The registry attributes every entry to its own queue, and so will the manifest. -/
structure Named (d : DiskLog) (xs : List WalEntry) : Prop where
  agrees : d.registry.Agrees
  manifest : d.registry.Manifested
  entries : ∀ x ∈ xs, d.registry.idToName[x.1]? = some x.2.queueName

/-- The entry an append writes. -/
def newEntry (d : DiskLog) (r : WalRecord) : WalEntry :=
  ((d.registry.getOrRegister r.queueName).2, r)

@[simp] theorem registry_write (bytes : List UInt8) : (d.write bytes).registry = d.registry := by
  unfold write
  split <;> rfl

@[simp] theorem active_write (bytes : List UInt8) :
    (d.write bytes).active = d.active ++ bytes := by
  cases isB : d.activeIsB <;> simp [write, active, isB]

@[simp] theorem inactive_write (bytes : List UInt8) : (d.write bytes).inactive = d.inactive := by
  cases isB : d.activeIsB <;> simp [write, inactive, isB]

@[simp] theorem activeBytes_write (bytes : List UInt8) :
    (d.write bytes).activeBytes = d.activeBytes + bytes.length := by
  unfold write
  split <;> rfl

@[simp] theorem maxSegmentSize_write (bytes : List UInt8) :
    (d.write bytes).maxSegmentSize = d.maxSegmentSize := by
  unfold write
  split <;> rfl

@[simp] theorem activeIsB_write (bytes : List UInt8) :
    (d.write bytes).activeIsB = d.activeIsB := by
  unfold write
  split <;> rfl

@[simp] theorem registry_append : (d.append r).registry =
    (d.registry.getOrRegister r.queueName).1 := by
  simp [append]

@[simp] theorem inactive_append : (d.append r).inactive = d.inactive := by
  rw [append, inactive_write]
  rfl

@[simp] theorem maxSegmentSize_append : (d.append r).maxSegmentSize = d.maxSegmentSize := by
  simp [append]

@[simp] theorem activeIsB_append : (d.append r).activeIsB = d.activeIsB := by
  simp [append]

theorem active_append : (d.append r).active = d.active ++ encodeEntry (d.newEntry r) := by
  rw [append, active_write]
  rfl

theorem activeBytes_append :
    (d.append r).activeBytes = d.activeBytes + (encodeEntry (d.newEntry r)).length := by
  simp [append, newEntry, encodeEntry]

theorem names_append : d.registry.idToName <+: (d.append r).registry.idToName := by
  rw [registry_append]
  exact d.registry.idToName_prefix_getOrRegister _

/-- An append adds its entry. -/
theorem Holds.append (h : d.Holds xs) (fits : r.Fits) :
    (d.append r).Holds (xs ++ [d.newEntry r]) where
  active := by rw [active_append, h.active]; simp
  bytes := by rw [activeBytes_append, h.bytes]; simp
  fits x member := by
    rcases List.mem_append.1 member with old | new
    · exact h.fits x old
    · rw [List.mem_singleton.1 new]
      exact ⟨(h.ids.getOrRegister r.queueName).2, fits⟩
  ids := by rw [registry_append]; exact (h.ids.getOrRegister r.queueName).1

theorem Named.append (h : d.Named xs)
    (few : (d.append r).registry.idToName.length ≤ 65536) :
    (d.append r).Named (xs ++ [d.newEntry r]) := by
  rw [registry_append] at few
  obtain ⟨agrees, here⟩ := h.agrees.getOrRegister r.queueName few
  refine ⟨by rw [registry_append]; exact agrees,
    by rw [registry_append]; exact h.manifest.getOrRegister r.queueName, fun x member => ?_⟩
  rcases List.mem_append.1 member with old | new
  · exact QueueRegistry.getElem?_of_prefix names_append (h.entries x old)
  · rw [List.mem_singleton.1 new, registry_append]
    exact here

/-- With an unambiguous registry an entry reads back as its record. -/
theorem Named.readBack_eq (h : d.Named xs) {x : WalEntry} (member : x ∈ xs) :
    readBack d.registry x = x.2.stored := by
  have name : recordQueue d.registry x.1 = x.2.queueName := by
    simp [recordQueue, QueueRegistry.getName, h.entries x member]
  rcases x with ⟨qId, record⟩
  cases record <;> simp_all [readBack, WalRecord.stored, WalRecord.queueName]

/-! ## A batch of appends -/

/-- Append records in order. -/
def appendAll (d : DiskLog) (rs : List WalRecord) : DiskLog := rs.foldl append d

@[simp] theorem appendAll_nil : d.appendAll [] = d := rfl

@[simp] theorem appendAll_cons (rs : List WalRecord) :
    d.appendAll (r :: rs) = (d.append r).appendAll rs := rfl

theorem inactive_appendAll (rs : List WalRecord) : (d.appendAll rs).inactive = d.inactive := by
  induction rs generalizing d with
  | nil => rfl
  | cons r rs ih => rw [appendAll_cons, ih, inactive_append]

theorem names_appendAll (rs : List WalRecord) :
    d.registry.idToName <+: (d.appendAll rs).registry.idToName := by
  induction rs generalizing d with
  | nil => exact List.prefix_rfl
  | cons r rs ih => exact names_append.trans ih

/-- A batch of appends adds one entry for each record, in order. -/
theorem Holds.appendAll (h : d.Holds xs) {rs : List WalRecord} (fits : ∀ r ∈ rs, r.Fits) :
    ∃ ys : List WalEntry, ys.map Prod.snd = rs ∧ (d.appendAll rs).Holds (xs ++ ys) ∧
      (d.Named xs → (d.appendAll rs).registry.idToName.length ≤ 65536 →
        (d.appendAll rs).Named (xs ++ ys)) := by
  induction rs generalizing d xs with
  | nil => exact ⟨[], rfl, by simpa using h, fun named _ => by simpa using named⟩
  | cons r rs ih =>
      obtain ⟨ys, records, holds, named⟩ :=
        ih (h.append (fits r (by simp))) (fun r' member => fits r' (by simp [member]))
      refine ⟨d.newEntry r :: ys, ?_, by simpa using holds, fun old few => ?_⟩
      · simp [records, newEntry]
      · have few' : (d.append r).registry.idToName.length ≤ 65536 :=
          (names_appendAll rs).length_le.trans few
        simpa using named (old.append few') few

/-! ## Compaction -/

/-- The Push record compaction writes for a survivor. -/
def survivorRecord (s : Ulid × String × Nat × List UInt8) : WalRecord :=
  .push s.1 s.2.1 s.2.2.1 s.2.2.2

theorem performFlipFlopCompaction_eq (surviving : List (Ulid × String × Nat × List UInt8)) :
    d.performFlipFlopCompaction surviving =
      (d.flip.appendAll (surviving.map survivorRecord)).truncateInactive := by
  rw [performFlipFlopCompaction, appendAll, List.foldl_map]
  rfl

theorem active_truncateInactive : d.truncateInactive.active = d.active := by
  cases isB : d.activeIsB <;> simp [truncateInactive, active, isB]

theorem inactive_truncateInactive : d.truncateInactive.inactive = [] := by
  cases isB : d.activeIsB <;> simp [truncateInactive, inactive, isB]

theorem registry_truncateInactive : d.truncateInactive.registry = d.registry := by
  unfold truncateInactive
  split <;> rfl

theorem activeBytes_truncateInactive : d.truncateInactive.activeBytes = d.activeBytes := by
  unfold truncateInactive
  split <;> rfl

theorem active_flip : d.flip.active = d.inactive := by
  unfold flip active inactive
  cases d.activeIsB <;> rfl

theorem Holds.flip (h : d.Holds xs) (sole : d.inactive = []) : d.flip.Holds [] where
  active := by rw [active_flip, sole]; rfl
  bytes := rfl
  fits x member := by simp at member
  ids := h.ids

theorem Holds.truncateInactive (h : d.Holds xs) : d.truncateInactive.Holds xs where
  active := by rw [active_truncateInactive, h.active]
  bytes := by rw [activeBytes_truncateInactive, h.bytes]
  fits := h.fits
  ids := by rw [registry_truncateInactive]; exact h.ids

theorem Named.truncateInactive (h : d.Named xs) : d.truncateInactive.Named xs where
  agrees := by rw [registry_truncateInactive]; exact h.agrees
  manifest := by rw [registry_truncateInactive]; exact h.manifest
  entries := by rw [registry_truncateInactive]; exact h.entries

theorem names_performFlipFlopCompaction
    (surviving : List (Ulid × String × Nat × List UInt8)) :
    d.registry.idToName <+: (d.performFlipFlopCompaction surviving).registry.idToName := by
  rw [performFlipFlopCompaction_eq, registry_truncateInactive]
  exact names_appendAll (d := d.flip) _

/-- After a compaction the active segment is the survivors and the other is empty. -/
theorem Holds.performFlipFlopCompaction (h : d.Holds xs) (sole : d.inactive = [])
    {surviving : List (Ulid × String × Nat × List UInt8)}
    (fits : ∀ s ∈ surviving, s.2.2.2.length < 2 ^ 32) :
    ∃ ys : List WalEntry, ys.map Prod.snd = surviving.map survivorRecord ∧
      (d.performFlipFlopCompaction surviving).Holds ys ∧
      (d.performFlipFlopCompaction surviving).inactive = [] ∧
      (d.Named xs → (d.performFlipFlopCompaction surviving).registry.idToName.length ≤ 65536 →
        (d.performFlipFlopCompaction surviving).Named ys) := by
  have recordFits : ∀ r ∈ surviving.map survivorRecord, r.Fits := by
    intro r member
    obtain ⟨s, inList, rfl⟩ := List.mem_map.1 member
    exact fits s inList
  obtain ⟨ys, records, holds, named⟩ := (h.flip sole).appendAll recordFits
  rw [performFlipFlopCompaction_eq]
  refine ⟨ys, records, ?_, inactive_truncateInactive, fun old few => ?_⟩
  · simpa using holds.truncateInactive
  · rw [registry_truncateInactive] at few
    have flipped : d.flip.Named [] := ⟨old.agrees, old.manifest, by simp⟩
    simpa using (named flipped few).truncateInactive

/-! ## Reading -/

/-- A paging read at a record boundary returns the entries up to a later one. -/
theorem Holds.readEntriesFromOffset (h : d.Holds xs) (env : Env) {i : Nat}
    (inside : i ≤ xs.length) (n : Nat) :
    ∃ k, i + k ≤ xs.length ∧
      d.readEntriesFromOffset env (segment (xs.take i)).length n =
        (((xs.drop i).take k).map (readBack d.registry),
          (segment (xs.take (i + k))).length) := by
  unfold DiskLog.readEntriesFromOffset
  rw [h.active]
  obtain ⟨k, bound, _, _, read⟩ := readEntries_segment h.fits inside n
  exact ⟨k, bound, read⟩

end DiskLog

end WalrQueue
