import WalrQueue.Lib.Varint
import WalrQueue.WrittenLog

/-!
# Opening a directory again

The manifest gives back the names of the queues, so `open` reads the records of the two
segments as they were written and replays them.  What the replay leaves of one id in one
shard is decided by the records of that id for that shard.
-/

namespace WalrQueue

open QueueEngine BigEndian

/-! ## The manifest -/

namespace QueueRegistry

/-- Every name has under 64 KiB. -/
def ShortNames (names : List String) : Prop := ∀ name ∈ names, (utf8 name).length < 2 ^ 16

instance (names : List String) : Decidable (ShortNames names) :=
  inferInstanceAs (Decidable (∀ name ∈ names, (utf8 name).length < 2 ^ 16))

theorem fromUtf8Lossy_utf8 (name : String) : fromUtf8Lossy (utf8 name) = name := by
  unfold fromUtf8Lossy utf8
  rw [Varint.fromUTF8?_toUTF8]

theorem setName_length (names : List String) (name : String) :
    setName names names.length name = names ++ [name] := by
  simp [setName]

theorem encodeNames_cons (next : Nat) (name : String) (names : List String) :
    encodeNames next (name :: names) = toBE 2 (next % 2 ^ 16) ++ toBE 2 (utf8 name).length ++
      utf8 name ++ encodeNames (next + 1) names := by
  simp [encodeNames]

/-- A new name at the end of the list, with its position as id. -/
theorem Agrees.concat {ids : FMap String Nat} {known : List String} (h : Agrees ⟨[], ids, known⟩)
    (name : String) : Agrees ⟨[], AList.insert name known.length ids, known ++ [name]⟩ := by
  intro other id found
  dsimp only at found ⊢
  rw [FMap.lookup_insert_ite] at found
  split at found
  · rename_i same
    cases found
    simp [same]
  · have old : known[id]? = some other := h other id found
    rw [List.getElem?_append_left (List.getElem?_eq_some_iff.1 old).1]
    exact old

/-- Every name with an id can be looked up. -/
def Covers (reg : QueueRegistry) : Prop := ∀ name ∈ reg.idToName, name ∈ reg.nameToId

theorem Covers.concat {reg : QueueRegistry} (h : Covers reg) (manifest : List UInt8) (name : String)
    (id : Nat) : Covers ⟨manifest, AList.insert name id reg.nameToId, reg.idToName ++ [name]⟩ := by
  intro other inside
  rw [AList.mem_insert]
  rcases List.mem_append.1 inside with old | new
  · exact .inr (h other old)
  · exact .inl (List.mem_singleton.1 new)

/-- Reading the entries of further names adds them in order. -/
theorem openLoop_encodeNames {names : List String} (known : List String) (short : ShortNames names)
    (few : known.length + names.length ≤ 65536) (fuel : Nat) (ids : FMap String Nat)
    (enough : (encodeNames known.length names).length ≤ fuel) (agrees : Agrees ⟨[], ids, known⟩)
    (covers : Covers ⟨[], ids, known⟩) :
    let opened := openLoop fuel (encodeNames known.length names) ids known
    opened.2 = known ++ names ∧ Agrees ⟨[], opened.1, opened.2⟩ ∧
      Covers ⟨[], opened.1, opened.2⟩ := by
  induction names generalizing known fuel ids with
  | nil =>
      have opened : openLoop fuel [] ids known = (ids, known) := by cases fuel <;> simp [openLoop]
      rw [show encodeNames known.length [] = [] from rfl, opened]
      exact ⟨by simp, agrees, covers⟩
  | cons name names ih =>
      have length : (utf8 name).length < 256 ^ 2 := short name (by simp)
      have id : known.length % 2 ^ 16 = known.length := by
        refine Nat.mod_eq_of_lt ?_
        simp only [List.length_cons] at few
        omega
      rw [encodeNames_cons, id] at enough ⊢
      obtain ⟨fuel, rfl⟩ : ∃ more, fuel = more + 1 := by
        refine ⟨fuel - 1, ?_⟩
        simp only [List.length_append, length_toBE] at enough
        omega
      have idField : (toBE 2 known.length ++ toBE 2 (utf8 name).length ++ utf8 name ++
          encodeNames (known.length + 1) names).take 2 = toBE 2 known.length := by simp
      have lenField : ((toBE 2 known.length ++ toBE 2 (utf8 name).length ++ utf8 name ++
          encodeNames (known.length + 1) names).drop 2).take 2 = toBE 2 (utf8 name).length := by simp
      have rest : (toBE 2 known.length ++ toBE 2 (utf8 name).length ++ utf8 name ++
          encodeNames (known.length + 1) names).drop 4 =
          utf8 name ++ encodeNames (known.length + 1) names := by
        simp [List.drop_append]
      have idRead : ofBE (toBE 2 known.length) = known.length :=
        ofBE_toBE_of_lt (by simp only [List.length_cons] at few; omega)
      have lenRead : ofBE (toBE 2 (utf8 name).length) = (utf8 name).length :=
        ofBE_toBE_of_lt length
      unfold openLoop
      dsimp only
      rw [idField, lenField, rest, idRead, lenRead, if_neg (by simp; omega), if_neg (by simp),
        List.take_left, List.drop_left, fromUtf8Lossy_utf8, setName_length]
      have more := ih (known ++ [name]) (fun name' later => short name' (by simp [later]))
        (by simp only [List.length_append, List.length_cons, List.length_nil] at few ⊢; omega) fuel
        (AList.insert name known.length ids)
        (by
          simp only [List.length_append, length_toBE, List.length_singleton] at enough ⊢
          omega)
        (agrees.concat name) (covers.concat [] name known.length)
      simpa using more

/-- Opening the manifest gives the names back. -/
theorem Manifested.openManifest {reg : QueueRegistry} (h : Manifested reg)
    (short : ShortNames reg.idToName) (few : reg.idToName.length ≤ 65536) :
    (QueueRegistry.openManifest reg.manifest).idToName = reg.idToName ∧
      (QueueRegistry.openManifest reg.manifest).Agrees ∧
      (QueueRegistry.openManifest reg.manifest).Covers := by
  have h : reg.manifest = encodeNames 0 reg.idToName := h
  unfold QueueRegistry.openManifest
  dsimp only
  rw [h]
  exact openLoop_encodeNames [] short (by simpa using few) _ ∅ le_rfl
    (fun _ _ found => by cases found) (fun _ inside => by cases inside)

end QueueRegistry

theorem readBack_congr {reg reg' : QueueRegistry} (same : reg'.idToName = reg.idToName)
    (x : WalEntry) : readBack reg' x = readBack reg x := by
  unfold readBack recordQueue QueueRegistry.getName
  rw [same]

/-- The records of a segment file, read after the manifest was opened again. -/
theorem readWalFile_openManifest {reg : QueueRegistry} (env : Env) (manifest : reg.Manifested)
    (short : QueueRegistry.ShortNames reg.idToName) (few : reg.idToName.length ≤ 65536)
    {xs : List WalEntry} (fits : ∀ x ∈ xs, x.Fits) :
    readWalFile env (QueueRegistry.openManifest reg.manifest) (segment xs) =
      xs.map (readBack reg) := by
  rw [readWalFile_segment fits]
  exact List.map_congr_left fun x _ => readBack_congr (manifest.openManifest short few).1 x

@[simp] theorem readWalFile_nil (env : Env) (reg : QueueRegistry) : readWalFile env reg [] = [] := rfl

/-- `open` recovers the entries of a directory with one segment in use. -/
theorem DiskLog.Holds.recovered {d : DiskLog} {xs : List WalEntry} (h : d.Holds xs)
    (named : d.Named xs) (sole : d.inactive = []) (env : Env) (maxSegmentSize : Nat)
    (short : QueueRegistry.ShortNames d.registry.idToName)
    (few : d.registry.idToName.length ≤ 65536) :
    (DiskLog.openDir env d.dir maxSegmentSize).2 = xs.map fun x => x.2.stored := by
  have read := readWalFile_openManifest env named.manifest short few h.fits
  have stored : xs.map (readBack d.registry) = xs.map fun x => x.2.stored :=
    List.map_congr_left fun x inside => named.readBack_eq inside
  have active := h.active
  unfold DiskLog.openDir DiskLog.dir
  dsimp only
  unfold DiskLog.active at active
  unfold DiskLog.inactive at sole
  cases isB : d.activeIsB with
  | true =>
      rw [isB] at active sole
      simp only [if_true] at active sole
      rw [active, sole, read, stored, readWalFile_nil, List.nil_append]
  | false =>
      rw [isB] at active sole
      simp only [Bool.false_eq_true, if_false] at active sole
      rw [active, sole, read, stored, readWalFile_nil, List.append_nil]

/-- `open` recovers the records that were written. -/
theorem Written.recovered {e : QueueEngine} {rs : List WalRecord} (h : Written e rs) (env : Env)
    (maxSegmentSize : Nat) (short : QueueRegistry.ShortNames e.names)
    (few : e.names.length ≤ 65536) :
    (DiskLog.openDir env e.disk.dir maxSegmentSize).2 = rs := by
  obtain ⟨xs, i, layout, named, rfl⟩ := h.log
  exact layout.holds.recovered named layout.sole env maxSegmentSize short few

/-! ## Replay, one id of one shard -/

namespace QueueEngine

variable {opts : QueueOptions} {now : Nat} {acc : Replay} {r : WalRecord} {rs : List WalRecord}
  {s : Fin numShards} {m : Ulid} {status : Status}

/-- The record is one of the id for the shard. -/
def Touches (s : Fin numShards) (m : Ulid) (r : WalRecord) : Prop :=
  shardIdx r.queueName = s ∧ r.msgId = m

instance (s : Fin numShards) (m : Ulid) (r : WalRecord) : Decidable (Touches s m r) :=
  inferInstanceAs (Decidable (_ ∧ _))

/-- What a record does to a shard. -/
theorem shards_replayRecord (opts : QueueOptions) (now : Nat) (acc : Replay) (r : WalRecord)
    (s : Fin numShards) :
    (shardIdx r.queueName ≠ s ∧ (replayRecord opts now acc r).shards s = acc.shards s) ∨
    (shardIdx r.queueName = s ∧
      ((∃ id queue, r = .ack id queue ∧
          (replayRecord opts now acc r).shards s = (acc.shards s).applyAck queue id) ∨
        ∃ id queue visibleAt payload, r = .push id queue visibleAt payload ∧
          ((acc.totalInRam < opts.maxHotMessagesInRam ∧
            (replayRecord opts now acc r).shards s = ShardState.store
              { acc.shards s with seenIds := insert id (acc.shards s).seenIds } now
              ⟨id, queue, payload, visibleAt, 0, opts.maxDeliveryCount⟩) ∨
          (opts.maxHotMessagesInRam ≤ acc.totalInRam ∧
            (replayRecord opts now acc r).shards s =
              { acc.shards s with seenIds := insert id (acc.shards s).seenIds })))) := by
  by_cases mine : shardIdx r.queueName = s
  · refine Or.inr ⟨mine, ?_⟩
    subst mine
    cases r with
    | ack id queue => exact Or.inl ⟨id, queue, rfl, Function.update_self _ _ _⟩
    | push id queue visibleAt payload =>
        refine Or.inr ⟨id, queue, visibleAt, payload, rfl, ?_⟩
        unfold replayRecord
        dsimp only
        by_cases room : acc.totalInRam < opts.maxHotMessagesInRam
        · rw [if_pos room]
          exact Or.inl ⟨room, Function.update_self _ _ _⟩
        · rw [if_neg room]
          exact Or.inr ⟨Nat.not_lt.1 room, Function.update_self _ _ _⟩
  · refine Or.inl ⟨mine, ?_⟩
    have other : s ≠ shardIdx r.queueName := fun eq => mine eq.symm
    cases r with
    | ack id queue => exact Function.update_of_ne other _ _
    | push id queue visibleAt payload =>
        unfold replayRecord
        dsimp only
        split <;> exact Function.update_of_ne other _ _

/-- The ids a replay has seen and acked in a shard are those of its records. -/
theorem replay_ids (opts : QueueOptions) (now : Nat) (acc : Replay) (rs : List WalRecord)
    (s : Fin numShards) (m : Ulid) :
    (m ∈ ((rs.foldl (replayRecord opts now) acc).shards s).seenIds ↔
      m ∈ (acc.shards s).seenIds ∨ ∃ r ∈ rs, r.isPush = true ∧ Touches s m r) ∧
    (m ∈ ((rs.foldl (replayRecord opts now) acc).shards s).ackedIds ↔
      m ∈ (acc.shards s).ackedIds ∨ ∃ r ∈ rs, r.isPush = false ∧ Touches s m r) := by
  induction rs generalizing acc with
  | nil => simp
  | cons r rs ih =>
      rw [List.foldl_cons, (ih _).1, (ih _).2]
      simp only [List.exists_mem_cons_iff, ← or_assoc]
      refine ⟨or_congr_left ?_, or_congr_left ?_⟩
      · rcases shards_replayRecord opts now acc r s with ⟨away, eq⟩ |
          ⟨mine, ⟨id, queue, rfl, eq⟩ | ⟨id, queue, visibleAt, payload, rfl, ⟨_, eq⟩ | ⟨_, eq⟩⟩⟩
        · simp [eq, Touches, away]
        · simp [eq, WalRecord.isPush]
        all_goals
          rw [eq, Touches, and_iff_right mine]
          simp [WalRecord.isPush, WalRecord.msgId, or_comm, eq_comm]
      · rcases shards_replayRecord opts now acc r s with ⟨away, eq⟩ |
          ⟨mine, ⟨id, queue, rfl, eq⟩ | ⟨id, queue, visibleAt, payload, rfl, ⟨_, eq⟩ | ⟨_, eq⟩⟩⟩
        · simp [eq, Touches, away]
        · rw [eq, Touches, and_iff_right mine]
          simp [WalRecord.isPush, WalRecord.msgId, or_comm, eq_comm]
        all_goals simp [eq, WalRecord.isPush]

end QueueEngine

end WalrQueue
