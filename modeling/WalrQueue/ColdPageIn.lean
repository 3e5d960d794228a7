import WalrQueue.CursorAlignment
import WalrQueue.Interleaving
import WalrQueue.PageIn
import WalrQueue.ShardLocation

/-!
# Page-in from any segment

`page_in_cold_spill` reads the active segment from a cursor that may stand anywhere, over
bytes that may be anything.  Its loop still ends, because every turn that goes on moves the
cursor or is the one flush.  What it reads is what `read_wal_file` reads from the cursor on, and
each record acts on one shard only: a Push adds a message that is unknown and not acked,
an Ack takes one away and keeps it away.
-/

namespace WalrQueue

open QueueEngine

/-! ## What a scan has read -/

section Scan

variable {env : Env} {reg : QueueRegistry}

/-- A scan of the file from `cursor` to `offset` reads the records `rs`. -/
def Scanned (env : Env) (reg : QueueRegistry) (file : List UInt8) (cursor : Nat)
    (rs : List WalRecord) (offset : Nat) : Prop :=
  ∀ k, takeRecords env reg (rs.length + k) (file.drop cursor) =
    (rs ++ (takeRecords env reg k (file.drop offset)).1,
      (takeRecords env reg k (file.drop offset)).2)

variable {file : List UInt8} {cursor offset : Nat} {rs : List WalRecord}

theorem Scanned.refl (file : List UInt8) (cursor : Nat) :
    Scanned env reg file cursor [] cursor := by
  intro k
  simp

theorem Scanned.trans {next : Nat} {rs' : List WalRecord}
    (first : Scanned env reg file cursor rs offset) (second : Scanned env reg file offset rs' next) :
    Scanned env reg file cursor (rs ++ rs') next := by
  intro k
  rw [List.length_append, Nat.add_assoc, first, second]
  simp

/-- A paging read is a scan from its offset to the new one. -/
theorem Scanned.readEntries {n : Nat} (some : (readEntries env reg file offset n).1 ≠ []) :
    Scanned env reg file offset (WalrQueue.readEntries env reg file offset n).1
      (WalrQueue.readEntries env reg file offset n).2 := by
  unfold WalrQueue.readEntries at some ⊢
  split at some
  · exact absurd rfl some
  · rename_i inside
    rw [if_neg inside]
    dsimp only
    generalize window : (file.drop offset).take readWindow = raw
    obtain ⟨used, bytes, -, again⟩ := takeRecords_block env reg n raw
    have size : raw.length - (takeRecords env reg n raw).2.length = used.length := by
      have lengths := congrArg List.length bytes
      rw [List.length_append] at lengths
      omega
    have whole : file.drop offset = used ++ file.drop (offset + used.length) := by
      have split := (List.take_append_drop readWindow (file.drop offset)).symm
      rw [window] at split
      have start : (file.drop offset).take used.length = used := by
        rw [split, bytes, List.append_assoc, List.take_left]
      have cut := (List.take_append_drop used.length (file.drop offset)).symm
      rwa [start, List.drop_drop] at cut
    intro k
    rw [size, whole, again]

/-- What a scan reads, `read_wal_file` reads from the same place. -/
theorem Scanned.subset (scanned : Scanned env reg file cursor rs offset) :
    ∀ r ∈ rs, r ∈ readWalFile env reg (file.drop cursor) := by
  have counted := scanned 0
  have short : rs.length ≤ (file.drop cursor).length := by
    obtain ⟨used, bytes, short, -⟩ :=
      takeRecords_block env reg rs.length (file.drop cursor)
    have lengths := congrArg List.length bytes
    rw [Nat.add_zero] at counted
    rw [counted] at short
    rw [List.length_append] at lengths
    simp only [takeRecords, List.append_nil] at short
    omega
  obtain ⟨k, total⟩ := Nat.exists_eq_add_of_le short
  intro r inside
  unfold readWalFile
  rw [total, scanned k]
  exact List.mem_append_left _ inside

end Scan

/-! ## One shard -/

namespace ShardState

/-- What page-in may do to a shard: a message that was there stays as it is, or is gone
and acked by a record of the scan; a message that is new is not acked and near. -/
structure Conserves (now : Nat) (acks : Ulid → Prop) (before after : ShardState) : Prop where
  acked : before.ackedIds ⊆ after.ackedIds
  old : ∀ m msg, AList.lookup m before.messages = some msg →
    AList.lookup m after.messages = some msg ∨
      m ∉ after.messages ∧ m ∈ after.ackedIds ∧ acks m
  new : ∀ m msg, m ∉ before.messages → AList.lookup m after.messages = some msg →
    m ∉ after.ackedIds ∧ msg.visibleAt ≤ now + hotDelayHorizonSec

variable {now : Nat} {acks : Ulid → Prop} {before after : ShardState}

theorem Conserves.refl (now : Nat) (acks : Ulid → Prop) (st : ShardState) :
    st.Conserves now acks st where
  acked := Finset.Subset.refl _
  old _ _ found := .inl found
  new _ _ absent found := absurd (FMap.mem_of_lookup found) absent

theorem Conserves.push (h : before.Conserves now acks after) (opts : QueueOptions)
    (msgId : Ulid) (queue : String) (visibleAt : Nat) (payload : List UInt8) :
    before.Conserves now acks (after.load opts now (.push msgId queue visibleAt payload)) := by
  unfold load
  dsimp only
  split
  · rename_i loads
    obtain ⟨near, unknown, unacked⟩ := loads
    have near : visibleAt ≤ now + hotDelayHorizonSec := near.trans (Nat.mod_le _ _)
    refine ⟨h.acked, fun m msg found => ?_, fun m msg absent found => ?_⟩
    · have other : m ≠ msgId := by
        rintro rfl
        rcases h.old m msg found with here | ⟨-, gone, -⟩
        · exact unknown (FMap.mem_of_lookup here)
        · exact unacked gone
      rcases h.old m msg found with here | ⟨gone, acked, byRecord⟩
      · exact .inl ((AList.lookup_insert_ne other).trans here)
      · refine .inr ⟨fun inside => ?_, acked, byRecord⟩
        exact ((AList.mem_insert _).1 inside).elim other gone
    · by_cases same : m = msgId
      · subst same
        have loaded := (AList.lookup_insert after.messages).symm.trans found
        cases loaded
        exact ⟨unacked, near⟩
      · exact h.new m msg absent ((AList.lookup_insert_ne same).symm.trans found)
  · exact h

theorem Conserves.ack (h : before.Conserves now acks after) (opts : QueueOptions) {msgId : Ulid}
    (byRecord : acks msgId) (queue : String) :
    before.Conserves now acks (after.load opts now (.ack msgId queue)) := by
  have messages : (after.load opts now (.ack msgId queue)).messages =
      AList.erase msgId after.messages := messages_markDeleted
  have ackedIds : (after.load opts now (.ack msgId queue)).ackedIds =
      insert msgId after.ackedIds := ackedIds_applyAck
  refine ⟨?_, fun m msg found => ?_, fun m msg absent found => ?_⟩
  · rw [ackedIds]
    exact h.acked.trans (Finset.subset_insert _ _)
  · rw [messages, ackedIds]
    by_cases same : m = msgId
    · subst same
      exact .inr ⟨by simp, Finset.mem_insert_self _ _, byRecord⟩
    · rcases h.old m msg found with here | ⟨gone, acked, byRecord⟩
      · exact .inl ((AList.lookup_erase_ne same).trans here)
      · refine .inr ⟨fun inside => gone (AList.mem_erase.1 inside).2, ?_, byRecord⟩
        exact Finset.mem_insert_of_mem acked
  · rw [messages] at found
    rw [ackedIds]
    have other : m ≠ msgId := by
      rintro rfl
      simp at found
    obtain ⟨unacked, near⟩ := h.new m msg absent ((AList.lookup_erase_ne other).symm.trans found)
    exact ⟨by simp [other, unacked], near⟩

/-- The records of a chunk, one after the other. -/
theorem Conserves.loadAll (h : before.Conserves now acks after) (opts : QueueOptions)
    {records : List WalRecord} (byRecord : ∀ msgId queue, .ack msgId queue ∈ records → acks msgId) :
    before.Conserves now acks (after.loadAll opts now records) := by
  induction records generalizing after with
  | nil => exact h
  | cons r records ih =>
      have first : before.Conserves now acks (after.load opts now r) := by
        cases r with
        | push msgId queue visibleAt payload => exact h.push opts msgId queue visibleAt payload
        | ack msgId queue =>
            exact h.ack opts (byRecord msgId queue List.mem_cons_self) queue
      exact ih first fun msgId queue inside =>
        byRecord msgId queue (List.mem_cons_of_mem _ inside)

end ShardState

/-! ## The loop -/

section Loop

variable {env : Env} {now fetchLimit : Nat} {targetQueue : String} {e e' : QueueEngine}
  {flushed flushed' : Bool}

/-- Every chunk the loop takes in was read by a scan from where the loop started. -/
theorem mem_pageInChunks {cursor : Nat} {rs : List WalRecord} (fuel : Nat)
    (scanned : Scanned env e.disk.registry e.disk.active cursor rs e.spillReadOffset)
    {c : QueueEngine × List WalRecord}
    (taken : c ∈ pageInChunks env now targetQueue fetchLimit fuel e flushed) :
    ∀ r ∈ c.2, r ∈ readWalFile env e.disk.registry (e.disk.active.drop cursor) := by
  induction fuel generalizing e flushed rs with
  | zero => cases taken
  | succ fuel ih =>
      unfold pageInChunks at taken
      dsimp only at taken
      generalize result : e.disk.readEntriesFromOffset env e.spillReadOffset fetchLimit = read
        at taken
      have next (some : read.1 ≠ []) :
          Scanned env e.disk.registry e.disk.active cursor (rs ++ read.1) read.2 := by
        rw [← result] at some ⊢
        exact scanned.trans (Scanned.readEntries some)
      have here : ∀ c ∈ (if read.1.any WalRecord.isPush then
          [({ e with spillReadOffset := read.2 }, read.1)] else []), ∀ r ∈ c.2,
            r ∈ readWalFile env e.disk.registry (e.disk.active.drop cursor) := by
        intro c inside r member
        split at inside
        · obtain rfl := List.mem_singleton.1 inside
          exact (next (List.ne_nil_of_mem member)).subset r (List.mem_append_right _ member)
        · cases inside
      rcases turn : pageInStep env now targetQueue fetchLimit e flushed with ⟨e', _ | flushed'⟩
      · rw [turn] at taken
        exact here c taken
      · rw [turn] at taken
        rcases List.mem_append.1 taken with now | later
        · exact here c now
        · have goesOn := pageInStep_goesOn turn
          rw [result] at goesOn
          obtain ⟨disk, ⟨some, stands, -⟩ | ⟨-, rfl, -, -⟩⟩ := goesOn
          · have moved : Scanned env e'.disk.registry e'.disk.active cursor (rs ++ read.1)
                e'.spillReadOffset := by
              rw [disk, stands]
              exact next some
            have rest := ih moved later
            rwa [disk] at rest
          · exact ih scanned later

/-- The loop of `page_in_cold_spill`: `none` when it is still going after so many turns. -/
def pageInTurns (env : Env) (now : Nat) (targetQueue : String) (fetchLimit : Nat) :
    Nat → QueueEngine → Bool → Option QueueEngine
  | 0, _, _ => none
  | turns + 1, e, flushed =>
      match pageInStep env now targetQueue fetchLimit e flushed with
      | (e, some flushed) => pageInTurns env now targetQueue fetchLimit turns e flushed
      | (e, none) => some e

theorem turnsLeft_pos (e : QueueEngine) (flushed : Bool) : 0 < turnsLeft e flushed := by
  unfold turnsLeft
  split <;> omega

/-- The loop leaves by one of its exits within the turns left, and with the same engine
whatever the bound. -/
theorem pageInTurns_eq {turns fuel : Nat} (ends : turnsLeft e flushed ≤ turns)
    (enough : turnsLeft e flushed ≤ fuel) :
    pageInTurns env now targetQueue fetchLimit turns e flushed =
      some (pageInLoop env now targetQueue fetchLimit fuel e flushed) := by
  have left := turnsLeft_pos e flushed
  induction turns generalizing e flushed fuel with
  | zero => omega
  | succ turns ih =>
      obtain ⟨fuel, rfl⟩ : ∃ k, fuel = k + 1 := ⟨fuel - 1, by omega⟩
      unfold pageInTurns pageInLoop
      rcases turn : pageInStep env now targetQueue fetchLimit e flushed with ⟨e', _ | flushed'⟩
      · rfl
      · have fewer := turnsLeft_pageInStep turn
        exact ih (by omega) (by omega) (turnsLeft_pos e' flushed')

/-- The Ack records of a message that a scan of the active segment meets from the cursor
on, for queues of one shard. -/
def QueueEngine.AckedAhead (env : Env) (e : QueueEngine) (s : Fin numShards) (m : Ulid) : Prop :=
  ∃ queue, shardIdx queue = s ∧
    .ack m queue ∈ readWalFile env e.disk.registry (e.disk.active.drop e.spillReadOffset)

theorem conserves_pageInColdSpill (env : Env) (e : QueueEngine) (targetQueue : String)
    (now needed : Nat) (s : Fin numShards) :
    (e.shards s).Conserves now (e.AckedAhead env s)
      ((e.pageInColdSpill env targetQueue now needed).shards s) := by
  refine pageInLoop_chunks
    (P := fun e' => (e.shards s).Conserves now (e.AckedAhead env s) (e'.shards s))
    (fun _ _ kept => kept) (e.disk.active.length + 3) (fun c taken kept => ?_) (.refl _ _ _)
  rw [shards_pageInChunk]
  refine kept.loadAll _ fun msgId queue inside => ⟨queue, ?_⟩
  obtain ⟨member, mine⟩ := List.mem_filter.1 inside
  exact ⟨of_decide_eq_true mine,
    mem_pageInChunks _ (Scanned.refl e.disk.active e.spillReadOffset) taken _ member⟩

/-- Cold page-in, on any engine, any bytes in the active segment and any cursor.  The loop
ends.  A message that was in memory is there unchanged, or an Ack record of it stands in the
segment from the cursor on and it is gone; a message that is new was absent and not acked,
still is not acked, and is visible within the horizon. -/
theorem QueueEngine.pageInColdSpill_conservative (env : Env) (e : QueueEngine)
    (targetQueue : String) (now needed : Nat) :
    let e' := e.pageInColdSpill env targetQueue now needed
    (∃ turns ≤ e.disk.active.length + 2, ∀ more ≥ turns,
      pageInTurns env now targetQueue (max needed 1000) more e false = some e') ∧
    ∀ s m,
      (∀ msg, AList.lookup m (e.shards s).messages = some msg →
        AList.lookup m (e'.shards s).messages = some msg ∨
          m ∉ (e'.shards s).messages ∧ e.AckedAhead env s m) ∧
      ∀ msg, m ∉ (e.shards s).messages → AList.lookup m (e'.shards s).messages = some msg →
        m ∉ (e.shards s).ackedIds ∧ m ∉ (e'.shards s).ackedIds ∧
          msg.visibleAt ≤ now + hotDelayHorizonSec := by
  intro e'
  have bound : turnsLeft e false ≤ e.disk.active.length + 2 := by
    simp only [turnsLeft, Bool.false_eq_true, if_false]
    omega
  refine ⟨⟨turnsLeft e false, bound, fun more ends => ?_⟩, fun s m => ⟨fun msg found => ?_,
    fun msg absent found => ?_⟩⟩
  · exact pageInTurns_eq ends (by omega)
  · have kept := conserves_pageInColdSpill env e targetQueue now needed s
    exact (kept.old m msg found).imp_right fun lost => ⟨lost.1, lost.2.2⟩
  · have kept := conserves_pageInColdSpill env e targetQueue now needed s
    obtain ⟨unacked, near⟩ := kept.new m msg absent found
    exact ⟨fun acked => unacked (kept.acked acked), unacked, near⟩

end Loop

/-- Two messages, the second on disk only: page-in takes it in and keeps the first. -/
theorem QueueEngine.pageInColdSpill_conservative_sample :
    let w := World.run .sample (World.fresh .sample oneInRam 1600000000)
      [.push "a" 1 [1] 0, .push "a" 2 [2] 0]
    let e := w.engine
    let e' := e.pageInColdSpill .sample "a" w.clock 1
    (e.shards (shardIdx "a")).messages.keys = [1] ∧
      (e'.shards (shardIdx "a")).messages.keys = [2, 1] ∧
      2 ∉ (e.shards (shardIdx "a")).ackedIds ∧
      ∃ turns ≤ e.disk.active.length + 2, ∀ more ≥ turns,
        pageInTurns .sample w.clock "a" (max 1 1000) more e false = some e' := by
  intro w e e'
  obtain ⟨ends, keeps⟩ := QueueEngine.pageInColdSpill_conservative .sample e "a" w.clock 1
  have before : (e.shards (shardIdx "a")).messages.keys = [1] := by decide +kernel
  have after : (e'.shards (shardIdx "a")).messages.keys = [2, 1] := by decide +kernel
  have absent : 2 ∉ (e.shards (shardIdx "a")).messages := by
    rw [AList.mem_keys, before]
    decide
  have found : (AList.lookup 2 (e'.shards (shardIdx "a")).messages).isSome := by
    rw [AList.lookup_isSome, AList.mem_keys, after]
    decide
  obtain ⟨msg, found⟩ := Option.isSome_iff_exists.1 found
  exact ⟨before, after, ((keeps _ 2).2 msg absent found).1, ends⟩

end WalrQueue
