import WalrQueue.Replica

/-!
# A new leader

`recover_as_new_leader` pushes the Push entries of the log again, at its own time,
except those whose text is the text of an Ack entry.  With no snapshot it starts
from an empty engine; with one it keeps its engine and pushes what follows the
snapshot.
-/

namespace WalrQueue

namespace RaftNode

open RaftCommand

variable {env : Env} {now : Nat} {n : RaftNode} {e : QueueEngine} {entry : LogEntry}
  {acked : List String} {queue msgId : String} {payload : List UInt8} {delay : Nat} {id : Ulid}

/-! ## Replayed entries -/

/-- The id a new leader reads the text of a Push as. -/
def replayId (env : Env) (msgId : String) : Option Ulid :=
  match env.uuidParseStr msgId with
  | some id => some id
  | none => env.ulidFromString msgId

/-- The push an entry is replayed as. -/
structure Replayed where
  queue : String
  id : Ulid
  payload : List UInt8
  delay : Nat

/-- What an entry is replayed as: Acks and Pushes of an acked text are left out. -/
def replayed (env : Env) (acked : List String) (entry : LogEntry) : Option Replayed :=
  match entry.command with
  | .push queue msgId payload delay =>
      if msgId ∈ acked then none
      else (replayId env msgId).map fun id => ⟨queue, id, payload, delay⟩
  | .ack .. => none

theorem replayEntry_eq (env : Env) (now : Nat) (acked : List String) (e : QueueEngine)
    (entry : LogEntry) : replayEntry env now acked e entry =
      match replayed env acked entry with
      | some r => (e.pushWithUlid env now r.queue r.id r.payload r.delay).1
      | none => e := by
  unfold replayEntry replayed
  cases entry.command with
  | ack queue msgId receipt => rfl
  | push queue msgId payload delay =>
      dsimp only
      split
      · rfl
      · unfold replayId
        cases env.uuidParseStr msgId with
        | some id => rfl
        | none => cases env.ulidFromString msgId <;> rfl

/-- The entries a new leader replays. -/
def replayedLog (n : RaftNode) : List LogEntry :=
  if 0 < n.snapshotIndex then n.log.filter fun entry => n.snapshotIndex < entry.index else n.log

/-- The engine a new leader replays into. -/
def replayBase (n : RaftNode) : QueueEngine :=
  if 0 < n.snapshotIndex then n.engine else n.engine.clearForRaftRecovery

theorem recoverAsNewLeader_engine (env : Env) (now : Nat) (n : RaftNode) :
    (n.recoverAsNewLeader env now).engine =
      n.replayedLog.foldl (replayEntry env now (ackedIds n.log)) n.replayBase := by
  unfold recoverAsNewLeader replayedLog replayBase
  dsimp only
  split <;> rfl

/-- What every replayed push keeps holds at the end. -/
theorem recoverAsNewLeader_induction {P : QueueEngine → Prop} (start : P n.replayBase)
    (keep : ∀ e, P e → ∀ entry ∈ n.replayedLog, ∀ r, replayed env (ackedIds n.log) entry = some r →
      P (e.pushWithUlid env now r.queue r.id r.payload r.delay).1) :
    P (n.recoverAsNewLeader env now).engine := by
  rw [recoverAsNewLeader_engine]
  refine List.foldlRecOn n.replayedLog _ start fun e h entry member => ?_
  rw [replayEntry_eq]
  cases replayedAs : replayed env (ackedIds n.log) entry with
  | none => exact h
  | some r => exact keep e h entry member r replayedAs

/-! ## Room for everything -/

/-- Every id seen is in memory, and there is room for `k` more. -/
structure Roomy (k : Nat) (e : QueueEngine) : Prop where
  loaded : ∀ s m, m ∈ (e.shards s).seenIds → m ∈ (e.shards s).messages
  room : e.totalMessagesInRam + k ≤ e.options.maxHotMessagesInRam

/-- A push with a small delay finds room. -/
theorem Roomy.pushWithUlid {k : Nat} (h : Roomy (k + 1) e) (near : delay ≤ hotDelayHorizonSec)
    (clock : now + hotDelayHorizonSec < 2 ^ 64) :
    Roomy k (e.pushWithUlid env now queue id payload delay).1 ∧
      id ∈ ((e.pushWithUlid env now queue id payload delay).1.shards (shardIdx queue)).messages := by
  have room := h.room
  have horizon : addU64 now delay ≤ addU64 now hotDelayHorizonSec := by
    rw [addU64_of_lt clock, addU64_of_lt (by omega)]
    omega
  have cap := e.options.ramCap_lt
  obtain ⟨options, ⟨seen, shards, total⟩ | ⟨unseen, stays, shards, total⟩ |
    ⟨unseen, enters, shards, total⟩⟩ := QueueEngine.pushWithUlid_cases env e now queue id payload delay
  · refine ⟨⟨?_, by rw [options, total]; omega⟩, ?_⟩
    · rw [shards]
      exact h.loaded
    · rw [shards]
      exact h.loaded _ _ seen
  · -- the id is in memory already, since nothing else keeps it out
    have inside : id ∈ (e.shards (shardIdx queue)).messages := by
      by_contra absent
      exact stays ⟨horizon, by omega, absent⟩
    refine ⟨⟨fun s m => ?_, by rw [options, total]; omega⟩, ?_⟩
    · rw [shards]
      by_cases same : s = shardIdx queue
      · subst same
        simp only [QueueEngine.shards_setShard, Finset.mem_insert]
        rintro (rfl | before)
        · exact inside
        · exact h.loaded _ _ before
      · simpa [same] using h.loaded s m
    · rw [shards, QueueEngine.shards_setShard]
      exact inside
  · refine ⟨⟨fun s m => ?_, ?_⟩, ?_⟩
    · rw [shards]
      by_cases same : s = shardIdx queue
      · subst same
        simp only [QueueEngine.shards_setShard, ShardState.seenIds_store, Finset.mem_insert,
          ShardState.mem_store]
        exact Or.imp_right (h.loaded _ _)
      · simpa [same] using h.loaded s m
    · rw [options, total, fetchAdd, Nat.mod_eq_of_lt (by omega)]
      omega
    · rw [shards, QueueEngine.shards_setShard, ShardState.mem_store]
      exact Or.inl rfl

theorem mem_pushWithUlid {s : Fin numShards} {m : Ulid} (inside : m ∈ (e.shards s).messages) :
    m ∈ ((e.pushWithUlid env now queue id payload delay).1.shards s).messages := by
  rw [FMap.mem_iff_lookup] at inside ⊢
  rcases QueueEngine.lookup_pushWithUlid (e := e) s with ⟨same, _⟩ | ⟨_, _, _, new⟩
  · rw [same]
    exact inside
  · exact ⟨_, new⟩

theorem mem_replay {s : Fin numShards} {m : Ulid} (entries : List LogEntry)
    (inside : m ∈ (e.shards s).messages) :
    m ∈ ((entries.foldl (replayEntry env now acked) e).shards s).messages := by
  induction entries generalizing e with
  | nil => exact inside
  | cons entry entries ih =>
      refine ih ?_
      rw [replayEntry_eq]
      split
      · exact mem_pushWithUlid inside
      · exact inside

/-- With room for all of them, every replayed push is in memory at the end. -/
theorem Roomy.replay {entries : List LogEntry} (h : Roomy entries.length e)
    (near : ∀ entry ∈ entries, ∀ r, replayed env acked entry = some r → r.delay ≤ hotDelayHorizonSec)
    (clock : now + hotDelayHorizonSec < 2 ^ 64) :
    ∀ entry ∈ entries, ∀ r, replayed env acked entry = some r →
      r.id ∈ ((entries.foldl (replayEntry env now acked) e).shards (shardIdx r.queue)).messages := by
  induction entries generalizing e with
  | nil => simp
  | cons first entries ih =>
      have step : Roomy entries.length (replayEntry env now acked e first) ∧
          ∀ r, replayed env acked first = some r →
            r.id ∈ ((replayEntry env now acked e first).shards (shardIdx r.queue)).messages := by
        rw [replayEntry_eq]
        cases replayedAs : replayed env acked first with
        | none =>
            have room := h.room
            rw [List.length_cons] at room
            exact ⟨⟨h.loaded, by simp only; omega⟩, by simp⟩
        | some r =>
            obtain ⟨roomy, inside⟩ := h.pushWithUlid (near first (by simp) r replayedAs) clock
            refine ⟨roomy, fun r' same => ?_⟩
            cases same
            exact inside
      intro entry member r replayedAs
      rw [List.foldl_cons]
      rcases List.mem_cons.1 member with rfl | later
      · exact mem_replay entries (step.2 r replayedAs)
      · exact ih step.1 (fun entry member => near entry (by simp [member])) entry later r replayedAs

theorem roomy_clear {k : Nat} (room : k ≤ e.options.maxHotMessagesInRam) :
    Roomy k e.clearForRaftRecovery where
  loaded s m seen := by simp [QueueEngine.clearForRaftRecovery, ShardState.new] at seen
  room := by simpa [QueueEngine.clearForRaftRecovery] using room

/-! ## Acked entries -/

/-- The text of the id of a Push command. -/
def pushText : RaftCommand → Option String
  | .push _ msgId _ _ => some msgId
  | .ack .. => none

/-- Whenever the canonical text of the id a Push entry is read as is acked in the
log, the text of the entry is. -/
def AcksSpelled (env : Env) (log : List LogEntry) : Prop :=
  ∀ entry ∈ log, ∀ msgId ∈ pushText entry.command, ∀ id ∈ replayId env msgId,
    env.ulidToString id ∈ ackedIds log → msgId ∈ ackedIds log

instance (env : Env) (log : List LogEntry) : Decidable (AcksSpelled env log) :=
  decidable_of_iff ((log.all fun entry => (pushText entry.command).all fun msgId =>
    (replayId env msgId).all fun id => decide
      (env.ulidToString id ∈ ackedIds log → msgId ∈ ackedIds log)) = true)
    (by simp only [AcksSpelled, List.all_eq_true, Option.all_eq_true, decide_eq_true_eq,
      Option.mem_def])

/-- The log fits in memory, and no Push is delayed beyond the horizon. -/
structure LogFits (n : RaftNode) (now : Nat) : Prop where
  room : n.log.length ≤ n.engine.options.maxHotMessagesInRam
  near : ∀ entry ∈ n.log, ∀ queue msgId payload delay,
    entry.command = .push queue msgId payload delay → delay ≤ hotDelayHorizonSec
  clock : now + hotDelayHorizonSec < 2 ^ 64

theorem replayed_eq_some {r : Replayed} (replayedAs : replayed env acked entry = some r) :
    ∃ msgId, entry.command = .push r.queue msgId r.payload r.delay ∧ msgId ∉ acked ∧
      replayId env msgId = some r.id := by
  unfold replayed at replayedAs
  split at replayedAs
  · split at replayedAs
    · cases replayedAs
    · rename_i command unacked
      obtain ⟨id, read, rfl⟩ := Option.map_eq_some_iff.1 replayedAs
      exact ⟨_, command, unacked, read⟩
  · cases replayedAs

theorem LogFits.replay (h : LogFits n now) (start : n.snapshotIndex = 0) {r : Replayed}
    (member : entry ∈ n.log) (replayedAs : replayed env (ackedIds n.log) entry = some r) :
    r.id ∈ ((n.recoverAsNewLeader env now).engine.shards (shardIdx r.queue)).messages := by
  rw [recoverAsNewLeader_engine, replayedLog, replayBase, if_neg (by omega), if_neg (by omega)]
  refine (roomy_clear h.room).replay (fun entry member r replayedAs => ?_) h.clock entry member r
    replayedAs
  obtain ⟨msgId, command, _, _⟩ := replayed_eq_some replayedAs
  exact h.near entry member _ _ _ _ command

/-- A new leader without a snapshot has none of the acked messages when every Push
is spelled as its Ack, and with room for the log only then. -/
theorem recoverAsNewLeader_drops_acked (env : Env) (now : Nat) (n : RaftNode)
    (start : n.snapshotIndex = 0) :
    (AcksSpelled env n.log → ∀ id, env.ulidToString id ∈ ackedIds n.log →
      ¬ (n.recoverAsNewLeader env now).engine.InMemory id) ∧
    (LogFits n now → (∀ id, env.ulidToString id ∈ ackedIds n.log →
      ¬ (n.recoverAsNewLeader env now).engine.InMemory id) → AcksSpelled env n.log) := by
  refine ⟨fun spelled id acked => ?_, fun fits none entry member msgId text id read acked => ?_⟩
  · have every : (n.recoverAsNewLeader env now).engine.Every fun id _ =>
        env.ulidToString id ∉ ackedIds n.log := by
      refine recoverAsNewLeader_induction ?_ fun e h entry member r replayedAs => ?_
      · rw [replayBase, if_neg (by omega)]
        exact fun s id msg found => by cases found
      · obtain ⟨msgId, command, unacked, read⟩ := replayed_eq_some replayedAs
        rw [replayedLog, if_neg (by omega)] at member
        refine h.pushWithUlid env fun acked => unacked ?_
        exact spelled entry member msgId (by rw [command]; rfl) r.id read acked
    rintro ⟨s, inside⟩
    obtain ⟨msg, found⟩ := (FMap.mem_iff_lookup _ _).1 inside
    exact every s id msg found acked
  · by_contra unspelled
    cases command : entry.command with
    | ack queue msgId receipt =>
        rw [command] at text
        cases text
    | push queue msgId' payload delay =>
        rw [command] at text
        cases text
        have replayedAs : replayed env (ackedIds n.log) entry = some ⟨queue, id, payload, delay⟩ := by
          simp [replayed, command, unspelled, Option.mem_def.1 read]
        exact none id acked ⟨_, fits.replay start member replayedAs⟩

/-- The number of 32 hexadecimal digits, one text form of a UUID. -/
def uuidOfText (text : String) : Option Ulid :=
  if (utf8 text).length = 32 then
    ((utf8 text).foldl (fun value b => do
      let digit ← ((List.range 10).map (· + 48) ++ (List.range 6).map (· + 97)).idxOf? b.toNat
      some ((← value) * 16 + digit)) (some 0)).map (BitVec.ofNat 128)
  else none

/-- The sample environment with UUID texts. -/
def uuidEnv : Env := { Env.sample with uuidParseStr := uuidOfText }

/-- A leader after a message is pushed under the given text, polled and acked with
what the poll returned. -/
def ackedLeader (mId : String) : RaftNode :=
  let pushed := sampleLeader.proposePushBatch uuidEnv .format 1600000000 [] "a" [(mId, [1], 0)]
  let polled := pushed.1.engine.poll uuidEnv 1600000000 "a" 30 1
  (proposeAckBatch uuidEnv .format { pushed.1 with engine := polled.1 } "a"
    (polled.2.map fun message => (message.messageId, message.receiptHandle))).1

/-- A message pushed under the text of a UUID is acked under its ULID text, and comes
back at the new leader. -/
theorem recoverAsNewLeader_revives_uuid :
    let n := ackedLeader "00000000000000000000000000000007"
    n.snapshotIndex = 0 ∧ uuidEnv.ulidToString 7 ∈ ackedIds n.log ∧
      (n.recoverAsNewLeader uuidEnv 1600000000).engine.InMemory 7 := by
  decide +kernel

theorem recoverAsNewLeader_drops_acked_sample :
    ¬ ((ackedLeader (ulidText 7)).recoverAsNewLeader uuidEnv 1600000000).engine.InMemory 7 :=
  (recoverAsNewLeader_drops_acked uuidEnv 1600000000 (ackedLeader (ulidText 7))
    (by decide +kernel)).1 (by decide +kernel) 7 (by decide +kernel)

/-! ## Requests -/

/-- A request for new entries carries their commands. -/
theorem commandsOf_newEntries (codec : Postcard) (n : RaftNode) (commands : List RaftCommand) :
    commandsOf codec (n.appendRequest codec (n.newEntries commands)) = commands := by
  simp only [commandsOf, appendRequest, newEntries, List.filterMap_map, List.map_map,
    Function.comp_def, codec.fromBytes_toAllocvec]
  rw [show (fun c : RaftCommand × Nat => some c.1) = some ∘ Prod.fst from rfl,
    List.filterMap_eq_map, List.zipIdx_map_fst]

/-- The request of a push carries the commands of its proposals. -/
theorem commandsOf_proposePushBatch {codec : Postcard} {replies : List Bool}
    {items : List (String × List UInt8 × Nat)} {request : RaftAppend}
    (sent : (n.proposePushBatch env codec now replies queue items).2.2 = some request) :
    commandsOf codec request =
      (resolveItems env n.engine.draws items).1.map (Proposal.command queue) := by
  unfold proposePushBatch at sent
  split at sent
  · cases sent
  · split at sent
    · cases sent
    · dsimp only at sent
      split at sent <;> cases sent <;> exact commandsOf_newEntries codec _ _

end RaftNode

end WalrQueue
