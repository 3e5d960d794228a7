import WalrQueue.CatchUp
import WalrQueue.Failover

/-!
# One id on every path

A message id is a text.  The leader, a follower, a new leader, an ack and a snapshot each
read it with the parsers of the two crates, in an order of their own.  The order does not
matter for a text that only one of the parsers accepts, and such a text is what the leader
logs and returns: the one it was given, when it reads, or the canonical text of a new id.
-/

namespace WalrQueue

open QueueEngine

/-- What is assumed of the `ulid` and `uuid` crates; `size` is the length of a text. -/
structure Env.IdTexts (env : Env) (size : String → Nat) : Prop where
  canonical : ∀ u, env.ulidFromString (env.ulidToString u) = some u
  ulid : ∀ text u, env.ulidFromString text = some u → size text = 26
  uuid : ∀ text u, env.uuidParseStr text = some u → size text ∈ [32, 36, 38, 45]

/-- Exactly one of the two parsers accepts the text, and reads it as `u`. -/
def Env.Names (env : Env) (text : String) (u : Ulid) : Prop :=
  (env.ulidFromString text = some u ∧ env.uuidParseStr text = none) ∨
    (env.ulidFromString text = none ∧ env.uuidParseStr text = some u)

variable {env : Env} {size : String → Nat} {text : String} {u : Ulid}

/-! ## Texts that one parser accepts -/

theorem Env.IdTexts.of_ulid (texts : env.IdTexts size)
    (reads : env.ulidFromString text = some u) : env.Names text u := by
  refine .inl ⟨reads, ?_⟩
  cases other : env.uuidParseStr text with
  | none => rfl
  | some v =>
      have accepted := texts.uuid text v other
      rw [texts.ulid text u reads] at accepted
      exact absurd accepted (by decide)

theorem Env.IdTexts.of_uuid (texts : env.IdTexts size)
    (reads : env.uuidParseStr text = some u) : env.Names text u := by
  refine .inr ⟨?_, reads⟩
  cases other : env.ulidFromString text with
  | none => rfl
  | some v =>
      have accepted := texts.uuid text u reads
      rw [texts.ulid text v other] at accepted
      exact absurd accepted (by decide)

/-- The canonical text of an id names it. -/
theorem Env.IdTexts.names_canonical (texts : env.IdTexts size) (u : Ulid) :
    env.Names (env.ulidToString u) u :=
  texts.of_ulid (texts.canonical u)

/-- The text the leader logs and returns names the id it stores the message under. -/
theorem Env.IdTexts.names_resolveId (texts : env.IdTexts size) (draws : Nat) (mId : String) :
    env.Names (RaftNode.resolveId env draws mId).1.1 (RaftNode.resolveId env draws mId).1.2 := by
  unfold RaftNode.resolveId
  dsimp only
  split
  · exact texts.names_canonical _
  · split
    · split
      · rename_i reads
        exact texts.of_ulid reads
      · exact texts.names_canonical _
    · split
      · rename_i reads
        exact texts.of_uuid reads
      · exact texts.names_canonical _

theorem Env.IdTexts.names_resolveItems (texts : env.IdTexts size)
    (items : List (String × List UInt8 × Nat)) (draws : Nat) :
    ∀ p ∈ (RaftNode.resolveItems env draws items).1, env.Names p.msgId p.ulid := by
  induction items generalizing draws with
  | nil => exact fun p inside => absurd inside List.not_mem_nil
  | cons item items ih =>
      obtain ⟨mId, payload, delaySeconds⟩ := item
      exact List.forall_mem_cons.2 ⟨texts.names_resolveId draws mId, ih _⟩

/-! ## The readers -/

theorem Env.Names.followerId (names : env.Names text u) :
    RaftCommand.followerId env text = some u := by
  unfold RaftCommand.followerId
  rcases names with ⟨ulid, -⟩ | ⟨ulid, uuid⟩
  · rw [ulid]
  · rw [ulid]
    exact uuid

theorem Env.Names.replayId (names : env.Names text u) :
    RaftNode.replayId env text = some u := by
  unfold RaftNode.replayId
  rcases names with ⟨ulid, uuid⟩ | ⟨-, uuid⟩
  · rw [uuid]
    exact ulid
  · rw [uuid]

theorem Env.Names.parseIdFast (names : env.Names text u) :
    QueueEngine.parseIdFast env text = some u := by
  unfold QueueEngine.parseIdFast
  rcases names with ⟨ulid, uuid⟩ | ⟨ulid, uuid⟩
  · rw [ulid, uuid]
    by_cases length : (utf8 text).length = 26
    · rw [if_pos length]
    · rw [if_neg length]
  · rw [ulid, ite_self, uuid]

theorem Env.Names.readId (names : env.Names text u) (queue : String) (visibleAt : Nat)
    (payload : List UInt8) :
    SnapshotItem.readId env ⟨text, queue, visibleAt, payload⟩ = some u :=
  names.replayId

namespace RaftNode

variable {n : RaftNode} {queue : String}

/-- A push that succeeds returns the texts of its proposals and stores each message under
the id of its proposal. -/
theorem proposePushBatch_resolved {codec : Postcard} {now : Nat} {replies : List Bool}
    {items : List (String × List UInt8 × Nat)} {ids : List String}
    (pushed : (n.proposePushBatch env codec now replies queue items).2.1 = .ok ids) :
    let resolved := resolveItems env n.engine.draws items
    ids = resolved.1.map (·.msgId) ∧
      (items ≠ [] → (n.proposePushBatch env codec now replies queue items).1.engine =
        (QueueEngine.pushBatch env { n.engine with draws := resolved.2 } now queue
          (resolved.1.map Proposal.item)).1) := by
  intro resolved
  unfold proposePushBatch at pushed ⊢
  split at pushed
  · cases pushed
  · rename_i leads
    rw [if_neg leads]
    split at pushed
    · rename_i empty
      cases pushed
      exact ⟨by simp only [resolved, empty, resolveItems, List.map_nil], absurd empty⟩
    · rename_i some
      rw [if_neg some]
      dsimp only at pushed ⊢
      split at pushed
      · rename_i quorum
        rw [if_pos quorum]
        cases pushed
        refine ⟨rfl, fun _ => ?_⟩
        dsimp only
        split
        · rw [compactLogSnapshot, (compactAt_frame _ _).2.2.2.1]
        · rfl
      · cases pushed

/-- Every message a leader pushes is stored under one ULID, and that ULID is what the text
it logs and returns reads as at a follower, at a new leader and at an ack; the canonical text
of the ULID reads as it in a snapshot and at an ack. -/
theorem ids_resolve_alike (texts : env.IdTexts size) (codec : Postcard) (now : Nat)
    (replies : List Bool) (n : RaftNode) (queue : String)
    (items : List (String × List UInt8 × Nat)) :
    let done := n.proposePushBatch env codec now replies queue items
    let resolved := resolveItems env n.engine.draws items
    (∀ ids, done.2.1 = .ok ids → ids = resolved.1.map (·.msgId) ∧
      (items ≠ [] → done.1.engine = (QueueEngine.pushBatch env
        { n.engine with draws := resolved.2 } now queue (resolved.1.map Proposal.item)).1)) ∧
    (∀ request, done.2.2 = some request →
      commandsOf codec request = resolved.1.map (Proposal.command queue)) ∧
    ∀ p ∈ resolved.1,
      (∀ now e, applyCommand env now e (p.command queue) =
        (e.pushWithUlid env now queue p.ulid p.payload p.delaySeconds).1) ∧
      (∀ now acked e entry, entry.command = p.command queue → p.msgId ∉ acked →
        replayEntry env now acked e entry =
          (e.pushWithUlid env now queue p.ulid p.payload p.delaySeconds).1) ∧
      parseIdFast env p.msgId = some p.ulid ∧
      (∀ now e queue visibleAt payload,
        installItem env now e ⟨env.ulidToString p.ulid, queue, visibleAt, payload⟩ =
          (e.pushWithUlid env now queue p.ulid payload (visibleAt - now)).1) ∧
      parseIdFast env (env.ulidToString p.ulid) = some p.ulid := by
  intro done resolved
  refine ⟨fun ids pushed => proposePushBatch_resolved pushed,
    fun request sent => commandsOf_proposePushBatch sent, fun p inside => ?_⟩
  have names := texts.names_resolveItems items n.engine.draws p inside
  have canonical := texts.names_canonical p.ulid
  refine ⟨fun now e => ?_, fun now acked e entry logged unacked => ?_, names.parseIdFast,
    fun now e queue visibleAt payload => ?_, canonical.parseIdFast⟩
  · rw [Proposal.command, applyCommand_push, names.followerId]
  · rw [replayEntry_eq, replayed, logged]
    simp only [Proposal.command, if_neg unacked, names.replayId, Option.map_some]
  · rw [installItem_eq, canonical.readId]

/-- The concrete environment with UUID texts of 32 digits. -/
theorem uuidEnv_idTexts : uuidEnv.IdTexts fun text => (utf8 text).length where
  canonical := ulidOfText_ulidText
  ulid := Env.sample_ulidTexts.length
  uuid := by
    intro text u reads
    by_cases length : (utf8 text).length = 32
    · rw [length]
      exact List.mem_cons_self
    · have none : uuidOfText text = none := if_neg length
      rw [show uuidEnv.uuidParseStr text = uuidOfText text from rfl, none] at reads
      cases reads

/-- A UUID text, a ULID text, an empty text and one that is neither. -/
theorem ids_resolve_alike_sample :
    let items := ["00000000000000000000000000000007", ulidText 8, "", "jobs"].map
      fun mId => (mId, [1], 0)
    let resolved := (resolveItems uuidEnv sampleLeader.engine.draws items).1
    resolved.map (·.ulid) = [7, 8, uuidEnv.ulidNew 0, uuidEnv.ulidNew 1] ∧
      ∀ p ∈ resolved, parseIdFast uuidEnv p.msgId = some p.ulid ∧
        parseIdFast uuidEnv (uuidEnv.ulidToString p.ulid) = some p.ulid := by
  intro items resolved
  have alike := ids_resolve_alike uuidEnv_idTexts .format 1600000000 [] sampleLeader "a" items
  refine ⟨by decide +kernel, fun p inside => ?_⟩
  obtain ⟨-, -, parsed, -, again⟩ := alike.2.2 p inside
  exact ⟨parsed, again⟩

end RaftNode

end WalrQueue
