import WalrQueue.Lib.Trace
import WalrQueue.Engine

/-!
# Sequential runs

A run is a list of operations executed one at a time from a starting state.  The
clock is part of the state and moves only by `advance`, so it never goes back.
-/

namespace WalrQueue

/-- The operations of a sequential run. -/
inductive Op where
  | push (queue : String) (id : Ulid) (payload : List UInt8) (delaySec : Nat)
  | pushBatch (queue : String) (items : List PushItem)
  | poll (queue : String) (visibilitySec maxMessages : Nat)
  | ack (queue messageId receipt : String)
  | ackBatch (queue : String) (items : List (String × String))
  | advance (seconds : Nat)
  deriving DecidableEq

/-- What an operation returns. -/
inductive Reply where
  | pushed (messageId : String)
  | pushedBatch (messageIds : List String)
  | polled (messages : List PolledMessage)
  | acked (success : Bool)
  | ackedBatch (count : Nat)
  | none
  deriving DecidableEq

/-- The engine and the clock. -/
structure World where
  engine : QueueEngine
  clock : Nat

/-- One operation. -/
def World.exec (env : Env) (w : World) : Op → World × Reply
  | .push queue id payload delaySec =>
      let r := w.engine.pushWithUlid env w.clock queue id payload delaySec
      (⟨r.1, w.clock⟩, .pushed r.2)
  | .pushBatch queue items =>
      let r := w.engine.pushBatch env w.clock queue items
      (⟨r.1, w.clock⟩, .pushedBatch r.2)
  | .poll queue visibilitySec maxMessages =>
      let r := w.engine.poll env w.clock queue visibilitySec maxMessages
      (⟨r.1, w.clock⟩, .polled r.2)
  | .ack queue messageId receipt =>
      let r := w.engine.ack env queue messageId receipt
      (⟨r.1, w.clock⟩, .acked r.2)
  | .ackBatch queue items =>
      let r := w.engine.ackBatch env queue items
      (⟨r.1, w.clock⟩, .ackedBatch r.2)
  | .advance seconds => (⟨w.engine, w.clock + seconds⟩, .none)

/-- The state after one operation. -/
def World.step (env : Env) (w : World) (op : Op) : World := (w.exec env op).1

/-- The state after a list of operations. -/
def World.run (env : Env) (w : World) (ops : List Op) : World := ops.foldl (World.step env) w

/-- An engine opened on an empty directory at time `clock`. -/
def World.fresh (env : Env) (opts : QueueOptions) (clock : Nat) : World :=
  ⟨QueueEngine.openDir env .empty opts clock 0, clock⟩

theorem World.clock_le_step (env : Env) (w : World) (op : Op) : w.clock ≤ (w.step env op).clock := by
  cases op with
  | advance seconds => exact Nat.le_add_right _ _
  | push | pushBatch | poll | ack | ackBatch => exact le_rfl

theorem World.clock_le_run (env : Env) (w : World) (ops : List Op) :
    w.clock ≤ (w.run env ops).clock := by
  induction ops generalizing w with
  | nil => exact le_rfl
  | cons op ops ih => exact (World.clock_le_step env w op).trans (ih _)

/-! ## Conditions on a run -/

/-- The ids an operation pushes, with their queue. -/
def World.pushes (env : Env) (w : World) : Op → List (Ulid × String)
  | .push queue id _ _ => [(id, queue)]
  | .pushBatch queue items =>
      (QueueEngine.pushBatchLoop env w.engine w.clock queue items).ids.map fun id => (id, queue)
  | _ => []

/-- The payloads an operation pushes. -/
def Op.payloads : Op → List (List UInt8)
  | .push _ _ payload _ => [payload]
  | .pushBatch _ items => items.map (·.payload)
  | _ => []

/-- Payloads are under 4 GiB, and the ids in `tracked` are pushed to their own
queue only. -/
structure OrdinaryFor (tracked : Set Ulid) (home : Ulid → String) (env : Env) (w : World)
    (op : Op) : Prop where
  oneQueue : ∀ pushed ∈ w.pushes env op, pushed.1 ∈ tracked → home pushed.1 = pushed.2
  small : ∀ payload ∈ op.payloads, payload.length < 2 ^ 32

/-- Ids are pushed to their own queue only, and payloads are under 4 GiB. -/
structure Ordinary (home : Ulid → String) (env : Env) (w : World) (op : Op) : Prop where
  oneQueue : ∀ pushed ∈ w.pushes env op, home pushed.1 = pushed.2
  small : ∀ payload ∈ op.payloads, payload.length < 2 ^ 32

instance (home : Ulid → String) (env : Env) (w : World) (op : Op) :
    Decidable (Ordinary home env w op) :=
  decidable_of_iff ((∀ pushed ∈ w.pushes env op, home pushed.1 = pushed.2) ∧
    ∀ payload ∈ op.payloads, payload.length < 2 ^ 32)
    ⟨fun h => ⟨h.1, h.2⟩, fun h => ⟨h.oneQueue, h.small⟩⟩

/-! ## The compaction check -/

/-- The engine as an operation hands it to `check_and_trigger_compaction`, when
the operation gets there. -/
def World.checkpoint (env : Env) (w : World) : Op → Option QueueEngine
  | .push queue id payload delaySec =>
      let done := w.engine.pushUnchecked w.clock queue id payload delaySec
      if done.2 then some done.1 else none
  | .pushBatch queue items => some (w.engine.pushBatchUnchecked env w.clock queue items)
  | .ack queue messageId receipt =>
      (QueueEngine.parseIdFast env messageId).bind (w.engine.ackUnchecked queue · receipt)
  | .ackBatch queue items => some (w.engine.ackBatchUnchecked env queue items)
  | _ => none

/-- The check is the last thing such an operation does. -/
theorem World.step_of_checkpoint {env : Env} {w : World} {op : Op} {mid : QueueEngine}
    (reached : w.checkpoint env op = some mid) :
    (w.step env op).engine = mid.checkAndTriggerCompaction env := by
  cases op with
  | push queue id payload delaySec =>
      simp only [World.checkpoint] at reached
      split at reached
      · rename_i goesOn
        cases reached
        simp [World.step, World.exec, QueueEngine.pushWithUlid, goesOn]
      · cases reached
  | pushBatch queue items =>
      cases reached
      rfl
  | poll queue visibilitySec maxMessages => cases reached
  | ack queue messageId receipt =>
      simp only [World.checkpoint] at reached
      simp [World.step, World.exec, QueueEngine.ack, reached]
  | ackBatch queue items =>
      cases reached
      rfl
  | advance seconds => cases reached

/-- The delays an operation pushes with. -/
def Op.delays : Op → List Nat
  | .push _ _ _ delaySec => [delaySec]
  | .pushBatch _ items => items.map (·.delaySeconds)
  | _ => []

/-! ## A concrete environment -/

/-- The alphabet of the text form of a ULID. -/
def crockford : List Char :=
  ['0', '1', '2', '3', '4', '5', '6', '7', '8', '9', 'A', 'B', 'C', 'D', 'E', 'F', 'G', 'H', 'J',
    'K', 'M', 'N', 'P', 'Q', 'R', 'S', 'T', 'V', 'W', 'X', 'Y', 'Z']

/-- A ULID as 26 digits in base 32. -/
def ulidText (u : Ulid) : String :=
  String.ofList ((List.range 26).map fun i => crockford.getD (u.toNat / 32 ^ (25 - i) % 32) '0')

/-- The ULID of 26 digits in base 32. -/
def ulidOfText (text : String) : Option Ulid :=
  if (utf8 text).length = 26 then
    ((utf8 text).foldl (fun value b => do
      let digit ← (crockford.map (fun c => c.toNat.toUInt8)).idxOf? b
      some ((← value) * 32 + digit)) (some 0)).map (BitVec.ofNat 128)
  else none

/-- An environment that can be evaluated: `Ulid::new` counts up from `2 ^ 64`, no
id is a UUID text, no payload is compressed, and maps are iterated in the order
of their entries. -/
def Env.sample : Env where
  ulidNew n := BitVec.ofNat 128 (2 ^ 64 + n)
  ulidToString := ulidText
  ulidFromString := ulidOfText
  uuidParseStr _ := none
  zstdDecodeAll _ := none
  hashOrder _ _ l := l
  hashOrder_perm _ _ l := .refl l

end WalrQueue
