import WalrQueue.Env

/-!
# The timer wheel

Leases are kept in `size` slots by expiry second modulo `size`, with an index
from message id to slot and receipt.  `collectExpired` sweeps only the slots of
the seconds that passed since the last call.
-/

namespace WalrQueue

/-- `InFlightItem`. -/
structure InFlightItem where
  id : Ulid
  queue : String
  receipt : String
  expireAt : Nat
  deriving DecidableEq

/-- `TimerWheel`; slot `i` of the vector is `slots i`, for `i < size`. -/
structure TimerWheel where
  slots : Nat → List InFlightItem
  size : Nat
  indexById : FMap Ulid (Nat × String)
  lastCheckedSec : Nat

/-- `Vec::swap_remove`: the last element takes the place of the removed one. -/
def swapRemove {α : Type} (l : List α) (pos : Nat) : List α :=
  match l.getLast? with
  | some last => (l.set pos last).dropLast
  | none => l

namespace TimerWheel

/-- `TimerWheel::new`. -/
def new (capacitySecs : Nat) : TimerWheel where
  slots := fun _ => []
  size := max capacitySecs 60
  indexById := ∅
  lastCheckedSec := 0

/-- `TimerWheel::insert`. -/
def insert (w : TimerWheel) (item : InFlightItem) : TimerWheel :=
  let slot := item.expireAt % w.size
  { w with
    indexById := AList.insert item.id (slot, item.receipt) w.indexById
    slots := Function.update w.slots slot (w.slots slot ++ [item]) }

/-- `TimerWheel::remove_if_valid`. -/
def removeIfValid (w : TimerWheel) (id : Ulid) (receipt : String) : TimerWheel × Bool :=
  match AList.lookup id w.indexById with
  | some (slot, validReceipt) =>
      if validReceipt = receipt then
        let pos := (w.slots slot).findIdx (fun it => it.id == id)
        ({ w with
           indexById := AList.erase id w.indexById
           slots :=
             if pos < (w.slots slot).length then
               Function.update w.slots slot (swapRemove (w.slots slot) pos)
             else w.slots }, true)
      else (w, false)
  | none => (w, false)

/-- Take the items of one slot that are due at `nowSec` out of the slot and the
index, and append them to those collected so far. -/
def sweepSlot (nowSec : Nat) (acc : TimerWheel × List InFlightItem) (slot : Nat) :
    TimerWheel × List InFlightItem :=
  let due := (acc.1.slots slot).filter (fun item => item.expireAt ≤ nowSec)
  let remaining := (acc.1.slots slot).filter (fun item => !decide (item.expireAt ≤ nowSec))
  ({ acc.1 with
     slots := Function.update acc.1.slots slot remaining
     indexById := FMap.eraseAll acc.1.indexById (due.map (·.id)) }, acc.2 ++ due)

/-- The slots `collect_expired` sweeps, in order. -/
def sweptSlots (size lastCheckedSec nowSec : Nat) : List Nat :=
  let elapsedTicks := min (nowSec - lastCheckedSec) size
  if size ≤ elapsedTicks then List.range size
  else (List.range elapsedTicks).map (fun t => (lastCheckedSec + (t + 1)) % size)

/-- `TimerWheel::collect_expired`. -/
def collectExpired (w : TimerWheel) (nowSec : Nat) : TimerWheel × List InFlightItem :=
  if w.indexById.entries = [] then ({ w with lastCheckedSec := nowSec }, [])
  else
    let last := if w.lastCheckedSec = 0 then nowSec - 1 else w.lastCheckedSec
    let swept := (sweptSlots w.size last nowSec).foldl (sweepSlot nowSec) (w, [])
    ({ swept.1 with lastCheckedSec := nowSec }, swept.2)

end TimerWheel

end WalrQueue
