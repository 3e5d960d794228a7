import WalrQueue.Lib.Simulation
import WalrQueue.WheelLeases

/-!
# The timer wheel is a map of leases

`LeaseTable` says what the wheel is for: a finite map from message id to receipt
and expiry second, with the second it was last swept at.  Slots, index and sweep
ranges do not appear in it.  A wheel driven as `poll` drives it, with a sweep at
the current second before leases are inserted, answers every call as the map
does.
-/

namespace WalrQueue

open Simulation

/-- The calls made on a wheel. -/
inductive WheelOp where
  | collectExpired (nowSec : Nat)
  | insert (item : InFlightItem)
  | removeIfValid (id : Ulid) (receipt : String)
  deriving DecidableEq

/-- What a call returns; a lease is id, receipt and expiry. -/
inductive WheelReply where
  | expired (leases : List (Ulid × String × Nat))
  | inserted
  | removed (success : Bool)
  deriving DecidableEq

/-- Equal answers; a sweep may list the leases in any order. -/
def WheelReply.Same : WheelReply → WheelReply → Prop
  | .expired leases, .expired leases' => leases.Perm leases'
  | reply, reply' => reply = reply'

def InFlightItem.lease (item : InFlightItem) : Ulid × String × Nat :=
  (item.id, item.receipt, item.expireAt)

/-- One call on a wheel. -/
def TimerWheel.exec (w : TimerWheel) : WheelOp → TimerWheel × WheelReply
  | .collectExpired nowSec =>
      let swept := w.collectExpired nowSec
      (swept.1, .expired (swept.2.map InFlightItem.lease))
  | .insert item => (w.insert item, .inserted)
  | .removeIfValid id receipt =>
      let removed := w.removeIfValid id receipt
      (removed.1, .removed removed.2)

/-- The receipt and expiry a wheel holds for an id. -/
def TimerWheel.lease? (w : TimerWheel) (id : Ulid) : Option (String × Nat) :=
  match AList.lookup id w.indexById with
  | some (slot, receipt) =>
      ((w.slots slot).find? (fun item => item.id = id)).map fun item => (receipt, item.expireAt)
  | none => none

/-! ## The map -/

/-- The leases held, and the second of the last sweep, 0 before the first. -/
structure LeaseTable where
  leases : FMap Ulid (String × Nat)
  now : Nat

namespace LeaseTable

def empty : LeaseTable := ⟨∅, 0⟩

/-- The leases that are over at `nowSec`. -/
def due (t : LeaseTable) (nowSec : Nat) : List (Ulid × String × Nat) :=
  (t.leases.entries.filter fun entry => entry.2.2 ≤ nowSec).map fun entry => (entry.1, entry.2)

/-- One call on the map. -/
def exec (t : LeaseTable) : WheelOp → LeaseTable × WheelReply
  | .collectExpired nowSec =>
      (⟨FMap.eraseAll t.leases ((t.due nowSec).map (·.1)), nowSec⟩, .expired (t.due nowSec))
  | .insert item =>
      ({ t with leases := AList.insert item.id (item.receipt, item.expireAt) t.leases }, .inserted)
  | .removeIfValid id receipt =>
      if (AList.lookup id t.leases).map (·.1) = some receipt then
        ({ t with leases := AList.erase id t.leases }, .removed true)
      else (t, .removed false)

/-- The calls `poll` and `ack` make: sweeps at seconds that never go back, leases
of ids that have none, inserted after a sweep and over after its second, and
removals of any id with any receipt. -/
def Accepts (t : LeaseTable) : WheelOp → Prop
  | .collectExpired nowSec => 1 ≤ nowSec ∧ t.now ≤ nowSec
  | .insert item => 1 ≤ t.now ∧ t.now < item.expireAt ∧ item.id ∉ t.leases
  | .removeIfValid _ _ => True

instance (t : LeaseTable) : (op : WheelOp) → Decidable (t.Accepts op)
  | .collectExpired nowSec => inferInstanceAs (Decidable (1 ≤ nowSec ∧ t.now ≤ nowSec))
  | .insert item =>
      inferInstanceAs (Decidable (1 ≤ t.now ∧ t.now < item.expireAt ∧ item.id ∉ t.leases))
  | .removeIfValid _ _ => inferInstanceAs (Decidable True)

theorem mem_due {t : LeaseTable} {nowSec : Nat} {id : Ulid} {entry : String × Nat} :
    (id, entry) ∈ t.due nowSec ↔ AList.lookup id t.leases = some entry ∧ entry.2 ≤ nowSec := by
  unfold due
  rw [List.mem_map]
  constructor
  · rintro ⟨⟨id', entry'⟩, inside, same⟩
    obtain ⟨rfl, rfl⟩ := Prod.mk.inj same
    obtain ⟨held, past⟩ := List.mem_filter.1 inside
    exact ⟨AList.mem_lookup_iff.2 held, by simpa using past⟩
  · rintro ⟨held, past⟩
    exact ⟨⟨id, entry⟩, List.mem_filter.2 ⟨AList.mem_lookup_iff.1 held, by simpa using past⟩, rfl⟩

theorem nodup_due (t : LeaseTable) (nowSec : Nat) : ((t.due nowSec).map (·.1)).Nodup := by
  have keys : (t.due nowSec).map (·.1) =
      (t.leases.entries.filter fun entry => entry.2.2 ≤ nowSec).map Sigma.fst := by
    simp [due, Function.comp_def]
  rw [keys]
  exact t.leases.nodupKeys.sublist List.filter_sublist

theorem lookup_collectExpired (t : LeaseTable) (nowSec : Nat) (id : Ulid) :
    AList.lookup id (t.exec (.collectExpired nowSec)).1.leases =
      (AList.lookup id t.leases).filter fun entry => nowSec < entry.2 := by
  simp only [exec, FMap.lookup_eraseAll]
  cases held : AList.lookup id t.leases with
  | none => simp
  | some entry =>
      by_cases past : entry.2 ≤ nowSec
      · have due : id ∈ (t.due nowSec).map (·.1) :=
          List.mem_map.2 ⟨(id, entry), mem_due.2 ⟨held, past⟩, rfl⟩
        rw [if_pos due, Option.filter_some, if_neg (by simpa using past)]
      · have kept : id ∉ (t.due nowSec).map (·.1) := by
          intro inside
          obtain ⟨⟨id', entry'⟩, listed, rfl⟩ := List.mem_map.1 inside
          obtain ⟨held', past'⟩ := mem_due.1 listed
          rw [held] at held'
          cases held'
          exact past past'
        rw [if_neg kept, Option.filter_some, if_pos (by simpa using past)]

end LeaseTable

/-! ## The wheel holds what the map holds -/

/-- The wheel has, for every id, exactly the lease the map has, and every lease is
over after the second the wheel was last swept at. -/
structure Refines (w : TimerWheel) (t : LeaseTable) : Prop where
  sized : 0 < w.size
  swept : w.lastCheckedSec = t.now
  held : ∀ id entry, AList.lookup id t.leases = some entry → ∃ item : InFlightItem,
    w.Leased id item ∧ (item.receipt, item.expireAt) = entry ∧ 0 < t.now ∧ t.now < item.expireAt
  free : ∀ id, AList.lookup id t.leases = none → w.Unleased id

namespace Refines

variable {w : TimerWheel} {t : LeaseTable} {nowSec : Nat} {item : InFlightItem}

theorem new (capacity : Nat) : Refines (.new capacity) .empty where
  sized := by simp [TimerWheel.new]
  swept := rfl
  held id entry found := by simp [LeaseTable.empty] at found
  free id _ := .new capacity

theorem insert (h : Refines w t) (accepted : t.Accepts (.insert item)) :
    Refines (w.insert item) (t.exec (.insert item)).1 := by
  obtain ⟨started, ahead, absent⟩ := accepted
  have unleased := h.free item.id (AList.lookup_eq_none.2 absent)
  refine ⟨h.sized, h.swept, fun id entry found => ?_, fun id found => ?_⟩
  · simp only [LeaseTable.exec, FMap.lookup_insert_ite] at found
    split at found
    · rename_i same
      cases found
      subst same
      exact ⟨item, unleased.insert, rfl, started, ahead⟩
    · rename_i other
      obtain ⟨item', leased, rest⟩ := h.held id entry found
      exact ⟨item', (TimerWheel.insert_sameLease (Ne.symm other)).leased leased, rest⟩
  · simp only [LeaseTable.exec, FMap.lookup_insert_ite] at found
    split at found
    · cases found
    · rename_i other
      exact (TimerWheel.insert_sameLease (Ne.symm other)).unleased (h.free id found)

theorem removeIfValid (h : Refines w t) (id : Ulid) (receipt : String) :
    Refines (w.removeIfValid id receipt).1 (t.exec (.removeIfValid id receipt)).1 ∧
      WheelReply.removed (w.removeIfValid id receipt).2 =
        (t.exec (.removeIfValid id receipt)).2 := by
  simp only [LeaseTable.exec]
  cases found : AList.lookup id t.leases with
  | none =>
      rw [(h.free id found).removeIfValid receipt]
      exact ⟨h, rfl⟩
  | some entry =>
      obtain ⟨item, leased, rfl, _⟩ := h.held id entry found
      by_cases valid : item.receipt = receipt
      · subst valid
        obtain ⟨success, unleased⟩ := leased.removeIfValid
        simp only [Option.map_some, if_true, success, and_true]
        refine ⟨by rw [TimerWheel.size_removeIfValid]; exact h.sized, ?_,
          fun id' entry' found' => ?_, fun id' found' => ?_⟩
        · rw [TimerWheel.lastCheckedSec_removeIfValid]
          exact h.swept
        · rw [FMap.lookup_erase_ite] at found'
          split at found'
          · cases found'
          · rename_i other
            have same := TimerWheel.removeIfValid_sameLease (w := w) item.receipt (Ne.symm other)
            obtain ⟨item', leased', rest⟩ := h.held id' entry' found'
            exact ⟨item', same.leased leased', rest⟩
        · rw [FMap.lookup_erase_ite] at found'
          split at found'
          · rename_i same
            subst same
            exact unleased
          · rename_i other
            have same := TimerWheel.removeIfValid_sameLease (w := w) item.receipt (Ne.symm other)
            exact same.unleased (h.free id' found')
      · rw [leased.removeIfValid_of_ne valid]
        simp only [Option.map_some, Option.some.injEq, valid, if_false, and_true]
        exact h

/-- A sweep collects the lease of an id exactly when it is due. -/
theorem sweeps (h : Refines w t) (nowSec : Nat) {id : Ulid} {entry : String × Nat}
    (found : AList.lookup id t.leases = some entry) : ∃ item : InFlightItem,
      item.lease = (id, entry) ∧
      ((entry.2 ≤ nowSec ∧ (w.collectExpired nowSec).1.Unleased id ∧
          TimerWheel.itemsOf id (w.collectExpired nowSec).2 = [item]) ∨
        (nowSec < entry.2 ∧ (w.collectExpired nowSec).1.Leased id item ∧
          TimerWheel.itemsOf id (w.collectExpired nowSec).2 = [])) := by
  obtain ⟨item, leased, rfl, started, ahead⟩ := h.held id entry found
  refine ⟨item, by rw [InFlightItem.lease, leased.id_eq], ?_⟩
  cases leased.collectExpired nowSec with
  | collected past unleased items => exact .inl ⟨past, unleased, items⟩
  | kept leased' items =>
      refine .inr ⟨?_, leased', items⟩
      by_contra past
      have gone := (TimerWheel.collectExpired_due h.sized leased.index leased.mem_slot
        (h.swept ▸ started) (h.swept ▸ ahead) (Nat.le_of_not_lt past)).2
      rw [leased.id_eq, leased'.index] at gone
      cases gone

theorem mem_collected (h : Refines w t) (nowSec : Nat) (lease : Ulid × String × Nat) :
    lease ∈ (w.collectExpired nowSec).2.map InFlightItem.lease ↔ lease ∈ t.due nowSec := by
  obtain ⟨id, entry⟩ := lease
  rw [LeaseTable.mem_due, List.mem_map]
  constructor
  · rintro ⟨item, inside, same⟩
    have mine : item ∈ TimerWheel.itemsOf id (w.collectExpired nowSec).2 :=
      List.mem_filter.2 ⟨inside, by simpa [InFlightItem.lease] using congrArg Prod.fst same⟩
    cases found : AList.lookup id t.leases with
    | none =>
        rw [((h.free id found).collectExpired nowSec).2] at mine
        cases mine
    | some entry' =>
        obtain ⟨item', lease', ⟨past, _, items⟩ | ⟨_, _, items⟩⟩ := h.sweeps nowSec found
        · rw [items, List.mem_singleton] at mine
          rw [mine, lease'] at same
          cases same
          exact ⟨rfl, past⟩
        · rw [items] at mine
          cases mine
  · rintro ⟨found, past⟩
    obtain ⟨item, lease, ⟨_, _, items⟩ | ⟨early, _⟩⟩ := h.sweeps nowSec found
    · have mine : item ∈ TimerWheel.itemsOf id (w.collectExpired nowSec).2 := by
        rw [items]
        exact List.mem_singleton_self item
      exact ⟨item, (List.mem_filter.1 mine).1, lease⟩
    · exact absurd past (Nat.not_le_of_lt early)

theorem nodup_collected (h : Refines w t) (nowSec : Nat) :
    ((w.collectExpired nowSec).2.map InFlightItem.lease).Nodup := by
  refine List.Nodup.of_map Prod.fst ?_
  rw [List.nodup_iff_count_le_one]
  intro id
  have count : List.count id (((w.collectExpired nowSec).2.map InFlightItem.lease).map Prod.fst) =
      (TimerWheel.itemsOf id (w.collectExpired nowSec).2).length := by
    rw [List.map_map, List.count_eq_countP, List.countP_map, List.countP_eq_length_filter]
    rfl
  rw [count]
  cases found : AList.lookup id t.leases with
  | none => simp [((h.free id found).collectExpired nowSec).2]
  | some entry =>
      obtain ⟨item, _, ⟨_, _, items⟩ | ⟨_, _, items⟩⟩ := h.sweeps nowSec found
      · simp [items]
      · simp [items]

theorem collectExpired (h : Refines w t) (accepted : t.Accepts (.collectExpired nowSec)) :
    Refines (w.collectExpired nowSec).1 (t.exec (.collectExpired nowSec)).1 ∧
      ((w.collectExpired nowSec).2.map InFlightItem.lease).Perm (t.due nowSec) := by
  obtain ⟨positive, _⟩ := accepted
  refine ⟨⟨?_, ?_, fun id entry found => ?_, fun id found => ?_⟩, ?_⟩
  · rw [TimerWheel.size_collectExpired]
    exact h.sized
  · exact TimerWheel.lastCheckedSec_collectExpired nowSec
  · rw [LeaseTable.lookup_collectExpired, Option.filter_eq_some_iff] at found
    obtain ⟨item, lease, ⟨past, _⟩ | ⟨early, leased, _⟩⟩ := h.sweeps nowSec found.1
    · exact absurd past (by simpa using found.2)
    · refine ⟨item, leased, congrArg Prod.snd lease, positive, ?_⟩
      rw [show item.expireAt = entry.2 from congrArg (·.2.2) lease]
      exact early
  · rw [LeaseTable.lookup_collectExpired, Option.filter_eq_none_iff] at found
    cases before : AList.lookup id t.leases with
    | none => exact ((h.free id before).collectExpired nowSec).1
    | some entry =>
        obtain ⟨item, _, ⟨_, unleased, _⟩ | ⟨early, _⟩⟩ := h.sweeps nowSec before
        · exact unleased
        · exact absurd early (by simpa using found entry before)
  · exact (List.perm_ext_iff_of_nodup (h.nodup_collected nowSec)
      (.of_map Prod.fst (t.nodup_due nowSec))).2 (h.mem_collected nowSec)

/-- The wheel read as a map. -/
theorem lease?_eq (h : Refines w t) (id : Ulid) : w.lease? id = AList.lookup id t.leases := by
  unfold TimerWheel.lease?
  cases found : AList.lookup id t.leases with
  | none => rw [(h.free id found).index]
  | some entry =>
      obtain ⟨item, leased, rfl, _⟩ := h.held id entry found
      have first : (w.slots (item.expireAt % w.size)).find? (fun item => item.id = id) =
          some item := by
        rw [← List.head?_filter]
        exact congrArg List.head? leased.slot
      rw [leased.index]
      dsimp only
      rw [first]
      rfl

theorem simulates : Simulates TimerWheel.exec LeaseTable.exec LeaseTable.Accepts Refines
    WheelReply.Same := by
  intro w t op h accepted
  cases op with
  | collectExpired nowSec => exact h.collectExpired accepted
  | insert item => exact ⟨h.insert accepted, rfl⟩
  | removeIfValid id receipt => exact h.removeIfValid id receipt

end Refines

/-- In every run of accepted calls a wheel of any size holds the leases the map
holds and gives the map's answers. -/
theorem TimerWheel.refines_leaseTable (capacity : Nat) (ops : List WheelOp)
    (accepted : Trace.Along (next LeaseTable.exec) LeaseTable.Accepts .empty ops) :
    (∀ id, (after TimerWheel.exec (.new capacity) ops).lease? id =
      AList.lookup id (after LeaseTable.exec .empty ops).leases) ∧
    List.Forall₂ WheelReply.Same (answers TimerWheel.exec (.new capacity) ops)
      (answers LeaseTable.exec .empty ops) := by
  obtain ⟨refines, replies⟩ := Refines.simulates.run (.new capacity) accepted
  exact ⟨refines.lease?_eq, replies⟩

/-- A wheel of 60 slots with a lease of 200 seconds and a gap of 70 between sweeps. -/
def leaseCalls : List WheelOp :=
  [.collectExpired 1000, .insert ⟨1, "a", "r", 1030⟩, .insert ⟨2, "a", "s", 1200⟩,
    .collectExpired 1030, .removeIfValid 2 "x", .insert ⟨3, "a", "t", 1031⟩,
    .collectExpired 1100, .removeIfValid 2 "s", .removeIfValid 2 "s"]

theorem TimerWheel.refines_leaseTable_sample :
    answers LeaseTable.exec .empty leaseCalls =
      [.expired [], .inserted, .inserted, .expired [(1, "r", 1030)], .removed false, .inserted,
        .expired [(3, "t", 1031)], .removed true, .removed false] ∧
    List.Forall₂ WheelReply.Same (answers TimerWheel.exec (.new 60) leaseCalls)
      (answers LeaseTable.exec .empty leaseCalls) :=
  ⟨by decide, (TimerWheel.refines_leaseTable 60 leaseCalls (by decide)).2⟩

end WalrQueue
