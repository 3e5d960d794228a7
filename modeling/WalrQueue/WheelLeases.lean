import WalrQueue.TimerWheel

/-!
# The lease of one id in the timer wheel

For one fixed id `m` a wheel is in one of two states: it holds no lease of `m`
(`Unleased`), or exactly one (`Leased`): one index entry and one slot item, with
the same receipt, in the slot of its expiry.  Every wheel operation on another
id keeps the state (`SameLease`), and the operations on `m` move between the two.
-/

namespace WalrQueue

/-- Removing by `swap_remove` removes exactly the element at the position. -/
theorem swapRemove_perm {α : Type} {l : List α} {pos : Nat} (inside : pos < l.length) :
    l.Perm (l[pos] :: swapRemove l pos) := by
  rcases List.eq_nil_or_concat' l with rfl | ⟨init, last, rfl⟩
  · simp at inside
  · have getLast : (init ++ [last]).getLast? = some last := by simp
    simp only [swapRemove, getLast, List.length_append, List.length_singleton] at inside ⊢
    by_cases atEnd : pos = init.length
    · subst atEnd
      simp [List.perm_append_singleton]
    · have inInit : pos < init.length := by omega
      rw [List.set_append_left _ _ inInit, List.dropLast_concat, List.getElem_append_left inInit,
        List.set_eq_take_append_cons_drop, if_pos inInit]
      have split : init = init.take pos ++ init[pos] :: init.drop (pos + 1) := by
        rw [List.getElem_cons_drop, List.take_append_drop]
      have moved : (init ++ [last]).Perm (last :: init) := List.perm_append_singleton _ _
      have pulled : init.Perm (init[pos] :: (init.take pos ++ init.drop (pos + 1))) :=
        (List.Perm.of_eq split).trans List.perm_middle
      have placed : (last :: (init.take pos ++ init.drop (pos + 1))).Perm
          (init.take pos ++ last :: init.drop (pos + 1)) := List.perm_middle.symm
      exact moved.trans ((pulled.cons last).trans ((List.Perm.swap _ _ _).trans
        (placed.cons _)))

namespace TimerWheel

variable {m : Ulid} {w w' : TimerWheel} {item : InFlightItem}

/-- The items of a slot that belong to `m`. -/
def itemsOf (m : Ulid) (slot : List InFlightItem) : List InFlightItem :=
  slot.filter (fun item => item.id = m)

/-- The wheel holds no lease of `m`. -/
structure Unleased (w : TimerWheel) (m : Ulid) : Prop where
  index : AList.lookup m w.indexById = none
  slots : ∀ k, itemsOf m (w.slots k) = []

/-- The wheel holds exactly the lease `item` of `m`. -/
structure Leased (w : TimerWheel) (m : Ulid) (item : InFlightItem) : Prop where
  id_eq : item.id = m
  index : AList.lookup m w.indexById = some (item.expireAt % w.size, item.receipt)
  slot : itemsOf m (w.slots (item.expireAt % w.size)) = [item]
  others : ∀ k, k ≠ item.expireAt % w.size → itemsOf m (w.slots k) = []

/-- Two wheels agree on `m`. -/
structure SameLease (m : Ulid) (w w' : TimerWheel) : Prop where
  index : AList.lookup m w'.indexById = AList.lookup m w.indexById
  size : w'.size = w.size
  slots : ∀ k, (itemsOf m (w'.slots k)).Perm (itemsOf m (w.slots k))

theorem SameLease.unleased (same : SameLease m w w') (h : Unleased w m) : Unleased w' m where
  index := same.index.trans h.index
  slots k := by
    have perm := same.slots k
    rw [h.slots k] at perm
    exact perm.eq_nil

theorem SameLease.leased (same : SameLease m w w') (h : Leased w m item) :
    Leased w' m item where
  id_eq := h.id_eq
  index := by rw [same.index, same.size, h.index]
  slot := by
    have perm := same.slots (item.expireAt % w.size)
    rw [h.slot] at perm
    rw [same.size]
    exact List.perm_singleton.1 perm
  others k other := by
    rw [same.size] at other
    have perm := same.slots k
    rw [h.others k other] at perm
    exact perm.eq_nil

theorem SameLease.refl : SameLease m w w := ⟨rfl, rfl, fun _ => .rfl⟩

theorem SameLease.trans {w'' : TimerWheel} (first : SameLease m w w')
    (second : SameLease m w' w'') : SameLease m w w'' :=
  ⟨second.index.trans first.index, second.size.trans first.size,
    fun k => (second.slots k).trans (first.slots k)⟩

theorem Unleased.new (capacity : Nat) : Unleased (.new capacity) m := ⟨rfl, fun _ => rfl⟩

theorem Leased.not_unleased (h : Leased w m item) : ¬ Unleased w m := by
  intro none
  have := none.index
  rw [h.index] at this
  cases this

/-- A wheel holds at most one lease of an id. -/
theorem Leased.unique {item' : InFlightItem} (h : Leased w m item) (h' : Leased w m item') :
    item = item' := by
  have index := h.index.symm.trans h'.index
  simp only [Option.some.injEq, Prod.mk.injEq] at index
  have slot := h.slot
  rw [index.1, h'.slot] at slot
  simpa using slot.symm

theorem Leased.mem_slot (h : Leased w m item) : item ∈ w.slots (item.expireAt % w.size) := by
  have inside : item ∈ itemsOf m (w.slots (item.expireAt % w.size)) := by
    rw [h.slot]
    exact List.mem_singleton_self item
  exact (List.mem_filter.1 inside).1

/-! ## Insert -/

@[simp] theorem size_insert : (w.insert item).size = w.size := rfl

theorem insert_sameLease (other : item.id ≠ m) : SameLease m w (w.insert item) where
  index := by
    simp only [TimerWheel.insert]
    exact AList.lookup_insert_ne other.symm
  size := rfl
  slots k := by
    simp only [TimerWheel.insert]
    by_cases here : k = item.expireAt % w.size
    · subst here
      simp [itemsOf, other]
    · simp [Function.update_of_ne here]

/-- Leasing an id that has no lease. -/
theorem Unleased.insert (h : Unleased w item.id) : Leased (w.insert item) item.id item where
  id_eq := rfl
  index := by simp [TimerWheel.insert]
  slot := by
    have none := h.slots (item.expireAt % w.size)
    simp only [TimerWheel.insert, Function.update_self]
    simp only [itemsOf, List.filter_append] at none ⊢
    simp [none]
  others k other := by
    simp only [TimerWheel.insert] at other ⊢
    rw [Function.update_of_ne other]
    exact h.slots k

/-! ## Removal by receipt -/

theorem size_removeIfValid (id : Ulid) (receipt : String) :
    (w.removeIfValid id receipt).1.size = w.size := by
  unfold removeIfValid
  split
  · split <;> rfl
  · rfl

theorem lastCheckedSec_removeIfValid (id : Ulid) (receipt : String) :
    (w.removeIfValid id receipt).1.lastCheckedSec = w.lastCheckedSec := by
  unfold removeIfValid
  split
  · split <;> rfl
  · rfl

theorem removeIfValid_sameLease {id : Ulid} (receipt : String) (other : id ≠ m) :
    SameLease m w (w.removeIfValid id receipt).1 := by
  unfold removeIfValid
  split
  · rename_i slot validReceipt found
    split
    · refine ⟨AList.lookup_erase_ne other.symm, rfl, fun k => ?_⟩
      dsimp only
      split
      · rename_i inside
        by_cases here : k = slot
        · subst here
          rw [Function.update_self]
          have removed : (w.slots k)[List.findIdx (fun it => it.id == id) (w.slots k)].id = id := by
            simpa using List.findIdx_getElem (w := inside)
          have perm := (swapRemove_perm inside).filter (fun item : InFlightItem => item.id = m)
          rw [List.filter_cons_of_neg (by simp [removed, other])] at perm
          exact perm.symm
        · rw [Function.update_of_ne here]
      · exact List.Perm.refl _
    · exact ⟨rfl, rfl, fun _ => List.Perm.refl _⟩
  · exact ⟨rfl, rfl, fun _ => List.Perm.refl _⟩

theorem Unleased.removeIfValid (h : Unleased w m) (receipt : String) :
    w.removeIfValid m receipt = (w, false) := by
  unfold TimerWheel.removeIfValid
  rw [h.index]

/-- Another receipt changes nothing. -/
theorem Leased.removeIfValid_of_ne (h : Leased w m item) {receipt : String}
    (stale : item.receipt ≠ receipt) : w.removeIfValid m receipt = (w, false) := by
  unfold TimerWheel.removeIfValid
  rw [h.index]
  exact if_neg stale

/-- The receipt of the lease ends it. -/
theorem Leased.removeIfValid (h : Leased w m item) :
    (w.removeIfValid m item.receipt).2 = true ∧
      Unleased (w.removeIfValid m item.receipt).1 m := by
  unfold TimerWheel.removeIfValid
  rw [h.index]
  dsimp only
  rw [if_pos rfl]
  refine ⟨rfl, ⟨by simp, fun k => ?_⟩⟩
  generalize slotEq : item.expireAt % w.size = slot
  have here := h.slot
  rw [slotEq] at here
  have member : item ∈ w.slots slot := slotEq ▸ h.mem_slot
  have inside : List.findIdx (fun it : InFlightItem => it.id == m) (w.slots slot) <
      (w.slots slot).length :=
    List.findIdx_lt_length_of_exists ⟨item, member, by simp [h.id_eq]⟩
  dsimp only
  rw [if_pos inside]
  by_cases same : k = slot
  · subst same
    rw [Function.update_self]
    have removed : (w.slots k)[List.findIdx (fun it => it.id == m) (w.slots k)].id = m := by
      simpa using List.findIdx_getElem (w := inside)
    have perm := (swapRemove_perm inside).filter (fun item : InFlightItem => item.id = m)
    rw [List.filter_cons_of_pos (by simp [removed])] at perm
    have lengths := perm.length_eq
    have one : (List.filter (fun item : InFlightItem => item.id = m) (w.slots k)).length = 1 := by
      have := congrArg List.length here
      simpa [itemsOf] using this
    rw [one, List.length_cons] at lengths
    exact List.eq_nil_of_length_eq_zero (by unfold itemsOf; omega)
  · rw [Function.update_of_ne same]
    exact h.others k (by rw [slotEq]; exact same)

/-! ## The expiry sweep -/

@[simp] theorem size_sweepSlot (now k : Nat) (acc : TimerWheel × List InFlightItem) :
    (sweepSlot now acc k).1.size = acc.1.size := rfl

theorem sweepSlot_items (now k : Nat) (acc : TimerWheel × List InFlightItem) :
    itemsOf m (sweepSlot now acc k).2 =
      itemsOf m acc.2 ++ (itemsOf m (acc.1.slots k)).filter (fun it => it.expireAt ≤ now) := by
  simp only [sweepSlot, itemsOf, List.filter_append, List.filter_filter, Bool.and_comm]

theorem sweepSlot_slots (now k j : Nat) (acc : TimerWheel × List InFlightItem) :
    itemsOf m ((sweepSlot now acc k).1.slots j) =
      if j = k then (itemsOf m (acc.1.slots k)).filter (fun it => !decide (it.expireAt ≤ now))
      else itemsOf m (acc.1.slots j) := by
  simp only [sweepSlot]
  split
  · rename_i same
    subst same
    rw [Function.update_self]
    simp only [itemsOf, List.filter_filter, Bool.and_comm]
  · rename_i other
    rw [Function.update_of_ne other]

theorem sweepSlot_index (now k : Nat) (acc : TimerWheel × List InFlightItem) :
    AList.lookup m (sweepSlot now acc k).1.indexById =
      if (itemsOf m (acc.1.slots k)).filter (fun it => it.expireAt ≤ now) = [] then
        AList.lookup m acc.1.indexById
      else none := by
  simp only [sweepSlot, FMap.lookup_eraseAll]
  have collected : m ∈ ((acc.1.slots k).filter (fun it => it.expireAt ≤ now)).map (·.id) ↔
      (itemsOf m (acc.1.slots k)).filter (fun it => it.expireAt ≤ now) ≠ [] := by
    rw [Ne, List.filter_eq_nil_iff]
    simp only [itemsOf, List.mem_map, List.mem_filter, decide_eq_true_eq, not_forall]
    constructor
    · rintro ⟨it, ⟨inSlot, due⟩, same⟩
      exact ⟨it, ⟨inSlot, same⟩, by simpa using due⟩
    · rintro ⟨it, ⟨inSlot, same⟩, due⟩
      exact ⟨it, ⟨inSlot, by simpa using due⟩, same⟩
  by_cases empty : (itemsOf m (acc.1.slots k)).filter (fun it => it.expireAt ≤ now) = []
  · rw [if_neg (by rw [collected]; simpa using empty), if_pos empty]
  · rw [if_pos (collected.2 empty), if_neg empty]

/-- The lease `item` of `m` is still in the wheel, or it was due and collected. -/
inductive Swept (now : Nat) (m : Ulid) (item : InFlightItem) :
    TimerWheel × List InFlightItem → Prop
  | kept {acc} : Leased acc.1 m item → itemsOf m acc.2 = [] → Swept now m item acc
  | collected {acc} : item.expireAt ≤ now → Unleased acc.1 m → itemsOf m acc.2 = [item] →
      Swept now m item acc

theorem Unleased.sweepSlot {acc : TimerWheel × List InFlightItem} (h : Unleased acc.1 m)
    (now k : Nat) : Unleased (sweepSlot now acc k).1 m ∧
      itemsOf m (TimerWheel.sweepSlot now acc k).2 = itemsOf m acc.2 := by
  refine ⟨⟨?_, fun j => ?_⟩, ?_⟩
  · rw [sweepSlot_index, h.slots k, List.filter_nil, if_pos rfl]
    exact h.index
  · rw [sweepSlot_slots]
    split
    · rw [h.slots k, List.filter_nil]
    · exact h.slots j
  · rw [sweepSlot_items, h.slots k, List.filter_nil, List.append_nil]

theorem Swept.sweepSlot {now : Nat} {acc : TimerWheel × List InFlightItem}
    (h : Swept now m item acc) (k : Nat) : Swept now m item (sweepSlot now acc k) := by
  cases h with
  | collected due unleased items =>
      obtain ⟨unleased', items'⟩ := unleased.sweepSlot now k
      exact .collected due unleased' (items'.trans items)
  | kept leased none =>
      by_cases here : k = item.expireAt % acc.1.size
      · by_cases due : item.expireAt ≤ now
        · subst here
          refine .collected due ⟨?_, fun j => ?_⟩ ?_
          · rw [sweepSlot_index, leased.slot]
            simp [due]
          · rw [sweepSlot_slots, leased.slot]
            split
            · simp [due]
            · rename_i other
              exact leased.others j other
          · rw [sweepSlot_items, leased.slot, none]
            simp [due]
        · subst here
          refine .kept ⟨leased.id_eq, ?_, ?_, fun j other => ?_⟩ ?_
          · rw [sweepSlot_index, leased.slot, size_sweepSlot]
            simpa [due] using leased.index
          · rw [size_sweepSlot, sweepSlot_slots, leased.slot]
            simp [due]
          · rw [size_sweepSlot] at other
            rw [sweepSlot_slots, if_neg other]
            exact leased.others j other
          · rw [sweepSlot_items, leased.slot, none]
            simp [due]
      · have empty := leased.others k here
        refine .kept ⟨leased.id_eq, ?_, ?_, fun j other => ?_⟩ ?_
        · rw [sweepSlot_index, empty, List.filter_nil, if_pos rfl]
          exact leased.index
        · rw [size_sweepSlot, sweepSlot_slots, if_neg (Ne.symm here)]
          exact leased.slot
        · rw [sweepSlot_slots, empty]
          split
          · rfl
          · exact leased.others j other
        · rw [sweepSlot_items, empty, none]
          rfl

theorem size_sweepSlot_foldl (now : Nat) (ks : List Nat) (acc : TimerWheel × List InFlightItem) :
    (ks.foldl (sweepSlot now) acc).1.size = acc.1.size := by
  induction ks generalizing acc with
  | nil => rfl
  | cons k ks ih => rw [List.foldl_cons, ih, size_sweepSlot]

theorem Swept.foldl {now : Nat} (ks : List Nat) {acc : TimerWheel × List InFlightItem}
    (h : Swept now m item acc) : Swept now m item (ks.foldl (TimerWheel.sweepSlot now) acc) := by
  induction ks generalizing acc with
  | nil => exact h
  | cons k ks ih => exact ih (h.sweepSlot k)

theorem Unleased.foldl (now : Nat) (ks : List Nat) (acc : TimerWheel × List InFlightItem)
    (h : Unleased acc.1 m) : Unleased (ks.foldl (TimerWheel.sweepSlot now) acc).1 m ∧
      itemsOf m (ks.foldl (TimerWheel.sweepSlot now) acc).2 = itemsOf m acc.2 := by
  induction ks generalizing acc with
  | nil => exact ⟨h, rfl⟩
  | cons k ks ih =>
      obtain ⟨unleased, items⟩ := h.sweepSlot now k
      obtain ⟨unleased', items'⟩ := ih _ unleased
      exact ⟨unleased', items'.trans items⟩

theorem Unleased.of_fields (h : Unleased w m) (index : w'.indexById = w.indexById)
    (slots : w'.slots = w.slots) : Unleased w' m :=
  ⟨by rw [index]; exact h.index, fun k => by rw [slots]; exact h.slots k⟩

theorem Leased.of_fields (h : Leased w m item) (index : w'.indexById = w.indexById)
    (slots : w'.slots = w.slots) (size : w'.size = w.size) : Leased w' m item :=
  ⟨h.id_eq, by rw [index, size]; exact h.index, by rw [slots, size]; exact h.slot,
    fun k other => by rw [slots]; exact h.others k (by rwa [size] at other)⟩

@[simp] theorem size_collectExpired (now : Nat) : (w.collectExpired now).1.size = w.size := by
  unfold collectExpired
  split
  · rfl
  · exact size_sweepSlot_foldl _ _ _

/-- A sweep collects nothing of an id that has no lease. -/
theorem Unleased.collectExpired (h : Unleased w m) (now : Nat) :
    Unleased (w.collectExpired now).1 m ∧ itemsOf m (w.collectExpired now).2 = [] := by
  unfold TimerWheel.collectExpired
  split
  · exact ⟨h.of_fields rfl rfl, rfl⟩
  · obtain ⟨unleased, items⟩ := Unleased.foldl now
      (sweptSlots w.size (if w.lastCheckedSec = 0 then now - 1 else w.lastCheckedSec) now)
      (w, []) h
    exact ⟨unleased.of_fields rfl rfl, items⟩

/-- A sweep keeps a lease or collects it once, and only when it is due. -/
theorem Leased.collectExpired (h : Leased w m item) (now : Nat) :
    Swept now m item (w.collectExpired now) := by
  unfold TimerWheel.collectExpired
  split
  · exact .kept (h.of_fields rfl rfl rfl) rfl
  · have start : Swept now m item (w, []) := .kept h rfl
    have swept := Swept.foldl
      (sweptSlots w.size (if w.lastCheckedSec = 0 then now - 1 else w.lastCheckedSec) now)
      start
    cases swept with
    | kept leased none => exact .kept (leased.of_fields rfl rfl rfl) none
    | collected due unleased items => exact .collected due (unleased.of_fields rfl rfl) items

/-! ## Nothing due is skipped -/

/-- A sweep visits the slot of every second that has passed. -/
theorem mem_sweptSlots {size last now expireAt : Nat} (sized : 0 < size) (ahead : last < expireAt)
    (due : expireAt ≤ now) : expireAt % size ∈ sweptSlots size last now := by
  unfold sweptSlots
  dsimp only
  split
  · exact List.mem_range.2 (Nat.mod_lt _ sized)
  · refine List.mem_map.2 ⟨expireAt - last - 1, List.mem_range.2 (by omega), ?_⟩
    congr 1
    omega

/-- A sweep adds no index entry. -/
theorem lookup_sweepSlot_foldl {now : Nat} {ks : List Nat} {acc : TimerWheel × List InFlightItem}
    {entry : Nat × String}
    (found : AList.lookup m (ks.foldl (sweepSlot now) acc).1.indexById = some entry) :
    AList.lookup m acc.1.indexById = some entry := by
  induction ks generalizing acc with
  | nil => exact found
  | cons k ks ih =>
      have before := ih found
      rw [sweepSlot_index] at before
      split at before
      · exact before
      · cases before

theorem collected_sweepSlot_foldl {now : Nat} {ks : List Nat}
    {acc : TimerWheel × List InFlightItem} (collected : item ∈ acc.2) :
    item ∈ (ks.foldl (sweepSlot now) acc).2 := by
  induction ks generalizing acc with
  | nil => exact collected
  | cons k ks ih => exact ih (List.mem_append_left _ collected)

/-- An item that is not due stays in its slot. -/
theorem mem_sweepSlot_foldl {now k : Nat} {ks : List Nat} {acc : TimerWheel × List InFlightItem}
    (inSlot : item ∈ acc.1.slots k) (early : now < item.expireAt) :
    item ∈ (ks.foldl (sweepSlot now) acc).1.slots k := by
  induction ks generalizing acc with
  | nil => exact inSlot
  | cons j ks ih =>
      refine ih ?_
      simp only [sweepSlot]
      by_cases here : k = j
      · subst here
        rw [Function.update_self]
        exact List.mem_filter.2 ⟨inSlot, by simpa using early⟩
      · rwa [Function.update_of_ne here]

/-- An item that is due in a slot that is swept is collected, and its id is out of
the index. -/
theorem sweepSlot_foldl_due {now k : Nat} {ks : List Nat} {acc : TimerWheel × List InFlightItem}
    (swept : k ∈ ks) (inSlot : item ∈ acc.1.slots k) (due : item.expireAt ≤ now) :
    item ∈ (ks.foldl (sweepSlot now) acc).2 ∧
      AList.lookup item.id (ks.foldl (sweepSlot now) acc).1.indexById = none := by
  induction ks generalizing acc with
  | nil => cases swept
  | cons j ks ih =>
      rw [List.foldl_cons]
      by_cases here : k = j
      · subst here
        have taken : item ∈ (sweepSlot now acc k).2 :=
          List.mem_append_right _ (List.mem_filter.2 ⟨inSlot, by simpa using due⟩)
        have erased : AList.lookup item.id (sweepSlot now acc k).1.indexById = none := by
          rw [sweepSlot_index, if_neg]
          refine List.ne_nil_of_mem (a := item) (List.mem_filter.2 ⟨?_, by simpa using due⟩)
          exact List.mem_filter.2 ⟨inSlot, by simp⟩
        refine ⟨collected_sweepSlot_foldl taken, ?_⟩
        rw [Option.eq_none_iff_forall_ne_some]
        intro entry found
        rw [lookup_sweepSlot_foldl found] at erased
        cases erased
      · have kept : item ∈ (sweepSlot now acc j).1.slots k := by
          simp only [sweepSlot]
          rwa [Function.update_of_ne here]
        exact ih ((List.mem_cons.1 swept).resolve_left here) kept

@[simp] theorem lastCheckedSec_collectExpired (now : Nat) :
    (w.collectExpired now).1.lastCheckedSec = now := by
  unfold collectExpired
  split <;> rfl

theorem lookup_collectExpired {now : Nat} {entry : Nat × String}
    (found : AList.lookup m (w.collectExpired now).1.indexById = some entry) :
    AList.lookup m w.indexById = some entry := by
  unfold collectExpired at found
  split at found
  · exact found
  · exact lookup_sweepSlot_foldl found

theorem mem_collectExpired {now k : Nat} (inSlot : item ∈ w.slots k) (early : now < item.expireAt) :
    item ∈ (w.collectExpired now).1.slots k := by
  unfold collectExpired
  split
  · exact inSlot
  · exact mem_sweepSlot_foldl inSlot early

/-- A lease that expires after the second checked last is collected by the next call
that finds it due. -/
theorem collectExpired_due {now : Nat} {entry : Nat × String} (sized : 0 < w.size)
    (indexed : AList.lookup m w.indexById = some entry)
    (inSlot : item ∈ w.slots (item.expireAt % w.size)) (started : 0 < w.lastCheckedSec)
    (ahead : w.lastCheckedSec < item.expireAt) (due : item.expireAt ≤ now) :
    item ∈ (w.collectExpired now).2 ∧
      AList.lookup item.id (w.collectExpired now).1.indexById = none := by
  unfold collectExpired
  split
  · rename_i empty
    have none : AList.lookup m w.indexById = none := by simp [AList.lookup, empty]
    rw [indexed] at none
    cases none
  · rw [if_neg (Nat.pos_iff_ne_zero.1 started)]
    exact sweepSlot_foldl_due (mem_sweptSlots sized ahead due) inSlot due

/-! ## The index -/

/-- A valid receipt is the one of the entry it removes. -/
theorem index_removeIfValid {w : TimerWheel} {id : Ulid} {receipt : String}
    (valid : (w.removeIfValid id receipt).2 = true) :
    id ∈ w.indexById ∧ (w.removeIfValid id receipt).1.indexById = AList.erase id w.indexById := by
  unfold removeIfValid at valid ⊢
  split at valid
  · rename_i slot validReceipt found
    split at valid
    · rename_i same
      exact ⟨FMap.mem_of_lookup found, by rw [if_pos same]⟩
    · cases valid
  · cases valid

theorem index_sweepSlot_foldl {now : Nat} (slots : List Nat)
    {acc : TimerWheel × List InFlightItem}
    (nothing : (slots.foldl (sweepSlot now) acc).2 = []) :
    (slots.foldl (sweepSlot now) acc).1.indexById = acc.1.indexById := by
  induction slots generalizing acc with
  | nil => rfl
  | cons slot slots ih =>
      rw [List.foldl_cons] at nothing ⊢
      have due : (acc.1.slots slot).filter (fun item => item.expireAt ≤ now) = [] := by
        refine List.eq_nil_iff_forall_not_mem.2 fun item inside => ?_
        have taken : item ∈ (slots.foldl (sweepSlot now) (sweepSlot now acc slot)).2 :=
          collected_sweepSlot_foldl (List.mem_append_right _ inside)
        rw [nothing] at taken
        cases taken
      rw [ih nothing]
      simp only [sweepSlot, due, List.map_nil, FMap.eraseAll, List.foldl_nil]

/-- A sweep that collects nothing leaves the index. -/
theorem index_collectExpired {w : TimerWheel} {now : Nat}
    (nothing : (w.collectExpired now).2 = []) :
    (w.collectExpired now).1.indexById = w.indexById := by
  unfold collectExpired at nothing ⊢
  split at nothing
  · rename_i empty
    rw [if_pos empty]
  · rename_i some
    rw [if_neg some]
    exact index_sweepSlot_foldl _ nothing

/-- New leases of different ids. -/
theorem index_insert_foldl (items : List InFlightItem) (w : TimerWheel) :
    (∀ m, m ∈ (items.foldl insert w).indexById ↔ m ∈ w.indexById ∨ m ∈ items.map (·.id)) ∧
      ((items.map (·.id)).Nodup → (∀ item ∈ items, item.id ∉ w.indexById) →
        FMap.size (items.foldl insert w).indexById = FMap.size w.indexById + items.length) := by
  induction items generalizing w with
  | nil => simp
  | cons item items ih =>
      obtain ⟨members, size⟩ := ih (w.insert item)
      have first : (w.insert item).indexById =
          AList.insert item.id (item.expireAt % w.size, item.receipt) w.indexById := rfl
      rw [List.foldl_cons]
      refine ⟨fun m => ?_, fun nodup absent => ?_⟩
      · rw [members, first, AList.mem_insert, List.map_cons, List.mem_cons]
        tauto
      · obtain ⟨apart, nodup⟩ := List.nodup_cons.1 nodup
        obtain ⟨fresh, absent⟩ := List.forall_mem_cons.1 absent
        have one : FMap.size (w.insert item).indexById = FMap.size w.indexById + 1 :=
          FMap.size_insert_of_notMem _ fresh
        rw [size nodup fun other inside => ?_, one, List.length_cons]
        · omega
        · rw [first, AList.mem_insert, not_or]
          exact ⟨fun same => apart (List.mem_map.2 ⟨other, inside, same⟩), absent other inside⟩

end TimerWheel

end WalrQueue
