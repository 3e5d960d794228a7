import Mathlib

/-!
Finite maps with a constant value type.

`FMap` is Mathlib's `AList` at a constant family; its entries carry the proof
that no key occurs twice.  The lemmas below are the non-dependent `if` forms of
the lookup laws, the laws of iterated erasure, how many entries a map has, its entries in any
order, and a change of its values.
-/

/-- A finite map from `α` to `β`, represented by its entries. -/
abbrev FMap (α β : Type) : Type := AList (fun _ : α => β)

namespace FMap

variable {α β γ : Type} [DecidableEq α]

theorem lookup_insert_ite (m : FMap α β) (a k : α) (b : β) :
    AList.lookup a (AList.insert k b m) = if a = k then some b else AList.lookup a m := by
  by_cases same : a = k
  · subst same; simp
  · simp [same]

theorem lookup_erase_ite (m : FMap α β) (a k : α) :
    AList.lookup a (AList.erase k m) = if a = k then none else AList.lookup a m := by
  by_cases same : a = k
  · subst same; simp
  · rw [if_neg same, AList.lookup_erase_ne same]

theorem mem_iff_lookup (m : FMap α β) (a : α) :
    a ∈ m ↔ ∃ b, AList.lookup a m = some b := by
  rw [← AList.lookup_isSome, Option.isSome_iff_exists]

theorem mem_of_lookup {m : FMap α β} {a : α} {b : β} (found : AList.lookup a m = some b) :
    a ∈ m := (mem_iff_lookup m a).2 ⟨b, found⟩

/-- The value at `a`, or `fallback` when `a` is absent. -/
def getD (m : FMap α β) (a : α) (fallback : β) : β := (AList.lookup a m).getD fallback

/-- Erase every key of a list, in order. -/
def eraseAll (m : FMap α β) (ks : List α) : FMap α β := ks.foldl (fun m k => AList.erase k m) m

theorem lookup_eraseAll (m : FMap α β) (ks : List α) (a : α) :
    AList.lookup a (eraseAll m ks) = if a ∈ ks then none else AList.lookup a m := by
  induction ks generalizing m with
  | nil => simp [eraseAll]
  | cons k ks ih =>
      have step := ih (AList.erase k m)
      simp only [eraseAll, List.foldl_cons] at step ⊢
      rw [step, lookup_erase_ite]
      by_cases hk : a = k
      · simp [hk]
      · simp [hk]

/-! ## Size -/

/-- The number of entries. -/
def size (m : FMap α β) : Nat := m.entries.length

omit [DecidableEq α] in
theorem size_eq_length_keys (m : FMap α β) : size m = m.keys.length :=
  (List.length_map _).symm

theorem size_erase_of_mem {m : FMap α β} {k : α} (present : k ∈ m) :
    size (AList.erase k m) + 1 = size m := by
  have positive : 0 < m.keys.length := List.length_pos_of_mem present
  have keys : (AList.erase k m).keys = m.keys.erase k := AList.keys_erase k m
  rw [size_eq_length_keys, size_eq_length_keys, keys, List.length_erase_of_mem present]
  omega

theorem erase_of_notMem {m : FMap α β} {k : α} (absent : k ∉ m) : AList.erase k m = m := by
  apply AList.ext
  exact List.kerase_of_notMem_keys absent

theorem size_insert (m : FMap α β) (k : α) (v : β) :
    size (AList.insert k v m) = size (AList.erase k m) + 1 := by
  simp [size, AList.entries_insert, AList.erase]

theorem size_insert_of_notMem {m : FMap α β} {k : α} (v : β) (absent : k ∉ m) :
    size (AList.insert k v m) = size m + 1 := by
  rw [size_insert, erase_of_notMem absent]

theorem size_insert_of_mem {m : FMap α β} {k : α} (v : β) (present : k ∈ m) :
    size (AList.insert k v m) = size m := by
  rw [size_insert, size_erase_of_mem present]

theorem size_insert_le (m : FMap α β) (k : α) (v : β) :
    size (AList.insert k v m) ≤ size m + 1 := by
  by_cases present : k ∈ m
  · rw [size_insert_of_mem v present]
    exact Nat.le_succ _
  · rw [size_insert_of_notMem v present]

omit [DecidableEq α] in
/-- Maps with the same keys are of one size. -/
theorem size_congr {m m' : FMap α β} (same : ∀ a, a ∈ m' ↔ a ∈ m) : size m' = size m := by
  rw [size_eq_length_keys, size_eq_length_keys]
  exact ((List.perm_ext_iff_of_nodup m'.keys_nodup m.keys_nodup).2 same).length_eq

/-! ## Sums over the values -/

/-- The sum of `f` over the values of a map. -/
def sumBy (f : β → Nat) (m : FMap α β) : Nat := (m.entries.map (fun entry => f entry.2)).sum

/-- A key that is present contributes its own value, and the rest is the erased map. -/
theorem sumBy_of_lookup (f : β → Nat) {m : FMap α β} {k : α} {v : β}
    (found : AList.lookup k m = some v) : sumBy f m = f v + sumBy f (AList.erase k m) := by
  have member : (⟨k, v⟩ : Sigma fun _ : α => β) ∈ m.entries := List.of_mem_dlookup found
  obtain ⟨left, right, notLeft, split⟩ :
      ∃ left right, k ∉ List.keys left ∧
        m.entries = left ++ (⟨k, v⟩ : Sigma fun _ : α => β) :: right := by
    obtain ⟨left, right, split⟩ := List.append_of_mem member
    refine ⟨left, right, ?_, split⟩
    intro inLeft
    have nodup := m.nodupKeys
    rw [List.NodupKeys, split, List.keys, List.map_append, List.nodup_append] at nodup
    exact nodup.2.2 k inLeft k (by simp) rfl
  have erased : (AList.erase k m).entries = left ++ right := by
    change List.kerase k m.entries = left ++ right
    rw [split, List.kerase_append_right notLeft]
    exact congrArg (left ++ ·) (List.kerase_cons_eq rfl)
  simp only [sumBy, erased, split, List.map_append, List.map_cons, List.sum_append,
    List.sum_cons]
  omega

theorem erase_of_lookup_none {m : FMap α β} {k : α} (absent : AList.lookup k m = none) :
    AList.erase k m = m := erase_of_notMem (AList.lookup_eq_none.1 absent)

theorem sumBy_insert (f : β → Nat) (m : FMap α β) (k : α) (v : β) :
    sumBy f (AList.insert k v m) = f v + sumBy f (AList.erase k m) := by
  simp [sumBy, AList.entries_insert, AList.erase]

theorem sumBy_eq_zero {f : β → Nat} {m : FMap α β}
    (each : ∀ k v, AList.lookup k m = some v → f v = 0) : sumBy f m = 0 := by
  unfold sumBy
  refine List.sum_eq_zero fun n member => ?_
  obtain ⟨⟨k, v⟩, inside, rfl⟩ := List.mem_map.1 member
  exact each k v (AList.mem_lookup_iff.2 inside)

/-- Changing a family at one index changes the sum over it by what stood there. -/
theorem sum_update {ι : Type} [Fintype ι] [DecidableEq ι] (f : β → Nat) (g : ι → β) (i : ι)
    (b : β) : ∑ j, f (Function.update g i b j) + f (g i) = ∑ j, f (g j) + f b := by
  have others : ∑ j ∈ Finset.univ.erase i, f (Function.update g i b j) =
      ∑ j ∈ Finset.univ.erase i, f (g j) := by
    refine Finset.sum_congr rfl fun j member => ?_
    rw [Function.update_of_ne (Finset.ne_of_mem_erase member)]
  rw [← Finset.add_sum_erase Finset.univ (fun j => f (Function.update g i b j))
      (Finset.mem_univ i), ← Finset.add_sum_erase Finset.univ (fun j => f (g j))
      (Finset.mem_univ i), others]
  rw [Function.update_self]
  omega

/-! ## Iteration -/

/-- In any order of the entries, those of one key are its value alone. -/
theorem filter_key_of_perm {m : FMap α β} {l : List (Sigma fun _ : α => β)}
    (order : l.Perm m.entries) (k : α) :
    l.filter (fun entry => entry.1 = k) =
      (AList.lookup k m).toList.map fun v => (⟨k, v⟩ : Sigma fun _ : α => β) := by
  have nodup : (l.map Sigma.fst).Nodup := (order.map Sigma.fst).nodup_iff.2 m.nodupKeys
  cases found : AList.lookup k m with
  | none =>
      refine List.filter_eq_nil_iff.2 fun entry inside same => ?_
      have key : entry.1 ∈ m := AList.mem_keys.2 (List.mem_map_of_mem (order.mem_iff.1 inside))
      exact AList.lookup_eq_none.1 found (of_decide_eq_true same ▸ key)
  | some v =>
      have member : (⟨k, v⟩ : Sigma fun _ : α => β) ∈ l :=
        order.mem_iff.2 (List.of_mem_dlookup found)
      obtain ⟨left, right, rfl⟩ := List.append_of_mem member
      rw [List.map_append, List.map_cons, List.nodup_append, List.nodup_cons] at nodup
      obtain ⟨-, ⟨notRight, -⟩, apart⟩ := nodup
      have noLeft : left.filter (fun entry => entry.1 = k) = [] :=
        List.filter_eq_nil_iff.2 fun entry inside same =>
          apart entry.1 (List.mem_map_of_mem inside) k List.mem_cons_self (of_decide_eq_true same)
      have noRight : right.filter (fun entry => entry.1 = k) = [] :=
        List.filter_eq_nil_iff.2 fun entry inside same =>
          notRight (List.mem_map.2 ⟨entry, inside, of_decide_eq_true same⟩)
      simp [noLeft, noRight]

/-! ## Changing the values -/

/-- The same keys with every value changed. -/
def mapValues (f : β → γ) (m : FMap α β) : FMap α γ where
  entries := m.entries.map fun entry => ⟨entry.1, f entry.2⟩
  nodupKeys := by
    have same : (m.entries.map fun entry => (⟨entry.1, f entry.2⟩ : Sigma fun _ => γ)).keys =
        m.entries.keys := by simp [List.keys, Function.comp_def]
    unfold List.NodupKeys
    rw [same]
    exact m.nodupKeys

omit [DecidableEq α] in
@[simp] theorem keys_mapValues (f : β → γ) (m : FMap α β) : (mapValues f m).keys = m.keys := by
  simp [mapValues, AList.keys, List.keys, Function.comp_def]

theorem lookup_mapValues (f : β → γ) (m : FMap α β) (a : α) :
    AList.lookup a (mapValues f m) = (AList.lookup a m).map f :=
  List.dlookup_map₂ (f := fun _ => f) a

theorem mapValues_erase (f : β → γ) (m : FMap α β) (a : α) :
    mapValues f (AList.erase a m) = AList.erase a (mapValues f m) := by
  apply AList.ext
  simp only [mapValues, AList.erase, List.kerase, List.eraseP_map]
  rfl

theorem mapValues_insert (f : β → γ) (m : FMap α β) (a : α) (b : β) :
    mapValues f (AList.insert a b m) = AList.insert a (f b) (mapValues f m) := by
  apply AList.ext
  simp only [mapValues, AList.insert, List.kinsert, List.kerase, List.eraseP_map, List.map_cons]
  rfl

end FMap
