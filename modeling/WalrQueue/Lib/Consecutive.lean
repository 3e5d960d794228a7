import Mathlib

/-!
Lists whose elements carry consecutive numbers.

`From index base l` says that the numbers of `l` are `base + 1`, `base + 2`, and so
on.  A log that is appended to at its end and cut at its front keeps this form, with
`base` the number of the last element cut.
-/

namespace Consecutive

variable {α : Type} {index : α → Nat} {base : Nat} {l r : List α} {a : α}

/-- The numbers of the elements are `base + 1`, `base + 2`, … -/
def From (index : α → Nat) : Nat → List α → Prop
  | _, [] => True
  | base, a :: l => index a = base + 1 ∧ From index (base + 1) l

instance From.decidable (index : α → Nat) : (base : Nat) → (l : List α) →
    Decidable (From index base l)
  | _, [] => isTrue trivial
  | base, _ :: l => @instDecidableAnd _ _ inferInstance (From.decidable index (base + 1) l)

theorem from_append :
    From index base (l ++ r) ↔ From index base l ∧ From index (base + l.length) r := by
  induction l generalizing base with
  | nil => simp [From]
  | cons a l ih =>
      simp only [List.cons_append, From, ih, List.length_cons, and_assoc]
      rw [Nat.add_assoc, Nat.add_comm 1]

theorem From.mem (numbered : From index base l) (inside : a ∈ l) :
    base < index a ∧ index a ≤ base + l.length := by
  induction l generalizing base with
  | nil => cases inside
  | cons b l ih =>
      rw [List.length_cons]
      cases inside with
      | head =>
          have first := numbered.1
          omega
      | tail _ inside =>
          have later := ih numbered.2 inside
          omega

theorem From.getLast (numbered : From index base l) (last : l.getLast? = some a) :
    index a = base + l.length := by
  obtain ⟨front, rfl⟩ := List.getLast?_eq_some_iff.1 last
  have tail := (from_append.1 numbered).2.1
  rw [List.length_append, List.length_singleton]
  omega

/-- What stands behind an element starts after its number. -/
theorem From.behind {front : List α} (numbered : From index base (front ++ a :: r)) :
    From index (index a) r := by
  have tail := (from_append.1 numbered).2
  rw [tail.1]
  exact tail.2

/-- Dropping the elements up to a number keeps the rest consecutive. -/
theorem From.above (numbered : From index base l) {bound : Nat} (start : base ≤ bound) :
    From index bound (l.filter fun a => bound < index a) ∧
      bound + (l.filter fun a => bound < index a).length = max bound (base + l.length) := by
  induction l generalizing base with
  | nil => exact ⟨trivial, by simp; omega⟩
  | cons a l ih =>
      obtain ⟨first, later⟩ := numbered
      by_cases below : index a ≤ bound
      · have rest := ih later (by omega)
        rw [List.filter_cons_of_neg (by simpa using below), List.length_cons]
        exact ⟨rest.1, by rw [rest.2]; congr 1; omega⟩
      · have whole : (a :: l).filter (fun a => bound < index a) = a :: l := by
          rw [List.filter_eq_self]
          intro b inside
          cases inside with
          | head => simpa using below
          | tail _ inside =>
              have later := (later.mem inside).1
              exact decide_eq_true (by omega)
        have same : bound = base := by omega
        rw [whole, same, List.length_cons]
        exact ⟨⟨first, later⟩, by omega⟩

/-- The elements of a list numbered one after another. -/
theorem from_zipIdx {β : Type} (commands : List β) (start : Nat) (make : β × Nat → α)
    (numbered : ∀ c, index (make c) = c.2) :
    From index start ((commands.zipIdx (start + 1)).map make) := by
  induction commands generalizing start with
  | nil => trivial
  | cons c commands ih =>
      rw [List.zipIdx_cons, List.map_cons]
      exact ⟨numbered _, ih (start + 1)⟩

end Consecutive
