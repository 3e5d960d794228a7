import Mathlib

/-!
Lists in which every opening item is closed later.

A machine that a list is folded over holds something from an opening item on, until
an item that closes.  If every opening item of the list is followed by a closing one,
nothing is held at its end.
-/

namespace Closing

variable {α σ : Type} {opens opens' closes : α → Prop} {xs more : List α}

/-- After every item that opens there is one that closes. -/
def Closed (opens closes : α → Prop) : List α → Prop
  | [] => True
  | x :: rest => (opens x → ∃ y ∈ rest, closes y) ∧ Closed opens closes rest

instance Closed.decidable [DecidablePred opens] [DecidablePred closes] :
    (xs : List α) → Decidable (Closed opens closes xs)
  | [] => isTrue trivial
  | _ :: rest => @instDecidableAnd _ _ _ (Closed.decidable rest)

theorem closed_of_not_opens (quiet : ∀ x ∈ xs, ¬ opens x) : Closed opens closes xs := by
  induction xs with
  | nil => trivial
  | cons x xs ih =>
      exact ⟨fun opened => absurd opened (quiet x (by simp)),
        ih fun y later => quiet y (by simp [later])⟩

theorem Closed.mono (h : Closed opens closes xs) (fewer : ∀ x, opens' x → opens x) :
    Closed opens' closes xs := by
  induction xs with
  | nil => trivial
  | cons x xs ih => exact ⟨fun opened => h.1 (fewer x opened), ih h.2⟩

/-- Items that open nothing may follow, and one of them that closes is enough. -/
theorem closed_append (quiet : ∀ x ∈ more, ¬ opens x)
    (h : Closed opens closes xs ∨ ∃ y ∈ more, closes y) : Closed opens closes (xs ++ more) := by
  induction xs with
  | nil => exact closed_of_not_opens quiet
  | cons x xs ih =>
      rcases h with ⟨first, rest⟩ | ⟨y, inside, closing⟩
      · refine ⟨fun opened => ?_, ih (Or.inl rest)⟩
        obtain ⟨y, later, closing⟩ := first opened
        exact ⟨y, List.mem_append_left _ later, closing⟩
      · exact ⟨fun _ => ⟨y, List.mem_append_right _ inside, closing⟩, ih (Or.inr ⟨y, inside, closing⟩)⟩

/-- What an item opened is closed later. -/
theorem Closed.closes_of_mem (h : Closed opens closes xs) {x : α} (inside : x ∈ xs)
    (opened : opens x) : ∃ y ∈ xs, closes y := by
  induction xs with
  | nil => cases inside
  | cons z xs ih =>
      rcases List.mem_cons.1 inside with rfl | later
      · obtain ⟨y, after, closing⟩ := h.1 opened
        exact ⟨y, by simp [after], closing⟩
      · obtain ⟨y, after, closing⟩ := ih h.2 later
        exact ⟨y, by simp [after], closing⟩

/-- Nothing is held at the end of a closed list. -/
theorem Closed.foldl {step : σ → α → σ} {H : σ → Prop} {start : σ}
    (h : Closed opens closes xs)
    (origin : ∀ st x, H (step st x) → H st ∨ opens x)
    (gone : ∀ st x, closes x → ¬ H (step st x))
    (pending : H start → ∃ y ∈ xs, closes y) : ¬ H (xs.foldl step start) := by
  induction xs generalizing start with
  | nil =>
      intro held
      obtain ⟨y, bad, _⟩ := pending held
      cases bad
  | cons x xs ih =>
      refine ih h.2 fun held => ?_
      rcases origin start x held with before | opened
      · obtain ⟨y, inside, closing⟩ := pending before
        rcases List.mem_cons.1 inside with rfl | later
        · exact absurd held (gone start y closing)
        · exact ⟨y, later, closing⟩
      · exact h.1 opened

end Closing
