import Mathlib

/-!
Runs of a deterministic machine.

A run is a list of actions folded over a step function.  `Along P` says that
every step of a run meets a condition on the state it starts from and the
action it makes; an invariant kept by every such step holds along the run.
-/

namespace Trace

variable {σ α : Type} {step : σ → α → σ} {P Q : σ → α → Prop} {s : σ} {as bs : List α}

/-- Every step of the run meets the condition. -/
def Along (step : σ → α → σ) (P : σ → α → Prop) : σ → List α → Prop
  | _, [] => True
  | s, a :: as => P s a ∧ Along step P (step s a) as

instance Along.decidable (step : σ → α → σ) (P : σ → α → Prop) [test : ∀ s a, Decidable (P s a)] :
    (s : σ) → (as : List α) → Decidable (Along step P s as)
  | _, [] => isTrue trivial
  | s, a :: as => @instDecidableAnd _ _ (test s a) (Along.decidable step P (step s a) as)

theorem along_append : Along step P s (as ++ bs) ↔
    Along step P s as ∧ Along step P (as.foldl step s) bs := by
  induction as generalizing s with
  | nil => simp [Along]
  | cons a as ih => simp [Along, ih, and_assoc]

theorem along_of_forall (each : ∀ s, ∀ a ∈ as, P s a) : Along step P s as := by
  induction as generalizing s with
  | nil => trivial
  | cons a as ih =>
      exact ⟨each s a List.mem_cons_self, ih fun s b inside => each s b (.tail a inside)⟩

theorem Along.imp (h : Along step P s as) (weaker : ∀ s a, P s a → Q s a) :
    Along step Q s as := by
  induction as generalizing s with
  | nil => trivial
  | cons a as ih => exact ⟨weaker s a h.1, ih h.2⟩

theorem Along.and (h : Along step P s as) (h' : Along step Q s as) :
    Along step (fun s a => P s a ∧ Q s a) s as := by
  induction as generalizing s with
  | nil => trivial
  | cons a as ih => exact ⟨⟨h.1, h'.1⟩, ih h.2 h'.2⟩

/-- An invariant kept by every step that meets the condition holds at the end. -/
theorem Along.invariant {I : σ → Prop} (run : Along step P s as) (start : I s)
    (keep : ∀ s a, I s → P s a → I (step s a)) : I (as.foldl step s) := by
  induction as generalizing s with
  | nil => exact start
  | cons a as ih => exact ih run.2 (keep s a start run.1)

/-! ## What a run puts out -/

variable {β : Type} {out : σ → α → List β}

/-- What the steps of a run put out, one after the other. -/
def emitted (step : σ → α → σ) (out : σ → α → List β) : σ → List α → List β
  | _, [] => []
  | s, a :: as => out s a ++ emitted step out (step s a) as

theorem emitted_append :
    emitted step out s (as ++ bs) = emitted step out s as ++ emitted step out (as.foldl step s) bs := by
  induction as generalizing s with
  | nil => rfl
  | cons a as ih => simp [emitted, ih]

theorem emitted_concat (a : α) :
    emitted step out s (as ++ [a]) = emitted step out s as ++ out (as.foldl step s) a := by
  simp [emitted_append, emitted]

/-- What every step puts out has a property. -/
theorem Along.forall_emitted {R : β → Prop} (run : Along step P s as)
    (each : ∀ s a, P s a → ∀ b ∈ out s a, R b) : ∀ b ∈ emitted step out s as, R b := by
  induction as generalizing s with
  | nil => exact fun b bad => by cases bad
  | cons a as ih =>
      intro b inside
      rcases List.mem_append.1 inside with here | later
      · exact each s a run.1 b here
      · exact ih run.2 b later

/-- Two outputs that every step has something of together. -/
theorem exists_emitted_congr {γ : Type} {out' : σ → α → List γ} {F : β → Prop} {G : γ → Prop}
    (each : ∀ s a, (∃ b ∈ out s a, F b) ↔ ∃ c ∈ out' s a, G c) (s : σ) (as : List α) :
    (∃ b ∈ emitted step out s as, F b) ↔ ∃ c ∈ emitted step out' s as, G c := by
  induction as generalizing s with
  | nil => simp [emitted]
  | cons a as ih =>
      simp only [emitted, List.mem_append, or_and_right, exists_or, each s a, ih (step s a)]

/-- A step that leaves the invariant puts `b` out: a run keeps the invariant or has put `b`
out on the way. -/
theorem Along.emits_or_invariant {I : σ → Prop} {b : β} (run : Along step P s as) (start : I s)
    (keep : ∀ s a, I s → P s a → b ∈ out s a ∨ I (step s a)) :
    b ∈ emitted step out s as ∨ I (as.foldl step s) := by
  induction as generalizing s with
  | nil => exact Or.inr start
  | cons a as ih =>
      rcases keep s a start run.1 with here | kept
      · exact Or.inl (List.mem_append_left _ here)
      · exact (ih run.2 kept).imp_left (List.mem_append_right _)

/-- Nothing unwanted is put out along a run whose steps keep an invariant. -/
theorem Along.not_emits {I : σ → Prop} {b : β} (run : Along step P s as) (start : I s)
    (keep : ∀ s a, I s → P s a → b ∉ out s a ∧ I (step s a)) : b ∉ emitted step out s as := by
  induction as generalizing s with
  | nil => exact List.not_mem_nil
  | cons a as ih =>
      obtain ⟨quiet, kept⟩ := keep s a start run.1
      rw [emitted, List.mem_append, not_or]
      exact ⟨quiet, ih run.2 kept⟩

end Trace
