import WalrQueue.Lib.Trace

/-!
# Machines that answer, and forward simulation

A machine takes an input and gives a new state and an answer.  `R` relates the
states of a concrete and an abstract machine; when every input the abstract one
accepts keeps `R` and gets matching answers, so does every accepted run.
-/

namespace Simulation

open Trace

variable {σ τ α β γ : Type} {exec : σ → α → σ × β} {exec' : τ → α → τ × γ}
  {R : σ → τ → Prop} {accepts : τ → α → Prop} {same : β → γ → Prop} {s : σ} {t : τ} {as : List α}

/-- The state after one input. -/
def next (exec : σ → α → σ × β) (s : σ) (a : α) : σ := (exec s a).1

/-- The state after a list of inputs. -/
def after (exec : σ → α → σ × β) (s : σ) (as : List α) : σ := as.foldl (next exec) s

/-- The answers to a list of inputs, in order. -/
def answers (exec : σ → α → σ × β) : σ → List α → List β
  | _, [] => []
  | s, a :: as => (exec s a).2 :: answers exec (exec s a).1 as

theorem length_answers (exec : σ → α → σ × β) (s : σ) (as : List α) :
    (answers exec s as).length = as.length := by
  induction as generalizing s with
  | nil => rfl
  | cons a as ih => exact congrArg Nat.succ (ih _)

theorem answers_append (exec : σ → α → σ × β) (s : σ) (as bs : List α) :
    answers exec s (as ++ bs) = answers exec s as ++ answers exec (after exec s as) bs := by
  induction as generalizing s with
  | nil => rfl
  | cons a as ih => exact congrArg _ (ih _)

/-- One input keeps the relation and gets matching answers. -/
def Simulates (exec : σ → α → σ × β) (exec' : τ → α → τ × γ) (accepts : τ → α → Prop)
    (R : σ → τ → Prop) (same : β → γ → Prop) : Prop :=
  ∀ s t a, R s t → accepts t a →
    R (exec s a).1 (exec' t a).1 ∧ same (exec s a).2 (exec' t a).2

theorem Simulates.run (each : Simulates exec exec' accepts R same) (start : R s t)
    (accepted : Along (next exec') accepts t as) :
    R (after exec s as) (after exec' t as) ∧
      List.Forall₂ same (answers exec s as) (answers exec' t as) := by
  induction as generalizing s t with
  | nil => exact ⟨start, .nil⟩
  | cons a as ih =>
      obtain ⟨related, matching⟩ := each s t a start accepted.1
      obtain ⟨related_after, rest⟩ := ih related accepted.2
      exact ⟨related_after, .cons matching rest⟩

end Simulation
