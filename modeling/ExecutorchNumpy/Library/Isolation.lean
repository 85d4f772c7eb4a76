import Mathlib.Data.List.Basic

/-! # Machines whose users do not see each other

A machine answers operations of several users. When what a user sees of two states
stays alike under the user's own operations and is not touched by those of others,
the user gets the answers of a run in which nobody else appears.
-/

namespace Isolation
set_option autoImplicit false

universe u v w x

variable {State : Type u} {Op : Type v} {Answer : Type w}

def runAll (step : Op → State → Answer × State) : List Op → State → State
  | [], s => s
  | op :: ops, s => runAll step ops (step op s).2

/-- The answers to the operations of one user. -/
def answersTo (step : Op → State → Answer × State) (mine : Op → Bool) : List Op → State → List Answer
  | [], _ => []
  | op :: ops, s =>
    if mine op then (step op s).1 :: answersTo step mine ops (step op s).2
    else answersTo step mine ops (step op s).2

variable {step : Op → State → Answer × State} {mine : Op → Bool}

theorem runAll_invariant {Inv : State → Prop} (hStep : ∀ op s, Inv s → Inv (step op s).2)
    (ops : List Op) {s : State} (h : Inv s) : Inv (runAll step ops s) := by
  induction ops generalizing s with
  | nil => exact h
  | cons op ops ih => exact ih (hStep op s h)

/-- The unwinding argument: local steps agree, foreign steps are not seen. -/
theorem answersTo_filter {Alike : State → State → Prop}
    (hOwn : ∀ op s s', mine op = true → Alike s s' →
      (step op s).1 = (step op s').1 ∧ Alike (step op s).2 (step op s').2)
    (hOther : ∀ op s s', mine op = false → Alike s s' → Alike (step op s).2 s')
    (ops : List Op) {s s' : State} (h : Alike s s') :
    answersTo step mine ops s = answersTo step mine (ops.filter mine) s' := by
  induction ops generalizing s s' with
  | nil => rfl
  | cons op ops ih =>
    cases hMine : mine op with
    | true =>
      obtain ⟨hAnswer, hAlike⟩ := hOwn op s s' hMine h
      rw [List.filter_cons_of_pos hMine, answersTo, answersTo, if_pos hMine, if_pos hMine, hAnswer,
        ih hAlike]
    | false =>
      rw [List.filter_cons_of_neg (by simp [hMine]), answersTo, if_neg (by simp [hMine]),
        ih (hOther op s s' hMine h)]

end Isolation
