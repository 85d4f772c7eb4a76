import Mathlib.Data.List.Basic
import Mathlib.Data.List.Forall2

/-! # Conversion loops that stop at the first failure

A loop converts the elements of a list in order, each with its position. It
either converts all of them or reports the error of the first one that fails.
-/

namespace Traverse
set_option autoImplicit false

universe u v w

variable {α : Type u} {β : Type v} {ε : Type w}

theorem bind_eq_ok_iff {γ : Type u} {x : Except ε γ} {f : γ → Except ε α} {y : α} :
    (x >>= f) = .ok y ↔ ∃ a, x = .ok a ∧ f a = .ok y := by
  cases x with
  | error e => simp [bind, Except.bind]
  | ok a => simp [bind, Except.bind]

def traverseFrom (f : Nat → α → Except ε β) : Nat → List α → Except ε (List β)
  | _, [] => .ok []
  | i, x :: xs =>
    match f i x with
    | .error e => .error e
    | .ok y =>
      match traverseFrom f (i + 1) xs with
      | .error e => .error e
      | .ok ys => .ok (y :: ys)

theorem traverse_congr {f g : Nat → α → Except ε β} {i : Nat} {xs : List α}
    (h : ∀ j, ∀ x ∈ xs, f j x = g j x) : traverseFrom f i xs = traverseFrom g i xs := by
  induction xs generalizing i with
  | nil => rfl
  | cons x xs ih =>
    rw [traverseFrom, traverseFrom, h i x List.mem_cons_self,
      ih fun j y hy => h j y (List.mem_cons_of_mem x hy)]

theorem traverse_map {γ : Type u} (f : Nat → α → Except ε β) (h : γ → α) (i : Nat) (xs : List γ) :
    traverseFrom f i (xs.map h) = traverseFrom (fun j x => f j (h x)) i xs := by
  induction xs generalizing i with
  | nil => rfl
  | cons x xs ih => rw [List.map_cons, traverseFrom, traverseFrom, ih]

variable {f : Nat → α → Except ε β}

theorem map_traverse {γ : Type v} (g : β → γ) (i : Nat) (xs : List α) :
    (traverseFrom f i xs).map (List.map g) = traverseFrom (fun j x => (f j x).map g) i xs := by
  induction xs generalizing i with
  | nil => rfl
  | cons x xs ih =>
    rw [traverseFrom, traverseFrom, ← ih]
    cases f i x with
    | error e => rfl
    | ok y => cases traverseFrom f (i + 1) xs <;> rfl

theorem traverse_cons_eq_ok_iff {i : Nat} {x : α} {xs : List α} {result : List β} :
    traverseFrom f i (x :: xs) = .ok result ↔
      ∃ y ys, f i x = .ok y ∧ traverseFrom f (i + 1) xs = .ok ys ∧ result = y :: ys := by
  rw [traverseFrom]
  cases f i x with
  | error e => simp
  | ok y => cases traverseFrom f (i + 1) xs <;> simp [eq_comm]

theorem traverse_cons_eq_error_iff {i : Nat} {x : α} {xs : List α} {e : ε} :
    traverseFrom f i (x :: xs) = .error e ↔
      f i x = .error e ∨ ∃ y, f i x = .ok y ∧ traverseFrom f (i + 1) xs = .error e := by
  rw [traverseFrom]
  cases f i x with
  | error e => simp
  | ok y => cases traverseFrom f (i + 1) xs <;> simp

/-- A conversion succeeds as a whole: position by position. -/
theorem traverse_eq_ok_iff {i : Nat} {xs : List α} {ys : List β} :
    traverseFrom f i xs = .ok ys ↔ ys.length = xs.length ∧
      ∀ k x, xs[k]? = some x → ∃ y, ys[k]? = some y ∧ f (i + k) x = .ok y := by
  induction xs generalizing i ys with
  | nil => cases ys <;> simp [traverseFrom]
  | cons x xs ih =>
    rw [traverse_cons_eq_ok_iff]
    constructor
    · rintro ⟨y, ys, hHead, hTail, rfl⟩
      obtain ⟨hLength, hEach⟩ := ih.mp hTail
      refine ⟨by simp [hLength], ?_⟩
      intro k x' hx'
      cases k with
      | zero =>
        cases hx'
        exact ⟨y, rfl, hHead⟩
      | succ k =>
        obtain ⟨y', hy', hf⟩ := hEach k x' hx'
        exact ⟨y', hy', by rw [← hf, Nat.add_assoc, Nat.add_comm 1 k]⟩
    · rintro ⟨hLength, hEach⟩
      obtain ⟨y, hy, hHead⟩ := hEach 0 x rfl
      cases ys with
      | nil => cases hy
      | cons y' ys =>
        cases hy
        refine ⟨y, ys, hHead, ih.mpr ⟨by simpa using hLength, ?_⟩, rfl⟩
        intro k x' hx'
        obtain ⟨y', hy', hf⟩ := hEach (k + 1) x' hx'
        exact ⟨y', hy', by rw [← hf, Nat.add_assoc, Nat.add_comm 1 k]⟩

theorem related_congr {γ : Type u} {R S : γ → α → Prop} {partners : List γ} {xs : List α}
    (h : ∀ x ∈ xs, ∀ c, R c x ↔ S c x) :
    List.Forall₂ R partners xs ↔ List.Forall₂ S partners xs := by
  induction xs generalizing partners with
  | nil => rw [List.forall₂_nil_right_iff, List.forall₂_nil_right_iff]
  | cons x xs ih =>
    cases partners with
    | nil => rw [List.forall₂_nil_left_iff, List.forall₂_nil_left_iff]
    | cons c partners =>
      rw [List.forall₂_cons, List.forall₂_cons, h x List.mem_cons_self c,
        ih fun y hy => h y (List.mem_cons_of_mem x hy)]

/-- All elements convert to what their partners in another list allow. -/
theorem traverse_related_iff {γ : Type u} {g : α → Except ε β} {R : γ → β → Prop} {i : Nat}
    {partners : List γ} {xs : List α} :
    (∃ ys, traverseFrom (fun _ x => g x) i xs = .ok ys ∧ List.Forall₂ R partners ys) ↔
      List.Forall₂ (fun c x => ∃ y, g x = .ok y ∧ R c y) partners xs := by
  induction xs generalizing i partners with
  | nil =>
    constructor
    · rintro ⟨ys, hYs, hRelated⟩
      obtain rfl := Except.ok.inj hYs
      cases hRelated
      exact .nil
    · intro hEach
      cases hEach
      exact ⟨[], rfl, .nil⟩
  | cons x xs ih =>
    constructor
    · rintro ⟨ys, hYs, hRelated⟩
      obtain ⟨y, rest, hHead, hTail, rfl⟩ := traverse_cons_eq_ok_iff.mp hYs
      cases hRelated with
      | cons hFirst hRest => exact .cons ⟨y, hHead, hFirst⟩ (ih.mp ⟨rest, hTail, hRest⟩)
    · intro hEach
      cases hEach with
      | cons hFirst hRest =>
        obtain ⟨y, hHead, hFirst⟩ := hFirst
        obtain ⟨rest, hTail, hRest⟩ := ih.mpr hRest
        exact ⟨y :: rest, traverse_cons_eq_ok_iff.mpr ⟨y, rest, hHead, hTail, rfl⟩,
          .cons hFirst hRest⟩

/-- The error is that of the first position that fails. -/
theorem traverse_eq_error_iff {i : Nat} {xs : List α} {e : ε} :
    traverseFrom f i xs = .error e ↔ ∃ k x, xs[k]? = some x ∧ f (i + k) x = .error e ∧
      ∀ j < k, ∀ x', xs[j]? = some x' → ∃ y, f (i + j) x' = .ok y := by
  induction xs generalizing i with
  | nil => simp [traverseFrom]
  | cons x xs ih =>
    rw [traverse_cons_eq_error_iff]
    constructor
    · rintro (hHead | ⟨y, hHead, hTail⟩)
      · exact ⟨0, x, rfl, hHead, by simp⟩
      · obtain ⟨k, x', hx', hError, hBefore⟩ := ih.mp hTail
        refine ⟨k + 1, x', hx', by rw [← hError, Nat.add_assoc, Nat.add_comm 1 k], ?_⟩
        intro j hj x'' hx''
        cases j with
        | zero =>
          cases hx''
          exact ⟨y, hHead⟩
        | succ j =>
          obtain ⟨y', hy'⟩ := hBefore j (by omega) x'' hx''
          exact ⟨y', by rw [← hy', Nat.add_assoc, Nat.add_comm 1 j]⟩
    · rintro ⟨k, x', hx', hError, hBefore⟩
      cases k with
      | zero =>
        cases hx'
        exact Or.inl hError
      | succ k =>
        obtain ⟨y, hHead⟩ := hBefore 0 (by omega) x rfl
        refine Or.inr ⟨y, hHead, ih.mpr ⟨k, x', hx', ?_, ?_⟩⟩
        · rw [← hError, Nat.add_assoc, Nat.add_comm 1 k]
        · intro j hj x'' hx''
          obtain ⟨y', hy'⟩ := hBefore (j + 1) (by omega) x'' hx''
          exact ⟨y', by rw [← hy', Nat.add_assoc, Nat.add_comm 1 j]⟩

theorem traverse_ok_of_forall {i : Nat} {xs : List α} (h : ∀ j, ∀ x ∈ xs, ∃ y, f j x = .ok y) :
    ∃ ys, traverseFrom f i xs = .ok ys := by
  cases hResult : traverseFrom f i xs with
  | ok ys => exact ⟨ys, rfl⟩
  | error e =>
    obtain ⟨k, x, hx, hError, _⟩ := traverse_eq_error_iff.mp hResult
    obtain ⟨y, hy⟩ := h (i + k) x (List.mem_of_getElem? hx)
    rw [hy] at hError
    cases hError

end Traverse
