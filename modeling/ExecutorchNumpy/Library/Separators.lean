import Mathlib.Data.List.Basic
import Mathlib.Data.List.Infix

/-! # Lists around a separator

What an element that occurs in few places says about the ways to cut a list and
about the places where another list can occur in it.
-/

namespace Separators
set_option autoImplicit false

universe u

variable {α : Type u}

/-- A list is cut at its first separator in one way. -/
theorem append_cons_inj_left {front back front' back' : List α} {c : α} (h : c ∉ front)
    (h' : c ∉ front') (hEq : front ++ c :: back = front' ++ c :: back') : front = front' ∧ back = back' := by
  induction front generalizing front' with
  | nil =>
    cases front' with
    | nil => exact ⟨rfl, (List.cons.inj hEq).2⟩
    | cons d front' => exact absurd ((List.cons.inj hEq).1 ▸ List.mem_cons_self) h'
  | cons d front ih =>
    cases front' with
    | nil => exact absurd ((List.cons.inj hEq).1 ▸ List.mem_cons_self) h
    | cons d' front' =>
      obtain ⟨rfl, hRest⟩ := List.cons.inj hEq
      obtain ⟨rfl, hBack⟩ := ih (List.not_mem_of_not_mem_cons h) (List.not_mem_of_not_mem_cons h') hRest
      exact ⟨rfl, hBack⟩

/-- A list is cut at its last separator in one way. -/
theorem append_cons_inj_right {front back front' back' : List α} {c : α} (h : c ∉ back)
    (h' : c ∉ back') (hEq : front ++ c :: back = front' ++ c :: back') : front = front' ∧ back = back' := by
  have hReverse := congrArg List.reverse hEq
  simp only [List.reverse_append, List.reverse_cons, List.append_assoc, List.singleton_append] at hReverse
  obtain ⟨hBack, hFront⟩ := append_cons_inj_left (by simpa using h) (by simpa using h') hReverse
  exact ⟨List.reverse_injective hFront, List.reverse_injective hBack⟩

/-- A list without the separator does not occur across it. -/
theorem infix_append_cons {text front back : List α} {c : α} (hc : c ∉ text)
    (h : text <:+: front ++ c :: back) : text <:+: front ∨ text <:+: back := by
  obtain ⟨before, after, hEq⟩ := h
  obtain ⟨rest, hFront, _⟩ | ⟨rest, hLeft, hRight⟩ := List.append_eq_append_iff.mp hEq
  · exact Or.inl ⟨before, rest, hFront.symm⟩
  · cases rest with
    | nil => exact Or.inl ⟨before, [], by rw [List.append_nil, hLeft, List.append_nil]⟩
    | cons d rest =>
      obtain ⟨rfl, rfl⟩ := List.cons.inj hRight
      obtain ⟨more, _, hText⟩ | ⟨more, hBefore, hText⟩ := List.append_eq_append_iff.mp hLeft
      · rw [hText] at hc
        simp at hc
      · cases more with
        | nil =>
          rw [List.nil_append] at hText
          rw [← hText] at hc
          simp at hc
        | cons e more =>
          obtain ⟨rfl, rfl⟩ := List.cons.inj hText
          exact Or.inr ⟨more, after, rfl⟩

/-- A list does not start in a part that lacks its first element. -/
theorem infix_of_head_not_mem {text front back : List α} {c : α} (hc : c ∉ front)
    (h : c :: text <:+: front ++ back) : c :: text <:+: back := by
  induction front with
  | nil => exact h
  | cons d front ih =>
    obtain hPrefix | hInfix := List.infix_cons_iff.mp h
    · exact absurd ((List.cons_prefix_cons.mp hPrefix).1 ▸ List.mem_cons_self) hc
    · exact ih (List.not_mem_of_not_mem_cons hc) hInfix

/-- Around the only separator of a list, an occurrence lies as the list is cut. -/
theorem infix_around {left right front back : List α} {c : α} (hFront : c ∉ front) (hBack : c ∉ back)
    (h : left ++ c :: right <:+: front ++ c :: back) : left <:+ front ∧ right <+: back := by
  obtain ⟨before, after, hEq⟩ := h
  have hSplit : before ++ left ++ c :: (right ++ after) = front ++ c :: back := by
    rw [← hEq]
    simp only [List.append_assoc, List.cons_append]
  have hStart : c ∉ before ++ left := by
    intro hMem
    obtain ⟨start, rest, hFirst, hStart⟩ := List.eq_append_cons_of_mem hMem
    rw [hFirst, List.append_assoc, List.cons_append] at hSplit
    obtain ⟨_, hRest⟩ := append_cons_inj_left hStart hFront hSplit
    exact hBack (hRest ▸ List.mem_append_right rest List.mem_cons_self)
  obtain ⟨hLeft, hRight⟩ := append_cons_inj_left hStart hFront hSplit
  exact ⟨⟨before, hLeft⟩, ⟨after, hRight⟩⟩

end Separators
