import Mathlib.Data.List.Infix

/-! # Searches that print their matches

The patterns are a fixed head, a body of any shape and a fixed tail. A search
goes through each line from left to right, takes the longest match at the first
place that has one, and goes on behind it.
-/

namespace Grep
set_option autoImplicit false

universe u

variable {α : Type u} [DecidableEq α]

structure Pattern (α : Type u) where
  head : List α
  body : List α → Bool
  tail : List α

namespace Pattern

/-- The middle of a text that is long enough for head and tail. -/
def middle (p : Pattern α) (text : List α) : List α :=
  (text.drop p.head.length).take (text.length - p.head.length - p.tail.length)

def accepts (p : Pattern α) (text : List α) : Bool :=
  p.head.isPrefixOf text && p.tail.isSuffixOf text &&
    decide (p.head.length + p.tail.length ≤ text.length) && p.body (p.middle text)

def matchAt (p : Pattern α) (line : List α) : Option Nat :=
  if p.head.isPrefixOf line then
    (List.range (line.length + 1)).reverse.find? fun n => p.accepts (line.take n)
  else none

/-- `skip` counts the characters left of the match that was found last. -/
def scan (p : Pattern α) : Nat → List α → List (List α)
  | _, [] => []
  | skip + 1, _ :: line => scan p skip line
  | 0, c :: line =>
    match p.matchAt (c :: line) with
    | some n => (c :: line).take n :: scan p (n - 1) line
    | none => scan p 0 line

end Pattern

def grep (p : Pattern α) (lines : List (List α)) : List (List α) := lines.flatMap (p.scan 0)

namespace Pattern

variable {p : Pattern α}

theorem accepts_iff {text : List α} :
    p.accepts text = true ↔ ∃ run, text = p.head ++ run ++ p.tail ∧ p.body run = true := by
  simp only [accepts, Bool.and_eq_true, List.isPrefixOf_iff_prefix, List.isSuffixOf_iff_suffix,
    decide_eq_true_eq]
  constructor
  · rintro ⟨⟨⟨⟨rest, rfl⟩, hTail⟩, hLength⟩, hBody⟩
    have hShort : p.tail.length ≤ rest.length := by
      rw [List.length_append] at hLength
      omega
    obtain ⟨run, rfl⟩ : p.tail <:+ rest :=
      List.suffix_of_suffix_length_le hTail (List.suffix_append p.head rest) hShort
    have hMiddle : p.middle (p.head ++ (run ++ p.tail)) = run := by
      simp [middle]
    rw [hMiddle] at hBody
    exact ⟨run, (List.append_assoc _ _ _).symm, hBody⟩
  · rintro ⟨run, rfl, hBody⟩
    have hMiddle : p.middle (p.head ++ run ++ p.tail) = run := by
      simp [middle, List.append_assoc]
    refine ⟨⟨⟨?_, List.suffix_append _ _⟩, ?_⟩, ?_⟩
    · rw [List.append_assoc]
      exact List.prefix_append _ _
    · simp only [List.length_append]
      omega
    · rw [hMiddle]
      exact hBody

/-- A class that contains the fixed parts and the bodies contains every match. -/
theorem all_of_accepts {q : α → Prop} (hHead : ∀ c ∈ p.head, q c)
    (hBody : ∀ run, p.body run = true → ∀ c ∈ run, q c) (hTail : ∀ c ∈ p.tail, q c) {text : List α}
    (h : p.accepts text = true) : ∀ c ∈ text, q c := by
  obtain ⟨run, rfl, hRun⟩ := accepts_iff.mp h
  intro c hc
  rcases List.mem_append.mp hc with hc | hc
  · rcases List.mem_append.mp hc with hc | hc
    · exact hHead c hc
    · exact hBody run hRun c hc
  · exact hTail c hc

theorem accepts_of_matchAt {line : List α} {n : Nat} (h : p.matchAt line = some n) :
    p.accepts (line.take n) = true := by
  unfold matchAt at h
  split at h
  · have hFound := List.find?_some h
    exact hFound
  · cases h

theorem matchAt_eq_none_of_head {line : List α} (h : ¬ p.head <+: line) : p.matchAt line = none := by
  rw [matchAt, if_neg]
  rwa [List.isPrefixOf_iff_prefix]

/-- A match is found whole when no longer text from its place is accepted. -/
theorem matchAt_append {text rest : List α} (hText : p.accepts text = true)
    (hLongest : ∀ n, text.length < n → p.accepts ((text ++ rest).take n) = false) :
    p.matchAt (text ++ rest) = some text.length := by
  have hHead : p.head <+: text ++ rest := by
    obtain ⟨run, rfl, _⟩ := accepts_iff.mp hText
    rw [List.append_assoc, List.append_assoc]
    exact List.prefix_append _ _
  rw [matchAt, if_pos (List.isPrefixOf_iff_prefix.mpr hHead)]
  have hSplit : List.range ((text ++ rest).length + 1) =
      List.range text.length ++ text.length :: List.range' (text.length + 1) rest.length := by
    rw [List.range_eq_range', List.range_eq_range', ← List.range'_succ, List.length_append,
      Nat.add_assoc, ← List.range'_append_1, Nat.zero_add]
  rw [hSplit, List.reverse_append, List.reverse_cons, List.append_assoc, List.find?_append]
  have hNone : List.find? (fun n => p.accepts ((text ++ rest).take n))
      (List.range' (text.length + 1) rest.length).reverse = none := by
    rw [List.find?_eq_none]
    intro n hn
    have hRange := List.mem_range'_1.mp (List.mem_reverse.mp hn)
    rw [hLongest n (by omega)]
    exact Bool.false_ne_true
  rw [hNone, Option.none_or, List.singleton_append, List.find?_cons_of_pos]
  rw [List.take_left]
  exact hText

theorem accepts_of_mem_scan {line : List α} {skip : Nat} {text : List α}
    (h : text ∈ p.scan skip line) : p.accepts text = true := by
  induction line generalizing skip with
  | nil => simp [scan] at h
  | cons c line ih =>
    cases skip with
    | succ skip => exact ih h
    | zero =>
      rw [scan] at h
      split at h
      · rename_i n hMatch
        rcases List.mem_cons.mp h with rfl | h
        · exact accepts_of_matchAt hMatch
        · exact ih h
      · exact ih h

theorem scan_append_of_none {front line : List α}
    (h : ∀ r, r ≠ [] → r <:+ front → p.matchAt (r ++ line) = none) :
    p.scan 0 (front ++ line) = p.scan 0 line := by
  induction front with
  | nil => rfl
  | cons c front ih =>
    have hHere : p.matchAt (c :: (front ++ line)) = none :=
      h (c :: front) (by simp) (List.suffix_refl _)
    rw [List.cons_append, scan, hHere]
    exact ih fun r hr hSuffix => h r hr (hSuffix.trans (List.suffix_cons _ _))

theorem scan_of_matchAt {c : α} {line : List α} {n : Nat} (h : p.matchAt (c :: line) = some n) :
    p.scan 0 (c :: line) = (c :: line).take n :: p.scan (n - 1) line := by
  rw [scan, h]

theorem matchAt_self {text : List α} (h : p.accepts text = true) : p.matchAt text = some text.length := by
  have hHead : p.head <+: text := by
    obtain ⟨run, rfl, _⟩ := accepts_iff.mp h
    rw [List.append_assoc]
    exact List.prefix_append _ _
  rw [matchAt, if_pos (List.isPrefixOf_iff_prefix.mpr hHead), List.range_succ, List.reverse_append,
    List.reverse_singleton, List.singleton_append, List.find?_cons_of_pos]
  rw [List.take_length]
  exact h

theorem scan_skip (front line : List α) : p.scan front.length (front ++ line) = p.scan 0 line := by
  induction front with
  | nil => rfl
  | cons c front ih => exact ih

theorem scan_append_of_matchAt {text rest : List α} (hNonempty : text ≠ [])
    (h : p.matchAt (text ++ rest) = some text.length) :
    p.scan 0 (text ++ rest) = text :: p.scan 0 rest := by
  obtain ⟨c, line, rfl⟩ := List.exists_cons_of_ne_nil hNonempty
  rw [List.cons_append] at h
  rw [List.cons_append, scan_of_matchAt h, ← List.cons_append, List.take_left]
  exact congrArg (List.cons (c :: line)) (scan_skip line rest)

theorem scan_self {text : List α} (hNonempty : text ≠ []) (h : p.accepts text = true) :
    p.scan 0 text = [text] := by
  have hMatch : p.matchAt (text ++ []) = some text.length := by
    rw [List.append_nil]
    exact matchAt_self h
  have hScan := scan_append_of_matchAt hNonempty hMatch
  rwa [List.append_nil] at hScan

theorem scan_eq_nil {line : List α} (h : ∀ text, text <:+: line → p.accepts text = false) :
    p.scan 0 line = [] := by
  have hNone := @scan_append_of_none α _ p line [] fun r _ hSuffix => ?_
  · rwa [List.append_nil] at hNone
  · rw [List.append_nil]
    cases hMatch : p.matchAt r with
    | none => rfl
    | some n =>
      have hTake : r.take n <:+: line := (List.take_prefix n r).isInfix.trans hSuffix.isInfix
      have hAccepted := accepts_of_matchAt hMatch
      rw [h _ hTake] at hAccepted
      cases hAccepted

theorem scan_of_not_infix {line : List α} (h : ¬ p.head <:+: line) : p.scan 0 line = [] := by
  apply scan_eq_nil
  intro text hText
  rw [Bool.eq_false_iff]
  intro hAccepts
  obtain ⟨run, rfl, _⟩ := accepts_iff.mp hAccepts
  rw [List.append_assoc] at hText
  exact h ((List.prefix_append _ _).isInfix.trans hText)

theorem mem_scan_of_matchAt {text rest : List α} (hNonempty : text ≠ [])
    (h : p.matchAt (text ++ rest) = some text.length) : text ∈ p.scan 0 (text ++ rest) := by
  rw [scan_append_of_matchAt hNonempty h]
  exact List.mem_cons_self

end Pattern

theorem accepts_of_mem_grep {p : Pattern α} {lines : List (List α)} {text : List α}
    (h : text ∈ grep p lines) : p.accepts text = true := by
  obtain ⟨line, _, hLine⟩ := List.mem_flatMap.mp h
  exact Pattern.accepts_of_mem_scan hLine

end Grep
