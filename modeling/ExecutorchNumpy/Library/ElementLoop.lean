import Mathlib.Logic.Function.Basic
import Mathlib.Logic.Nontrivial.Basic
import Mathlib.Tactic.Ring

/-! # Elementwise loops over shared memory

A loop reads consecutive elements from one place of a memory, maps each, and
writes the results to another place of the same memory. It maps the original
elements exactly when it never writes into an element it has yet to read.
-/

namespace ElementLoop
set_option autoImplicit false

universe u

variable {β : Type u}

def load (memory : Nat → β) (ptr size : Nat) : List β :=
  (List.range size).map fun k => memory (ptr + k)

def store (memory : Nat → β) (ptr : Nat) (bytes : List β) : Nat → β := fun a =>
  if a < ptr then memory a else (bytes[a - ptr]?).getD (memory a)

/-- `for (i = 0; i < n; ++i) dst[i] = f(src[i]);` -/
def mapLoop (f : List β → List β) (src dst size : Nat) : Nat → (Nat → β) → Nat → β
  | 0, memory => memory
  | n + 1, memory =>
    let before := mapLoop f src dst size n memory
    store before (dst + n * size) (f (load before (src + n * size) size))

section Access

variable {memory memory' : Nat → β} {ptr : Nat} {bytes : List β}

@[simp] theorem length_load (memory : Nat → β) (ptr size : Nat) :
    (load memory ptr size).length = size := by
  rw [load, List.length_map, List.length_range]

theorem load_congr {size : Nat} (h : ∀ k < size, memory (ptr + k) = memory' (ptr + k)) :
    load memory ptr size = load memory' ptr size := by
  apply List.map_congr_left
  intro k hk
  exact h k (List.mem_range.mp hk)

theorem load_inj {size k : Nat} (h : load memory ptr size = load memory' ptr size) (hk : k < size) :
    memory (ptr + k) = memory' (ptr + k) :=
  List.map_inj_left.mp h k (List.mem_range.mpr hk)

/-- Two places that agree in every memory are one place. -/
theorem ptr_eq_of_load_eq [Nontrivial β] {p q size : Nat} (hSize : 0 < size)
    (h : ∀ memory : Nat → β, load memory p size = load memory q size) : p = q := by
  classical
  obtain ⟨x, y, hNe⟩ := exists_pair_ne β
  have hMarked := congrArg List.head? (h fun a => if a = p then x else y)
  obtain ⟨n, rfl⟩ : ∃ n, size = n + 1 := ⟨size - 1, by omega⟩
  simp only [load, List.range_succ_eq_map, List.map_cons, List.head?_cons, Nat.add_zero,
    if_true, Option.some.injEq] at hMarked
  by_contra hApart
  rw [if_neg (Ne.symm hApart)] at hMarked
  exact hNe hMarked

theorem store_of_outside {a : Nat} (h : a < ptr ∨ ptr + bytes.length ≤ a) :
    store memory ptr bytes a = memory a := by
  unfold store
  split
  · rfl
  · rw [List.getElem?_eq_none (by omega), Option.getD_none]

theorem store_add {k : Nat} (hk : k < bytes.length) : store memory ptr bytes (ptr + k) = bytes[k] := by
  rw [store, if_neg (by omega), Nat.add_sub_cancel_left, List.getElem?_eq_getElem hk,
    Option.getD_some]

theorem load_store (memory : Nat → β) (ptr : Nat) (bytes : List β) :
    load (store memory ptr bytes) ptr bytes.length = bytes := by
  apply List.ext_getElem (length_load _ _ _)
  intro k hk hk'
  simp only [load, List.getElem_map, List.getElem_range]
  exact store_add hk'

theorem load_store_of_disjoint {q size : Nat} (h : q + size ≤ ptr ∨ ptr + bytes.length ≤ q) :
    load (store memory ptr bytes) q size = load memory q size := by
  apply load_congr
  intro k hk
  exact store_of_outside (by omega)

theorem store_congr (h : ∀ a, a < ptr ∨ ptr + bytes.length ≤ a → memory a = memory' a) :
    store memory ptr bytes = store memory' ptr bytes := by
  funext a
  by_cases hOut : a < ptr ∨ ptr + bytes.length ≤ a
  · rw [store_of_outside hOut, store_of_outside hOut, h a hOut]
  · obtain ⟨k, rfl⟩ : ∃ k, a = ptr + k := ⟨a - ptr, by omega⟩
    rw [store_add (by omega), store_add (by omega)]

end Access

section Loop

variable {f : List β → List β} {src dst size n : Nat}

theorem mapLoop_succ (f : List β → List β) (src dst size n : Nat) (memory : Nat → β) :
    mapLoop f src dst size (n + 1) memory =
      store (mapLoop f src dst size n memory) (dst + n * size)
        (f (load (mapLoop f src dst size n memory) (src + n * size) size)) := rfl

/-- Some element is overwritten before it is read. -/
def Clobbers (src dst size n : Nat) : Prop := 1 < n ∧ src < dst ∧ dst < src + n * size

instance (src dst size n : Nat) : Decidable (Clobbers src dst size n) :=
  inferInstanceAs (Decidable (_ ∧ _ ∧ _))

theorem disjoint_of_not_clobbers (h : ¬ Clobbers src dst size n) {i j : Nat} (hij : i < j)
    (hj : j < n) : src + j * size + size ≤ dst + i * size ∨ dst + i * size + size ≤ src + j * size := by
  have hRead : (j + 1) * size ≤ n * size := Nat.mul_le_mul_right size hj
  have hWritten : (i + 1) * size ≤ j * size := Nat.mul_le_mul_right size hij
  rw [Nat.succ_mul] at hRead hWritten
  unfold Clobbers at h
  omega

/-- The invariant of the loop: written elements are images, unread ones are as at the start. -/
theorem mapLoop_invariant (hSize : ∀ bytes, (f bytes).length = size) (h : ¬ Clobbers src dst size n)
    (memory : Nat → β) {i : Nat} (hi : i ≤ n) :
    (∀ j < i, load (mapLoop f src dst size i memory) (dst + j * size) size =
        f (load memory (src + j * size) size)) ∧
      ∀ j, i ≤ j → j < n → load (mapLoop f src dst size i memory) (src + j * size) size =
        load memory (src + j * size) size := by
  induction i with
  | zero => exact ⟨fun j hj => absurd hj (Nat.not_lt_zero j), fun _ _ _ => rfl⟩
  | succ i ih =>
    obtain ⟨hWritten, hUnread⟩ := ih (by omega)
    constructor
    · intro j hj
      rw [mapLoop_succ, hUnread i le_rfl hi]
      rcases Nat.lt_succ_iff_lt_or_eq.mp hj with hBelow | rfl
      · have hBefore : (j + 1) * size ≤ i * size := Nat.mul_le_mul_right size hBelow
        rw [Nat.succ_mul] at hBefore
        rw [load_store_of_disjoint (Or.inl (by omega))]
        exact hWritten j hBelow
      · have hLoad := load_store (mapLoop f src dst size j memory) (dst + j * size)
          (f (load memory (src + j * size) size))
        rw [hSize] at hLoad
        exact hLoad
    · intro j hij hj
      have hApart := disjoint_of_not_clobbers h hij hj
      rw [mapLoop_succ, load_store_of_disjoint (by rw [hSize]; exact hApart)]
      exact hUnread j (by omega) hj

theorem load_mapLoop (hSize : ∀ bytes, (f bytes).length = size) (h : ¬ Clobbers src dst size n)
    (memory : Nat → β) {j : Nat} (hj : j < n) :
    load (mapLoop f src dst size n memory) (dst + j * size) size =
      f (load memory (src + j * size) size) :=
  (mapLoop_invariant hSize h memory le_rfl).1 j hj

/-- The loop writes nowhere but into its destination, also when it clobbers. -/
theorem mapLoop_of_outside (hSize : ∀ bytes, (f bytes).length = size) (memory : Nat → β) {a : Nat}
    (h : a < dst ∨ dst + n * size ≤ a) : mapLoop f src dst size n memory a = memory a := by
  induction n with
  | zero => rfl
  | succ n ih =>
    have hLast : dst + (n + 1) * size = dst + n * size + size := by rw [Nat.succ_mul, Nat.add_assoc]
    rw [mapLoop_succ, store_of_outside, ih (by omega)]
    rw [hSize]
    omega

/-- What the first pass overwrites without reading has no influence on the result. -/
theorem mapLoop_congr (hSize : ∀ bytes, (f bytes).length = size) {memory memory' : Nat → β}
    (hRead : load memory src size = load memory' src size)
    (hKept : ∀ a, a < dst ∨ dst + size ≤ a → memory a = memory' a) :
    mapLoop f src dst size (n + 1) memory = mapLoop f src dst size (n + 1) memory' := by
  induction n with
  | zero =>
    rw [mapLoop_succ, mapLoop_succ, Nat.zero_mul, Nat.add_zero, Nat.add_zero]
    change store memory dst (f (load memory src size)) = store memory' dst (f (load memory' src size))
    rw [hRead]
    exact store_congr fun a ha => hKept a (by rwa [hSize] at ha)
  | succ n ih => rw [mapLoop_succ, mapLoop_succ f src dst size (n + 1) memory', ih]

/-- A loop that clobbers has a byte of its source that it never sees. -/
theorem exists_unseen_of_clobbers (hSize : ∀ bytes, (f bytes).length = size)
    (h : Clobbers src dst size n) :
    ∃ i < n, ∃ k < size, ∀ (memory : Nat → β) (v : β),
      mapLoop f src dst size n (Function.update memory (src + i * size + k) v) =
        mapLoop f src dst size n memory := by
  obtain ⟨hMany, hAbove, hBelow⟩ := h
  obtain ⟨m, rfl⟩ : ∃ m, n = m + 1 := ⟨n - 1, by omega⟩
  have hPos : 0 < size := by
    apply Nat.pos_of_ne_zero
    intro hZero
    rw [hZero, Nat.mul_zero] at hBelow
    omega
  have hTwo : 2 * size ≤ (m + 1) * size := Nat.mul_le_mul_right size hMany
  -- the first byte that is both written by the first pass and beyond what that pass reads
  let offset := max size (dst - src)
  have hOffset : size * (offset / size) + offset % size = offset := Nat.div_add_mod offset size
  refine ⟨offset / size, ?_, offset % size, Nat.mod_lt _ hPos, ?_⟩
  · apply (Nat.div_lt_iff_lt_mul hPos).mpr
    omega
  · intro memory v
    have hPlace : src + offset / size * size + offset % size = src + offset := by
      rw [Nat.mul_comm (offset / size)]
      omega
    rw [hPlace]
    apply mapLoop_congr hSize
    · apply load_congr
      intro k hk
      exact Function.update_of_ne (by omega) _ _
    · intro a ha
      exact Function.update_of_ne (by omega) _ _

end Loop

end ElementLoop
