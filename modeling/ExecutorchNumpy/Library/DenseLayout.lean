import Mathlib.Algebra.BigOperators.Group.List.Basic
import Mathlib.Algebra.Order.BigOperators.Group.List
import Mathlib.Data.List.Sort
import Mathlib.Tactic.Ring

/-! # Dense layouts of a multi-dimensional array

A dense buffer is addressed by an order of the axes, slowest varying first.
Two orders of the same axes address a buffer alike exactly when they list the
axes of extent other than one in the same order.
-/

namespace DenseLayout
set_option autoImplicit false

universe u

variable {ι : Type u}

def volume (extent : ι → Nat) (axes : List ι) : Nat := (axes.map extent).prod

/-- Place of a multi-index in the dense buffer whose axes vary in the listed order. -/
def position (extent index : ι → Nat) : List ι → Nat
  | [] => 0
  | a :: axes => index a * volume extent axes + position extent index axes

def Within (extent index : ι → Nat) (axes : List ι) : Prop := ∀ a ∈ axes, index a < extent a

def moving (extent : ι → Nat) (axes : List ι) : List ι := axes.filter fun a => extent a != 1

section Arithmetic

variable (extent index : ι → Nat)

@[simp] theorem volume_nil : volume extent [] = 1 := rfl

@[simp] theorem volume_cons (a : ι) (axes : List ι) :
    volume extent (a :: axes) = extent a * volume extent axes := by
  rw [volume, List.map_cons, List.prod_cons, volume]

@[simp] theorem position_nil : position extent index [] = 0 := rfl

@[simp] theorem position_cons (a : ι) (axes : List ι) :
    position extent index (a :: axes) =
      index a * volume extent axes + position extent index axes := rfl

theorem volume_perm {left right : List ι} (h : left.Perm right) :
    volume extent left = volume extent right := (h.map extent).prod_eq

theorem volume_moving (axes : List ι) : volume extent (moving extent axes) = volume extent axes := by
  induction axes with
  | nil => rfl
  | cons a axes ih =>
    by_cases h : extent a = 1
    · rw [moving, List.filter_cons_of_neg (by simp [h]), volume_cons, h, Nat.one_mul]
      exact ih
    · rw [moving, List.filter_cons_of_pos (by simp [h]), volume_cons, volume_cons]
      exact congrArg (extent a * ·) ih

variable {extent index}

theorem volume_pos {axes : List ι} (h : ∀ a ∈ axes, 0 < extent a) : 0 < volume extent axes := by
  induction axes with
  | nil => exact Nat.one_pos
  | cons a axes ih =>
    rw [volume_cons]
    exact Nat.mul_pos (h a List.mem_cons_self) (ih fun b hb => h b (List.mem_cons_of_mem a hb))

theorem Within.head {a : ι} {axes : List ι} (h : Within extent index (a :: axes)) :
    index a < extent a := h a List.mem_cons_self

theorem Within.tail {a : ι} {axes : List ι} (h : Within extent index (a :: axes)) :
    Within extent index axes := fun b hb => h b (List.mem_cons_of_mem a hb)

theorem Within.perm {left right : List ι} (h : Within extent index left) (hPerm : left.Perm right) :
    Within extent index right := fun a ha => h a (hPerm.mem_iff.mpr ha)

theorem position_congr {index' : ι → Nat} {axes : List ι} (h : ∀ a ∈ axes, index' a = index a) :
    position extent index' axes = position extent index axes := by
  induction axes with
  | nil => rfl
  | cons a axes ih =>
    rw [position_cons, position_cons, h a List.mem_cons_self,
      ih fun b hb => h b (List.mem_cons_of_mem a hb)]

theorem position_lt_volume {axes : List ι} (h : Within extent index axes) :
    position extent index axes < volume extent axes := by
  induction axes with
  | nil => exact Nat.one_pos
  | cons a axes ih =>
    have hTail := ih h.tail
    have hHead : index a + 1 ≤ extent a := h.head
    calc
      index a * volume extent axes + position extent index axes
          < index a * volume extent axes + volume extent axes := by omega
      _ = (index a + 1) * volume extent axes := by ring
      _ ≤ extent a * volume extent axes := Nat.mul_le_mul_right _ hHead
      _ = volume extent (a :: axes) := (volume_cons extent a axes).symm

/-- Axes of extent one only carry the index zero, so they do not move the position. -/
theorem position_moving {axes : List ι} (h : Within extent index axes) :
    position extent index (moving extent axes) = position extent index axes := by
  induction axes with
  | nil => rfl
  | cons a axes ih =>
    have hTail := ih h.tail
    by_cases hUnit : extent a = 1
    · have hZero : index a = 0 := by have := h.head; omega
      rw [moving, List.filter_cons_of_neg (by simp [hUnit]), position_cons, hZero, Nat.zero_mul,
        Nat.zero_add]
      exact hTail
    · rw [moving, List.filter_cons_of_pos (by simp [hUnit]), position_cons, position_cons]
      rw [← moving, hTail, volume_moving]

end Arithmetic

/-! ## When two axis orders agree -/

section Agreement

variable [DecidableEq ι] {extent : ι → Nat}

def unit (axis : ι) : ι → Nat := fun a => if a = axis then 1 else 0

theorem unit_within (axis : ι) {axes : List ι} (h : ∀ a ∈ axes, 2 ≤ extent a) :
    Within extent (unit axis) axes := by
  intro a ha
  have := h a ha
  unfold unit
  split <;> omega

theorem position_unit_of_not_mem {axis : ι} {axes : List ι} (h : axis ∉ axes) :
    position extent (unit axis) axes = 0 := by
  induction axes with
  | nil => rfl
  | cons a axes ih =>
    have hNe : a ≠ axis := fun hEq => h (hEq ▸ List.mem_cons_self)
    have hTail := ih fun hMem => h (List.mem_cons_of_mem a hMem)
    rw [position_cons, hTail, unit, if_neg hNe, Nat.zero_mul]

theorem position_unit_head {axis : ι} {axes : List ι} (h : axis ∉ axes) :
    position extent (unit axis) (axis :: axes) = volume extent axes := by
  rw [position_cons, position_unit_of_not_mem h, unit, if_pos rfl, Nat.one_mul, Nat.add_zero]

theorem position_unit_mul_lt {axis : ι} {axes : List ι} (hExtent : ∀ a ∈ axes, 2 ≤ extent a)
    (hNodup : axes.Nodup) (hMem : axis ∈ axes) :
    position extent (unit axis) axes * extent axis ≤ volume extent axes := by
  induction axes with
  | nil => cases hMem
  | cons a axes ih =>
    have hTail : ∀ b ∈ axes, 2 ≤ extent b := fun b hb => hExtent b (List.mem_cons_of_mem a hb)
    obtain ⟨hFresh, hNodup⟩ := List.nodup_cons.mp hNodup
    by_cases hEq : axis = a
    · subst hEq
      rw [position_unit_head hFresh, volume_cons, Nat.mul_comm]
    · have hBelow : axis ∈ axes := (List.mem_cons.mp hMem).resolve_left hEq
      have hStep := ih hTail hNodup hBelow
      have hHead := hExtent a List.mem_cons_self
      rw [position_cons, unit, if_neg (Ne.symm hEq), Nat.zero_mul, Nat.zero_add, volume_cons]
      calc
        position extent (unit axis) axes * extent axis ≤ volume extent axes := hStep
        _ ≤ extent a * volume extent axes := Nat.le_mul_of_pos_left _ (by omega)

/-- Orders that address every multi-index alike are equal, when every axis can move. -/
theorem order_eq_of_position_eq {left right : List ι} (hPerm : left.Perm right)
    (hNodup : left.Nodup) (hExtent : ∀ a ∈ left, 2 ≤ extent a)
    (hAgree : ∀ index, Within extent index left →
      position extent index left = position extent index right) : left = right := by
  induction left generalizing right with
  | nil => exact hPerm.nil_eq
  | cons a left ih =>
    cases right with
    | nil => exact absurd hPerm.symm.nil_eq (by simp)
    | cons b right =>
      obtain ⟨hFresh, hNodupTail⟩ := List.nodup_cons.mp hNodup
      have hNodupRight : (b :: right).Nodup := hPerm.nodup_iff.mp hNodup
      have hExtentRight : ∀ c ∈ b :: right, 2 ≤ extent c := fun c hc =>
        hExtent c (hPerm.mem_iff.mpr hc)
      have hExtentTail : ∀ c ∈ left, 2 ≤ extent c := fun c hc =>
        hExtent c (List.mem_cons_of_mem a hc)
      have hVolume := volume_perm extent hPerm
      have hHead : a = b := by
        by_contra hNe
        have hBelow : a ∈ right :=
          (List.mem_cons.mp (hPerm.mem_iff.mp List.mem_cons_self)).resolve_left hNe
        have hUnit := hAgree (unit a) (unit_within a hExtent)
        obtain ⟨_, hNodupRightTail⟩ := List.nodup_cons.mp hNodupRight
        have hStep := position_unit_mul_lt (fun c hc => hExtentRight c (List.mem_cons_of_mem b hc))
          hNodupRightTail hBelow
        have hPos : 0 < volume extent right := volume_pos fun c hc =>
          lt_of_lt_of_le Nat.two_pos (hExtentRight c (List.mem_cons_of_mem b hc))
        have hb := hExtentRight b List.mem_cons_self
        rw [position_unit_head hFresh, position_cons, unit, if_neg (Ne.symm hNe), Nat.zero_mul,
          Nat.zero_add] at hUnit
        rw [volume_cons, volume_cons, hUnit] at hVolume
        have hTwice : 2 * volume extent right ≤ extent b * volume extent right :=
          Nat.mul_le_mul_right _ hb
        have hComm : extent a * position extent (unit a) right =
            position extent (unit a) right * extent a := Nat.mul_comm _ _
        omega
      subst hHead
      have hPermTail : left.Perm right := (List.perm_cons a).mp hPerm
      rw [ih hPermTail hNodupTail hExtentTail]
      intro index hIndex
      have hZeroed : ∀ axes, a ∉ axes →
          position extent (Function.update index a 0) axes = position extent index axes := by
        intro axes hNotMem
        apply position_congr
        intro c hc
        have hNe : c ≠ a := fun hEq => hNotMem (hEq ▸ hc)
        exact Function.update_of_ne hNe 0 index
      have hWithin : Within extent (Function.update index a 0) (a :: left) := by
        intro c hc
        by_cases hEq : c = a
        · subst hEq
          rw [Function.update_self]
          have := hExtent c List.mem_cons_self
          omega
        · rw [Function.update_of_ne hEq]
          exact hIndex c ((List.mem_cons.mp hc).resolve_left hEq)
      have hFull := hAgree _ hWithin
      have hFreshRight : a ∉ right := fun hMem => hFresh (hPermTail.mem_iff.mpr hMem)
      rw [position_cons, position_cons, Function.update_self, Nat.zero_mul, Nat.zero_mul,
        Nat.zero_add, Nat.zero_add, hZeroed left hFresh, hZeroed right hFreshRight] at hFull
      exact hFull

/-- With no empty axis, two orders of the same axes address the buffer alike exactly when they
list the moving axes in the same order. -/
theorem position_eq_iff {left right : List ι} (hPerm : left.Perm right) (hNodup : left.Nodup)
    (hPos : ∀ a ∈ left, 0 < extent a) :
    (∀ index, Within extent index left → position extent index left = position extent index right) ↔
      moving extent left = moving extent right := by
  constructor
  · intro hAgree
    have hExtent : ∀ a ∈ moving extent left, 2 ≤ extent a := by
      intro a ha
      have hMem := List.mem_filter.mp ha
      have hBound := hPos a hMem.1
      have hNe : extent a ≠ 1 := by simpa using hMem.2
      omega
    have hMovingPerm : (moving extent left).Perm (moving extent right) := hPerm.filter _
    apply order_eq_of_position_eq hMovingPerm (hNodup.filter _) hExtent
    intro index hIndex
    -- off the moving axes the only multi-index is zero
    have hZeroed : ∀ axes : List ι, position extent
        (fun a => if extent a = 1 then 0 else index a) (moving extent axes) =
          position extent index (moving extent axes) := by
      intro axes
      apply position_congr
      intro a ha
      have hNe : extent a ≠ 1 := by simpa using (List.mem_filter.mp ha).2
      rw [if_neg hNe]
    have hWithin : Within extent (fun a => if extent a = 1 then 0 else index a) left := by
      intro a ha
      dsimp only
      split
      · exact hPos a ha
      · rename_i hNe
        exact hIndex a (List.mem_filter.mpr ⟨ha, by simpa using hNe⟩)
    have hFull := hAgree _ hWithin
    rw [← position_moving hWithin, ← position_moving (hWithin.perm hPerm)] at hFull
    rw [← hZeroed left, ← hZeroed right, hFull]
  · intro hMoving index hIndex
    rw [← position_moving hIndex, ← position_moving (hIndex.perm hPerm), hMoving]

omit [DecidableEq ι] in
/-- Against the increasing order the condition is that the moving axes come in increasing order. -/
theorem moving_eq_iff_pairwise [LinearOrder ι] {left sorted : List ι} (hPerm : left.Perm sorted)
    (hSorted : sorted.Pairwise (· < ·)) :
    moving extent left = moving extent sorted ↔ (moving extent left).Pairwise (· < ·) := by
  constructor
  · intro h
    rw [h]
    exact hSorted.filter _
  · intro h
    exact (hPerm.filter _).eq_of_pairwise (fun _ _ _ _ hab hba => absurd hab (lt_asymm hba))
      h (hSorted.filter _)

end Agreement

/-! ## Enumeration of the multi-indices in buffer order -/

section Enumeration

variable [DecidableEq ι] (extent : ι → Nat)

def unravel : List ι → Nat → ι → Nat
  | [], _ => fun _ => 0
  | a :: axes, p =>
    Function.update (unravel axes (p % volume extent axes)) a (p / volume extent axes)

variable {extent}

theorem unravel_within {axes : List ι} (hNodup : axes.Nodup) {p : Nat}
    (h : p < volume extent axes) : Within extent (unravel extent axes p) axes := by
  induction axes generalizing p with
  | nil => simp [Within]
  | cons a axes ih =>
    obtain ⟨hFresh, hNodup⟩ := List.nodup_cons.mp hNodup
    rw [volume_cons] at h
    have hTail : 0 < volume extent axes := Nat.pos_of_mul_pos_left (Nat.zero_lt_of_lt h)
    intro b hb
    rw [unravel]
    rcases List.mem_cons.mp hb with rfl | hb
    · rw [Function.update_self]
      exact (Nat.div_lt_iff_lt_mul hTail).mpr h
    · have hNe : b ≠ a := fun hEq => hFresh (hEq ▸ hb)
      rw [Function.update_of_ne hNe]
      exact ih hNodup (Nat.mod_lt _ hTail) b hb

/-- Every place of the buffer belongs to a multi-index. -/
theorem position_unravel {axes : List ι} (hNodup : axes.Nodup) {p : Nat}
    (h : p < volume extent axes) : position extent (unravel extent axes p) axes = p := by
  induction axes generalizing p with
  | nil =>
    rw [volume_nil] at h
    rw [position_nil]
    omega
  | cons a axes ih =>
    obtain ⟨hFresh, hNodup⟩ := List.nodup_cons.mp hNodup
    rw [volume_cons] at h
    have hTail : 0 < volume extent axes := Nat.pos_of_mul_pos_left (Nat.zero_lt_of_lt h)
    have hBelow : position extent (unravel extent (a :: axes) p) axes =
        position extent (unravel extent axes (p % volume extent axes)) axes := by
      apply position_congr
      intro b hb
      have hNe : b ≠ a := fun hEq => hFresh (hEq ▸ hb)
      rw [unravel, Function.update_of_ne hNe]
    rw [position_cons, hBelow, ih hNodup (Nat.mod_lt _ hTail), unravel, Function.update_self,
      Nat.mul_comm]
    exact Nat.div_add_mod p _

end Enumeration

/-! ## Elements of fixed size in a flat buffer -/

section Blocks

universe v

variable {β : Type v}

def block (buffer : List β) (size p : Nat) : List β := (buffer.drop (p * size)).take size

theorem block_map_range (g : Nat → β) {size p n : Nat} (h : p < n) :
    block ((List.range (n * size)).map g) size p = (List.range size).map fun b => g (p * size + b) := by
  have hRoom : p * size + size ≤ n * size := by
    rw [← Nat.succ_mul]
    exact Nat.mul_le_mul_right size h
  apply List.ext_getElem
  · simp only [block, List.length_take, List.length_drop, List.length_map, List.length_range]
    omega
  · intro i hi hi'
    simp [block]

theorem length_flatMap_range {f : Nat → List β} {size : Nat} (n : Nat)
    (h : ∀ p < n, (f p).length = size) : ((List.range n).flatMap f).length = n * size := by
  induction n with
  | zero => simp
  | succ n ih =>
    rw [List.range_succ, List.flatMap_append, List.length_append, ih fun p hp => h p (by omega)]
    simp [h n (by omega), Nat.succ_mul]

end Blocks

/-! ## Strided access -/

section Strides

variable (extent index : ι → Nat) (stride : ι → Int)

/-- Byte offset of a multi-index under arbitrary strides. -/
def stridedOffset (axes : List ι) : Int := (axes.map fun a => (index a : Int) * stride a).sum

/-- The strides of a dense buffer in the listed order, up to axes that cannot move. -/
def Contiguous (item : Nat) : List ι → Prop
  | [] => True
  | a :: axes => (extent a = 1 ∨ stride a = (item * volume extent axes : Nat)) ∧
      Contiguous item axes

instance decidableContiguous (item : Nat) : (axes : List ι) →
    Decidable (Contiguous extent stride item axes)
  | [] => inferInstanceAs (Decidable True)
  | _ :: axes =>
    have := decidableContiguous item axes
    inferInstanceAs (Decidable ((_ ∨ _) ∧ _))

end Strides

end DenseLayout
