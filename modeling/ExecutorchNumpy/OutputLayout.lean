import ExecutorchNumpy.OutputLists

/-! # Logical contents of output tensors

An output tensor leaves the core as bytes and a shape; its dim order is dropped
on the way, and numpy reads the bytes in row-major order. The array therefore
has the tensor's elements at their places exactly for the dim orders that
address the buffer as row-major order does.
-/

namespace ExecutorchNumpy
set_option autoImplicit false

open Executorch (EValue Module Tensor readBytes constantModule)
open DenseLayout Traverse

structure Layout where
  sizes : List Int
  dimOrder : List Nat
  sizes_range : ∀ s ∈ sizes, 0 ≤ s ∧ s < 2 ^ 31
  dimOrder_perm : dimOrder.Perm (List.range sizes.length)

namespace Layout

def shape (l : Layout) : List Nat := l.sizes.map Int.toNat

def tensor (l : Layout) (type : ScalarType) : Tensor where
  sizes := l.sizes
  scalarType := type.code
  dimOrder := l.dimOrder
  dataPtr := 0
  elementSize := type.npDtype.itemsize
  sizes_range := l.sizes_range
  dimOrder_perm := l.dimOrder_perm
  elementSize_eq := by
    intro t hCode
    have hSome := ScalarType.ofCode?_code t
    rw [hCode, ScalarType.ofCode?_code] at hSome
    rw [Option.some.inj hSome]

/-- Every tensor of this layout and type that an execution returns, in any program and at any
position of the output list, comes out of `run_method` with its elements at their multi-indices. -/
def KeepsElements (l : Layout) (type : ScalarType) : Prop :=
  ∀ (σ : Type) (M : Module σ) (host : Host) (env : Env) (name : Utf8String) (arrs : List NdArray)
    (s : RuntimeState σ) (evs : List EValue) (after : σ) (i : Nat) (t : Tensor)
    (values : List PyValue),
    Executes M host env name arrs s evs after → evs[i]? = some (.tensor t) →
    t.sizes = l.sizes → t.dimOrder = l.dimOrder → t.scalarType = type.code →
    (Bound.runMethod M host env name arrs s).1 = .ok values →
    ∃ a, values[i]? = some (.ndarray a) ∧ a.shape = l.shape ∧
      ∀ index, InBounds l.shape index → a.element index = t.element (M.memory after) index

/-- The tensor is empty, or the dim order lists its axes of extent other than one in increasing
order. -/
def ReadsRowMajor (l : Layout) : Prop :=
  (0 : Int) ∈ l.sizes ∨ (moving (extent l.shape) l.dimOrder).Pairwise (· < ·)

instance (l : Layout) : Decidable l.ReadsRowMajor :=
  inferInstanceAs (Decidable (_ ∨ _))

theorem perm_axes (l : Layout) : l.dimOrder.Perm (axes l.shape) := by
  rw [axes, shape, List.length_map]
  exact l.dimOrder_perm

theorem extent_pos {l : Layout} (h : (0 : Int) ∉ l.sizes) :
    ∀ a ∈ l.dimOrder, 0 < extent l.shape a := by
  intro a ha
  have hRoom : a < l.shape.length := List.mem_range.mp (l.perm_axes.mem_iff.mp ha)
  rw [extent, List.getD_eq_getElem _ _ hRoom]
  have hSize : a < l.sizes.length := by simpa [shape] using hRoom
  have hMem : l.sizes[a] ∈ l.sizes := List.getElem_mem hSize
  have hRange := l.sizes_range _ hMem
  have hNe : l.sizes[a] ≠ 0 := fun hEq => h (hEq ▸ hMem)
  simp only [shape, List.getElem_map]
  omega

theorem not_inBounds_of_empty {l : Layout} (h : (0 : Int) ∈ l.sizes) (index : Nat → Nat) :
    ¬ InBounds l.shape index := by
  intro hIndex
  obtain ⟨a, ha, hZero⟩ := List.getElem_of_mem h
  have hRoom : a < l.shape.length := by simpa [shape] using ha
  have hLt := hIndex a (List.mem_range.mpr hRoom)
  rw [extent, List.getD_eq_getElem _ _ hRoom] at hLt
  simp [shape, hZero] at hLt

/-- Another order of the axes addresses the buffer as the dim order does. -/
theorem position_eq_iff (l : Layout) {order : List Nat}
    (hOrder : order.Perm (List.range l.sizes.length)) :
    (∀ index, InBounds l.shape index →
      position (extent l.shape) index l.dimOrder = position (extent l.shape) index order) ↔
      (0 : Int) ∈ l.sizes ∨
        moving (extent l.shape) l.dimOrder = moving (extent l.shape) order := by
  by_cases hEmpty : (0 : Int) ∈ l.sizes
  · exact ⟨fun _ => Or.inl hEmpty,
      fun _ index hIndex => absurd hIndex (not_inBounds_of_empty hEmpty index)⟩
  · have hNodup : l.dimOrder.Nodup := l.dimOrder_perm.nodup_iff.mpr List.nodup_range
    have hPerm : l.dimOrder.Perm order := l.dimOrder_perm.trans hOrder.symm
    rw [or_iff_right hEmpty, ← DenseLayout.position_eq_iff hPerm hNodup (extent_pos hEmpty)]
    constructor
    · intro h index hIndex
      exact h index (hIndex.perm l.perm_axes)
    · intro h index hIndex
      exact h index (hIndex.perm l.perm_axes.symm)

theorem readsRowMajor_iff (l : Layout) :
    l.ReadsRowMajor ↔ ∀ index, InBounds l.shape index →
      position (extent l.shape) index l.dimOrder = rowMajor l.shape index := by
  have hAxes : (axes l.shape).Perm (List.range l.sizes.length) :=
    l.perm_axes.symm.trans l.dimOrder_perm
  have hSorted : (axes l.shape).Pairwise (· < ·) := List.pairwise_lt_range
  rw [ReadsRowMajor, ← moving_eq_iff_pairwise l.perm_axes hSorted]
  exact (l.position_eq_iff hAxes).symm

end Layout

theorem ndarray_of_executes {σ : Type} {M : Module σ} {host : Host} {env : Env} {name : Utf8String}
    {arrs : List NdArray} {s : RuntimeState σ} {evs : List EValue} {after : σ} {i : Nat} {t : Tensor}
    {values : List PyValue} (h : Executes M host env name arrs s evs after)
    (hAt : evs[i]? = some (.tensor t)) (hValues : (Bound.runMethod M host env name arrs s).1 = .ok values) :
    ∃ d, scalarTypeToNumpy t.scalarType = .ok d ∧
      values[i]? = some (.ndarray (rowMajorArray (M.memory after) t d)) := by
  rw [runMethod_of_executes h] at hValues
  split at hValues
  · cases hAll : traverseFrom (convert (M.memory after) name) 0 evs with
    | error e =>
      rw [hAll] at hValues
      cases hValues
    | ok converted =>
      rw [hAll] at hValues
      cases hValues
      obtain ⟨v, hv, hConvert⟩ := (traverse_eq_ok_iff.mp hAll).2 i _ hAt
      rw [convert] at hConvert
      cases hDtype : scalarTypeToNumpy t.scalarType with
      | error e =>
        rw [hDtype] at hConvert
        cases hConvert
      | ok d =>
        rw [hDtype] at hConvert
        cases hConvert
        exact ⟨d, rfl, hv⟩
  · cases hValues

def markAt (address : Nat) : Nat → UInt8 := fun i => if i = address then 1 else 0

theorem readBytes_markAt_ne {p q size : Nat} (hSize : 0 < size) (h : p ≠ q) :
    readBytes (markAt (p * size)) (p * size) size ≠ readBytes (markAt (p * size)) (q * size) size := by
  intro hEq
  have hFirst := congrArg List.head? hEq
  obtain ⟨n, rfl⟩ : ∃ n, size = n + 1 := ⟨size - 1, by omega⟩
  simp only [readBytes, List.range_succ_eq_map, List.map_cons, List.head?_cons, Nat.add_zero,
    Option.some.injEq, markAt, if_true] at hFirst
  have hNe : q * (n + 1) ≠ p * (n + 1) := fun hMul => h (Nat.eq_of_mul_eq_mul_right hSize hMul).symm
  rw [if_neg hNe] at hFirst
  cases hFirst

theorem run_constant_tensor (l : Layout) (type : ScalarType) (memory : Nat → UInt8) :
    (Bound.runMethod (constantModule [.tensor (l.tensor type)] memory) ⟨false, [], fun _ => none⟩ none
      ⟨cxx "get_tensor", valid_cxx _⟩ [] ⟨(), false⟩).1 =
        .ok [.ndarray (rowMajorArray memory (l.tensor type) type.npDtype)] := by
  have hExecutes : Executes (constantModule [.tensor (l.tensor type)] memory)
      ⟨false, [], fun _ => none⟩ none (cxx "get_tensor") [] ⟨(), false⟩ [.tensor (l.tensor type)] () :=
    ⟨[], rfl, rfl, rfl⟩
  have hDtype : scalarTypeToNumpy (l.tensor type).scalarType = .ok type.npDtype :=
    (scalarTypeToNumpy_eq_ok_iff _ _).mpr ⟨type, rfl, rfl⟩
  rw [runMethod_of_executes hExecutes, if_pos (by simp [Supported]), traverseFrom, convert, hDtype]
  rfl

/-- Output tensors keep their logical contents exactly in the layouts that read as row-major. -/
theorem outputs_keep_elements_iff (l : Layout) (type : ScalarType) :
    l.KeepsElements type ↔ l.ReadsRowMajor := by
  constructor
  · intro hKeeps
    rw [Layout.readsRowMajor_iff]
    intro index hIndex
    by_contra hNe
    -- mark the byte where the tensor holds the element and look for it in the array
    let p := position (extent l.shape) index l.dimOrder
    let memory := markAt (p * type.npDtype.itemsize)
    have hExecutes : Executes (constantModule [.tensor (l.tensor type)] memory)
        ⟨false, [], fun _ => none⟩ none (cxx "get_tensor") [] ⟨(), false⟩
        [.tensor (l.tensor type)] () := ⟨[], rfl, rfl, rfl⟩
    obtain ⟨a, hArray, _, hElements⟩ := hKeeps Unit _ _ _ _ _ _ _ _ 0 (l.tensor type) _
      hExecutes rfl rfl rfl rfl (run_constant_tensor l type memory)
    cases hArray
    have hDtype : scalarTypeToNumpy (l.tensor type).scalarType = .ok type.npDtype :=
      (scalarTypeToNumpy_eq_ok_iff _ _).mpr ⟨type, rfl, rfl⟩
    have hElement := hElements index hIndex
    rw [rowMajorArray_element memory hDtype hIndex, Tensor.element] at hElement
    have hMarked := readBytes_markAt_ne (npDtype_itemsize_pos type) hNe
    apply hMarked
    simpa [memory, p, Layout.tensor, Tensor.shape, Layout.shape, constantModule] using hElement.symm
  · intro hReads σ M host env name arrs s evs after i t values hExecutes hAt hSizes hOrder hType hValues
    obtain ⟨d, hD, hArray⟩ := ndarray_of_executes hExecutes hAt hValues
    have hShape : t.shape = l.shape := by rw [Tensor.shape, hSizes, Layout.shape]
    refine ⟨_, hArray, hShape, ?_⟩
    intro index hIndex
    rw [rowMajorArray_element _ hD (by rwa [hShape]), Tensor.element, hShape, hOrder,
      l.readsRowMajor_iff.mp hReads index hIndex]

/-- A two by two tensor stored column by column, as a channels-last output is. -/
def columnMajor : Layout where
  sizes := [2, 2]
  dimOrder := [1, 0]
  sizes_range := by decide
  dimOrder_perm := by decide

/-- Its element in row 0, column 1 is the third byte of the buffer; the array has the second. -/
theorem columnMajor_output_permuted :
    ∃ a, (Bound.runMethod (constantModule [.tensor (columnMajor.tensor .byte)] (fun i => UInt8.ofNat i))
        ⟨false, [], fun _ => none⟩ none ⟨cxx "get_tensor", valid_cxx _⟩ [] ⟨(), false⟩).1 =
          .ok [.ndarray a] ∧
      a.shape = [2, 2] ∧ InBounds a.shape (fun axis => axis) ∧
      a.element (fun axis => axis) = [1] ∧
      (columnMajor.tensor .byte).element (fun i => UInt8.ofNat i) (fun axis => axis) = [2] := by
  refine ⟨_, run_constant_tensor columnMajor .byte _, rfl, ?_, rfl, rfl⟩
  unfold InBounds Within
  decide

end ExecutorchNumpy
