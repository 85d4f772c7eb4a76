import ExecutorchNumpy.OutputLayout

/-! # Input marshalling

An array travels numpy to `InputDesc` to ExecuTorch tensor and, through an
identity method, back. The dtype tables agree on the way, the bytes are those
of the array, and the extents survive when they fit ExecuTorch's `SizesType`.
-/

namespace ExecutorchNumpy
set_option autoImplicit false

open Executorch (EValue Module Tensor TensorPtr readBytes)
open DenseLayout Traverse

theorem dlpackDtype_bits (t : ScalarType) :
    (dlpackDtype t.npDtype).bits = t.npDtype.itemsize * 8 := by
  cases t <;> rfl

theorem inputScalarType_eq_ok_iff (d : DType) (st : Int) :
    inputScalarType d = .ok st ↔ ∃ type : ScalarType, type.code = st ∧ dlpackDtype type.npDtype = d := by
  obtain ⟨code, bits, hBits⟩ := d
  constructor
  · intro h
    unfold inputScalarType at h
    split at h
    · cases h
    · rename_i kind hKind
      split at h
      · cases h
      · rename_i st' hTable
        cases h
        obtain ⟨type, hCode, hRow⟩ := (numpyCodeToScalarType_eq_ok_iff _ _ _).mp hTable
        have hWidth : (dlpackDtype type.npDtype).bits = bits := by
          rw [dlpackDtype_bits, hRow]
          simp only [DType.itemsize]
          omega
        refine ⟨type, hCode, ?_⟩
        rw [DType.mk.injEq]
        refine ⟨?_, hWidth⟩
        cases code <;> cases hKind <;> cases type <;> first | rfl | cases hRow
  · rintro ⟨type, rfl, hDtype⟩
    rw [← hDtype]
    cases type <;> rfl

structure ContiguousArray where
  array : NdArray
  contiguous : array.isCContiguous = true
  extents : ∀ e ∈ array.shape, e < 2 ^ 63

namespace ContiguousArray

def handOver (a : ContiguousArray) : Except Thrown TensorPtr :=
  match makeHeldInput a.array with
  | .error t => .error t
  | .ok held => .ok (toTensorPtr held.desc)

def SupportedDtype (a : ContiguousArray) : Prop :=
  ∃ type : ScalarType, dlpackDtype type.npDtype = a.array.dtype

theorem handOver_eq (a : ContiguousArray) :
    a.handOver = match inputScalarType a.array.dtype with
      | .error t => .error t
      | .ok st => .ok ⟨a.array.view.bytes, a.array.shape.map fun e : Nat => toSizesType e, st⟩ := by
  have hView : a.array.cContig = a.array.view := by rw [NdArray.cContig, if_pos a.contiguous]
  have hDtype : a.array.view.dtype = a.array.dtype := rfl
  have hShape : a.array.view.shape = a.array.shape := rfl
  simp only [handOver, makeHeldInput, hView, hDtype, hShape]
  cases inputScalarType a.array.dtype with
  | error t => rfl
  | ok st => simp [toTensorPtr, Executorch.fromBlob, Function.comp_def]

/-- Through any program that answers with its input, the array comes back unchanged. -/
def ComesBack (a : ContiguousArray) (handed : TensorPtr) : Prop :=
  ∀ (σ : Type) (M : Module σ) (host : Host) (env : Env) (name : Utf8String) (s : RuntimeState σ)
    (after : σ) (o : Tensor),
    Executes M host env name [a.array] s [.tensor o] after →
    o.sizes = handed.sizes → o.scalarType = handed.scalarType → o.dimOrder = axes o.shape →
    readBytes (M.memory after) o.dataPtr o.nbytes = handed.data →
    (Bound.runMethod M host env name [a.array] s).1 = .ok [.ndarray a.array.view]

/-- The input path raises, or hands over the array as it is. -/
def RoundTripsOrRaises (a : ContiguousArray) : Prop :=
  ∀ handed, a.handOver = .ok handed →
    handed.sizes = a.array.shape.map Int.ofNat ∧
    (∃ type : ScalarType, type.code = handed.scalarType ∧
      type.npDtype.itemsize = a.array.dtype.itemsize) ∧
    handed.data = a.array.view.bytes ∧ a.ComesBack handed

end ContiguousArray

theorem toSizesType_of_lt {e : Nat} (h : e < 2 ^ 31) : toSizesType e = e := by
  rw [toSizesType]
  exact Int.bmod_eq_of_le (by omega) (by omega)

theorem toSizesType_lt (e : Int) : toSizesType e < 2 ^ 31 := by
  have hBound := Int.bmod_lt (x := e) (m := 2 ^ 32) (by decide)
  rw [toSizesType]
  omega

theorem map_toSizesType_eq_iff (shape : List Nat) :
    (shape.map fun e : Nat => toSizesType e) = shape.map Int.ofNat ↔ ∀ e ∈ shape, e < 2 ^ 31 := by
  rw [List.map_inj_left]
  constructor
  · intro h e he
    have hEq := h e he
    have hLt := toSizesType_lt e
    rw [hEq, Int.ofNat_eq_natCast] at hLt
    exact_mod_cast hLt
  · intro h e he
    exact toSizesType_of_lt (h e he)

theorem CArray.eq_of_parts {c c' : CArray} (hDtype : c.dtype = c'.dtype) (hShape : c.shape = c'.shape)
    (hBytes : c.bytes = c'.bytes) : c = c' := by
  obtain ⟨dtype, shape, bytes, hLength⟩ := c
  obtain ⟨dtype', shape', bytes', hLength'⟩ := c'
  subst hDtype hShape hBytes
  rfl

/-- The output half: the tensor of an identity method becomes the array that went in. -/
theorem comesBack_of_kept {a : ContiguousArray} {type : ScalarType}
    (hDtype : dlpackDtype type.npDtype = a.array.dtype) :
    a.ComesBack ⟨a.array.view.bytes, a.array.shape.map Int.ofNat, type.code⟩ := by
  intro σ M host env name s after o hExecutes hSizes hType hOrder hData
  have hMapped : scalarTypeToNumpy o.scalarType = .ok type.npDtype :=
    (scalarTypeToNumpy_eq_ok_iff _ _).mpr ⟨type, hType.symm, rfl⟩
  have hShape : o.shape = a.array.shape := by
    rw [Tensor.shape, hSizes, List.map_map]
    simp [Function.comp_def]
  rw [runMethod_of_executes hExecutes, if_pos (by simp [Supported]), traverseFrom, convert, hMapped]
  have hArray : rowMajorArray (M.memory after) o type.npDtype = a.array.view :=
    CArray.eq_of_parts hDtype hShape ((rowMajorArray_bytes (M.memory after) hMapped).trans hData)
  simp only [hArray]
  rfl

/-- Marshalling keeps the array or raises exactly when the dtype is refused or every extent fits a
32-bit signed integer. -/
theorem round_trips_or_raises_iff (a : ContiguousArray) :
    a.RoundTripsOrRaises ↔ ¬ a.SupportedDtype ∨ ∀ e ∈ a.array.shape, e < 2 ^ 31 := by
  rw [ContiguousArray.RoundTripsOrRaises, a.handOver_eq]
  cases hType : inputScalarType a.array.dtype with
  | error t =>
    have hRefused : ¬ a.SupportedDtype := by
      rintro ⟨type, hDtype⟩
      have hOk := (inputScalarType_eq_ok_iff _ _).mpr ⟨type, rfl, hDtype⟩
      rw [hType] at hOk
      cases hOk
    exact ⟨fun _ => Or.inl hRefused, fun _ handed h => by cases h⟩
  | ok st =>
    obtain ⟨type, hCode, hDtype⟩ := (inputScalarType_eq_ok_iff _ _).mp hType
    rw [or_iff_right (not_not_intro ⟨type, hDtype⟩), ← map_toSizesType_eq_iff]
    constructor
    · intro h
      exact (h _ rfl).1
    · intro hSizes handed hHanded
      cases hHanded
      refine ⟨hSizes, ⟨type, hCode, ?_⟩, rfl, ?_⟩
      · rw [← hDtype, DType.itemsize, dlpackDtype_bits, Nat.mul_div_cancel _ (by decide)]
      · rw [hSizes, ← hCode]
        exact comesBack_of_kept hDtype

def hugeEmpty : ContiguousArray where
  array := ⟨DType.float32, [2 ^ 32 + 1, 0], [0, 4], 0, fun _ => 0⟩
  contiguous := by decide
  extents := by decide

theorem hugeEmpty_handed_over_as_one_row :
    hugeEmpty.handOver = .ok ⟨[], [1, 0], ScalarType.float.code⟩ ∧
      ¬ hugeEmpty.RoundTripsOrRaises := by
  have hHanded : hugeEmpty.handOver = .ok ⟨[], [1, 0], ScalarType.float.code⟩ := by
    rw [ContiguousArray.handOver_eq]
    rfl
  refine ⟨hHanded, fun h => ?_⟩
  have hSizes := (h _ hHanded).1
  exact absurd hSizes (by decide)

end ExecutorchNumpy
