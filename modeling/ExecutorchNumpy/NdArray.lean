import ExecutorchNumpy.Library.DenseLayout
import ExecutorchNumpy.Errors
import Mathlib.Data.List.GetD

/-! # numpy arrays as the binding sees them

An array is a window on byte-addressed memory with arbitrary byte strides. The
two contiguity mechanisms of the package, `np.ascontiguousarray` and nanobind's
`c_contig` cast, are modelled by what their documentation promises.
-/

namespace ExecutorchNumpy
set_option autoImplicit false

open DenseLayout

/-- DLPack type codes; `unexportable` stands for the dtypes nanobind cannot import at all. -/
inductive DtypeCode where
  | int
  | uint
  | float
  | bool
  | other (code : Nat)
  | unexportable
  deriving DecidableEq, Repr

structure DType where
  code : DtypeCode
  bits : Nat
  bits_mod : bits % 8 = 0
  deriving DecidableEq, Repr

def DType.itemsize (d : DType) : Nat := d.bits / 8

def DType.float32 : DType := ⟨.float, 32, rfl⟩

def DType.uint8 : DType := ⟨.uint, 8, rfl⟩

/-! ## Shapes -/

def extent (shape : List Nat) (axis : Nat) : Nat := shape.getD axis 1

def axes (shape : List Nat) : List Nat := List.range shape.length

def InBounds (shape : List Nat) (index : Nat → Nat) : Prop :=
  Within (extent shape) index (axes shape)

def rowMajor (shape : List Nat) (index : Nat → Nat) : Nat :=
  position (extent shape) index (axes shape)

theorem volume_range' (shape : List Nat) (k n : Nat) (h : k + n = shape.length) :
    volume (extent shape) (List.range' k n) = (shape.drop k).prod := by
  induction n generalizing k with
  | zero => rw [List.drop_of_length_le (by omega)]; rfl
  | succ n ih =>
    have hk : k < shape.length := by omega
    rw [List.range'_succ, volume_cons, ih (k + 1) (by omega), List.drop_eq_getElem_cons hk,
      List.prod_cons, extent, List.getD_eq_getElem _ _ hk]

theorem volume_axes (shape : List Nat) : volume (extent shape) (axes shape) = shape.prod := by
  rw [axes, List.range_eq_range', volume_range' shape 0 shape.length (by omega), List.drop_zero]

theorem rowMajor_lt {shape : List Nat} {index : Nat → Nat} (h : InBounds shape index) :
    rowMajor shape index < shape.prod := by
  rw [← volume_axes]
  exact position_lt_volume h

/-! ## Arrays -/

structure NdArray where
  dtype : DType
  shape : List Nat
  strides : List Int
  data : Int
  memory : Int → UInt8

structure CArray where
  dtype : DType
  shape : List Nat
  bytes : ByteString
  bytes_length : bytes.length = shape.prod * dtype.itemsize
  deriving DecidableEq, Repr

def CArray.element (c : CArray) (index : Nat → Nat) : ByteString :=
  block c.bytes c.dtype.itemsize (rowMajor c.shape index)

namespace NdArray

def stride (a : NdArray) (axis : Nat) : Int := a.strides.getD axis 0

def element (a : NdArray) (index : Nat → Nat) : ByteString :=
  (List.range a.dtype.itemsize).map fun b : Nat =>
    a.memory (a.data + stridedOffset index a.stride (axes a.shape) + b)

/-- The flag `C_CONTIGUOUS`; an array without elements has it whatever its strides are. -/
def isCContiguous (a : NdArray) : Bool :=
  decide (0 ∈ a.shape ∨ Contiguous (extent a.shape) a.stride a.dtype.itemsize (axes a.shape))

def view (a : NdArray) : CArray where
  dtype := a.dtype
  shape := a.shape
  bytes := (List.range (a.shape.prod * a.dtype.itemsize)).map fun i : Nat => a.memory (a.data + i)
  bytes_length := by simp

def copyC (a : NdArray) : CArray where
  dtype := a.dtype
  shape := a.shape
  bytes := (List.range a.shape.prod).flatMap fun p =>
    a.element (unravel (extent a.shape) (axes a.shape) p)
  bytes_length := length_flatMap_range a.shape.prod (by simp [element])

/-- `nb::cast<nb::ndarray<nb::c_contig>>`: the array itself when it is contiguous, else a copy. -/
def cContig (a : NdArray) : CArray := if a.isCContiguous then a.view else a.copyC

@[simp] theorem cContig_dtype (a : NdArray) : a.cContig.dtype = a.dtype := by
  unfold cContig
  split <;> rfl

@[simp] theorem cContig_shape (a : NdArray) : a.cContig.shape = a.shape := by
  unfold cContig
  split <;> rfl

end NdArray

/-! ## Arrays made by numpy itself -/

def rowMajorStrides (itemsize : Nat) (shape : List Nat) : List Int :=
  (List.range shape.length).map fun k => ((itemsize * (shape.drop (k + 1)).prod : Nat) : Int)

def CArray.toNdArray (c : CArray) : NdArray where
  dtype := c.dtype
  shape := c.shape
  strides := rowMajorStrides c.dtype.itemsize c.shape
  data := 0
  memory i := c.bytes.getD i.toNat 0

theorem contiguous_rowMajorStrides (itemsize : Nat) (shape : List Nat) :
    Contiguous (extent shape) (fun k => (rowMajorStrides itemsize shape).getD k 0) itemsize
      (axes shape) := by
  have hSuffix : ∀ n k, k + n = shape.length →
      Contiguous (extent shape) (fun k => (rowMajorStrides itemsize shape).getD k 0) itemsize
        (List.range' k n) := by
    intro n
    induction n with
    | zero => intro k _; trivial
    | succ n ih =>
      intro k hk
      rw [List.range'_succ]
      refine ⟨Or.inr ?_, ih (k + 1) (by omega)⟩
      rw [volume_range' shape (k + 1) n (by omega)]
      have hRoom : k < (rowMajorStrides itemsize shape).length := by
        simp only [rowMajorStrides, List.length_map, List.length_range]
        omega
      dsimp only
      rw [List.getD_eq_getElem _ _ hRoom]
      simp [rowMajorStrides]
  rw [axes, List.range_eq_range']
  exact hSuffix shape.length 0 (by omega)

theorem CArray.toNdArray_isCContiguous (c : CArray) : c.toNdArray.isCContiguous = true :=
  decide_eq_true (Or.inr (contiguous_rowMajorStrides c.dtype.itemsize c.shape))

theorem CArray.cContig_toNdArray (c : CArray) : c.toNdArray.cContig = c := by
  obtain ⟨dtype, shape, bytes, hLength⟩ := c
  rw [NdArray.cContig, if_pos (CArray.toNdArray_isCContiguous _)]
  simp only [NdArray.view, CArray.toNdArray, CArray.mk.injEq, true_and]
  apply List.ext_getElem
  · simp [hLength]
  · intro i hi hi'
    have hGet : bytes.getD i 0 = bytes[i] := List.getD_eq_getElem _ _ hi'
    simpa using hGet

/-- `np.ascontiguousarray`: C order with the same elements and at least one dimension. -/
def ascontiguousarray (a : NdArray) : NdArray :=
  if a.shape = [] then { a with shape := [1], strides := [(a.dtype.itemsize : Int)] }
  else if a.isCContiguous then a
  else a.copyC.toNdArray

theorem ascontiguousarray_dtype (a : NdArray) : (ascontiguousarray a).dtype = a.dtype := by
  unfold ascontiguousarray
  split
  · rfl
  · split <;> rfl

theorem ascontiguousarray_scalar_shape {a : NdArray} (h : a.shape = []) :
    (ascontiguousarray a).shape = [1] := by
  rw [ascontiguousarray, if_pos h]

/-- On arrays of positive rank the two mechanisms build the same buffer. -/
theorem cContig_ascontiguousarray {a : NdArray} (h : a.shape ≠ []) :
    (ascontiguousarray a).cContig = a.cContig := by
  rw [ascontiguousarray, if_neg h]
  split
  · rfl
  · rename_i hStrided
    rw [CArray.cContig_toNdArray, NdArray.cContig, if_neg hStrided]

def oneByte (value : UInt8) : NdArray := ⟨DType.uint8, [1], [1], 0, fun _ => value⟩

end ExecutorchNumpy
