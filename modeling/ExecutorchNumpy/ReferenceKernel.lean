import ExecutorchNumpy.Library.ElementLoop
import ExecutorchNumpy.OutputLayout

/-! # The reference kernel

`triple_out` maps raw buffers place by place, while a place means the
multi-index that the dim order of its tensor gives it. It resizes `out` before
it looks at the dtypes.
-/

namespace ExecutorchNumpy
set_option autoImplicit false

open Executorch (Tensor Error readBytes)
open DenseLayout ElementLoop

def Error.Ok : Error := 0

def Error.InvalidArgument : Error := 0x12

theorem invalidArgument_ne_ok : Error.InvalidArgument ≠ Error.Ok := by decide

/-- `KernelRuntimeContext`: an error that a kernel reports replaces an earlier one. -/
structure KernelRuntimeContext where
  failureState : Error := Error.Ok
  deriving DecidableEq, Repr

def KernelRuntimeContext.fail (_ctx : KernelRuntimeContext) (error : Error) :
    KernelRuntimeContext := ⟨error⟩

/-- `resize_tensor`: whether `out` takes the sizes depends on its capacity and dynamism. -/
structure TensorResize where
  status : Tensor → List Int → Error
  rank : ∀ {out : Tensor} {sizes : List Int}, status out sizes = Error.Ok →
    sizes.length = out.sizes.length

def Tensor.withSizes (out input : Tensor) (hRank : input.sizes.length = out.sizes.length) : Tensor where
  sizes := input.sizes
  scalarType := out.scalarType
  dimOrder := out.dimOrder
  dataPtr := out.dataPtr
  elementSize := out.elementSize
  sizes_range := input.sizes_range
  dimOrder_perm := by
    rw [hRank]
    exact out.dimOrder_perm
  elementSize_eq := out.elementSize_eq

/-- `x * 3.0f` on the object representation of a float. -/
structure TimesThree where
  run : ByteString → ByteString
  length_run : ∀ bytes, (run bytes).length = 4

structure KernelRun where
  ctx : KernelRuntimeContext
  out : Tensor
  memory : Nat → UInt8

def tripleOut (resize : TensorResize) (timesThree : TimesThree) (ctx : KernelRuntimeContext)
    (input out : Tensor) (memory : Nat → UInt8) : KernelRun :=
  if hResize : resize.status out input.sizes = Error.Ok then
    let out := Tensor.withSizes out input (resize.rank hResize)
    if input.scalarType ≠ ScalarType.float.code then
      ⟨ctx.fail Error.InvalidArgument, out, memory⟩
    else if out.scalarType ≠ ScalarType.float.code then
      ⟨ctx.fail Error.InvalidArgument, out, memory⟩
    else
      ⟨ctx, out, mapLoop timesThree.run input.dataPtr out.dataPtr 4 input.numel memory⟩
  else ⟨ctx.fail Error.InvalidArgument, out, memory⟩

/-- What the kernel is for, in logical indices. -/
structure TriplesElements (resize : TensorResize) (input out : Tensor) : Prop where
  returned : ∀ (timesThree : TimesThree) (memory : Nat → UInt8) (run : KernelRun),
    tripleOut resize timesThree {} input out memory = run → run.ctx.failureState = Error.Ok →
      run.out.sizes = input.sizes ∧ ∀ index, InBounds input.shape index →
        run.out.element run.memory index = timesThree.run (input.element memory index)
  refused : ∀ (timesThree : TimesThree) (memory : Nat → UInt8) (run : KernelRun),
    tripleOut resize timesThree {} input out memory = run → run.ctx.failureState ≠ Error.Ok →
      run.out.sizes = out.sizes ∧ ∀ index, InBounds out.shape index →
        run.out.element run.memory index = out.element memory index

/-! ## The runs of the kernel -/

section Runs

variable {resize : TensorResize} {timesThree : TimesThree} {ctx : KernelRuntimeContext}
  {input out : Tensor} {memory : Nat → UInt8}

theorem tripleOut_of_resize_refused (h : resize.status out input.sizes ≠ Error.Ok) :
    tripleOut resize timesThree ctx input out memory = ⟨⟨Error.InvalidArgument⟩, out, memory⟩ := by
  rw [tripleOut, dif_neg h]
  rfl

theorem tripleOut_of_dtype_refused (h : resize.status out input.sizes = Error.Ok)
    (hDtype : ¬ (input.scalarType = ScalarType.float.code ∧ out.scalarType = ScalarType.float.code)) :
    tripleOut resize timesThree ctx input out memory =
      ⟨⟨Error.InvalidArgument⟩, Tensor.withSizes out input (resize.rank h), memory⟩ := by
  rw [tripleOut, dif_pos h]
  by_cases hInput : input.scalarType = ScalarType.float.code
  · have hOut : (Tensor.withSizes out input (resize.rank h)).scalarType ≠ ScalarType.float.code :=
      fun hOut => hDtype ⟨hInput, hOut⟩
    simp only [hInput, hOut, ne_eq, not_true_eq_false, not_false_eq_true, if_true, if_false]
    rfl
  · simp only [hInput, ne_eq, not_false_eq_true, if_true]
    rfl

theorem tripleOut_of_accepted (h : resize.status out input.sizes = Error.Ok)
    (hInput : input.scalarType = ScalarType.float.code)
    (hOut : out.scalarType = ScalarType.float.code) :
    tripleOut resize timesThree ctx input out memory =
      ⟨ctx, Tensor.withSizes out input (resize.rank h),
        mapLoop timesThree.run input.dataPtr out.dataPtr 4 input.numel memory⟩ := by
  have hOut' : (Tensor.withSizes out input (resize.rank h)).scalarType = ScalarType.float.code := hOut
  rw [tripleOut, dif_pos h]
  simp only [hInput, hOut', ne_eq, not_true_eq_false, if_false]
  rfl

end Runs

/-! ## Places and elements -/

namespace Executorch.Tensor

def layout (t : Tensor) : Layout := ⟨t.sizes, t.dimOrder, t.sizes_range, t.dimOrder_perm⟩

theorem numel_eq_volume (t : Tensor) : t.numel = volume (extent t.shape) t.dimOrder := by
  rw [numel, ← volume_axes]
  exact volume_perm _ t.layout.perm_axes.symm

theorem element_eq_load {t : Tensor} (hFloat : t.scalarType = ScalarType.float.code)
    (memory : Nat → UInt8) (index : Nat → Nat) :
    t.element memory index =
      load memory (t.dataPtr + position (extent t.shape) index t.dimOrder * 4) 4 := by
  have hSize : t.elementSize = 4 := t.elementSize_eq .float hFloat.symm
  rw [element, hSize]
  rfl

end Executorch.Tensor

theorem Tensor.withSizes_of_eq {out input : Tensor} (hRank : input.sizes.length = out.sizes.length)
    (hSizes : out.sizes = input.sizes) : Tensor.withSizes out input hRank = out := by
  cases out
  cases hSizes
  rfl

/-- Every multi-index of the input has its element at the same place of both buffers. -/
def AddressesAlike (input out : Tensor) : Prop :=
  (0 : Int) ∈ input.sizes ∨
    moving (extent input.shape) input.dimOrder = moving (extent input.shape) out.dimOrder

instance (input out : Tensor) : Decidable (AddressesAlike input out) :=
  inferInstanceAs (Decidable (_ ∨ _))

theorem addressesAlike_iff {input out : Tensor} (hRank : input.sizes.length = out.sizes.length) :
    AddressesAlike input out ↔ ∀ index, InBounds input.shape index →
      position (extent input.shape) index input.dimOrder =
        position (extent input.shape) index out.dimOrder := by
  have hOrder : out.dimOrder.Perm (List.range input.layout.sizes.length) := by
    rw [show input.layout.sizes.length = out.sizes.length from hRank]
    exact out.dimOrder_perm
  exact (input.layout.position_eq_iff hOrder).symm

theorem inBounds_unravel {t : Tensor} {p : Nat} (h : p < t.numel) :
    ∃ index, InBounds t.shape index ∧ position (extent t.shape) index t.dimOrder = p := by
  have hNodup : t.dimOrder.Nodup := t.dimOrder_perm.nodup_iff.mpr List.nodup_range
  rw [t.numel_eq_volume] at h
  exact ⟨unravel (extent t.shape) t.dimOrder p, (unravel_within hNodup h).perm t.layout.perm_axes,
    position_unravel hNodup h⟩

theorem position_lt_numel {t : Tensor} {index : Nat → Nat} (h : InBounds t.shape index) :
    position (extent t.shape) index t.dimOrder < t.numel := by
  rw [t.numel_eq_volume]
  exact position_lt_volume (h.perm t.layout.perm_axes.symm)

/-! ## When the kernel keeps its promise -/

/-- An operation that copies elements; any two bytes it is given remain distinguishable. -/
def TimesThree.copy : TimesThree where
  run bytes := (bytes ++ List.replicate 4 0).take 4
  length_run bytes := by
    rw [List.length_take, List.length_append, List.length_replicate]
    omega

theorem TimesThree.copy_run {bytes : ByteString} (h : bytes.length = 4) :
    TimesThree.copy.run bytes = bytes := by
  change (bytes ++ List.replicate 4 0).take 4 = bytes
  rw [← h, List.take_left]

section Conditions

variable {resize : TensorResize} {input out : Tensor}

theorem element_of_accepted (h : resize.status out input.sizes = Error.Ok)
    (hOut : out.scalarType = ScalarType.float.code) (memory : Nat → UInt8) (index : Nat → Nat) :
    (Tensor.withSizes out input (resize.rank h)).element memory index =
      load memory (out.dataPtr + position (extent input.shape) index out.dimOrder * 4) 4 :=
  @Executorch.Tensor.element_eq_load (Tensor.withSizes out input (resize.rank h)) hOut memory index

theorem loads_of_triplesElements (h : resize.status out input.sizes = Error.Ok)
    (hInput : input.scalarType = ScalarType.float.code)
    (hOut : out.scalarType = ScalarType.float.code) (hTriples : TriplesElements resize input out)
    (memory : Nat → UInt8) {index : Nat → Nat} (hIndex : InBounds input.shape index) :
    load (mapLoop TimesThree.copy.run input.dataPtr out.dataPtr 4 input.numel memory)
        (out.dataPtr + position (extent input.shape) index out.dimOrder * 4) 4 =
      load memory (input.dataPtr + position (extent input.shape) index input.dimOrder * 4) 4 := by
  obtain ⟨_, hElements⟩ := hTriples.returned TimesThree.copy memory _
    (tripleOut_of_accepted h hInput hOut) rfl
  have hElement := hElements index hIndex
  rw [element_of_accepted h hOut, Tensor.element_eq_load hInput,
    TimesThree.copy_run (length_load _ _ _)] at hElement
  exact hElement

theorem not_clobbers_of_triplesElements (h : resize.status out input.sizes = Error.Ok)
    (hInput : input.scalarType = ScalarType.float.code)
    (hOut : out.scalarType = ScalarType.float.code) (hTriples : TriplesElements resize input out) :
    ¬ Clobbers input.dataPtr out.dataPtr 4 input.numel := by
  intro hClobbers
  obtain ⟨i, hi, k, hk, hUnseen⟩ :=
    exists_unseen_of_clobbers TimesThree.copy.length_run hClobbers
  obtain ⟨index, hIndex, hPosition⟩ := inBounds_unravel hi
  let place := input.dataPtr + i * 4 + k
  have hBlank := loads_of_triplesElements h hInput hOut hTriples (fun _ => 0) hIndex
  have hMarked := loads_of_triplesElements h hInput hOut hTriples
    (Function.update (fun _ => 0) place 1) hIndex
  rw [hUnseen, hBlank, hPosition] at hMarked
  have hByte := load_inj hMarked hk
  rw [Function.update_self] at hByte
  cases hByte

theorem triplesElements_of_accepted_iff (h : resize.status out input.sizes = Error.Ok)
    (hInput : input.scalarType = ScalarType.float.code)
    (hOut : out.scalarType = ScalarType.float.code) :
    TriplesElements resize input out ↔
      AddressesAlike input out ∧ ¬ Clobbers input.dataPtr out.dataPtr 4 input.numel := by
  constructor
  · intro hTriples
    have hSafe := not_clobbers_of_triplesElements h hInput hOut hTriples
    refine ⟨(addressesAlike_iff (resize.rank h)).mpr ?_, hSafe⟩
    intro index hIndex
    have hBelow : position (extent input.shape) index out.dimOrder < input.numel :=
      @position_lt_numel (Tensor.withSizes out input (resize.rank h)) index hIndex
    have hPlaces : input.dataPtr + position (extent input.shape) index out.dimOrder * 4 =
        input.dataPtr + position (extent input.shape) index input.dimOrder * 4 := by
      have : Nontrivial UInt8 := ⟨0, 1, by decide⟩
      apply @ptr_eq_of_load_eq UInt8 _ _ _ _ (Nat.zero_lt_succ 3)
      intro memory
      have hLoad := loads_of_triplesElements h hInput hOut hTriples memory hIndex
      rw [load_mapLoop TimesThree.copy.length_run hSafe memory hBelow,
        TimesThree.copy_run (length_load _ _ _)] at hLoad
      exact hLoad
    omega
  · rintro ⟨hAlike, hSafe⟩
    have hPlaces := (addressesAlike_iff (resize.rank h)).mp hAlike
    constructor
    · intro timesThree memory run hRun _
      rw [tripleOut_of_accepted h hInput hOut] at hRun
      subst hRun
      refine ⟨rfl, ?_⟩
      intro index hIndex
      rw [element_of_accepted h hOut, Tensor.element_eq_load hInput, ← hPlaces index hIndex]
      exact load_mapLoop timesThree.length_run hSafe memory (position_lt_numel hIndex)
    · intro timesThree memory run hRun hFailed
      rw [tripleOut_of_accepted h hInput hOut] at hRun
      subst hRun
      exact absurd rfl hFailed

theorem triplesElements_of_dtype_refused_iff (h : resize.status out input.sizes = Error.Ok)
    (hDtype : ¬ (input.scalarType = ScalarType.float.code ∧ out.scalarType = ScalarType.float.code)) :
    TriplesElements resize input out ↔ out.sizes = input.sizes := by
  constructor
  · intro hTriples
    obtain ⟨hSizes, _⟩ := hTriples.refused TimesThree.copy (fun _ => 0) _
      (tripleOut_of_dtype_refused h hDtype) invalidArgument_ne_ok
    exact hSizes.symm
  · intro hSizes
    constructor
    · intro timesThree memory run hRun hReturned
      rw [tripleOut_of_dtype_refused h hDtype] at hRun
      subst hRun
      exact absurd hReturned invalidArgument_ne_ok
    · intro timesThree memory run hRun _
      rw [tripleOut_of_dtype_refused h hDtype, Tensor.withSizes_of_eq _ hSizes] at hRun
      subst hRun
      exact ⟨rfl, fun _ _ => rfl⟩

theorem triplesElements_of_resize_refused (h : resize.status out input.sizes ≠ Error.Ok) :
    TriplesElements resize input out := by
  constructor
  · intro timesThree memory run hRun hReturned
    rw [tripleOut_of_resize_refused h] at hRun
    subst hRun
    exact absurd hReturned invalidArgument_ne_ok
  · intro timesThree memory run hRun _
    rw [tripleOut_of_resize_refused h] at hRun
    subst hRun
    exact ⟨rfl, fun _ _ => rfl⟩

end Conditions

/-- Two float tensors are addressed alike and no element is overwritten before it is read; a tensor
of another type comes with an `out` that already has the sizes. -/
def KernelArguments (input out : Tensor) : Prop :=
  if input.scalarType = ScalarType.float.code ∧ out.scalarType = ScalarType.float.code then
    AddressesAlike input out ∧ ¬ Clobbers input.dataPtr out.dataPtr 4 input.numel
  else out.sizes = input.sizes

/-- The kernel triples element by element, and leaves what it refuses alone, exactly when the
resize is refused or the arguments fit. -/
theorem triple_out_elementwise_iff (resize : TensorResize) (input out : Tensor) :
    TriplesElements resize input out ↔
      (resize.status out input.sizes = Error.Ok → KernelArguments input out) := by
  by_cases h : resize.status out input.sizes = Error.Ok
  · rw [imp_iff_right h, KernelArguments]
    split
    · rename_i hFloat
      exact triplesElements_of_accepted_iff h hFloat.1 hFloat.2
    · rename_i hDtype
      exact triplesElements_of_dtype_refused_iff h hDtype
  · exact ⟨fun _ hOk => absurd hOk h, fun _ => triplesElements_of_resize_refused h⟩

/-- Dynamic tensors with room to spare take every size of their rank. -/
def TensorResize.roomy : TensorResize where
  status out sizes := if sizes.length = out.sizes.length then Error.Ok else Error.InvalidArgument
  rank := by
    intro out sizes hOk
    by_contra hRank
    rw [if_neg hRank] at hOk
    cases hOk

def rowMajorLayout : Layout := { columnMajor with dimOrder := [0, 1], dimOrder_perm := by decide }

def pairLayout : Layout := ⟨[2], [0], by decide, by decide⟩

def tripleLayout : Layout := ⟨[3], [0], by decide, by decide⟩

/-- A two by two input stored by columns comes out transposed in a row-major `out`; and an int
`out` of three elements that is refused for its type has shrunk to the two of its input. -/
theorem triple_out_permutes_and_shrinks :
    ¬ TriplesElements .roomy (columnMajor.tensor .float)
        { rowMajorLayout.tensor .float with dataPtr := 16 } ∧
      ¬ TriplesElements .roomy (pairLayout.tensor .float)
        { tripleLayout.tensor .int with dataPtr := 16 } := by
  constructor
  · rw [triplesElements_of_accepted_iff rfl rfl rfl]
    exact fun h => absurd h.1 (by decide)
  · rw [triplesElements_of_dtype_refused_iff rfl (by decide)]
    decide

/-! ## What the kernel leaves alone -/

theorem nbytes_of_float {t : Tensor} (h : t.scalarType = ScalarType.float.code) :
    t.nbytes = t.numel * 4 := by
  have hSize : t.elementSize = 4 := t.elementSize_eq .float h.symm
  rw [Tensor.nbytes, hSize]

/-- Whatever it is given, also overlapping buffers, and however it ends, the kernel changes no byte
outside the buffer of the `out` that it returns. -/
theorem triple_out_stays_inside (resize : TensorResize) (timesThree : TimesThree)
    (ctx : KernelRuntimeContext) (input out : Tensor) (memory : Nat → UInt8) (a : Nat)
    (h : a < out.dataPtr ∨
      out.dataPtr + (tripleOut resize timesThree ctx input out memory).out.nbytes ≤ a) :
    (tripleOut resize timesThree ctx input out memory).memory a = memory a := by
  by_cases hResize : resize.status out input.sizes = Error.Ok
  · by_cases hFloat : input.scalarType = ScalarType.float.code ∧ out.scalarType = ScalarType.float.code
    · rw [tripleOut_of_accepted hResize hFloat.1 hFloat.2] at h ⊢
      have hBytes : (Tensor.withSizes out input (resize.rank hResize)).nbytes = input.numel * 4 :=
        nbytes_of_float hFloat.2
      rw [hBytes] at h
      exact mapLoop_of_outside timesThree.length_run memory h
    · rw [tripleOut_of_dtype_refused hResize hFloat]
  · rw [tripleOut_of_resize_refused hResize]

/-- Two elements written over the second half of their own input stop at the end of `out`. -/
theorem overlapping_pair_stays_inside :
    (tripleOut .roomy TimesThree.copy {} (pairLayout.tensor .float)
      { pairLayout.tensor .float with dataPtr := 4 } UInt8.ofNat).memory 12 = 12 :=
  triple_out_stays_inside .roomy TimesThree.copy {} (pairLayout.tensor .float)
    { pairLayout.tensor .float with dataPtr := 4 } UInt8.ofNat 12 (Or.inr (by decide))

end ExecutorchNumpy
