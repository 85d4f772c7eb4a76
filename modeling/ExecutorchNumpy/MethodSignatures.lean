import ExecutorchNumpy.PublicApi

/-! # Calling a method by its metadata

`method_meta` reports a scalar type and a shape for each input slot. Read back
through the dtype table, the report tells which arrays reach the method as the
tensors that it declares.
-/

namespace ExecutorchNumpy
set_option autoImplicit false

open Executorch (Module TensorInfo TensorPtr)
open Traverse

/-- The tensors that a call hands to `Module::execute`. -/
def handedTensors (arrs : List NdArray) : Except Thrown (List TensorPtr) :=
  (handedDescs arrs).map (List.map toTensorPtr)

def handTensor (a : NdArray) : Except Thrown TensorPtr := (describe a).map toTensorPtr

/-- A tensor as its slot declares it; slots of other kinds declare none. -/
def Declares (slot : Except Executorch.Error TensorInfo) (t : TensorPtr) : Prop :=
  ∃ info, slot = .ok info ∧ t.sizes = info.sizes ∧ t.scalarType = info.scalarType

/-- An array of the dtype and the shape that the entry of a slot reports. -/
structure FollowsMeta (entry : TensorMeta) (a : NdArray) : Prop where
  dtype : ∃ d, scalarTypeToNumpy entry.scalarType = .ok d ∧ dlpackDtype d = a.dtype
  shape : a.shape.map Int.ofNat = entry.shape

/-- The extents fit ExecuTorch's 32-bit sizes. -/
def FitsSizes (a : NdArray) : Prop := ∀ e ∈ a.shape, e < 2 ^ 31

theorem handTensor_eq (a : NdArray) : handTensor a = (inputScalarType a.dtype).map fun code =>
    ⟨a.cContig.bytes, a.shape.map fun e : Nat => toSizesType e, code⟩ := by
  rw [handTensor, describe_eq]
  cases inputScalarType a.dtype with
  | error t => rfl
  | ok code => simp [Except.map, toTensorPtr, Executorch.fromBlob, Function.comp_def]

theorem handedTensors_eq (arrs : List NdArray) :
    handedTensors arrs = traverseFrom (fun _ a => handTensor a) 0 arrs := by
  rw [handedTensors, handedDescs_eq, map_traverse]
  rfl

/-- One slot: the entry has all that decides, placeholders included. -/
theorem declares_iff {slot : Except Executorch.Error TensorInfo} {a : NdArray} (h : FitsSizes a) :
    (∃ t, handTensor a = .ok t ∧ Declares slot t) ↔ FollowsMeta (toTensorMeta slot) a := by
  have hSizes : (a.shape.map fun e : Nat => toSizesType e) = a.shape.map Int.ofNat :=
    (map_toSizesType_eq_iff a.shape).mpr h
  rw [handTensor_eq, hSizes]
  cases slot with
  | error e =>
    constructor
    · rintro ⟨_, _, _, hSlot, _⟩
      cases hSlot
    · rintro ⟨⟨d, hPlaceholder, _⟩, _⟩
      cases hPlaceholder
  | ok info =>
    constructor
    · rintro ⟨t, hHanded, _, hSlot, hShape, hType⟩
      obtain rfl := Except.ok.inj hSlot
      cases hCode : inputScalarType a.dtype with
      | error e =>
        rw [hCode] at hHanded
        cases hHanded
      | ok code =>
        rw [hCode] at hHanded
        obtain rfl := Except.ok.inj hHanded
        obtain ⟨type, hTypeCode, hDtype⟩ := (inputScalarType_eq_ok_iff _ _).mp hCode
        refine ⟨⟨type.npDtype, ?_, hDtype⟩, hShape⟩
        exact (scalarTypeToNumpy_eq_ok_iff _ _).mpr ⟨type, hTypeCode.trans hType, rfl⟩
    · rintro ⟨⟨d, hRow, hDtype⟩, hShape⟩
      obtain ⟨type, hCode, rfl⟩ := (scalarTypeToNumpy_eq_ok_iff _ _).mp hRow
      have hAccepted := (inputScalarType_eq_ok_iff a.dtype info.scalarType).mpr ⟨type, hCode, hDtype⟩
      rw [hAccepted]
      exact ⟨_, rfl, info, rfl, hShape, rfl⟩

section Calls

variable {σ : Type} {M : Module σ} {name : Utf8String} {s : RuntimeState σ}

theorem inputs_of_methodMeta {mm : Executorch.MethodMeta} {signature : MethodMeta}
    (hMeta : (M.methodMeta name s.module).1 = .ok mm)
    (hRead : (Bound.methodMeta M name s).1 = .ok signature) :
    signature.inputs = mm.inputTensorMeta.map toTensorMeta := by
  rw [Bound.methodMeta, methodMeta_runOn, hMeta] at hRead
  obtain rfl := Except.ok.inj hRead
  rfl

/-- Behind the guard the method runs on the handed tensors. -/
theorem executes_handed {host : Host} {env : Env} {arrs : List NdArray} {tensors : List TensorPtr}
    (hHanded : handedTensors arrs = .ok tensors)
    (hGuard : ((guardOpenvino M host env name).runOn s).1 = .ok ()) :
    (Bound.runMethod M host env name arrs s).2 =
      ⟨(M.execute name tensors (M.methodMeta name s.module).2).2, false⟩ := by
  obtain ⟨descs, hDescs, rfl⟩ : ∃ descs, handedDescs arrs = .ok descs ∧ descs.map toTensorPtr = tensors := by
    rw [handedTensors] at hHanded
    cases hDescs : handedDescs arrs with
    | error t =>
      rw [hDescs] at hHanded
      cases hHanded
    | ok descs =>
      rw [hDescs] at hHanded
      exact ⟨descs, rfl, Except.ok.inj hHanded⟩
  rw [guardOpenvino_runOn] at hGuard
  dsimp only at hGuard
  rw [Bound.runMethod, runMethodBody_eq, hDescs]
  dsimp only
  rw [runMethod_runOn, hGuard]
  dsimp only
  cases executeOutcome M name (M.execute name (descs.map toTensorPtr) (M.methodMeta name s.module).2) with
  | error e => rfl
  | ok fs =>
    dsimp only
    cases copyOutAll name fs <;> rfl

/-- The arrays that reach a method as the tensors it declares are those that follow its metadata. -/
theorem metadata_directs_inputs {mm : Executorch.MethodMeta} {signature : MethodMeta}
    {arrs : List NdArray} (hMeta : (M.methodMeta name s.module).1 = .ok mm)
    (hRead : (Bound.methodMeta M name s).1 = .ok signature) (hSizes : ∀ a ∈ arrs, FitsSizes a) :
    (∃ tensors, handedTensors arrs = .ok tensors ∧ List.Forall₂ Declares mm.inputTensorMeta tensors) ↔
      List.Forall₂ FollowsMeta signature.inputs arrs := by
  rw [handedTensors_eq, traverse_related_iff, inputs_of_methodMeta hMeta hRead,
    List.forall₂_map_left_iff]
  exact related_congr fun a ha _ => declares_iff (hSizes a ha)

end Calls

/-- A program with one method of signature `float32[2], int64[]`. -/
def twoSlots : Executorch.MethodMeta :=
  ⟨[.ok ⟨[2], ScalarType.float.code, true⟩, .ok ⟨[], ScalarType.long.code, true⟩], [], fun _ => false⟩

def twoSlotModule : Module Unit :=
  { Executorch.constantModule [] (fun _ => 0) with methodMeta := fun _ s => (.ok twoSlots, s) }

def pairArray : NdArray := ⟨DType.float32, [2], [4], 0, fun _ => 0⟩

def longScalar : NdArray := ⟨dlpackDtype ScalarType.long.npDtype, [], [], 0, fun _ => 0⟩

theorem twoSlots_directed : ∃ tensors, handedTensors [pairArray, longScalar] = .ok tensors ∧
    List.Forall₂ Declares twoSlots.inputTensorMeta tensors := by
  have hFloat : FollowsMeta ⟨[2], ScalarType.float.code, true⟩ pairArray :=
    ⟨⟨_, rfl, rfl⟩, rfl⟩
  have hLong : FollowsMeta ⟨[], ScalarType.long.code, true⟩ longScalar := ⟨⟨_, rfl, rfl⟩, rfl⟩
  refine (@metadata_directs_inputs Unit twoSlotModule ⟨cxx "forward", valid_cxx _⟩ ⟨(), false⟩ twoSlots
    _ [pairArray, longScalar] rfl rfl ?_).mpr (.cons hFloat (.cons hLong .nil))
  intro a ha
  simp only [List.mem_cons, List.not_mem_nil, or_false] at ha
  obtain rfl | rfl := ha
  · simp [FitsSizes, pairArray]
  · simp [FitsSizes, longScalar]

end ExecutorchNumpy
