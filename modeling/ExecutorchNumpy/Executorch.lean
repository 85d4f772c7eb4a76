import ExecutorchNumpy.DtypeMap
import ExecutorchNumpy.NdArray

/-! # The ExecuTorch interface the core is written against

ExecuTorch is linked from a prebuilt tarball, so its `Module` is a parameter:
a state type with the operations that `et_core.cpp` calls. Output tensors and
strings are windows on memory that the module owns.
-/

namespace ExecutorchNumpy.Executorch
set_option autoImplicit false

open DenseLayout

abbrev Error := Nat

/-- An output tensor: a dense buffer whose axes vary in `dimOrder`, slowest first. -/
structure Tensor where
  sizes : List Int
  scalarType : Int
  dimOrder : List Nat
  dataPtr : Nat
  elementSize : Nat
  sizes_range : ∀ s ∈ sizes, 0 ≤ s ∧ s < 2 ^ 31
  dimOrder_perm : dimOrder.Perm (List.range sizes.length)
  elementSize_eq : ∀ t : ScalarType, t.code = scalarType → elementSize = t.npDtype.itemsize

namespace Tensor

def shape (t : Tensor) : List Nat := t.sizes.map Int.toNat

def numel (t : Tensor) : Nat := t.shape.prod

def nbytes (t : Tensor) : Nat := t.numel * t.elementSize

end Tensor

def readBytes (memory : Nat → UInt8) (ptr n : Nat) : ByteString :=
  (List.range n).map fun i => memory (ptr + i)

def Tensor.element (t : Tensor) (memory : Nat → UInt8) (index : Nat → Nat) : ByteString :=
  readBytes memory (t.dataPtr + position (extent t.shape) index t.dimOrder * t.elementSize)
    t.elementSize

/-- `other` stands for the tags the core does not support: none, lists and tensor lists. -/
inductive EValue where
  | int (value : Int)
  | double (bits : UInt64)
  | bool (value : Bool)
  | string (data size : Nat)
  | tensor (t : Tensor)
  | other (tag : Nat)

/-- An input tensor wraps the caller's buffer; `data` is what the pointer reads during the call. -/
structure TensorPtr where
  data : ByteString
  sizes : List Int
  scalarType : Int
  deriving DecidableEq, Repr

def fromBlob (data : ByteString) (sizes : List Int) (type : Int) : TensorPtr := ⟨data, sizes, type⟩

structure TensorInfo where
  sizes : List Int
  scalarType : Int
  isMemoryPlanned : Bool
  deriving DecidableEq, Repr

/-- `inputTensorMeta i` and `outputTensorMeta i` fail on slots that are not tensors. -/
structure MethodMeta where
  inputTensorMeta : List (Except Error TensorInfo)
  outputTensorMeta : List (Except Error TensorInfo)
  usesBackend : ByteString → Bool

structure Module (σ : Type) where
  loadPath : ByteString → Except Error σ
  loadBuffer : ByteString → Except Error σ
  methodNames : σ → Except Error (List ByteString) × σ
  methodMeta : ByteString → σ → Except Error MethodMeta × σ
  execute : ByteString → List TensorPtr → σ → Except Error (List EValue) × σ
  memory : σ → Nat → UInt8

/-- A loaded program whose methods are constants: no input slots, no delegate, fixed outputs. -/
def constantModule (outputs : List EValue) (memory : Nat → UInt8) : Module Unit where
  loadPath _ := .ok ()
  loadBuffer _ := .ok ()
  methodNames s := (.ok [cxx "forward"], s)
  methodMeta _ s := (.ok ⟨[], [], fun _ => false⟩, s)
  execute _ _ s := (.ok outputs, s)
  memory _ := memory

/-- What `sumModule` holds: whether its methods are lowered to a delegate, and a byte of arena. -/
structure Summing where
  lowered : Bool
  arena : UInt8
  deriving DecidableEq, Repr

def byteTensor : Tensor where
  sizes := [1]
  scalarType := ScalarType.byte.code
  dimOrder := [0]
  dataPtr := 0
  elementSize := 1
  sizes_range := by simp
  dimOrder_perm := .refl _
  elementSize_eq t h := by cases t <;> first | rfl | cases h

/-- Loaded programs that sum: an execution leaves the sum of its input bytes in the arena, where its
output is. The methods of a program that is not empty are lowered. -/
def sumModule : Module Summing where
  loadPath _ := .error 34
  loadBuffer bytes := .ok ⟨!bytes.isEmpty, 0⟩
  methodNames s := (.ok [cxx "forward"], s)
  methodMeta _ s := (.ok ⟨[], [], fun _ => s.lowered⟩, s)
  execute _ inputs s :=
    (.ok [.tensor byteTensor], { s with arena := (inputs.flatMap TensorPtr.data).foldl (· + ·) 0 })
  memory s _ := s.arena

/-! ## What the core relies on for metadata -/

/-- Metadata reads look at the loaded program only: they may fill internal caches but leave every
later answer as it was, and executions do not change the program. Two states are `same` when they
differ in nothing but such caches. -/
structure Module.MetadataReads {σ : Type} (M : Module σ) (same : σ → σ → Prop) : Prop where
  equivalence : Equivalence same
  methodNames_same : ∀ s, same (M.methodNames s).2 s
  methodMeta_same : ∀ name s, same (M.methodMeta name s).2 s
  methodNames_congr : ∀ {s s'}, same s s' → (M.methodNames s).1 = (M.methodNames s').1
  methodMeta_congr : ∀ name {s s'}, same s s' → (M.methodMeta name s).1 = (M.methodMeta name s').1
  execute_congr : ∀ name inputs {s s'}, same s s' →
    (M.execute name inputs s).1 = (M.execute name inputs s').1 ∧
      same (M.execute name inputs s).2 (M.execute name inputs s').2 ∧
      M.memory (M.execute name inputs s).2 = M.memory (M.execute name inputs s').2
  methodNames_execute : ∀ name inputs s,
    (M.methodNames (M.execute name inputs s).2).1 = (M.methodNames s).1
  methodMeta_execute : ∀ method name inputs s,
    (M.methodMeta method (M.execute name inputs s).2).1 = (M.methodMeta method s).1

theorem sumModule_metadataReads : sumModule.MetadataReads (· = ·) where
  equivalence := eq_equivalence
  methodNames_same _ := rfl
  methodMeta_same _ _ := rfl
  methodNames_congr h := by rw [h]
  methodMeta_congr _ _ _ h := by rw [h]
  execute_congr _ _ _ _ h := by
    subst h
    exact ⟨rfl, rfl, rfl⟩
  methodNames_execute _ _ _ := rfl
  methodMeta_execute _ _ _ _ := rfl

end ExecutorchNumpy.Executorch
