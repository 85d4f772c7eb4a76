import ExecutorchNumpy.EtCore
import ExecutorchNumpy.Library.Traverse

/-! # The nanobind layer, `module.cpp`

Inputs become contiguous buffers with a ScalarType code, outputs become Python
values, and every `EtException` passes through the translator.
-/

namespace ExecutorchNumpy
set_option autoImplicit false

open Executorch (Module)
open Traverse

/-- An argument that nanobind cast from a Python `str`: always the UTF-8 encoding of a text. -/
abbrev Utf8String := { bytes : ByteString // Utf8Text.Valid bytes }

/-- What C++ code below a bound method throws. -/
inductive Thrown where
  | et (e : EtError)
  | cast
  deriving DecidableEq, Repr

def Thrown.toPython : Thrown → PyException
  | .et e => translate e
  | .cast => .castError

inductive PyValue where
  | int (value : Int)
  | bool (value : Bool)
  | float (bits : UInt64)
  | str (text : PyStr)
  | ndarray (a : CArray)
  deriving DecidableEq, Repr

/-! ## Inputs -/

/-- `keepalive` pins the contiguous buffer that `desc` points to for the whole call. -/
structure HeldInput where
  keepalive : CArray
  desc : InputDesc
  deriving DecidableEq, Repr

def unsupportedDtypeCode : EtError := ⟨.dtypeUnmapped, cxx "Unsupported numpy dtype code", []⟩

/-- The `switch` on the DLPack code; the nanobind cast before it refuses what it cannot import. -/
def dtypeKind : DtypeCode → Except Thrown UInt8
  | .float => .ok (ch 'f')
  | .int => .ok (ch 'i')
  | .uint => .ok (ch 'u')
  | .bool => .ok (ch 'b')
  | .other _ => .error (.et unsupportedDtypeCode)
  | .unexportable => .error .cast

def inputScalarType (d : DType) : Except Thrown Int :=
  match dtypeKind d.code with
  | .error t => .error t
  | .ok kind =>
    match numpyCodeToScalarType kind d.itemsize with
    | .error e => .error (.et e)
    | .ok st => .ok st

def makeHeldInput (obj : NdArray) : Except Thrown HeldInput :=
  let arr := obj.cContig
  match inputScalarType arr.dtype with
  | .error t => .error t
  | .ok st => .ok ⟨arr, ⟨arr.bytes, arr.shape.map Int.ofNat, st⟩⟩

/-! ## Outputs -/

def notUtf8 (method : ByteString) (index : Nat) : EtError :=
  ⟨.execution, cxx "method '" ++ method ++ cxx "' output " ++ cxx (toString index) ++ cxx " is a string that is not valid UTF-8", []⟩

/-- Converting an int64 extent to `size_t`. -/
def toSizeT (extent : Int) : Nat := (extent % 2 ^ 64).toNat

def dlpackDtype (d : NpDtype) : DType where
  code := if d.kind = ch 'f' then .float else if d.kind = ch 'i' then .int
    else if d.kind = ch 'u' then .uint else .bool
  bits := d.itemsize * 8 % 256
  bits_mod := by omega

def storageMemory (storage : List ByteString) : Option Nat → Nat → UInt8
  | none, _ => 0
  | some buffer, i => (storage.getD buffer []).getD i 0

/-- The fresh array numpy makes from a transient row-major view. -/
def numpyCopy (memory : Nat → UInt8) (dtype : DType) (shape : List Nat) : CArray where
  dtype := dtype
  shape := shape
  bytes := Executorch.readBytes memory 0 (shape.prod * dtype.itemsize)
  bytes_length := by simp [Executorch.readBytes]

def copyOut (storage : List ByteString) (v : OutputView) (method : ByteString) (index : Nat) :
    Except EtError PyValue :=
  match v.kind with
  | .int => .ok (.int v.intVal)
  | .bool => .ok (.bool (v.intVal != 0))
  | .double => .ok (.float v.doubleVal)
  | .string =>
    match decodeUtf8 v.strVal with
    | none => .error (notUtf8 method index)
    | some text => .ok (.str text)
  | .tensor =>
    match scalarTypeToNumpy v.scalarType with
    | .error e => .error e
    | .ok d => .ok (.ndarray
        (numpyCopy (storageMemory storage v.data) (dlpackDtype d) (v.shape.map toSizeT)))

def copyOutAll (method : ByteString) (fs : ForwardState) : Except EtError (List PyValue) :=
  traverseFrom (fun index v => copyOut fs.storage v method index) 0 fs.views

/-! ## The bound methods -/

def holdInputs (arrs : List NdArray) : Except Thrown (List HeldInput) :=
  traverseFrom (fun _ a => makeHeldInput a) 0 arrs

def toPyResult {α : Type} : Except EtError α → Except PyException α
  | .error e => .error (translate e)
  | .ok a => .ok a

/-- nanobind's `std::string` caster: a strict decoding with no handler of its own. -/
def castString (bytes : ByteString) : Except PyException PyStr :=
  match decodeUtf8 bytes with
  | none => .error (.unicodeDecodeError bytes)
  | some text => .ok text

def castStrings (strings : List ByteString) : Except PyException (List PyStr) :=
  traverseFrom (fun _ bytes => castString bytes) 0 strings

/-- All names decode, or the first one that does not is reported by a decoding error. -/
theorem castStrings_cases (strings : List ByteString) :
    ((∀ bytes ∈ strings, Utf8Text.Valid bytes) ∧ ∃ texts, castStrings strings = .ok texts ∧
        List.Forall₂ (fun bytes text => decodeUtf8 bytes = some text) strings texts) ∨
      ∃ bytes ∈ strings, ¬ Utf8Text.Valid bytes ∧
        castStrings strings = .error (.unicodeDecodeError bytes) := by
  rw [castStrings]
  generalize 0 = i
  induction strings generalizing i with
  | nil => exact Or.inl ⟨by simp, [], rfl, .nil⟩
  | cons bytes rest ih =>
    cases hText : decodeUtf8 bytes with
    | none =>
      refine Or.inr ⟨bytes, List.mem_cons_self, (decodeUtf8_eq_none_iff bytes).mp hText, ?_⟩
      rw [traverseFrom, castString, hText]
    | some text =>
      have hValid : Utf8Text.Valid bytes := valid_of_decodeUtf8 hText
      rw [traverseFrom, castString, hText]
      rcases ih (i + 1) with ⟨hAll, texts, hTexts, hEach⟩ | ⟨bad, hBad, hInvalid, hError⟩
      · refine Or.inl ⟨?_, text :: texts, by rw [hTexts], .cons hText hEach⟩
        exact List.forall_mem_cons.mpr ⟨hValid, hAll⟩
      · exact Or.inr ⟨bad, List.mem_cons_of_mem bytes hBad, hInvalid, by rw [hError]⟩

theorem castStrings_of_valid (strings : List ByteString) (h : ∀ bytes ∈ strings, Utf8Text.Valid bytes) :
    ∃ texts, castStrings strings = .ok texts ∧
      List.Forall₂ (fun bytes text => decodeUtf8 bytes = some text) strings texts := by
  rcases castStrings_cases strings with hOk | ⟨bytes, hMem, hInvalid, _⟩
  · exact hOk.2
  · exact absurd (h bytes hMem) hInvalid

theorem castStrings_of_invalid (strings : List ByteString)
    (h : ¬ ∀ bytes ∈ strings, Utf8Text.Valid bytes) :
    ∃ bytes ∈ strings, ¬ Utf8Text.Valid bytes ∧
      castStrings strings = .error (.unicodeDecodeError bytes) := by
  rcases castStrings_cases strings with ⟨hAll, _⟩ | hError
  · exact absurd hAll h
  · exact hError

theorem decodes_of_castStrings {strings : List ByteString} {texts : List PyStr}
    (h : castStrings strings = .ok texts) : ∀ text ∈ texts, ∃ bytes ∈ strings,
      decodeUtf8 bytes = some text := by
  obtain ⟨hLength, hEach⟩ := traverse_eq_ok_iff.mp h
  intro text hText
  obtain ⟨k, hk, rfl⟩ := List.getElem_of_mem hText
  have hRoom : k < strings.length := hLength ▸ hk
  obtain ⟨y, hy, hCast⟩ := hEach k strings[k] (List.getElem?_eq_getElem hRoom)
  rw [List.getElem?_eq_getElem hk] at hy
  refine ⟨strings[k], List.getElem_mem hRoom, ?_⟩
  rw [castString] at hCast
  split at hCast <;> cases hCast
  rename_i hDecode
  rw [hDecode, hy]

section Bound

variable {σ : Type} (M : Module σ) (host : Host) (env : Env)

namespace Bound

def methodNames (s : RuntimeState σ) : Except PyException (List PyStr) × RuntimeState σ :=
  match (ExecutorchNumpy.methodNames M).runOn s with
  | (.error e, s') => (.error (translate e), s')
  | (.ok names, s') => (castStrings names, s')

def methodMeta (name : Utf8String) (s : RuntimeState σ) :
    Except PyException MethodMeta × RuntimeState σ :=
  ((ExecutorchNumpy.methodMeta M name).runOn s).map toPyResult id

def methodUsesBackend (name backend : Utf8String) (s : RuntimeState σ) :
    Except PyException Bool × RuntimeState σ :=
  ((ExecutorchNumpy.methodUsesBackend M name backend).runOn s).map toPyResult id

def runMethodBody (name : ByteString) (arrs : List NdArray) (s : RuntimeState σ) :
    Except Thrown (List PyValue) × RuntimeState σ :=
  match holdInputs arrs with
  | .error t => (.error t, s)
  | .ok held =>
    match (ExecutorchNumpy.runMethod M host env name (held.map HeldInput.desc)).runOn s with
    | (.error e, s') => (.error (.et e), s')
    | (.ok fs, s') =>
      match copyOutAll name fs with
      | .error e => (.error (.et e), s')
      | .ok values => (.ok values, s')

def runMethod (name : Utf8String) (arrs : List NdArray) (s : RuntimeState σ) :
    Except PyException (List PyValue) × RuntimeState σ :=
  match runMethodBody M host env name arrs s with
  | (.error t, s') => (.error t.toPython, s')
  | (.ok values, s') => (.ok values, s')

def loadPath (path : Utf8String) : Except PyException (RuntimeState σ) :=
  toPyResult (ExecutorchNumpy.loadPath M path)

def loadBuffer (bytes : ByteString) : Except PyException (RuntimeState σ) :=
  toPyResult (ExecutorchNumpy.loadBuffer M bytes)

end Bound

end Bound

end ExecutorchNumpy
