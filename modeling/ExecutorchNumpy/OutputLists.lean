import ExecutorchNumpy.OutputConversion

/-! # Output lists of run_method

A successful execution returns a list of EValues in any mixture. The Python
result is the list of their conversions, or no list at all and one error.
-/

namespace ExecutorchNumpy
set_option autoImplicit false

open Executorch (EValue Module Tensor TensorPtr readBytes constantModule)
open DenseLayout Traverse

/-- The call gets as far as a successful `Module::execute`, which returns `evs`. -/
def Executes {σ : Type} (M : Module σ) (host : Host) (env : Env) (name : ByteString)
    (arrs : List NdArray) (s : RuntimeState σ) (evs : List EValue) (after : σ) : Prop :=
  ∃ held, holdInputs arrs = .ok held ∧
    guardOutcome host env (usesOutcome name openvinoBackend (M.methodMeta name s.module).1) = .ok () ∧
    M.execute name (held.map fun h => toTensorPtr h.desc) (M.methodMeta name s.module).2 =
      (.ok evs, after)

/-- The tag is supported, the dtype is in the table, the string is UTF-8. -/
def Convertible (memory : Nat → UInt8) : EValue → Prop
  | .string data size => Utf8Text.Valid (readBytes memory data size)
  | .tensor t => ∃ type : ScalarType, type.code = t.scalarType
  | .other _ => False
  | _ => True

/-- The Python value is the conversion of the EValue; an array holds the tensor's own bytes. -/
def IsConversion (memory : Nat → UInt8) : EValue → PyValue → Prop
  | .int value, .int v => v = value
  | .double bits, .float v => v = bits
  | .bool value, .bool v => v = value
  | .string data size, .str text => EncodesTo text (readBytes memory data size)
  | .tensor t, .ndarray a =>
    (∃ type : ScalarType, type.code = t.scalarType ∧ a.dtype = dlpackDtype type.npDtype) ∧
      a.shape = t.shape ∧ a.bytes = readBytes memory t.dataPtr t.nbytes ∧
      a.bytes.length = t.nbytes ∧
      (t.dimOrder = axes t.shape → ∀ index, InBounds t.shape index →
        a.element index = t.element memory index)
  | _, _ => False

theorem Convertible.supported {memory : Nat → UInt8} {ev : EValue} (h : Convertible memory ev) :
    Supported ev := by
  cases ev with
  | other tag => cases h
  | _ => trivial

/-- Element by element, the array reads the tensor's buffer in row-major order. -/
theorem rowMajorArray_element (memory : Nat → UInt8) {t : Tensor} {d : NpDtype}
    (hDtype : scalarTypeToNumpy t.scalarType = .ok d) {index : Nat → Nat}
    (hIndex : InBounds t.shape index) :
    (rowMajorArray memory t d).element index =
      readBytes memory (t.dataPtr + rowMajor t.shape index * t.elementSize) t.elementSize := by
  change block (readBytes memory t.dataPtr (t.shape.prod * (dlpackDtype d).itemsize))
    (dlpackDtype d).itemsize (rowMajor t.shape index) = _
  rw [elementSize_of_mapped hDtype, readBytes, block_map_range _ (rowMajor_lt hIndex), readBytes]
  simp only [Nat.add_assoc]

theorem rowMajorArray_bytes (memory : Nat → UInt8) {t : Tensor} {d : NpDtype}
    (hDtype : scalarTypeToNumpy t.scalarType = .ok d) :
    (rowMajorArray memory t d).bytes = readBytes memory t.dataPtr t.nbytes := by
  change readBytes memory t.dataPtr (t.shape.prod * (dlpackDtype d).itemsize) = _
  rw [elementSize_of_mapped hDtype]
  rfl

theorem convert_ok {memory : Nat → UInt8} {ev : EValue} (h : Convertible memory ev)
    (method : ByteString) (index : Nat) :
    ∃ v, convert memory method index ev = .ok v ∧ IsConversion memory ev v := by
  cases ev with
  | int value => exact ⟨_, rfl, rfl⟩
  | double bits => exact ⟨_, rfl, rfl⟩
  | bool value => exact ⟨_, rfl, rfl⟩
  | other tag => cases h
  | string data size =>
    obtain ⟨text, hText⟩ := decodeUtf8_of_valid h
    exact ⟨.str text, by rw [convert, hText], (decodeUtf8_eq_some_iff _ _).mp hText⟩
  | tensor t =>
    obtain ⟨type, hCode⟩ := h
    have hDtype : scalarTypeToNumpy t.scalarType = .ok type.npDtype :=
      (scalarTypeToNumpy_eq_ok_iff _ _).mpr ⟨type, hCode, rfl⟩
    have hBytes := rowMajorArray_bytes memory hDtype
    refine ⟨.ndarray (rowMajorArray memory t type.npDtype), by rw [convert, hDtype],
      ⟨type, hCode, rfl⟩, rfl, hBytes, ?_, ?_⟩
    · rw [hBytes, length_readBytes]
    · intro hOrder index hIndex
      rw [rowMajorArray_element memory hDtype hIndex, Tensor.element, hOrder]
      rfl

def conversionError (method : ByteString) (index : Nat) : EValue → EtError
  | .tensor t => badDtype (cxx "ScalarType(" ++ cxx (toString t.scalarType) ++ cxx ")")
  | _ => notUtf8 method index

theorem convert_error {memory : Nat → UInt8} {ev : EValue} (hTag : Supported ev)
    (h : ¬ Convertible memory ev) (method : ByteString) (index : Nat) :
    convert memory method index ev = .error (conversionError method index ev) := by
  cases ev with
  | other tag => cases hTag
  | string data size => rw [convert, (decodeUtf8_eq_none_iff _).mpr h]; rfl
  | tensor t =>
    cases hDtype : scalarTypeToNumpy t.scalarType with
    | ok d =>
      obtain ⟨type, hCode, _⟩ := (scalarTypeToNumpy_eq_ok_iff _ _).mp hDtype
      exact absurd ⟨type, hCode⟩ h
    | error e => rw [convert, hDtype, scalarTypeToNumpy_error hDtype]; rfl
  | int value => exact absurd trivial h
  | double bits => exact absurd trivial h
  | bool value => exact absurd trivial h

section Calls

variable {σ : Type} {M : Module σ} {host : Host} {env : Env} {arrs : List NdArray}
  {s : RuntimeState σ} {evs : List EValue} {after : σ}

theorem runMethodBody_of_executes {name : ByteString}
    (h : Executes M host env name arrs s evs after) :
    Bound.runMethodBody M host env name arrs s =
      (((if ∀ ev ∈ evs, Supported ev then traverseFrom (convert (M.memory after) name) 0 evs
          else .error (unsupportedOutput name)).mapError Thrown.et), ⟨after, false⟩) := by
  obtain ⟨held, hHeld, hGuard, hExecute⟩ := h
  rw [Bound.runMethodBody, hHeld]
  simp only [runMethod_runOn, hGuard, List.map_map, Function.comp_def, hExecute, executeOutcome]
  rw [← convertAll]
  cases copyOutputs (M.memory after) name evs ⟨[], []⟩ with
  | error e => rfl
  | ok fs =>
    have hBind : (Except.ok fs >>= copyOutAll name) = copyOutAll name fs := rfl
    rw [hBind]
    dsimp only
    cases copyOutAll name fs <;> rfl

theorem runMethod_of_executes {name : Utf8String} (h : Executes M host env name arrs s evs after) :
    Bound.runMethod M host env name arrs s =
      ((if ∀ ev ∈ evs, Supported ev then traverseFrom (convert (M.memory after) name) 0 evs
          else .error (unsupportedOutput name)).mapError translate, ⟨after, false⟩) := by
  rw [Bound.runMethod, runMethodBody_of_executes h]
  generalize (if ∀ ev ∈ evs, Supported ev then traverseFrom (convert (M.memory after) name.val) 0 evs
    else Except.error (unsupportedOutput name.val)) = result
  cases result <;> rfl

end Calls

/-! ## The messages decode -/

theorem valid_text_notUtf8 (method : Utf8String) (index : Nat) :
    Utf8Text.Valid (notUtf8 method index).text := by
  rw [notUtf8, EtError.text_of_no_detail]
  exact (((valid_cxx _).append method.property).append (valid_cxx _)).append (valid_cxx _)
    |>.append (valid_cxx _)

theorem valid_text_unsupportedOutput (method : Utf8String) :
    Utf8Text.Valid (unsupportedOutput method).text := by
  rw [unsupportedOutput, EtError.text_of_no_detail]
  exact ((valid_cxx _).append method.property).append (valid_cxx _)

theorem text_conversionError (method : Utf8String) (index : Nat) (ev : EValue) :
    Utf8Text.Valid (conversionError method index ev).text := by
  cases ev with
  | tensor t => exact valid_text_badDtype (((valid_cxx _).append (valid_cxx _)).append (valid_cxx _))
  | _ => exact valid_text_notUtf8 method index

/-- With a NUL-free method name, as every C string name is, nothing of the message is cut off. -/
theorem cString_notUtf8 {method : ByteString} (h : (0 : UInt8) ∉ method) (index : Nat) :
    Utf8Text.cString (notUtf8 method index).text = (notUtf8 method index).message := by
  rw [notUtf8, EtError.text_of_no_detail]
  apply Utf8Text.cString_of_not_mem
  simp only [List.mem_append, not_or]
  exact ⟨⟨⟨⟨by decide, h⟩, by decide⟩, nul_not_mem_decimal index⟩, by decide⟩

/-- The error of an offending output; that of a string names the method and the position. -/
def ReportedAs (method : Utf8String) (index : Nat) : EValue → PyException → Prop
  | .tensor _, e => ∃ message, e = .executorch .executorchError message
  | _, e => ∃ message, e = .executorch .executionError message ∧
      ((0 : UInt8) ∉ method.val → ∃ name, EncodesTo name method.val ∧
        message = py "method '" ++ name ++ py "' output " ++ py (toString index) ++
          py " is a string that is not valid UTF-8")

theorem encodesTo_notUtf8 {method : ByteString} {name : PyStr} (h : EncodesTo name method)
    (index : Nat) : EncodesTo (py "method '" ++ name ++ py "' output " ++ py (toString index) ++
      py " is a string that is not valid UTF-8") (notUtf8 method index).message :=
  ((((encodesTo_cxx _).append h).append (encodesTo_cxx _)).append (encodesTo_cxx _)).append
    (encodesTo_cxx _)

theorem reportedAs_translate (method : Utf8String) (index : Nat) {memory : Nat → UInt8} {ev : EValue}
    (hTag : Supported ev) (h : ¬ Convertible memory ev) :
    ReportedAs method index ev (translate (conversionError method index ev)) := by
  obtain ⟨message, hMessage⟩ := translate_of_valid (text_conversionError method index ev)
  cases ev with
  | other tag => cases hTag
  | tensor t => exact ⟨message, hMessage⟩
  | string data size =>
    refine ⟨message, hMessage, fun hName => ?_⟩
    obtain ⟨name, hDecoded⟩ := decodeUtf8_of_valid method.property
    have hEncoded := (decodeUtf8_eq_some_iff _ _).mp hDecoded
    refine ⟨name, hEncoded, EncodesTo.unique ?_ (encodesTo_notUtf8 hEncoded index)⟩
    rw [← cString_notUtf8 hName, ← decodeUtf8_eq_some_iff]
    change pyErrSetString _ (notUtf8 method index).text = _ at hMessage
    unfold pyErrSetString at hMessage
    cases hText : decodeUtf8 (Utf8Text.cString (notUtf8 method index).text) with
    | none =>
      rw [hText] at hMessage
      cases hMessage
    | some text =>
      rw [hText] at hMessage
      cases hMessage
      rfl
  | int value => exact absurd trivial h
  | double bits => exact absurd trivial h
  | bool value => exact absurd trivial h

/-! ## Whole or not at all -/

/-- Either every output is converted and the list has their conversions in place, or no list is
returned: an unsupported tag anywhere wins, then the first output with a bad dtype or bad text.
The lock is free afterwards in every case. -/
theorem outputs_converted_whole_or_not_at_all {σ : Type} (M : Module σ) (host : Host) (env : Env)
    (name : Utf8String) (arrs : List NdArray) (s : RuntimeState σ) (evs : List EValue) (after : σ)
    (h : Executes M host env name arrs s evs after) :
    (Bound.runMethod M host env name arrs s).2 = ⟨after, false⟩ ∧
    ((∀ ev ∈ evs, Convertible (M.memory after) ev) →
      ∃ values, (Bound.runMethod M host env name arrs s).1 = .ok values ∧
        values.length = evs.length ∧
        ∀ (i : Nat) (ev : EValue), evs[i]? = some ev →
          ∃ v : PyValue, values[i]? = some v ∧ IsConversion (M.memory after) ev v) ∧
    ((∃ ev ∈ evs, ¬ Supported ev) →
      ∃ message, (Bound.runMethod M host env name arrs s).1 =
        .error (.executorch .executionError message)) ∧
    ((∀ ev ∈ evs, Supported ev) → ∀ (i : Nat) (ev : EValue), evs[i]? = some ev →
      ¬ Convertible (M.memory after) ev →
      (∀ j < i, ∀ ev' : EValue, evs[j]? = some ev' → Convertible (M.memory after) ev') →
      ∃ e, (Bound.runMethod M host env name arrs s).1 = .error e ∧ ReportedAs name i ev e) := by
  rw [runMethod_of_executes h]
  refine ⟨rfl, ?_, ?_, ?_⟩
  · intro hAll
    rw [if_pos fun ev hev => (hAll ev hev).supported]
    obtain ⟨values, hValues⟩ := traverse_ok_of_forall (f := convert (M.memory after) name)
      (i := 0) fun j ev hev => (convert_ok (hAll ev hev) name.val j).imp fun _ hv => hv.1
    obtain ⟨hLength, hEach⟩ := traverse_eq_ok_iff.mp hValues
    refine ⟨values, by rw [hValues]; rfl, hLength, ?_⟩
    intro i ev hi
    obtain ⟨v, hv, hConvert⟩ := hEach i ev hi
    obtain ⟨v', hConvert', hIs⟩ := convert_ok (hAll ev (List.mem_of_getElem? hi)) name.val (0 + i)
    rw [hConvert] at hConvert'
    cases hConvert'
    exact ⟨v, hv, hIs⟩
  · rintro ⟨ev, hMem, hTag⟩
    rw [if_neg fun hAll => hTag (hAll ev hMem)]
    obtain ⟨message, hMessage⟩ := translate_of_valid (valid_text_unsupportedOutput name)
    exact ⟨message, congrArg Except.error hMessage⟩
  · intro hTags i ev hi hBad hBefore
    rw [if_pos hTags]
    have hError : traverseFrom (convert (M.memory after) name) 0 evs =
        .error (conversionError name i ev) := by
      apply traverse_eq_error_iff.mpr
      refine ⟨i, ev, hi, ?_, ?_⟩
      · rw [Nat.zero_add]
        exact convert_error (hTags ev (List.mem_of_getElem? hi)) hBad name.val i
      · intro j hj ev' hev'
        exact (convert_ok (hBefore j hj ev' hev') name.val (0 + j)).imp fun _ hv => hv.1
    rw [hError]
    exact ⟨_, rfl, reportedAs_translate name i (hTags ev (List.mem_of_getElem? hi)) hBad⟩

/-- The patched program of the test suite: two strings, the second one ending in a stray byte. -/
def getStringsMemory (i : Nat) : UInt8 := (cxx "lin.weightlin.bia" ++ [0xff]).getD i 0

theorem getStrings_reports_output_one :
    ∃ e, (Bound.runMethod (constantModule [.string 0 10, .string 10 8] getStringsMemory)
        ⟨false, [], fun _ => none⟩ none ⟨cxx "get_strings", valid_cxx _⟩ [] ⟨(), false⟩).1 = .error e ∧
      ReportedAs ⟨cxx "get_strings", valid_cxx _⟩ 1 (.string 10 8) e := by
  have hCall := outputs_converted_whole_or_not_at_all
    (constantModule [.string 0 10, .string 10 8] getStringsMemory)
    ⟨false, [], fun _ => none⟩ none ⟨cxx "get_strings", valid_cxx _⟩ [] ⟨(), false⟩
    [.string 0 10, .string 10 8] () ⟨[], rfl, rfl, rfl⟩
  refine hCall.2.2.2 ?_ 1 (.string 10 8) rfl ?_ ?_
  · intro ev hev
    simp only [List.mem_cons, List.not_mem_nil, or_false] at hev
    rcases hev with rfl | rfl <;> trivial
  · change ¬ Utf8Text.Valid (readBytes getStringsMemory 10 8)
    decide
  · intro j hj ev hev
    obtain rfl : j = 0 := by omega
    cases hev
    change Utf8Text.Valid (readBytes getStringsMemory 0 10)
    decide

end ExecutorchNumpy
