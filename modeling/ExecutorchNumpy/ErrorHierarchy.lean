import ExecutorchNumpy.OutputLists

/-! # Bytes that leave through the error hierarchy

Program strings and the environment are arbitrary bytes. They reach Python as
method names, as string outputs and inside the messages of core errors.
-/

namespace ExecutorchNumpy
set_option autoImplicit false

open Executorch (EValue Module)
open Traverse

def RaisesMapped (e : EtError) : Prop :=
  ∃ message, translate e = .executorch (errorClass e.kind) message

theorem raisesMapped_iff (e : EtError) : RaisesMapped e ↔ Utf8Text.Valid (Utf8Text.cString e.text) := by
  rw [RaisesMapped, translate_eq_executorch_iff]
  exact and_iff_right rfl

theorem raisesMapped_of_valid {e : EtError} (h : Utf8Text.Valid e.text) : RaisesMapped e :=
  (raisesMapped_iff e).mpr h.cString

/-! ## Messages made of text -/

theorem valid_nil : Utf8Text.Valid [] := Utf8Text.valid_encode []

theorem valid_text_metadataUnreadable (name : Utf8String) :
    Utf8Text.Valid (metadataUnreadable name).text :=
  EtError.valid_text (((valid_cxx _).append name.property).append (valid_cxx _)) name.property

theorem valid_text_methodMetaFailed (name : Utf8String) :
    Utf8Text.Valid (methodMetaFailed name).text :=
  EtError.valid_text (((valid_cxx _).append name.property).append (valid_cxx _)) valid_nil

theorem valid_text_executeFailed (name : Utf8String) : Utf8Text.Valid (executeFailed name).text :=
  EtError.valid_text (((valid_cxx _).append name.property).append (valid_cxx _)) valid_nil

theorem valid_text_classifyLoadFailure {what : ByteString} (h : Utf8Text.Valid what) :
    Utf8Text.Valid (classifyLoadFailure what).text :=
  EtError.valid_text ((valid_cxx _).append h) valid_nil

theorem valid_text_backendNotProvided : Utf8Text.Valid backendNotProvided.text := by
  unfold backendNotProvided openvinoBackend
  exact EtError.valid_text (valid_cxx _) (valid_cxx _)

theorem valid_text_libPathNotSet : Utf8Text.Valid libPathNotSet.text := by
  unfold libPathNotSet openvinoBackend
  exact EtError.valid_text (valid_cxx _) (valid_cxx _)

theorem dtypeKind_ascii {code : DtypeCode} {kind : UInt8} (h : dtypeKind code = .ok kind) :
    Utf8Text.Ascii [kind] := by
  cases code <;> cases h <;> decide

theorem valid_text_of_inputScalarType {d : DType} {e : EtError}
    (h : inputScalarType d = .error (.et e)) : Utf8Text.Valid e.text := by
  unfold inputScalarType at h
  split at h
  · rename_i t hKind
    cases h
    cases hCode : d.code <;> rw [hCode] at hKind <;> cases hKind
    exact EtError.valid_text (valid_cxx _) valid_nil
  · rename_i kind hKind
    split at h
    · rename_i e' hTable
      cases h
      rw [numpyCodeToScalarType_error hTable]
      have hWhat := ((dtypeKind_ascii hKind).valid).append (valid_cxx (toString d.itemsize))
      exact valid_text_badDtype hWhat
    · cases h

theorem valid_text_of_holdInputs {arrs : List NdArray} {e : EtError}
    (h : holdInputs arrs = .error (.et e)) : Utf8Text.Valid e.text := by
  obtain ⟨_, a, _, hError, _⟩ := traverse_eq_error_iff.mp h
  unfold makeHeldInput at hError
  dsimp only at hError
  split at hError
  · rename_i t hType
    cases hError
    exact valid_text_of_inputScalarType hType
  · cases hError

theorem valid_text_of_convert {memory : Nat → UInt8} {name : Utf8String} {index : Nat} {ev : EValue}
    {e : EtError} (h : convert memory name index ev = .error e) : Utf8Text.Valid e.text := by
  by_cases hTag : Supported ev
  · have hBad : ¬ Convertible memory ev := by
      intro hConvertible
      obtain ⟨v, hv, _⟩ := convert_ok hConvertible name.val index
      rw [h] at hv
      cases hv
    rw [convert_error hTag hBad] at h
    cases h
    exact text_conversionError name index ev
  · cases ev with
    | other tag =>
      cases h
      exact valid_text_unsupportedOutput name
    | _ => exact absurd trivial hTag

/-! ## The message that quotes the environment -/

def RefusesLib (host : Host) (env : Env) (lib : EnvValue) : Prop :=
  backendAvailable host openvinoBackend = true ∧ env = some lib ∧ lib.val ≠ [] ∧
    host.win32 = false ∧ host.isRegular lib.val = false

theorem checkOpenvino_of_refusesLib {host : Host} {env : Env} {lib : EnvValue}
    (h : RefusesLib host env lib) : checkOpenvino host env = .error (libPathNotRegular lib.val) := by
  obtain ⟨hBackend, rfl, hNonempty, hPosix, hRegular⟩ := h
  simp [checkOpenvino, requireBackend, requireLibPath, requireRegular, hBackend, hNonempty, hPosix,
    hRegular, bind, Except.bind]

theorem checkOpenvino_error_cases {host : Host} {env : Env} {e : EtError}
    (h : checkOpenvino host env = .error e) :
    e = backendNotProvided ∨ e = libPathNotSet ∨
      ∃ lib, RefusesLib host env lib ∧ e = libPathNotRegular lib.val := by
  unfold checkOpenvino requireBackend at h
  cases hBackend : backendAvailable host openvinoBackend with
  | false =>
    rw [hBackend] at h
    cases h
    exact Or.inl rfl
  | true =>
    rw [hBackend] at h
    cases env with
    | none =>
      cases h
      exact Or.inr (Or.inl rfl)
    | some lib =>
      by_cases hEmpty : lib.val = []
      · simp [requireLibPath, hEmpty, bind, Except.bind] at h
        exact Or.inr (Or.inl h.symm)
      · simp only [requireLibPath, hEmpty, if_false, bind, Except.bind, requireRegular, if_true] at h
        split at h
        · cases h
        · rename_i hPosix
          split at h
          · cases h
          · rename_i hRegular
            cases h
            exact Or.inr (Or.inr ⟨lib, ⟨hBackend, rfl, hEmpty, Bool.eq_false_iff.mpr hPosix,
              Bool.eq_false_iff.mpr hRegular⟩, rfl⟩)

/-- Around the quoted value the message is ASCII, so the value alone decides whether it decodes. -/
theorem raisesMapped_libPathNotRegular_iff (lib : EnvValue) :
    RaisesMapped (libPathNotRegular lib.val) ↔ Utf8Text.Valid lib.val := by
  let before := cxx "OPENVINO_LIB_PATH does not name a regular file: '"
  let after := cxx "'. It must be the full path to libopenvino_c.so, not a directory. [OpenvinoBackend]"
  have hText : (libPathNotRegular lib.val).text = before ++ (lib.val ++ after) := by
    simp [libPathNotRegular, EtError.text, openvinoBackend, before, after, cxx, Utf8Text.encode]
  have hNul : (0 : UInt8) ∉ before ++ (lib.val ++ after) := by
    simp only [List.mem_append, not_or]
    exact ⟨by decide, lib.property, by decide⟩
  have hBefore : Utf8Text.Ascii before := by decide
  have hAfter : Utf8Text.Ascii after := by decide
  rw [raisesMapped_iff, hText, Utf8Text.cString_of_not_mem hNul, hBefore.valid_append_iff,
    hAfter.append_valid_iff]

/-! ## What the operations throw -/

section Operations

variable {σ : Type} (M : Module σ) (host : Host) (env : Env) (s : RuntimeState σ)

/-- Errors that leave a bound operation through the translator. -/
inductive Throws : EtError → Prop
  | loadPath (path : Utf8String) {e} : loadPath M path = .error e → Throws e
  | loadBuffer (bytes : ByteString) {e} : loadBuffer M bytes = .error e → Throws e
  | methodNames {e} : ((methodNames M).runOn s).1 = .error e → Throws e
  | methodMeta (name : Utf8String) {e} : ((methodMeta M name).runOn s).1 = .error e → Throws e
  | methodUsesBackend (name backend : Utf8String) {e} :
      ((methodUsesBackend M name backend).runOn s).1 = .error e → Throws e
  | runMethod (name : Utf8String) (arrs : List NdArray) {e} :
      (Bound.runMethodBody M host env name arrs s).1 = .error (.et e) → Throws e

/-- Some method is known to use the delegate, and the guard refuses the value for it. -/
def QuotesLib (lib : EnvValue) : Prop :=
  RefusesLib host env lib ∧ ∃ name : Utf8String,
    usesOutcome name openvinoBackend (M.methodMeta name s.module).1 = .ok true

theorem checked_error {α β : Type} {failure e : EtError} {f : α → β}
    {result : Except Executorch.Error α} (h : checked failure f result = .error e) : e = failure := by
  cases result with
  | error _ =>
    cases h
    rfl
  | ok a => cases h

theorem guardOutcome_error_cases {name : Utf8String} {e : EtError}
    (h : guardOutcome host env (usesOutcome name openvinoBackend (M.methodMeta name s.module).1) =
      .error e) :
    Utf8Text.Valid e.text ∨ ∃ lib, QuotesLib M host env s lib ∧ e = libPathNotRegular lib.val := by
  cases hUses : usesOutcome name.val openvinoBackend (M.methodMeta name s.module).1 with
  | error e' =>
    rw [hUses] at h
    cases h
    rw [checked_error hUses]
    exact Or.inl (valid_text_metadataUnreadable name)
  | ok uses =>
    rw [hUses] at h
    cases uses with
    | false => cases h
    | true =>
      rcases checkOpenvino_error_cases h with rfl | rfl | ⟨lib, hRefuses, rfl⟩
      · exact Or.inl valid_text_backendNotProvided
      · exact Or.inl valid_text_libPathNotSet
      · exact Or.inr ⟨lib, ⟨hRefuses, name, hUses⟩, rfl⟩

theorem runMethodBody_error_cases {name : Utf8String} {arrs : List NdArray} {e : EtError}
    (h : (Bound.runMethodBody M host env name arrs s).1 = .error (.et e)) :
    Utf8Text.Valid e.text ∨ ∃ lib, QuotesLib M host env s lib ∧ e = libPathNotRegular lib.val := by
  cases hHeld : holdInputs arrs with
  | error t =>
    rw [Bound.runMethodBody, hHeld] at h
    cases h
    exact Or.inl (valid_text_of_holdInputs hHeld)
  | ok held =>
    cases hGuard : guardOutcome host env
        (usesOutcome name openvinoBackend (M.methodMeta name s.module).1) with
    | error e' =>
      rw [Bound.runMethodBody, hHeld] at h
      simp only [runMethod_runOn, hGuard] at h
      cases h
      exact guardOutcome_error_cases M host env s hGuard
    | ok _ =>
      refine Or.inl ?_
      rcases hRun : M.execute name (held.map fun h => toTensorPtr h.desc)
        (M.methodMeta name s.module).2 with ⟨_ | evs, after⟩
      · rw [Bound.runMethodBody, hHeld] at h
        simp only [runMethod_runOn, hGuard, List.map_map, Function.comp_def, hRun, executeOutcome] at h
        cases h
        exact valid_text_executeFailed name
      · rw [runMethodBody_of_executes ⟨held, hHeld, hGuard, hRun⟩] at h
        split at h
        · cases hAll : traverseFrom (convert (M.memory after) name) 0 evs with
          | ok values =>
            rw [hAll] at h
            cases h
          | error e' =>
            rw [hAll] at h
            cases h
            obtain ⟨_, ev, _, hError, _⟩ := traverse_eq_error_iff.mp hAll
            exact valid_text_of_convert hError
        · cases h
          exact valid_text_unsupportedOutput name

theorem throws_cases {e : EtError} (h : Throws M host env s e) :
    Utf8Text.Valid e.text ∨ ∃ lib, QuotesLib M host env s lib ∧ e = libPathNotRegular lib.val := by
  cases h with
  | loadPath path h =>
    refine Or.inl ?_
    unfold loadPath at h
    split at h <;> cases h
    exact valid_text_classifyLoadFailure path.property
  | loadBuffer bytes h =>
    refine Or.inl ?_
    unfold loadBuffer at h
    split at h <;> cases h
    exact valid_text_classifyLoadFailure (valid_cxx _)
  | methodNames h =>
    rw [methodNames_runOn] at h
    rw [checked_error h]
    exact Or.inl (EtError.valid_text (valid_cxx _) valid_nil)
  | methodMeta name h =>
    rw [methodMeta_runOn] at h
    rw [checked_error h]
    exact Or.inl (valid_text_methodMetaFailed name)
  | methodUsesBackend name backend h =>
    rw [methodUsesBackend_runOn] at h
    rw [checked_error h]
    exact Or.inl (valid_text_metadataUnreadable name)
  | runMethod name arrs h => exact runMethodBody_error_cases M host env s h

theorem throws_of_quotesLib {lib : EnvValue} (h : QuotesLib M host env s lib) :
    Throws M host env s (libPathNotRegular lib.val) := by
  obtain ⟨hRefuses, name, hUses⟩ := h
  apply Throws.runMethod name []
  have hGuard : guardOutcome host env
      (usesOutcome name openvinoBackend (M.methodMeta name s.module).1) =
        .error (libPathNotRegular lib.val) := by
    rw [hUses]
    exact checkOpenvino_of_refusesLib hRefuses
  have hHeld : holdInputs [] = .ok [] := rfl
  rw [Bound.runMethodBody, hHeld]
  simp only [runMethod_runOn, hGuard]

/-! ## Containment -/

/-- Each route delivers exactly the text its bytes encode or raises the class of the error kind. -/
structure BytesContained : Prop where
  names : ∀ names, (M.methodNames s.module).1 = .ok names →
    (∃ texts, (Bound.methodNames M s).1 = .ok texts ∧
      List.Forall₂ (fun bytes text => EncodesTo text bytes) names texts) ∨
    ∃ message, (Bound.methodNames M s).1 = .error (.executorch .programLoadError message)
  strings : ∀ (storage : List ByteString) (v : OutputView) (method : Utf8String) (index : Nat),
    v.kind = .string →
    (∃ text, copyOut storage v method index = .ok (.str text) ∧ EncodesTo text v.strVal) ∨
    ∃ e message, copyOut storage v method index = .error e ∧
      translate e = .executorch .executionError message
  errors : ∀ e, Throws M host env s e → RaisesMapped e

def QuotedBytesValid : Prop :=
  (∀ names, (M.methodNames s.module).1 = .ok names → ∀ bytes ∈ names, Utf8Text.Valid bytes) ∧
  ∀ lib, QuotesLib M host env s lib → Utf8Text.Valid lib.val

theorem string_contained (storage : List ByteString) {v : OutputView} (method : Utf8String)
    (index : Nat) (hKind : v.kind = .string) :
    (∃ text, copyOut storage v method index = .ok (.str text) ∧ EncodesTo text v.strVal) ∨
    ∃ e message, copyOut storage v method index = .error e ∧
      translate e = .executorch .executionError message := by
  rw [copyOut, hKind]
  cases hText : decodeUtf8 v.strVal with
  | some text => exact Or.inl ⟨text, rfl, (decodeUtf8_eq_some_iff _ _).mp hText⟩
  | none =>
    obtain ⟨message, hMessage⟩ := translate_of_valid (valid_text_notUtf8 method index)
    exact Or.inr ⟨_, message, rfl, hMessage⟩

/-- Arbitrary bytes stay inside the hierarchy exactly when the names and the quoted value decode. -/
theorem bytes_contained_iff : BytesContained M host env s ↔ QuotedBytesValid M host env s := by
  constructor
  · intro h
    refine ⟨fun names hNames => ?_, fun lib hQuotes => ?_⟩
    · by_contra hInvalid
      obtain ⟨bytes, _, _, hError⟩ := castStrings_of_invalid names hInvalid
      have hCall : (Bound.methodNames M s).1 = .error (.unicodeDecodeError bytes) := by
        rw [Bound.methodNames, methodNames_runOn, hNames, ← hError]
        rfl
      rcases h.names names hNames with ⟨texts, hTexts, _⟩ | ⟨message, hMessage⟩
      · rw [hCall] at hTexts
        cases hTexts
      · rw [hCall] at hMessage
        cases hMessage
    · rw [← raisesMapped_libPathNotRegular_iff]
      exact h.errors _ (throws_of_quotesLib M host env s hQuotes)
  · rintro ⟨hNames, hLib⟩
    refine ⟨fun names hOk => ?_, fun storage v method index => string_contained storage method index,
      fun e hThrows => ?_⟩
    · obtain ⟨texts, hTexts, hEach⟩ := castStrings_of_valid names (hNames names hOk)
      refine Or.inl ⟨texts, ?_, hEach.imp fun bytes text => (decodeUtf8_eq_some_iff bytes text).mp⟩
      rw [Bound.methodNames, methodNames_runOn, hOk, ← hTexts]
      rfl
    · rcases throws_cases M host env s hThrows with hValid | ⟨lib, hQuotes, rfl⟩
      · exact raisesMapped_of_valid hValid
      · exact (raisesMapped_libPathNotRegular_iff lib).mpr (hLib lib hQuotes)

end Operations

/-- A program whose only method is named by a byte that is no UTF-8, lowered or not. -/
def strayName (lowered : Bool) : Module Unit where
  loadPath _ := .ok ()
  loadBuffer _ := .ok ()
  methodNames s := (.ok [[0xff]], s)
  methodMeta _ s := (.ok ⟨[], [], fun backend => lowered && backend == openvinoBackend⟩, s)
  execute _ _ s := (.ok [], s)
  memory _ _ := 0

def strayLib : EnvValue := ⟨cxx "/" ++ [0xff], by decide⟩

theorem stray_bytes_escape :
    (Bound.methodNames (strayName false) ⟨(), false⟩).1 = .error (.unicodeDecodeError [0xff]) ∧
    (∃ bytes, (Bound.runMethod (strayName true) ⟨false, [openvinoBackend], fun _ => none⟩
      (some strayLib) ⟨cxx "forward", valid_cxx _⟩ [] ⟨(), false⟩).1 =
        .error (.unicodeDecodeError bytes)) ∧
    ¬ BytesContained (strayName false) ⟨false, [], fun _ => none⟩ none ⟨(), false⟩ := by
  have hNames : (Bound.methodNames (strayName false) ⟨(), false⟩).1 =
      .error (.unicodeDecodeError [0xff]) := rfl
  have hThrown : (Bound.runMethod (strayName true) ⟨false, [openvinoBackend], fun _ => none⟩
      (some strayLib) ⟨cxx "forward", valid_cxx _⟩ [] ⟨(), false⟩).1 =
        .error (translate (libPathNotRegular strayLib.val)) := rfl
  have hInvalid : ¬ RaisesMapped (libPathNotRegular strayLib.val) := by
    rw [raisesMapped_libPathNotRegular_iff]
    decide
  have hEscapes := translate_of_invalid fun h => hInvalid ((raisesMapped_iff _).mpr h)
  refine ⟨hNames, ⟨_, hThrown.trans (congrArg Except.error hEscapes)⟩, fun h => ?_⟩
  rcases h.names [[0xff]] rfl with ⟨texts, hTexts, _⟩ | ⟨message, hMessage⟩
  · rw [hNames] at hTexts
    cases hTexts
  · rw [hNames] at hMessage
    cases hMessage

end ExecutorchNumpy
