import ExecutorchNumpy.Library.Utf8Text

/-! # Core errors and the Python exceptions they become

`EtException` carries raw bytes. The translator of `module.cpp` picks the class
by error kind and hands the bytes to `PyErr_SetString`, which stops at the
first NUL and decodes the rest strictly as UTF-8.
-/

namespace ExecutorchNumpy
set_option autoImplicit false

/-- A `std::string`, a C string or a file system path: bytes without a promised encoding. -/
abbrev ByteString := List UInt8

/-- A Python `str` as its code points, surrogates included. -/
abbrev PyStr := List Nat

def cxx (text : String) : ByteString := Utf8Text.encode text.toList

def py (text : String) : PyStr := text.toList.map Char.toNat

inductive ErrorKind where
  | load
  | backendMissing
  | operatorMissing
  | execution
  | dtypeUnmapped
  deriving DecidableEq, Repr

structure EtError where
  kind : ErrorKind
  message : ByteString
  detail : ByteString
  deriving DecidableEq, Repr

/-- The classes of `executorch_numpy_runtime.errors`; all derive from `ExecuTorchError`. -/
inductive ErrorClass where
  | executorchError
  | programLoadError
  | backendNotAvailable
  | operatorNotFound
  | executionError
  deriving DecidableEq, Repr

/-- What a call from Python can raise. `castError` is nanobind's refusal to convert an argument,
`valueError` the refusal of `os.environ` to store a value. -/
inductive PyException where
  | executorch (cls : ErrorClass) (message : PyStr)
  | unicodeDecodeError (bytes : ByteString)
  | castError
  | valueError
  deriving DecidableEq, Repr

/-- `PyUnicode_DecodeUTF8(..., "strict")`; `none` is the raised `UnicodeDecodeError`. -/
def decodeUtf8 (bytes : ByteString) : Option PyStr :=
  (Utf8Text.decode bytes).map (·.map Char.toNat)

/-- `text` is the Python string whose UTF-8 encoding is exactly `bytes`. -/
def EncodesTo (text : PyStr) (bytes : ByteString) : Prop :=
  ∃ chars : List Char, text = chars.map Char.toNat ∧ Utf8Text.encode chars = bytes

theorem decodeUtf8_eq_some_iff (bytes : ByteString) (text : PyStr) :
    decodeUtf8 bytes = some text ↔ EncodesTo text bytes := by
  rw [decodeUtf8, Option.map_eq_some_iff]
  constructor
  · rintro ⟨chars, hChars, rfl⟩
    exact ⟨chars, rfl, (Utf8Text.decode_eq_some_iff bytes chars).mp hChars⟩
  · rintro ⟨chars, rfl, hChars⟩
    exact ⟨chars, (Utf8Text.decode_eq_some_iff bytes chars).mpr hChars, rfl⟩

theorem EncodesTo.unique {text other : PyStr} {bytes : ByteString} (h : EncodesTo text bytes)
    (hOther : EncodesTo other bytes) : text = other :=
  Option.some.inj (((decodeUtf8_eq_some_iff _ _).mpr h).symm.trans ((decodeUtf8_eq_some_iff _ _).mpr hOther))

theorem EncodesTo.append {front back : PyStr} {bytes rest : ByteString} (h : EncodesTo front bytes)
    (hBack : EncodesTo back rest) : EncodesTo (front ++ back) (bytes ++ rest) := by
  obtain ⟨chars, rfl, rfl⟩ := h
  obtain ⟨more, rfl, rfl⟩ := hBack
  exact ⟨chars ++ more, List.map_append.symm, Utf8Text.encode_append chars more⟩

theorem encodesTo_cxx (text : String) : EncodesTo (py text) (cxx text) := ⟨text.toList, rfl, rfl⟩

theorem decodeUtf8_eq_none_iff (bytes : ByteString) :
    decodeUtf8 bytes = none ↔ ¬ Utf8Text.Valid bytes := by
  rw [decodeUtf8, Option.map_eq_none_iff, Utf8Text.decode_eq_none_iff]

theorem valid_of_decodeUtf8 {bytes : ByteString} {text : PyStr} (h : decodeUtf8 bytes = some text) :
    Utf8Text.Valid bytes := by
  obtain ⟨chars, _, hChars⟩ := (decodeUtf8_eq_some_iff bytes text).mp h
  exact ⟨chars, hChars⟩

theorem decodeUtf8_of_valid {bytes : ByteString} (h : Utf8Text.Valid bytes) :
    ∃ text, decodeUtf8 bytes = some text := by
  obtain ⟨chars, hChars⟩ := h
  exact ⟨chars.map Char.toNat, (decodeUtf8_eq_some_iff _ _).mpr ⟨chars, rfl, hChars⟩⟩

theorem valid_cxx (text : String) : Utf8Text.Valid (cxx text) := Utf8Text.valid_encode text.toList

theorem nul_not_mem_decimal (n : Nat) : (0 : UInt8) ∉ cxx (toString n) := by
  rw [cxx, Utf8Text.nul_mem_encode_iff, Nat.toString_eq_repr, Nat.toList_repr]
  intro h
  exact absurd (Nat.isDigit_of_mem_toDigits (by decide) (by decide) h) (by decide)

/-! ## The exception translator -/

def errorClass : ErrorKind → ErrorClass
  | .load => .programLoadError
  | .backendMissing => .backendNotAvailable
  | .operatorMissing => .operatorNotFound
  | .execution => .executionError
  | .dtypeUnmapped => .executorchError

/-- `PyErr_SetString`: the message must decode, or the decoding error is raised instead. -/
def pyErrSetString (cls : ErrorClass) (message : ByteString) : PyException :=
  match decodeUtf8 (Utf8Text.cString message) with
  | some text => .executorch cls text
  | none => .unicodeDecodeError (Utf8Text.cString message)

def EtError.text (e : EtError) : ByteString :=
  if e.detail.isEmpty then e.message else e.message ++ cxx " [" ++ e.detail ++ cxx "]"

def translate (e : EtError) : PyException := pyErrSetString (errorClass e.kind) e.text

theorem translate_eq_executorch_iff (e : EtError) (cls : ErrorClass) :
    (∃ message, translate e = .executorch cls message) ↔
      cls = errorClass e.kind ∧ Utf8Text.Valid (Utf8Text.cString e.text) := by
  unfold translate pyErrSetString
  cases hText : decodeUtf8 (Utf8Text.cString e.text) with
  | none =>
    have hInvalid := (decodeUtf8_eq_none_iff _).mp hText
    constructor
    · rintro ⟨message, hMessage⟩
      cases hMessage
    · exact fun h => absurd h.2 hInvalid
  | some text =>
    have hValid : Utf8Text.Valid (Utf8Text.cString e.text) := by
      by_contra hInvalid
      rw [(decodeUtf8_eq_none_iff _).mpr hInvalid] at hText
      cases hText
    constructor
    · rintro ⟨message, hMessage⟩
      cases hMessage
      exact ⟨rfl, hValid⟩
    · rintro ⟨rfl, _⟩
      exact ⟨text, rfl⟩

theorem translate_of_invalid {e : EtError} (h : ¬ Utf8Text.Valid (Utf8Text.cString e.text)) :
    translate e = .unicodeDecodeError (Utf8Text.cString e.text) := by
  rw [translate, pyErrSetString, (decodeUtf8_eq_none_iff _).mpr h]

theorem EtError.valid_text {kind : ErrorKind} {message detail : ByteString}
    (hMessage : Utf8Text.Valid message) (hDetail : Utf8Text.Valid detail) :
    Utf8Text.Valid (EtError.mk kind message detail).text := by
  unfold EtError.text
  split
  · exact hMessage
  · exact ((hMessage.append (valid_cxx _)).append hDetail).append (valid_cxx _)

theorem translate_of_valid {e : EtError} (h : Utf8Text.Valid e.text) :
    ∃ message, translate e = .executorch (errorClass e.kind) message :=
  (translate_eq_executorch_iff e _).mpr ⟨rfl, h.cString⟩

theorem EtError.text_of_no_detail (kind : ErrorKind) (message : ByteString) :
    (EtError.mk kind message []).text = message := rfl

end ExecutorchNumpy
