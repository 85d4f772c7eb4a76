import ExecutorchNumpy.Errors

/-! # The dtype tables of `dtype_map.cpp`

Two independently written tables: numpy kind and item size to ScalarType code,
and back. Each code of the second is the image of exactly one row of the first.
-/

namespace ExecutorchNumpy
set_option autoImplicit false

/-- The enumerators of ExecuTorch's `ScalarType` that the tables name. -/
inductive ScalarType where
  | byte
  | char
  | short
  | int
  | long
  | half
  | float
  | double
  | bool
  | bfloat16
  deriving DecidableEq, Repr

def ScalarType.code : ScalarType → Int
  | .byte => 0
  | .char => 1
  | .short => 2
  | .int => 3
  | .long => 4
  | .half => 5
  | .float => 6
  | .double => 7
  | .bool => 11
  | .bfloat16 => 15

/-- `static_cast<ScalarType>(code)`, restricted to the named enumerators. -/
def ScalarType.ofCode? (code : Int) : Option ScalarType :=
  [ScalarType.byte, .char, .short, .int, .long, .half, .float, .double, .bool, .bfloat16].find?
    fun t => t.code = code

structure NpDtype where
  kind : UInt8
  itemsize : Nat
  deriving DecidableEq, Repr

def ch (c : Char) : UInt8 := UInt8.ofNat c.toNat

def badDtype (what : ByteString) : EtError :=
  ⟨.dtypeUnmapped, cxx "Unsupported dtype: " ++ what, []⟩

def numpyCodeToScalarType (kind : UInt8) (itemsize : Nat) : Except EtError Int :=
  if kind = ch 'f' ∧ itemsize = 4 then .ok ScalarType.float.code
  else if kind = ch 'f' ∧ itemsize = 8 then .ok ScalarType.double.code
  else if kind = ch 'f' ∧ itemsize = 2 then .ok ScalarType.half.code
  else if kind = ch 'i' ∧ itemsize = 8 then .ok ScalarType.long.code
  else if kind = ch 'i' ∧ itemsize = 4 then .ok ScalarType.int.code
  else if kind = ch 'i' ∧ itemsize = 2 then .ok ScalarType.short.code
  else if kind = ch 'i' ∧ itemsize = 1 then .ok ScalarType.char.code
  else if kind = ch 'u' ∧ itemsize = 1 then .ok ScalarType.byte.code
  else if kind = ch 'b' ∧ itemsize = 1 then .ok ScalarType.bool.code
  else if kind = ch 'u' ∧ itemsize = 2 then .ok ScalarType.bfloat16.code
  else .error (badDtype (kind :: cxx (toString itemsize)))

def scalarTypeToNumpy (code : Int) : Except EtError NpDtype :=
  match ScalarType.ofCode? code with
  | some .float => .ok ⟨ch 'f', 4⟩
  | some .double => .ok ⟨ch 'f', 8⟩
  | some .half => .ok ⟨ch 'f', 2⟩
  | some .long => .ok ⟨ch 'i', 8⟩
  | some .int => .ok ⟨ch 'i', 4⟩
  | some .short => .ok ⟨ch 'i', 2⟩
  | some .char => .ok ⟨ch 'i', 1⟩
  | some .byte => .ok ⟨ch 'u', 1⟩
  | some .bool => .ok ⟨ch 'b', 1⟩
  | some .bfloat16 => .ok ⟨ch 'u', 2⟩
  | none => .error (badDtype (cxx "ScalarType(" ++ cxx (toString code) ++ cxx ")"))

theorem ScalarType.ofCode?_code (t : ScalarType) : ScalarType.ofCode? t.code = some t := by
  cases t <;> rfl

theorem ScalarType.code_of_ofCode? {code : Int} {t : ScalarType} (h : ScalarType.ofCode? code = some t) :
    t.code = code := by
  have hFound := List.find?_some h
  simpa using hFound

def ScalarType.npDtype : ScalarType → NpDtype
  | .float => ⟨ch 'f', 4⟩
  | .double => ⟨ch 'f', 8⟩
  | .half => ⟨ch 'f', 2⟩
  | .long => ⟨ch 'i', 8⟩
  | .int => ⟨ch 'i', 4⟩
  | .short => ⟨ch 'i', 2⟩
  | .char => ⟨ch 'i', 1⟩
  | .byte => ⟨ch 'u', 1⟩
  | .bool => ⟨ch 'b', 1⟩
  | .bfloat16 => ⟨ch 'u', 2⟩

theorem scalarTypeToNumpy_eq_ok_iff (code : Int) (d : NpDtype) :
    scalarTypeToNumpy code = .ok d ↔ ∃ t : ScalarType, t.code = code ∧ t.npDtype = d := by
  constructor
  · intro h
    cases hCode : ScalarType.ofCode? code with
    | none => simp [scalarTypeToNumpy, hCode] at h
    | some t =>
      refine ⟨t, ScalarType.code_of_ofCode? hCode, ?_⟩
      cases t <;> simpa [scalarTypeToNumpy, hCode, ScalarType.npDtype] using h
  · rintro ⟨t, rfl, rfl⟩
    rw [scalarTypeToNumpy, ScalarType.ofCode?_code]
    cases t <;> rfl

/-- The rows of the table are the dtypes; all else is refused by its name. -/
theorem numpyCodeToScalarType_cases (kind : UInt8) (itemsize : Nat) :
    (∃ t : ScalarType, t.npDtype = ⟨kind, itemsize⟩ ∧
      numpyCodeToScalarType kind itemsize = .ok t.code) ∨
      numpyCodeToScalarType kind itemsize = .error (badDtype (kind :: cxx (toString itemsize))) := by
  generalize hResult : numpyCodeToScalarType kind itemsize = result
  unfold numpyCodeToScalarType at hResult
  repeat' split at hResult
  all_goals first
    | (rename_i hRow; obtain ⟨rfl, rfl⟩ := hRow; exact Or.inl ⟨_, rfl, hResult.symm⟩)
    | exact Or.inr hResult.symm

theorem numpyCodeToScalarType_eq_ok_iff (kind : UInt8) (itemsize : Nat) (code : Int) :
    numpyCodeToScalarType kind itemsize = .ok code ↔
      ∃ t : ScalarType, t.code = code ∧ t.npDtype = ⟨kind, itemsize⟩ := by
  constructor
  · intro h
    rcases numpyCodeToScalarType_cases kind itemsize with ⟨t, hRow, hOk⟩ | hError
    · rw [hOk] at h
      cases h
      exact ⟨t, rfl, hRow⟩
    · rw [hError] at h
      cases h
  · rintro ⟨t, rfl, hRow⟩
    cases t <;> cases hRow <;> rfl

theorem npDtype_itemsize_pos (t : ScalarType) : 0 < t.npDtype.itemsize := by
  cases t <;> decide

theorem scalarTypeToNumpy_error {code : Int} {e : EtError} (h : scalarTypeToNumpy code = .error e) :
    e = badDtype (cxx "ScalarType(" ++ cxx (toString code) ++ cxx ")") := by
  unfold scalarTypeToNumpy at h
  split at h <;> cases h
  rfl

theorem numpyCodeToScalarType_error {kind : UInt8} {itemsize : Nat} {e : EtError}
    (h : numpyCodeToScalarType kind itemsize = .error e) :
    e = badDtype (kind :: cxx (toString itemsize)) := by
  rcases numpyCodeToScalarType_cases kind itemsize with ⟨t, _, hOk⟩ | hError
  · rw [hOk] at h
    cases h
  · rw [hError] at h
    cases h
    rfl

theorem valid_text_badDtype {what : ByteString} (h : Utf8Text.Valid what) :
    Utf8Text.Valid (badDtype what).text := by
  rw [badDtype, EtError.text_of_no_detail]
  exact (valid_cxx _).append h

end ExecutorchNumpy
