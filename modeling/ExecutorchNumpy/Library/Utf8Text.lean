import Mathlib.Data.List.TakeWhile

/-! # Strict UTF-8 over byte lists

Decoding is the inverse of the character encoder and fails on everything else.
The lemmas say how validity behaves under the operations that error messages
are built with: concatenation with ASCII text and truncation at a NUL byte.
-/

namespace Utf8Text
set_option autoImplicit false

def encode (chars : List Char) : List UInt8 := chars.flatMap String.utf8EncodeChar

def decode (bytes : List UInt8) : Option (List Char) :=
  bytes.toByteArray.utf8Decode?.map Array.toList

def Valid (bytes : List UInt8) : Prop := ∃ chars, encode chars = bytes

def Ascii (bytes : List UInt8) : Prop := ∀ b ∈ bytes, b.toNat < 128

instance (bytes : List UInt8) : Decidable (Ascii bytes) :=
  List.decidableBAll (fun b : UInt8 => b.toNat < 128) bytes

/-- The bytes a C string reader sees: everything before the first NUL. -/
def cString (bytes : List UInt8) : List UInt8 := bytes.takeWhile (fun b => b != 0)

@[simp] theorem encode_nil : encode [] = [] := rfl

@[simp] theorem encode_cons (c : Char) (chars : List Char) :
    encode (c :: chars) = String.utf8EncodeChar c ++ encode chars := rfl

theorem encode_append (left right : List Char) :
    encode (left ++ right) = encode left ++ encode right := List.flatMap_append

theorem toByteArray_encode (chars : List Char) : (encode chars).toByteArray = chars.utf8Encode := rfl

theorem decode_eq_some_iff (bytes : List UInt8) (chars : List Char) :
    decode bytes = some chars ↔ encode chars = bytes := by
  constructor
  · intro h
    obtain ⟨array, hArray, hChars⟩ := Option.map_eq_some_iff.mp h
    have hSome : bytes.toByteArray.utf8Decode?.isSome = true := by rw [hArray]; rfl
    have hEncode := ByteArray.utf8Encode_get_utf8Decode? (h := hSome)
    simp only [hArray, Option.get_some, hChars] at hEncode
    rw [← toByteArray_encode] at hEncode
    exact List.toByteArray_inj.mp hEncode
  · rintro rfl
    rw [decode, toByteArray_encode, List.utf8Decode?_utf8Encode]
    rfl

theorem valid_iff_decode (bytes : List UInt8) : Valid bytes ↔ (decode bytes).isSome = true := by
  rw [Option.isSome_iff_exists]
  exact exists_congr fun chars => (decode_eq_some_iff bytes chars).symm

instance : DecidablePred Valid := fun bytes => decidable_of_iff _ (valid_iff_decode bytes).symm

theorem decode_eq_none_iff (bytes : List UInt8) : decode bytes = none ↔ ¬ Valid bytes := by
  rw [valid_iff_decode, Option.not_isSome_iff_eq_none]

theorem valid_encode (chars : List Char) : Valid (encode chars) := ⟨chars, rfl⟩

theorem Valid.append {left right : List UInt8} (hLeft : Valid left) (hRight : Valid right) :
    Valid (left ++ right) := by
  obtain ⟨first, rfl⟩ := hLeft
  obtain ⟨second, rfl⟩ := hRight
  exact ⟨first ++ second, encode_append first second⟩

/-! ## ASCII bytes are characters of their own -/

theorem encode_asciiChar : ∀ n, n < 128 → String.utf8EncodeChar (Char.ofNat n) = [UInt8.ofNat n] := by
  decide +kernel

theorem encodeChar_byte {b : UInt8} (h : b.toNat < 128) :
    String.utf8EncodeChar (Char.ofNat b.toNat) = [b] := by
  rw [encode_asciiChar b.toNat h, UInt8.ofNat_toNat]

theorem Ascii.encode_map {bytes : List UInt8} (h : Ascii bytes) :
    encode (bytes.map fun b => Char.ofNat b.toNat) = bytes := by
  induction bytes with
  | nil => rfl
  | cons b bytes ih =>
    have hHead := h b List.mem_cons_self
    have hTail := ih fun c hc => h c (List.mem_cons_of_mem b hc)
    rw [List.map_cons, encode_cons, encodeChar_byte hHead, hTail]
    rfl

theorem Ascii.valid {bytes : List UInt8} (h : Ascii bytes) : Valid bytes := ⟨_, h.encode_map⟩

theorem ascii_firstByte {b : UInt8} (h : b.toNat < 128) : b &&& 0x80 = 0 := by
  have hAll : ∀ n, n < 128 → UInt8.ofNat n &&& 0x80 = 0 := by decide +kernel
  have hByte := hAll b.toNat h
  rwa [UInt8.ofNat_toNat] at hByte

theorem encodeChar_ne_nil (c : Char) : String.utf8EncodeChar c ≠ [] := by
  intro h
  have hLength := String.length_utf8EncodeChar c
  rw [h, List.length_nil] at hLength
  exact absurd c.utf8Size_pos (by omega)

/-- An encoded character is determined by the first character of any text it begins. -/
theorem encodeChar_eq_of_append {c d : Char} {rest : List UInt8}
    (h : String.utf8EncodeChar c = String.utf8EncodeChar d ++ rest) : c = d := by
  have hc := ByteArray.utf8DecodeChar?_utf8EncodeChar_append (c := c) (b := ByteArray.empty)
  have hd := ByteArray.utf8DecodeChar?_utf8EncodeChar_append (c := d) (b := rest.toByteArray)
  rw [h, List.toByteArray_append, ByteArray.append_empty] at hc
  exact Option.some.inj (hc.symm.trans hd)

/-- An ASCII byte never occurs inside the encoding of another character. -/
theorem encodeChar_of_ascii_mem {c : Char} {b : UInt8} (hMem : b ∈ String.utf8EncodeChar c)
    (hAscii : b.toNat < 128) : String.utf8EncodeChar c = [b] := by
  obtain ⟨i, hi, hGet⟩ := List.getElem_of_mem hMem
  have hFirst : (String.utf8EncodeChar c)[i].IsUTF8FirstByte := by
    rw [hGet]
    exact Or.inl (ascii_firstByte hAscii)
  have hIndex : i = 0 := UInt8.isUTF8FirstByte_getElem_utf8EncodeChar.mp hFirst
  subst hIndex
  have hChar := encodeChar_byte hAscii
  have hSplit : String.utf8EncodeChar c =
      String.utf8EncodeChar (Char.ofNat b.toNat) ++ (String.utf8EncodeChar c).tail := by
    rw [hChar, ← hGet, List.singleton_append, ← List.head_eq_getElem (encodeChar_ne_nil c),
      List.cons_head_tail]
  rw [encodeChar_eq_of_append hSplit, hChar]

theorem nul_mem_encode_iff {chars : List Char} : (0 : UInt8) ∈ encode chars ↔ Char.ofNat 0 ∈ chars := by
  have hNul : String.utf8EncodeChar (Char.ofNat 0) = [0] := encodeChar_byte (b := 0) (by decide)
  rw [encode, List.mem_flatMap]
  constructor
  · rintro ⟨c, hc, hMem⟩
    have hOne := encodeChar_of_ascii_mem hMem (by decide)
    have hSplit : String.utf8EncodeChar c = String.utf8EncodeChar (Char.ofNat 0) ++ [] := by
      rw [hOne, hNul, List.append_nil]
    have hEq := encodeChar_eq_of_append hSplit
    exact hEq ▸ hc
  · intro h
    exact ⟨Char.ofNat 0, h, by rw [hNul]; exact List.mem_singleton_self 0⟩

/-! ## Validity of assembled messages -/

theorem Ascii.valid_append_iff {head tail : List UInt8} (h : Ascii head) :
    Valid (head ++ tail) ↔ Valid tail := by
  constructor
  · rintro ⟨chars, hChars⟩
    induction head generalizing chars with
    | nil => exact ⟨chars, hChars⟩
    | cons b head ih =>
      have hHead := h b List.mem_cons_self
      have hTail : Ascii head := fun c hc => h c (List.mem_cons_of_mem b hc)
      cases chars with
      | nil => cases hChars
      | cons c chars =>
        rw [encode_cons] at hChars
        obtain ⟨first, rest, hFirst⟩ := List.exists_cons_of_ne_nil (encodeChar_ne_nil c)
        have hEq : first = b := by
          rw [hFirst] at hChars
          exact (List.cons.inj hChars).1
        have hOne : String.utf8EncodeChar c = [b] :=
          encodeChar_of_ascii_mem (by rw [hFirst, hEq]; exact List.mem_cons_self) hHead
        rw [hOne] at hChars
        exact ih hTail chars (List.cons.inj hChars).2
  · exact fun hTail => h.valid.append hTail

/-- A text cut in front of an ASCII byte is cut between two characters. -/
theorem valid_of_append_ascii {body : List UInt8} {b : UInt8} {rest : List UInt8}
    (hAscii : b.toNat < 128) (chars : List Char) (h : encode chars = body ++ b :: rest) :
    Valid body := by
  induction chars generalizing body with
  | nil => cases body <;> cases h
  | cons c chars ih =>
    rw [encode_cons] at h
    rcases List.append_eq_append_iff.mp h with ⟨middle, hBody, hRest⟩ | ⟨middle, hChar, hRest⟩
    · obtain ⟨tail, hTail⟩ : Valid middle := ih hRest
      refine ⟨c :: tail, ?_⟩
      rw [encode_cons, hTail, ← hBody]
    · cases middle with
      | nil => exact ⟨[c], by rw [encode_cons, encode_nil, List.append_nil, hChar, List.append_nil]⟩
      | cons first middle =>
        have hFirst : first = b := (List.cons.inj hRest).1.symm
        have hMem : b ∈ String.utf8EncodeChar c := by
          rw [hChar, hFirst]
          exact List.mem_append_right _ List.mem_cons_self
        have hOne := encodeChar_of_ascii_mem hMem hAscii
        rw [hOne] at hChar
        have hNil : body = [] := by
          have hLength := congrArg List.length hChar
          simp only [List.length_append, List.length_cons, List.length_nil] at hLength
          exact List.eq_nil_of_length_eq_zero (by omega)
        exact hNil ▸ ⟨[], rfl⟩

theorem Ascii.append_valid_iff {head tail : List UInt8} (h : Ascii tail) :
    Valid (head ++ tail) ↔ Valid head := by
  constructor
  · rintro ⟨chars, hChars⟩
    cases tail with
    | nil => exact ⟨chars, by rw [hChars, List.append_nil]⟩
    | cons b rest => exact valid_of_append_ascii (h b List.mem_cons_self) chars hChars
  · exact fun hHead => hHead.append h.valid

theorem cString_append_nul {before after : List UInt8} (h : (0 : UInt8) ∉ before) :
    cString (before ++ 0 :: after) = before := by
  rw [cString, List.takeWhile_append_of_pos]
  · simp
  · intro b hb
    exact bne_iff_ne.mpr fun hZero => h (hZero ▸ hb)

theorem cString_of_not_mem {bytes : List UInt8} (h : (0 : UInt8) ∉ bytes) : cString bytes = bytes := by
  apply List.takeWhile_eq_self_iff.mpr
  intro b hb
  exact bne_iff_ne.mpr fun hZero => h (hZero ▸ hb)

theorem Valid.cString {bytes : List UInt8} (h : Valid bytes) : Valid (cString bytes) := by
  by_cases hZero : (0 : UInt8) ∈ bytes
  · obtain ⟨before, after, rfl, hBefore⟩ := List.eq_append_cons_of_mem hZero
    obtain ⟨chars, hChars⟩ := h
    rw [cString_append_nul hBefore]
    exact valid_of_append_ascii (by decide) chars hChars
  · rwa [cString_of_not_mem hZero]

end Utf8Text
