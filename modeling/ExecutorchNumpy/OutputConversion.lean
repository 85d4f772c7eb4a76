import ExecutorchNumpy.Binding

/-! # From EValues to Python values

Outputs are converted in two passes: the core copies every EValue into a view
(the tag decides), the binding turns every view into a Python value (dtype and
UTF-8 decide). The passes are put together here into one conversion per EValue.
-/

namespace ExecutorchNumpy
set_option autoImplicit false

open Executorch (EValue Module Tensor TensorPtr readBytes)
open DenseLayout Traverse

/-! ## Pointers into storage that grows -/

/-- The view describes the EValue, its pointer read in the given storage. -/
def Shows (memory : Nat → UInt8) (storage : List ByteString) (v : OutputView) : EValue → Prop
  | .int value => v = { kind := .int, intVal := value }
  | .double bits => v = { kind := .double, doubleVal := bits }
  | .bool value => v = { kind := .bool, intVal := if value then 1 else 0 }
  | .string data size => v = { kind := .string, strVal := readBytes memory data size }
  | .other _ => False
  | .tensor t => ∃ buffer, storage[buffer]? = some (readBytes memory t.dataPtr t.nbytes) ∧
      v = { kind := .tensor, shape := t.sizes, scalarType := t.scalarType,
            data := some buffer, nbytes := t.nbytes }

theorem Shows.grow {memory : Nat → UInt8} {storage : List ByteString} {v : OutputView} {ev : EValue}
    (h : Shows memory storage v ev) (more : List ByteString) :
    Shows memory (storage ++ more) v ev := by
  cases ev with
  | tensor t =>
    obtain ⟨buffer, hBuffer, hView⟩ := h
    have hRoom : buffer < storage.length := by
      obtain ⟨hRoom, _⟩ := List.getElem?_eq_some_iff.mp hBuffer
      exact hRoom
    exact ⟨buffer, by rw [List.getElem?_append_left hRoom, hBuffer], hView⟩
  | other tag => exact h
  | int value => exact h
  | double bits => exact h
  | bool value => exact h
  | string data size => exact h

/-! ## The first pass -/

def Supported : EValue → Prop
  | .other _ => False
  | _ => True

instance : DecidablePred Supported := fun ev => by
  cases ev <;> unfold Supported <;> infer_instance

theorem length_readBytes (memory : Nat → UInt8) (ptr n : Nat) :
    (readBytes memory ptr n).length = n := by
  simp [readBytes]

theorem copyOutput_supported (memory : Nat → UInt8) (name : ByteString) (fs : ForwardState)
    {ev : EValue} (h : Supported ev) :
    ∃ more v, copyOutput memory name fs ev = .ok ⟨fs.storage ++ more, fs.views ++ [v]⟩ ∧
      Shows memory (fs.storage ++ more) v ev := by
  cases ev with
  | other tag => cases h
  | tensor t =>
    refine ⟨[readBytes memory t.dataPtr t.nbytes], _, rfl, fs.storage.length, ?_, ?_⟩
    · rw [List.getElem?_append_right (Nat.le_refl _), Nat.sub_self]
      rfl
    · rw [length_readBytes]
  | int value => exact ⟨[], _, by rw [List.append_nil]; rfl, rfl⟩
  | double bits => exact ⟨[], _, by rw [List.append_nil]; rfl, rfl⟩
  | bool value => exact ⟨[], _, by rw [List.append_nil]; rfl, rfl⟩
  | string data size => exact ⟨[], _, by rw [List.append_nil]; rfl, rfl⟩

theorem copyOutput_unsupported (memory : Nat → UInt8) (name : ByteString) (fs : ForwardState)
    {ev : EValue} (h : ¬ Supported ev) :
    copyOutput memory name fs ev = .error (unsupportedOutput name) := by
  cases ev with
  | other tag => rfl
  | _ => exact absurd trivial h

/-- The first pass fails exactly on an unsupported tag; otherwise every view shows its EValue in
the final storage, whatever was pushed after it. -/
theorem copyOutputs_spec (memory : Nat → UInt8) (name : ByteString) (evs done : List EValue)
    (fs : ForwardState) (hDone : List.Forall₂ (Shows memory fs.storage) fs.views done) :
    (∀ ev ∈ evs, Supported ev) ∧
        (∃ final, copyOutputs memory name evs fs = .ok final ∧
          List.Forall₂ (Shows memory final.storage) final.views (done ++ evs)) ∨
      (∃ ev ∈ evs, ¬ Supported ev) ∧
        copyOutputs memory name evs fs = .error (unsupportedOutput name) := by
  induction evs generalizing done fs with
  | nil => exact Or.inl ⟨by simp, fs, rfl, by rwa [List.append_nil]⟩
  | cons ev rest ih =>
    by_cases hEv : Supported ev
    · obtain ⟨more, v, hCopy, hShows⟩ := copyOutput_supported memory name fs hEv
      have hNext : List.Forall₂ (Shows memory (fs.storage ++ more)) (fs.views ++ [v])
          (done ++ [ev]) := by
        apply List.rel_append
        · exact hDone.imp fun _ _ h => h.grow more
        · exact .cons hShows .nil
      have hStep : copyOutputs memory name (ev :: rest) fs =
          copyOutputs memory name rest ⟨fs.storage ++ more, fs.views ++ [v]⟩ := by
        rw [copyOutputs, hCopy]
      rw [hStep]
      rcases ih (done ++ [ev]) ⟨fs.storage ++ more, fs.views ++ [v]⟩ hNext with
        ⟨hRest, final, hFinal, hAll⟩ | ⟨⟨bad, hBad, hTag⟩, hError⟩
      · refine Or.inl ⟨?_, final, hFinal, ?_⟩
        · intro other hOther
          rcases List.mem_cons.mp hOther with rfl | hOther
          · exact hEv
          · exact hRest other hOther
        · rwa [List.append_assoc] at hAll
      · exact Or.inr ⟨⟨bad, List.mem_cons_of_mem ev hBad, hTag⟩, hError⟩
    · refine Or.inr ⟨⟨ev, List.mem_cons_self, hEv⟩, ?_⟩
      rw [copyOutputs, copyOutput_unsupported memory name fs hEv]

/-! ## The second pass -/

def rowMajorArray (memory : Nat → UInt8) (t : Tensor) (d : NpDtype) : CArray where
  dtype := dlpackDtype d
  shape := t.shape
  bytes := readBytes memory t.dataPtr (t.shape.prod * (dlpackDtype d).itemsize)
  bytes_length := length_readBytes _ _ _

def convert (memory : Nat → UInt8) (method : ByteString) (index : Nat) :
    EValue → Except EtError PyValue
  | .int value => .ok (.int value)
  | .double bits => .ok (.float bits)
  | .bool value => .ok (.bool value)
  | .string data size =>
    match decodeUtf8 (readBytes memory data size) with
    | none => .error (notUtf8 method index)
    | some text => .ok (.str text)
  | .other _ => .error (unsupportedOutput method)
  | .tensor t =>
    match scalarTypeToNumpy t.scalarType with
    | .error e => .error e
    | .ok d => .ok (.ndarray (rowMajorArray memory t d))

theorem itemsize_dlpackDtype {code : Int} {d : NpDtype} (h : scalarTypeToNumpy code = .ok d) :
    (dlpackDtype d).itemsize = d.itemsize := by
  obtain ⟨t, _, rfl⟩ := (scalarTypeToNumpy_eq_ok_iff _ _).mp h
  cases t <;> rfl

theorem elementSize_of_mapped {t : Tensor} {d : NpDtype} (h : scalarTypeToNumpy t.scalarType = .ok d) :
    (dlpackDtype d).itemsize = t.elementSize := by
  rw [itemsize_dlpackDtype h]
  obtain ⟨type, hCode, rfl⟩ := (scalarTypeToNumpy_eq_ok_iff _ _).mp h
  exact (t.elementSize_eq type hCode).symm

theorem map_toSizeT_sizes (t : Tensor) : t.sizes.map toSizeT = t.shape := by
  apply List.map_congr_left
  intro s hs
  have hRange := t.sizes_range s hs
  rw [toSizeT, Int.emod_eq_of_lt hRange.1 (by omega)]

theorem readBytes_storage {memory : Nat → UInt8} {storage : List ByteString} {buffer ptr n : Nat}
    (h : storage[buffer]? = some (readBytes memory ptr n)) :
    readBytes (storageMemory storage (some buffer)) 0 n = readBytes memory ptr n := by
  apply List.map_congr_left
  intro i hi
  have hGet : storage.getD buffer [] = readBytes memory ptr n := by
    rw [List.getD_eq_getElem?_getD, h]
    rfl
  have hRoom : i < (readBytes memory ptr n).length := by
    rw [length_readBytes]
    exact List.mem_range.mp hi
  rw [storageMemory, hGet, Nat.zero_add, List.getD_eq_getElem _ _ hRoom]
  simp [readBytes]

/-- The second pass reads nothing but what the first one stored for the same output. -/
theorem copyOut_of_shows {memory : Nat → UInt8} {storage : List ByteString} {v : OutputView}
    {ev : EValue} (h : Shows memory storage v ev) (method : ByteString) (index : Nat) :
    copyOut storage v method index = convert memory method index ev := by
  cases ev with
  | int value => rw [h]; rfl
  | double bits => rw [h]; rfl
  | bool value =>
    rw [h]
    cases value <;> rfl
  | string data size => rw [h]; rfl
  | other tag => cases h
  | tensor t =>
    obtain ⟨buffer, hBuffer, rfl⟩ := h
    simp only [copyOut, convert, map_toSizeT_sizes]
    cases hDtype : scalarTypeToNumpy t.scalarType with
    | error e => rfl
    | ok d =>
      have hBytes : t.shape.prod * (dlpackDtype d).itemsize = t.nbytes := by
        rw [elementSize_of_mapped hDtype]
        rfl
      simp only [numpyCopy, rowMajorArray, hBytes, readBytes_storage hBuffer]

theorem copyOutAll_of_shows {memory : Nat → UInt8} {fs : ForwardState} {evs : List EValue}
    (h : List.Forall₂ (Shows memory fs.storage) fs.views evs) (method : ByteString) :
    copyOutAll method fs = traverseFrom (convert memory method) 0 evs := by
  have hFrom : ∀ (views : List OutputView) (evs : List EValue) (i : Nat),
      List.Forall₂ (Shows memory fs.storage) views evs →
      traverseFrom (fun index v => copyOut fs.storage v method index) i views =
        traverseFrom (convert memory method) i evs := by
    intro views evs i hShows
    induction hShows generalizing i with
    | nil => rfl
    | cons hHead _ ih => rw [traverseFrom, traverseFrom, copyOut_of_shows hHead, ih]
  exact hFrom fs.views evs 0 h

/-- Both passes over the whole list: tags are checked for all outputs before anything else is. -/
theorem convertAll (memory : Nat → UInt8) (method : ByteString) (evs : List EValue) :
    (copyOutputs memory method evs ⟨[], []⟩ >>= copyOutAll method) =
      if ∀ ev ∈ evs, Supported ev then traverseFrom (convert memory method) 0 evs
      else .error (unsupportedOutput method) := by
  rcases copyOutputs_spec memory method evs [] ⟨[], []⟩ .nil with
    ⟨hSupported, final, hFinal, hShows⟩ | ⟨⟨ev, hMem, hTag⟩, hError⟩
  · rw [if_pos hSupported, hFinal]
    exact copyOutAll_of_shows hShows method
  · rw [if_neg fun hAll => hTag (hAll ev hMem), hError]
    rfl

end ExecutorchNumpy
