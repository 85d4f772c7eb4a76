import ExecutorchNumpy.InputMarshal

/-! # Calls through the public API

`Method.__call__` makes every input contiguous with numpy before the binding
does so again. The two mechanisms agree on every array except one of rank zero.
-/

namespace ExecutorchNumpy
set_option autoImplicit false

open Executorch (Error EValue Module TensorPtr)
open Traverse

section Calls

variable {σ : Type} (M : Module σ) (host : Host) (env : Env)

def Method.call (name : Utf8String) (inputs : List NdArray) (s : RuntimeState σ) :
    Except PyException (List PyValue) × RuntimeState σ :=
  Bound.runMethod M host env name (inputs.map ascontiguousarray) s

end Calls

def handedDescs (arrs : List NdArray) : Except Thrown (List InputDesc) :=
  (holdInputs arrs).map (List.map HeldInput.desc)

theorem runMethodBody_eq {σ : Type} (M : Module σ) (host : Host) (env : Env) (name : ByteString)
    (arrs : List NdArray) (s : RuntimeState σ) :
    Bound.runMethodBody M host env name arrs s =
      match handedDescs arrs with
      | .error t => (.error t, s)
      | .ok descs =>
        match (runMethod M host env name descs).runOn s with
        | (.error e, s') => (.error (.et e), s')
        | (.ok fs, s') =>
          match copyOutAll name fs with
          | .error e => (.error (.et e), s')
          | .ok values => (.ok values, s') := by
  rw [Bound.runMethodBody, handedDescs]
  cases holdInputs arrs <;> rfl

def describe (a : NdArray) : Except Thrown InputDesc := (makeHeldInput a).map HeldInput.desc

theorem handedDescs_eq (arrs : List NdArray) :
    handedDescs arrs = traverseFrom (fun _ a => describe a) 0 arrs :=
  map_traverse HeldInput.desc 0 arrs

theorem describe_eq (a : NdArray) :
    describe a = (inputScalarType a.dtype).map fun st =>
      ⟨a.cContig.bytes, a.shape.map Int.ofNat, st⟩ := by
  rw [describe, makeHeldInput]
  simp only [NdArray.cContig_dtype, NdArray.cContig_shape]
  cases inputScalarType a.dtype <;> rfl

theorem describe_ascontiguousarray {a : NdArray} (h : a.shape ≠ []) :
    describe (ascontiguousarray a) = describe a := by
  rw [describe, describe, makeHeldInput, makeHeldInput, cContig_ascontiguousarray h]

def RefusedDtype (a : NdArray) : Prop := ¬ ∃ type : ScalarType, dlpackDtype type.npDtype = a.dtype

theorem describe_refused {a : NdArray} (h : RefusedDtype a) :
    ∃ t, describe a = .error t ∧ describe (ascontiguousarray a) = .error t := by
  rw [describe_eq, describe_eq, ascontiguousarray_dtype]
  cases hType : inputScalarType a.dtype with
  | error t => exact ⟨t, rfl, rfl⟩
  | ok st =>
    obtain ⟨type, _, hDtype⟩ := (inputScalarType_eq_ok_iff _ _).mp hType
    exact absurd ⟨type, hDtype⟩ h

theorem describe_accepted {a : NdArray} (h : ¬ RefusedDtype a) :
    (∃ d, describe a = .ok d ∧ d.shape = a.shape.map Int.ofNat) ∧
      ∃ d, describe (ascontiguousarray a) = .ok d ∧
        d.shape = (ascontiguousarray a).shape.map Int.ofNat := by
  obtain ⟨type, hDtype⟩ := not_not.mp h
  have hType : inputScalarType a.dtype = .ok type.code :=
    (inputScalarType_eq_ok_iff _ _).mpr ⟨type, rfl, hDtype⟩
  rw [describe_eq, describe_eq, ascontiguousarray_dtype, hType]
  exact ⟨⟨_, rfl, rfl⟩, _, rfl, rfl⟩

/-- The public call hands over what the direct call does, and ends as it ends. -/
def AddsNothing (arrs : List NdArray) : Prop :=
  handedDescs (arrs.map ascontiguousarray) = handedDescs arrs ∧
  ∀ (σ : Type) (M : Module σ) (host : Host) (env : Env) (name : Utf8String) (s : RuntimeState σ),
    Method.call M host env name arrs s = Bound.runMethod M host env name arrs s

theorem addsNothing_iff_handedDescs (arrs : List NdArray) :
    AddsNothing arrs ↔ handedDescs (arrs.map ascontiguousarray) = handedDescs arrs := by
  refine ⟨fun h => h.1, fun h => ⟨h, ?_⟩⟩
  intro σ M host env name s
  rw [Method.call, Bound.runMethod, Bound.runMethod, runMethodBody_eq, runMethodBody_eq, h]

theorem handedDescs_ascontiguousarray (arrs : List NdArray) :
    handedDescs (arrs.map ascontiguousarray) =
      traverseFrom (fun _ a => describe (ascontiguousarray a)) 0 arrs := by
  rw [handedDescs_eq, traverse_map]

/-- One refused dtype decides the outcome of both calls: neither looks at a shape before it. -/
theorem traverse_describe_refused {arrs : List NdArray} (h : ∃ a ∈ arrs, RefusedDtype a) (i : Nat) :
    ∃ t, traverseFrom (fun _ a => describe (ascontiguousarray a)) i arrs = .error t ∧
      traverseFrom (fun _ a => describe a) i arrs = .error t := by
  induction arrs generalizing i with
  | nil => simp at h
  | cons a rest ih =>
    by_cases hRefused : RefusedDtype a
    · obtain ⟨t, hDirect, hPublic⟩ := describe_refused hRefused
      exact ⟨t, traverse_cons_eq_error_iff.mpr (Or.inl hPublic),
        traverse_cons_eq_error_iff.mpr (Or.inl hDirect)⟩
    · have hRest : ∃ b ∈ rest, RefusedDtype b := by
        obtain ⟨b, hb, hRefusedB⟩ := h
        rcases List.mem_cons.mp hb with rfl | hb
        · exact absurd hRefusedB hRefused
        · exact ⟨b, hb, hRefusedB⟩
      obtain ⟨t, hPublic, hDirect⟩ := ih hRest (i + 1)
      obtain ⟨⟨d, hd, _⟩, d', hd', _⟩ := describe_accepted hRefused
      exact ⟨t, traverse_cons_eq_error_iff.mpr (Or.inr ⟨d', hd', hPublic⟩),
        traverse_cons_eq_error_iff.mpr (Or.inr ⟨d, hd, hDirect⟩)⟩

theorem shape_ne_nil_of_handedDescs {arrs : List NdArray} (hAccepted : ∀ a ∈ arrs, ¬ RefusedDtype a)
    (h : handedDescs (arrs.map ascontiguousarray) = handedDescs arrs) {a : NdArray} (ha : a ∈ arrs) :
    a.shape ≠ [] := by
  rw [handedDescs_ascontiguousarray, handedDescs_eq] at h
  obtain ⟨descs, hDescs⟩ := traverse_ok_of_forall (f := fun _ a => describe a) (i := 0)
    fun _ b hb => (describe_accepted (hAccepted b hb)).1.imp fun _ hd => hd.1
  have hPublic := h.trans hDescs
  obtain ⟨k, hk⟩ := List.mem_iff_getElem?.mp ha
  obtain ⟨d, hd, hDirectDesc⟩ := (traverse_eq_ok_iff.mp hDescs).2 k a hk
  obtain ⟨d', hd', hPublicDesc⟩ := (traverse_eq_ok_iff.mp hPublic).2 k a hk
  obtain rfl : d = d' := Option.some.inj (hd.symm.trans hd')
  obtain ⟨⟨e, he, hShape⟩, e', he', hShape'⟩ := describe_accepted (hAccepted a ha)
  obtain rfl : d = e := Except.ok.inj (hDirectDesc.symm.trans he)
  obtain rfl : d = e' := Except.ok.inj (hPublicDesc.symm.trans he')
  intro hScalar
  rw [hShape, hScalar, ascontiguousarray_scalar_shape hScalar] at hShape'
  cases hShape'

/-- The public API is the direct call exactly when no accepted list contains a 0-d array. -/
theorem api_adds_nothing_iff (arrs : List NdArray) :
    AddsNothing arrs ↔ (∃ a ∈ arrs, RefusedDtype a) ∨ ∀ a ∈ arrs, a.shape ≠ [] := by
  rw [addsNothing_iff_handedDescs]
  constructor
  · intro h
    by_cases hRefused : ∃ a ∈ arrs, RefusedDtype a
    · exact Or.inl hRefused
    · refine Or.inr fun a ha => shape_ne_nil_of_handedDescs (fun b hb hNot => ?_) h ha
      exact hRefused ⟨b, hb, hNot⟩
  · rw [handedDescs_ascontiguousarray, handedDescs_eq]
    rintro (hRefused | hShapes)
    · obtain ⟨t, hPublic, hDirect⟩ := traverse_describe_refused hRefused 0
      rw [hPublic, hDirect]
    · exact traverse_congr fun _ a ha => describe_ascontiguousarray (hShapes a ha)

def zeroScalar : NdArray := ⟨DType.float32, [], [], 0, fun _ => 0⟩

/-- A program with one method of signature `float32[]`: any other input is an invalid argument. -/
def scalarProgram : Module Unit where
  loadPath _ := .ok ()
  loadBuffer _ := .ok ()
  methodNames s := (.ok [cxx "forward"], s)
  methodMeta _ s := (.ok ⟨[.ok ⟨[], ScalarType.float.code, true⟩], [], fun _ => false⟩, s)
  execute _ inputs s :=
    (if inputs.map (fun t => (t.sizes, t.scalarType)) = [([], ScalarType.float.code)] then .ok [.int 0]
      else .error 18, s)
  memory _ _ := 0

theorem zeroScalar_gains_a_dimension :
    handedDescs [zeroScalar] = .ok [⟨[0, 0, 0, 0], [], ScalarType.float.code⟩] ∧
    handedDescs ([zeroScalar].map ascontiguousarray) =
      .ok [⟨[0, 0, 0, 0], [1], ScalarType.float.code⟩] ∧
    (Bound.runMethod scalarProgram ⟨false, [], fun _ => none⟩ none ⟨cxx "forward", valid_cxx _⟩
      [zeroScalar] ⟨(), false⟩).1 = .ok [.int 0] ∧
    (Method.call scalarProgram ⟨false, [], fun _ => none⟩ none ⟨cxx "forward", valid_cxx _⟩
      [zeroScalar] ⟨(), false⟩).1 =
        .error (.executorch .executionError (py "execute('forward') failed")) ∧
    ¬ AddsNothing [zeroScalar] := by
  have hDirect : handedDescs [zeroScalar] = .ok [⟨[0, 0, 0, 0], [], ScalarType.float.code⟩] := rfl
  have hPublic : handedDescs ([zeroScalar].map ascontiguousarray) =
      .ok [⟨[0, 0, 0, 0], [1], ScalarType.float.code⟩] := rfl
  refine ⟨hDirect, hPublic, rfl, rfl, fun h => ?_⟩
  have hSame := h.1
  rw [hDirect, hPublic] at hSame
  exact absurd hSame (by decide)

end ExecutorchNumpy
