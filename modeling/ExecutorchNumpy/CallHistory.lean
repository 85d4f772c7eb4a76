import ExecutorchNumpy.PublicApi

/-! # Calls after other calls

ExecuTorch keeps the input slots of a method between executions. `run_method`
writes as many slots as it is given inputs and never compares their number with
the method, so an execution can read what earlier calls have left.
-/

namespace ExecutorchNumpy
set_option autoImplicit false

open Executorch (Error EValue Module TensorPtr TensorInfo)

/-! ## A program by its input slots -/

/-- `outputs` computes from the contents of all slots; it leaves its tensors in the arena. -/
structure SlotProgram where
  methods : List ByteString
  metadata : ByteString → Except Error Executorch.MethodMeta
  arity : ByteString → Option Nat
  fits : ByteString → Nat → TensorPtr → Bool
  outputs : ByteString → List TensorPtr → Except Error (List EValue) × (Nat → UInt8)

structure Filled where
  value : TensorPtr
  call : Nat
  deriving DecidableEq, Repr

/-- `clock` counts executions; `reads` are the slots that the last one has read. -/
structure SlotState where
  slots : ByteString → Nat → Option Filled
  clock : Nat
  reads : List Filled
  arena : Nat → UInt8

/-- Writing the values to the slots in order, up to the first that does not fit or has no slot. -/
def fill (fits : Nat → TensorPtr → Bool) (n call : Nat) :
    Nat → List TensorPtr → (Nat → Option Filled) → Bool × (Nat → Option Filled)
  | _, [], slots => (true, slots)
  | i, v :: vals, slots =>
    if i < n ∧ fits i v = true then
      fill fits n call (i + 1) vals (Function.update slots i (some ⟨v, call⟩))
    else (false, slots)

def SlotProgram.execute (P : SlotProgram) (name : ByteString) (vals : List TensorPtr) (st : SlotState) :
    Except Error (List EValue) × SlotState :=
  match P.arity name with
  | none => (.error 18, { st with clock := st.clock + 1, reads := [] })
  | some n =>
    let (fitted, slots) := fill (P.fits name) n st.clock 0 vals (st.slots name)
    let next : SlotState := { st with
      slots := Function.update st.slots name slots, clock := st.clock + 1, reads := [] }
    if fitted = false then (.error 18, next)
    else if (List.range n).all fun i => (slots i).isSome then
      let filled := (List.range n).filterMap slots
      let (result, arena) := P.outputs name (filled.map Filled.value)
      (result, { next with reads := filled, arena := arena })
    else (.error 18, next)

def SlotProgram.loaded : SlotState := ⟨fun _ _ => none, 0, [], fun _ => 0⟩

def slotModule (P : SlotProgram) : Module SlotState where
  loadPath _ := .ok SlotProgram.loaded
  loadBuffer _ := .ok SlotProgram.loaded
  methodNames st := (.ok P.methods, st)
  methodMeta name st := (P.metadata name, st)
  execute := P.execute
  memory st := st.arena

/-! ## Filling slots -/

section Fill

variable {fits : Nat → TensorPtr → Bool} {n call : Nat}

/-- Whether the values fit does not depend on what the slots hold. -/
theorem fill_fitted (i : Nat) (vals : List TensorPtr) (slots : Nat → Option Filled) :
    (fill fits n call i vals slots).1 = true ↔
      ∀ k v, vals[k]? = some v → i + k < n ∧ fits (i + k) v = true := by
  induction vals generalizing i slots with
  | nil => simp [fill]
  | cons v vals ih =>
    rw [fill]
    split
    · rename_i hFits
      rw [ih]
      constructor
      · intro h k v' hv'
        cases k with
        | zero =>
          cases hv'
          exact hFits
        | succ k =>
          have hNext := h k v' hv'
          rwa [Nat.add_assoc, Nat.add_comm 1 k] at hNext
      · intro h k v' hv'
        have hNext := h (k + 1) v' hv'
        rwa [Nat.add_assoc, Nat.add_comm 1 k]
    · rename_i hFits
      refine iff_of_false (by simp) fun h => hFits ?_
      exact h 0 v rfl

theorem fill_slots {i : Nat} {vals : List TensorPtr} {slots : Nat → Option Filled}
    (h : (fill fits n call i vals slots).1 = true) (j : Nat) :
    (fill fits n call i vals slots).2 j =
      if i ≤ j ∧ j < i + vals.length then vals[j - i]?.map fun v => ⟨v, call⟩ else slots j := by
  induction vals generalizing i slots with
  | nil =>
    rw [if_neg (by simp)]
    rfl
  | cons v vals ih =>
    rw [fill] at h ⊢
    split at h
    · rename_i hFits
      rw [if_pos hFits, ih h]
      by_cases hj : j = i
      · subst hj
        simp
      · by_cases hIn : i ≤ j ∧ j < i + (v :: vals).length
        · obtain ⟨k, rfl⟩ : ∃ k, j = i + (k + 1) := ⟨j - i - 1, by omega⟩
          rw [if_pos hIn, if_pos (by simp only [List.length_cons] at hIn; omega)]
          have hLeft : i + (k + 1) - (i + 1) = k := by omega
          have hRight : i + (k + 1) - i = k + 1 := by omega
          rw [hLeft, hRight, List.getElem?_cons_succ]
        · rw [if_neg hIn, if_neg (by simp only [List.length_cons] at hIn; omega),
            Function.update_of_ne hj]
    · cases h

theorem fill_call {i : Nat} {vals : List TensorPtr} {slots : Nat → Option Filled} {j : Nat} {f : Filled}
    (h : (fill fits n call i vals slots).2 j = some f) : f.call = call ∨ slots j = some f := by
  induction vals generalizing i slots with
  | nil => exact Or.inr h
  | cons v vals ih =>
    rw [fill] at h
    split at h
    · rcases ih h with hCall | hSlot
      · exact Or.inl hCall
      · by_cases hj : j = i
        · subst hj
          rw [Function.update_self] at hSlot
          cases hSlot
          exact Or.inl rfl
        · rw [Function.update_of_ne hj] at hSlot
          exact Or.inr hSlot
    · exact Or.inr h

/-- A slot is filled afterwards if it was before, or if the writing got as far as that slot. -/
theorem fill_isSome (i : Nat) (vals : List TensorPtr) (slots : Nat → Option Filled) (j : Nat) :
    ((fill fits n call i vals slots).2 j).isSome = true ↔ (slots j).isSome = true ∨
      i ≤ j ∧ ∀ k, i + k ≤ j → ∃ v, vals[k]? = some v ∧ i + k < n ∧ fits (i + k) v = true := by
  induction vals generalizing i slots with
  | nil =>
    refine ⟨Or.inl, fun h => ?_⟩
    rcases h with hSome | ⟨hij, hReach⟩
    · exact hSome
    · obtain ⟨v, hv, _⟩ := hReach 0 hij
      cases hv
  | cons v vals ih =>
    rw [fill]
    split
    · rename_i hFits
      rw [ih]
      by_cases hj : j = i
      · subst hj
        rw [Function.update_self]
        refine iff_of_true (Or.inl rfl) (Or.inr ⟨Nat.le_refl j, fun k hk => ?_⟩)
        obtain rfl : k = 0 := by omega
        exact ⟨v, rfl, hFits⟩
      · rw [Function.update_of_ne hj]
        refine or_congr_right ⟨fun ⟨hij, hReach⟩ => ⟨by omega, fun k hk => ?_⟩,
          fun ⟨hij, hReach⟩ => ⟨by omega, fun k hk => ?_⟩⟩
        · cases k with
          | zero => exact ⟨v, rfl, hFits⟩
          | succ k =>
            have hNext := hReach k (by omega)
            rwa [Nat.add_assoc, Nat.add_comm 1 k] at hNext
        · have hNext := hReach (k + 1) (by omega)
          rwa [Nat.add_assoc, Nat.add_comm 1 k]
    · rename_i hFits
      refine (or_iff_left fun ⟨hij, hReach⟩ => hFits ?_).symm
      obtain ⟨v', hv', hSlot⟩ := hReach 0 hij
      cases hv'
      exact hSlot

end Fill

/-! ## One execution -/

namespace SlotProgram

variable (P : SlotProgram) (name : ByteString) (vals : List TensorPtr) (st : SlotState)

def written : Nat → Option Filled :=
  match P.arity name with
  | none => st.slots name
  | some n => (fill (P.fits name) n st.clock 0 vals (st.slots name)).2

def Fits (n : Nat) : Prop := ∀ k v, vals[k]? = some v → k < n ∧ P.fits name k v = true

structure Complete (n : Nat) : Prop where
  arity : P.arity name = some n
  fits : P.Fits name vals n
  rest : ∀ i, vals.length ≤ i → i < n → (st.slots name i).isSome = true

variable {P name vals st}

theorem fitted_iff_fits {n call : Nat} {slots : Nat → Option Filled} :
    (fill (P.fits name) n call 0 vals slots).1 = true ↔ P.Fits name vals n := by
  rw [fill_fitted, Fits]
  simp only [Nat.zero_add]

theorem Fits.length_le {n : Nat} (h : P.Fits name vals n) : vals.length ≤ n := by
  by_contra hLong
  have hRoom : n < vals.length := by omega
  exact absurd (h n vals[n] (List.getElem?_eq_getElem hRoom)).1 (Nat.lt_irrefl n)

theorem execute_clock : (P.execute name vals st).2.clock = st.clock + 1 := by
  rw [execute]
  split
  · rfl
  · dsimp only
    split
    · rfl
    · split <;> rfl

theorem execute_slots :
    (P.execute name vals st).2.slots = Function.update st.slots name (P.written name vals st) := by
  unfold execute written
  split
  · exact (Function.update_eq_self name st.slots).symm
  · dsimp only
    split
    · rfl
    · split <;> rfl

theorem written_call {i : Nat} {f : Filled} (h : P.written name vals st i = some f) :
    f.call = st.clock ∨ st.slots name i = some f := by
  unfold written at h
  cases hArity : P.arity name with
  | none =>
    rw [hArity] at h
    exact Or.inr h
  | some n =>
    rw [hArity] at h
    exact fill_call h

theorem written_of_fits {n : Nat} (hArity : P.arity name = some n) (hFits : P.Fits name vals n)
    (i : Nat) : P.written name vals st i =
      if i < vals.length then vals[i]?.map fun v => ⟨v, st.clock⟩ else st.slots name i := by
  rw [written, hArity]
  simpa using fill_slots (fitted_iff_fits.mpr hFits) i

theorem written_isSome {n : Nat} (hArity : P.arity name = some n) (hFits : P.Fits name vals n) :
    (∀ i < n, (P.written name vals st i).isSome = true) ↔
      ∀ i, vals.length ≤ i → i < n → (st.slots name i).isSome = true := by
  refine ⟨fun h i hLeft hi => ?_, fun h i hi => ?_⟩
  · have hSome := h i hi
    rwa [written_of_fits hArity hFits, if_neg (by omega)] at hSome
  · rw [written_of_fits hArity hFits]
    split
    · rename_i hOwn
      simp [hOwn]
    · exact h i (by omega) hi

theorem execute_of_complete {n : Nat} (h : P.Complete name vals st n) :
    let reads := (List.range n).filterMap (P.written name vals st)
    (P.execute name vals st).2.reads = reads ∧
      ((P.execute name vals st).1, (P.execute name vals st).2.arena) =
        P.outputs name (reads.map Filled.value) := by
  have hFitted : (fill (P.fits name) n st.clock 0 vals (st.slots name)).1 = true :=
    fitted_iff_fits.mpr h.fits
  have hWritten := (written_isSome h.arity h.fits).mpr h.rest
  have hAll : ((List.range n).all fun i => (P.written name vals st i).isSome) = true := by
    simpa using hWritten
  unfold written at hAll ⊢
  rw [execute, h.arity]
  simp only [h.arity] at hAll
  dsimp only
  rw [hFitted, if_neg (by simp), if_pos hAll]
  exact ⟨rfl, rfl⟩

theorem execute_of_not_complete (h : ¬ ∃ n, P.Complete name vals st n) :
    (P.execute name vals st).1 = .error 18 ∧ (P.execute name vals st).2.reads = [] := by
  rw [execute]
  split
  · exact ⟨rfl, rfl⟩
  · rename_i n hArity
    dsimp only
    split
    · exact ⟨rfl, rfl⟩
    · rename_i hFitted
      split
      · rename_i hAll
        have hFits : P.Fits name vals n := fitted_iff_fits.mp ((Bool.not_eq_false _).mp hFitted)
        refine absurd ⟨n, hArity, hFits, (written_isSome hArity hFits).mp fun i hi => ?_⟩ h
        rw [written, hArity]
        exact List.all_eq_true.mp hAll i (List.mem_range.mpr hi)
      · exact ⟨rfl, rfl⟩

end SlotProgram

/-! ## One call -/

section Calls

variable (P : SlotProgram) (host : Host) (env : Env)

/-- The call gets as far as executing its method, with these descriptors. -/
structure Admitted (name : Utf8String) (arrs : List NdArray) (descs : List InputDesc) : Prop where
  handed : handedDescs arrs = .ok descs
  guard : guardOutcome host env (usesOutcome name openvinoBackend (P.metadata name)) = .ok ()

def delivered (name : ByteString) (run : Except Error (List EValue) × SlotState) :
    Except PyException (List PyValue) :=
  match executeOutcome (slotModule P) name run with
  | .error e => .error (translate e)
  | .ok fs => toPyResult (copyOutAll name fs)

theorem runMethod_slotModule (name : Utf8String) (arrs : List NdArray) (s : RuntimeState SlotState) :
    Bound.runMethod (slotModule P) host env name arrs s =
      match handedDescs arrs with
      | .error t => (.error t.toPython, s)
      | .ok descs =>
        match guardOutcome host env (usesOutcome name openvinoBackend (P.metadata name)) with
        | .error e => (.error (translate e), ⟨s.module, false⟩)
        | .ok () =>
          let run := P.execute name (descs.map toTensorPtr) s.module
          (delivered P name run, ⟨run.2, false⟩) := by
  rw [Bound.runMethod, runMethodBody_eq]
  cases handedDescs arrs with
  | error t => rfl
  | ok descs =>
    dsimp only
    rw [runMethod_runOn]
    dsimp only [slotModule]
    cases guardOutcome host env (usesOutcome name openvinoBackend (P.metadata name)) with
    | error e => rfl
    | ok _ =>
      dsimp only
      rw [delivered]
      dsimp only [slotModule]
      cases executeOutcome _ name.1 (P.execute name.1 (descs.map toTensorPtr) s.module) with
      | error e => rfl
      | ok fs =>
        dsimp only
        cases copyOutAll name.1 fs <;> rfl

variable {P host env}

theorem runMethod_of_admitted {name : Utf8String} {arrs : List NdArray} {descs : List InputDesc}
    (h : Admitted P host env name arrs descs) (s : RuntimeState SlotState) :
    Bound.runMethod (slotModule P) host env name arrs s =
      (delivered P name (P.execute name (descs.map toTensorPtr) s.module),
        ⟨(P.execute name (descs.map toTensorPtr) s.module).2, false⟩) := by
  rw [runMethod_slotModule, h.handed]
  dsimp only
  rw [h.guard]

theorem runMethod_of_not_admitted {name : Utf8String} {arrs : List NdArray}
    (h : ¬ ∃ descs, Admitted P host env name arrs descs) :
    ∃ e, ∀ s, (Bound.runMethod (slotModule P) host env name arrs s).1 = .error e ∧
      (Bound.runMethod (slotModule P) host env name arrs s).2.module = s.module := by
  simp only [runMethod_slotModule]
  cases hHanded : handedDescs arrs with
  | error t => exact ⟨t.toPython, fun _ => ⟨rfl, rfl⟩⟩
  | ok descs =>
    cases hGuard : guardOutcome host env (usesOutcome name openvinoBackend (P.metadata name)) with
    | error e => exact ⟨translate e, fun _ => ⟨rfl, rfl⟩⟩
    | ok _ => exact absurd ⟨descs, hHanded, hGuard⟩ h

/-! ## What a call leaves in the slots -/

/-- The call writes slot `i` of its method: no value before that slot stops the writing. -/
def Writes (P : SlotProgram) (host : Host) (env : Env) (name : Utf8String) (arrs : List NdArray)
    (i : Nat) : Prop :=
  ∃ descs n, Admitted P host env name arrs descs ∧ P.arity name = some n ∧
    ∀ k ≤ i, ∃ d, descs[k]? = some d ∧ k < n ∧ P.fits name k (toTensorPtr d) = true

theorem written_isSome_iff {name : Utf8String} {arrs : List NdArray} {descs : List InputDesc}
    (h : Admitted P host env name arrs descs) (st : SlotState) (i : Nat) :
    (P.written name (descs.map toTensorPtr) st i).isSome = true ↔
      (st.slots name i).isSome = true ∨ Writes P host env name arrs i := by
  rw [SlotProgram.written]
  cases hArity : P.arity name with
  | none =>
    refine (or_iff_left ?_).symm
    rintro ⟨_, n, _, hSome, _⟩
    rw [hArity] at hSome
    cases hSome
  | some n =>
    rw [fill_isSome]
    refine or_congr_right ⟨fun ⟨_, hReach⟩ => ⟨descs, n, h, hArity, fun k hk => ?_⟩,
      fun ⟨descs', n', h', hArity', hReach⟩ => ⟨Nat.zero_le i, fun k hk => ?_⟩⟩
    · obtain ⟨v, hv, hRoom, hFits⟩ := hReach k (by omega)
      rw [List.getElem?_map, Option.map_eq_some_iff] at hv
      obtain ⟨d, hd, rfl⟩ := hv
      rw [Nat.zero_add] at hRoom hFits
      exact ⟨d, hd, hRoom, hFits⟩
    · obtain rfl : descs = descs' := Except.ok.inj (h.handed.symm.trans h'.handed)
      obtain rfl : n = n' := Option.some.inj (hArity.symm.trans hArity')
      obtain ⟨d, hd, hRoom, hFits⟩ := hReach k (by omega)
      rw [Nat.zero_add, List.getElem?_map, hd]
      exact ⟨toTensorPtr d, rfl, hRoom, hFits⟩

theorem slots_runMethod (name : Utf8String) (arrs : List NdArray) (s : RuntimeState SlotState)
    (method : ByteString) (i : Nat) :
    ((Bound.runMethod (slotModule P) host env name arrs s).2.module.slots method i).isSome = true ↔
      (s.module.slots method i).isSome = true ∨ name.1 = method ∧ Writes P host env name arrs i := by
  by_cases hAdmitted : ∃ descs, Admitted P host env name arrs descs
  · obtain ⟨descs, h⟩ := hAdmitted
    rw [runMethod_of_admitted h]
    dsimp only
    rw [SlotProgram.execute_slots]
    by_cases hName : method = name.1
    · subst hName
      rw [Function.update_self, written_isSome_iff h, and_iff_right rfl]
    · rw [Function.update_of_ne hName]
      exact (or_iff_left fun hWrites => hName hWrites.1.symm).symm
  · obtain ⟨_, hSame⟩ := runMethod_of_not_admitted hAdmitted
    rw [(hSame s).2]
    refine (or_iff_left ?_).symm
    rintro ⟨_, descs, _, h, _⟩
    exact hAdmitted ⟨descs, h⟩

def Dated (st : SlotState) : Prop := ∀ name i f, st.slots name i = some f → f.call < st.clock

theorem dated_execute {st : SlotState} (h : Dated st) (name : ByteString) (vals : List TensorPtr) :
    Dated (P.execute name vals st).2 := by
  intro method i f hf
  rw [SlotProgram.execute_clock]
  rw [SlotProgram.execute_slots] at hf
  by_cases hName : method = name
  · subst hName
    rw [Function.update_self] at hf
    rcases SlotProgram.written_call hf with hCall | hOld
    · exact hCall ▸ Nat.lt_succ_self st.clock
    · exact Nat.lt_succ_of_lt (h method i f hOld)
  · rw [Function.update_of_ne hName] at hf
    exact Nat.lt_succ_of_lt (h method i f hf)

theorem dated_runMethod {s : RuntimeState SlotState} (h : Dated s.module) (name : Utf8String)
    (arrs : List NdArray) :
    Dated (Bound.runMethod (slotModule P) host env name arrs s).2.module := by
  by_cases hAdmitted : ∃ descs, Admitted P host env name arrs descs
  · obtain ⟨descs, hCall⟩ := hAdmitted
    rw [runMethod_of_admitted hCall]
    exact dated_execute h name _
  · obtain ⟨_, hSame⟩ := runMethod_of_not_admitted hAdmitted
    rw [(hSame s).2]
    exact h

end Calls

/-! ## Whole histories -/

section Histories

variable (P : SlotProgram) (host : Host) (env : Env)

def freshRuntime : RuntimeState SlotState := ⟨SlotProgram.loaded, false⟩

/-- The Runtime `s` after a history of calls, whatever each of them returned or raised. -/
def after (history : List (Utf8String × List NdArray)) (s : RuntimeState SlotState) :
    RuntimeState SlotState :=
  history.foldl (fun s call => (Bound.runMethod (slotModule P) host env call.1 call.2 s).2) s

variable {P host env}

theorem after_dated (history : List (Utf8String × List NdArray)) {s : RuntimeState SlotState}
    (h : Dated s.module) : Dated (after P host env history s).module := by
  induction history generalizing s with
  | nil => exact h
  | cons call history ih => exact ih (dated_runMethod h call.1 call.2)

theorem after_isSome (history : List (Utf8String × List NdArray)) (s : RuntimeState SlotState)
    (name : Utf8String) (i : Nat) :
    ((after P host env history s).module.slots name i).isSome = true ↔
      (s.module.slots name i).isSome = true ∨
        ∃ arrs, (name, arrs) ∈ history ∧ Writes P host env name arrs i := by
  induction history generalizing s with
  | nil => simp [after]
  | cons call history ih =>
    rw [after, List.foldl_cons, ← after, ih, slots_runMethod, or_assoc]
    refine or_congr_right ⟨?_, ?_⟩
    · rintro (⟨hName, hWrites⟩ | ⟨arrs, hMem, hWrites⟩)
      · obtain rfl : call.1 = name := Subtype.ext hName
        exact ⟨call.2, List.mem_cons_self, hWrites⟩
      · exact ⟨arrs, List.mem_cons_of_mem call hMem, hWrites⟩
    · rintro ⟨arrs, hMem, hWrites⟩
      rcases List.mem_cons.mp hMem with rfl | hMem
      · exact Or.inl ⟨rfl, hWrites⟩
      · exact Or.inr ⟨arrs, hMem, hWrites⟩

/-! ## A call depends on its own inputs only -/

def SameResult (r r' : Except PyException (List PyValue)) : Prop :=
  r = r' ∨ ∃ e e', r = .error e ∧ r' = .error e'

/-- After the history the call ends as on a fresh Runtime, and an execution it starts reads
only slots that this very execution has filled. -/
structure OwnInputsOnly (P : SlotProgram) (host : Host) (env : Env)
    (history : List (Utf8String × List NdArray)) (name : Utf8String) (arrs : List NdArray) : Prop where
  sameAsFresh :
    SameResult (Bound.runMethod (slotModule P) host env name arrs (after P host env history freshRuntime)).1
      (Bound.runMethod (slotModule P) host env name arrs freshRuntime).1
  readsOwn : let before := (after P host env history freshRuntime).module
    let next := (Bound.runMethod (slotModule P) host env name arrs
      (after P host env history freshRuntime)).2.module
    next.clock = before.clock ∨ ∀ f ∈ next.reads, f.call = before.clock

/-- The call is admitted with inputs that fit but are too few, and earlier calls of the history
have written each slot that it leaves. -/
def CompletedByEarlierCalls (P : SlotProgram) (host : Host) (env : Env)
    (history : List (Utf8String × List NdArray)) (name : Utf8String) (arrs : List NdArray) : Prop :=
  ∃ descs n, Admitted P host env name arrs descs ∧ P.arity name = some n ∧
    P.Fits name (descs.map toTensorPtr) n ∧ descs.length < n ∧
    ∀ i, descs.length ≤ i → i < n →
      ∃ earlier, (name, earlier) ∈ history ∧ Writes P host env name earlier i

theorem after_fresh_isSome (history : List (Utf8String × List NdArray)) (name : Utf8String) (i : Nat) :
    ((after P host env history freshRuntime).module.slots name i).isSome = true ↔
      ∃ arrs, (name, arrs) ∈ history ∧ Writes P host env name arrs i := by
  rw [after_isSome]
  exact or_iff_right (by simp [freshRuntime, SlotProgram.loaded])

theorem complete_fresh_iff {name : ByteString} {vals : List TensorPtr} {n : Nat} :
    P.Complete name vals SlotProgram.loaded n ↔
      P.arity name = some n ∧ P.Fits name vals n ∧ n ≤ vals.length := by
  constructor
  · intro h
    refine ⟨h.arity, h.fits, ?_⟩
    by_contra hShort
    exact absurd (h.rest vals.length (Nat.le_refl _) (by omega)) (by simp [SlotProgram.loaded])
  · rintro ⟨hArity, hFits, hLength⟩
    exact ⟨hArity, hFits, fun i hLeft hi => absurd hi (by omega)⟩

theorem filterMap_range_getElem? {α β : Type} (f : α → β) (xs : List α) :
    (List.range xs.length).filterMap (fun i => xs[i]?.map f) = xs.map f := by
  induction xs with
  | nil => rfl
  | cons x xs ih =>
    rw [List.length_cons, List.range_succ_eq_map, List.filterMap_cons, List.filterMap_map]
    exact congrArg (f x :: ·) ih

theorem execute_of_full {name : ByteString} {vals : List TensorPtr} {n : Nat}
    (hArity : P.arity name = some n) (hFits : P.Fits name vals n) (hLength : n ≤ vals.length)
    (st : SlotState) :
    (P.execute name vals st).2.reads = vals.map (fun v => ⟨v, st.clock⟩) ∧
      ((P.execute name vals st).1, (P.execute name vals st).2.arena) = P.outputs name vals := by
  have hComplete : P.Complete name vals st n :=
    ⟨hArity, hFits, fun i hLeft hi => absurd hi (by omega)⟩
  obtain rfl : n = vals.length := Nat.le_antisymm hLength hFits.length_le
  have hReads : (List.range vals.length).filterMap (P.written name vals st) =
      vals.map fun v => ⟨v, st.clock⟩ := by
    rw [← filterMap_range_getElem?]
    refine List.filterMap_congr fun i hi => ?_
    rw [SlotProgram.written_of_fits hArity hFits, if_pos (List.mem_range.mp hi)]
  have hRun := SlotProgram.execute_of_complete hComplete
  rw [hReads] at hRun
  refine ⟨hRun.1, hRun.2.trans ?_⟩
  rw [List.map_map]
  exact congrArg (P.outputs name) (List.map_id vals)

theorem delivered_congr {name : ByteString} {run run' : Except Error (List EValue) × SlotState}
    (h : (run.1, run.2.arena) = (run'.1, run'.2.arena)) :
    delivered P name run = delivered P name run' := by
  obtain ⟨result, st⟩ := run
  obtain ⟨result', st'⟩ := run'
  obtain ⟨rfl, hArena⟩ := Prod.mk.injEq .. ▸ h
  have hOutcome : executeOutcome (slotModule P) name (result, st) =
      executeOutcome (slotModule P) name (result, st') := by
    cases result with
    | error e => rfl
    | ok evs =>
      rw [executeOutcome, executeOutcome]
      exact congrArg (fun memory => copyOutputs memory name evs ⟨[], []⟩) hArena
  rw [delivered, delivered, hOutcome]

theorem delivered_of_error {name : ByteString} {run : Except Error (List EValue) × SlotState}
    {code : Error} (h : run.1 = .error code) :
    delivered P name run = .error (translate (executeFailed name)) := by
  obtain ⟨result, st⟩ := run
  subst h
  rfl

theorem own_inputs_of_full {history : List (Utf8String × List NdArray)} {name : Utf8String}
    {arrs : List NdArray} {descs : List InputDesc} {n : Nat}
    (h : Admitted P host env name arrs descs) (hArity : P.arity name = some n)
    (hFits : P.Fits name (descs.map toTensorPtr) n) (hLength : n ≤ descs.length) :
    OwnInputsOnly P host env history name arrs := by
  have hVals : n ≤ (descs.map toTensorPtr).length := by rwa [List.length_map]
  have hRun := execute_of_full hArity hFits hVals
  refine ⟨Or.inl ?_, Or.inr ?_⟩
  · rw [runMethod_of_admitted h, runMethod_of_admitted h]
    exact delivered_congr ((hRun _).2.trans (hRun _).2.symm)
  · rw [runMethod_of_admitted h, (hRun _).1]
    intro f hf
    obtain ⟨v, _, rfl⟩ := List.mem_map.mp hf
    rfl

theorem own_inputs_of_not_complete {history : List (Utf8String × List NdArray)} {name : Utf8String}
    {arrs : List NdArray} {descs : List InputDesc} (h : Admitted P host env name arrs descs)
    (hNot : ¬ ∃ n, P.Complete name (descs.map toTensorPtr)
      (after P host env history freshRuntime).module n) :
    OwnInputsOnly P host env history name arrs := by
  have hFresh : ¬ ∃ n, P.Complete name (descs.map toTensorPtr) freshRuntime.module n := by
    rintro ⟨n, hComplete⟩
    obtain ⟨hArity, hFits, hLength⟩ := complete_fresh_iff.mp hComplete
    exact hNot ⟨n, hArity, hFits, fun i hLeft hi => absurd hi (by omega)⟩
  obtain ⟨hAfterResult, hAfterReads⟩ := SlotProgram.execute_of_not_complete hNot
  obtain ⟨hFreshResult, _⟩ := SlotProgram.execute_of_not_complete hFresh
  refine ⟨Or.inl ?_, Or.inr ?_⟩
  · rw [runMethod_of_admitted h, runMethod_of_admitted h]
    exact (delivered_of_error hAfterResult).trans (delivered_of_error hFreshResult).symm
  · rw [runMethod_of_admitted h, hAfterReads]
    intro f hf
    cases hf

/-- The first slot that the call leaves is read with what an earlier call has put there. -/
theorem not_own_inputs_of_completed {history : List (Utf8String × List NdArray)} {name : Utf8String}
    {arrs : List NdArray} (h : CompletedByEarlierCalls P host env history name arrs) :
    ¬ OwnInputsOnly P host env history name arrs := by
  obtain ⟨descs, n, hAdmitted, hArity, hFits, hShort, hEarlier⟩ := h
  intro hOwn
  have hReads := hOwn.readsOwn
  rw [runMethod_of_admitted hAdmitted] at hReads
  dsimp only at hReads
  set st := (after P host env history freshRuntime).module with hSt
  have hComplete : P.Complete name (descs.map toTensorPtr) st n := by
    refine ⟨hArity, hFits, fun i hLeft hi => ?_⟩
    rw [List.length_map] at hLeft
    exact (after_fresh_isSome history name i).mpr (hEarlier i hLeft hi)
  obtain ⟨f, hf⟩ := Option.isSome_iff_exists.mp
    ((after_fresh_isSome history name descs.length).mpr (hEarlier _ (Nat.le_refl _) hShort))
  have hBefore : f.call < st.clock :=
    after_dated history (by intro m i g hg; cases hg) name descs.length f hf
  have hRead : f ∈ (P.execute name (descs.map toTensorPtr) st).2.reads := by
    rw [(SlotProgram.execute_of_complete hComplete).1]
    refine List.mem_filterMap.mpr ⟨descs.length, List.mem_range.mpr hShort, ?_⟩
    rw [SlotProgram.written_of_fits hArity hFits, if_neg (by simp)]
    exact hf
  rw [SlotProgram.execute_clock] at hReads
  rcases hReads with hClock | hAll
  · omega
  · exact absurd (hAll f hRead) (Nat.ne_of_lt hBefore)

/-- A call depends on its own inputs only, unless it is completed by what earlier calls left. -/
theorem own_inputs_only_iff (P : SlotProgram) (host : Host) (env : Env)
    (history : List (Utf8String × List NdArray)) (name : Utf8String) (arrs : List NdArray) :
    OwnInputsOnly P host env history name arrs ↔
      ¬ CompletedByEarlierCalls P host env history name arrs := by
  refine ⟨fun h hCompleted => not_own_inputs_of_completed hCompleted h, fun h => ?_⟩
  by_cases hAdmitted : ∃ descs, Admitted P host env name arrs descs
  · obtain ⟨descs, hCall⟩ := hAdmitted
    by_cases hComplete : ∃ n, P.Complete name (descs.map toTensorPtr)
        (after P host env history freshRuntime).module n
    · obtain ⟨n, hArity, hFits, hRest⟩ := hComplete
      refine own_inputs_of_full hCall hArity hFits ?_
      by_contra hShort
      refine h ⟨descs, n, hCall, hArity, hFits, by omega, fun i hLeft hi => ?_⟩
      exact (after_fresh_isSome history name i).mp (hRest i (by rwa [List.length_map]) hi)
    · exact own_inputs_of_not_complete hCall hComplete
  · obtain ⟨e, hEnds⟩ := runMethod_of_not_admitted hAdmitted
    refine ⟨Or.inl ((hEnds _).1.trans (hEnds _).1.symm), Or.inl ?_⟩
    exact congrArg SlotState.clock (hEnds _).2

end Histories

def addBytes : SlotProgram where
  methods := [cxx "forward"]
  metadata _ := .ok ⟨[.ok ⟨[1], ScalarType.byte.code, true⟩, .ok ⟨[1], ScalarType.byte.code, true⟩], [],
    fun _ => false⟩
  arity name := if name = cxx "forward" then some 2 else none
  fits _ _ v := v.sizes == [1] && v.scalarType == ScalarType.byte.code
  outputs _ vals :=
    (.ok [.int (((vals.flatMap TensorPtr.data).map fun byte => (byte.toNat : Int)).sum)], fun _ => 0)

def forward : Utf8String := ⟨cxx "forward", valid_cxx _⟩

def plainHost : Host := ⟨false, [], fun _ => none⟩

/-- `forward(1, 40)` and then `forward(2)`: the second call adds 40 as well. -/
theorem short_call_reads_earlier_input :
    (Bound.runMethod (slotModule addBytes) plainHost none forward [oneByte 2]
      (after addBytes plainHost none [(forward, [oneByte 1, oneByte 40])] freshRuntime)).1 =
        .ok [.int 42] ∧
    (Bound.runMethod (slotModule addBytes) plainHost none forward [oneByte 2] freshRuntime).1 =
      .error (.executorch .executionError (py "execute('forward') failed")) ∧
    ¬ OwnInputsOnly addBytes plainHost none [(forward, [oneByte 1, oneByte 40])] forward [oneByte 2] := by
  have hAfter : (Bound.runMethod (slotModule addBytes) plainHost none forward [oneByte 2]
      (after addBytes plainHost none [(forward, [oneByte 1, oneByte 40])] freshRuntime)).1 =
        .ok [.int 42] := rfl
  have hFresh : (Bound.runMethod (slotModule addBytes) plainHost none forward [oneByte 2]
      freshRuntime).1 = .error (.executorch .executionError (py "execute('forward') failed")) := rfl
  refine ⟨hAfter, hFresh, fun h => ?_⟩
  rcases h.sameAsFresh with hSame | ⟨e, _, hError, _⟩
  · rw [hAfter, hFresh] at hSame
    cases hSame
  · rw [hAfter] at hError
    cases hError

end ExecutorchNumpy
