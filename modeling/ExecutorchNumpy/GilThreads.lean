import ExecutorchNumpy.Binding
import ExecutorchNumpy.CoreThreads
import ExecutorchNumpy.Library.Interleaving

/-! # Python threads under the GIL

Bound calls of Python threads on any number of Runtimes. `run_method` releases the
GIL around its core part and takes it back however that part ends; the metadata
calls keep it while they wait for the mutex. The steps that touch Python objects
and those that unlock do not look at who holds a lock.
-/

namespace ExecutorchNumpy
set_option autoImplicit false

open Executorch (Module)
open Interleaving

inductive BoundCall where
  | methodNames
  | methodMeta (name : Utf8String)
  | methodUsesBackend (name backend : Utf8String)
  | runMethod (name : Utf8String) (arrs : List NdArray)

def BoundCall.metadata : BoundCall → Option Call
  | .methodNames => some .methodNames
  | .methodMeta name => some (.methodMeta name)
  | .methodUsesBackend name backend => some (.methodUsesBackend name backend)
  | .runMethod _ _ => none

inductive PyAnswer where
  | names (names : List PyStr)
  | metadata (mm : MethodMeta)
  | uses (uses : Bool)
  | outputs (values : List PyValue)
  deriving DecidableEq, Repr

def toPyAnswer : Outcome → Except PyException PyAnswer
  | .error e => .error (translate e)
  | .ok (.names names) => (castStrings names).map .names
  | .ok (.metadata mm) => .ok (.metadata mm)
  | .ok (.uses uses) => .ok (.uses uses)
  | .ok (.forward _) => .ok (.outputs [])

def forwardOf : Outcome → Except EtError ForwardState
  | .error e => .error e
  | .ok (.forward fs) => .ok fs
  | .ok _ => .ok ⟨[], []⟩

/-- Where a thread is when its next step needs the GIL. -/
inductive Phase (Rid : Type) where
  | outside
  | pin (r : Rid) (name : ByteString) (rest : List NdArray)
  | releaseGil (r : Rid) (name : ByteString)
  | answer (outcome : Outcome)
  | outputs (name : ByteString) (outcome : Outcome)
  | build (name : ByteString) (storage : List ByteString) (rest : List OutputView) (values : List PyValue)
  | dropPins (result : Except Thrown (List PyValue))
  | give (result : Except Thrown (List PyValue))

inductive Pos (Rid : Type) where
  | python (p : Phase Rid)
  | waitGil (p : Phase Rid)
  | core (r : Rid) (call : Call) (pc : Pc)

/-- `pins` are the keepalives in the `held` vector of the call. -/
structure PyThread (Rid : Type) where
  todo : List (Rid × BoundCall)
  pos : Pos Rid
  pins : List HeldInput
  results : List (Except PyException PyAnswer)

structure Process (Tid Rid σ : Type) where
  gil : Option Tid
  runtimes : Rid → SharedRuntime Tid σ

section Steps

variable {Tid Rid σ : Type}

/-- Converting inputs, building outputs and dropping pins, one Python object at a time. -/
def pythonStep : Phase Rid → List HeldInput → Option (Phase Rid × List HeldInput)
  | .pin r name [], pins => some (.releaseGil r name, pins)
  | .pin r name (a :: rest), pins =>
    match makeHeldInput a with
    | .error t => some (.dropPins (.error t), pins)
    | .ok held => some (.pin r name rest, pins ++ [held])
  | .outputs name outcome, pins =>
    match forwardOf outcome with
    | .error e => some (.dropPins (.error (.et e)), pins)
    | .ok fs => some (.build name fs.storage fs.views [], pins)
  | .build _ _ [] values, pins => some (.dropPins (.ok values), pins)
  | .build name storage (v :: rest) values, pins =>
    match copyOut storage v name values.length with
    | .error e => some (.dropPins (.error (.et e)), pins)
    | .ok value => some (.build name storage rest (values ++ [value]), pins)
  | .dropPins result, [] => some (.give result, [])
  | .dropPins result, _ :: pins => some (.dropPins result, pins)
  | _, _ => none

/-- Back from the core: `run_method` waits for the GIL in the destructor of `gil_scoped_release`. -/
def afterCore : Call → Outcome → Pos Rid
  | .runMethod name _, outcome => .waitGil (.outputs name outcome)
  | _, outcome => .python (.answer outcome)

inductive Action where
  | start
  | yield
  | acquire
  | release
  | touch
  | core
  deriving DecidableEq, Repr

variable (M : Module σ) (host : Host) (env : Env) [DecidableEq Rid]

inductive PyStep : Action → ThreadStep Tid (PyThread Rid) (Process Tid Rid σ)
  | acquire {t l p sh} : l.pos = .waitGil p → sh.gil = none →
    PyStep .acquire t l sh { l with pos := .python p } { sh with gil := some t }
  | yield {t l p sh} : l.pos = .python p →
    PyStep .yield t l sh { l with pos := .waitGil p } { sh with gil := none }
  | startMetadata {t l r c call rest sh} : l.pos = .python .outside → l.todo = (r, c) :: rest →
    c.metadata = some call →
    PyStep .start t l sh { l with todo := rest, pos := .core r call .lockMetadata } sh
  | startRun {t l r name arrs rest sh} : l.pos = .python .outside →
    l.todo = (r, .runMethod name arrs) :: rest →
    PyStep .start t l sh { l with todo := rest, pos := .python (.pin r name.val arrs) } sh
  | objects {t l p p' pins' sh} : l.pos = .python p → pythonStep p l.pins = some (p', pins') →
    PyStep .touch t l sh { l with pos := .python p', pins := pins' } sh
  | giveAnswer {t l outcome sh} : l.pos = .python (.answer outcome) →
    PyStep .touch t l sh
      { l with pos := .python .outside, results := l.results ++ [toPyAnswer outcome] } sh
  | giveOutputs {t l result sh} : l.pos = .python (.give result) →
    PyStep .touch t l sh
      { l with pos := .python .outside,
               results := l.results ++ [(result.mapError Thrown.toPython).map .outputs] } sh
  | release {t l r name sh} : l.pos = .python (.releaseGil r name) →
    PyStep .release t l sh
      { l with pos := .core r (.runMethod name (l.pins.map HeldInput.desc)) .lockMetadata }
      { sh with gil := none }
  | core {t l r call pc pc' rt sh} : l.pos = .core r call pc →
    coreStep M host env t call (sh.runtimes r) pc = some (pc', rt) →
    PyStep .core t l sh { l with pos := .core r call pc' }
      { sh with runtimes := Function.update sh.runtimes r rt }
  | leave {t l r call outcome sh} : l.pos = .core r call (.finished outcome) →
    PyStep .core t l sh { l with pos := afterCore call outcome } sh

def PyThreadStep : ThreadStep Tid (PyThread Rid) (Process Tid Rid σ) := fun t l sh l' sh' =>
  ∃ action, PyStep M host env action t l sh l' sh'

end Steps

section Invariant

variable {Tid Rid σ : Type}

def Call.isRun : Call → Bool
  | .runMethod _ _ => true
  | _ => false

/-- The scopes that hold the GIL: Python code, and a metadata call down to its core. -/
def Pos.hasGil : Pos Rid → Bool
  | .python _ => true
  | .waitGil _ => false
  | .core _ call _ => !call.isRun

def Pos.Holds (pos : Pos Rid) (r : Rid) : Prop :=
  ∃ call pc, pos = .core r call pc ∧ pc.holds = true

theorem holds_core (r r' : Rid) (call : Call) (pc : Pc) :
    (Pos.core r call pc).Holds r' ↔ r' = r ∧ pc.holds = true := by
  constructor
  · rintro ⟨call', pc', hPos, hHolds⟩
    cases hPos
    exact ⟨rfl, hHolds⟩
  · rintro ⟨rfl, hHolds⟩
    exact ⟨call, pc, rfl, hHolds⟩

/-- The phases in which the `held` vector does not exist. -/
def Phase.unpinned : Phase Rid → Bool
  | .outside | .answer _ | .give _ => true
  | _ => false

/-- No input is pinned outside of a call, and in the core all of them are. -/
def PinsMatch (pins : List HeldInput) : Pos Rid → Prop
  | .core _ call _ => pins.map HeldInput.desc = call.inputs
  | .python p => p.unpinned = true → pins = []
  | .waitGil p => p.unpinned = true → pins = []

structure PyInv (t : Tid) (l : PyThread Rid) (sh : Process Tid Rid σ) : Prop where
  gil : sh.gil = some t ↔ l.pos.hasGil = true
  mutex : ∀ r, (sh.runtimes r).mutex = some t ↔ l.pos.Holds r
  pins : PinsMatch l.pins l.pos

theorem isRun_of_metadata {c : BoundCall} {call : Call} (h : c.metadata = some call) :
    call.isRun = false := by
  cases c <;> cases h <;> rfl

theorem inputs_of_metadata {c : BoundCall} {call : Call} (h : c.metadata = some call) :
    call.inputs = [] := by
  cases c <;> cases h <;> rfl

/-- What a step in Python does to the pins: only the last phase of a call takes some away. -/
theorem pythonStep_pins {p p' : Phase Rid} {pins pins' : List HeldInput}
    (h : pythonStep p pins = some (p', pins')) :
    p'.unpinned = false ∧ (∃ more, pins' = pins ++ more) ∨
      ∃ result, p = .dropPins result ∧ (p'.unpinned = true → pins' = []) := by
  cases p with
  | pin r name rest =>
    cases rest with
    | nil =>
      cases h
      exact Or.inl ⟨rfl, [], (List.append_nil pins).symm⟩
    | cons a rest =>
      rw [pythonStep] at h
      split at h <;> cases h
      · exact Or.inl ⟨rfl, [], (List.append_nil pins).symm⟩
      · exact Or.inl ⟨rfl, _, rfl⟩
  | outputs name outcome =>
    rw [pythonStep] at h
    split at h <;> cases h <;> exact Or.inl ⟨rfl, [], (List.append_nil pins).symm⟩
  | build name storage rest values =>
    cases rest with
    | nil =>
      cases h
      exact Or.inl ⟨rfl, [], (List.append_nil pins).symm⟩
    | cons v rest =>
      rw [pythonStep] at h
      split at h <;> cases h <;> exact Or.inl ⟨rfl, [], (List.append_nil pins).symm⟩
  | dropPins result =>
    refine Or.inr ⟨result, rfl, fun hPhase => ?_⟩
    cases pins with
    | nil =>
      cases h
      rfl
    | cons held pins =>
      cases h
      cases hPhase
  | outside => cases h
  | releaseGil r name => cases h
  | answer outcome => cases h
  | give result => cases h

theorem pythonStep_unpinned {p p' : Phase Rid} {pins pins' : List HeldInput}
    (h : pythonStep p pins = some (p', pins')) (hPhase : p'.unpinned = true) : pins' = [] := by
  rcases pythonStep_pins h with ⟨hPinned, _⟩ | ⟨_, _, hEmpty⟩
  · rw [hPinned] at hPhase
    cases hPhase
  · exact hEmpty hPhase

theorem pythonStep_shrinks {p p' : Phase Rid} {pins pins' : List HeldInput}
    (h : pythonStep p pins = some (p', pins')) (hLess : pins'.length < pins.length) :
    ∃ result, p = .dropPins result := by
  rcases pythonStep_pins h with ⟨_, more, rfl⟩ | ⟨result, hDrop, _⟩
  · rw [List.length_append] at hLess
    omega
  · exact ⟨result, hDrop⟩

theorem pythonStep_enabled {p : Phase Rid} {pins : List HeldInput} (h : pythonStep p pins = none) :
    p = .outside ∨ (∃ r name, p = .releaseGil r name) ∨ (∃ outcome, p = .answer outcome) ∨
      ∃ result, p = .give result := by
  cases p with
  | outside => exact Or.inl rfl
  | releaseGil r name => exact Or.inr (Or.inl ⟨r, name, rfl⟩)
  | answer outcome => exact Or.inr (Or.inr (Or.inl ⟨outcome, rfl⟩))
  | give result => exact Or.inr (Or.inr (Or.inr ⟨result, rfl⟩))
  | pin r name rest =>
    cases rest with
    | nil => cases h
    | cons a rest =>
      rw [pythonStep] at h
      split at h <;> cases h
  | outputs name outcome =>
    rw [pythonStep] at h
    split at h <;> cases h
  | build name storage rest values =>
    cases rest with
    | nil => cases h
    | cons v rest =>
      rw [pythonStep] at h
      split at h <;> cases h
  | dropPins result => cases pins <;> cases h

theorem hasGil_afterCore (call : Call) (outcome : Outcome) :
    (afterCore call outcome : Pos Rid).hasGil = !call.isRun := by
  cases call <;> rfl

theorem not_holds_afterCore (call : Call) (outcome : Outcome) (r : Rid) :
    ¬ (afterCore call outcome : Pos Rid).Holds r := by
  rintro ⟨call', pc, hPos, _⟩
  cases call <;> cases hPos

variable {M : Module σ} {host : Host} {env : Env} [DecidableEq Rid] {action : Action} {t u : Tid}
  {l l' m : PyThread Rid} {sh sh' : Process Tid Rid σ}

theorem pyStep_gil (h : PyStep M host env action t l sh l' sh') :
    action = .acquire ∧ sh.gil = none ∧ sh'.gil = some t ∧ l'.pos.hasGil = true ∨
    l.pos.hasGil = true ∧ sh'.gil = none ∧ l'.pos.hasGil = false ∨
    sh'.gil = sh.gil ∧ l'.pos.hasGil = l.pos.hasGil := by
  cases h with
  | acquire hPos hFree => exact Or.inl ⟨rfl, hFree, rfl, rfl⟩
  | yield hPos => exact Or.inr (Or.inl ⟨by rw [hPos]; rfl, rfl, rfl⟩)
  | startMetadata hPos hTodo hCall =>
    refine Or.inr (Or.inr ⟨rfl, ?_⟩)
    rw [hPos]
    exact congrArg not (isRun_of_metadata hCall)
  | startRun hPos hTodo => exact Or.inr (Or.inr ⟨rfl, by rw [hPos]; rfl⟩)
  | objects hPos hStep => exact Or.inr (Or.inr ⟨rfl, by rw [hPos]; rfl⟩)
  | giveAnswer hPos => exact Or.inr (Or.inr ⟨rfl, by rw [hPos]; rfl⟩)
  | giveOutputs hPos => exact Or.inr (Or.inr ⟨rfl, by rw [hPos]; rfl⟩)
  | release hPos => exact Or.inr (Or.inl ⟨by rw [hPos]; rfl, rfl, rfl⟩)
  | core hPos hStep => exact Or.inr (Or.inr ⟨rfl, by rw [hPos]; rfl⟩)
  | leave hPos => exact Or.inr (Or.inr ⟨rfl, by rw [hPos, hasGil_afterCore]; rfl⟩)

/-- What a step does to the mutexes: nothing, outside of every critical section, or one step of the
core on one Runtime. -/
theorem pyStep_mutex (h : PyStep M host env action t l sh l' sh') :
    (sh'.runtimes = sh.runtimes ∧ (∀ r, ¬ l.pos.Holds r) ∧ ∀ r, ¬ l'.pos.Holds r) ∨
    ∃ r call pc pc' rt, l.pos = .core r call pc ∧ l'.pos = .core r call pc' ∧
      coreStep M host env t call (sh.runtimes r) pc = some (pc', rt) ∧
      sh'.runtimes = Function.update sh.runtimes r rt := by
  have hPython : ∀ {p : Phase Rid} {pos : Pos Rid}, pos = .python p → ∀ r, ¬ pos.Holds r := by
    rintro p pos rfl r ⟨call, pc, hPos, _⟩
    cases hPos
  have hWait : ∀ {p : Phase Rid} {pos : Pos Rid}, pos = .waitGil p → ∀ r, ¬ pos.Holds r := by
    rintro p pos rfl r ⟨call, pc, hPos, _⟩
    cases hPos
  have hEntry : ∀ {call : Call} (r₀ r : Rid), ¬ (Pos.core r₀ call .lockMetadata).Holds r := by
    rintro call r₀ r ⟨call', pc, hPos, hHolds⟩
    cases hPos
    cases hHolds
  cases h with
  | acquire hPos hFree => exact Or.inl ⟨rfl, hWait hPos, hPython rfl⟩
  | yield hPos => exact Or.inl ⟨rfl, hPython hPos, hWait rfl⟩
  | startMetadata hPos hTodo hCall => exact Or.inl ⟨rfl, hPython hPos, hEntry _⟩
  | startRun hPos hTodo => exact Or.inl ⟨rfl, hPython hPos, hPython rfl⟩
  | objects hPos hStep => exact Or.inl ⟨rfl, hPython hPos, hPython rfl⟩
  | giveAnswer hPos => exact Or.inl ⟨rfl, hPython hPos, hPython rfl⟩
  | giveOutputs hPos => exact Or.inl ⟨rfl, hPython hPos, hPython rfl⟩
  | release hPos => exact Or.inl ⟨rfl, hPython hPos, hEntry _⟩
  | core hPos hStep => exact Or.inr ⟨_, _, _, _, _, hPos, rfl, hStep, rfl⟩
  | leave hPos =>
    refine Or.inl ⟨rfl, ?_, not_holds_afterCore _ _⟩
    rw [hPos]
    rintro r ⟨call', pc, hSame, hHolds⟩
    cases hSame
    cases hHolds

theorem pyStep_pins (hPins : PinsMatch l.pins l.pos) (h : PyStep M host env action t l sh l' sh') :
    PinsMatch l'.pins l'.pos := by
  cases h with
  | acquire hPos hFree =>
    rw [hPos] at hPins
    exact hPins
  | yield hPos =>
    rw [hPos] at hPins
    exact hPins
  | startMetadata hPos hTodo hCall =>
    rw [hPos] at hPins
    rw [hPins rfl]
    exact (inputs_of_metadata hCall).symm
  | startRun hPos hTodo => exact fun hPhase => by cases hPhase
  | objects hPos hStep => exact pythonStep_unpinned hStep
  | giveAnswer hPos =>
    rw [hPos] at hPins
    exact fun _ => hPins rfl
  | giveOutputs hPos =>
    rw [hPos] at hPins
    exact fun _ => hPins rfl
  | release hPos => rfl
  | core hPos hStep =>
    rw [hPos] at hPins
    exact hPins
  | @leave _ _ r call outcome _ hPos =>
    rw [hPos] at hPins
    cases call with
    | runMethod name inputs => exact fun hPhase => by cases hPhase
    | methodNames => exact fun _ => List.map_eq_nil_iff.mp hPins
    | methodMeta name => exact fun _ => List.map_eq_nil_iff.mp hPins
    | methodUsesBackend name backend => exact fun _ => List.map_eq_nil_iff.mp hPins

theorem pyInv_own (hl : PyInv t l sh) (h : PyStep M host env action t l sh l' sh') :
    PyInv t l' sh' := by
  refine ⟨?_, ?_, pyStep_pins hl.pins h⟩
  · rcases pyStep_gil h with ⟨_, _, hGil, hHas⟩ | ⟨_, hGil, hHas⟩ | ⟨hGil, hHas⟩
    · simp [hGil, hHas]
    · simp [hGil, hHas]
    · rw [hGil, hHas]
      exact hl.gil
  · rcases pyStep_mutex h with ⟨hSame, hBefore, hAfter⟩ | ⟨r, call, pc, pc', rt, hPos, hPos', hStep, hRt⟩
    · intro r
      rw [hSame, hl.mutex r]
      exact iff_of_false (hBefore r) (hAfter r)
    · intro r'
      have hMutex := hl.mutex r'
      rw [hPos, holds_core] at hMutex
      rw [hPos', hRt, holds_core]
      by_cases hr : r' = r
      · subst hr
        rw [Function.update_self, eq_self, true_and]
        exact (coreStep_locked (by simpa using hMutex.symm) hStep).symm
      · rw [Function.update_of_ne hr, hMutex]
        simp [hr]

theorem pyInv_other (hu : u ≠ t) (hl : PyInv t l sh) (hm : PyInv u m sh)
    (h : PyStep M host env action t l sh l' sh') : PyInv u m sh' := by
  refine ⟨?_, ?_, hm.pins⟩
  · rcases pyStep_gil h with ⟨_, hFree, hGil, _⟩ | ⟨hHad, hGil, _⟩ | ⟨hGil, _⟩
    · rw [← hm.gil, hFree, hGil]
      simp [hu.symm]
    · rw [← hm.gil, hGil, hl.gil.mpr hHad]
      simp [hu.symm]
    · rw [hGil]
      exact hm.gil
  · rcases pyStep_mutex h with ⟨hSame, _, _⟩ | ⟨r, call, pc, pc', rt, hPos, _, hStep, hRt⟩
    · rw [hSame]
      exact hm.mutex
    · intro r'
      rw [hRt]
      by_cases hr : r' = r
      · subst hr
        have hMutex := hl.mutex r'
        rw [hPos, holds_core, eq_self, true_and] at hMutex
        rw [Function.update_self]
        exact (coreStep_locked_other hu hMutex.symm (hm.mutex r').symm hStep).symm
      · rw [Function.update_of_ne hr]
        exact hm.mutex r'

/-! ## Steps that touch Python objects -/

theorem python_of_touch (h : PyStep M host env action t l sh l' sh')
    (hAction : action = .touch ∨ action = .start) : ∃ p, l.pos = .python p := by
  cases h with
  | startMetadata hPos => exact ⟨_, hPos⟩
  | startRun hPos => exact ⟨_, hPos⟩
  | objects hPos => exact ⟨_, hPos⟩
  | giveAnswer hPos => exact ⟨_, hPos⟩
  | giveOutputs hPos => exact ⟨_, hPos⟩
  | _ => simp at hAction

theorem pyStep_shrinks (h : PyStep M host env action t l sh l' sh')
    (hLess : l'.pins.length < l.pins.length) : ∃ result, l.pos = .python (.dropPins result) := by
  cases h with
  | objects hPos hStep =>
    obtain ⟨result, rfl⟩ := pythonStep_shrinks hStep hLess
    exact ⟨result, hPos⟩
  | _ => exact absurd hLess (Nat.lt_irrefl _)

/-! ## Progress -/

def Pos.inCall : Pos Rid → Bool
  | .python .outside | .waitGil .outside => false
  | _ => true

/-- Some thread makes a step that is no new call and no pause in the middle of a call. -/
def Advances (M : Module σ) (host : Host) (env : Env)
    (s : State Tid (PyThread Rid) (Process Tid Rid σ)) : Prop :=
  ∃ t action l' sh', PyStep M host env action t (s.threads t) s.shared l' sh' ∧ action ≠ .start ∧
    (action = .yield → (s.threads t).pos = .python .outside)

variable {s : State Tid (PyThread Rid) (Process Tid Rid σ)}

theorem advances_of_python {p : Phase Rid} (h : (s.threads t).pos = .python p) :
    Advances M host env s := by
  cases hStep : pythonStep p (s.threads t).pins with
  | some next => exact ⟨t, _, _, _, .objects h hStep, by decide, by simp⟩
  | none =>
    rcases pythonStep_enabled hStep with rfl | ⟨r, name, rfl⟩ | ⟨outcome, rfl⟩ | ⟨result, rfl⟩
    · exact ⟨t, _, _, _, .yield h, by decide, fun _ => h⟩
    · exact ⟨t, _, _, _, .release h, by decide, by simp⟩
    · exact ⟨t, _, _, _, .giveAnswer h, by decide, by simp⟩
    · exact ⟨t, _, _, _, .giveOutputs h, by decide, by simp⟩

/-- The thread at a taken mutex waits for one that is inside its critical section and can go on. -/
theorem advances_of_core (hInv : ∀ t, PyInv t (s.threads t) s.shared) {r : Rid} {call : Call} {pc : Pc}
    (h : (s.threads t).pos = .core r call pc) : Advances M host env s := by
  cases hStep : coreStep M host env t call (s.shared.runtimes r) pc with
  | some next => exact ⟨t, _, _, _, .core h hStep, by decide, by simp⟩
  | none =>
    rcases coreStep_blocked hStep with ⟨outcome, rfl⟩ | ⟨_, hTaken⟩
    · exact ⟨t, _, _, _, .leave h, by decide, by simp⟩
    · obtain ⟨u, hHolder⟩ := Option.ne_none_iff_exists'.mp hTaken
      obtain ⟨call', pc', hPos, hHolds⟩ := ((hInv u).mutex r).mp hHolder
      cases hStep' : coreStep M host env u call' (s.shared.runtimes r) pc' with
      | some next => exact ⟨u, _, _, _, .core hPos hStep', by decide, by simp⟩
      | none =>
        rcases coreStep_blocked hStep' with ⟨outcome, rfl⟩ | ⟨hWaits, _⟩
        · cases hHolds
        · rw [Pc.not_waits_of_holds hHolds] at hWaits
          cases hWaits

theorem advances_of_waitGil (hInv : ∀ t, PyInv t (s.threads t) s.shared) {p : Phase Rid}
    (h : (s.threads t).pos = .waitGil p) : Advances M host env s := by
  cases hGil : s.shared.gil with
  | none => exact ⟨t, _, _, _, .acquire h hGil, by decide, by simp⟩
  | some u =>
    have hHas := (hInv u).gil.mp hGil
    cases hPos : (s.threads u).pos with
    | python p' => exact advances_of_python hPos
    | core r call pc => exact advances_of_core hInv hPos
    | waitGil p' =>
      rw [hPos] at hHas
      cases hHas

end Invariant

/-! ## Safety of the two locks -/

section Safety

variable {Tid Rid σ : Type}

def processStart (modules : Rid → σ) (programs : Tid → List (Rid × BoundCall)) :
    State Tid (PyThread Rid) (Process Tid Rid σ) where
  shared := ⟨none, fun r => ⟨none, modules r⟩⟩
  threads t := ⟨programs t, .waitGil .outside, [], []⟩

theorem pyInv_start (modules : Rid → σ) (programs : Tid → List (Rid × BoundCall)) (t : Tid) :
    PyInv t ((processStart modules programs).threads t) (processStart modules programs).shared where
  gil := by simp [processStart, Pos.hasGil]
  mutex r := by
    refine iff_of_false (by simp [processStart]) ?_
    rintro ⟨call, pc, hPos, _⟩
    cases hPos
  pins _ := rfl

variable [DecidableEq Tid] [DecidableEq Rid]

structure TwoLockSafe (M : Module σ) (host : Host) (env : Env)
    (s : State Tid (PyThread Rid) (Process Tid Rid σ)) : Prop where
  no_gil_wait_holding : ∀ t p r, (s.threads t).pos = .waitGil p → (s.shared.runtimes r).mutex ≠ some t
  no_mutex_wait_holding : ∀ t r call pc r', (s.threads t).pos = .core r call pc → pc.waits = true →
    (s.shared.runtimes r').mutex ≠ some t
  python_under_gil : ∀ t action l' sh', PyStep M host env action t (s.threads t) s.shared l' sh' →
    action = .touch ∨ action = .start → s.shared.gil = some t
  pins_kept : ∀ t r call pc, (s.threads t).pos = .core r call pc →
    (s.threads t).pins.map HeldInput.desc = call.inputs
  pins_released_after : ∀ t action l' sh', PyStep M host env action t (s.threads t) s.shared l' sh' →
    l'.pins.length < (s.threads t).pins.length → ∃ result, (s.threads t).pos = .python (.dropPins result)
  progress : (∃ t, (s.threads t).pos.inCall = true) → Advances M host env s

/-- Whatever the threads run, the GIL and the mutexes are never waited for across each other. -/
theorem two_lock_safety (M : Module σ) (host : Host) (env : Env) (modules : Rid → σ)
    (programs : Tid → List (Rid × BoundCall)) (s : State Tid (PyThread Rid) (Process Tid Rid σ))
    (h : Reachable (PyThreadStep M host env) (processStart modules programs) s) :
    TwoLockSafe M host env s := by
  have hInv : ∀ t, PyInv t (s.threads t) s.shared :=
    h.modular PyInv (pyInv_start modules programs) (fun hl ⟨_, hStep⟩ => pyInv_own hl hStep)
      fun hu hl hm ⟨_, hStep⟩ => pyInv_other hu hl hm hStep
  constructor
  case no_gil_wait_holding =>
    intro t p r hPos hHolds
    obtain ⟨call, pc, hCore, _⟩ := ((hInv t).mutex r).mp hHolds
    rw [hPos] at hCore
    cases hCore
  case no_mutex_wait_holding =>
    intro t r call pc r' hPos hWaits hHolds
    obtain ⟨call', pc', hCore, hInside⟩ := ((hInv t).mutex r').mp hHolds
    rw [hPos] at hCore
    cases hCore
    rw [Pc.not_waits_of_holds hInside] at hWaits
    cases hWaits
  case python_under_gil =>
    intro t action l' sh' hStep hAction
    obtain ⟨p, hPos⟩ := python_of_touch hStep hAction
    rw [(hInv t).gil, hPos]
    rfl
  case pins_kept =>
    intro t r call pc hPos
    have hPins := (hInv t).pins
    rw [hPos] at hPins
    exact hPins
  case pins_released_after => exact fun t action l' sh' hStep => pyStep_shrinks hStep
  case progress =>
    rintro ⟨t, hBusy⟩
    cases hPos : (s.threads t).pos with
    | python p => exact advances_of_python hPos
    | waitGil p => exact advances_of_waitGil hInv hPos
    | core r call pc => exact advances_of_core hInv hPos

end Safety

/-! ## Threads turn by turn -/

section Turns

variable {Tid Rid σ : Type} (M : Module σ) (host : Host) (env : Env) [DecidableEq Rid]

/-- What a thread does at a turn of the given kind. -/
def PyThread.next (action : Action) (t : Tid) (l : PyThread Rid) (sh : Process Tid Rid σ) :
    Option (PyThread Rid × Process Tid Rid σ) :=
  match action, l.pos with
  | .acquire, .waitGil p =>
    if sh.gil.isNone then some ({ l with pos := .python p }, { sh with gil := some t }) else none
  | .yield, .python p => some ({ l with pos := .waitGil p }, { sh with gil := none })
  | .start, .python .outside =>
    match l.todo with
    | [] => none
    | (r, .runMethod name arrs) :: rest =>
      some ({ l with todo := rest, pos := .python (.pin r name.val arrs) }, sh)
    | (r, c) :: rest =>
      c.metadata.map fun call => ({ l with todo := rest, pos := .core r call .lockMetadata }, sh)
  | .release, .python (.releaseGil r name) =>
    some ({ l with pos := .core r (.runMethod name (l.pins.map HeldInput.desc)) .lockMetadata },
      { sh with gil := none })
  | .touch, .python (.answer outcome) =>
    some ({ l with pos := .python .outside, results := l.results ++ [toPyAnswer outcome] }, sh)
  | .touch, .python (.give result) =>
    some ({ l with pos := .python .outside,
                   results := l.results ++ [(result.mapError Thrown.toPython).map .outputs] }, sh)
  | .touch, .python p =>
    (pythonStep p l.pins).map fun moved => ({ l with pos := .python moved.1, pins := moved.2 }, sh)
  | .core, .core _ call (.finished outcome) => some ({ l with pos := afterCore call outcome }, sh)
  | .core, .core r call pc =>
    (coreStep M host env t call (sh.runtimes r) pc).map fun moved =>
      ({ l with pos := .core r call moved.1 },
        { sh with runtimes := Function.update sh.runtimes r moved.2 })
  | _, _ => none

variable {M host env} {action : Action} {t : Tid} {l l' : PyThread Rid} {sh sh' : Process Tid Rid σ}

theorem PyThread.next_step (h : l.next M host env action t sh = some (l', sh')) :
    PyStep M host env action t l sh l' sh' := by
  unfold PyThread.next at h
  split at h
  · rename_i hPos
    split at h <;> cases h
    rename_i hFree
    exact .acquire hPos (Option.isNone_iff_eq_none.mp hFree)
  · rename_i hPos
    cases h
    exact .yield hPos
  · rename_i hPos
    split at h
    · cases h
    · rename_i hTodo
      cases h
      exact .startRun hPos hTodo
    · rename_i hTodo
      obtain ⟨call, hCall, hMoved⟩ := Option.map_eq_some_iff.mp h
      cases hMoved
      exact .startMetadata hPos hTodo hCall
  · rename_i hPos
    cases h
    exact .release hPos
  · rename_i hPos
    cases h
    exact .giveAnswer hPos
  · rename_i hPos
    cases h
    exact .giveOutputs hPos
  · rename_i hPos
    obtain ⟨⟨p', pins'⟩, hStep, hMoved⟩ := Option.map_eq_some_iff.mp h
    cases hMoved
    exact .objects hPos hStep
  · rename_i hPos
    cases h
    exact .leave hPos
  · rename_i hPos
    obtain ⟨⟨pc', rt⟩, hStep, hMoved⟩ := Option.map_eq_some_iff.mp h
    cases hMoved
    exact .core hPos hStep
  · cases h

/-- The turns of a schedule name the thread and the kind of its step. -/
def pyNext (M : Module σ) (host : Host) (env : Env) (turn : Tid × Action) (l : PyThread Rid)
    (sh : Process Tid Rid σ) : Option (PyThread Rid × Process Tid Rid σ) :=
  l.next M host env turn.2 turn.1 sh

end Turns

def forwardName : Utf8String := ⟨cxx "forward", by decide⟩

/-- One thread sums, the other one asks for the names. -/
def sumAndNames : Bool → List (Unit × BoundCall)
  | true => [((), .runMethod forwardName [oneByte 5])]
  | false => [((), .methodNames)]

def turns (t : Bool) (actions : List Action) : List (Bool × Action) := actions.map fun a => (t, a)

/-- `run_method` goes into its second critical section; then `method_names` takes the GIL. -/
def contention : List (Bool × Action) :=
  turns true [.acquire, .start, .touch, .touch, .release, .core, .core, .core, .core, .core] ++
    turns false [.acquire, .start]

/-- One thread executes without the GIL, its input pinned, and the other one waits for the mutex
with the GIL in its hands. -/
theorem contention_safe :
    ∃ s : State Bool (PyThread Unit) (Process Bool Unit Executorch.Summing),
      Reachable (PyThreadStep Executorch.sumModule bareHost none)
        (processStart (fun _ => ⟨false, 0⟩) sumAndNames) s ∧
      (s.threads true).pins.length = 1 ∧
      (∃ call tensors, (s.threads true).pos = .core () call (.execute tensors)) ∧
      (s.threads false).pos = .core () .methodNames .lockMetadata ∧
      (s.shared.runtimes ()).mutex = some true ∧ s.shared.gil = some false ∧
      TwoLockSafe Executorch.sumModule bareHost none s := by
  obtain ⟨s, hRun, hPins, hExecutes, hWaits, hMutex, hGil⟩ : ∃ s, runSchedule Prod.fst
      (pyNext Executorch.sumModule bareHost none) contention
      (processStart (fun _ => (⟨false, 0⟩ : Executorch.Summing)) sumAndNames) = some s ∧
      (s.threads true).pins.length = 1 ∧
      (∃ call tensors, (s.threads true).pos = .core () call (.execute tensors)) ∧
      (s.threads false).pos = .core () .methodNames .lockMetadata ∧
      (s.shared.runtimes ()).mutex = some true ∧ s.shared.gil = some false :=
    ⟨_, rfl, rfl, ⟨_, _, rfl⟩, rfl, rfl, rfl⟩
  have hReachable : Reachable (PyThreadStep Executorch.sumModule bareHost none)
      (processStart (fun _ => ⟨false, 0⟩) sumAndNames) s :=
    Reachable.of_schedule (fun h => ⟨_, PyThread.next_step h⟩) hRun
  exact ⟨s, hReachable, hPins, hExecutes, hWaits, hMutex, hGil,
    two_lock_safety Executorch.sumModule bareHost none (fun _ => ⟨false, 0⟩) sumAndNames s hReachable⟩

end ExecutorchNumpy
