import ExecutorchNumpy.Serializability
import ExecutorchNumpy.GilThreads
import ExecutorchNumpy.EnvThreads

/-! # Threads that run alone

With no other thread in the way the atomic steps of a call, a bound call or a
load end where the sequential definitions of the core, the binding and the
Python layer say.
-/

namespace ExecutorchNumpy
set_option autoImplicit false

open Executorch (EValue Module TensorPtr)
open Interleaving

/-! ## The core -/

section Core

variable {Tid σ : Type} (M : Module σ) (host : Host) (env : Env) (t : Tid) (call : Call)

def CoreMove (a b : Pc × SharedRuntime Tid σ) : Prop := coreStep M host env t call a.2 a.1 = some b

abbrev CoreRun : Pc × SharedRuntime Tid σ → Pc × SharedRuntime Tid σ → Prop :=
  Relation.ReflTransGen (CoreMove M host env t call)

variable {M host env t call}

theorem core_metadata_alone (m : σ) : CoreRun M host env t call (.lockMetadata, ⟨none, m⟩)
    (afterMetadata call (readMetadata M call m).1, ⟨none, (readMetadata M call m).2⟩) := by
  have hLock : CoreMove M host env t call (.lockMetadata, ⟨none, m⟩) (.readMetadata, ⟨some t, m⟩) := rfl
  have hRead : CoreMove M host env t call (.readMetadata, ⟨some t, m⟩)
      (.unlockMetadata (readMetadata M call m).1, ⟨some t, (readMetadata M call m).2⟩) := rfl
  have hUnlock : CoreMove M host env t call
      (.unlockMetadata (readMetadata M call m).1, ⟨some t, (readMetadata M call m).2⟩)
      (afterMetadata call (readMetadata M call m).1, ⟨none, (readMetadata M call m).2⟩) := rfl
  exact ((Relation.ReflTransGen.single hLock).tail hRead).tail hUnlock

theorem core_check_alone (sh : SharedRuntime Tid σ) :
    CoreRun M host env t call (.registration, sh)
      (match checkOpenvino host env with
        | .error e => .finished (.error e)
        | .ok () => .convert, sh) := by
  cases hBackend : requireBackend host with
  | error e =>
    rw [show checkOpenvino host env = .error e by rw [checkOpenvino, hBackend]; rfl]
    refine .single ?_
    rw [CoreMove, coreStep, hBackend]
  | ok _ =>
    have hRegistered : CoreMove M host env t call (.registration, sh) (.getenv, sh) := by
      rw [CoreMove, coreStep, hBackend]
    refine .head hRegistered ?_
    cases hLib : requireLibPath env with
    | error e =>
      rw [show checkOpenvino host env = .error e by rw [checkOpenvino, hBackend, hLib]; rfl]
      refine .single ?_
      rw [CoreMove, coreStep, hLib]
    | ok lib =>
      have hPath : CoreMove M host env t call (.getenv, sh) (.stat lib, sh) := by
        rw [CoreMove, coreStep, hLib]
      refine .head hPath (.single ?_)
      have hCheck : checkOpenvino host env = requireRegular host lib := by
        rw [checkOpenvino, hBackend, hLib]
        rfl
      rw [CoreMove, coreStep, hCheck]
      cases requireRegular host lib <;> rfl

theorem core_copy_alone (sh : SharedRuntime Tid σ) (evs : List EValue) (fs : ForwardState) :
    CoreRun M host env t call (.copyOut evs fs, sh)
      (.unlockExecute ((copyOutputs (M.memory sh.module) call.name evs fs).map .forward), sh) := by
  induction evs generalizing fs with
  | nil => exact .single rfl
  | cons ev rest ih =>
    cases hView : copyOutput (M.memory sh.module) call.name fs ev with
    | error e =>
      rw [copyOutputs, hView]
      refine .single ?_
      rw [CoreMove, coreStep, hView]
      rfl
    | ok fs' =>
      rw [copyOutputs, hView]
      refine .head ?_ (ih fs')
      rw [CoreMove, coreStep, hView]

theorem core_execute_alone (m : σ) :
    let run := M.execute call.name (call.inputs.map toTensorPtr) m
    CoreRun M host env t call (.convert, ⟨none, m⟩)
      (.finished ((executeOutcome M call.name run).map .forward), ⟨none, run.2⟩) := by
  intro run
  have hConvert : CoreMove M host env t call (.convert, ⟨none, m⟩)
      (.lockExecute (call.inputs.map toTensorPtr), ⟨none, m⟩) := rfl
  have hLock : CoreMove M host env t call (.lockExecute (call.inputs.map toTensorPtr), ⟨none, m⟩)
      (.execute (call.inputs.map toTensorPtr), ⟨some t, m⟩) := rfl
  have hUnlock : ∀ outcome, CoreMove M host env t call (.unlockExecute outcome, ⟨some t, run.2⟩)
      (.finished outcome, ⟨none, run.2⟩) := fun _ => rfl
  refine .head hConvert (.head hLock (.tail ?_ (hUnlock _)))
  rcases hRun : run with ⟨_ | evs, next⟩
  · refine .single ?_
    rw [CoreMove, coreStep, show M.execute _ _ _ = _ from hRun]
    rfl
  · refine .head ?_ (core_copy_alone ⟨some t, next⟩ evs ⟨[], []⟩)
    rw [CoreMove, coreStep, show M.execute _ _ _ = _ from hRun]

/-- A call that nothing interrupts is the sequential call. -/
theorem core_alone (m : σ) : CoreRun M host env t call (.lockMetadata, ⟨none, m⟩)
    (.finished (call.runOn M host env ⟨m, false⟩).1,
      ⟨none, (call.runOn M host env ⟨m, false⟩).2.module⟩) := by
  refine (core_metadata_alone m).trans ?_
  by_cases hRun : call.IsRun
  · have hRead : readMetadata M call m = Prod.map
        (fun r => (usesOutcome call.name openvinoBackend r).map .uses) id (M.methodMeta call.name m) := by
      obtain ⟨name, inputs, rfl⟩ := hRun
      rfl
    have hAfter : ∀ uses, afterMetadata call (.ok (.uses uses)) =
        if uses then .registration else .convert := by
      obtain ⟨name, inputs, rfl⟩ := hRun
      intro uses
      cases uses <;> rfl
    have hGuard : guardAt M host env call m =
        guardOutcome host env (usesOutcome call.name openvinoBackend (M.methodMeta call.name m).1) := rfl
    rw [hRead]
    simp only [Prod.map]
    cases hUses : usesOutcome call.name openvinoBackend (M.methodMeta call.name m).1 with
    | error e =>
      rw [hUses] at hGuard
      have hRefused : afterMetadata call (.error e) = .finished (.error e) := by
        obtain ⟨name, inputs, rfl⟩ := hRun
        rfl
      rw [runOn_refused hRun hGuard]
      simp only [Except.map, hRefused]
      exact .refl
    | ok uses =>
      rw [hUses] at hGuard
      simp only [Except.map, hAfter]
      cases uses with
      | false =>
        rw [runOn_executed hRun hGuard]
        exact core_execute_alone _
      | true =>
        refine (core_check_alone _).trans ?_
        cases hCheck : checkOpenvino host env with
        | error e =>
          rw [runOn_refused hRun (hGuard.trans hCheck)]
          exact .refl
        | ok _ =>
          rw [runOn_executed hRun (hGuard.trans hCheck)]
          exact core_execute_alone _
  · rw [afterMetadata_of_not_run hRun, runOn_metadata hRun]

end Core

/-! ## A load -/

section Load

variable {Tid Rid σ : Type} [DecidableEq Rid] (M : Module σ) (interp : Interpreter) (host : Host) (t : Tid)

def JobMove (a b : Job Rid × EnvProcess Tid Rid σ) : Prop := JobStep M interp host t a.1 a.2 b.1 b.2

abbrev JobRun : Job Rid × EnvProcess Tid Rid σ → Job Rid × EnvProcess Tid Rid σ → Prop :=
  Relation.ReflTransGen (JobMove M interp host t)

variable {M interp host t} {sh : EnvProcess Tid Rid σ} {r : Rid}

theorem job_of_coreRun {call : Call} {after : After} {a b : Pc × SharedRuntime Tid σ}
    (hRt : sh.runtimes r = some a.2) (h : CoreRun M host sh.env t call a b) :
    JobRun M interp host t (.core r call a.1 after, sh) (.core r call b.1 after, sh.put r b.2) := by
  induction h with
  | refl =>
    rw [EnvProcess.put_same hRt]
  | @tail b c _ hLast ih =>
    refine ih.tail ?_
    rw [← sh.put_put r b.2 c.2]
    exact .core (sh.put_self r b.2) hLast

theorem job_call_alone {m : σ} (hRt : sh.runtimes r = some ⟨none, m⟩) (call : Call) (after : After) :
    JobRun M interp host t (.core r call .lockMetadata after, sh)
      (afterCall r after (call.runOn M host sh.env ⟨m, false⟩).1,
        sh.put r ⟨none, (call.runOn M host sh.env ⟨m, false⟩).2.module⟩) :=
  (job_of_coreRun hRt (core_alone m)).tail (.python rfl)

theorem ask_alone (names : List PyStr) {m : σ} (hRt : sh.runtimes r = some ⟨none, m⟩) :
    let answer := anyUsesBackend M names ⟨m, false⟩
    JobRun M interp host t (.ask r names, sh)
      (match answer.1 with
        | .error e => .loaded (.error e)
        | .ok true => .getEnviron r
        | .ok false => .loaded (.ok r), sh.put r ⟨none, answer.2.module⟩) := by
  induction names generalizing sh m with
  | nil =>
    rw [anyUsesBackend]
    dsimp only
    rw [EnvProcess.put_same hRt]
    exact .single (.python rfl)
  | cons name rest ih =>
    rw [anyUsesBackend]
    cases hArg : encodeUtf8 name with
    | none =>
      dsimp only
      rw [EnvProcess.put_same hRt]
      refine .single (.python ?_)
      rw [loadStep, hArg]
    | some arg =>
      have hAsk : JobMove M interp host t (.ask r (name :: rest), sh)
          (.core r (.methodUsesBackend arg backendArg) .lockMetadata (.asking rest), sh) := by
        refine .python ?_
        rw [loadStep, hArg]
      refine .head hAsk ((job_call_alone hRt _ _).trans ?_)
      rw [runOn_metadata (by rintro ⟨_, _, hCall⟩; cases hCall)]
      simp only [readMetadata, Bound.methodUsesBackend, methodUsesBackend_runOn, Prod.map]
      cases usesOutcome arg.val backendArg.val (M.methodMeta arg.val m).1 with
      | error e => exact .refl
      | ok uses =>
        cases uses with
        | true => exact .refl
        | false =>
          have hRest := ih (sh.put_self r ⟨none, (M.methodMeta arg.val m).2⟩)
          simp only [EnvProcess.put_put] at hRest
          exact hRest

theorem resolve_alone : JobRun M interp host t (.getEnviron r, sh)
    (match resolveLibPath interp host sh.env with
      | .error e => (.loaded (.error e), sh)
      | .ok env' => (.loaded (.ok r), { sh with env := env' })) := by
  obtain ⟨env, runtimes⟩ := sh
  cases env with
  | some existing =>
    have hRead : JobMove M interp host t (.getEnviron r, ⟨some existing, runtimes⟩)
        (.isfile r existing, ⟨some existing, runtimes⟩) := .python rfl
    refine .head hRead (.single ?_)
    rw [resolveLibPath]
    dsimp only
    cases hFile : osPathIsfile interp host (interp.fsdecode existing.val) with
    | true => exact .python (by rw [loadStep, hFile]; rfl)
    | false => exact .python (by rw [loadStep, hFile]; rfl)
  | none =>
    have hRead : JobMove M interp host t (.getEnviron r, ⟨none, runtimes⟩)
        (.wheel r, ⟨none, runtimes⟩) := .python rfl
    refine .head hRead ?_
    rw [resolveLibPath]
    dsimp only
    cases hWheel : wheelLibPath interp with
    | error e =>
      refine .single (.python ?_)
      rw [loadStep, hWheel]
    | ok path =>
      have hFound : JobMove M interp host t (.wheel r, ⟨none, runtimes⟩)
          (.setEnviron r path, ⟨none, runtimes⟩) := by
        refine .python ?_
        rw [loadStep, hWheel]
      refine .head hFound ?_
      dsimp only
      cases hSet : setEnviron interp path with
      | error e =>
        refine .single (.python ?_)
        rw [loadStep, hSet]
      | ok lib =>
        refine .single (.python ?_)
        rw [loadStep, hSet]

theorem names_alone {source : Source} {s : RuntimeState σ} (hOpen : openSource M source = .ok s)
    (hFresh : sh.runtimes r = none) : JobRun M interp host t (.opening source, sh)
      (afterCall r .names ((namesOutcome (M.methodNames s.module).1).map .names),
        sh.put r ⟨none, (M.methodNames s.module).2⟩) := by
  have hOpened : JobMove M interp host t (.opening source, sh)
      (.core r .methodNames .lockMetadata .names, sh.put r ⟨none, s.module⟩) := .opened hOpen hFresh
  refine .head hOpened ((job_call_alone (sh.put_self r _) .methodNames .names).trans ?_)
  rw [runOn_metadata (by rintro ⟨_, _, hCall⟩; cases hCall), EnvProcess.put_put]
  exact .refl

theorem uses_alone {source : Source} {s : RuntimeState σ} (hOpen : openSource M source = .ok s)
    (hFresh : sh.runtimes r = none) :
    let answer := usesOpenvino M s
    JobRun M interp host t (.opening source, sh)
      (match answer.1 with
        | .error e => .loaded (.error e)
        | .ok true => .getEnviron r
        | .ok false => .loaded (.ok r), sh.put r ⟨none, answer.2.module⟩) := by
  refine (names_alone hOpen hFresh).trans ?_
  simp only [usesOpenvino, Bound.methodNames, methodNames_runOn]
  cases namesOutcome (M.methodNames s.module).1 with
  | error e => exact .refl
  | ok names =>
    dsimp only
    cases hTexts : castStrings names with
    | error e =>
      have hAfter : (afterCall r .names (Except.map Answer.names (.ok names)) : Job Rid) =
          .loaded (.error e) := by simp only [Except.map, afterCall, hTexts]
      rw [hAfter]
    | ok texts =>
      have hAfter : (afterCall r .names (Except.map Answer.names (.ok names)) : Job Rid) =
          .ask r texts := by simp only [Except.map, afterCall, hTexts]
      rw [hAfter]
      simpa only [EnvProcess.put_put] using ask_alone texts (sh.put_self r ⟨none, (M.methodNames s.module).2⟩)

/-- A load that nothing interrupts is `Runtime.load_program`; the Runtime stands at `r`. -/
theorem load_alone (source : Source) (hFresh : sh.runtimes r = none) :
    let result := Runtime.loadProgram interp host M source sh.env
    ∃ sh', JobRun M interp host t (.opening source, sh) (.loaded (result.1.map fun _ => r), sh') ∧
      sh'.env = result.2 ∧ ∀ s, result.1 = .ok s → sh'.runtimes r = some ⟨none, s.module⟩ := by
  cases hOpen : openSource M source with
  | error e =>
    simp only [Runtime.loadProgram, hOpen]
    exact ⟨sh, .single (.openFailed hOpen), rfl, by simp⟩
  | ok s =>
    have hUses : JobRun M interp host t (.opening source, sh) _ := uses_alone hOpen hFresh
    simp only [Runtime.loadProgram, hOpen, Program.init, ensureOpenvinoLibPath]
    rcases hAnswer : usesOpenvino M s with ⟨_ | uses, s'⟩ <;> rw [hAnswer] at hUses
    · exact ⟨_, hUses, rfl, by simp⟩
    · cases uses with
      | false => exact ⟨_, hUses, rfl, by simp⟩
      | true =>
        have hResolve : JobRun M interp host t (.getEnviron r, sh.put r ⟨none, s'.module⟩) _ :=
          resolve_alone
        rw [EnvProcess.put_env] at hResolve
        dsimp only
        cases hLib : resolveLibPath interp host sh.env with
        | error e =>
          rw [hLib] at hResolve
          exact ⟨_, hUses.trans hResolve, rfl, by simp⟩
        | ok env' =>
          rw [hLib] at hResolve
          exact ⟨_, hUses.trans hResolve, rfl, by simp⟩

end Load

/-! ## A bound call -/

section Bound

variable {Tid Rid σ : Type} [DecidableEq Rid] (M : Module σ) (host : Host) (env : Env) (t : Tid)

def BoundCall.runOn : BoundCall → RuntimeState σ → Except PyException PyAnswer × RuntimeState σ
  | .methodNames, s => Prod.map (Except.map .names) id (Bound.methodNames M s)
  | .methodMeta name, s => Prod.map (Except.map .metadata) id (Bound.methodMeta M name s)
  | .methodUsesBackend name backend, s =>
    Prod.map (Except.map .uses) id (Bound.methodUsesBackend M name backend s)
  | .runMethod name arrs, s => Prod.map (Except.map .outputs) id (Bound.runMethod M host env name arrs s)

def PyMove (a b : PyThread Rid × Process Tid Rid σ) : Prop :=
  PyThreadStep M host env t a.1 a.2 b.1 b.2

abbrev PyRun : PyThread Rid × Process Tid Rid σ → PyThread Rid × Process Tid Rid σ → Prop :=
  Relation.ReflTransGen (PyMove M host env t)

variable {M host env t} {sh : Process Tid Rid σ} {r : Rid} {todo : List (Rid × BoundCall)}
  {pins : List HeldInput} {results : List (Except PyException PyAnswer)} {name : ByteString}

theorem pyMove_objects {p p' : Phase Rid} {pins' : List HeldInput}
    (h : pythonStep p pins = some (p', pins')) :
    PyMove M host env t (⟨todo, .python p, pins, results⟩, sh)
      (⟨todo, .python p', pins', results⟩, sh) :=
  ⟨.touch, .objects rfl h⟩

theorem py_of_coreRun {call : Call} {a b : Pc × SharedRuntime Tid σ} (hRt : sh.runtimes r = a.2)
    (h : CoreRun M host env t call a b) :
    PyRun M host env t (⟨todo, .core r call a.1, pins, results⟩, sh)
      (⟨todo, .core r call b.1, pins, results⟩,
        ⟨sh.gil, Function.update sh.runtimes r b.2⟩) := by
  induction h with
  | refl =>
    rw [← hRt, Function.update_eq_self]
  | @tail b c _ hLast ih =>
    have hIdem : Function.update (Function.update sh.runtimes r b.2) r c.2 =
        Function.update sh.runtimes r c.2 := Function.update_idem ..
    refine ih.tail ⟨.core, ?_⟩
    rw [← hIdem]
    refine .core rfl ?_
    dsimp only
    rw [Function.update_self]
    exact hLast

theorem pins_alone (arrs : List NdArray) (i : Nat) :
    (∀ held, Traverse.traverseFrom (fun _ a => makeHeldInput a) i arrs = .ok held →
      PyRun M host env t (⟨todo, .python (.pin r name arrs), pins, results⟩, sh)
        (⟨todo, .python (.releaseGil r name), pins ++ held, results⟩, sh)) ∧
    ∀ thrown, Traverse.traverseFrom (fun _ a => makeHeldInput a) i arrs = .error thrown →
      ∃ pins', PyRun M host env t (⟨todo, .python (.pin r name arrs), pins, results⟩, sh)
        (⟨todo, .python (.dropPins (.error thrown)), pins', results⟩, sh) := by
  induction arrs generalizing i pins with
  | nil =>
    refine ⟨fun held hHeld => ?_, fun thrown hThrown => by cases hThrown⟩
    cases hHeld
    rw [List.append_nil]
    exact .single (pyMove_objects rfl)
  | cons a rest ih =>
    cases hInput : makeHeldInput a with
    | error thrown =>
      have hStep : pythonStep (.pin r name (a :: rest)) pins =
          some (.dropPins (.error thrown), pins) := by rw [pythonStep, hInput]
      refine ⟨fun held hHeld => ?_, fun thrown' hThrown => ?_⟩
      · rw [Traverse.traverseFrom, hInput] at hHeld
        cases hHeld
      · rw [Traverse.traverseFrom, hInput] at hThrown
        cases hThrown
        exact ⟨pins, .single (pyMove_objects hStep)⟩
    | ok input =>
      have hStep : pythonStep (.pin r name (a :: rest)) pins =
          some (.pin r name rest, pins ++ [input]) := by rw [pythonStep, hInput]
      obtain ⟨hOk, hError⟩ := @ih (pins ++ [input]) (i + 1)
      rw [Traverse.traverseFrom, hInput]
      dsimp only
      cases hRest : Traverse.traverseFrom (fun _ a => makeHeldInput a) (i + 1) rest with
      | error thrown =>
        refine ⟨fun held hHeld => (by cases hHeld), fun thrown' hThrown => ?_⟩
        cases hThrown
        obtain ⟨pins', hRun⟩ := hError thrown hRest
        exact ⟨pins', .head (pyMove_objects hStep) hRun⟩
      | ok held =>
        refine ⟨fun held' hHeld => ?_, fun thrown hThrown => by cases hThrown⟩
        cases hHeld
        have hRun := hOk held hRest
        rw [List.append_assoc] at hRun
        exact .head (pyMove_objects hStep) hRun

theorem drop_alone (result : Except Thrown (List PyValue)) (pins : List HeldInput) :
    PyRun M host env t (⟨todo, .python (.dropPins result), pins, results⟩, sh)
      (⟨todo, .python .outside, [], results ++ [(result.mapError Thrown.toPython).map .outputs]⟩, sh) := by
  induction pins with
  | nil => exact .head (pyMove_objects rfl) (.single ⟨.touch, .giveOutputs rfl⟩)
  | cons held pins ih => exact .head (pyMove_objects rfl) ih

theorem build_alone (storage : List ByteString) (views : List OutputView) (values : List PyValue) :
    PyRun M host env t (⟨todo, .python (.build name storage views values), pins, results⟩, sh)
      (⟨todo, .python (.dropPins (match Traverse.traverseFrom
          (fun index v => copyOut storage v name index) values.length views with
        | .error e => .error (.et e)
        | .ok more => .ok (values ++ more))), pins, results⟩, sh) := by
  induction views generalizing values with
  | nil =>
    rw [Traverse.traverseFrom]
    simp only [List.append_nil]
    exact .single (pyMove_objects rfl)
  | cons v rest ih =>
    rw [Traverse.traverseFrom]
    cases hValue : copyOut storage v name values.length with
    | error e => exact .single (pyMove_objects (by rw [pythonStep, hValue]))
    | ok value =>
      have hRest := ih (values ++ [value])
      simp only [List.length_append, List.length_singleton] at hRest
      refine .head (pyMove_objects (by rw [pythonStep, hValue])) ?_
      dsimp only
      cases hMore : Traverse.traverseFrom (fun index v => copyOut storage v name index)
          (values.length + 1) rest with
      | error e =>
        rw [hMore] at hRest
        exact hRest
      | ok more =>
        rw [hMore] at hRest
        simp only [List.append_assoc, List.singleton_append] at hRest
        exact hRest

theorem py_call_alone {m : σ} (hRt : sh.runtimes r = ⟨none, m⟩) (call : Call) :
    PyRun M host env t (⟨todo, .core r call .lockMetadata, pins, results⟩, sh)
      (⟨todo, afterCore call (call.runOn M host env ⟨m, false⟩).1, pins, results⟩,
        ⟨sh.gil, Function.update sh.runtimes r ⟨none, (call.runOn M host env ⟨m, false⟩).2.module⟩⟩) :=
  (py_of_coreRun hRt (core_alone m)).tail ⟨.core, .leave rfl⟩

theorem outputs_alone (outcome : Except EtError ForwardState) :
    PyRun M host env t
      (⟨todo, .python (.outputs name (outcome.map .forward)), pins, results⟩, sh)
      (⟨todo, .python (.dropPins (match outcome with
        | .error e => .error (.et e)
        | .ok fs => (copyOutAll name fs).mapError Thrown.et)), pins, results⟩, sh) := by
  cases outcome with
  | error e => exact .single (pyMove_objects rfl)
  | ok fs =>
    have hBuild : PyMove M host env t
        (⟨todo, .python (.outputs name (.ok (.forward fs))), pins, results⟩, sh)
        (⟨todo, .python (.build name fs.storage fs.views []), pins, results⟩, sh) :=
      pyMove_objects rfl
    refine .head hBuild ((build_alone fs.storage fs.views []).trans ?_)
    dsimp only
    rw [copyOutAll, List.length_nil]
    cases Traverse.traverseFrom (fun index v => copyOut fs.storage v name index) 0 fs.views with
    | error e => exact .refl
    | ok values => exact .refl

theorem metadata_call_alone {m : σ} (hRt : sh.runtimes r = ⟨none, m⟩) {c : BoundCall} {call : Call}
    (hCall : c.metadata = some call) :
    let run := call.runOn M host env ⟨m, false⟩
    PyRun M host env t (⟨(r, c) :: todo, .python .outside, [], results⟩, sh)
      (⟨todo, .python .outside, [], results ++ [toPyAnswer run.1]⟩,
        ⟨sh.gil, Function.update sh.runtimes r ⟨none, run.2.module⟩⟩) := by
  have hStart : PyMove M host env t (⟨(r, c) :: todo, .python .outside, [], results⟩, sh)
      (⟨todo, .core r call .lockMetadata, [], results⟩, sh) :=
    ⟨.start, .startMetadata rfl rfl hCall⟩
  have hAnswer : ∀ outcome, (afterCore call outcome : Pos Rid) = .python (.answer outcome) := by
    cases c <;> cases hCall <;> exact fun _ => rfl
  refine .head hStart ((py_call_alone hRt call).trans (.single ⟨.touch, ?_⟩))
  rw [hAnswer]
  exact .giveAnswer rfl

theorem bound_metadata_runOn {c : BoundCall} {call : Call} (hCall : c.metadata = some call)
    (s : RuntimeState σ) : (toPyAnswer (call.runOn M host env s).1, (call.runOn M host env s).2) =
      c.runOn M host env s := by
  cases c with
  | runMethod name arrs => cases hCall
  | methodNames =>
    cases hCall
    rw [Call.runOn, BoundCall.runOn, Bound.methodNames, methodNames_runOn]
    cases namesOutcome (M.methodNames s.module).1 <;> rfl
  | methodMeta name =>
    cases hCall
    rw [Call.runOn, BoundCall.runOn, Bound.methodMeta, methodMeta_runOn]
    cases metaOutcome name.val (M.methodMeta name.val s.module).1 <;> rfl
  | methodUsesBackend name backend =>
    cases hCall
    rw [Call.runOn, BoundCall.runOn, Bound.methodUsesBackend, methodUsesBackend_runOn]
    cases usesOutcome name.val backend.val (M.methodMeta name.val s.module).1 <;> rfl

/-- Taking the GIL back, building the outputs, dropping the pins and giving the result. -/
theorem give_alone (outcome : Except EtError ForwardState) (hGil : sh.gil = none) :
    PyRun M host env t (⟨todo, .waitGil (.outputs name (outcome.map .forward)), pins, results⟩, sh)
      (⟨todo, .python .outside, [], results ++
        [((match outcome with
          | .error e => Except.error (Thrown.et e)
          | .ok fs => (copyOutAll name fs).mapError Thrown.et).mapError Thrown.toPython).map .outputs]⟩,
        ⟨some t, sh.runtimes⟩) := by
  have hAcquire : PyMove M host env t
      (⟨todo, .waitGil (.outputs name (outcome.map .forward)), pins, results⟩, sh)
      (⟨todo, .python (.outputs name (outcome.map .forward)), pins, results⟩, ⟨some t, sh.runtimes⟩) :=
    ⟨.acquire, .acquire rfl hGil⟩
  exact .head hAcquire ((outputs_alone outcome).trans (drop_alone _ pins))

theorem bound_runMethod_eq (name : Utf8String) (arrs : List NdArray) (s : RuntimeState σ) :
    Bound.runMethod M host env name arrs s =
      match holdInputs arrs with
      | .error thrown => (.error thrown.toPython, s)
      | .ok held =>
        let run := (runMethod M host env name (held.map HeldInput.desc)).runOn s
        ((match run.1 with
          | .error e => Except.error (Thrown.et e)
          | .ok fs => (copyOutAll name fs).mapError Thrown.et).mapError Thrown.toPython, run.2) := by
  rw [Bound.runMethod, Bound.runMethodBody]
  cases holdInputs arrs with
  | error thrown => rfl
  | ok held =>
    dsimp only
    rcases (runMethod M host env name.val (held.map HeldInput.desc)).runOn s with ⟨_ | fs, s'⟩
    · rfl
    · dsimp only
      cases copyOutAll name.val fs <;> rfl

theorem run_call_alone {m : σ} (hGil : sh.gil = some t) (hRt : sh.runtimes r = ⟨none, m⟩)
    (name : Utf8String) (arrs : List NdArray) :
    let run := Bound.runMethod M host env name arrs ⟨m, false⟩
    PyRun M host env t (⟨(r, .runMethod name arrs) :: todo, .python .outside, [], results⟩, sh)
      (⟨todo, .python .outside, [], results ++ [run.1.map .outputs]⟩,
        ⟨sh.gil, Function.update sh.runtimes r ⟨none, run.2.module⟩⟩) := by
  have hStart : PyMove M host env t
      (⟨(r, .runMethod name arrs) :: todo, .python .outside, [], results⟩, sh)
      (⟨todo, .python (.pin r name.val arrs), [], results⟩, sh) := ⟨.start, .startRun rfl rfl⟩
  refine .head hStart ?_
  rw [bound_runMethod_eq]
  cases hHeld : holdInputs arrs with
  | error thrown =>
    have hPins : ∃ pins', PyRun M host env t (⟨todo, .python (.pin r name.val arrs), [], results⟩, sh)
        (⟨todo, .python (.dropPins (.error thrown)), pins', results⟩, sh) :=
      (pins_alone arrs 0).2 thrown hHeld
    obtain ⟨pins', hRun⟩ := hPins
    dsimp only
    rw [← hRt, Function.update_eq_self]
    exact hRun.trans (drop_alone (.error thrown) pins')
  | ok held =>
    have hRelease : PyMove M host env t (⟨todo, .python (.releaseGil r name.val), held, results⟩, sh)
        (⟨todo, .core r (.runMethod name.val (held.map HeldInput.desc)) .lockMetadata, held, results⟩,
          ⟨none, sh.runtimes⟩) := ⟨.release, .release rfl⟩
    have hFree : (⟨none, sh.runtimes⟩ : Process Tid Rid σ).runtimes r = ⟨none, m⟩ := hRt
    refine ((pins_alone arrs 0).1 held hHeld).trans (.head hRelease ((py_call_alone hFree _).trans ?_))
    rw [hGil]
    exact give_alone _ rfl

/-- A bound call that nothing interrupts is the sequential bound call: it starts and ends with the GIL
and without pins, and leaves the mutex free. -/
theorem bound_call_alone {m : σ} (hGil : sh.gil = some t) (hRt : sh.runtimes r = ⟨none, m⟩)
    (c : BoundCall) :
    let run := c.runOn M host env ⟨m, false⟩
    PyRun M host env t (⟨(r, c) :: todo, .python .outside, [], results⟩, sh)
      (⟨todo, .python .outside, [], results ++ [run.1]⟩,
        ⟨sh.gil, Function.update sh.runtimes r ⟨none, run.2.module⟩⟩) := by
  intro run
  cases hCall : c.metadata with
  | some call =>
    have hRun : (toPyAnswer (call.runOn M host env ⟨m, false⟩).1, (call.runOn M host env ⟨m, false⟩).2) =
        run := bound_metadata_runOn hCall ⟨m, false⟩
    rw [← hRun]
    exact metadata_call_alone hRt hCall
  | none =>
    obtain ⟨name, arrs, rfl⟩ : ∃ name arrs, c = .runMethod name arrs := by
      cases c <;> first | exact ⟨_, _, rfl⟩ | cases hCall
    exact run_call_alone hGil hRt name arrs

end Bound

end ExecutorchNumpy
