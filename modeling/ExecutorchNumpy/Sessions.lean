import ExecutorchNumpy.LinearizableCalls
import ExecutorchNumpy.OpenvinoAgreement
import ExecutorchNumpy.EnvThreads
import ExecutorchNumpy.PublicApi
import ExecutorchNumpy.Library.Isolation

/-! # Sessions of the public API

A process loads any number of programs and uses their methods in any order. The
programs share the environment, through which one load could be seen by the others;
a program that is loaded does not see it.
-/

namespace ExecutorchNumpy
set_option autoImplicit false

open Executorch (Module)
open Traverse Isolation

/-! ## The objects a session holds -/

/-- What is asked of a `Program`, or of a `Method` with the given name. -/
inductive ObjectCall where
  | methodNames
  | loadMethod (name : PyStr)
  | metadata (name : PyStr)
  | call (name : PyStr) (inputs : List NdArray)

inductive ApiOp where
  | loadProgram (source : Source)
  | on (call : ObjectCall)

inductive ApiAnswer where
  | program
  | names (names : List PyStr)
  | method (name : PyStr)
  | metadata (mm : MethodMeta)
  | outputs (values : List PyValue)

/-- The `Program` objects, each with its Runtime, and the `Method` objects made from them. -/
structure Session (Rid σ : Type) where
  env : Env
  runtimes : Rid → Option (RuntimeState σ)
  methods : List (Rid × PyStr)

def Session.start {Rid σ : Type} (env : Env) : Session Rid σ := ⟨env, fun _ => none, []⟩

def isOn {Rid : Type} [DecidableEq Rid] (r : Rid) (op : Rid × ApiOp) : Bool := op.1 = r

/-- A `Method` has to exist before it can be used. -/
def ObjectCall.method? : ObjectCall → Option PyStr
  | .metadata name => some name
  | .call name _ => some name
  | _ => none

section Steps

variable {Rid σ : Type} [DecidableEq Rid] (M : Module σ) (interp : Interpreter) (host : Host)

def runtimeCall (env : Env) : ObjectCall → RuntimeState σ → Except PyException ApiAnswer × RuntimeState σ
  | .methodNames, rt => Prod.map (Except.map .names) id (Bound.methodNames M rt)
  | .loadMethod name, rt => Prod.map (Except.map .method) id (Program.loadMethod M name rt)
  | .metadata name, rt =>
    match encodeUtf8 name with
    | none => (.error .castError, rt)
    | some arg => Prod.map (Except.map .metadata) id (Bound.methodMeta M arg rt)
  | .call name inputs, rt =>
    match encodeUtf8 name with
    | none => (.error .castError, rt)
    | some arg => Prod.map (Except.map .outputs) id (Method.call M host env arg inputs rt)

/-- The `Method` object that an answer brings into being. -/
def newMethods (r : Rid) : Except PyException ApiAnswer → List (Rid × PyStr)
  | .ok (.method name) => [(r, name)]
  | _ => []

/-- There is no answer from objects that do not exist; a load makes a new object. -/
def apiStep : Rid × ApiOp → Session Rid σ → Option (Except PyException ApiAnswer) × Session Rid σ
  | (r, .loadProgram source), s =>
    match s.runtimes r with
    | some _ => (none, s)
    | none =>
      match Runtime.loadProgram interp host M source s.env with
      | (.error e, env) => (some (.error e), { s with env := env })
      | (.ok rt, env) =>
        (some (.ok .program), { s with env := env, runtimes := Function.update s.runtimes r (some rt) })
  | (r, .on call), s =>
    match s.runtimes r with
    | none => (none, s)
    | some rt =>
      if call.method?.all fun name => (r, name) ∈ s.methods then
        let run := runtimeCall M host s.env call rt
        (some run.1, { s with runtimes := Function.update s.runtimes r (some run.2),
                              methods := newMethods r run.1 ++ s.methods })
      else (none, s)

end Steps

/-! ## What stays the same for a program -/

section Answers

variable {σ : Type} {M : Module σ} {same : σ → σ → Prop} {host : Host} {env : Env} {m₀ : σ}

theorem sameAnswers_runOn (hReads : M.MetadataReads same) (call : Call) {a : RuntimeState σ}
    (h : SameAnswers M a.module m₀) : SameAnswers M (call.runOn M host env a).2.module m₀ := by
  have hMeta : ∀ name, SameAnswers M (M.methodMeta name a.module).2 m₀ :=
    fun name => sameAnswers_of_same hReads (hReads.methodMeta_same name a.module) h
  cases call with
  | runMethod name inputs =>
    cases hGuard : guardAt M host env (.runMethod name inputs) a.module with
    | error e =>
      rw [runOn_refused ⟨name, inputs, rfl⟩ hGuard]
      exact hMeta name
    | ok _ =>
      rw [runOn_executed ⟨name, inputs, rfl⟩ hGuard]
      exact sameAnswers_execute hReads (hMeta name) name _
  | methodNames =>
    rw [runOn_metadata (by rintro ⟨_, _, hCall⟩; cases hCall)]
    exact sameAnswers_of_same hReads (hReads.methodNames_same a.module) h
  | methodMeta name =>
    rw [runOn_metadata (by rintro ⟨_, _, hCall⟩; cases hCall)]
    exact hMeta name
  | methodUsesBackend name backend =>
    rw [runOn_metadata (by rintro ⟨_, _, hCall⟩; cases hCall)]
    exact hMeta name

theorem sameAnswers_bound (hReads : M.MetadataReads same) (c : BoundCall) {a : RuntimeState σ}
    (h : SameAnswers M a.module m₀) : SameAnswers M (c.runOn M host env a).2.module m₀ := by
  cases hCall : c.metadata with
  | some call =>
    rw [← bound_metadata_runOn hCall a]
    exact sameAnswers_runOn hReads call h
  | none =>
    cases c with
    | runMethod name arrs =>
      cases hHeld : holdInputs arrs with
      | error thrown =>
        rw [BoundCall.runOn, bound_runMethod_eq, hHeld]
        exact h
      | ok held =>
        rw [(CoreCall.run hHeld).runOn a]
        exact sameAnswers_runOn hReads _ h
    | methodNames => cases hCall
    | methodMeta name => cases hCall
    | methodUsesBackend name backend => cases hCall

theorem loadMethod_state (name : PyStr) (rt : RuntimeState σ) :
    (Program.loadMethod M name rt).2 = (Bound.methodNames M rt).2 := by
  rw [Program.loadMethod]
  obtain ⟨_ | names, rt'⟩ := Bound.methodNames M rt
  · rfl
  · dsimp only
    split <;> rfl

theorem sameAnswers_runtimeCall (hReads : M.MetadataReads same) (call : ObjectCall) {rt : RuntimeState σ}
    (h : SameAnswers M rt.module m₀) : SameAnswers M (runtimeCall M host env call rt).2.module m₀ := by
  cases call with
  | methodNames => exact @sameAnswers_bound σ M same host env m₀ hReads .methodNames rt h
  | loadMethod name =>
    rw [runtimeCall, Prod.map, id, loadMethod_state]
    exact @sameAnswers_bound σ M same host env m₀ hReads .methodNames rt h
  | metadata name =>
    rw [runtimeCall]
    cases encodeUtf8 name with
    | none => exact h
    | some arg => exact @sameAnswers_bound σ M same host env m₀ hReads (.methodMeta arg) rt h
  | call name inputs =>
    rw [runtimeCall]
    cases encodeUtf8 name with
    | none => exact h
    | some arg => exact sameAnswers_bound hReads (.runMethod arg (inputs.map ascontiguousarray)) h

theorem not_hasLowered_of_answers {m : σ} (h : ¬ HasLowered M m₀) (hAnswers : SameAnswers M m m₀) :
    ¬ HasLowered M m := by
  have hBack : SameAnswers M m₀ m := ⟨hAnswers.names.symm, fun name => (hAnswers.metadata name).symm⟩
  exact fun hLowered => h (hLowered.of_answers hBack)

/-! ## Programs that do not use OpenVINO -/

theorem guardOutcome_plain {uses : Except EtError Bool} (h : uses ≠ .ok true) (env' : Env) :
    guardOutcome host env uses = guardOutcome host env' uses := by
  cases uses with
  | error e => rfl
  | ok uses =>
    cases uses with
    | true => exact absurd rfl h
    | false => rfl

/-- The environment is looked at for lowered methods only. -/
theorem runtimeCall_plain {rt : RuntimeState σ} (hPlain : ¬ HasLowered M rt.module) {call : ObjectCall}
    (hListed : ∀ name, call.method? = some name → NamesOf M rt.module [name]) (env' : Env) :
    runtimeCall M host env call rt = runtimeCall M host env' call rt := by
  cases call with
  | call name inputs =>
    obtain ⟨names, hNames, hEach⟩ := hListed name rfl
    obtain ⟨n, hn, hDecode⟩ := hEach name List.mem_cons_self
    obtain ⟨arg, hArg, hBytes⟩ := encodeUtf8_of_decodes hDecode
    have hUses : usesOutcome arg.val openvinoBackend (M.methodMeta arg.val rt.module).1 ≠ .ok true := by
      intro hTrue
      rw [hBytes] at hTrue
      exact hPlain ⟨names, hNames, n, hn, hTrue⟩
    have hRun : ∀ inputs, (runMethod M host env arg inputs).runOn rt =
        (runMethod M host env' arg inputs).runOn rt := by
      intro inputs
      rw [runMethod_runOn, runMethod_runOn, guardOutcome_plain hUses env']
    rw [runtimeCall, runtimeCall, hArg]
    simp only [Method.call, bound_runMethod_eq, hRun]
  | methodNames => rfl
  | loadMethod name => rfl
  | metadata name => rfl

theorem anyUsesBackend_answers (hReads : M.MetadataReads same) (texts : List PyStr) {s s' : RuntimeState σ}
    {found : Except PyException Bool} (hAnswers : SameAnswers M s.module m₀)
    (h : anyUsesBackend M texts s = (found, s')) :
    SameAnswers M s'.module m₀ ∧ (found = .ok false → ∀ text ∈ texts, ∀ n, decodeUtf8 n = some text →
      usesOutcome n openvinoBackend (M.methodMeta n m₀).1 = .ok false) := by
  induction texts generalizing s with
  | nil =>
    cases h
    exact ⟨hAnswers, fun _ text hText => by cases hText⟩
  | cons text rest ih =>
    rw [anyUsesBackend] at h
    cases hArg : encodeUtf8 text with
    | none =>
      rw [hArg] at h
      cases h
      exact ⟨hAnswers, fun hFound => by cases hFound⟩
    | some arg =>
      have hRead : Bound.methodUsesBackend M arg backendArg s =
          (toPyResult (usesOutcome arg.val openvinoBackend (M.methodMeta arg.val s.module).1),
            ⟨(M.methodMeta arg.val s.module).2, false⟩) := by
        change Prod.map toPyResult id ((methodUsesBackend M arg.val openvinoBackend).runOn s) = _
        rw [methodUsesBackend_runOn]
        rfl
      have hNext : SameAnswers M (M.methodMeta arg.val s.module).2 m₀ :=
        sameAnswers_of_same hReads (hReads.methodMeta_same arg.val s.module) hAnswers
      rw [hArg] at h
      dsimp only at h
      rw [hRead, hAnswers.metadata] at h
      cases hUses : usesOutcome arg.val openvinoBackend (M.methodMeta arg.val m₀).1 with
      | error e =>
        rw [hUses] at h
        cases h
        exact ⟨hNext, fun hFound => by cases hFound⟩
      | ok uses =>
        rw [hUses] at h
        cases uses with
        | true =>
          cases h
          exact ⟨hNext, fun hFound => by cases hFound⟩
        | false =>
          obtain ⟨hAfter, hAll⟩ := ih hNext h
          refine ⟨hAfter, fun hFound => List.forall_mem_cons.mpr ⟨?_, hAll hFound⟩⟩
          intro n hDecode
          obtain ⟨arg', hArg', hBytes⟩ := encodeUtf8_of_decodes hDecode
          rw [hArg] at hArg'
          cases hArg'
          rw [← hBytes]
          exact hUses

theorem methodNames_of_error {s : RuntimeState σ} {code : Executorch.Error}
    (h : (M.methodNames s.module).1 = .error code) : Bound.methodNames M s =
      (.error (translate methodNamesFailed), ⟨(M.methodNames s.module).2, false⟩) := by
  rw [Bound.methodNames, methodNames_runOn, h]
  rfl

theorem methodNames_of_ok {s : RuntimeState σ} {names : List ByteString}
    (h : (M.methodNames s.module).1 = .ok names) :
    Bound.methodNames M s = (castStrings names, ⟨(M.methodNames s.module).2, false⟩) := by
  rw [Bound.methodNames, methodNames_runOn, h]
  rfl

theorem exists_text_of_mem {names : List ByteString} {texts : List PyStr}
    (h : List.Forall₂ (fun n text => decodeUtf8 n = some text) names texts) {n : ByteString}
    (hn : n ∈ names) : ∃ text ∈ texts, decodeUtf8 n = some text := by
  induction h with
  | nil => cases hn
  | @cons first text names texts hText _ ih =>
    obtain rfl | hRest := List.mem_cons.mp hn
    · exact ⟨text, List.mem_cons_self, hText⟩
    · obtain ⟨text', hMem, hDecode⟩ := ih hRest
      exact ⟨text', List.mem_cons_of_mem text hMem, hDecode⟩

theorem usesOpenvino_answers (hReads : M.MetadataReads same) {s s' : RuntimeState σ}
    {found : Except PyException Bool} (h : usesOpenvino M s = (found, s')) :
    SameAnswers M s'.module s.module ∧ (found = .ok false → ¬ HasLowered M s.module) := by
  have hNext : SameAnswers M (M.methodNames s.module).2 s.module :=
    sameAnswers_of_same hReads (hReads.methodNames_same s.module) ⟨rfl, fun _ => rfl⟩
  cases hNames : (M.methodNames s.module).1 with
  | error code =>
    rw [usesOpenvino, methodNames_of_error hNames] at h
    cases h
    exact ⟨hNext, fun hFound => by cases hFound⟩
  | ok names =>
    rw [usesOpenvino, methodNames_of_ok hNames] at h
    obtain ⟨_, texts, hTexts, hEach⟩ | ⟨bytes, _, _, hError⟩ := castStrings_cases names
    · rw [hTexts] at h
      obtain ⟨hAfter, hAll⟩ := anyUsesBackend_answers hReads texts hNext h
      refine ⟨hAfter, fun hFound => ?_⟩
      rintro ⟨names', hNames', n, hn, hTrue⟩
      rw [hNames] at hNames'
      cases hNames'
      obtain ⟨text, hText, hDecode⟩ := exists_text_of_mem hEach hn
      rw [hAll hFound text hText n hDecode] at hTrue
      cases hTrue
    · rw [hError] at h
      cases h
      exact ⟨hNext, fun hFound => by cases hFound⟩

/-! ## Loads -/

variable {interp : Interpreter} {source : Source} {rt : RuntimeState σ} {env' : Env}

theorem resolveLibPath_keeps {lib : EnvValue} (h : resolveLibPath interp host (some lib) = .ok env') :
    env' = some lib := by
  rw [resolveLibPath] at h
  split at h <;> cases h
  rfl

theorem resolveLibPath_sets (h : resolveLibPath interp host env = .ok env') : env' ≠ none := by
  cases env with
  | some lib =>
    rw [resolveLibPath_keeps h]
    exact Option.some_ne_none lib
  | none =>
    rw [resolveLibPath] at h
    cases hLib : wheelLibPath interp with
    | error e =>
      rw [hLib] at h
      cases h
    | ok path =>
      rw [hLib] at h
      dsimp only at h
      cases hSet : setEnviron interp path with
      | error e =>
        rw [hSet] at h
        cases h
      | ok lib =>
        rw [hSet] at h
        cases h
        exact Option.some_ne_none lib

/-- A load leaves a set variable as it is. -/
theorem loadProgram_keeps (lib : EnvValue) :
    (Runtime.loadProgram interp host M source (some lib)).2 = some lib := by
  rw [Runtime.loadProgram]
  cases openSource M source with
  | error e => rfl
  | ok rt₀ =>
    dsimp only
    rw [Program.init, ensureOpenvinoLibPath]
    obtain ⟨_ | uses, rt'⟩ := usesOpenvino M rt₀
    · rfl
    · cases uses with
      | false => rfl
      | true =>
        dsimp only
        cases hLib : resolveLibPath interp host (some lib) with
        | error e => rfl
        | ok env' => exact resolveLibPath_keeps hLib

/-- What a successful load leaves: a program without lowered methods, or a variable that is set. -/
theorem loadProgram_settles (hReads : M.MetadataReads same)
    (h : Runtime.loadProgram interp host M source env = (.ok rt, env')) :
    ¬ HasLowered M rt.module ∨ env' ≠ none := by
  rw [Runtime.loadProgram] at h
  cases hOpen : openSource M source with
  | error e =>
    rw [hOpen] at h
    cases h
  | ok rt₀ =>
    rw [hOpen] at h
    dsimp only at h
    rw [Program.init, ensureOpenvinoLibPath] at h
    rcases hUses : usesOpenvino M rt₀ with ⟨_ | uses, rt'⟩
    · rw [hUses] at h
      cases h
    · obtain ⟨hAnswers, hPlain⟩ := usesOpenvino_answers hReads hUses
      rw [hUses] at h
      cases uses with
      | false =>
        cases h
        exact Or.inl (not_hasLowered_of_answers (hPlain rfl) hAnswers)
      | true =>
        dsimp only at h
        cases hLib : resolveLibPath interp host env with
        | error e =>
          rw [hLib] at h
          cases h
        | ok env₁ =>
          rw [hLib] at h
          cases h
          exact Or.inr (resolveLibPath_sets hLib)

/-- A `Method` object has the name of a method of the program. -/
theorem namesOf_loadMethod {name name' : PyStr} {rt' : RuntimeState σ}
    (h : Program.loadMethod M name rt = (.ok name', rt')) : NamesOf M rt.module [name'] := by
  cases hNames : (M.methodNames rt.module).1 with
  | error code =>
    rw [Program.loadMethod, methodNames_of_error hNames] at h
    cases h
  | ok names =>
    rw [Program.loadMethod, methodNames_of_ok hNames] at h
    cases hTexts : castStrings names with
    | error e =>
      rw [hTexts] at h
      cases h
    | ok texts =>
      rw [hTexts] at h
      dsimp only at h
      split at h <;> cases h
      rename_i hMem
      refine ⟨names, hNames, List.forall_mem_singleton.mpr ?_⟩
      exact decodes_of_castStrings hTexts name hMem

end Answers

/-! ## Sessions seen by one program -/

section Sees

variable {Rid σ : Type} [DecidableEq Rid] {M : Module σ} {interp : Interpreter} {host : Host}
  {same : σ → σ → Prop} {r r' : Rid} {s s' : Session Rid σ}

/-- Two sessions are alike for the program at `r`; the environment counts when a method is lowered,
and is set then. -/
structure Sees (M : Module σ) (r : Rid) (s s' : Session Rid σ) : Prop where
  methods : ∀ name, (r, name) ∈ s.methods ↔ (r, name) ∈ s'.methods
  runtime : ∃ rt, s.runtimes r = some rt ∧ s'.runtimes r = some rt ∧
    (¬ HasLowered M rt.module ∨ s.env ≠ none ∧ s'.env = s.env) ∧
    ∀ name, (r, name) ∈ s.methods → NamesOf M rt.module [name]

omit [DecidableEq Rid] in
theorem namesOf_newMethods {env : Env} {call : ObjectCall} {rt : RuntimeState σ} {name : PyStr}
    (h : (r', name) ∈ newMethods r (runtimeCall M host env call rt).1) :
    r' = r ∧ NamesOf M rt.module [name] := by
  cases call with
  | loadMethod wanted =>
    rw [runtimeCall] at h
    rcases hLoad : Program.loadMethod M wanted rt with ⟨_ | found, rt'⟩
    · rw [hLoad] at h
      cases h
    · rw [hLoad] at h
      obtain ⟨rfl, rfl⟩ := Prod.mk.inj (List.mem_singleton.mp h)
      exact ⟨rfl, namesOf_loadMethod hLoad⟩
  | methodNames =>
    rw [runtimeCall] at h
    rcases hNames : Bound.methodNames M rt with ⟨_ | names, rt'⟩ <;> rw [hNames] at h <;> cases h
  | metadata wanted =>
    rw [runtimeCall] at h
    cases hArg : encodeUtf8 wanted with
    | none =>
      rw [hArg] at h
      cases h
    | some arg =>
      rw [hArg] at h
      rcases hMeta : Bound.methodMeta M arg rt with ⟨_ | mm, rt'⟩ <;> simp [hMeta, newMethods, Except.map] at h
  | call wanted inputs =>
    rw [runtimeCall] at h
    cases hArg : encodeUtf8 wanted with
    | none =>
      rw [hArg] at h
      cases h
    | some arg =>
      rw [hArg] at h
      rcases hCall : Method.call M host env arg inputs rt with ⟨_ | values, rt'⟩ <;>
        simp [hCall, newMethods, Except.map] at h

theorem apiStep_on {rt : RuntimeState σ} (hRt : s.runtimes r = some rt) (call : ObjectCall) :
    apiStep M interp host (r, .on call) s =
      if call.method?.all fun name => (r, name) ∈ s.methods then
        (some (runtimeCall M host s.env call rt).1,
          ⟨s.env, Function.update s.runtimes r (some (runtimeCall M host s.env call rt).2),
            newMethods r (runtimeCall M host s.env call rt).1 ++ s.methods⟩)
      else (none, s) := by
  rw [apiStep, hRt]

theorem apiStep_own (hReads : M.MetadataReads same) (op : ApiOp) (h : Sees M r s s') :
    (apiStep M interp host (r, op) s).1 = (apiStep M interp host (r, op) s').1 ∧
      Sees M r (apiStep M interp host (r, op) s).2 (apiStep M interp host (r, op) s').2 := by
  obtain ⟨hMethods, rt, hRt, hRt', hEnv, hListed⟩ := h
  cases op with
  | loadProgram source =>
    rw [apiStep, apiStep, hRt, hRt']
    exact ⟨rfl, hMethods, rt, hRt, hRt', hEnv, hListed⟩
  | on call =>
    rw [apiStep_on hRt, apiStep_on hRt']
    simp only [hMethods]
    split
    · rename_i hAvailable
      have hSame : runtimeCall M host s'.env call rt = runtimeCall M host s.env call rt := by
        obtain hPlain | ⟨_, hEnv⟩ := hEnv
        · refine runtimeCall_plain hPlain (fun name hName => ?_) s.env
          rw [hName, Option.all_some, decide_eq_true_iff] at hAvailable
          exact hListed name ((hMethods name).mpr hAvailable)
        · rw [hEnv]
      have hAnswers : SameAnswers M (runtimeCall M host s.env call rt).2.module rt.module :=
        sameAnswers_runtimeCall hReads call ⟨rfl, fun _ => rfl⟩
      rw [hSame]
      refine ⟨rfl, fun name => ?_, _, Function.update_self .., Function.update_self .., ?_, ?_⟩
      · rw [List.mem_append, List.mem_append, hMethods]
      · obtain hPlain | hSet := hEnv
        · exact Or.inl (not_hasLowered_of_answers hPlain hAnswers)
        · exact Or.inr hSet
      · intro name hName
        obtain hNew | hOld := List.mem_append.mp hName
        · exact (namesOf_newMethods hNew).2.of_answers hAnswers
        · exact (hListed name hOld).of_answers hAnswers
    · exact ⟨rfl, hMethods, rt, hRt, hRt', hEnv, hListed⟩

theorem apiStep_other (hr : r ≠ r') (op : ApiOp) (h : Sees M r s s') :
    Sees M r (apiStep M interp host (r', op) s).2 s' := by
  obtain ⟨hMethods, rt, hRt, hRt', hEnv, hListed⟩ := h
  cases op with
  | loadProgram source =>
    rw [apiStep]
    cases s.runtimes r' with
    | some _ => exact ⟨hMethods, rt, hRt, hRt', hEnv, hListed⟩
    | none =>
      dsimp only
      have hKept : s.env ≠ none → (Runtime.loadProgram interp host M source s.env).2 = s.env := by
        intro hSet
        obtain ⟨lib, hLib⟩ := Option.ne_none_iff_exists'.mp hSet
        rw [hLib]
        exact loadProgram_keeps lib
      have hEnv' : ¬ HasLowered M rt.module ∨
          (Runtime.loadProgram interp host M source s.env).2 ≠ none ∧
            s'.env = (Runtime.loadProgram interp host M source s.env).2 := by
        obtain hPlain | ⟨hSet, hEnv⟩ := hEnv
        · exact Or.inl hPlain
        · rw [hKept hSet]
          exact Or.inr ⟨hSet, hEnv⟩
      rcases hLoad : Runtime.loadProgram interp host M source s.env with ⟨_ | loaded, env'⟩
      · rw [hLoad] at hEnv'
        exact ⟨hMethods, rt, hRt, hRt', hEnv', hListed⟩
      · rw [hLoad] at hEnv'
        refine ⟨hMethods, rt, ?_, hRt', hEnv', hListed⟩
        exact (Function.update_of_ne hr ..).trans hRt
  | on call =>
    cases hOther : s.runtimes r' with
    | none =>
      rw [apiStep, hOther]
      exact ⟨hMethods, rt, hRt, hRt', hEnv, hListed⟩
    | some rt' =>
      rw [apiStep_on hOther]
      split
      · have hNew : ∀ name, (r, name) ∉ newMethods r' (runtimeCall M host s.env call rt').1 :=
          fun name hName => hr (namesOf_newMethods hName).1
        refine ⟨fun name => ?_, rt, (Function.update_of_ne hr ..).trans hRt, hRt', hEnv, ?_⟩
        · rw [List.mem_append, or_iff_right (hNew name)]
          exact hMethods name
        · intro name hName
          exact hListed name ((List.mem_append.mp hName).resolve_left (hNew name))
      · exact ⟨hMethods, rt, hRt, hRt', hEnv, hListed⟩

/-- There are `Method` objects of loaded programs only. -/
theorem apiStep_bound (op : Rid × ApiOp) (s : Session Rid σ)
    (h : ∀ r name, (r, name) ∈ s.methods → s.runtimes r ≠ none) :
    ∀ r name, (r, name) ∈ (apiStep M interp host op s).2.methods →
      (apiStep M interp host op s).2.runtimes r ≠ none := by
  obtain ⟨r', op⟩ := op
  have hUpdate : ∀ {runtimes : Rid → Option (RuntimeState σ)} {r : Rid} (rt : RuntimeState σ),
      runtimes r ≠ none → Function.update runtimes r' (some rt) r ≠ none := by
    intro runtimes r rt hBound
    obtain rfl | hr := eq_or_ne r r'
    · rw [Function.update_self]
      exact Option.some_ne_none rt
    · rw [Function.update_of_ne hr]
      exact hBound
  cases op with
  | loadProgram source =>
    rw [apiStep]
    cases s.runtimes r' with
    | some _ => exact h
    | none =>
      dsimp only
      obtain ⟨_ | loaded, env'⟩ := Runtime.loadProgram interp host M source s.env
      · exact h
      · exact fun r name hName => hUpdate loaded (h r name hName)
  | on call =>
    cases hRt : s.runtimes r' with
    | none =>
      rw [apiStep, hRt]
      exact h
    | some rt =>
      rw [apiStep_on hRt]
      split
      · intro r name hName
        obtain hNew | hOld := List.mem_append.mp hName
        · obtain ⟨rfl, _⟩ := namesOf_newMethods hNew
          apply hUpdate _
          rw [hRt]
          exact Option.some_ne_none rt
        · exact hUpdate _ (h r name hOld)
      · exact h

end Sees

/-- From its load on, a program in a session answers as it would as the only program of a process
that starts with the environment of that load. -/
theorem programs_isolated {Rid σ : Type} [DecidableEq Rid] (M : Module σ) (same : σ → σ → Prop)
    (hReads : M.MetadataReads same) (interp : Interpreter) (host : Host) (env₀ : Env)
    (before after : List (Rid × ApiOp)) (r : Rid) (source : Source) (s : Session Rid σ)
    (hSession : s = runAll (apiStep M interp host) before (Session.start env₀))
    (hFresh : s.runtimes r = none)
    (hLoads : ∃ rt, (Runtime.loadProgram interp host M source s.env).1 = .ok rt) :
    answersTo (apiStep M interp host) (isOn r) ((r, .loadProgram source) :: after) s =
      answersTo (apiStep M interp host) (isOn r)
        (((r, .loadProgram source) :: after).filter (isOn r)) (Session.start s.env) := by
  have hBound : ∀ r name, (r, name) ∈ s.methods → s.runtimes r ≠ none := by
    rw [hSession]
    apply runAll_invariant apiStep_bound before
    intro r name hName
    cases hName
  obtain ⟨rt, hRt⟩ := hLoads
  obtain ⟨env', hLoad⟩ : ∃ env', Runtime.loadProgram interp host M source s.env = (.ok rt, env') :=
    ⟨_, Prod.ext hRt rfl⟩
  have hFull : apiStep M interp host (r, .loadProgram source) s =
      (some (.ok .program), ⟨env', Function.update s.runtimes r (some rt), s.methods⟩) := by
    rw [apiStep, hFresh]
    dsimp only
    rw [hLoad]
  have hAlone : apiStep M interp host (r, .loadProgram source) (Session.start s.env) =
      (some (.ok .program), ⟨env', Function.update (fun _ => none) r (some rt), []⟩) := by
    rw [apiStep, Session.start]
    dsimp only
    rw [hLoad]
  have hSees : Sees M r ⟨env', Function.update s.runtimes r (some rt), s.methods⟩
      ⟨env', Function.update (fun _ => none) r (some rt), []⟩ := by
    have hNone : ∀ name, (r, name) ∉ s.methods := fun name hName => hBound r name hName hFresh
    have hAt : Function.update (fun _ => none) r (some rt) r = some rt := Function.update_self ..
    refine ⟨fun name => iff_of_false (hNone name) List.not_mem_nil, rt, Function.update_self .., hAt, ?_,
      fun name hName => absurd hName (hNone name)⟩
    exact (loadProgram_settles hReads hLoad).imp_right fun hSet => ⟨hSet, rfl⟩
  have hMine : isOn r (r, .loadProgram source) = true := decide_eq_true rfl
  rw [List.filter_cons_of_pos hMine, answersTo, answersTo, if_pos hMine, if_pos hMine, hFull, hAlone]
  refine congrArg _ (answersTo_filter ?_ ?_ after hSees)
  · rintro ⟨r', op⟩ s s' hOp hAlike
    obtain rfl : r' = r := of_decide_eq_true hOp
    exact apiStep_own hReads op hAlike
  · rintro ⟨r', op⟩ s s' hOp hAlike
    exact apiStep_other (Ne.symm (of_decide_eq_false hOp)) op hAlike

theorem lowered_load : Runtime.loadProgram wheelInterpreter openvinoHost Executorch.sumModule (.bytes [1]) none =
    (.ok ⟨⟨true, 0⟩, false⟩, some wheelLib) := by
  have hUses : usesOpenvino Executorch.sumModule ⟨⟨true, 0⟩, false⟩ =
      (.ok true, ⟨⟨true, 0⟩, false⟩) := rfl
  have hLib : resolveLibPath wheelInterpreter openvinoHost none = .ok (some wheelLib) := by
    rw [resolveLibPath, wheelInterpreter_path]
    rfl
  have hInit : Program.init wheelInterpreter openvinoHost Executorch.sumModule ⟨⟨true, 0⟩, false⟩ none =
      (.ok (), ⟨⟨true, 0⟩, false⟩, some wheelLib) := by
    rw [Program.init, ensureOpenvinoLibPath, hUses]
    dsimp only
    rw [hLib]
  have hOpen : openSource Executorch.sumModule (.bytes [1]) = .ok ⟨⟨true, 0⟩, false⟩ := rfl
  rw [Runtime.loadProgram, hOpen]
  dsimp only
  rw [hInit]

/-- A lowered program that is loaded after another one has pinned the variable, and is called between
the calls of that one and the load of a third. -/
theorem pinned_program_isolated :
    let step := @apiStep Nat _ _ Executorch.sumModule wheelInterpreter openvinoHost
    let s := runAll step [(0, .loadProgram (.bytes [1]))] (Session.start none)
    let mine : List (Nat × ApiOp) := [(1, .on (.loadMethod (py "forward"))),
      (1, .on (.call (py "forward") [oneByte 5]))]
    s.env = some wheelLib ∧
    answersTo step (isOn 1) [(1, .loadProgram (.bytes [1])), (0, .on (.loadMethod (py "forward"))),
        (1, .on (.loadMethod (py "forward"))), (2, .loadProgram (.bytes [])),
        (0, .on (.call (py "forward") [oneByte 7])), (1, .on (.call (py "forward") [oneByte 5]))] s =
      answersTo step (isOn 1) ((1, .loadProgram (.bytes [1])) :: mine) (Session.start (some wheelLib)) := by
  intro step s mine
  have hPinned : s = ⟨some wheelLib, Function.update (fun _ => none) 0 (some ⟨⟨true, 0⟩, false⟩), []⟩ := by
    change (step (0, .loadProgram (.bytes [1])) (Session.start none)).2 = _
    simp only [step, apiStep, Session.start, lowered_load]
  have hEnv : s.env = some wheelLib := by rw [hPinned]
  refine ⟨hEnv, ?_⟩
  rw [← hEnv]
  apply programs_isolated Executorch.sumModule (· = ·) Executorch.sumModule_metadataReads
    wheelInterpreter openvinoHost none [(0, .loadProgram (.bytes [1]))]
    [(0, .on (.loadMethod (py "forward"))), (1, .on (.loadMethod (py "forward"))),
      (2, .loadProgram (.bytes [])), (0, .on (.call (py "forward") [oneByte 7])),
      (1, .on (.call (py "forward") [oneByte 5]))] 1 (.bytes [1]) s rfl
  · rw [hPinned]
    rfl
  · rw [hEnv]
    exact ⟨_, rfl⟩

end ExecutorchNumpy
