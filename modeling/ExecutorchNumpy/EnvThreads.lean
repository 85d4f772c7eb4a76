import ExecutorchNumpy.CoreThreads
import ExecutorchNumpy.OpenvinoAgreement
import ExecutorchNumpy.Library.Interleaving

/-! # The process environment across loads and calls

Threads load programs and call methods of any number of Runtimes. They share one
`OPENVINO_LIB_PATH`, which a load may set and every call with a lowered method
reads. The steps of a load are those of `ensure_openvino_lib_path`; the core is
entered through its own atomic steps.
-/

namespace ExecutorchNumpy
set_option autoImplicit false

open Executorch (Module)
open Interleaving

/-- Where a thread goes from its core call: it is done, or it goes on loading. -/
inductive After where
  | caller
  | names
  | asking (rest : List PyStr)

inductive Job (Rid : Type) where
  | idle
  | core (r : Rid) (call : Call) (pc : Pc) (after : After)
  | opening (source : Source)
  | ask (r : Rid) (names : List PyStr)
  | getEnviron (r : Rid)
  | isfile (r : Rid) (existing : EnvValue)
  | wheel (r : Rid)
  | setEnviron (r : Rid) (path : PyStr)
  | loaded (result : Except PyException Rid)

structure EnvProcess (Tid Rid σ : Type) where
  env : Env
  runtimes : Rid → Option (SharedRuntime Tid σ)

section Steps

variable {Tid Rid σ : Type}

def EnvProcess.put [DecidableEq Rid] (sh : EnvProcess Tid Rid σ) (r : Rid) (rt : SharedRuntime Tid σ) :
    EnvProcess Tid Rid σ :=
  { sh with runtimes := Function.update sh.runtimes r (some rt) }

@[simp] theorem EnvProcess.put_env [DecidableEq Rid] (sh : EnvProcess Tid Rid σ) (r : Rid)
    (rt : SharedRuntime Tid σ) : (sh.put r rt).env = sh.env := rfl

@[simp] theorem EnvProcess.put_self [DecidableEq Rid] (sh : EnvProcess Tid Rid σ) (r : Rid)
    (rt : SharedRuntime Tid σ) : (sh.put r rt).runtimes r = some rt := by
  simp [put]

@[simp] theorem EnvProcess.put_other [DecidableEq Rid] (sh : EnvProcess Tid Rid σ) {r r' : Rid}
    (h : r' ≠ r) (rt : SharedRuntime Tid σ) : (sh.put r rt).runtimes r' = sh.runtimes r' := by
  simp [put, h]

theorem EnvProcess.put_same [DecidableEq Rid] {sh : EnvProcess Tid Rid σ} {r : Rid}
    {rt : SharedRuntime Tid σ} (h : sh.runtimes r = some rt) : sh.put r rt = sh := by
  rw [put, ← h, Function.update_eq_self]

theorem EnvProcess.put_put [DecidableEq Rid] (sh : EnvProcess Tid Rid σ) (r : Rid)
    (rt rt' : SharedRuntime Tid σ) : (sh.put r rt).put r rt' = sh.put r rt' := by
  simp [put]

def afterCall (r : Rid) : After → Outcome → Job Rid
  | .names, .ok (.names names) =>
    match castStrings names with
    | .error e => .loaded (.error e)
    | .ok texts => .ask r texts
  | .names, .error e => .loaded (.error (translate e))
  | .asking _, .ok (.uses true) => .getEnviron r
  | .asking rest, .ok (.uses false) => .ask r rest
  | .asking _, .error e => .loaded (.error (translate e))
  | _, _ => .idle

variable (M : Module σ) (interp : Interpreter) (host : Host)

def loadStep : Job Rid → Env → Option (Job Rid × Env)
  | .core r _ (.finished outcome) after, env => some (afterCall r after outcome, env)
  | .ask r [], env => some (.loaded (.ok r), env)
  | .ask r (name :: rest), env =>
    match encodeUtf8 name with
    | none => some (.loaded (.error .castError), env)
    | some arg =>
      some (.core r (.methodUsesBackend arg backendArg) .lockMetadata (.asking rest), env)
  | .getEnviron r, some existing => some (.isfile r existing, some existing)
  | .getEnviron r, none => some (.wheel r, none)
  | .isfile r existing, env =>
    if osPathIsfile interp host (interp.fsdecode existing.val) then some (.loaded (.ok r), env)
    else some (.loaded (.error (libPathNotFile interp (interp.fsdecode existing.val))), env)
  | .wheel r, env =>
    match wheelLibPath interp with
    | .error e => some (.loaded (.error e), env)
    | .ok path => some (.setEnviron r path, env)
  | .setEnviron r path, env =>
    match setEnviron interp path with
    | .error e => some (.loaded (.error e), env)
    | .ok lib => some (.loaded (.ok r), some lib)
  | .loaded _, env => some (.idle, env)
  | _, _ => none

variable [DecidableEq Rid]

inductive JobStep : ThreadStep Tid (Job Rid) (EnvProcess Tid Rid σ)
  | call {t r rt sh} (call : Call) : sh.runtimes r = some rt →
    JobStep t .idle sh (.core r call .lockMetadata .caller) sh
  | load {t sh} (source : Source) : JobStep t .idle sh (.opening source) sh
  | openFailed {t source e sh} : openSource M source = .error e →
    JobStep t (.opening source) sh (.loaded (.error e)) sh
  | opened {t source r s sh} : openSource M source = .ok s → sh.runtimes r = none →
    JobStep t (.opening source) sh (.core r .methodNames .lockMetadata .names)
      (sh.put r ⟨none, s.module⟩)
  | core {t r call pc after pc' rt rt' sh} : sh.runtimes r = some rt →
    coreStep M host sh.env t call rt pc = some (pc', rt') →
    JobStep t (.core r call pc after) sh (.core r call pc' after) (sh.put r rt')
  | python {t job job' env' sh} : loadStep interp host job sh.env = some (job', env') →
    JobStep t job sh job' { sh with env := env' }

def envStart (env : Env) : State Tid (Job Rid) (EnvProcess Tid Rid σ) where
  shared := ⟨env, fun _ => none⟩
  threads _ := .idle

end Steps

/-! ## What a thread knows about the program and the variable -/

section Knowledge

variable {Tid σ : Type} (M : Module σ) (host : Host)

def HasLowered (m : σ) : Prop :=
  ∃ names, (M.methodNames m).1 = .ok names ∧
    ∃ n ∈ names, usesOutcome n openvinoBackend (M.methodMeta n m).1 = .ok true

def NamesOf (m : σ) (texts : List PyStr) : Prop :=
  ∃ names, (M.methodNames m).1 = .ok names ∧ ∀ text ∈ texts, ∃ n ∈ names, decodeUtf8 n = some text

/-- The guard, once passed for a lowered method, has seen a usable set-up. -/
def PcKnows (env : Env) (m : σ) (call : Call) : Pc → Prop
  | .unlockMetadata outcome => outcome = (readMetadata M call m).1
  | .finished outcome => ¬ call.IsRun → outcome = (readMetadata M call m).1
  | .registration => call.IsRun
  | .getenv => call.IsRun ∧ requireBackend host = .ok ()
  | .stat lib => call.IsRun ∧ requireBackend host = .ok () ∧ requireLibPath env = .ok lib
  | .convert | .lockExecute _ | .execute _ => call.IsRun ∧
    (usesOutcome call.name openvinoBackend (M.methodMeta call.name m).1 = .ok true →
      checkOpenvino host env = .ok ())
  | .copyOut _ _ | .unlockExecute _ => call.IsRun
  | _ => True

def AfterKnows (m : σ) (call : Call) : After → Prop
  | .caller => True
  | .names => call = .methodNames
  | .asking rest => NamesOf M m rest ∧ ∃ names n, (M.methodNames m).1 = .ok names ∧ n ∈ names ∧
      call = .methodUsesBackend n openvinoBackend

variable {M host} {env env' : Env} {m m' : σ} {call : Call} {pc pc' : Pc} {t : Tid}
  {sh sh' : SharedRuntime Tid σ}

theorem HasLowered.of_answers (h : HasLowered M m) (hAnswers : SameAnswers M m' m) :
    HasLowered M m' := by
  obtain ⟨names, hNames, n, hn, hUses⟩ := h
  exact ⟨names, by rw [hAnswers.names, hNames], n, hn, by rw [hAnswers.metadata, hUses]⟩

theorem NamesOf.of_answers {texts : List PyStr} (h : NamesOf M m texts)
    (hAnswers : SameAnswers M m' m) : NamesOf M m' texts := by
  obtain ⟨names, hNames, hEach⟩ := h
  exact ⟨names, by rw [hAnswers.names, hNames], hEach⟩

theorem AfterKnows.of_answers {after : After} (h : AfterKnows M m call after)
    (hAnswers : SameAnswers M m' m) : AfterKnows M m' call after := by
  cases after with
  | caller => trivial
  | names => exact h
  | asking rest =>
    obtain ⟨hRest, names, n, hNames, hn, hCall⟩ := h
    exact ⟨hRest.of_answers hAnswers, names, n, by rw [hAnswers.names, hNames], hn, hCall⟩

theorem requireLibPath_mono {lib : EnvValue} (h : requireLibPath env = .ok lib)
    (hEnv : ∀ lib, env = some lib → env' = some lib) : requireLibPath env' = .ok lib := by
  cases env with
  | none => cases h
  | some set => rwa [hEnv set rfl]

theorem checkOpenvino_mono (h : checkOpenvino host env = .ok ())
    (hEnv : ∀ lib, env = some lib → env' = some lib) : checkOpenvino host env' = .ok () := by
  rw [checkOpenvino_eq_ok_iff] at h ⊢
  obtain ⟨hBackend, lib, hLib, hRest⟩ := h
  exact ⟨hBackend, lib, hEnv lib hLib, hRest⟩

/-- What a thread knows stays true when others read metadata, execute, or set the variable. -/
theorem PcKnows.mono (h : PcKnows M host env m call pc)
    (hEnv : ∀ lib, env = some lib → env' = some lib) (hAnswers : SameAnswers M m' m) :
    PcKnows M host env' m' call pc := by
  cases pc with
  | unlockMetadata outcome => exact Eq.trans h (hAnswers.readMetadata call).symm
  | finished outcome => exact fun hRun => (h hRun).trans (hAnswers.readMetadata call).symm
  | stat lib => exact ⟨h.1, h.2.1, requireLibPath_mono h.2.2 hEnv⟩
  | convert =>
    exact ⟨h.1, fun hUses => checkOpenvino_mono (h.2 (by rwa [hAnswers.metadata] at hUses)) hEnv⟩
  | lockExecute tensors =>
    exact ⟨h.1, fun hUses => checkOpenvino_mono (h.2 (by rwa [hAnswers.metadata] at hUses)) hEnv⟩
  | execute tensors =>
    exact ⟨h.1, fun hUses => checkOpenvino_mono (h.2 (by rwa [hAnswers.metadata] at hUses)) hEnv⟩
  | _ => exact h

theorem pcKnows_afterMetadata (call : Call) (m : σ) :
    PcKnows M host env m call (afterMetadata call (readMetadata M call m).1) := by
  cases call with
  | runMethod name inputs =>
    simp only [readMetadata, Prod.map]
    cases hUses : usesOutcome name openvinoBackend (M.methodMeta name m).1 with
    | error e => exact fun hRun => absurd ⟨name, inputs, rfl⟩ hRun
    | ok uses =>
      cases uses with
      | true => exact ⟨name, inputs, rfl⟩
      | false =>
        refine ⟨⟨name, inputs, rfl⟩, fun hTrue => ?_⟩
        rw [Call.name, hUses] at hTrue
        cases hTrue
  | methodNames => exact fun _ => rfl
  | methodMeta name => exact fun _ => rfl
  | methodUsesBackend name backend => exact fun _ => rfl

theorem coreStep_knows {same : σ → σ → Prop} (hReads : M.MetadataReads same)
    (hKnows : PcKnows M host env sh.module call pc)
    (h : coreStep M host env t call sh pc = some (pc', sh')) :
    PcKnows M host env sh'.module call pc' := by
  cases coreStep_cases h with
  | lockMetadata hFree => trivial
  | readMetadata =>
    have hSame := sameAnswers_of_same hReads (same_readMetadata hReads call sh.module)
      ⟨rfl, fun _ => rfl⟩
    exact (hSame.readMetadata call).symm
  | unlockMetadata outcome =>
    rw [show outcome = _ from hKnows]
    exact pcKnows_afterMetadata call sh.module
  | unregistered hBackend => exact fun hRun => absurd hKnows hRun
  | registered hBackend => exact ⟨hKnows, hBackend⟩
  | noLibPath hLib => exact fun hRun => absurd hKnows.1 hRun
  | libPath hLib => exact ⟨hKnows.1, hKnows.2, hLib⟩
  | irregular hRegular => exact fun hRun => absurd hKnows.1 hRun
  | regular hRegular =>
    obtain ⟨hRun, hBackend, hLib⟩ := hKnows
    exact ⟨hRun, fun _ => checkOpenvino_ok hBackend hLib hRegular⟩
  | convert => exact hKnows
  | lockExecute tensors hFree => exact hKnows
  | executeFailed hExecute => exact hKnows.1
  | executed hExecute => exact hKnows.1
  | copied fs => exact hKnows
  | copyFailed hView => exact hKnows
  | copy hView => exact hKnows
  | unlockExecute outcome => exact fun hRun => absurd hKnows hRun

end Knowledge

/-! ## The invariant of loads and calls -/

section Invariant

variable {Tid Rid σ : Type} (M : Module σ) (interp : Interpreter) (host : Host)

def EnvOk (env₀ env : Env) : Prop :=
  match env₀ with
  | some lib => env = some lib
  | none => env = none ∨ ∃ path lib, wheelLibPath interp = .ok path ∧
      setEnviron interp path = .ok lib ∧ env = some lib

def OnRuntime (sh : EnvProcess Tid Rid σ) (r : Rid) (P : σ → Prop) : Prop :=
  ∃ rt, sh.runtimes r = some rt ∧ P rt.module

def JobKnows (env₀ : Env) (sh : EnvProcess Tid Rid σ) : Job Rid → Prop
  | .core r call pc after => OnRuntime sh r fun m =>
      PcKnows M host sh.env m call pc ∧ AfterKnows M m call after
  | .ask r names => OnRuntime sh r fun m => NamesOf M m names
  | .getEnviron r => OnRuntime sh r (HasLowered M)
  | .wheel r => env₀ = none ∧ OnRuntime sh r (HasLowered M)
  | .setEnviron r path => env₀ = none ∧ wheelLibPath interp = .ok path ∧
      OnRuntime sh r (HasLowered M)
  | _ => True

structure JobInv (env₀ : Env) (job : Job Rid) (sh : EnvProcess Tid Rid σ) : Prop where
  env : EnvOk interp env₀ sh.env
  knows : JobKnows M interp host env₀ sh job

structure Extends (sh sh' : EnvProcess Tid Rid σ) : Prop where
  env : ∀ lib, sh.env = some lib → sh'.env = some lib
  runtimes : ∀ r rt, sh.runtimes r = some rt →
    ∃ rt', sh'.runtimes r = some rt' ∧ SameAnswers M rt'.module rt.module

variable {M interp host} {env₀ : Env} {job job' other : Job Rid} {sh sh' : EnvProcess Tid Rid σ}
  {t : Tid}

theorem OnRuntime.mono {r : Rid} {P Q : σ → Prop} (h : OnRuntime sh r P) (hExtends : Extends M sh sh')
    (hKeeps : ∀ {m m'}, P m → SameAnswers M m' m → Q m') : OnRuntime sh' r Q := by
  obtain ⟨rt, hRt, hP⟩ := h
  obtain ⟨rt', hRt', hAnswers⟩ := hExtends.runtimes r rt hRt
  exact ⟨rt', hRt', hKeeps hP hAnswers⟩

theorem JobKnows.mono (h : JobKnows M interp host env₀ sh job) (hExtends : Extends M sh sh') :
    JobKnows M interp host env₀ sh' job := by
  cases job with
  | core r call pc after =>
    rw [JobKnows] at h ⊢
    exact h.mono hExtends fun hm hAnswers =>
      ⟨hm.1.mono hExtends.env hAnswers, hm.2.of_answers hAnswers⟩
  | ask r names =>
    rw [JobKnows] at h ⊢
    exact h.mono hExtends NamesOf.of_answers
  | getEnviron r =>
    rw [JobKnows] at h ⊢
    exact h.mono hExtends HasLowered.of_answers
  | wheel r => exact ⟨h.1, h.2.mono hExtends HasLowered.of_answers⟩
  | setEnviron r path => exact ⟨h.1, h.2.1, h.2.2.mono hExtends HasLowered.of_answers⟩
  | _ => trivial

theorem sameAnswers_refl (m : σ) : SameAnswers M m m := ⟨rfl, fun _ => rfl⟩

/-- A step of a load leaves the variable alone, or is the last one of a load that returns. -/
theorem loadStep_env {env env' : Env} (h : loadStep interp host job env = some (job', env')) :
    env' = env ∨ ∃ r path lib, job = .setEnviron r path ∧ setEnviron interp path = .ok lib ∧
      job' = .loaded (.ok r) ∧ env' = some lib := by
  cases job with
  | idle => cases h
  | core r call pc after =>
    cases pc <;> cases h
    exact Or.inl rfl
  | opening source => cases h
  | ask r names =>
    cases names with
    | nil =>
      cases h
      exact Or.inl rfl
    | cons name rest =>
      rw [loadStep] at h
      split at h <;> cases h <;> exact Or.inl rfl
  | getEnviron r =>
    cases env <;> cases h <;> exact Or.inl rfl
  | isfile r existing =>
    rw [loadStep] at h
    split at h <;> cases h <;> exact Or.inl rfl
  | wheel r =>
    rw [loadStep] at h
    split at h <;> cases h <;> exact Or.inl rfl
  | setEnviron r path =>
    rw [loadStep] at h
    split at h <;> cases h
    · exact Or.inl rfl
    · rename_i lib hLib
      exact Or.inr ⟨r, path, lib, rfl, hLib, rfl, rfl⟩
  | loaded result =>
    cases h
    exact Or.inl rfl

/-- A load that is about to set the variable finds it unset, or set to the same value already. -/
theorem env_of_setEnviron {r : Rid} {path : PyStr} {lib set : EnvValue}
    (hInv : JobInv M interp host env₀ (.setEnviron r path) sh)
    (hLib : setEnviron interp path = .ok lib) (hEnv : sh.env = some set) : set = lib := by
  obtain ⟨rfl, hPath, _⟩ := hInv.knows
  rcases hInv.env with hUnset | ⟨path', lib', hPath', hLib', hSet⟩
  · rw [hUnset] at hEnv
    cases hEnv
  · rw [hPath] at hPath'
    cases hPath'
    rw [hLib] at hLib'
    cases hLib'
    rw [hEnv] at hSet
    exact Option.some.inj hSet

theorem afterCall_knows {r : Rid} {call : Call} {after : After} {outcome : Outcome}
    (hOn : OnRuntime sh r fun m => (¬ call.IsRun → outcome = (readMetadata M call m).1) ∧
      AfterKnows M m call after) : JobKnows M interp host env₀ sh (afterCall r after outcome) := by
  obtain ⟨rt, hRt, hOutcome, hAfter⟩ := hOn
  cases after with
  | caller => trivial
  | names =>
    obtain rfl : call = .methodNames := hAfter
    rw [hOutcome (by rintro ⟨_, _, hCall⟩; cases hCall), readMetadata]
    cases hNames : (M.methodNames rt.module).1 with
    | error e =>
      simp only [Prod.map, hNames]
      trivial
    | ok names =>
      simp only [Prod.map, hNames]
      change JobKnows M interp host env₀ sh (match castStrings names with
        | .error e => .loaded (.error e)
        | .ok texts => .ask r texts)
      cases hTexts : castStrings names with
      | error e => trivial
      | ok texts => exact ⟨rt, hRt, names, hNames, decodes_of_castStrings hTexts⟩
  | asking rest =>
    obtain ⟨hRest, names, n, hNames, hn, rfl⟩ := hAfter
    rw [hOutcome (by rintro ⟨_, _, hCall⟩; cases hCall), readMetadata]
    cases hUses : usesOutcome n openvinoBackend (M.methodMeta n rt.module).1 with
    | error e =>
      simp only [Prod.map, hUses]
      trivial
    | ok uses =>
      simp only [Prod.map, hUses]
      cases uses with
      | true => exact ⟨rt, hRt, names, hNames, n, hn, hUses⟩
      | false => exact ⟨rt, hRt, hRest⟩

theorem loadStep_knows {env' : Env} (hInv : JobInv M interp host env₀ job sh)
    (h : loadStep interp host job sh.env = some (job', env')) :
    JobKnows M interp host env₀ sh job' := by
  obtain ⟨hEnv, hKnows⟩ := hInv
  cases job with
  | idle => cases h
  | opening source => cases h
  | core r call pc after =>
    cases pc with
    | finished outcome =>
      cases h
      exact afterCall_knows hKnows
    | _ => cases h
  | ask r names =>
    cases names with
    | nil =>
      cases h
      trivial
    | cons name rest =>
      obtain ⟨rt, hRt, names, hNames, hEach⟩ := hKnows
      rw [loadStep] at h
      split at h <;> cases h
      · trivial
      · rename_i arg hArg
        obtain ⟨n, hn, hText⟩ := hEach name List.mem_cons_self
        obtain ⟨arg', hArg', rfl⟩ := encodeUtf8_of_decodes hText
        rw [hArg] at hArg'
        cases hArg'
        exact ⟨rt, hRt, trivial, ⟨names, hNames, fun text hText => hEach text (.tail name hText)⟩,
          names, arg.val, hNames, hn, rfl⟩
  | getEnviron r =>
    cases hSet : sh.env with
    | some existing =>
      rw [hSet] at h
      cases h
      trivial
    | none =>
      rw [hSet] at h hEnv
      cases h
      refine ⟨?_, hKnows⟩
      cases env₀ with
      | none => rfl
      | some lib => cases hEnv
  | isfile r existing =>
    rw [loadStep] at h
    split at h <;> cases h <;> trivial
  | wheel r =>
    rw [loadStep] at h
    split at h <;> cases h
    · trivial
    · rename_i path hPath
      exact ⟨hKnows.1, hPath, hKnows.2⟩
  | setEnviron r path =>
    rw [loadStep] at h
    split at h <;> cases h <;> trivial
  | loaded result =>
    cases h
    trivial

variable [DecidableEq Rid] {same : σ → σ → Prop}

theorem jobStep_extends (hReads : M.MetadataReads same) (hInv : JobInv M interp host env₀ job sh)
    (h : JobStep M interp host t job sh job' sh') : Extends M sh sh' := by
  cases h with
  | call call hRt => exact ⟨fun _ h => h, fun _ rt hRt => ⟨rt, hRt, sameAnswers_refl _⟩⟩
  | load source => exact ⟨fun _ h => h, fun _ rt hRt => ⟨rt, hRt, sameAnswers_refl _⟩⟩
  | openFailed hOpen => exact ⟨fun _ h => h, fun _ rt hRt => ⟨rt, hRt, sameAnswers_refl _⟩⟩
  | @opened _ source r s _ hOpen hFresh =>
    refine ⟨fun _ h => h, fun r' rt hRt => ⟨rt, ?_, sameAnswers_refl _⟩⟩
    have hr : r' ≠ r := by
      rintro rfl
      rw [hFresh] at hRt
      cases hRt
    rw [EnvProcess.put_other sh hr, hRt]
  | @core _ r call pc after pc' rt rt' _ hRt hStep =>
    refine ⟨fun _ h => h, fun r' rt₁ hRt₁ => ?_⟩
    by_cases hr : r' = r
    · subst hr
      rw [hRt] at hRt₁
      cases hRt₁
      exact ⟨rt', sh.put_self r' rt', coreStep_answers hReads (sameAnswers_refl _) hStep⟩
    · exact ⟨rt₁, by rw [EnvProcess.put_other sh hr, hRt₁], sameAnswers_refl _⟩
  | python hStep =>
    refine ⟨fun set hEnv => ?_, fun _ rt hRt => ⟨rt, hRt, sameAnswers_refl _⟩⟩
    rcases loadStep_env hStep with rfl | ⟨r, path, lib, rfl, hLib, _, rfl⟩
    · exact hEnv
    · rw [env_of_setEnviron hInv hLib hEnv]

theorem jobStep_env (hInv : JobInv M interp host env₀ job sh)
    (h : JobStep M interp host t job sh job' sh') : EnvOk interp env₀ sh'.env := by
  cases h with
  | python hStep =>
    rcases loadStep_env hStep with rfl | ⟨r, path, lib, rfl, hLib, _, rfl⟩
    · exact hInv.env
    · obtain ⟨rfl, hPath, _⟩ := hInv.knows
      exact Or.inr ⟨path, lib, hPath, hLib, rfl⟩
  | _ => exact hInv.env

theorem jobStep_knows (hReads : M.MetadataReads same) (hInv : JobInv M interp host env₀ job sh)
    (h : JobStep M interp host t job sh job' sh') : JobKnows M interp host env₀ sh' job' := by
  have hExtends := jobStep_extends hReads hInv h
  cases h with
  | call call hRt => exact ⟨_, hRt, trivial, trivial⟩
  | load source => trivial
  | openFailed hOpen => trivial
  | opened hOpen hFresh => exact ⟨_, sh.put_self _ _, trivial, rfl⟩
  | core hRt hStep =>
    obtain ⟨rt, hRt', hKnows, hAfter⟩ := hInv.knows
    rw [hRt] at hRt'
    cases hRt'
    exact ⟨_, sh.put_self _ _, coreStep_knows hReads hKnows hStep,
      hAfter.of_answers (coreStep_answers hReads (sameAnswers_refl _) hStep)⟩
  | python hStep => exact (loadStep_knows hInv hStep).mono hExtends

end Invariant

/-! ## The discipline -/

section Discipline

variable {Tid Rid σ : Type} [DecidableEq Tid] [DecidableEq Rid] {M : Module σ} {interp : Interpreter}
  {host : Host} {same : σ → σ → Prop} {env₀ : Env} {s s' : State Tid (Job Rid) (EnvProcess Tid Rid σ)}

theorem jobInv_reachable (hReads : M.MetadataReads same)
    (h : Reachable (JobStep M interp host) (envStart env₀) s) (t : Tid) :
    JobInv M interp host env₀ (s.threads t) s.shared := by
  apply h.modular fun _ => JobInv M interp host env₀
  · intro t
    refine ⟨?_, trivial⟩
    cases env₀ with
    | none => exact Or.inl rfl
    | some lib => rfl
  · exact fun hl hStep => ⟨jobStep_env hl hStep, jobStep_knows hReads hl hStep⟩
  · exact fun _ hl hm hStep => ⟨jobStep_env hl hStep, hm.knows.mono (jobStep_extends hReads hl hStep)⟩

theorem env_kept (hReads : M.MetadataReads same)
    (h : Reachable (JobStep M interp host) (envStart env₀) s)
    (hRun : Reachable (JobStep M interp host) s s') {lib : EnvValue} (hSet : s.shared.env = some lib) :
    s'.shared.env = some lib := by
  induction hRun with
  | refl => exact hSet
  | tail hBefore hLast ih =>
    have hInv := jobInv_reachable hReads (h.trans hBefore)
    obtain ⟨t, hStep⟩ := hLast
    exact (jobStep_extends hReads (hInv t) hStep).env lib ih

/-- The variable is set once at most, by the step with which a load of a lowered program returns, and
a lowered method is executed under a usable set-up only. -/
structure EnvDiscipline (M : Module σ) (interp : Interpreter) (host : Host)
    (s : State Tid (Job Rid) (EnvProcess Tid Rid σ)) : Prop where
  set_once : ∀ s', Reachable (JobStep M interp host) s s' →
    ∀ lib, s.shared.env = some lib → s'.shared.env = some lib
  set_by_load : ∀ t job' sh', JobStep M interp host t (s.threads t) s.shared job' sh' →
    sh'.env ≠ s.shared.env → ∃ r rt, job' = .loaded (.ok r) ∧ s.shared.runtimes r = some rt ∧
      HasLowered M rt.module
  usable_at_execute : host.win32 = false → ∀ t r call tensors after rt mm,
    s.threads t = .core r call (.execute tensors) after → s.shared.runtimes r = some rt →
    (M.methodMeta call.name rt.module).1 = .ok mm → mm.usesBackend openvinoBackend = true →
    backendAvailable host openvinoBackend = true ∧
      ∃ lib, s.shared.env = some lib ∧ lib.val ≠ [] ∧ host.isRegular lib.val = true

theorem env_discipline (M : Module σ) (same : σ → σ → Prop) (hReads : M.MetadataReads same)
    (interp : Interpreter) (host : Host) (env₀ : Env)
    (s : State Tid (Job Rid) (EnvProcess Tid Rid σ))
    (h : Reachable (JobStep M interp host) (envStart env₀) s) : EnvDiscipline M interp host s := by
  have hInv := jobInv_reachable hReads h
  constructor
  case set_once => exact fun s' hRun lib hSet => env_kept hReads h hRun hSet
  case set_by_load =>
    intro t job' sh' hStep hChanged
    have hKnows := (hInv t).knows
    generalize s.threads t = job at hStep hKnows
    cases hStep with
    | python hLoad =>
      rcases loadStep_env hLoad with rfl | ⟨r, path, lib, rfl, _, rfl, rfl⟩
      · exact absurd rfl hChanged
      · obtain ⟨_, _, rt, hRt, hLowered⟩ := hKnows
        exact ⟨r, rt, rfl, hRt, hLowered⟩
    | _ => exact absurd rfl hChanged
  case usable_at_execute =>
    intro hPosix t r call tensors after rt mm hJob hRt hMeta hUses
    have hKnows := (hInv t).knows
    rw [hJob] at hKnows
    obtain ⟨rt', hRt', ⟨_, hGuard⟩, _⟩ := hKnows
    rw [hRt] at hRt'
    cases hRt'
    have hName : Utf8Text.cString openvinoBackend = openvinoBackend := by decide
    have hPassed := hGuard (by rw [hMeta, usesOutcome, checked, hName, hUses])
    obtain ⟨hBackend, lib, hEnv, hRegular⟩ := (checkOpenvino_posix hPosix _).mp hPassed
    exact ⟨hBackend, lib, hEnv, Host.ne_nil_of_isRegular hRegular, hRegular⟩

end Discipline

/-! ## Two loads turn by turn -/

inductive JobTurn (Rid : Type) where
  | call (r : Rid) (call : Call)
  | load (source : Source)
  | enter (r : Rid)
  | core
  | python

section Turns

variable {Tid Rid σ : Type} [DecidableEq Rid] (M : Module σ) (interp : Interpreter) (host : Host)

/-- What a thread does at a turn of the given kind; a load that opens its source enters as `r`. -/
def Job.next (move : JobTurn Rid) (t : Tid) (job : Job Rid) (sh : EnvProcess Tid Rid σ) :
    Option (Job Rid × EnvProcess Tid Rid σ) :=
  match move, job with
  | .call r call, .idle =>
    match sh.runtimes r with
    | none => none
    | some _ => some (.core r call .lockMetadata .caller, sh)
  | .load source, .idle => some (.opening source, sh)
  | .enter r, .opening source =>
    match openSource M source, sh.runtimes r with
    | .error e, _ => some (.loaded (.error e), sh)
    | .ok s, none => some (.core r .methodNames .lockMetadata .names, sh.put r ⟨none, s.module⟩)
    | .ok _, some _ => none
  | .core, .core r call pc after =>
    match sh.runtimes r with
    | none => none
    | some rt =>
      (coreStep M host sh.env t call rt pc).map fun moved =>
        (.core r call moved.1 after, sh.put r moved.2)
  | .python, job =>
    (loadStep interp host job sh.env).map fun moved => (moved.1, { sh with env := moved.2 })
  | _, _ => none

variable {M interp host} {move : JobTurn Rid} {t : Tid} {job job' : Job Rid}
  {sh sh' : EnvProcess Tid Rid σ}

theorem Job.next_step (h : Job.next M interp host move t job sh = some (job', sh')) :
    JobStep M interp host t job sh job' sh' := by
  unfold Job.next at h
  split at h
  · split at h <;> cases h
    rename_i hRt
    exact .call _ hRt
  · cases h
    exact .load _
  · split at h <;> cases h
    · rename_i hOpen
      exact .openFailed hOpen
    · rename_i hOpen hFresh
      exact .opened hOpen hFresh
  · split at h
    · cases h
    · rename_i hRt
      obtain ⟨⟨pc', rt'⟩, hStep, hMoved⟩ := Option.map_eq_some_iff.mp h
      cases hMoved
      exact .core hRt hStep
  · obtain ⟨⟨moved, env'⟩, hStep, hMoved⟩ := Option.map_eq_some_iff.mp h
    cases hMoved
    exact .python hStep
  · cases h

def jobNext (M : Module σ) (interp : Interpreter) (host : Host) (turn : Tid × JobTurn Rid) :
    Job Rid → EnvProcess Tid Rid σ → Option (Job Rid × EnvProcess Tid Rid σ) :=
  Job.next M interp host turn.2 turn.1

/-- The turn at which the package is searched. -/
theorem wheel_turn [DecidableEq Tid] {s : State Tid (Job Rid) (EnvProcess Tid Rid σ)} {r : Rid}
    {path : PyStr} (hJob : s.threads t = .wheel r) (hPath : wheelLibPath interp = .ok path) :
    runSchedule Prod.fst (jobNext M interp host) [(t, .python)] s =
      some (s.set t (.setEnviron r path) s.shared) := by
  simp only [runSchedule, jobNext, hJob, Job.next, loadStep, hPath, Option.map_some]

end Turns

/-- The interpreter with the package, which has one library. -/
def wheelInterpreter : Interpreter :=
  { bareInterpreter with
    findSpec := some (some [py "/site/openvino"])
    glob := fun _ => [py "/site/openvino/libs/libopenvino_c.so"] }

theorem wheelInterpreter_path :
    wheelLibPath wheelInterpreter = .ok (py "/site/openvino/libs/libopenvino_c.so") := by
  simp [wheelLibPath, libraryMatches, sorted, wheelInterpreter]

def wheelLib : EnvValue := ⟨cxx "/site/openvino/libs/libopenvino_c.so", by decide⟩

def openvinoHost : Host := ⟨false, [openvinoBackend], fun _ => some .regular⟩

/-- A load of a lowered program, up to the search for the package. -/
def loadTurns (t : Bool) (r : Nat) : List (Bool × JobTurn Nat) :=
  ([.load (.bytes [1]), .enter r, .core, .core, .core, .python, .python, .core, .core, .core, .python,
    .python] : List (JobTurn Nat)).map fun move => (t, move)

/-- The first load sets the variable and returns, and its program is called. -/
def callTurns : List (Bool × JobTurn Nat) :=
  ([.python, .python, .call 0 (.runMethod (cxx "forward") []), .core, .core, .core, .core, .core, .core,
    .core, .core] : List (JobTurn Nat)).map fun move => (true, move)

/-- Two loads have both found the variable unset. One has set it, and the lowered method of its
program is about to be executed; the other one is about to set it again. -/
theorem racing_loads_disciplined :
    ∃ (s : State Bool (Job Nat) (EnvProcess Bool Nat Executorch.Summing))
      (tensors : List Executorch.TensorPtr) (rt : SharedRuntime Bool Executorch.Summing),
      Reachable (JobStep Executorch.sumModule wheelInterpreter openvinoHost) (envStart none) s ∧
      s.shared.env = some wheelLib ∧
      s.threads true = .core 0 (.runMethod (cxx "forward") []) (.execute tensors) .caller ∧
      s.shared.runtimes 0 = some rt ∧ rt.module.lowered = true ∧
      s.threads false = .setEnviron 1 (py "/site/openvino/libs/libopenvino_c.so") ∧
      EnvDiscipline Executorch.sumModule wheelInterpreter openvinoHost s := by
  obtain ⟨s, hRun, tensors, rt, hEnv, hCall, hRt, hLowered, hLoad⟩ :
      ∃ s : State Bool (Job Nat) (EnvProcess Bool Nat Executorch.Summing),
        runSchedule Prod.fst (jobNext Executorch.sumModule wheelInterpreter openvinoHost)
          (loadTurns true 0 ++ (loadTurns false 1 ++
            ([(true, .python)] ++ ([(false, .python)] ++ callTurns)))) (envStart none) = some s ∧
        ∃ tensors rt, s.shared.env = some wheelLib ∧
          s.threads true = .core 0 (.runMethod (cxx "forward") []) (.execute tensors) .caller ∧
          s.shared.runtimes 0 = some rt ∧ rt.module.lowered = true ∧
          s.threads false = .setEnviron 1 (py "/site/openvino/libs/libopenvino_c.so") := by
    refine ⟨_, runSchedule_append rfl (runSchedule_append rfl (runSchedule_append
      (wheel_turn rfl wheelInterpreter_path) (runSchedule_append
        (wheel_turn rfl wheelInterpreter_path) rfl))), _, _, rfl, rfl, rfl, rfl, rfl⟩
  have hReachable : Reachable (JobStep Executorch.sumModule wheelInterpreter openvinoHost)
      (envStart none) s := Reachable.of_schedule Job.next_step hRun
  exact ⟨s, tensors, rt, hReachable, hEnv, hCall, hRt, hLowered, hLoad,
    env_discipline Executorch.sumModule (· = ·) Executorch.sumModule_metadataReads wheelInterpreter
      openvinoHost none s hReachable⟩

end ExecutorchNumpy
