import ExecutorchNumpy.EtCore

/-! # Calls of the core as threads see them

The calls of one `Runtime`, cut into the atomic steps at which threads can
interleave. The metadata reads and the guard of `run_method` share the first
critical section; `run_method` goes on to a second one that covers execution and
copy-out. A throw inside a section is the unlock step with an error outcome.
-/

namespace ExecutorchNumpy
set_option autoImplicit false

open Executorch (EValue Module TensorPtr)

inductive Call where
  | methodNames
  | methodMeta (name : ByteString)
  | methodUsesBackend (name backend : ByteString)
  | runMethod (name : ByteString) (inputs : List InputDesc)
  deriving DecidableEq, Repr

inductive Answer where
  | names (names : List ByteString)
  | metadata (mm : MethodMeta)
  | uses (uses : Bool)
  | forward (fs : ForwardState)
  deriving DecidableEq, Repr

abbrev Outcome := Except EtError Answer

def Call.name : Call → ByteString
  | .methodNames => []
  | .methodMeta name => name
  | .methodUsesBackend name _ => name
  | .runMethod name _ => name

def Call.inputs : Call → List InputDesc
  | .runMethod _ inputs => inputs
  | _ => []

def Call.IsRun (call : Call) : Prop := ∃ name inputs, call = .runMethod name inputs

structure SharedRuntime (Tid σ : Type) where
  mutex : Option Tid
  module : σ

inductive Pc where
  | lockMetadata
  | readMetadata
  | unlockMetadata (outcome : Outcome)
  | registration
  | getenv
  | stat (lib : EnvValue)
  | convert
  | lockExecute (tensors : List TensorPtr)
  | execute (tensors : List TensorPtr)
  | copyOut (rest : List EValue) (fs : ForwardState)
  | unlockExecute (outcome : Outcome)
  | finished (outcome : Outcome)

/-- Between a lock and the unlock that follows it. -/
def Pc.holds : Pc → Bool
  | .readMetadata | .unlockMetadata _ | .execute _ | .copyOut _ _ | .unlockExecute _ => true
  | _ => false

def Pc.waits : Pc → Bool
  | .lockMetadata | .lockExecute _ => true
  | _ => false

theorem Pc.not_waits_of_holds {pc : Pc} (h : pc.holds = true) : pc.waits = false := by
  cases pc <;> first | rfl | cases h

section Sequential

variable {σ : Type} (M : Module σ) (host : Host) (env : Env)

/-- The call with nobody else around. -/
def Call.runOn : Call → RuntimeState σ → Outcome × RuntimeState σ
  | .methodNames, s => Prod.map (Except.map .names) id ((ExecutorchNumpy.methodNames M).runOn s)
  | .methodMeta name, s => Prod.map (Except.map .metadata) id ((ExecutorchNumpy.methodMeta M name).runOn s)
  | .methodUsesBackend name backend, s =>
    Prod.map (Except.map .uses) id ((ExecutorchNumpy.methodUsesBackend M name backend).runOn s)
  | .runMethod name inputs, s =>
    Prod.map (Except.map .forward) id ((ExecutorchNumpy.runMethod M host env name inputs).runOn s)

def readMetadata : Call → σ → Outcome × σ
  | .methodNames, m => Prod.map (fun r => (namesOutcome r).map .names) id (M.methodNames m)
  | .methodMeta name, m => Prod.map (fun r => (metaOutcome name r).map .metadata) id (M.methodMeta name m)
  | .methodUsesBackend name backend, m =>
    Prod.map (fun r => (usesOutcome name backend r).map .uses) id (M.methodMeta name m)
  | .runMethod name _, m =>
    Prod.map (fun r => (usesOutcome name openvinoBackend r).map .uses) id (M.methodMeta name m)

end Sequential

/-- Where a call goes from its first critical section. -/
def afterMetadata : Call → Outcome → Pc
  | .runMethod _ _, .ok (.uses true) => .registration
  | .runMethod _ _, .ok _ => .convert
  | _, outcome => .finished outcome

section Steps

variable {Tid σ : Type} (M : Module σ) (host : Host) (env : Env)

/-- One atomic step; a thread at a taken mutex, or at the end of its call, has none. The steps
inside a critical section do not look at the mutex. -/
def coreStep (t : Tid) (call : Call) (sh : SharedRuntime Tid σ) : Pc → Option (Pc × SharedRuntime Tid σ)
  | .lockMetadata =>
    if sh.mutex.isNone then some (.readMetadata, { sh with mutex := some t }) else none
  | .readMetadata =>
    some (.unlockMetadata (readMetadata M call sh.module).1,
      { sh with module := (readMetadata M call sh.module).2 })
  | .unlockMetadata outcome => some (afterMetadata call outcome, { sh with mutex := none })
  | .registration =>
    match requireBackend host with
    | .error e => some (.finished (.error e), sh)
    | .ok () => some (.getenv, sh)
  | .getenv =>
    match requireLibPath env with
    | .error e => some (.finished (.error e), sh)
    | .ok lib => some (.stat lib, sh)
  | .stat lib =>
    match requireRegular host lib with
    | .error e => some (.finished (.error e), sh)
    | .ok () => some (.convert, sh)
  | .convert => some (.lockExecute (call.inputs.map toTensorPtr), sh)
  | .lockExecute tensors =>
    if sh.mutex.isNone then some (.execute tensors, { sh with mutex := some t }) else none
  | .execute tensors =>
    match M.execute call.name tensors sh.module with
    | (.error _, next) =>
      some (.unlockExecute (.error (executeFailed call.name)), { sh with module := next })
    | (.ok result, next) => some (.copyOut result ⟨[], []⟩, { sh with module := next })
  | .copyOut [] fs => some (.unlockExecute (.ok (.forward fs)), sh)
  | .copyOut (ev :: rest) fs =>
    match copyOutput (M.memory sh.module) call.name fs ev with
    | .error e => some (.unlockExecute (.error e), sh)
    | .ok fs => some (.copyOut rest fs, sh)
  | .unlockExecute outcome => some (.finished outcome, { sh with mutex := none })
  | .finished _ => none

/-- The steps of `coreStep`, one constructor for each branch, with the condition it is taken under. -/
inductive CoreStep (t : Tid) (call : Call) (sh : SharedRuntime Tid σ) :
    Pc → Pc → SharedRuntime Tid σ → Prop
  | lockMetadata : sh.mutex = none →
    CoreStep t call sh .lockMetadata .readMetadata { sh with mutex := some t }
  | readMetadata : CoreStep t call sh .readMetadata
      (.unlockMetadata (ExecutorchNumpy.readMetadata M call sh.module).1)
      { sh with module := (ExecutorchNumpy.readMetadata M call sh.module).2 }
  | unlockMetadata (outcome : Outcome) : CoreStep t call sh (.unlockMetadata outcome)
      (afterMetadata call outcome) { sh with mutex := none }
  | unregistered {e : EtError} : requireBackend host = .error e →
    CoreStep t call sh .registration (.finished (.error e)) sh
  | registered : requireBackend host = .ok () → CoreStep t call sh .registration .getenv sh
  | noLibPath {e : EtError} : requireLibPath env = .error e →
    CoreStep t call sh .getenv (.finished (.error e)) sh
  | libPath {lib : EnvValue} : requireLibPath env = .ok lib → CoreStep t call sh .getenv (.stat lib) sh
  | irregular {lib : EnvValue} {e : EtError} : requireRegular host lib = .error e →
    CoreStep t call sh (.stat lib) (.finished (.error e)) sh
  | regular {lib : EnvValue} : requireRegular host lib = .ok () →
    CoreStep t call sh (.stat lib) .convert sh
  | convert : CoreStep t call sh .convert (.lockExecute (call.inputs.map toTensorPtr)) sh
  | lockExecute (tensors : List TensorPtr) : sh.mutex = none →
    CoreStep t call sh (.lockExecute tensors) (.execute tensors) { sh with mutex := some t }
  | executeFailed {tensors : List TensorPtr} {code : Executorch.Error} {next : σ} :
    M.execute call.name tensors sh.module = (.error code, next) →
    CoreStep t call sh (.execute tensors) (.unlockExecute (.error (executeFailed call.name)))
      { sh with module := next }
  | executed {tensors : List TensorPtr} {result : List EValue} {next : σ} :
    M.execute call.name tensors sh.module = (.ok result, next) →
    CoreStep t call sh (.execute tensors) (.copyOut result ⟨[], []⟩) { sh with module := next }
  | copied (fs : ForwardState) :
    CoreStep t call sh (.copyOut [] fs) (.unlockExecute (.ok (.forward fs))) sh
  | copyFailed {ev : EValue} {rest : List EValue} {fs : ForwardState} {e : EtError} :
    copyOutput (M.memory sh.module) call.name fs ev = .error e →
    CoreStep t call sh (.copyOut (ev :: rest) fs) (.unlockExecute (.error e)) sh
  | copy {ev : EValue} {rest : List EValue} {fs fs' : ForwardState} :
    copyOutput (M.memory sh.module) call.name fs ev = .ok fs' →
    CoreStep t call sh (.copyOut (ev :: rest) fs) (.copyOut rest fs') sh
  | unlockExecute (outcome : Outcome) :
    CoreStep t call sh (.unlockExecute outcome) (.finished outcome) { sh with mutex := none }

variable {M host env} {t u : Tid} {call : Call} {pc pc' : Pc} {sh sh' : SharedRuntime Tid σ}

theorem coreStep_cases (h : coreStep M host env t call sh pc = some (pc', sh')) :
    CoreStep M host env t call sh pc pc' sh' := by
  cases pc with
  | lockMetadata =>
    rw [coreStep] at h
    split at h <;> cases h
    rename_i hFree
    exact .lockMetadata (Option.isNone_iff_eq_none.mp hFree)
  | readMetadata =>
    rw [coreStep, Option.some.injEq, Prod.mk.injEq] at h
    obtain ⟨rfl, rfl⟩ := h
    exact .readMetadata
  | unlockMetadata outcome =>
    cases h
    exact .unlockMetadata outcome
  | registration =>
    rw [coreStep] at h
    split at h <;> cases h <;> rename_i hBackend
    · exact .unregistered hBackend
    · exact .registered hBackend
  | getenv =>
    rw [coreStep] at h
    split at h <;> cases h <;> rename_i hLib
    · exact .noLibPath hLib
    · exact .libPath hLib
  | stat lib =>
    rw [coreStep] at h
    split at h <;> cases h <;> rename_i hRegular
    · exact .irregular hRegular
    · exact .regular hRegular
  | convert =>
    cases h
    exact .convert
  | lockExecute tensors =>
    rw [coreStep] at h
    split at h <;> cases h
    rename_i hFree
    exact .lockExecute tensors (Option.isNone_iff_eq_none.mp hFree)
  | execute tensors =>
    rw [coreStep] at h
    split at h <;> cases h <;> rename_i hExecute
    · exact .executeFailed hExecute
    · exact .executed hExecute
  | copyOut rest fs =>
    cases rest with
    | nil =>
      cases h
      exact .copied fs
    | cons ev rest =>
      rw [coreStep] at h
      split at h <;> cases h <;> rename_i hView
      · exact .copyFailed hView
      · exact .copy hView
  | unlockExecute outcome =>
    cases h
    exact .unlockExecute outcome
  | finished outcome => cases h

theorem afterMetadata_cases (call : Call) (outcome : Outcome) :
    afterMetadata call outcome = .registration ∨ afterMetadata call outcome = .convert ∨
      ∃ outcome', afterMetadata call outcome = .finished outcome' := by
  unfold afterMetadata
  split
  · exact Or.inl rfl
  · exact Or.inr (Or.inl rfl)
  · exact Or.inr (Or.inr ⟨outcome, rfl⟩)

theorem afterMetadata_holds (call : Call) (outcome : Outcome) :
    (afterMetadata call outcome).holds = false := by
  rcases afterMetadata_cases call outcome with h | h | ⟨outcome', h⟩ <;> rw [h] <;> rfl

/-- What a step does to the mutex, and that the module changes under it only. -/
theorem coreStep_locking (h : coreStep M host env t call sh pc = some (pc', sh')) :
    pc.waits = true ∧ sh.mutex = none ∧ sh' = { sh with mutex := some t } ∧ pc'.holds = true ∨
    pc.holds = true ∧ pc'.holds = true ∧ sh'.mutex = sh.mutex ∨
    pc.holds = true ∧ pc'.holds = false ∧ sh' = { sh with mutex := none } ∨
    pc.holds = false ∧ pc.waits = false ∧ pc'.holds = false ∧ sh' = sh := by
  cases coreStep_cases h with
  | lockMetadata hFree => exact Or.inl ⟨rfl, hFree, rfl, rfl⟩
  | lockExecute tensors hFree => exact Or.inl ⟨rfl, hFree, rfl, rfl⟩
  | readMetadata => exact Or.inr (Or.inl ⟨rfl, rfl, rfl⟩)
  | executeFailed hExecute => exact Or.inr (Or.inl ⟨rfl, rfl, rfl⟩)
  | executed hExecute => exact Or.inr (Or.inl ⟨rfl, rfl, rfl⟩)
  | copied fs => exact Or.inr (Or.inl ⟨rfl, rfl, rfl⟩)
  | copyFailed hView => exact Or.inr (Or.inl ⟨rfl, rfl, rfl⟩)
  | copy hView => exact Or.inr (Or.inl ⟨rfl, rfl, rfl⟩)
  | unlockMetadata outcome =>
    exact Or.inr (Or.inr (Or.inl ⟨rfl, afterMetadata_holds call outcome, rfl⟩))
  | unlockExecute outcome => exact Or.inr (Or.inr (Or.inl ⟨rfl, rfl, rfl⟩))
  | unregistered hBackend => exact Or.inr (Or.inr (Or.inr ⟨rfl, rfl, rfl, rfl⟩))
  | registered hBackend => exact Or.inr (Or.inr (Or.inr ⟨rfl, rfl, rfl, rfl⟩))
  | noLibPath hLib => exact Or.inr (Or.inr (Or.inr ⟨rfl, rfl, rfl, rfl⟩))
  | libPath hLib => exact Or.inr (Or.inr (Or.inr ⟨rfl, rfl, rfl, rfl⟩))
  | irregular hRegular => exact Or.inr (Or.inr (Or.inr ⟨rfl, rfl, rfl, rfl⟩))
  | regular hRegular => exact Or.inr (Or.inr (Or.inr ⟨rfl, rfl, rfl, rfl⟩))
  | convert => exact Or.inr (Or.inr (Or.inr ⟨rfl, rfl, rfl, rfl⟩))

theorem coreStep_locked (hPc : pc.holds = true ↔ sh.mutex = some t)
    (h : coreStep M host env t call sh pc = some (pc', sh')) :
    pc'.holds = true ↔ sh'.mutex = some t := by
  rcases coreStep_locking h with ⟨_, _, rfl, hPc'⟩ | ⟨hHolds, hPc', hMutex⟩ | ⟨_, hPc', rfl⟩ |
    ⟨hHolds, _, hPc', rfl⟩
  · simp [hPc']
  · simp [hPc', hMutex, hPc.mp hHolds]
  · simp [hPc']
  · rw [hPc', ← hPc, hHolds]

theorem coreStep_locked_other (hu : u ≠ t) {Holds : Prop} (hPc : pc.holds = true ↔ sh.mutex = some t)
    (hOther : Holds ↔ sh.mutex = some u)
    (h : coreStep M host env t call sh pc = some (pc', sh')) : Holds ↔ sh'.mutex = some u := by
  rcases coreStep_locking h with ⟨_, hFree, rfl, _⟩ | ⟨_, _, hMutex⟩ | ⟨hHolds, _, rfl⟩ | ⟨_, _, _, rfl⟩
  · rw [hOther, hFree]
    simp [hu.symm]
  · rw [hOther, hMutex]
  · rw [hOther, hPc.mp hHolds]
    simp [hu.symm]
  · exact hOther

/-- Only a taken mutex stops an unfinished call. -/
theorem coreStep_blocked (h : coreStep M host env t call sh pc = none) :
    (∃ outcome, pc = .finished outcome) ∨ pc.waits = true ∧ sh.mutex ≠ none := by
  cases pc with
  | lockMetadata =>
    rw [coreStep] at h
    split at h
    · cases h
    · rename_i hTaken
      exact Or.inr ⟨rfl, fun hFree => hTaken (by rw [hFree]; rfl)⟩
  | lockExecute tensors =>
    rw [coreStep] at h
    split at h
    · cases h
    · rename_i hTaken
      exact Or.inr ⟨rfl, fun hFree => hTaken (by rw [hFree]; rfl)⟩
  | finished outcome => exact Or.inl ⟨outcome, rfl⟩
  | readMetadata => cases h
  | unlockMetadata outcome => cases h
  | registration =>
    rw [coreStep] at h
    split at h <;> cases h
  | getenv =>
    rw [coreStep] at h
    split at h <;> cases h
  | stat lib =>
    rw [coreStep] at h
    split at h <;> cases h
  | convert => cases h
  | execute tensors =>
    rw [coreStep] at h
    split at h <;> cases h
  | copyOut rest fs =>
    cases rest with
    | nil => cases h
    | cons ev rest =>
      rw [coreStep] at h
      split at h <;> cases h
  | unlockExecute outcome => cases h

theorem coreStep_module (h : coreStep M host env t call sh pc = some (pc', sh'))
    (hHolds : pc.holds = false) : sh'.module = sh.module := by
  rcases coreStep_locking h with ⟨_, _, rfl, _⟩ | ⟨hPc, _⟩ | ⟨hPc, _⟩ | ⟨_, _, _, rfl⟩
  · rfl
  · rw [hHolds] at hPc
    cases hPc
  · rw [hHolds] at hPc
    cases hPc
  · rfl

end Steps

/-! ## Answers of the loaded program -/

section Answers

variable {σ : Type} {M : Module σ} {same : σ → σ → Prop}

structure SameAnswers (M : Module σ) (m m₀ : σ) : Prop where
  names : (M.methodNames m).1 = (M.methodNames m₀).1
  metadata : ∀ name, (M.methodMeta name m).1 = (M.methodMeta name m₀).1

theorem SameAnswers.readMetadata {m m₀ : σ} (h : SameAnswers M m m₀) (call : Call) :
    (readMetadata M call m).1 = (readMetadata M call m₀).1 := by
  cases call <;> simp [ExecutorchNumpy.readMetadata, h.names, h.metadata]

variable (hReads : M.MetadataReads same)
include hReads

theorem sameAnswers_of_same {m m' m₀ : σ} (hSame : same m' m) (h : SameAnswers M m m₀) :
    SameAnswers M m' m₀ where
  names := by rw [hReads.methodNames_congr hSame, h.names]
  metadata name := by rw [hReads.methodMeta_congr name hSame, h.metadata]

theorem sameAnswers_execute {m m₀ : σ} (h : SameAnswers M m m₀) (name : ByteString)
    (inputs : List TensorPtr) : SameAnswers M (M.execute name inputs m).2 m₀ where
  names := by rw [hReads.methodNames_execute, h.names]
  metadata method := by rw [hReads.methodMeta_execute, h.metadata]

theorem same_readMetadata (call : Call) (m : σ) : same (readMetadata M call m).2 m := by
  cases call with
  | methodNames => exact hReads.methodNames_same m
  | methodMeta name => exact hReads.methodMeta_same name m
  | methodUsesBackend name backend => exact hReads.methodMeta_same name m
  | runMethod name inputs => exact hReads.methodMeta_same name m

end Answers

section AnswersKept

variable {Tid σ : Type} {M : Module σ} {host : Host} {env : Env} {t : Tid} {call : Call}
  {pc pc' : Pc} {sh sh' : SharedRuntime Tid σ} {m₀ : σ}

theorem coreStep_answers {same : σ → σ → Prop} (hReads : M.MetadataReads same)
    (hAnswers : SameAnswers M sh.module m₀)
    (h : coreStep M host env t call sh pc = some (pc', sh')) : SameAnswers M sh'.module m₀ := by
  cases coreStep_cases h with
  | readMetadata => exact sameAnswers_of_same hReads (same_readMetadata hReads call sh.module) hAnswers
  | @executeFailed tensors _ _ hExecute =>
    have hNext := sameAnswers_execute hReads hAnswers call.name tensors
    rwa [hExecute] at hNext
  | @executed tensors _ _ hExecute =>
    have hNext := sameAnswers_execute hReads hAnswers call.name tensors
    rwa [hExecute] at hNext
  | _ => exact hAnswers

end AnswersKept

end ExecutorchNumpy
