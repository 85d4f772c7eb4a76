import ExecutorchNumpy.CoreThreads
import ExecutorchNumpy.Library.Interleaving

/-! # Concurrent calls on one Runtime

Threads issue calls on one shared `Runtime`. A call takes effect at one step: the
metadata read, the check of the guard that fails, or `Module::execute`; what it
answers afterwards is already settled, because its outputs stay in the arena as
long as it holds the mutex.
-/

namespace ExecutorchNumpy
set_option autoImplicit false

open Executorch (EValue Module TensorPtr)
open Interleaving

/-! ## The call as one step -/

section Atomic

variable {σ : Type} {M : Module σ} {host : Host} {env : Env}

theorem runOn_metadata {call : Call} (h : ¬ call.IsRun) (a : RuntimeState σ) :
    call.runOn M host env a =
      ((readMetadata M call a.module).1, ⟨(readMetadata M call a.module).2, false⟩) := by
  cases call with
  | methodNames =>
    rw [Call.runOn, methodNames_runOn]
    rfl
  | methodMeta name =>
    rw [Call.runOn, methodMeta_runOn]
    rfl
  | methodUsesBackend name backend =>
    rw [Call.runOn, methodUsesBackend_runOn]
    rfl
  | runMethod name inputs => exact absurd ⟨name, inputs, rfl⟩ h

def guardAt (M : Module σ) (host : Host) (env : Env) (call : Call) (m : σ) : Except EtError Unit :=
  guardOutcome host env (usesOutcome call.name openvinoBackend (M.methodMeta call.name m).1)

theorem runOn_refused {call : Call} (hRun : call.IsRun) {a : RuntimeState σ} {e : EtError}
    (hGuard : guardAt M host env call a.module = .error e) :
    call.runOn M host env a = (.error e, ⟨(M.methodMeta call.name a.module).2, false⟩) := by
  obtain ⟨name, inputs, rfl⟩ := hRun
  have hOutcome : guardOutcome host env
      (usesOutcome name openvinoBackend (M.methodMeta name a.module).1) = .error e := hGuard
  rw [Call.runOn, runMethod_runOn, hOutcome]
  rfl

theorem runOn_executed {call : Call} (hRun : call.IsRun) {a : RuntimeState σ}
    (hGuard : guardAt M host env call a.module = .ok ()) :
    call.runOn M host env a =
      let run := M.execute call.name (call.inputs.map toTensorPtr) (M.methodMeta call.name a.module).2
      ((executeOutcome M call.name run).map .forward, ⟨run.2, false⟩) := by
  obtain ⟨name, inputs, rfl⟩ := hRun
  have hOutcome : guardOutcome host env
      (usesOutcome name openvinoBackend (M.methodMeta name a.module).1) = .ok () := hGuard
  rw [Call.runOn, runMethod_runOn, hOutcome]
  rfl

end Atomic

/-! ## Commit points -/

section Commit

variable {Tid σ : Type} (M : Module σ) (host : Host) (env : Env)

/-- The outcome of a call that has taken effect. During the copy-out it is still to be read from
the arena. -/
def committed (call : Call) (sh : SharedRuntime Tid σ) : Pc → Option Outcome
  | .unlockMetadata outcome =>
    match afterMetadata call outcome with
    | .finished outcome => some outcome
    | _ => none
  | .copyOut rest fs =>
    some ((copyOutputs (M.memory sh.module) call.name rest fs).map .forward)
  | .unlockExecute outcome => some outcome
  | .finished outcome => some outcome
  | _ => none

/-- The arena is as the call's own execution left it, and reading on gives its outputs. -/
def OwnOutputs (call : Call) (sh : SharedRuntime Tid σ) (rest : List EValue) (fs : ForwardState) : Prop :=
  ∃ before evs, M.execute call.name (call.inputs.map toTensorPtr) before = (.ok evs, sh.module) ∧
    copyOutputs (M.memory sh.module) call.name rest fs =
      copyOutputs (M.memory sh.module) call.name evs ⟨[], []⟩

/-- What is known at each step of a call when the loaded program answers as `m₀` does. -/
def PcSound (m₀ : σ) (call : Call) (sh : SharedRuntime Tid σ) : Pc → Prop
  | .unlockMetadata outcome => outcome = (readMetadata M call m₀).1
  | .registration => call.IsRun ∧ guardAt M host env call m₀ = checkOpenvino host env
  | .getenv => call.IsRun ∧ guardAt M host env call m₀ = checkOpenvino host env ∧
      requireBackend host = .ok ()
  | .stat lib => call.IsRun ∧ guardAt M host env call m₀ = checkOpenvino host env ∧
      requireBackend host = .ok () ∧ requireLibPath env = .ok lib
  | .convert => call.IsRun ∧ guardAt M host env call m₀ = .ok ()
  | .lockExecute tensors => call.IsRun ∧ guardAt M host env call m₀ = .ok () ∧
      tensors = call.inputs.map toTensorPtr
  | .execute tensors => call.IsRun ∧ guardAt M host env call m₀ = .ok () ∧
      tensors = call.inputs.map toTensorPtr
  | .copyOut rest fs => OwnOutputs M call sh rest fs
  | _ => True

variable {M host env} {t : Tid} {call : Call} {pc pc' : Pc} {sh sh' : SharedRuntime Tid σ} {m₀ : σ}

theorem committed_congr (h : pc.holds = true → sh'.module = sh.module) :
    committed M call sh' pc = committed M call sh pc := by
  cases pc with
  | copyOut rest fs => rw [committed, committed, h rfl]
  | _ => rfl

theorem committed_afterMetadata (outcome : Outcome) :
    committed M call sh (afterMetadata call outcome) =
      committed M call sh (.unlockMetadata outcome) := by
  rcases afterMetadata_cases call outcome with h | h | ⟨outcome', h⟩ <;> simp [committed, h]

theorem afterMetadata_of_not_run (hRun : ¬ call.IsRun) (outcome : Outcome) :
    afterMetadata call outcome = .finished outcome := by
  cases call with
  | runMethod name inputs => exact absurd ⟨name, inputs, rfl⟩ hRun
  | _ => rfl

theorem PcSound.congr (hSound : PcSound M host env m₀ call sh pc)
    (h : pc.holds = true → sh'.module = sh.module) : PcSound M host env m₀ call sh' pc := by
  cases pc with
  | copyOut rest fs =>
    rw [PcSound, OwnOutputs, h rfl]
    exact hSound
  | _ => exact hSound

theorem pcSound_afterMetadata (call : Call) (m₀ : σ) (sh : SharedRuntime Tid σ) :
    PcSound M host env m₀ call sh (afterMetadata call (readMetadata M call m₀).1) := by
  cases call with
  | runMethod name inputs =>
    have hGuard : guardAt M host env (.runMethod name inputs) m₀ =
        guardOutcome host env (usesOutcome name openvinoBackend (M.methodMeta name m₀).1) := rfl
    cases hUses : usesOutcome name openvinoBackend (M.methodMeta name m₀).1 with
    | error e =>
      simp only [readMetadata, Prod.map, hUses, Except.map, afterMetadata]
      trivial
    | ok uses =>
      rw [hUses] at hGuard
      simp only [readMetadata, Prod.map, hUses, Except.map]
      cases uses with
      | true => exact ⟨⟨name, inputs, rfl⟩, hGuard⟩
      | false => exact ⟨⟨name, inputs, rfl⟩, hGuard⟩
  | methodNames => trivial
  | methodMeta name => trivial
  | methodUsesBackend name backend => trivial

theorem coreStep_sound (hSound : PcSound M host env m₀ call sh pc)
    (hAnswers : SameAnswers M sh.module m₀)
    (h : coreStep M host env t call sh pc = some (pc', sh')) :
    PcSound M host env m₀ call sh' pc' := by
  cases coreStep_cases h with
  | lockMetadata hFree => trivial
  | readMetadata => exact hAnswers.readMetadata call
  | unlockMetadata outcome =>
    rw [show outcome = _ from hSound]
    exact pcSound_afterMetadata call m₀ _
  | unregistered hBackend => trivial
  | registered hBackend => exact ⟨hSound.1, hSound.2, hBackend⟩
  | noLibPath hLib => trivial
  | libPath hLib => exact ⟨hSound.1, hSound.2.1, hSound.2.2, hLib⟩
  | irregular hRegular => trivial
  | regular hRegular =>
    obtain ⟨hRun, hGuard, hBackend, hLib⟩ := hSound
    exact ⟨hRun, by rw [hGuard, checkOpenvino_ok hBackend hLib hRegular]⟩
  | convert => exact ⟨hSound.1, hSound.2, rfl⟩
  | lockExecute tensors hFree => exact hSound
  | executeFailed hExecute => trivial
  | @executed _ result _ hExecute =>
    obtain ⟨_, _, rfl⟩ := hSound
    exact ⟨sh.module, result, hExecute, rfl⟩
  | copied fs => trivial
  | copyFailed hView => trivial
  | copy hView =>
    -- what is still to be read, after this view, is what was to be read before it
    obtain ⟨before, evs, hExecute, hCopy⟩ := hSound
    refine ⟨before, evs, hExecute, ?_⟩
    rw [← hCopy, copyOutputs, hView]
  | unlockExecute outcome => trivial

/-- A step that adds nothing to the effect of the call, or makes it take effect as a whole. -/
def Effect (same : σ → σ → Prop) (M : Module σ) (host : Host) (env : Env) (call : Call)
    (a : RuntimeState σ) (before after : Option Outcome) (m : σ) : Prop :=
  after = before ∧ same m a.module ∨
  before = none ∧ after = some (call.runOn M host env a).1 ∧ same m (call.runOn M host env a).2.module

theorem effect_readMetadata {same : σ → σ → Prop} (hReads : M.MetadataReads same) {a : RuntimeState σ}
    (hSame : same sh.module a.module) (hModule : same sh'.module sh.module) :
    Effect same M host env call a none
      (committed M call sh' (.unlockMetadata (readMetadata M call a.module).1)) sh'.module := by
  have hStays : same sh'.module a.module := hReads.equivalence.trans hModule hSame
  by_cases hRun : call.IsRun
  · obtain ⟨name, inputs, rfl⟩ := hRun
    rw [← committed_afterMetadata, readMetadata]
    cases hUses : usesOutcome name openvinoBackend (M.methodMeta name a.module).1 with
    | error e =>
      have hGuard : guardAt M host env (.runMethod name inputs) a.module = .error e := by
        rw [guardAt, Call.name, hUses]
        rfl
      refine Or.inr ⟨rfl, ?_⟩
      rw [runOn_refused ⟨name, inputs, rfl⟩ hGuard]
      simp only [Prod.map, hUses]
      exact ⟨rfl, hReads.equivalence.trans hStays
        (hReads.equivalence.symm (hReads.methodMeta_same name a.module))⟩
    | ok uses =>
      refine Or.inl ⟨?_, hStays⟩
      simp only [Prod.map, hUses]
      cases uses <;> rfl
  · refine Or.inr ⟨rfl, ?_⟩
    rw [committed, afterMetadata_of_not_run hRun, runOn_metadata hRun]
    exact ⟨rfl, hReads.equivalence.trans hStays
      (hReads.equivalence.symm (same_readMetadata hReads call a.module))⟩

theorem effect_execute {same : σ → σ → Prop} (hReads : M.MetadataReads same) {a : RuntimeState σ}
    (hSame : same sh.module a.module) (hRun : call.IsRun)
    (hGuard : guardAt M host env call a.module = .ok ())
    (h : coreStep M host env t call sh (.execute (call.inputs.map toTensorPtr)) = some (pc', sh')) :
    Effect same M host env call a none (committed M call sh' pc') sh'.module := by
  have hRead : same sh.module (M.methodMeta call.name a.module).2 :=
    hReads.equivalence.trans hSame (hReads.equivalence.symm (hReads.methodMeta_same _ _))
  obtain ⟨hResult, hNext, hMemory⟩ :=
    hReads.execute_congr call.name (call.inputs.map toTensorPtr) hRead
  refine Or.inr ⟨rfl, ?_⟩
  rw [runOn_executed hRun hGuard]
  dsimp only
  generalize M.execute call.name (call.inputs.map toTensorPtr) (M.methodMeta call.name a.module).2 = run
    at hResult hNext hMemory
  obtain ⟨result, next⟩ := run
  cases coreStep_cases h with
  | executeFailed hExecute =>
    rw [hExecute] at hResult hNext
    cases hResult
    exact ⟨rfl, hNext⟩
  | executed hExecute =>
    rw [hExecute] at hResult hNext hMemory
    cases hResult
    refine ⟨?_, hNext⟩
    rw [committed, executeOutcome, show M.memory _ = M.memory next from hMemory]

theorem coreStep_effect {same : σ → σ → Prop} (hReads : M.MetadataReads same) {a : RuntimeState σ}
    (hSame : same sh.module a.module) (hAnswers : SameAnswers M a.module m₀)
    (hSound : PcSound M host env m₀ call sh pc)
    (h : coreStep M host env t call sh pc = some (pc', sh')) :
    Effect same M host env call a (committed M call sh pc) (committed M call sh' pc') sh'.module := by
  have hGuardAt : guardAt M host env call a.module = guardAt M host env call m₀ := by
    rw [guardAt, guardAt, hAnswers.metadata]
  -- a check of the guard that fails settles the whole call
  have hRefuse : ∀ e, call.IsRun → guardAt M host env call m₀ = .error e →
      Effect same M host env call a none (some (.error e)) sh.module := by
    intro e hRun hError
    refine Or.inr ⟨rfl, ?_⟩
    rw [runOn_refused hRun (hGuardAt.trans hError)]
    exact ⟨rfl, hReads.equivalence.trans hSame
      (hReads.equivalence.symm (hReads.methodMeta_same call.name a.module))⟩
  cases coreStep_cases h with
  | lockMetadata hFree => exact Or.inl ⟨rfl, hSame⟩
  | readMetadata =>
    have hAnswer : (readMetadata M call sh.module).1 = (readMetadata M call a.module).1 := by
      rw [(sameAnswers_of_same hReads hSame hAnswers).readMetadata, hAnswers.readMetadata]
    rw [hAnswer]
    exact effect_readMetadata hReads hSame (same_readMetadata hReads call sh.module)
  | unlockMetadata outcome => exact Or.inl ⟨committed_afterMetadata outcome, hSame⟩
  | @unregistered e hBackend =>
    obtain ⟨hRun, hGuard⟩ := hSound
    exact hRefuse e hRun (by rw [hGuard, checkOpenvino, hBackend]; rfl)
  | registered hBackend => exact Or.inl ⟨rfl, hSame⟩
  | @noLibPath e hLib =>
    obtain ⟨hRun, hGuard, hBackend⟩ := hSound
    exact hRefuse e hRun (by rw [hGuard, checkOpenvino, hBackend, hLib]; rfl)
  | libPath hLib => exact Or.inl ⟨rfl, hSame⟩
  | @irregular lib e hRegular =>
    obtain ⟨hRun, hGuard, hBackend, hLib⟩ := hSound
    refine hRefuse e hRun ?_
    simp [hGuard, checkOpenvino, hBackend, hLib, hRegular, bind, Except.bind]
  | regular hRegular => exact Or.inl ⟨rfl, hSame⟩
  | convert => exact Or.inl ⟨rfl, hSame⟩
  | lockExecute tensors hFree => exact Or.inl ⟨rfl, hSame⟩
  | executeFailed hExecute =>
    obtain ⟨hRun, hGuard, rfl⟩ := hSound
    exact effect_execute hReads hSame hRun (hGuardAt.trans hGuard) h
  | executed hExecute =>
    obtain ⟨hRun, hGuard, rfl⟩ := hSound
    exact effect_execute hReads hSame hRun (hGuardAt.trans hGuard) h
  | copied fs => exact Or.inl ⟨rfl, hSame⟩
  | copyFailed hView => exact Or.inl ⟨by rw [committed, committed, copyOutputs, hView]; rfl, hSame⟩
  | copy hView => exact Or.inl ⟨by rw [committed, committed, copyOutputs, hView], hSame⟩
  | unlockExecute outcome => exact Or.inl ⟨rfl, hSame⟩

end Commit

/-! ## The system -/

/-- The calls a thread has still to make, the one it is in, and those it has finished. -/
structure Caller where
  todo : List Call
  current : Option (Call × Pc)
  done : List (Call × Outcome)

section System

variable {Tid σ : Type} (M : Module σ) (host : Host) (env : Env)

inductive CallerStep : ThreadStep Tid Caller (SharedRuntime Tid σ)
  | start {t call todo done sh} :
    CallerStep t ⟨call :: todo, none, done⟩ sh ⟨todo, some (call, .lockMetadata), done⟩ sh
  | run {t call pc todo done sh pc' sh'} : coreStep M host env t call sh pc = some (pc', sh') →
    CallerStep t ⟨todo, some (call, pc), done⟩ sh ⟨todo, some (call, pc'), done⟩ sh'
  | finish {t call outcome todo done sh} :
    CallerStep t ⟨todo, some (call, .finished outcome), done⟩ sh ⟨todo, none, done ++ [(call, outcome)]⟩ sh

def initial (m₀ : σ) (programs : Tid → List Call) : State Tid Caller (SharedRuntime Tid σ) where
  shared := ⟨none, m₀⟩
  threads t := ⟨programs t, none, []⟩

def Caller.holds (l : Caller) : Bool := l.current.any fun c => c.2.holds

def Caller.events (M : Module σ) (l : Caller) (sh : SharedRuntime Tid σ) : List (Call × Outcome) :=
  l.done ++ (l.current.bind fun c => (committed M c.1 sh c.2).map fun outcome => (c.1, outcome)).toList

structure CallerInv (m₀ : σ) (t : Tid) (l : Caller) (sh : SharedRuntime Tid σ) : Prop where
  locked : l.holds = true ↔ sh.mutex = some t
  sound : ∀ call pc, l.current = some (call, pc) → PcSound M host env m₀ call sh pc
  answers : SameAnswers M sh.module m₀

variable {M host env} {same : σ → σ → Prop} {m₀ : σ} {t u : Tid} {l l' m : Caller}
  {sh sh' : SharedRuntime Tid σ} {call : Call} {pc pc' : Pc}

/-- A thread that holds the mutex finds the module as it left it. -/
theorem callerStep_undisturbed (hu : u ≠ t) (hl : CallerInv M host env m₀ t l sh)
    (hm : CallerInv M host env m₀ u m sh) (h : CallerStep M host env t l sh l' sh')
    (hHolds : m.holds = true) : sh'.module = sh.module := by
  cases h with
  | start => rfl
  | finish => rfl
  | @run _ call pc _ _ _ pc' _ h =>
    apply coreStep_module h
    by_contra hPc
    have hMine := hl.locked.mp (by simpa [Caller.holds] using hPc)
    have hOther := hm.locked.mp hHolds
    rw [hMine] at hOther
    exact hu (Option.some.inj hOther).symm

theorem callerInv_own (hReads : M.MetadataReads same) (hl : CallerInv M host env m₀ t l sh)
    (h : CallerStep M host env t l sh l' sh') : CallerInv M host env m₀ t l' sh' := by
  cases h with
  | start =>
    refine ⟨hl.locked, ?_, hl.answers⟩
    intro call pc hCurrent
    cases hCurrent
    trivial
  | finish =>
    refine ⟨hl.locked, ?_, hl.answers⟩
    intro call pc hCurrent
    cases hCurrent
  | run h =>
    refine ⟨coreStep_locked hl.locked h, ?_, coreStep_answers hReads hl.answers h⟩
    intro call pc hCurrent
    cases hCurrent
    exact coreStep_sound (hl.sound _ _ rfl) hl.answers h

theorem callerInv_other (hReads : M.MetadataReads same) (hu : u ≠ t)
    (hl : CallerInv M host env m₀ t l sh) (hm : CallerInv M host env m₀ u m sh)
    (h : CallerStep M host env t l sh l' sh') : CallerInv M host env m₀ u m sh' := by
  refine ⟨?_, ?_, (callerInv_own hReads hl h).answers⟩
  · cases h with
    | start => exact hm.locked
    | finish => exact hm.locked
    | run h => exact coreStep_locked_other hu hl.locked hm.locked h
  · intro call pc hCurrent
    apply (hm.sound call pc hCurrent).congr
    intro hHolds
    apply callerStep_undisturbed hu hl hm h
    rw [Caller.holds, hCurrent]
    exact hHolds

theorem callerInv_initial (programs : Tid → List Call) (t : Tid) :
    CallerInv M host env m₀ t ((initial (σ := σ) m₀ programs).threads t) (initial m₀ programs).shared where
  locked := by simp [initial, Caller.holds]
  sound _ _ hCurrent := by cases hCurrent
  answers := ⟨rfl, fun _ => rfl⟩

/-! ## Serial order -/

theorem events_congr (h : l.holds = true → sh'.module = sh.module) :
    l.events M sh' = l.events M sh := by
  obtain ⟨todo, current, done⟩ := l
  cases current with
  | none => rfl
  | some c =>
    have hCommitted : committed M c.1 sh' c.2 = committed M c.1 sh c.2 := committed_congr h
    simp only [Caller.events, Option.bind_some, hCommitted]

/-- A step of a thread commits its call or leaves what has taken effect as it was. -/
theorem callerStep_effect (hReads : M.MetadataReads same) {a : RuntimeState σ}
    (hSame : same sh.module a.module) (hl : CallerInv M host env m₀ t l sh)
    (h : CallerStep M host env t l sh l' sh') :
    same sh'.module a.module ∧ l'.events M sh' = l.events M sh ∨
    ∃ call, same sh'.module (call.runOn M host env a).2.module ∧
      l'.events M sh' = l.events M sh ++ [(call, (call.runOn M host env a).1)] := by
  cases h with
  | start => exact Or.inl ⟨hSame, by simp [Caller.events, committed]⟩
  | finish => exact Or.inl ⟨hSame, by simp [Caller.events, committed]⟩
  | @run _ call pc _ _ _ pc' _ h =>
    have hAnswers := sameAnswers_of_same hReads (hReads.equivalence.symm hSame) hl.answers
    rcases coreStep_effect hReads hSame hAnswers (hl.sound _ _ rfl) h with
      ⟨hCommitted, hSame'⟩ | ⟨hBefore, hAfter, hSame'⟩
    · exact Or.inl ⟨hSame', by simp [Caller.events, hCommitted]⟩
    · exact Or.inr ⟨call, hSame', by simp [Caller.events, hBefore, hAfter]⟩

def Caller.Follows (program : List Call) (l : Caller) : Prop :=
  l.done.map Prod.fst ++ (l.current.map Prod.fst).toList ++ l.todo = program

theorem callerStep_follows {program : List Call} (hFollows : l.Follows program)
    (h : CallerStep M host env t l sh l' sh') : l'.Follows program := by
  rw [← hFollows]
  cases h <;> simp [Caller.Follows]

theorem events_calls {program : List Call} (h : l.Follows program) :
    (l.events M sh).map Prod.fst <+: program := by
  obtain ⟨todo, current, done⟩ := l
  rw [← h, Caller.events]
  cases current with
  | none => exact ⟨todo, by simp⟩
  | some c =>
    cases hCommitted : committed M c.1 sh c.2 with
    | none => exact ⟨c.1 :: todo, by simp [hCommitted]⟩
    | some outcome => exact ⟨todo, by simp [hCommitted]⟩

variable [DecidableEq Tid]

/-- The serial object stands where the threads have taken the module. -/
def Tracks (M : Module σ) (host : Host) (env : Env) (same : σ → σ → Prop) (m₀ : σ)
    (s : State Tid Caller (SharedRuntime Tid σ)) (a : RuntimeState σ) : Prop :=
  same s.shared.module a.module ∧ ∀ t, CallerInv M host env m₀ t (s.threads t) s.shared

theorem step_tracks (hReads : M.MetadataReads same) {s s' : State Tid Caller (SharedRuntime Tid σ)}
    {a : RuntimeState σ} (hTracks : Tracks M host env same m₀ s a)
    (hStep : Step (CallerStep M host env) s s') :
    (Tracks M host env same m₀ s' a ∧
      ∀ u, (s'.threads u).events M s'.shared = (s.threads u).events M s.shared) ∨
    ∃ t call, Tracks M host env same m₀ s' (call.runOn M host env a).2 ∧
      (s'.threads t).events M s'.shared =
        (s.threads t).events M s.shared ++ [(call, (call.runOn M host env a).1)] ∧
      ∀ u ≠ t, (s'.threads u).events M s'.shared = (s.threads u).events M s.shared := by
  obtain ⟨hSame, hAll⟩ := hTracks
  have hAll' := hStep.modular (P := CallerInv M host env m₀) (callerInv_own hReads)
    (callerInv_other hReads) hAll
  obtain ⟨t, hThread⟩ := hStep
  rename_i next shared
  have hOthers : ∀ u ≠ t, ((s.set t next shared).threads u).events M shared =
      (s.threads u).events M s.shared := by
    intro u hu
    rw [State.set_threads_other s hu]
    exact events_congr fun hHolds => callerStep_undisturbed hu (hAll t) (hAll u) hThread hHolds
  rcases callerStep_effect hReads hSame (hAll t) hThread with ⟨hSame', hEvents⟩ |
    ⟨call, hSame', hEvents⟩
  · refine Or.inl ⟨⟨hSame', hAll'⟩, fun u => ?_⟩
    by_cases hu : u = t
    · subst hu
      rw [State.set_threads_self]
      exact hEvents
    · exact hOthers u hu
  · refine Or.inr ⟨t, call, ⟨hSame', hAll'⟩, ?_, hOthers⟩
    rw [State.set_threads_self]
    exact hEvents

end System

/-- In every state that threads can reach on one shared Runtime there is a serial order of the calls
that have taken effect: it follows each thread's own order, and every call that has finished has
the outcome of the serial run. Outputs are read from the arena that the call's own execution left. -/
theorem calls_serializable {Tid σ : Type} [DecidableEq Tid] (M : Module σ) (same : σ → σ → Prop)
    (hReads : M.MetadataReads same) (host : Host) (env : Env) (m₀ : σ) (programs : Tid → List Call)
    (s : State Tid Caller (SharedRuntime Tid σ))
    (h : Reachable (CallerStep M host env) (initial m₀ programs) s) :
    (∃ (order : List (Tid × Call × Outcome)) (a : RuntimeState σ),
      SerialRun (Call.runOn M host env) ⟨m₀, false⟩ order a ∧
      ∀ t, (callsOf t order).map Prod.fst <+: programs t ∧ (s.threads t).done <+: callsOf t order ∧
        ((s.threads t).current = none → callsOf t order = (s.threads t).done)) ∧
    ∀ t call rest fs, (s.threads t).current = some (call, .copyOut rest fs) →
      OwnOutputs M call s.shared rest fs := by
  have hFollows : ∀ t, (s.threads t).Follows (programs t) :=
    h.modular (fun t l _ => l.Follows (programs t)) (fun t => by simp [initial, Caller.Follows])
      callerStep_follows fun _ _ hm _ => hm
  obtain ⟨order, a, hRun, ⟨_, hInv⟩, hSeen⟩ := h.serializable (Call.runOn M host env) ⟨m₀, false⟩
    (Tracks M host env same m₀) (fun s t => (s.threads t).events M s.shared)
    ⟨hReads.equivalence.refl m₀, callerInv_initial programs⟩ (fun _ => rfl) (step_tracks hReads)
  refine ⟨⟨order, a, hRun, fun t => ?_⟩, fun t call rest fs hCurrent => ?_⟩
  · rw [hSeen]
    refine ⟨events_calls (hFollows t), List.prefix_append _ _, fun hIdle => ?_⟩
    rw [Caller.events, hIdle]
    simp
  · exact (hInv t).sound call _ hCurrent

/-! ## Two calls that overlap -/

section Turns

variable {Tid σ : Type} (M : Module σ) (host : Host) (env : Env)

/-- What a thread does when it is its turn; it has nothing to do at a taken mutex or at its end. -/
def Caller.next (t : Tid) (l : Caller) (sh : SharedRuntime Tid σ) :
    Option (Caller × SharedRuntime Tid σ) :=
  match l.current, l.todo with
  | none, [] => none
  | none, call :: todo => some (⟨todo, some (call, .lockMetadata), l.done⟩, sh)
  | some (call, .finished outcome), todo => some (⟨todo, none, l.done ++ [(call, outcome)]⟩, sh)
  | some (call, pc), todo =>
    match coreStep M host env t call sh pc with
    | none => none
    | some (pc', sh') => some (⟨todo, some (call, pc'), l.done⟩, sh')

variable {M host env} {t : Tid} {l l' : Caller} {sh sh' : SharedRuntime Tid σ}

theorem Caller.next_step (h : l.next M host env t sh = some (l', sh')) :
    CallerStep M host env t l sh l' sh' := by
  obtain ⟨todo, current, done⟩ := l
  rw [Caller.next] at h
  split at h
  · cases h
  · rename_i hCurrent hTodo
    obtain rfl := hCurrent
    obtain rfl := hTodo
    cases h
    exact .start
  · rename_i hCurrent
    obtain rfl := hCurrent
    cases h
    exact .finish
  · rename_i hCurrent
    obtain rfl := hCurrent
    split at h
    · cases h
    · rename_i hStep
      cases h
      exact .run hStep

end Turns

def sumOf (value : UInt8) : Call := .runMethod (cxx "forward") [⟨[value], [1], ScalarType.byte.code⟩]

/-- The two threads run `forward` on 5 and on 7. -/
def sumPrograms : Bool → List Call
  | true => [sumOf 5]
  | false => [sumOf 7]

/-- Both pass the guard; then the first one executes and returns, and the second one executes. -/
def overlap : List Bool :=
  List.replicate 4 true ++ List.replicate 5 false ++ List.replicate 7 true ++ List.replicate 2 false

def sumOutput (value : UInt8) : ForwardState :=
  ⟨[[value]], [⟨.tensor, [1], ScalarType.byte.code, some 0, 1, 0, 0, []⟩]⟩

/-- One call has returned its sum while the other one, which had begun before, is about to copy its
own out of the arena that both have written. -/
theorem overlapping_serializable :
    ∃ s : State Bool Caller (SharedRuntime Bool Executorch.Summing),
      Reachable (CallerStep Executorch.sumModule bareHost none) (initial ⟨false, 0⟩ sumPrograms) s ∧
      (s.threads true).done = [(sumOf 5, .ok (.forward (sumOutput 5)))] ∧
      (s.threads false).current =
        some (sumOf 7, .copyOut [.tensor Executorch.byteTensor] ⟨[], []⟩) ∧
      (∃ (order : List (Bool × Call × Outcome)) (a : RuntimeState Executorch.Summing),
        SerialRun (Call.runOn Executorch.sumModule bareHost none) ⟨⟨false, 0⟩, false⟩ order a ∧
        ∀ t, (callsOf t order).map Prod.fst <+: sumPrograms t ∧ (s.threads t).done <+: callsOf t order ∧
          ((s.threads t).current = none → callsOf t order = (s.threads t).done)) ∧
      OwnOutputs Executorch.sumModule (sumOf 7) s.shared [.tensor Executorch.byteTensor] ⟨[], []⟩ := by
  obtain ⟨s, hRun, hDone, hCurrent⟩ : ∃ s, runSchedule id
      (fun t => Caller.next Executorch.sumModule bareHost none t) overlap
      (initial (⟨false, 0⟩ : Executorch.Summing) sumPrograms) = some s ∧
      (s.threads true).done = [(sumOf 5, .ok (.forward (sumOutput 5)))] ∧
      (s.threads false).current =
        some (sumOf 7, .copyOut [.tensor Executorch.byteTensor] ⟨[], []⟩) := ⟨_, rfl, rfl, rfl⟩
  have hReachable : Reachable (CallerStep Executorch.sumModule bareHost none)
      (initial ⟨false, 0⟩ sumPrograms) s := Reachable.of_schedule Caller.next_step hRun
  obtain ⟨hSerial, hOwn⟩ := calls_serializable Executorch.sumModule (· = ·)
    Executorch.sumModule_metadataReads bareHost none ⟨false, 0⟩ sumPrograms s hReachable
  exact ⟨s, hReachable, hDone, hCurrent, hSerial, hOwn false _ _ _ hCurrent⟩

end ExecutorchNumpy
