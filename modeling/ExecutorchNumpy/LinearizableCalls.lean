import ExecutorchNumpy.GilThreads
import ExecutorchNumpy.Serializability
import ExecutorchNumpy.SoloRuns
import ExecutorchNumpy.Library.Linearizable

/-! # Bound calls as one history

Python threads call bound methods on any number of Runtimes. What a call will answer
is settled when it takes effect: when an input is refused, when the core commits it,
and nowhere later; building the outputs and taking the GIL back add nothing to it.
-/

namespace ExecutorchNumpy
set_option autoImplicit false

open Executorch (Module)
open Interleaving Traverse

abbrev BoundAnswer := Except PyException PyAnswer

/-! ## Answers that are settled -/

def giveResult (result : Except Thrown (List PyValue)) : BoundAnswer :=
  (result.mapError Thrown.toPython).map .outputs

def builtOutputs (name : ByteString) : Except EtError ForwardState → Except Thrown (List PyValue)
  | .error e => .error (.et e)
  | .ok fs => (copyOutAll name fs).mapError Thrown.et

def builtFrom (name : ByteString) (storage : List ByteString) (rest : List OutputView)
    (values : List PyValue) : Except Thrown (List PyValue) :=
  ((traverseFrom (fun index v => copyOut storage v name index) values.length rest).mapError
    Thrown.et).map (values ++ ·)

/-- The answer in Python to what the core answers. -/
def pyAnswer : Call → Outcome → BoundAnswer
  | .runMethod name _, outcome => giveResult (builtOutputs name (forwardOf outcome))
  | _, outcome => toPyAnswer outcome

section Settled

variable {Tid Rid σ : Type}

def Phase.settled : Phase Rid → Option BoundAnswer
  | .answer outcome => some (toPyAnswer outcome)
  | .outputs name outcome => some (giveResult (builtOutputs name (forwardOf outcome)))
  | .build name storage rest values => some (giveResult (builtFrom name storage rest values))
  | .dropPins result => some (giveResult result)
  | .give result => some (giveResult result)
  | _ => none

def Pos.settled (M : Module σ) (sh : Process Tid Rid σ) : Pos Rid → Option BoundAnswer
  | .python p => p.settled
  | .waitGil p => p.settled
  | .core r call pc => (committed M call (sh.runtimes r) pc).map (pyAnswer call)

/-- The core call a bound call makes once its inputs are pinned. -/
inductive CoreCall : BoundCall → List HeldInput → Call → Prop
  | metadata {c : BoundCall} {pins : List HeldInput} {call : Call} : c.metadata = some call →
    CoreCall c pins call
  | run {name : Utf8String} {arrs : List NdArray} {pins : List HeldInput} : holdInputs arrs = .ok pins →
    CoreCall (.runMethod name arrs) pins (.runMethod name.val (pins.map HeldInput.desc))

def Phase.Serves (r : Rid) (c : BoundCall) (pins : List HeldInput) : Phase Rid → Prop
  | .outside => False
  | .pin r' name rest => r' = r ∧ ∃ name' arrs i, c = .runMethod name' arrs ∧ name = name'.val ∧
      holdInputs arrs = (traverseFrom (fun _ a => makeHeldInput a) i rest).map (pins ++ ·)
  | .releaseGil r' name => r' = r ∧ ∃ name' arrs, c = .runMethod name' arrs ∧ name = name'.val ∧
      holdInputs arrs = .ok pins
  | _ => True

def Pos.Serves (M : Module σ) (host : Host) (env : Env) (modules : Rid → σ) (sh : Process Tid Rid σ)
    (r : Rid) (c : BoundCall) (pins : List HeldInput) : Pos Rid → Prop
  | .python p => p.Serves r c pins
  | .waitGil p => p.Serves r c pins
  | .core r' call pc => r' = r ∧ CoreCall c pins call ∧
      PcSound M host env (modules r) call (sh.runtimes r) pc

def Phase.idle : Phase Rid → Bool
  | .outside => true
  | _ => false

def Pos.idle : Pos Rid → Bool
  | .python p => p.idle
  | .waitGil p => p.idle
  | .core _ _ _ => false

variable {M : Module σ} {host : Host} {env : Env} {modules : Rid → σ} {sh : Process Tid Rid σ} {r : Rid}

theorem CoreCall.runOn {c : BoundCall} {pins : List HeldInput} {call : Call} (h : CoreCall c pins call)
    (a : RuntimeState σ) : c.runOn M host env a =
      (pyAnswer call (call.runOn M host env a).1, (call.runOn M host env a).2) := by
  cases h with
  | metadata hCall =>
    rw [← bound_metadata_runOn hCall a]
    cases c <;> cases hCall <;> rfl
  | @run name arrs pins hHeld =>
    rw [BoundCall.runOn, bound_runMethod_eq, hHeld, Call.runOn, pyAnswer]
    dsimp only
    rcases (runMethod M host env name.val (pins.map HeldInput.desc)).runOn a with ⟨_ | fs, s'⟩ <;> rfl

theorem serves_afterCore (c : BoundCall) (pins : List HeldInput) (call : Call) (outcome : Outcome) :
    (afterCore call outcome : Pos Rid).Serves M host env modules sh r c pins := by
  cases call <;> trivial

theorem settled_afterCore (call : Call) (outcome : Outcome) :
    (afterCore call outcome : Pos Rid).settled M sh = some (pyAnswer call outcome) := by
  cases call <;> rfl

/-! ## Steps in Python -/

/-- A step in Python leaves the answer as settled as it was, or refuses an input and settles it. -/
theorem pythonStep_settled {p p' : Phase Rid} {pins pins' : List HeldInput} {r : Rid} {c : BoundCall}
    (hServes : p.Serves r c pins) (h : pythonStep p pins = some (p', pins')) :
    p'.Serves r c pins' ∧ (p'.settled = p.settled ∨
      p.settled = none ∧ ∀ (M : Module σ) host env a,
        p'.settled = some (c.runOn M host env a).1 ∧ (c.runOn M host env a).2 = a) := by
  cases p with
  | pin r' name rest =>
    obtain ⟨rfl, name', arrs, i, rfl, rfl, hHeld⟩ := hServes
    cases rest with
    | nil =>
      cases h
      rw [traverseFrom, Except.map, List.append_nil] at hHeld
      exact ⟨⟨rfl, name', arrs, rfl, rfl, hHeld⟩, Or.inl rfl⟩
    | cons obj rest =>
      rw [pythonStep] at h
      rw [traverseFrom] at hHeld
      cases hInput : makeHeldInput obj with
      | error thrown =>
        rw [hInput] at h hHeld
        cases h
        refine ⟨trivial, Or.inr ⟨rfl, fun M host env a => ?_⟩⟩
        rw [BoundCall.runOn, bound_runMethod_eq, hHeld]
        exact ⟨rfl, rfl⟩
      | ok held =>
        rw [hInput] at h hHeld
        cases h
        refine ⟨⟨rfl, name', arrs, i + 1, rfl, rfl, ?_⟩, Or.inl rfl⟩
        rw [hHeld]
        cases traverseFrom (fun _ a => makeHeldInput a) (i + 1) rest with
        | error thrown => rfl
        | ok more => simp [Except.map]
  | outputs name outcome =>
    rw [pythonStep] at h
    cases hForward : forwardOf outcome with
    | error e =>
      rw [hForward] at h
      cases h
      refine ⟨trivial, Or.inl ?_⟩
      rw [Phase.settled, Phase.settled, hForward]
      rfl
    | ok fs =>
      rw [hForward] at h
      cases h
      refine ⟨trivial, Or.inl ?_⟩
      rw [Phase.settled, Phase.settled, hForward, builtOutputs, builtFrom, copyOutAll, List.length_nil]
      cases traverseFrom (fun index v => copyOut fs.storage v name index) 0 fs.views <;> rfl
  | build name storage rest values =>
    cases rest with
    | nil =>
      cases h
      refine ⟨trivial, Or.inl ?_⟩
      rw [Phase.settled, Phase.settled, builtFrom, traverseFrom]
      simp [Except.map, Except.mapError]
    | cons v rest =>
      rw [pythonStep] at h
      cases hValue : copyOut storage v name values.length with
      | error e =>
        rw [hValue] at h
        cases h
        refine ⟨trivial, Or.inl ?_⟩
        rw [Phase.settled, Phase.settled, builtFrom, traverseFrom, hValue]
        rfl
      | ok value =>
        rw [hValue] at h
        cases h
        refine ⟨trivial, Or.inl ?_⟩
        rw [Phase.settled, Phase.settled, builtFrom, builtFrom, traverseFrom, hValue,
          List.length_append, List.length_singleton]
        cases traverseFrom (fun index v => copyOut storage v name index) (values.length + 1) rest with
        | error e => rfl
        | ok more => simp [Except.map, Except.mapError]
  | dropPins result =>
    cases pins with
    | nil =>
      cases h
      exact ⟨trivial, Or.inl rfl⟩
    | cons held pins =>
      cases h
      exact ⟨trivial, Or.inl rfl⟩
  | outside => cases h
  | releaseGil r' name => cases h
  | answer outcome => cases h
  | give result => cases h

theorem Phase.Serves.busy {p : Phase Rid} {c : BoundCall} {pins : List HeldInput}
    (h : p.Serves r c pins) : p.idle = false := by
  cases p with
  | outside => exact h.elim
  | _ => rfl

theorem Pos.Serves.busy {pos : Pos Rid} {c : BoundCall} {pins : List HeldInput}
    (h : pos.Serves M host env modules sh r c pins) : pos.idle = false := by
  cases pos with
  | python p => exact Phase.Serves.busy h
  | waitGil p => exact Phase.Serves.busy h
  | core r' call pc => rfl

theorem Phase.eq_outside_of_idle {p : Phase Rid} (h : p.idle = true) : p = .outside := by
  cases p with
  | outside => rfl
  | _ => cases h

theorem Phase.settled_of_idle {p : Phase Rid} (h : p.idle = true) : p.settled = none := by
  rw [Phase.eq_outside_of_idle h]
  rfl

end Settled

/-! ## What is known of a thread -/

section Threads

variable {Tid Rid σ : Type}

/-- After `n` calls of a program `rest` is left of it. -/
def Left (program : List (Rid × BoundCall)) (n : Nat) (rest : List (Rid × BoundCall)) : Prop :=
  ∃ made : List (Rid × BoundCall), made.length = n ∧ program = made ++ rest

theorem Left.next {program rest : List (Rid × BoundCall)} {n : Nat} {c : Rid × BoundCall}
    (h : Left program n (c :: rest)) : Left program (n + 1) rest := by
  obtain ⟨made, hLength, hProgram⟩ := h
  exact ⟨made ++ [c], by rw [List.length_append, hLength]; rfl, by rw [hProgram, List.append_assoc]; rfl⟩

theorem Left.zip_snoc {program rest : List (Rid × BoundCall)} {results : List BoundAnswer}
    {c : Rid × BoundCall} (h : Left program results.length (c :: rest)) (answer : BoundAnswer) :
    program.zip (results ++ [answer]) = program.zip results ++ [(c, answer)] := by
  obtain ⟨made, hLength, rfl⟩ := h
  have hNow : (made ++ c :: rest).zip (results ++ []) = made.zip results ++ (c :: rest).zip [] :=
    List.zip_append hLength
  rw [List.append_nil, List.zip_nil_right, List.append_nil] at hNow
  rw [List.zip_append hLength, hNow, List.zip_cons_cons, List.zip_nil_right]

theorem Left.zip_calls {program rest : List (Rid × BoundCall)} {results : List BoundAnswer}
    (h : Left program results.length rest) : (program.zip results).map Prod.fst ++ rest = program ∧
      (program.zip results).map Prod.snd = results := by
  obtain ⟨made, hLength, rfl⟩ := h
  have hZip : (made ++ rest).zip (results ++ []) = made.zip results ++ rest.zip [] :=
    List.zip_append hLength
  rw [List.append_nil, List.zip_nil_right, List.append_nil] at hZip
  rw [hZip, List.map_fst_zip hLength.le, List.map_snd_zip hLength.ge]
  exact ⟨rfl, rfl⟩

/-- The call that a thread is in heads what its program still has after its results. -/
structure SessionInv (M : Module σ) (host : Host) (env : Env) (modules : Rid → σ)
    (program : List (Rid × BoundCall)) (t : Tid) (l : PyThread Rid) (sh : Process Tid Rid σ) : Prop where
  locks : PyInv t l sh
  answers : ∀ r, SameAnswers M (sh.runtimes r).module (modules r)
  between : l.pos.idle = true → Left program l.results.length l.todo
  within : l.pos.idle = false → ∃ r c, Left program l.results.length ((r, c) :: l.todo) ∧
    l.pos.Serves M host env modules sh r c l.pins

def PyThread.settled (M : Module σ) (l : PyThread Rid) (sh : Process Tid Rid σ) : List BoundAnswer :=
  l.results ++ (l.pos.settled M sh).toList

/-- The calls of a thread that have taken effect, with what they answer or will answer. -/
def PyThread.events (M : Module σ) (program : List (Rid × BoundCall)) (l : PyThread Rid)
    (sh : Process Tid Rid σ) : List ((Rid × BoundCall) × BoundAnswer) :=
  program.zip (l.settled M sh)

variable {M : Module σ} {host : Host} {env : Env} {modules : Rid → σ} [DecidableEq Rid]
  {same : σ → σ → Prop} {program : List (Rid × BoundCall)} {action : Action} {t u : Tid}
  {l l' m : PyThread Rid} {sh sh' : Process Tid Rid σ}

theorem pyStep_answers (hReads : M.MetadataReads same)
    (hAnswers : ∀ r, SameAnswers M (sh.runtimes r).module (modules r))
    (h : PyStep M host env action t l sh l' sh') (r : Rid) :
    SameAnswers M (sh'.runtimes r).module (modules r) := by
  obtain ⟨hRuntimes, _⟩ | ⟨r', call, pc, pc', rt, _, _, hCore, hRuntimes⟩ := pyStep_mutex h
  · rw [hRuntimes]
    exact hAnswers r
  · rw [hRuntimes]
    obtain rfl | hr := eq_or_ne r r'
    · rw [Function.update_self]
      exact coreStep_answers hReads (hAnswers r) hCore
    · rw [Function.update_of_ne hr]
      exact hAnswers r

/-- The call goes on in the new position, or the thread is back outside with one more result. -/
theorem pyStep_serves (hl : SessionInv M host env modules program t l sh)
    (h : PyStep M host env action t l sh l' sh') :
    (l'.pos.idle = true → Left program l'.results.length l'.todo) ∧
      (l'.pos.idle = false → ∃ r c, Left program l'.results.length ((r, c) :: l'.todo) ∧
        l'.pos.Serves M host env modules sh' r c l'.pins) := by
  obtain ⟨hLocks, hAnswers, hBetween, hWithin⟩ := hl
  obtain ⟨todo, pos, pins, results⟩ := l
  cases h with
  | acquire hPos hFree =>
    cases hPos
    exact ⟨hBetween, hWithin⟩
  | yield hPos =>
    cases hPos
    exact ⟨hBetween, hWithin⟩
  | startMetadata hPos hTodo hCall =>
    cases hPos
    refine ⟨fun hIdle => (by cases hIdle), fun _ => ⟨_, _, ?_, rfl, .metadata hCall, trivial⟩⟩
    have hLeft : Left program results.length todo := hBetween rfl
    rwa [show todo = _ from hTodo] at hLeft
  | @startRun _ _ r name arrs rest _ hPos hTodo =>
    cases hPos
    have hPins : pins = [] := hLocks.pins rfl
    refine ⟨fun hIdle => (by cases hIdle), fun _ => ⟨_, _, ?_, rfl, name, arrs, 0, rfl, rfl, ?_⟩⟩
    · have hLeft : Left program results.length todo := hBetween rfl
      rwa [show todo = _ from hTodo] at hLeft
    · rw [hPins, holdInputs]
      cases traverseFrom (fun _ a => makeHeldInput a) 0 arrs <;> rfl
  | objects hPos hStep =>
    cases hPos
    rename_i p p' pins'
    cases hPhase : p.idle with
    | true =>
      rw [Phase.eq_outside_of_idle hPhase] at hStep
      cases hStep
    | false =>
      obtain ⟨r, c, hProgram, hServes⟩ := hWithin hPhase
      have hServes' := (pythonStep_settled (σ := σ) hServes hStep).1
      refine ⟨fun hIdle => ?_, fun _ => ⟨r, c, hProgram, hServes'⟩⟩
      rw [Pos.idle, hServes'.busy] at hIdle
      cases hIdle
  | giveAnswer hPos =>
    cases hPos
    obtain ⟨r, c, hProgram, _⟩ := hWithin rfl
    refine ⟨fun _ => ?_, fun hBusy => by cases hBusy⟩
    rw [List.length_append, List.length_singleton]
    exact hProgram.next
  | giveOutputs hPos =>
    cases hPos
    obtain ⟨r, c, hProgram, _⟩ := hWithin rfl
    refine ⟨fun _ => ?_, fun hBusy => by cases hBusy⟩
    rw [List.length_append, List.length_singleton]
    exact hProgram.next
  | release hPos =>
    cases hPos
    obtain ⟨r, c, hProgram, rfl, name, arrs, rfl, rfl, hHeld⟩ := hWithin rfl
    exact ⟨fun hIdle => (by cases hIdle), fun _ => ⟨_, _, hProgram, rfl, .run hHeld, trivial⟩⟩
  | @core _ _ r call pc pc' rt _ hPos hStep =>
    cases hPos
    obtain ⟨r', c, hProgram, rfl, hCall, hSound⟩ := hWithin rfl
    refine ⟨fun hIdle => (by cases hIdle), fun _ => ⟨_, c, hProgram, rfl, hCall, ?_⟩⟩
    dsimp only
    rw [Function.update_self]
    exact coreStep_sound hSound (hAnswers _) hStep
  | @leave _ _ r call outcome _ hPos =>
    cases hPos
    obtain ⟨_, c, hProgram, rfl, _⟩ := hWithin rfl
    have hServes : (afterCore call outcome : Pos Rid).Serves M host env modules sh r c pins :=
      serves_afterCore c pins call outcome
    refine ⟨fun hIdle => ?_, fun _ => ⟨_, c, hProgram, hServes⟩⟩
    rw [hServes.busy] at hIdle
    cases hIdle

theorem sessionInv_own (hReads : M.MetadataReads same)
    (hl : SessionInv M host env modules program t l sh) (h : PyStep M host env action t l sh l' sh') :
    SessionInv M host env modules program t l' sh' where
  locks := pyInv_own hl.locks h
  answers := pyStep_answers hReads hl.answers h
  between := (pyStep_serves hl h).1
  within := (pyStep_serves hl h).2

/-- A thread inside a critical section finds the module as it left it. -/
theorem pyStep_undisturbed (hu : u ≠ t) (hl : PyInv t l sh) (hm : PyInv u m sh)
    (h : PyStep M host env action t l sh l' sh') {r : Rid} (hHolds : m.pos.Holds r) :
    (sh'.runtimes r).module = (sh.runtimes r).module := by
  obtain ⟨hRuntimes, _⟩ | ⟨r', call, pc, pc', rt, hPos, _, hCore, hRuntimes⟩ := pyStep_mutex h
  · rw [hRuntimes]
  · rw [hRuntimes]
    obtain rfl | hr := eq_or_ne r r'
    · rw [Function.update_self]
      cases hPc : pc.holds with
      | false => exact coreStep_module hCore hPc
      | true =>
        have hOwn := (hl.mutex r).mpr ⟨call, pc, hPos, hPc⟩
        have hOther := (hm.mutex r).mpr hHolds
        rw [hOwn] at hOther
        exact absurd (Option.some.inj hOther).symm hu
    · rw [Function.update_of_ne hr]

theorem sessionInv_other {programs : Tid → List (Rid × BoundCall)} (hReads : M.MetadataReads same)
    (hu : u ≠ t) (hl : SessionInv M host env modules (programs t) t l sh)
    (hm : SessionInv M host env modules (programs u) u m sh)
    (h : PyStep M host env action t l sh l' sh') :
    SessionInv M host env modules (programs u) u m sh' where
  locks := pyInv_other hu hl.locks hm.locks h
  answers := pyStep_answers hReads hm.answers h
  between := hm.between
  within hBusy := by
    obtain ⟨r, c, hProgram, hServes⟩ := hm.within hBusy
    refine ⟨r, c, hProgram, ?_⟩
    cases hPos : m.pos with
    | python p =>
      rw [hPos] at hServes
      exact hServes
    | waitGil p =>
      rw [hPos] at hServes
      exact hServes
    | core r' call pc =>
      rw [hPos] at hServes
      obtain ⟨rfl, hCall, hSound⟩ := hServes
      refine ⟨rfl, hCall, hSound.congr fun hHolds => ?_⟩
      exact pyStep_undisturbed hu hl.locks hm.locks h ⟨call, pc, hPos, hHolds⟩

omit [DecidableEq Rid] in
theorem settled_congr (h : ∀ r, l.pos.Holds r → (sh'.runtimes r).module = (sh.runtimes r).module) :
    l.settled M sh' = l.settled M sh := by
  rw [PyThread.settled, PyThread.settled]
  cases hPos : l.pos with
  | python p => rfl
  | waitGil p => rfl
  | core r call pc =>
    have hCommitted : committed M call (sh'.runtimes r) pc = committed M call (sh.runtimes r) pc :=
      committed_congr fun hHolds => h r ⟨call, pc, hPos, hHolds⟩
    rw [Pos.settled, Pos.settled, hCommitted]

/-! ## Steps of a thread and their effect -/

/-- A bound call on one of the Runtimes of the process. -/
def applyBound (M : Module σ) (host : Host) (env : Env) (c : Rid × BoundCall)
    (a : Rid → RuntimeState σ) : BoundAnswer × (Rid → RuntimeState σ) :=
  ((c.2.runOn M host env (a c.1)).1, Function.update a c.1 (c.2.runOn M host env (a c.1)).2)

def Matches (same : σ → σ → Prop) (sh : Process Tid Rid σ) (a : Rid → RuntimeState σ) : Prop :=
  ∀ r, same (sh.runtimes r).module (a r).module

theorem matches_update {a : Rid → RuntimeState σ} {r : Rid} {rt : SharedRuntime Tid σ}
    {next : RuntimeState σ} (hMatches : Matches same sh a)
    (hRuntimes : sh'.runtimes = Function.update sh.runtimes r rt)
    (hSame : same rt.module next.module) : Matches same sh' (Function.update a r next) := by
  intro r'
  rw [hRuntimes]
  obtain rfl | hr := eq_or_ne r' r
  · rw [Function.update_self, Function.update_self]
    exact hSame
  · rw [Function.update_of_ne hr, Function.update_of_ne hr]
    exact hMatches r'

theorem coreMove_effect (hReads : M.MetadataReads same) {a : Rid → RuntimeState σ}
    (hMatches : Matches same sh a) {r : Rid} {c : BoundCall} {pins : List HeldInput} {call : Call}
    {pc pc' : Pc} {rt : SharedRuntime Tid σ} (hCall : CoreCall c pins call)
    (hAnswers : SameAnswers M (sh.runtimes r).module (modules r))
    (hSound : PcSound M host env (modules r) call (sh.runtimes r) pc)
    (hStep : coreStep M host env t call (sh.runtimes r) pc = some (pc', rt))
    (hRuntimes : sh'.runtimes = Function.update sh.runtimes r rt) :
    Matches same sh' a ∧ (Pos.core r call pc').settled M sh' = (Pos.core r call pc).settled M sh ∨
    Matches same sh' (applyBound M host env (r, c) a).2 ∧ (Pos.core r call pc).settled M sh = none ∧
      (Pos.core r call pc').settled M sh' = some (applyBound M host env (r, c) a).1 := by
  have hAnswersAt : SameAnswers M (a r).module (modules r) :=
    sameAnswers_of_same hReads (hReads.equivalence.symm (hMatches r)) hAnswers
  have hAfter : sh'.runtimes r = rt := by rw [hRuntimes, Function.update_self]
  simp only [Pos.settled, hAfter]
  rcases coreStep_effect hReads (hMatches r) hAnswersAt hSound hStep with
    ⟨hCommitted, hSame⟩ | ⟨hBefore, hCommit, hSame⟩
  · refine Or.inl ⟨?_, by rw [hCommitted]⟩
    rw [← Function.update_eq_self r a]
    exact matches_update hMatches hRuntimes hSame
  · refine Or.inr ⟨?_, by rw [hBefore]; rfl, ?_⟩
    · rw [applyBound, hCall.runOn (a r)]
      exact matches_update hMatches hRuntimes hSame
    · rw [hCommit, applyBound, hCall.runOn (a r)]
      rfl

/-- A step keeps what is settled, or a call takes effect in it as a whole. -/
theorem pyStep_effect (hReads : M.MetadataReads same) {a : Rid → RuntimeState σ}
    (hMatches : Matches same sh a) (hl : SessionInv M host env modules program t l sh)
    (h : PyStep M host env action t l sh l' sh') :
    Matches same sh' a ∧ l'.settled M sh' = l.settled M sh ∨
    ∃ c, Left program l.results.length (c :: l.todo) ∧ l.settled M sh = l.results ∧
      Matches same sh' (applyBound M host env c a).2 ∧
      l'.settled M sh' = l.results ++ [(applyBound M host env c a).1] := by
  obtain ⟨hLocks, hAnswers, hBetween, hWithin⟩ := hl
  obtain ⟨todo, pos, pins, results⟩ := l
  cases h with
  | acquire hPos hFree =>
    cases hPos
    exact Or.inl ⟨hMatches, rfl⟩
  | yield hPos =>
    cases hPos
    exact Or.inl ⟨hMatches, rfl⟩
  | startMetadata hPos hTodo hCall =>
    cases hPos
    exact Or.inl ⟨hMatches, rfl⟩
  | startRun hPos hTodo =>
    cases hPos
    exact Or.inl ⟨hMatches, rfl⟩
  | @objects _ _ p p' pins' _ hPos hStep =>
    cases hPos
    cases hPhase : p.idle with
    | true =>
      rw [Phase.eq_outside_of_idle hPhase] at hStep
      cases hStep
    | false =>
      obtain ⟨r, c, hProgram, hServes⟩ := hWithin hPhase
      obtain hSettled | ⟨hNone, hRefused⟩ := (pythonStep_settled (σ := σ) hServes hStep).2
      · exact Or.inl ⟨hMatches, by simp only [PyThread.settled, Pos.settled, hSettled]⟩
      · obtain ⟨hAnswer, hState⟩ := hRefused M host env (a r)
        refine Or.inr ⟨(r, c), hProgram, ?_, ?_, ?_⟩
        · simp only [PyThread.settled, Pos.settled, hNone, Option.toList_none, List.append_nil]
        · rw [applyBound, hState, Function.update_eq_self]
          exact hMatches
        · simp only [PyThread.settled, Pos.settled, hAnswer, applyBound, Option.toList_some]
  | giveAnswer hPos =>
    cases hPos
    exact Or.inl ⟨hMatches, by simp [PyThread.settled, Pos.settled, Phase.settled]⟩
  | giveOutputs hPos =>
    cases hPos
    exact Or.inl ⟨hMatches, by simp [PyThread.settled, Pos.settled, Phase.settled, giveResult]⟩
  | release hPos =>
    cases hPos
    exact Or.inl ⟨hMatches, rfl⟩
  | @core _ _ r call pc pc' rt _ hPos hStep =>
    cases hPos
    obtain ⟨r', c, hProgram, rfl, hCall, hSound⟩ := hWithin rfl
    have hRuntimes : ({ sh with runtimes := Function.update sh.runtimes r rt } :
        Process Tid Rid σ).runtimes = Function.update sh.runtimes r rt := rfl
    rcases coreMove_effect hReads hMatches hCall (hAnswers r) hSound hStep hRuntimes with
      ⟨hMatches', hSettled⟩ | ⟨hMatches', hNone, hSettled⟩
    · exact Or.inl ⟨hMatches', by simp only [PyThread.settled, hSettled]⟩
    · refine Or.inr ⟨(r, c), hProgram, ?_, hMatches', ?_⟩
      · simp only [PyThread.settled, hNone, Option.toList_none, List.append_nil]
      · simp only [PyThread.settled, hSettled, Option.toList_some]
  | @leave _ _ r call outcome _ hPos =>
    cases hPos
    exact Or.inl ⟨hMatches, by simp only [PyThread.settled, settled_afterCore]; rfl⟩

/-! ## Histories of the process -/

def pyClient : Client (PyThread Rid) (Rid × BoundCall) BoundAnswer := ⟨PyThread.todo, PyThread.results⟩

theorem pyStep_emits (h : PyThreadStep M host env t l sh l' sh') : ∃ e, pyClient.Emits l l' e := by
  obtain ⟨action, h⟩ := h
  cases h with
  | startMetadata hPos hTodo hCall => exact ⟨some (.invoke _), hTodo, rfl⟩
  | startRun hPos hTodo => exact ⟨some (.invoke _), hTodo, rfl⟩
  | giveAnswer hPos => exact ⟨some (.respond _), rfl, rfl⟩
  | giveOutputs hPos => exact ⟨some (.respond _), rfl, rfl⟩
  | _ => exact ⟨none, rfl, rfl⟩

omit [DecidableEq Rid] in
theorem settled_of_idle (h : l.pos.idle = true) : l.settled M sh = l.results := by
  have hNone : l.pos.settled M sh = none := by
    cases hPos : l.pos with
    | python p =>
      rw [hPos] at h
      exact Phase.settled_of_idle h
    | waitGil p =>
      rw [hPos] at h
      exact Phase.settled_of_idle h
    | core r call pc =>
      rw [hPos] at h
      cases h
  rw [PyThread.settled, hNone, Option.toList_none, List.append_nil]

omit [DecidableEq Rid] in
/-- Beyond the calls that took effect a program has at most the current one before those to come. -/
theorem SessionInv.left (hl : SessionInv M host env modules program t l sh) :
    ∃ pending, Left program (l.settled M sh).length (pending ++ l.todo) := by
  cases hIdle : l.pos.idle with
  | true =>
    rw [settled_of_idle hIdle]
    exact ⟨[], hl.between hIdle⟩
  | false =>
    obtain ⟨r, c, hLeft, _⟩ := hl.within hIdle
    rw [PyThread.settled]
    cases l.pos.settled M sh with
    | none =>
      rw [Option.toList_none, List.append_nil]
      exact ⟨[(r, c)], hLeft⟩
    | some answer =>
      rw [Option.toList_some, List.length_append]
      exact ⟨[], hLeft.next⟩

omit [DecidableEq Rid] in
theorem sessionInv_start (modules : Rid → σ) (programs : Tid → List (Rid × BoundCall)) (t : Tid) :
    SessionInv M host env modules (programs t) t ((processStart modules programs).threads t)
      (processStart modules programs).shared where
  locks := pyInv_start modules programs t
  answers _ := ⟨rfl, fun _ => rfl⟩
  between _ := ⟨[], rfl, rfl⟩
  within hBusy := by cases hBusy

variable [DecidableEq Tid]

/-- The serial objects stand where the threads have taken the modules of the process. -/
def Related (M : Module σ) (host : Host) (env : Env) (same : σ → σ → Prop) (modules : Rid → σ)
    (programs : Tid → List (Rid × BoundCall)) (s : State Tid (PyThread Rid) (Process Tid Rid σ))
    (a : Rid → RuntimeState σ) : Prop :=
  Matches same s.shared a ∧
    ∀ t, SessionInv M host env modules (programs t) t (s.threads t) s.shared

theorem step_related {programs : Tid → List (Rid × BoundCall)} (hReads : M.MetadataReads same)
    {s s' : State Tid (PyThread Rid) (Process Tid Rid σ)} {a : Rid → RuntimeState σ}
    (hRelated : Related M host env same modules programs s a)
    (hStep : Step (PyThreadStep M host env) s s') :
    (Related M host env same modules programs s' a ∧
      ∀ u, (s'.threads u).events M (programs u) s'.shared = (s.threads u).events M (programs u) s.shared) ∨
    ∃ t c, Related M host env same modules programs s' (applyBound M host env c a).2 ∧
      (s'.threads t).events M (programs t) s'.shared =
        (s.threads t).events M (programs t) s.shared ++ [(c, (applyBound M host env c a).1)] ∧
      ∀ u ≠ t, (s'.threads u).events M (programs u) s'.shared =
        (s.threads u).events M (programs u) s.shared := by
  obtain ⟨hMatches, hAll⟩ := hRelated
  have hAll' := hStep.modular (P := fun t => SessionInv M host env modules (programs t) t)
    (fun hl ⟨_, hThread⟩ => sessionInv_own hReads hl hThread)
    (fun hu hl hm ⟨_, hThread⟩ => sessionInv_other hReads hu hl hm hThread) hAll
  obtain ⟨t, action, hThread⟩ := hStep
  rename_i next shared
  have hOthers : ∀ u ≠ t, ((s.set t next shared).threads u).events M (programs u) shared =
      (s.threads u).events M (programs u) s.shared := by
    intro u hu
    rw [State.set_threads_other s hu, PyThread.events, PyThread.events]
    rw [settled_congr fun r hHolds => pyStep_undisturbed hu (hAll t).locks (hAll u).locks hThread hHolds]
  obtain ⟨hMatches', hSettled⟩ | ⟨c, hLeft, hBefore, hMatches', hSettled⟩ :=
    pyStep_effect hReads hMatches (hAll t) hThread
  · refine Or.inl ⟨⟨hMatches', hAll'⟩, fun u => ?_⟩
    obtain rfl | hu := eq_or_ne u t
    · rw [State.set_threads_self, PyThread.events, PyThread.events, State.set_shared, hSettled]
    · exact hOthers u hu
  · refine Or.inr ⟨t, c, ⟨hMatches', hAll'⟩, ?_, hOthers⟩
    rw [State.set_threads_self, PyThread.events, PyThread.events, State.set_shared, hSettled, hBefore]
    exact hLeft.zip_snoc _

end Threads

/-- Whatever Python threads call on whichever Runtimes, and however they interleave, their history is
that of one serial run of the sequential calls: with the same answers, each thread's calls in its
order, and no call before one that had returned when it was made. -/
theorem bound_calls_linearizable {Tid Rid σ : Type} [DecidableEq Tid] [DecidableEq Rid] (M : Module σ)
    (same : σ → σ → Prop) (hReads : M.MetadataReads same) (host : Host) (env : Env) (modules : Rid → σ)
    (programs : Tid → List (Rid × BoundCall)) (s : State Tid (PyThread Rid) (Process Tid Rid σ))
    (hReachable : Reachable (PyThreadStep M host env) (processStart modules programs) s) :
    (∃ h, Observed pyClient (PyThreadStep M host env) (processStart modules programs) h s) ∧
    ∀ h, Observed pyClient (PyThreadStep M host env) (processStart modules programs) h s →
      ∃ order a, Linearizes (applyBound M host env) (fun r => ⟨modules r, false⟩) h order a := by
  have hProgram : ∀ {s a}, Related M host env same modules programs s a → ∀ t, ∃ pending,
      ((s.threads t).events M (programs t) s.shared).map Prod.fst ++ pending ++ (s.threads t).todo =
        programs t := by
    rintro s a ⟨_, hAll⟩ t
    obtain ⟨pending, hLeft⟩ := (hAll t).left
    refine ⟨pending, ?_⟩
    rw [List.append_assoc]
    exact hLeft.zip_calls.1
  have hAnswers : ∀ {s a}, Related M host env same modules programs s a → ∀ t,
      (s.threads t).results <+: ((s.threads t).events M (programs t) s.shared).map Prod.snd := by
    rintro s a ⟨_, hAll⟩ t
    obtain ⟨pending, hLeft⟩ := (hAll t).left
    have hSettled : ((s.threads t).events M (programs t) s.shared).map Prod.snd =
        (s.threads t).settled M s.shared := hLeft.zip_calls.2
    rw [hSettled]
    exact List.prefix_append _ _
  refine ⟨hReachable.observed pyStep_emits, fun h hObserved => ?_⟩
  obtain ⟨order, a, hLinearizes, _⟩ := hObserved.linearizable (applyBound M host env)
    (fun r => ⟨modules r, false⟩) (Related M host env same modules programs)
    (fun s t => (s.threads t).events M (programs t) s.shared)
    ⟨fun r => hReads.equivalence.refl (modules r), sessionInv_start modules programs⟩
    (fun t => List.zip_nil_right) (fun _ => rfl) (step_related hReads) hProgram hAnswers
  exact ⟨order, a, hLinearizes⟩

/-- One thread sums twice, the other one once. -/
def threeSums : Bool → List (Unit × BoundCall)
  | true => [((), .runMethod forwardName [oneByte 5]), ((), .runMethod forwardName [oneByte 9])]
  | false => [((), .runMethod forwardName [oneByte 7])]

/-- Both threads are past the guard before the first one executes; it has begun its second call when
the other one gets its answer. -/
def threeSumsSchedule : List (Bool × Action) :=
  turns true ([.acquire, .start, .touch, .touch, .release] ++ List.replicate 4 .core) ++
    turns false ([.acquire, .start, .touch, .touch, .release] ++ List.replicate 4 .core) ++
    turns true (List.replicate 6 .core ++ [.acquire] ++ List.replicate 6 .touch ++ [.start, .yield]) ++
    turns false (List.replicate 6 .core ++ [.acquire] ++ List.replicate 6 .touch)

def sumAnswer (value : UInt8) : BoundAnswer := .ok (.outputs [.ndarray ⟨DType.uint8, [1], [value], rfl⟩])

def threeSumsHistory : History Bool (Unit × BoundCall) BoundAnswer :=
  [(true, .invoke ((), .runMethod forwardName [oneByte 5])),
    (false, .invoke ((), .runMethod forwardName [oneByte 7])), (true, .respond (sumAnswer 5)),
    (true, .invoke ((), .runMethod forwardName [oneByte 9])), (false, .respond (sumAnswer 7))]

/-- Two calls of `run_method` overlap and are answered, the third one is under way. -/
theorem threeSums_linearizable :
    ∃ s : State Bool (PyThread Unit) (Process Bool Unit Executorch.Summing),
      Observed pyClient (PyThreadStep Executorch.sumModule bareHost none)
        (processStart (fun _ => ⟨false, 0⟩) threeSums) threeSumsHistory s ∧
      ∃ order a, Linearizes (applyBound Executorch.sumModule bareHost none)
        (fun _ => ⟨⟨false, 0⟩, false⟩) threeSumsHistory order a := by
  obtain ⟨s, hRun⟩ : ∃ s, runSchedule Prod.fst
      (pyNext Executorch.sumModule bareHost none) threeSumsSchedule
      (processStart (fun _ => (⟨false, 0⟩ : Executorch.Summing)) threeSums) = some s := ⟨_, rfl⟩
  have hObserved : Observed pyClient (PyThreadStep Executorch.sumModule bareHost none)
      (processStart (fun _ => ⟨false, 0⟩) threeSums) threeSumsHistory s :=
    Observed.of_schedule (fun h => ⟨_, PyThread.next_step h⟩) pyStep_emits .start hRun
  have hReachable := hObserved.reachable
  exact ⟨s, hObserved, (bound_calls_linearizable Executorch.sumModule (· = ·)
    Executorch.sumModule_metadataReads bareHost none (fun _ => ⟨false, 0⟩) threeSums s
    hReachable).2 threeSumsHistory hObserved⟩

end ExecutorchNumpy
