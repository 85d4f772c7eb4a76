import ExecutorchNumpy.LinearizableCalls
import ExecutorchNumpy.Library.FairRuns
import Mathlib.Data.Prod.Lex

/-! # Every bound call returns

The steps of a call go down from its start to its answer, whatever the program
returns and wherever it fails. What is left for a run to do for ever is to pass the
GIL around, and under a fair scheduler that happens only between calls.
-/

namespace ExecutorchNumpy
set_option autoImplicit false

open Executorch (Module)
open Interleaving

/-! ## How far a call has got -/

section Distance

variable {Tid Rid σ : Type}

/-- The steps to the end of the core call, with the outputs still to be copied. -/
def Pc.distance : Pc → Nat ×ₗ Nat
  | .lockMetadata => toLex (18, 0)
  | .readMetadata => toLex (17, 0)
  | .unlockMetadata _ => toLex (16, 0)
  | .registration => toLex (15, 0)
  | .getenv => toLex (14, 0)
  | .stat _ => toLex (13, 0)
  | .convert => toLex (12, 0)
  | .lockExecute _ => toLex (11, 0)
  | .execute _ => toLex (10, 0)
  | .copyOut rest _ => toLex (9, rest.length)
  | .unlockExecute _ => toLex (8, 0)
  | .finished _ => toLex (7, 0)

def Phase.distance (pins : List HeldInput) : Phase Rid → Nat ×ₗ Nat
  | .outside => toLex (0, 0)
  | .pin _ _ rest => toLex (20, rest.length)
  | .releaseGil _ _ => toLex (19, 0)
  | .outputs _ _ => toLex (6, 0)
  | .build _ _ rest _ => toLex (5, rest.length)
  | .dropPins _ => toLex (4, pins.length)
  | .give _ => toLex (3, 0)
  | .answer _ => toLex (3, 0)

def Pos.distance (pins : List HeldInput) : Pos Rid → Nat ×ₗ Nat
  | .python p => p.distance pins
  | .waitGil p => p.distance pins
  | .core _ _ pc => pc.distance

def PyThread.distance (l : PyThread Rid) : Nat ×ₗ (Nat ×ₗ Nat) :=
  toLex (l.todo.length, l.pos.distance l.pins)

theorem closer_left {a b c d : Nat} (h : a < c) : toLex (a, b) < toLex (c, d) :=
  Prod.Lex.toLex_lt_toLex.mpr (Or.inl h)

theorem closer_right {a b d : Nat} (h : b < d) : toLex (a, b) < toLex (a, d) :=
  Prod.Lex.toLex_lt_toLex.mpr (Or.inr ⟨rfl, h⟩)

theorem afterMetadata_closer (call : Call) (outcome : Outcome) :
    (afterMetadata call outcome).distance < toLex (16, 0) := by
  rcases afterMetadata_cases call outcome with h | h | ⟨outcome', h⟩ <;> rw [h] <;>
    exact closer_left (by omega)

variable {M : Module σ} {host : Host} {env : Env} {t : Tid}

theorem coreStep_closer {call : Call} {pc pc' : Pc} {sh sh' : SharedRuntime Tid σ}
    (h : coreStep M host env t call sh pc = some (pc', sh')) : pc'.distance < pc.distance := by
  cases coreStep_cases h with
  | unlockMetadata outcome => exact afterMetadata_closer call outcome
  | copy hView => exact closer_right (Nat.lt_succ_self _)
  | _ => exact closer_left (by omega)

theorem pythonStep_closer {p p' : Phase Rid} {pins pins' : List HeldInput}
    (h : pythonStep p pins = some (p', pins')) : p'.distance pins' < p.distance pins := by
  cases p with
  | pin r name rest =>
    cases rest with
    | nil =>
      cases h
      exact closer_left (by omega)
    | cons a rest =>
      rw [pythonStep] at h
      split at h <;> cases h
      · exact closer_left (by omega)
      · exact closer_right (Nat.lt_succ_self _)
  | outputs name outcome =>
    rw [pythonStep] at h
    split at h <;> cases h <;> exact closer_left (by omega)
  | build name storage rest values =>
    cases rest with
    | nil =>
      cases h
      exact closer_left (by omega)
    | cons v rest =>
      rw [pythonStep] at h
      split at h <;> cases h
      · exact closer_left (by omega)
      · exact closer_right (Nat.lt_succ_self _)
  | dropPins result =>
    cases pins with
    | nil =>
      cases h
      exact closer_left (by omega)
    | cons held pins =>
      cases h
      exact closer_right (Nat.lt_succ_self _)
  | outside => cases h
  | releaseGil r name => cases h
  | answer outcome => cases h
  | give result => cases h

theorem afterCore_closer (pins : List HeldInput) (call : Call) (outcome : Outcome) :
    (afterCore call outcome : Pos Rid).distance pins < toLex (7, 0) := by
  cases call <;> exact closer_left (by omega)

/-- Every step but those that pass the GIL around. -/
def Action.works (action : Action) : Prop := action ≠ .yield ∧ action ≠ .acquire

theorem distance_of_pos {todo : List (Rid × BoundCall)} {results results' : List (Except PyException PyAnswer)}
    {pos pos' : Pos Rid} {pins pins' : List HeldInput} (h : pos'.distance pins' < pos.distance pins) :
    PyThread.distance ⟨todo, pos', pins', results'⟩ < PyThread.distance ⟨todo, pos, pins, results⟩ :=
  Prod.Lex.toLex_lt_toLex.mpr (Or.inr ⟨rfl, h⟩)

theorem distance_of_todo {c : Rid × BoundCall} {todo todo' : List (Rid × BoundCall)}
    {results results' : List (Except PyException PyAnswer)} {pos pos' : Pos Rid}
    {pins pins' : List HeldInput} (h : todo = c :: todo') :
    PyThread.distance ⟨todo', pos', pins', results'⟩ < PyThread.distance ⟨todo, pos, pins, results⟩ := by
  subst h
  exact Prod.Lex.toLex_lt_toLex.mpr (Or.inl (Nat.lt_succ_self _))

variable [DecidableEq Rid] {action : Action} {l l' : PyThread Rid} {sh sh' : Process Tid Rid σ}

theorem pyStep_closer (h : PyStep M host env action t l sh l' sh') :
    (action.works → l'.distance < l.distance) ∧ l'.distance ≤ l.distance := by
  have hClose : ∀ {a b : Nat ×ₗ (Nat ×ₗ Nat)}, a < b → (action.works → a < b) ∧ a ≤ b :=
    fun hLess => ⟨fun _ => hLess, hLess.le⟩
  obtain ⟨todo, pos, pins, results⟩ := l
  cases h with
  | acquire hPos hFree =>
    cases hPos
    exact ⟨fun hWorks => absurd rfl hWorks.2, le_rfl⟩
  | yield hPos =>
    cases hPos
    exact ⟨fun hWorks => absurd rfl hWorks.1, le_rfl⟩
  | startMetadata hPos hTodo hCall => exact hClose (distance_of_todo hTodo)
  | startRun hPos hTodo => exact hClose (distance_of_todo hTodo)
  | objects hPos hStep =>
    cases hPos
    exact hClose (distance_of_pos (pythonStep_closer hStep))
  | giveAnswer hPos =>
    cases hPos
    exact hClose (distance_of_pos (closer_left (by omega)))
  | giveOutputs hPos =>
    cases hPos
    exact hClose (distance_of_pos (closer_left (by omega)))
  | release hPos =>
    cases hPos
    exact hClose (distance_of_pos (closer_left (by omega)))
  | core hPos hStep =>
    cases hPos
    exact hClose (distance_of_pos (coreStep_closer hStep))
  | leave hPos =>
    cases hPos
    exact hClose (distance_of_pos (afterCore_closer pins _ _))

end Distance

/-! ## Who can go on -/

section Progress

variable {Tid Rid σ : Type}

/-- A thread has nothing to do but to take and give the GIL. -/
def PyThread.Done (l : PyThread Rid) : Prop :=
  l.todo = [] ∧ (l.pos = .python .outside ∨ l.pos = .waitGil .outside)

variable [DecidableEq Rid] {M : Module σ} {host : Host} {env : Env} {t : Tid}
  {s : State Tid (PyThread Rid) (Process Tid Rid σ)}

theorem works_of_python {p : Phase Rid} (h : (s.threads t).pos = .python p)
    (hBusy : p ≠ .outside ∨ (s.threads t).todo ≠ []) :
    Enabled (PyStep M host env) Action.works s t := by
  have hTouch : Action.touch.works := ⟨by decide, by decide⟩
  have hStart : Action.start.works := ⟨by decide, by decide⟩
  cases hStep : pythonStep p (s.threads t).pins with
  | some next => exact ⟨_, _, _, hTouch, .objects h hStep⟩
  | none =>
    obtain rfl | ⟨r, name, rfl⟩ | ⟨outcome, rfl⟩ | ⟨result, rfl⟩ := pythonStep_enabled hStep
    · obtain ⟨⟨r, c⟩, rest, hTodo⟩ := List.exists_cons_of_ne_nil (hBusy.resolve_left (· rfl))
      cases hCall : c.metadata with
      | some call => exact ⟨_, _, _, hStart, .startMetadata h hTodo hCall⟩
      | none =>
        cases c with
        | runMethod name arrs => exact ⟨_, _, _, hStart, .startRun h hTodo⟩
        | _ => cases hCall
    · exact ⟨_, _, _, ⟨by decide, by decide⟩, .release h⟩
    · exact ⟨_, _, _, hTouch, .giveAnswer h⟩
    · exact ⟨_, _, _, hTouch, .giveOutputs h⟩

/-- The thread in the core goes on, or the one that holds the mutex it waits for. -/
theorem works_of_core (hInv : ∀ t, PyInv t (s.threads t) s.shared) {r : Rid} {call : Call} {pc : Pc}
    (h : (s.threads t).pos = .core r call pc) : ∃ u, Enabled (PyStep M host env) Action.works s u := by
  have hCore : Action.core.works := ⟨by decide, by decide⟩
  cases hStep : coreStep M host env t call (s.shared.runtimes r) pc with
  | some next => exact ⟨t, _, _, _, hCore, .core h hStep⟩
  | none =>
    obtain ⟨outcome, rfl⟩ | ⟨_, hTaken⟩ := coreStep_blocked hStep
    · exact ⟨t, _, _, _, hCore, .leave h⟩
    · obtain ⟨u, hHolder⟩ := Option.ne_none_iff_exists'.mp hTaken
      obtain ⟨call', pc', hPos, hHolds⟩ := ((hInv u).mutex r).mp hHolder
      cases hStep' : coreStep M host env u call' (s.shared.runtimes r) pc' with
      | some next => exact ⟨u, _, _, _, hCore, .core hPos hStep'⟩
      | none =>
        obtain ⟨outcome, rfl⟩ | ⟨hWaits, _⟩ := coreStep_blocked hStep'
        · cases hHolds
        · rw [Pc.not_waits_of_holds hHolds] at hWaits
          cases hWaits

/-- When no thread can work, each one is done or waits for the GIL. -/
theorem done_or_waits (hInv : ∀ t, PyInv t (s.threads t) s.shared)
    (hStuck : ∀ t, ¬ Enabled (PyStep M host env) Action.works s t) (t : Tid) :
    (s.threads t).Done ∨ ∃ p, (s.threads t).pos = .waitGil p := by
  cases hPos : (s.threads t).pos with
  | waitGil p => exact Or.inr ⟨p, rfl⟩
  | core r call pc =>
    obtain ⟨u, hWorks⟩ := works_of_core hInv hPos
    exact absurd hWorks (hStuck u)
  | python p =>
    have hIdle : ¬ (p ≠ .outside ∨ (s.threads t).todo ≠ []) :=
      fun hBusy => hStuck t (works_of_python hPos hBusy)
    push Not at hIdle
    obtain ⟨rfl, hTodo⟩ := hIdle
    exact Or.inl ⟨hTodo, Or.inl hPos⟩

variable {l l' : PyThread Rid} {sh sh' : Process Tid Rid σ} {action : Action}

/-- A step that is no work takes the GIL for the thread that waits for it, or gives it away. -/
theorem passes_gil (h : PyStep M host env action t l sh l' sh') (hIdle : ¬ action.works) :
    action = .acquire ∧ sh.gil = none ∧ (∃ p, l.pos = .waitGil p ∧ l' = { l with pos := .python p }) ∨
      sh'.gil = none ∧ ∃ p, l.pos = .python p := by
  cases h with
  | acquire hPos hFree => exact Or.inl ⟨rfl, hFree, _, hPos, rfl⟩
  | yield hPos => exact Or.inr ⟨rfl, _, hPos⟩
  | _ => exact absurd ⟨by decide, by decide⟩ hIdle

end Progress

/-! ## Fair runs -/

section Fair

variable {Tid Rid σ : Type} [DecidableEq Tid] [DecidableEq Rid] {M : Module σ} {host : Host} {env : Env}
  {modules : Rid → σ} {programs : Tid → List (Rid × BoundCall)}
  (run : EndlessRun (PyStep M host env) (processStart modules programs))

theorem run_locks (n : Nat) (t : Tid) : PyInv t ((run.state n).threads t) (run.state n).shared :=
  (run.reachable n).modular PyInv (pyInv_start modules programs)
    (fun hl ⟨_, hStep⟩ => pyInv_own hl hStep) (fun hu hl hm ⟨_, hStep⟩ => pyInv_other hu hl hm hStep) t

/-- After the last work a thread that still has some keeps waiting for the GIL. -/
theorem keeps_waiting {N : Nat} (hEnds : ∀ n, N ≤ n → ¬ (run.label n).works ∧
      ∀ t, ¬ Enabled (PyStep M host env) Action.works (run.state n) t)
    {t : Tid} {p : Phase Rid} {n : Nat} (hn : N ≤ n) (hPos : ((run.state n).threads t).pos = .waitGil p)
    (hLeft : p ≠ .outside ∨ ((run.state n).threads t).todo ≠ []) {m : Nat} (hm : n ≤ m) :
    (run.state m).threads t = (run.state n).threads t ∧
      ¬ (run.thread m = t ∧ run.label m = .acquire) := by
  -- to take the GIL would be to have work that can be done
  have hNever : ∀ m, n ≤ m → (run.state m).threads t = (run.state n).threads t →
      run.thread m ≠ t := by
    intro m hm hSame hThread
    obtain ⟨next, shared, hNext, hStep⟩ := run.steps m
    rw [hThread] at hStep hNext
    obtain ⟨_, _, p', hPos', rfl⟩ | ⟨_, p', hPos'⟩ := passes_gil hStep (hEnds m (hn.trans hm)).1
    · rw [hSame, hPos] at hPos'
      cases hPos'
      refine (hEnds (m + 1) (by omega)).2 t (works_of_python (p := p) ?_ ?_)
      · rw [hNext, State.set_threads_self]
      · rw [hNext, State.set_threads_self, hSame]
        exact hLeft
    · rw [hSame, hPos] at hPos'
      cases hPos'
  have hSame : (run.state m).threads t = (run.state n).threads t := by
    induction m, hm using Nat.le_induction with
    | base => rfl
    | succ m hm ih =>
      obtain ⟨next, shared, hNext, _⟩ := run.steps m
      rw [hNext, State.set_threads_other _ (hNever m hm ih).symm, ih]
  exact ⟨hSame, fun hAcquire => hNever m hm hSame hAcquire.1⟩

/-- Someone gives the GIL away, or takes it, at every step that is no work. -/
theorem gil_free_again {N : Nat} (hEnds : ∀ n, N ≤ n → ¬ (run.label n).works) {m : Nat} (hm : N ≤ m) :
    (run.state m).shared.gil = none ∨ (run.state (m + 1)).shared.gil = none := by
  obtain ⟨next, shared, hNext, hStep⟩ := run.steps m
  obtain ⟨_, hFree, _⟩ | ⟨hFree, _⟩ := passes_gil hStep (hEnds m hm)
  · exact Or.inl hFree
  · rw [hNext]
    exact Or.inr hFree

theorem all_done [Finite Tid] (hWork : run.StronglyFair Action.works)
    (hGil : run.StronglyFair (· = .acquire)) :
    ∃ N, ∀ n, N ≤ n → ∀ t, ((run.state n).threads t).Done := by
  obtain ⟨N, hEnds⟩ := run.work_disabled PyThread.distance Action.works hWork
    (fun hStep => (pyStep_closer hStep).1) (fun hStep => (pyStep_closer hStep).2)
  refine ⟨N, fun n hn t => ?_⟩
  obtain hDone | ⟨p, hPos⟩ := done_or_waits (run_locks run n) (hEnds n hn).2 t
  · exact hDone
  · by_contra hNot
    have hLeft : p ≠ .outside ∨ ((run.state n).threads t).todo ≠ [] := by
      by_contra hNothing
      push Not at hNothing
      obtain ⟨rfl, hTodo⟩ := hNothing
      exact hNot ⟨hTodo, Or.inr hPos⟩
    have hAgain : ∀ k, ∃ m, k ≤ m ∧ Enabled (PyStep M host env) (· = .acquire) (run.state m) t := by
      intro k
      have hWaits : ∀ m, n ≤ m → ((run.state m).threads t).pos = .waitGil p := fun m hm => by
        rw [(keeps_waiting run hEnds hn hPos hLeft hm).1, hPos]
      rcases gil_free_again run (fun n hn => (hEnds n hn).1) (hn.trans (le_max_left n k)) with
        hFree | hFree
      · exact ⟨max n k, le_max_right n k, _, _, _, rfl, .acquire (hWaits _ (le_max_left n k)) hFree⟩
      · refine ⟨max n k + 1, by omega, _, _, _, rfl, .acquire (hWaits _ ?_) hFree⟩
        omega
    obtain ⟨m, hm, hThread, hLabel⟩ := hGil t hAgain n
    exact (keeps_waiting run hEnds hn hPos hLeft hm).2 ⟨hThread, hLabel⟩

/-- A run in which all calls are over has the answers of a serial run of all of them. -/
theorem serial_of_done {same : σ → σ → Prop} (hReads : M.MetadataReads same) {n : Nat}
    (hDone : ∀ t, ((run.state n).threads t).Done) :
    ∃ order a, SerialRun (applyBound M host env) (fun r => ⟨modules r, false⟩) order a ∧
      ∀ t : Tid, callsOf t order = (programs t).zip ((run.state n).threads t).results ∧
        ((run.state n).threads t).results.length = (programs t).length := by
  obtain ⟨order, a, hSerial, ⟨_, hInv⟩, hSeen⟩ := (run.reachable n).serializable (applyBound M host env)
    (fun r => ⟨modules r, false⟩) (Related M host env same modules programs)
    (fun s t => (s.threads t).events M (programs t) s.shared)
    ⟨fun r => hReads.equivalence.refl (modules r), sessionInv_start modules programs⟩
    (fun t => List.zip_nil_right) (step_related hReads)
  refine ⟨order, a, hSerial, fun t => ?_⟩
  obtain ⟨hTodo, hPos⟩ := hDone t
  have hIdle : ((run.state n).threads t).pos.idle = true := by
    rcases hPos with hPos | hPos <;> rw [hPos] <;> rfl
  obtain ⟨made, hLength, hProgram⟩ := (hInv t).between hIdle
  rw [hTodo, List.append_nil] at hProgram
  rw [hSeen, PyThread.events, settled_of_idle hIdle, hProgram]
  exact ⟨rfl, hLength.symm⟩

end Fair

/-- When work and the GIL are scheduled fairly, all calls of all threads are over at some time, and
what they have answered is what one serial run of all of them answers. -/
theorem every_call_returns {Tid Rid σ : Type} [DecidableEq Tid] [Finite Tid] [DecidableEq Rid]
    (M : Module σ) (same : σ → σ → Prop) (hReads : M.MetadataReads same) (host : Host) (env : Env)
    (modules : Rid → σ) (programs : Tid → List (Rid × BoundCall))
    (run : EndlessRun (PyStep M host env) (processStart modules programs))
    (hWork : run.StronglyFair Action.works) (hGil : run.StronglyFair (· = .acquire)) :
    ∃ N, ∀ n, N ≤ n → (∀ t, ((run.state n).threads t).Done) ∧
      ∃ order a, SerialRun (applyBound M host env) (fun r => ⟨modules r, false⟩) order a ∧
        ∀ t : Tid, callsOf t order = (programs t).zip ((run.state n).threads t).results ∧
          ((run.state n).threads t).results.length = (programs t).length := by
  obtain ⟨N, hDone⟩ := all_done run hWork hGil
  exact ⟨N, fun n hn => ⟨hDone n hn, serial_of_done run hReads (hDone n hn)⟩⟩

/-! ## Two threads that contend -/

section Rest

variable {Tid Rid σ : Type} [DecidableEq Rid] {M : Module σ} {host : Host} {env : Env} {t : Tid}

/-- A thread that is done only passes the GIL on. -/
theorem done_step {l l' : PyThread Rid} {sh sh' : Process Tid Rid σ} {action : Action} (hDone : l.Done)
    (h : PyStep M host env action t l sh l' sh') : ¬ action.works ∧ l'.Done := by
  obtain ⟨todo, pos, pins, results⟩ := l
  obtain ⟨hTodo, hPos⟩ := hDone
  have hPython : ∀ {p : Phase Rid}, pos = .python p → p = .outside := by
    rintro p rfl
    obtain hOutside | hOutside := hPos <;> cases hOutside
    rfl
  have hCore : ∀ {r : Rid} {call : Call} {pc : Pc}, pos ≠ .core r call pc := by
    rintro r call pc rfl
    obtain hOutside | hOutside := hPos <;> cases hOutside
  cases h with
  | acquire hPos' hFree =>
    obtain rfl := hPos'
    obtain hOutside | hOutside := hPos <;> cases hOutside
    exact ⟨fun hWorks => hWorks.2 rfl, hTodo, Or.inl rfl⟩
  | yield hPos' =>
    obtain rfl := hPython hPos'
    exact ⟨fun hWorks => hWorks.1 rfl, hTodo, Or.inr rfl⟩
  | startMetadata hPos' hTodo' hCall =>
    rw [hTodo] at hTodo'
    cases hTodo'
  | startRun hPos' hTodo' =>
    rw [hTodo] at hTodo'
    cases hTodo'
  | objects hPos' hStep =>
    obtain rfl := hPython hPos'
    cases hStep
  | giveAnswer hPos' => cases hPython hPos'
  | giveOutputs hPos' => cases hPython hPos'
  | release hPos' => cases hPython hPos'
  | core hPos' hStep => exact absurd hPos' hCore
  | leave hPos' => exact absurd hPos' hCore

variable [DecidableEq Tid]

theorem done_stays {init : State Tid (PyThread Rid) (Process Tid Rid σ)}
    (run : EndlessRun (PyStep M host env) init) {n m : Nat} (hm : n ≤ m)
    (hDone : ∀ t, ((run.state n).threads t).Done) : ∀ t, ((run.state m).threads t).Done := by
  induction m, hm using Nat.le_induction with
  | base => exact hDone
  | succ m _ ih =>
    intro t
    obtain ⟨next, shared, hNext, hStep⟩ := run.steps m
    rw [hNext]
    obtain rfl | ht := eq_or_ne t (run.thread m)
    · rw [State.set_threads_self]
      exact (done_step (ih _) hStep).2
    · rw [State.set_threads_other _ ht]
      exact ih t

theorem fair_of_done {init : State Tid (PyThread Rid) (Process Tid Rid σ)}
    (run : EndlessRun (PyStep M host env) init) {n : Nat}
    (hDone : ∀ t, ((run.state n).threads t).Done) : run.StronglyFair Action.works := by
  intro t hAgain
  obtain ⟨m, hm, label, next, shared, hWorks, hStep⟩ := hAgain n
  exact absurd hWorks (done_step (done_stays run hm hDone t) hStep).1

/-- Taking the GIL and giving it away again changes nothing. -/
theorem round_of_idle {s : State Tid (PyThread Rid) (Process Tid Rid σ)} (hFree : s.shared.gil = none)
    (hIdle : (s.threads t).pos = .waitGil .outside) :
    runSchedule Prod.fst (pyNext M host env) [(t, .acquire), (t, .yield)] s =
      some s := by
  have hBack : { s.threads t with pos := .waitGil .outside } = s.threads t := by rw [← hIdle]
  have hGil : { s.shared with gil := none } = s.shared := by rw [← hFree]
  simp only [runSchedule, pyNext, PyThread.next, hIdle, hFree, Option.isNone_none, if_true,
    State.set_threads_self, State.set_shared, hGil, hBack]
  simp [State.set]

end Rest

/-- After the contention for the mutex both calls go on to their answers. -/
def contentionStem : List (Bool × Action) :=
  contention ++ turns true (List.replicate 5 .core) ++
    turns false (List.replicate 4 .core ++ [.touch, .yield]) ++
    turns true ([.acquire] ++ List.replicate 6 .touch ++ [.yield])

def sumNext : Bool × Action → PyThread Unit → Process Bool Unit Executorch.Summing →
    Option (PyThread Unit × Process Bool Unit Executorch.Summing) :=
  pyNext Executorch.sumModule bareHost none

def sumStart : State Bool (PyThread Unit) (Process Bool Unit Executorch.Summing) :=
  processStart (fun _ => ⟨false, 0⟩) sumAndNames

theorem contentionStem_run : ∃ s, runSchedule Prod.fst sumNext contentionStem sumStart = some s ∧
    s.shared.gil = none ∧ ∀ t, (s.threads t).todo = [] ∧ (s.threads t).pos = .waitGil .outside := by
  refine ⟨_, rfl, rfl, ?_⟩
  intro t
  cases t <;> exact ⟨rfl, rfl⟩

theorem contention_run : ∃ s, runSchedule Prod.fst sumNext contention sumStart = some s ∧
    s.shared.gil = some false ∧ (s.shared.runtimes ()).mutex = some true :=
  ⟨_, rfl, rfl, rfl⟩

/-- A run in which one thread has waited for the mutex with the GIL and the other one for the GIL,
and what both have been answered. -/
theorem contention_returns :
    ∃ run : EndlessRun (PyStep Executorch.sumModule bareHost none) sumStart,
      (∃ n, (run.state n).shared.gil = some false ∧
        ((run.state n).shared.runtimes ()).mutex = some true) ∧
      ∃ N, ∀ n, N ≤ n → (∀ t, ((run.state n).threads t).Done) ∧
        ∃ order a, SerialRun (applyBound Executorch.sumModule bareHost none)
            (fun _ => ⟨⟨false, 0⟩, false⟩) order a ∧
          ∀ t : Bool, callsOf t order = (sumAndNames t).zip ((run.state n).threads t).results ∧
            ((run.state n).threads t).results.length = (sumAndNames t).length := by
  obtain ⟨s, hStem, hGil, hDone⟩ := contentionStem_run
  obtain ⟨s', hContention, hContended⟩ := contention_run
  have hCycle : runSchedule Prod.fst sumNext
      [(true, .acquire), (true, .yield), (false, .acquire), (false, .yield)] s = some s :=
    runSchedule_append (round_of_idle hGil (hDone true).2) (round_of_idle hGil (hDone false).2)
  have hSound : ∀ {turn l sh l' sh'}, sumNext turn l sh = some (l', sh') →
      PyStep Executorch.sumModule bareHost none turn.2 turn.1 l sh l' sh' := PyThread.next_step
  have hEnd := EndlessRun.lasso_state hSound hStem hCycle List.prefix_rfl hStem
  have hMiddle := EndlessRun.lasso_state hSound hStem hCycle
    ((List.prefix_append contention _).trans ((List.prefix_append _ _).trans (List.prefix_append _ _)))
    hContention
  have hLabels : ∀ n, (EndlessRun.lasso hSound hStem hCycle).thread n =
      (lassoTurn contentionStem (true, .acquire) [(true, .yield), (false, .acquire), (false, .yield)] n).1 ∧
      (EndlessRun.lasso hSound hStem hCycle).label n =
      (lassoTurn contentionStem (true, .acquire) [(true, .yield), (false, .acquire), (false, .yield)] n).2 :=
    fun n => ⟨rfl, rfl⟩
  generalize EndlessRun.lasso hSound hStem hCycle = run at hEnd hMiddle hLabels
  have hRest : ∀ t, ((run.state contentionStem.length).threads t).Done := by
    intro t
    rw [hEnd]
    exact ⟨(hDone t).1, Or.inr (hDone t).2⟩
  have hFair : run.StronglyFair (· = .acquire) := by
    intro t _ n
    refine ⟨contentionStem.length + (4 * n + if t then 0 else 2), by omega, ?_⟩
    rw [(hLabels _).1, (hLabels _).2, lassoTurn_cycle, cycleTurn]
    cases t <;> simp
  refine ⟨run, ⟨_, hMiddle ▸ hContended⟩, ?_⟩
  exact every_call_returns Executorch.sumModule (· = ·) Executorch.sumModule_metadataReads bareHost none
    (fun _ => ⟨false, 0⟩) sumAndNames run (fair_of_done run hRest) hFair

end ExecutorchNumpy
