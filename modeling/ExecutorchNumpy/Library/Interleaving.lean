import Mathlib.Data.List.Basic
import Mathlib.Logic.Function.Basic
import Mathlib.Logic.Relation

/-! # Threads that interleave on a shared state

A thread step changes the thread's own part of the state and the shared part.
Invariants are proved thread by thread; a system whose calls have commit points
is equivalent to a serial run of those calls.
-/

namespace Interleaving
set_option autoImplicit false

universe u v w x

structure State (Tid : Type u) (Local : Type v) (Shared : Type w) where
  shared : Shared
  threads : Tid → Local

abbrev ThreadStep (Tid : Type u) (Local : Type v) (Shared : Type w) :=
  Tid → Local → Shared → Local → Shared → Prop

section Runs

variable {Tid : Type u} {Local : Type v} {Shared : Type w} [DecidableEq Tid]

def State.set (s : State Tid Local Shared) (t : Tid) (next : Local) (shared : Shared) :
    State Tid Local Shared :=
  ⟨shared, Function.update s.threads t next⟩

@[simp] theorem State.set_shared (s : State Tid Local Shared) (t : Tid) (next : Local)
    (shared : Shared) : (s.set t next shared).shared = shared := rfl

@[simp] theorem State.set_threads_self (s : State Tid Local Shared) (t : Tid) (next : Local)
    (shared : Shared) : (s.set t next shared).threads t = next := by
  simp [State.set]

@[simp] theorem State.set_threads_other (s : State Tid Local Shared) {t u : Tid} (h : u ≠ t)
    (next : Local) (shared : Shared) : (s.set t next shared).threads u = s.threads u := by
  simp [State.set, h]

inductive Step (step : ThreadStep Tid Local Shared) :
    State Tid Local Shared → State Tid Local Shared → Prop
  | thread {s : State Tid Local Shared} (t : Tid) {next : Local} {shared : Shared} :
      step t (s.threads t) s.shared next shared → Step step s (s.set t next shared)

/-- The state at the end of some finite run from `init`, under some interleaving. -/
abbrev Reachable (step : ThreadStep Tid Local Shared) (init s : State Tid Local Shared) : Prop :=
  Relation.ReflTransGen (Step step) init s

variable {step : ThreadStep Tid Local Shared} {init s : State Tid Local Shared}

theorem Reachable.invariant (Inv : State Tid Local Shared → Prop) (hInit : Inv init)
    (hStep : ∀ {s s'}, Inv s → Step step s s' → Inv s') (h : Reachable step init s) : Inv s := by
  induction h with
  | refl => exact hInit
  | tail _ hLast ih => exact hStep ih hLast

/-- An invariant of single threads: kept by the thread's own steps and not disturbed by others. -/
theorem Step.modular {P : Tid → Local → Shared → Prop} {s s' : State Tid Local Shared}
    (hOwn : ∀ {t l sh l' sh'}, P t l sh → step t l sh l' sh' → P t l' sh')
    (hOther : ∀ {t u l m sh l' sh'}, u ≠ t → P t l sh → P u m sh → step t l sh l' sh' → P u m sh')
    (h : ∀ t, P t (s.threads t) s.shared) (hStep : Step step s s') (u : Tid) :
    P u (s'.threads u) s'.shared := by
  obtain ⟨t, hThread⟩ := hStep
  by_cases hu : u = t
  · subst hu
    rw [State.set_threads_self]
    exact hOwn (h u) hThread
  · rw [State.set_threads_other s hu]
    exact hOther hu (h t) (h u) hThread

theorem Reachable.modular (P : Tid → Local → Shared → Prop)
    (hInit : ∀ t, P t (init.threads t) init.shared)
    (hOwn : ∀ {t l sh l' sh'}, P t l sh → step t l sh l' sh' → P t l' sh')
    (hOther : ∀ {t u l m sh l' sh'}, u ≠ t → P t l sh → P u m sh → step t l sh l' sh' → P u m sh')
    (h : Reachable step init s) (t : Tid) : P t (s.threads t) s.shared :=
  h.invariant (fun s => ∀ t, P t (s.threads t) s.shared) hInit
    (fun hAll hStep => hStep.modular hOwn hOther hAll) t

end Runs

/-! ## Runs by a schedule -/

section Schedules

variable {Tid : Type u} {Local : Type v} {Shared : Type w} {Turn : Type x} [DecidableEq Tid]
  (who : Turn → Tid) (next : Turn → Local → Shared → Option (Local × Shared))

/-- The threads make their moves turn by turn; the run stops at a turn that cannot be taken. -/
def runSchedule : List Turn → State Tid Local Shared → Option (State Tid Local Shared)
  | [], s => some s
  | turn :: rest, s =>
    match next turn (s.threads (who turn)) s.shared with
    | none => none
    | some (moved, shared) => runSchedule rest (s.set (who turn) moved shared)

variable {who next} {step : ThreadStep Tid Local Shared}

theorem runSchedule_append {first second : List Turn} {s middle last : State Tid Local Shared}
    (hFirst : runSchedule who next first s = some middle)
    (hSecond : runSchedule who next second middle = some last) :
    runSchedule who next (first ++ second) s = some last := by
  induction first generalizing s with
  | nil =>
    obtain rfl := Option.some.inj hFirst
    exact hSecond
  | cons turn rest ih =>
    rw [runSchedule] at hFirst
    rw [List.cons_append, runSchedule]
    split at hFirst
    · cases hFirst
    · exact ih hFirst

theorem Reachable.of_schedule
    (hSound : ∀ {turn l sh l' sh'}, next turn l sh = some (l', sh') → step (who turn) l sh l' sh')
    {init s : State Tid Local Shared} {schedule : List Turn}
    (h : runSchedule who next schedule init = some s) : Reachable step init s := by
  induction schedule generalizing init with
  | nil =>
    obtain rfl := Option.some.inj h
    exact .refl
  | cons turn rest ih =>
    rw [runSchedule] at h
    split at h
    · cases h
    · rename_i moved shared hMove
      exact .head (.thread (who turn) (hSound hMove)) (ih h)

end Schedules

/-! ## Serial runs and commit points -/

section Serial

variable {Tid : Type u} {Call Outcome : Type v} {Object : Type w} [DecidableEq Tid]

inductive SerialRun (apply : Call → Object → Outcome × Object) (start : Object) :
    List (Tid × Call × Outcome) → Object → Prop
  | nil : SerialRun apply start [] start
  | snoc {order : List (Tid × Call × Outcome)} {a : Object} (t : Tid) (c : Call) :
      SerialRun apply start order a →
      SerialRun apply start (order ++ [(t, c, (apply c a).1)]) (apply c a).2

def callsOf (t : Tid) (order : List (Tid × Call × Outcome)) : List (Call × Outcome) :=
  order.filterMap fun e => if e.1 = t then some e.2 else none

theorem callsOf_snoc_self (t : Tid) (order : List (Tid × Call × Outcome)) (e : Call × Outcome) :
    callsOf t (order ++ [(t, e)]) = callsOf t order ++ [e] := by
  simp [callsOf]

theorem callsOf_snoc_other {t u : Tid} (h : u ≠ t) (order : List (Tid × Call × Outcome))
    (e : Call × Outcome) : callsOf u (order ++ [(t, e)]) = callsOf u order := by
  simp [callsOf, h.symm]

variable {Local : Type w} {Shared : Type x} {step : ThreadStep Tid Local Shared}
  {init s : State Tid Local Shared} (apply : Call → Object → Outcome × Object) (start : Object)

/-- Every step is either invisible or the commit of one call: then every reachable state has a
serial order in which each thread sees exactly its committed calls. -/
theorem Reachable.serializable (related : State Tid Local Shared → Object → Prop)
    (events : State Tid Local Shared → Tid → List (Call × Outcome))
    (hInit : related init start) (hEvents : ∀ t, events init t = [])
    (hStep : ∀ {s s' a}, related s a → Step step s s' →
      related s' a ∧ (∀ u, events s' u = events s u) ∨
      ∃ t c, related s' (apply c a).2 ∧ events s' t = events s t ++ [(c, (apply c a).1)] ∧
        ∀ u ≠ t, events s' u = events s u)
    (h : Reachable step init s) :
    ∃ order a, SerialRun apply start order a ∧ related s a ∧
      ∀ t : Tid, callsOf t order = events s t := by
  refine h.invariant (fun s => ∃ order a, SerialRun apply start order a ∧ related s a ∧
    ∀ t : Tid, callsOf t order = events s t) ⟨[], start, .nil, hInit, fun t => (hEvents t).symm⟩ ?_
  rintro s s' ⟨order, a, hRun, hRelated, hSeen⟩ hLast
  rcases hStep hRelated hLast with ⟨hRelated', hSame⟩ | ⟨t, c, hRelated', hCommit, hSame⟩
  · exact ⟨order, a, hRun, hRelated', fun u => by rw [hSame, hSeen]⟩
  · refine ⟨_, _, hRun.snoc t c, hRelated', fun u => ?_⟩
    by_cases hu : u = t
    · subst hu
      rw [callsOf_snoc_self, hCommit, hSeen]
    · rw [callsOf_snoc_other hu, hSame u hu, hSeen]

end Serial

end Interleaving
