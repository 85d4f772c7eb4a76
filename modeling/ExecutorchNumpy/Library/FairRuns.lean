import ExecutorchNumpy.Library.Interleaving
import Mathlib.Data.DFinsupp.WellFounded
import Mathlib.Data.Fintype.Order
import Mathlib.Data.List.GetD

/-! # Endless runs of interleaving threads

Steps carry a label that says which kind of step they are. Work that goes down in a
well-founded order ends in every run of finitely many threads, and a fair run stops
offering it.
-/

namespace Interleaving
set_option autoImplicit false

universe u v w x y

variable {Tid : Type u} {Local : Type v} {Shared : Type w} {Label : Type x} [DecidableEq Tid]

structure EndlessRun (step : Label → ThreadStep Tid Local Shared) (init : State Tid Local Shared) where
  state : Nat → State Tid Local Shared
  thread : Nat → Tid
  label : Nat → Label
  start : state 0 = init
  steps : ∀ n, ∃ next shared, state (n + 1) = (state n).set (thread n) next shared ∧
    step (label n) (thread n) ((state n).threads (thread n)) (state n).shared next shared

def Enabled (step : Label → ThreadStep Tid Local Shared) (kind : Label → Prop)
    (s : State Tid Local Shared) (t : Tid) : Prop :=
  ∃ label next shared, kind label ∧ step label t (s.threads t) s.shared next shared

namespace EndlessRun

variable {step : Label → ThreadStep Tid Local Shared} {init : State Tid Local Shared}
  (run : EndlessRun step init)

/-- A thread that can make a step of the kind again and again makes one again and again. -/
def StronglyFair (kind : Label → Prop) : Prop :=
  ∀ t, (∀ n, ∃ m, n ≤ m ∧ Enabled step kind (run.state m) t) →
    ∀ n, ∃ m, n ≤ m ∧ run.thread m = t ∧ kind (run.label m)

theorem reachable (n : Nat) :
    Reachable (fun t l sh l' sh' => ∃ label, step label t l sh l' sh') init (run.state n) := by
  induction n with
  | zero => rw [run.start]
  | succ n ih =>
    obtain ⟨next, shared, hNext, hStep⟩ := run.steps n
    rw [hNext]
    exact ih.tail (.thread (run.thread n) ⟨run.label n, hStep⟩)

section Measure

variable {α : Type y} [Preorder α] [WellFoundedLT α] [Finite Tid] (measure : Local → α)
  (work : Label → Prop)

/-- Work that lowers the measure of its thread, which other steps do not raise, comes to an end. -/
theorem work_ends
    (hWork : ∀ {label t l sh l' sh'}, step label t l sh l' sh' → work label → measure l' < measure l)
    (hOther : ∀ {label t l sh l' sh'}, step label t l sh l' sh' → measure l' ≤ measure l) :
    ∃ N, ∀ n, N ≤ n → ¬ work (run.label n) := by
  let height : Nat → Tid → α := fun n t => measure ((run.state n).threads t)
  have hDown : ∀ n, height (n + 1) ≤ height n := by
    intro n t
    obtain ⟨next, shared, hNext, hStep⟩ := run.steps n
    simp only [height, hNext]
    obtain rfl | ht := eq_or_ne t (run.thread n)
    · rw [State.set_threads_self]
      exact hOther hStep
    · rw [State.set_threads_other _ ht]
  have hStrict : ∀ n, work (run.label n) → height (n + 1) < height n := by
    intro n hLabel
    refine Pi.lt_def.mpr ⟨hDown n, run.thread n, ?_⟩
    obtain ⟨next, shared, hNext, hStep⟩ := run.steps n
    simp only [height, hNext, State.set_threads_self]
    exact hWork hStep hLabel
  have hAntitone : Antitone height := antitone_nat_of_succ_le hDown
  -- at the lowest height that the run reaches nothing is left to do
  obtain ⟨_, ⟨N, rfl⟩, hLeast⟩ := (@wellFounded_lt (Tid → α) _ _).has_min (Set.range height) ⟨_, 0, rfl⟩
  exact ⟨N, fun n hn hLabel =>
    hLeast _ ⟨n + 1, rfl⟩ ((hStrict n hLabel).trans_le (hAntitone hn))⟩

/-- In a fair run of finitely many threads such work is at last not even possible. -/
theorem work_disabled (hFair : run.StronglyFair work)
    (hWork : ∀ {label t l sh l' sh'}, step label t l sh l' sh' → work label → measure l' < measure l)
    (hOther : ∀ {label t l sh l' sh'}, step label t l sh l' sh' → measure l' ≤ measure l) :
    ∃ N, ∀ n, N ≤ n → ¬ work (run.label n) ∧ ∀ t, ¬ Enabled step work (run.state n) t := by
  obtain ⟨N, hEnds⟩ := run.work_ends measure work hWork hOther
  have hEach : ∀ t, ∃ k, ∀ n, k ≤ n → ¬ Enabled step work (run.state n) t := by
    intro t
    by_contra hAgain
    push Not at hAgain
    obtain ⟨m, hm, _, hLabel⟩ := hFair t hAgain N
    exact hEnds m hm hLabel
  choose bound hBound using hEach
  obtain ⟨K, hK⟩ := Finite.exists_le bound
  refine ⟨max N K, fun n hn => ⟨hEnds n (le_of_max_le_left hn), fun t => ?_⟩⟩
  exact hBound t n ((hK t).trans (le_of_max_le_right hn))

end Measure

end EndlessRun

/-! ## Runs that end in a cycle -/

section Lassos

variable (next : Tid × Label → Local → Shared → Option (Local × Shared))

def advance (s : State Tid Local Shared) (turn : Tid × Label) : State Tid Local Shared :=
  match next turn (s.threads turn.1) s.shared with
  | none => s
  | some (moved, shared) => s.set turn.1 moved shared

def statesAlong (turnAt : Nat → Tid × Label) (s : State Tid Local Shared) : Nat → State Tid Local Shared
  | 0 => s
  | n + 1 => advance next (statesAlong turnAt s n) (turnAt n)

def Taken (s : State Tid Local Shared) (turn : Tid × Label) : Prop :=
  ∃ moved shared, next turn (s.threads turn.1) s.shared = some (moved, shared)

def cycleTurn (first : Tid × Label) (rest : List (Tid × Label)) (n : Nat) : Tid × Label :=
  (first :: rest).getD (n % (first :: rest).length) first

/-- The turns of the stem and then those of the cycle, over and over. -/
def lassoTurn (stem : List (Tid × Label)) (first : Tid × Label) (rest : List (Tid × Label)) (n : Nat) :
    Tid × Label :=
  if n < stem.length then stem.getD n first else cycleTurn first rest (n - stem.length)

variable {next} {turnAt : Nat → Tid × Label} {s s' : State Tid Local Shared}

theorem statesAlong_add (m n : Nat) : statesAlong next turnAt s (m + n) =
    statesAlong next (fun k => turnAt (m + k)) (statesAlong next turnAt s m) n := by
  induction n with
  | zero => rfl
  | succ n ih => rw [← Nat.add_assoc, statesAlong, ih, statesAlong]

/-- Along a schedule that can be run every turn is taken. -/
theorem statesAlong_schedule {schedule : List (Tid × Label)}
    (hTurns : ∀ n turn, schedule[n]? = some turn → turnAt n = turn)
    (hRun : runSchedule Prod.fst next schedule s = some s') :
    statesAlong next turnAt s schedule.length = s' ∧
      ∀ n < schedule.length, Taken next (statesAlong next turnAt s n) (turnAt n) := by
  induction schedule generalizing s turnAt with
  | nil => exact ⟨Option.some.inj hRun, fun n hn => absurd hn (Nat.not_lt_zero n)⟩
  | cons turn rest ih =>
    have hTurn : turnAt 0 = turn := hTurns 0 turn rfl
    rw [runSchedule] at hRun
    split at hRun
    · cases hRun
    · rename_i moved shared hMove
      have hFirst : statesAlong next turnAt s 1 = s.set turn.1 moved shared := by
        rw [statesAlong, statesAlong, hTurn, advance, hMove]
      obtain ⟨hLast, hTaken⟩ := @ih (fun k => turnAt (1 + k)) _
        (fun n turn h => by rw [Nat.add_comm]; exact hTurns (n + 1) turn h) hRun
      rw [← hFirst] at hLast hTaken
      constructor
      · rw [List.length_cons, Nat.add_comm, statesAlong_add, hLast]
      · intro n hn
        cases n with
        | zero => exact ⟨moved, shared, by rw [hTurn]; exact hMove⟩
        | succ n =>
          rw [Nat.add_comm n, statesAlong_add]
          exact hTaken n (Nat.lt_of_succ_lt_succ hn)

variable {stem rest : List (Tid × Label)} {first : Tid × Label} {init : State Tid Local Shared}

omit [DecidableEq Tid] in
theorem lassoTurn_stem {n : Nat} {turn : Tid × Label} (h : stem[n]? = some turn) :
    lassoTurn stem first rest n = turn := by
  obtain ⟨hn, rfl⟩ := List.getElem?_eq_some_iff.mp h
  rw [lassoTurn, if_pos hn, List.getD_eq_getElem _ _ hn]

omit [DecidableEq Tid] in
theorem lassoTurn_cycle (n : Nat) :
    lassoTurn stem first rest (stem.length + n) = cycleTurn first rest n := by
  rw [lassoTurn, if_neg (by omega), Nat.add_sub_cancel_left]

omit [DecidableEq Tid] in
theorem cycleTurn_first {n : Nat} {turn : Tid × Label} (h : (first :: rest)[n]? = some turn) :
    cycleTurn first rest n = turn := by
  obtain ⟨hn, rfl⟩ := List.getElem?_eq_some_iff.mp h
  rw [cycleTurn, Nat.mod_eq_of_lt hn, List.getD_eq_getElem _ _ hn]

omit [DecidableEq Tid] in
theorem cycleTurn_round (n : Nat) :
    cycleTurn first rest ((first :: rest).length + n) = cycleTurn first rest n := by
  rw [cycleTurn, cycleTurn, Nat.add_mod_left]

theorem taken_cycle (hCycle : runSchedule Prod.fst next (first :: rest) s = some s) (n : Nat) :
    Taken next (statesAlong next (cycleTurn first rest) s n) (cycleTurn first rest n) := by
  obtain ⟨hBack, hTaken⟩ := statesAlong_schedule (fun _ _ => cycleTurn_first) hCycle
  induction n using Nat.strong_induction_on with
  | h n ih =>
    by_cases hn : n < (first :: rest).length
    · exact hTaken n hn
    · -- one round of the cycle changes nothing
      obtain ⟨k, rfl⟩ := Nat.exists_eq_add_of_le (Nat.le_of_not_lt hn)
      rw [statesAlong_add, hBack, cycleTurn_round, funext cycleTurn_round]
      exact ih k (by simp)

theorem taken_lasso (hStem : runSchedule Prod.fst next stem init = some s)
    (hCycle : runSchedule Prod.fst next (first :: rest) s = some s) (n : Nat) :
    Taken next (statesAlong next (lassoTurn stem first rest) init n) (lassoTurn stem first rest n) := by
  obtain ⟨hEnd, hTaken⟩ := statesAlong_schedule (fun _ _ => lassoTurn_stem) hStem
  by_cases hn : n < stem.length
  · exact hTaken n hn
  · obtain ⟨k, rfl⟩ := Nat.exists_eq_add_of_le (Nat.le_of_not_lt hn)
    rw [statesAlong_add, hEnd, lassoTurn_cycle, funext lassoTurn_cycle]
    exact taken_cycle hCycle k

/-- The endless run of a schedule that leads to a state and of one that leads back to it. -/
def EndlessRun.lasso {step : Label → ThreadStep Tid Local Shared}
    (hSound : ∀ {turn l sh l' sh'}, next turn l sh = some (l', sh') → step turn.2 turn.1 l sh l' sh')
    (hStem : runSchedule Prod.fst next stem init = some s)
    (hCycle : runSchedule Prod.fst next (first :: rest) s = some s) : EndlessRun step init where
  state := statesAlong next (lassoTurn stem first rest) init
  thread n := (lassoTurn stem first rest n).1
  label n := (lassoTurn stem first rest n).2
  start := rfl
  steps n := by
    obtain ⟨moved, shared, hMove⟩ := taken_lasso hStem hCycle n
    exact ⟨moved, shared, by rw [statesAlong, advance, hMove], hSound hMove⟩

/-- Where a first part of the stem leads. -/
theorem EndlessRun.lasso_state {step : Label → ThreadStep Tid Local Shared}
    (hSound : ∀ {turn l sh l' sh'}, next turn l sh = some (l', sh') → step turn.2 turn.1 l sh l' sh')
    (hStem : runSchedule Prod.fst next stem init = some s)
    (hCycle : runSchedule Prod.fst next (first :: rest) s = some s) {before : List (Tid × Label)}
    (hPrefix : before <+: stem) (hBefore : runSchedule Prod.fst next before init = some s') :
    (EndlessRun.lasso hSound hStem hCycle).state before.length = s' := by
  apply (statesAlong_schedule _ hBefore).1
  intro n turn h
  obtain ⟨after, rfl⟩ := hPrefix
  apply lassoTurn_stem
  rw [List.getElem?_append_left (List.getElem?_eq_some_iff.mp h).1, h]

end Lassos

end Interleaving
