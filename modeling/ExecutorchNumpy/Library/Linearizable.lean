import ExecutorchNumpy.Library.Interleaving

/-! # Linearizable histories

A history lists the invocations and the responses of all threads as they happen. A
serial order linearizes it when it gives every answer, keeps each thread's own order,
and never puts a call before one that was answered before it was invoked.
-/

namespace Interleaving
set_option autoImplicit false

universe u v w x y

inductive Event (Call Outcome : Type v) where
  | invoke (c : Call)
  | respond (o : Outcome)

def Event.call? {Call Outcome : Type v} : Event Call Outcome → Option Call
  | .invoke c => some c
  | .respond _ => none

def Event.outcome? {Call Outcome : Type v} : Event Call Outcome → Option Outcome
  | .invoke _ => none
  | .respond o => some o

abbrev History (Tid : Type u) (Call Outcome : Type v) := List (Tid × Event Call Outcome)

section Histories

variable {Tid : Type u} {Call Outcome : Type v} [DecidableEq Tid]

def invoked (t : Tid) (h : History Tid Call Outcome) : List Call :=
  h.filterMap fun e => if e.1 = t then e.2.call? else none

def answers (t : Tid) (h : History Tid Call Outcome) : List Outcome :=
  h.filterMap fun e => if e.1 = t then e.2.outcome? else none

theorem invoked_append (t : Tid) (h g : History Tid Call Outcome) :
    invoked t (h ++ g) = invoked t h ++ invoked t g := List.filterMap_append

theorem answers_append (t : Tid) (h g : History Tid Call Outcome) :
    answers t (h ++ g) = answers t h ++ answers t g := List.filterMap_append

/-- The `i`-th call of `t` stands before the `j`-th call of `u`. -/
def Earlier (order : List (Tid × Call × Outcome)) (t : Tid) (i : Nat) (u : Tid) (j : Nat) : Prop :=
  ∃ first rest, order = first ++ rest ∧ i < (callsOf t first).length ∧ (callsOf u first).length ≤ j

structure Linearizes {Object : Type w} (apply : Call → Object → Outcome × Object) (start : Object)
    (h : History Tid Call Outcome) (order : List (Tid × Call × Outcome)) (a : Object) : Prop where
  run : SerialRun apply start order a
  issued : ∀ t, (callsOf t order).map Prod.fst <+: invoked t h
  answered : ∀ t, answers t h <+: (callsOf t order).map Prod.snd
  realTime : ∀ before after, h = before ++ after → ∀ t i u j,
    i < (answers t before).length → (invoked u before).length ≤ j → Earlier order t i u j

/-- Whenever one looks, a first part of the order holds what has been answered and nothing that has
not been invoked. -/
def Cuts (h : History Tid Call Outcome) (order : List (Tid × Call × Outcome)) : Prop :=
  ∀ before after, h = before ++ after → ∃ first rest, order = first ++ rest ∧
    ∀ t, (answers t before).length ≤ (callsOf t first).length ∧
      (callsOf t first).length ≤ (invoked t before).length

theorem Cuts.earlier {h : History Tid Call Outcome} {order : List (Tid × Call × Outcome)}
    (hCuts : Cuts h order) {before after : History Tid Call Outcome} (hSplit : h = before ++ after)
    {t u : Tid} {i j : Nat} (hAnswered : i < (answers t before).length)
    (hInvoked : (invoked u before).length ≤ j) : Earlier order t i u j := by
  obtain ⟨first, rest, hOrder, hCut⟩ := hCuts before after hSplit
  have hFirst := (hCut t).1
  have hLast := (hCut u).2
  exact ⟨first, rest, hOrder, by omega, by omega⟩

theorem Cuts.of_append {h : History Tid Call Outcome} {order : List (Tid × Call × Outcome)}
    (hCuts : Cuts h order) (more : List (Tid × Call × Outcome)) : Cuts h (order ++ more) := by
  intro before after hSplit
  obtain ⟨first, rest, rfl, hCut⟩ := hCuts before after hSplit
  exact ⟨first, rest ++ more, List.append_assoc .., hCut⟩

theorem Cuts.snoc {h : History Tid Call Outcome} {order : List (Tid × Call × Outcome)}
    (hCuts : Cuts h order) (e : Tid × Event Call Outcome)
    (hWhole : ∀ t, (answers t (h ++ [e])).length ≤ (callsOf t order).length ∧
      (callsOf t order).length ≤ (invoked t (h ++ [e])).length) : Cuts (h ++ [e]) order := by
  intro before after hSplit
  obtain rfl | ⟨after, e', rfl⟩ := List.eq_nil_or_concat after
  · rw [List.append_nil] at hSplit
    subst hSplit
    exact ⟨order, [], (List.append_nil order).symm, hWhole⟩
  · rw [List.concat_eq_append, ← List.append_assoc] at hSplit
    exact hCuts before after (List.append_inj_left' hSplit rfl)

end Histories

/-! ## Observed runs -/

section Observed

variable {Tid : Type u} {Call Outcome : Type v} {Local : Type w} {Shared : Type x} [DecidableEq Tid]

/-- What a thread shows of its calls: those it has not started, and the answers it has got. -/
structure Client (Local : Type w) (Call Outcome : Type v) where
  todo : Local → List Call
  results : Local → List Outcome

def Client.Emits (client : Client Local Call Outcome) (l l' : Local) :
    Option (Event Call Outcome) → Prop
  | none => client.todo l' = client.todo l ∧ client.results l' = client.results l
  | some (.invoke c) => client.todo l = c :: client.todo l' ∧ client.results l' = client.results l
  | some (.respond o) => client.todo l' = client.todo l ∧ client.results l' = client.results l ++ [o]

variable (client : Client Local Call Outcome) (step : ThreadStep Tid Local Shared)

inductive Observed (init : State Tid Local Shared) :
    History Tid Call Outcome → State Tid Local Shared → Prop
  | start : Observed init [] init
  | step {h : History Tid Call Outcome} {s : State Tid Local Shared} (t : Tid) {next : Local}
      {shared : Shared} (e : Option (Event Call Outcome)) : Observed init h s →
      step t (s.threads t) s.shared next shared → client.Emits (s.threads t) next e →
      Observed init (h ++ (e.map fun e => (t, e)).toList) (s.set t next shared)

variable {client step} {init s : State Tid Local Shared} {h : History Tid Call Outcome}

theorem Observed.reachable (hObserved : Observed client step init h s) : Reachable step init s := by
  induction hObserved with
  | start => exact .refl
  | step t e _ hThread _ ih => exact ih.tail (.thread t hThread)

theorem Reachable.observed
    (hEmits : ∀ {t l sh l' sh'}, step t l sh l' sh' → ∃ e, client.Emits l l' e)
    (hReachable : Reachable step init s) : ∃ h, Observed client step init h s := by
  induction hReachable with
  | refl => exact ⟨[], .start⟩
  | tail _ hLast ih =>
    obtain ⟨h, hObserved⟩ := ih
    obtain ⟨t, hThread⟩ := hLast
    obtain ⟨e, hEmit⟩ := hEmits hThread
    exact ⟨_, hObserved.step t e hThread hEmit⟩

/-- The history of a thread is what has gone from its calls and come to its answers. -/
theorem Observed.client_history (hObserved : Observed client step init h s) (t : Tid) :
    invoked t h ++ client.todo (s.threads t) = client.todo (init.threads t) ∧
      client.results (s.threads t) = client.results (init.threads t) ++ answers t h := by
  induction hObserved with
  | start => simp [invoked, answers]
  | @step h s u next shared e _ _ hEmits ih =>
    obtain ⟨hTodo, hResults⟩ := ih
    rw [← hTodo, invoked_append, answers_append, List.append_assoc, ← List.append_assoc _ (answers t h),
      ← hResults]
    by_cases hu : t = u
    · subst hu
      rw [State.set_threads_self]
      cases e with
      | none =>
        obtain ⟨hSameTodo, hSameResults⟩ := hEmits
        simp [invoked, answers, hSameTodo, hSameResults]
      | some e =>
        cases e with
        | invoke c =>
          obtain ⟨hLess, hSameResults⟩ := hEmits
          simp [invoked, answers, Event.call?, Event.outcome?, hLess, hSameResults]
        | respond o =>
          obtain ⟨hSameTodo, hMore⟩ := hEmits
          simp [invoked, answers, Event.call?, Event.outcome?, hSameTodo, hMore]
    · rw [State.set_threads_other s hu]
      cases e with
      | none => simp [invoked, answers]
      | some e => simp [invoked, answers, Ne.symm hu]

/-- The event that a step shows, if it shows one. -/
def Client.event (client : Client Local Call Outcome) (l l' : Local) : Option (Event Call Outcome) :=
  match (client.results l').drop (client.results l).length with
  | o :: _ => some (.respond o)
  | [] =>
    match (client.todo l).take ((client.todo l).length - (client.todo l').length) with
    | c :: _ => some (.invoke c)
    | [] => none

theorem Client.event_of_emits {l l' : Local} {e : Option (Event Call Outcome)}
    (h : client.Emits l l' e) : client.event l l' = e := by
  rw [Client.event]
  match e with
  | none =>
    obtain ⟨hTodo, hResults⟩ := h
    simp [hTodo, hResults]
  | some (.invoke c) =>
    obtain ⟨hTodo, hResults⟩ := h
    simp [hTodo, hResults]
  | some (.respond o) =>
    obtain ⟨_, hResults⟩ := h
    simp [hResults]

section Schedules

variable {Turn : Type y} {who : Turn → Tid} {next : Turn → Local → Shared → Option (Local × Shared)}

def scheduleHistory (who : Turn → Tid) (next : Turn → Local → Shared → Option (Local × Shared))
    (client : Client Local Call Outcome) : List Turn → State Tid Local Shared → History Tid Call Outcome
  | [], _ => []
  | turn :: rest, s =>
    match next turn (s.threads (who turn)) s.shared with
    | none => []
    | some (moved, shared) =>
      ((client.event (s.threads (who turn)) moved).map fun e => (who turn, e)).toList ++
        scheduleHistory who next client rest (s.set (who turn) moved shared)

/-- A run by a schedule is observed with the history that the schedule shows. -/
theorem Observed.of_schedule
    (hSound : ∀ {turn l sh l' sh'}, next turn l sh = some (l', sh') → step (who turn) l sh l' sh')
    (hEmits : ∀ {t l sh l' sh'}, step t l sh l' sh' → ∃ e, client.Emits l l' e)
    {s' : State Tid Local Shared} {schedule : List Turn} (hBefore : Observed client step init h s)
    (hRun : runSchedule who next schedule s = some s') :
    Observed client step init (h ++ scheduleHistory who next client schedule s) s' := by
  induction schedule generalizing h s with
  | nil =>
    obtain rfl := Option.some.inj hRun
    rw [scheduleHistory, List.append_nil]
    exact hBefore
  | cons turn rest ih =>
    rw [runSchedule] at hRun
    rw [scheduleHistory]
    cases hMove : next turn (s.threads (who turn)) s.shared with
    | none =>
      rw [hMove] at hRun
      cases hRun
    | some after =>
      rw [hMove] at hRun
      dsimp only at hRun ⊢
      obtain ⟨e, hEmit⟩ := hEmits (hSound hMove)
      have hNow := hBefore.step (who turn) e (hSound hMove) hEmit
      rw [Client.event_of_emits hEmit, ← List.append_assoc]
      exact ih hNow hRun

end Schedules

variable {Object : Type w} (apply : Call → Object → Outcome × Object) (start : Object)

/-- A system whose steps are invisible or commit one call is linearizable, when calls are committed
after their invocation and before their response. -/
theorem Observed.linearizable (related : State Tid Local Shared → Object → Prop)
    (events : State Tid Local Shared → Tid → List (Call × Outcome))
    (hInit : related init start) (hEvents : ∀ t, events init t = [])
    (hFresh : ∀ t, client.results (init.threads t) = [])
    (hStep : ∀ {s s' a}, related s a → Step step s s' →
      related s' a ∧ (∀ u, events s' u = events s u) ∨
      ∃ t c, related s' (apply c a).2 ∧ events s' t = events s t ++ [(c, (apply c a).1)] ∧
        ∀ u ≠ t, events s' u = events s u)
    (hInvoked : ∀ {s a}, related s a → ∀ t, ∃ pending, (events s t).map Prod.fst ++ pending ++
      client.todo (s.threads t) = client.todo (init.threads t))
    (hAnswered : ∀ {s a}, related s a → ∀ t,
      client.results (s.threads t) <+: (events s t).map Prod.snd)
    (hObserved : Observed client step init h s) :
    ∃ order a, Linearizes apply start h order a ∧ related s a ∧
      ∀ t : Tid, callsOf t order = events s t := by
  -- at any time the calls that took effect lie between the answered and the invoked ones
  have hBetween : ∀ {s a h}, Observed client step init h s → related s a → ∀ t,
      (events s t).map Prod.fst <+: invoked t h ∧ answers t h <+: (events s t).map Prod.snd := by
    intro s a h hObserved hRelated t
    obtain ⟨hTodo, hResults⟩ := hObserved.client_history t
    obtain ⟨pending, hPending⟩ := hInvoked hRelated t
    rw [hFresh, List.nil_append] at hResults
    exact ⟨⟨pending, List.append_cancel_right (hPending.trans hTodo.symm)⟩,
      hResults ▸ hAnswered hRelated t⟩
  have hRun : ∃ order a, SerialRun apply start order a ∧ related s a ∧
      (∀ t : Tid, callsOf t order = events s t) ∧ Cuts h order := by
    induction hObserved with
    | start =>
      refine ⟨[], start, .nil, hInit, fun t => (hEvents t).symm, fun before after hSplit => ?_⟩
      obtain ⟨rfl, rfl⟩ := List.append_eq_nil_iff.mp hSplit.symm
      exact ⟨[], [], rfl, fun t => by simp [answers, invoked, callsOf]⟩
    | @step h s t next shared e hBefore hThread hEmits ih =>
      obtain ⟨order, a, hSerial, hRelated, hSeen, hCuts⟩ := ih
      have hNow := hBefore.step t e hThread hEmits
      have hCut : ∀ {order a}, related (s.set t next shared) a →
          (∀ u : Tid, callsOf u order = events (s.set t next shared) u) → Cuts h order →
          Cuts (h ++ (e.map fun e => (t, e)).toList) order := by
        intro order a hRelated' hSeen' hCuts'
        cases e with
        | none => simpa using hCuts'
        | some e =>
          apply hCuts'.snoc (t, e)
          intro u
          obtain ⟨hCalls, hAnswers⟩ := hBetween hNow hRelated' u
          rw [hSeen' u]
          exact ⟨by simpa using hAnswers.length_le, by simpa using hCalls.length_le⟩
      obtain ⟨hRelated', hSame⟩ | ⟨u, c, hRelated', hCommit, hSame⟩ := hStep hRelated (.thread t hThread)
      · have hSeen' : ∀ v : Tid, callsOf v order = events (s.set t next shared) v := fun v => by
          rw [hSame, hSeen]
        exact ⟨order, a, hSerial, hRelated', hSeen', hCut hRelated' hSeen' hCuts⟩
      · have hSeen' : ∀ v : Tid, callsOf v (order ++ [(u, c, (apply c a).1)]) =
            events (s.set t next shared) v := by
          intro v
          obtain rfl | hv := eq_or_ne v u
          · rw [callsOf_snoc_self, hCommit, hSeen]
          · rw [callsOf_snoc_other hv, hSame v hv, hSeen]
        exact ⟨_, _, hSerial.snoc u c, hRelated', hSeen',
          hCut hRelated' hSeen' (hCuts.of_append _)⟩
  obtain ⟨order, a, hSerial, hRelated, hSeen, hCuts⟩ := hRun
  refine ⟨order, a, ⟨hSerial, fun t => ?_, fun t => ?_, fun before after hSplit t i u j => ?_⟩,
    hRelated, hSeen⟩
  · rw [hSeen]
    exact (hBetween hObserved hRelated t).1
  · rw [hSeen]
    exact (hBetween hObserved hRelated t).2
  · exact hCuts.earlier hSplit

end Observed

end Interleaving
