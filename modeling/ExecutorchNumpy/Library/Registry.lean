import Mathlib.Data.List.Nodup
import Mathlib.Data.List.Perm.Basic

/-! # Registries that refuse duplicates

Batches of entries are registered one after the other in a table of fixed size.
A run over all batches goes through exactly when no entry comes twice.
-/

namespace Registry
set_option autoImplicit false

universe u

/-- `register` is `none` when the table refuses the batch. -/
structure Table (κ : Type u) where
  State : Type
  empty : State
  entries : State → List κ
  capacity : Nat
  register : List κ → State → Option State
  entries_empty : entries empty = []
  accepts : ∀ {batch : List κ} {s : State}, (entries s ++ batch).Nodup →
    (entries s ++ batch).length ≤ capacity →
      ∃ s', register batch s = some s' ∧ entries s' = entries s ++ batch
  refuses : ∀ {batch : List κ} {s : State}, ¬ (entries s ++ batch).Nodup → register batch s = none

/-- A table that is a list of its entries. -/
def Table.ofCapacity (κ : Type) [DecidableEq κ] (capacity : Nat) : Table κ where
  State := List κ
  empty := []
  entries s := s
  capacity := capacity
  register batch s :=
    if (s ++ batch).Nodup ∧ (s ++ batch).length ≤ capacity then some (s ++ batch) else none
  entries_empty := rfl
  accepts hNodup hRoom := ⟨_, if_pos ⟨hNodup, hRoom⟩, rfl⟩
  refuses hTwice := if_neg fun h => hTwice h.1

section Runs

variable {κ : Type u} {T : Table κ}

/-- All batches in their order; the run ends at the first one that is refused. -/
def registerAll (T : Table κ) : List (List κ) → T.State → Option T.State
  | [], s => some s
  | batch :: rest, s => (T.register batch s).bind (registerAll T rest)

theorem registerAll_of_nodup {batches : List (List κ)} {s : T.State}
    (hNodup : (T.entries s ++ batches.flatten).Nodup)
    (hRoom : (T.entries s ++ batches.flatten).length ≤ T.capacity) :
    ∃ s', registerAll T batches s = some s' ∧ T.entries s' = T.entries s ++ batches.flatten := by
  induction batches generalizing s with
  | nil => exact ⟨s, rfl, by rw [List.flatten_nil, List.append_nil]⟩
  | cons batch rest ih =>
    rw [List.flatten_cons, ← List.append_assoc] at hNodup hRoom
    obtain ⟨s', hRegister, hEntries⟩ := T.accepts (List.nodup_append.mp hNodup).1
      (Nat.le_trans (List.sublist_append_left _ _).length_le hRoom)
    rw [← hEntries] at hNodup hRoom
    obtain ⟨s'', hRest, hAll⟩ := ih hNodup hRoom
    refine ⟨s'', ?_, ?_⟩
    · rw [registerAll, hRegister, Option.bind_some, hRest]
    · rw [hAll, hEntries, List.append_assoc, List.flatten_cons]

theorem registerAll_of_duplicate {batches : List (List κ)} {s : T.State}
    (hStart : (T.entries s).Nodup) (hTwice : ¬ (T.entries s ++ batches.flatten).Nodup)
    (hRoom : (T.entries s ++ batches.flatten).length ≤ T.capacity) :
    registerAll T batches s = none := by
  induction batches generalizing s with
  | nil =>
    rw [List.flatten_nil, List.append_nil] at hTwice
    exact absurd hStart hTwice
  | cons batch rest ih =>
    rw [List.flatten_cons, ← List.append_assoc] at hTwice hRoom
    rw [registerAll]
    by_cases hBatch : (T.entries s ++ batch).Nodup
    · obtain ⟨s', hRegister, hEntries⟩ := T.accepts hBatch
        (Nat.le_trans (List.sublist_append_left _ _).length_le hRoom)
      rw [← hEntries] at hTwice hRoom hBatch
      rw [hRegister, Option.bind_some]
      exact ih hBatch hTwice hRoom
    · rw [T.refuses hBatch, Option.bind_none]

/-- From the empty table the run goes through exactly when no entry comes twice. -/
theorem registerAll_empty_iff {batches : List (List κ)}
    (hRoom : batches.flatten.length ≤ T.capacity) :
    (∃ s, registerAll T batches T.empty = some s) ↔ batches.flatten.Nodup := by
  have hStart : T.entries T.empty ++ batches.flatten = batches.flatten := by
    rw [T.entries_empty, List.nil_append]
  constructor
  · rintro ⟨s, hRun⟩
    by_contra hTwice
    rw [registerAll_of_duplicate (T.entries_empty ▸ List.nodup_nil) (hStart.symm ▸ hTwice)
      (hStart.symm ▸ hRoom)] at hRun
    cases hRun
  · intro hNodup
    obtain ⟨s, hRun, _⟩ := @registerAll_of_nodup _ T batches T.empty (hStart.symm ▸ hNodup)
      (hStart.symm ▸ hRoom)
    exact ⟨s, hRun⟩

theorem entries_of_registerAll {batches : List (List κ)} {s : T.State}
    (hRoom : batches.flatten.length ≤ T.capacity) (hRun : registerAll T batches T.empty = some s) :
    T.entries s = batches.flatten := by
  have hStart : T.entries T.empty ++ batches.flatten = batches.flatten := by
    rw [T.entries_empty, List.nil_append]
  have hNodup := (registerAll_empty_iff hRoom).mp ⟨s, hRun⟩
  obtain ⟨s', hRun', hEntries⟩ := @registerAll_of_nodup _ T batches T.empty (hStart.symm ▸ hNodup)
    (hStart.symm ▸ hRoom)
  obtain rfl := Option.some.inj (hRun.symm.trans hRun')
  exact hEntries.trans hStart

/-- As `registerAll`, for callers that go on after a refused batch. -/
def registerEach (T : Table κ) (batches : List (List κ)) (s : T.State) : T.State :=
  batches.foldl (fun s batch => (T.register batch s).getD s) s

theorem registerEach_of_some {batches : List (List κ)} {s s' : T.State}
    (h : registerAll T batches s = some s') : registerEach T batches s = s' := by
  induction batches generalizing s with
  | nil => exact Option.some.inj h
  | cons batch rest ih =>
    obtain ⟨next, hRegister, hRest⟩ := Option.bind_eq_some_iff.mp h
    rw [registerEach, List.foldl_cons, hRegister, Option.getD_some]
    exact ih hRest

end Runs

end Registry
