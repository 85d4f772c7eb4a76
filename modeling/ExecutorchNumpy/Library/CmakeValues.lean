import Mathlib.Data.List.Basic
import Mathlib.Data.List.Infix

/-! # Values of CMake variables

A CMake value is a text. It counts as false when it is one of a few constants,
and as a list it is cut at semicolons that are neither escaped nor inside
square brackets.
-/

namespace CmakeValues
set_option autoImplicit false

abbrev Text := List Char

/-- The values that `if(NOT <variable>)` takes for false. -/
def isOff (value : Text) : Bool :=
  value == [] || value == "0".toList ||
    ["OFF", "NO", "FALSE", "N", "IGNORE"].any (fun off => value.map Char.toUpper == off.toList) ||
    value == "NOTFOUND".toList || "-NOTFOUND".toList.isSuffixOf value

/-- `if(<variable>)`, for a variable that may be undefined. -/
def isOn (value : Option Text) : Bool := value.any fun text => !isOff text

/-! ## Lists -/

def emit (keepEmpty : Bool) (item : Text) : List Text :=
  if item = [] ∧ keepEmpty = false then [] else [item]

/-- `nesting` counts open square brackets; `item` is the list item read so far. -/
def splitList (keepEmpty : Bool) : Int → Text → Text → List Text
  | _, item, [] => emit keepEmpty item
  | nesting, item, '\\' :: ';' :: rest => splitList keepEmpty nesting (item ++ [';']) rest
  | nesting, item, c :: rest =>
    if c = ';' ∧ nesting = 0 then emit keepEmpty item ++ splitList keepEmpty nesting [] rest
    else if c = '[' then splitList keepEmpty (nesting + 1) (item ++ [c]) rest
    else if c = ']' then splitList keepEmpty (nesting - 1) (item ++ [c]) rest
    else splitList keepEmpty nesting (item ++ [c]) rest

/-- An unquoted reference drops empty items. -/
def unquoted (value : Text) : List Text := splitList false 0 [] value

/-- The items of a list variable, empty ones included; an empty value has none. -/
def items (value : Text) : List Text := if value = [] then [] else splitList true 0 [] value

/-- `list(APPEND <list> <args>…)` -/
def listAppend (value : Text) (args : List Text) : Text :=
  if args = [] then value
  else if value = [] then List.intercalate [';'] args
  else value ++ [';'] ++ List.intercalate [';'] args

/-! ## Lists of plain items -/

/-- A character without a meaning of its own in a list. -/
def PlainItem (item : Text) : Prop := ∀ c ∈ item, c ∉ "\\;[]".toList

instance (item : Text) : Decidable (PlainItem item) :=
  List.decidableBAll (fun c => c ∉ "\\;[]".toList) item

theorem splitList_cons_of_plain {keepEmpty : Bool} {nesting : Int} {item rest : Text} {c : Char}
    (h : c ∉ "\\;[]".toList) :
    splitList keepEmpty nesting item (c :: rest) = splitList keepEmpty nesting (item ++ [c]) rest := by
  have hChars : c ≠ '\\' ∧ c ≠ ';' ∧ c ≠ '[' ∧ c ≠ ']' := by simpa using h
  rw [splitList]
  · simp [hChars]
  · intro _ hBackslash
    exact absurd hBackslash hChars.1

theorem splitList_append_of_plain {keepEmpty : Bool} {nesting : Int} {front item rest : Text}
    (h : PlainItem front) :
    splitList keepEmpty nesting item (front ++ rest) =
      splitList keepEmpty nesting (item ++ front) rest := by
  induction front generalizing item with
  | nil => rw [List.append_nil, List.nil_append]
  | cons c front ih =>
    rw [List.cons_append, splitList_cons_of_plain (h c List.mem_cons_self),
      ih fun d hd => h d (List.mem_cons_of_mem c hd), List.append_assoc, List.singleton_append]

theorem splitList_semicolon {keepEmpty : Bool} {item : Text} (h : keepEmpty = true ∨ item ≠ [])
    (rest : Text) :
    splitList keepEmpty 0 item (';' :: rest) = item :: splitList keepEmpty 0 [] rest := by
  have hEmit : emit keepEmpty item = [item] := by
    rw [emit, if_neg]
    rintro ⟨hItem, hKeep⟩
    rcases h with hTrue | hNonempty
    · rw [hKeep] at hTrue
      cases hTrue
    · exact hNonempty hItem
  rw [splitList]
  · simp [hEmit]
  · intro _ hBackslash
    cases hBackslash

/-- Joining plain items and splitting again gives the items back. -/
theorem splitList_intercalate {keepEmpty : Bool} {first : Text} {rest : List Text}
    (hPlain : ∀ item ∈ first :: rest, PlainItem item)
    (hNonempty : ∀ item ∈ first :: rest, item ≠ []) :
    splitList keepEmpty 0 [] (List.intercalate [';'] (first :: rest)) = first :: rest := by
  have hFirst : first ≠ [] := hNonempty first List.mem_cons_self
  induction rest generalizing first with
  | nil =>
    have hSplit := @splitList_append_of_plain keepEmpty 0 first [] [] (hPlain first List.mem_cons_self)
    rw [List.append_nil, List.nil_append] at hSplit
    rw [List.intercalate_singleton, hSplit]
    simp [splitList, emit, hFirst]
  | cons second rest ih =>
    rw [List.intercalate_cons_cons, List.append_assoc,
      splitList_append_of_plain (hPlain first List.mem_cons_self), List.nil_append,
      List.singleton_append, splitList_semicolon (Or.inr hFirst)]
    exact congrArg (first :: ·) (ih (fun item hItem => hPlain item (List.mem_cons_of_mem first hItem))
      (fun item hItem => hNonempty item (List.mem_cons_of_mem first hItem))
      (hNonempty second (List.mem_cons_of_mem first List.mem_cons_self)))

theorem splitList_ne_nil (nesting : Int) (item text : Text) :
    splitList true nesting item text ≠ [] := by
  fun_induction splitList true nesting item text with
  | case1 => simp [emit]
  | case2 => assumption
  | case3 => simp [emit]
  | case4 => assumption
  | case5 => assumption
  | case6 => assumption

theorem items_eq_nil_iff {value : Text} : items value = [] ↔ value = [] := by
  rw [items]
  split
  · rename_i hEmpty
    exact iff_of_true rfl hEmpty
  · rename_i hEmpty
    exact iff_of_false (splitList_ne_nil _ _ _) hEmpty

theorem intercalate_eq_nil_iff {list : List Text} (hNonempty : ∀ item ∈ list, item ≠ []) :
    List.intercalate [';'] list = [] ↔ list = [] := by
  cases list with
  | nil => simp
  | cons first rest =>
    have hFirst : first ≠ [] := hNonempty first List.mem_cons_self
    cases rest with
    | nil => simp [List.intercalate_singleton, hFirst]
    | cons second rest => simp [List.intercalate_cons_cons]

theorem items_intercalate {list : List Text} (hPlain : ∀ item ∈ list, PlainItem item)
    (hNonempty : ∀ item ∈ list, item ≠ []) : items (List.intercalate [';'] list) = list := by
  cases list with
  | nil => rfl
  | cons first rest =>
    have hJoined : List.intercalate [';'] (first :: rest) ≠ [] := fun hNil =>
      absurd ((intercalate_eq_nil_iff hNonempty).mp hNil) (List.cons_ne_nil first rest)
    rw [items, if_neg hJoined, splitList_intercalate hPlain hNonempty]

/-- Appending nonempty items one by one joins them. -/
theorem foldl_listAppend {list : List Text} (hNonempty : ∀ item ∈ list, item ≠ []) :
    list.foldl (fun value item => listAppend value [item]) [] = List.intercalate [';'] list := by
  have hGeneral : ∀ (list : List Text) (value : Text), value ≠ [] →
      list.foldl (fun value item => listAppend value [item]) value =
        List.intercalate [';'] (value :: list) := by
    intro list
    induction list with
    | nil => intro value _; rw [List.foldl_nil, List.intercalate_singleton]
    | cons item list ih =>
      intro value hValue
      have hNext : listAppend value [item] = value ++ [';'] ++ item := by
        simp [listAppend, hValue]
      rw [List.foldl_cons, hNext, ih _ (by simp)]
      cases list with
      | nil => simp [List.intercalate_cons_cons]
      | cons next list => simp [List.intercalate_cons_cons, List.append_assoc]
  cases list with
  | nil => rfl
  | cons item list =>
    have hFirst : listAppend [] [item] = item := by simp [listAppend]
    rw [List.foldl_cons, hFirst]
    exact hGeneral list item (hNonempty item List.mem_cons_self)

/-- A list that is appended to item by item keeps its items. -/
theorem items_foldl_listAppend {list : List Text} (hPlain : ∀ item ∈ list, PlainItem item)
    (hNonempty : ∀ item ∈ list, item ≠ []) :
    items (list.foldl (fun value item => listAppend value [item]) []) = list := by
  rw [foldl_listAppend hNonempty, items_intercalate hPlain hNonempty]

end CmakeValues
