import ExecutorchNumpy.Library.CmakeValues
import ExecutorchNumpy.Library.Grep

/-! # The generated pin file `EtRuntimePin.cmake`

The file is read twice: CMake evaluates its `set()` commands, shell scripts
search its lines. Both readings start from one syntax.
-/

namespace ExecutorchNumpy
set_option autoImplicit false

open CmakeValues (Text)

namespace PinFile

def nameChar (c : Char) : Bool := c.isAlphanum || c ∈ "_-.".toList

/-- The characters that a quoted argument may hold as they are. -/
def valueChar (c : Char) : Bool := c ∉ "\"\\$\n\x00".toList

/-- A part of a name, such as a platform. -/
structure Word where
  text : Text
  chars : text.all nameChar = true

structure Name extends Word where
  nonempty : text ≠ []

inductive Piece where
  | char (c : Char) (h : valueChar c = true)
  | ref (name : Name)

abbrev Value := List Piece

/-- Whether the value stands on the line of the name or on the next one. -/
inductive Gap where
  | sameLine
  | nextLine
  deriving DecidableEq, Repr

/-- A comment text does not open a bracket comment, which could run over several lines. -/
structure Comment where
  text : Text
  oneLine : '\n' ∉ text ∧ '\x00' ∉ text
  notBracket : text.head? ≠ some '['

inductive Item where
  | comment (text : Comment)
  | blank
  | set (name : Name) (gap : Gap) (value : Value)
  | distUrlFunction
  | openvinoUrlFunction

/-! ## As lines of text -/

def Piece.source : Piece → Text
  | .char c _ => [c]
  | .ref name => "$\x7b".toList ++ name.text ++ "\x7d".toList

def Value.source (value : Value) : Text := value.flatMap Piece.source

/-- The value that has the text written out; characters that need quoting are dropped. -/
def Value.plain (text : Text) : Value :=
  text.filterMap fun c => if h : valueChar c = true then some (.char c h) else none

def distUrlFunctionLines : List Text :=
  ["function(et_runtime_dist_url variant platform out_url out_sha)",
    "  set(_k \"$\x7bvariant\x7d_$\x7bplatform\x7d\")",
    "  if(NOT DEFINED ET_RUNTIME_URL_$\x7b_k\x7d)",
    "    message(FATAL_ERROR",
    "      \"executorch-runtime-dist: no artifact for variant='$\x7bvariant\x7d' platform='$\x7bplatform\x7d'\")",
    "  endif()",
    "  set($\x7bout_url\x7d \"$\x7bET_RUNTIME_URL_$\x7b_k\x7d\x7d\" PARENT_SCOPE)",
    "  set($\x7bout_sha\x7d \"$\x7bET_RUNTIME_SHA256_$\x7b_k\x7d\x7d\" PARENT_SCOPE)",
    "endfunction()"].map String.toList

def openvinoUrlFunctionLines : List Text :=
  ["function(et_runtime_openvino_url platform out_url out_sha)",
    "  if(DEFINED ET_RUNTIME_OPENVINO_URL_$\x7bplatform\x7d)",
    "    set($\x7bout_url\x7d \"$\x7bET_RUNTIME_OPENVINO_URL_$\x7bplatform\x7d\x7d\" PARENT_SCOPE)",
    "    set($\x7bout_sha\x7d \"$\x7bET_RUNTIME_OPENVINO_SHA256_$\x7bplatform\x7d\x7d\" PARENT_SCOPE)",
    "  else()",
    "    set($\x7bout_url\x7d \"\" PARENT_SCOPE)",
    "    set($\x7bout_sha\x7d \"\" PARENT_SCOPE)",
    "  endif()",
    "endfunction()"].map String.toList

def Item.lines : Item → List Text
  | .comment text => ['#' :: text.text]
  | .blank => [[]]
  | .set name .sameLine value =>
    ["set(".toList ++ name.text ++ " \"".toList ++ (Value.source value ++ "\")".toList)]
  | .set name .nextLine value =>
    ["set(".toList ++ name.text, "  \"".toList ++ (Value.source value ++ "\")".toList)]
  | .distUrlFunction => distUrlFunctionLines
  | .openvinoUrlFunction => openvinoUrlFunctionLines

/-! ## As CMake commands -/

/-- What is visible after an `include`: the variables and whether the selector function exists. -/
structure Scope where
  vars : Text → Option Text
  distUrl : Bool

def Piece.expand (vars : Text → Option Text) : Piece → Text
  | .char c _ => [c]
  | .ref name => (vars name.text).getD []

def Value.expand (vars : Text → Option Text) (value : Value) : Text :=
  value.flatMap (Piece.expand vars)

def evalItem (scope : Scope) : Item → Scope
  | .set name _ value =>
    { scope with vars := fun n => if n = name.text then some (Value.expand scope.vars value) else scope.vars n }
  | .distUrlFunction => { scope with distUrl := true }
  | .comment _ | .blank | .openvinoUrlFunction => scope

def evalItems (scope : Scope) (items : List Item) : Scope := items.foldl evalItem scope

inductive Abort where
  | unknownCommand
  | noArtifact (variant platform : Text)
  deriving DecidableEq, Repr

/-- `ET_RUNTIME_URL_${_k}` -/
def urlVariable (variant platform : Text) : Text :=
  "ET_RUNTIME_URL_".toList ++ (variant ++ "_".toList ++ platform)

/-- `ET_RUNTIME_SHA256_${_k}` -/
def sha256Variable (variant platform : Text) : Text :=
  "ET_RUNTIME_SHA256_".toList ++ (variant ++ "_".toList ++ platform)

/-- `et_runtime_dist_url(variant platform url sha)`: the two values it sets for its caller. -/
def etRuntimeDistUrl (scope : Scope) (variant platform : Text) : Except Abort (Text × Text) :=
  if scope.distUrl then
    match scope.vars (urlVariable variant platform) with
    | none => .error (.noArtifact variant platform)
    | some url => .ok (url, (scope.vars (sha256Variable variant platform)).getD [])
  else .error .unknownCommand

theorem etRuntimeDistUrl_eq_ok_iff {scope : Scope} (h : scope.distUrl = true)
    {variant platform url sha : Text} :
    etRuntimeDistUrl scope variant platform = .ok (url, sha) ↔
      scope.vars (urlVariable variant platform) = some url ∧
        (scope.vars (sha256Variable variant platform)).getD [] = sha := by
  rw [etRuntimeDistUrl, if_pos h]
  cases scope.vars (urlVariable variant platform) with
  | none => simp
  | some row => simp

end PinFile

/-- A pin file in the form that the release tool writes. -/
structure PinFile where
  items : List PinFile.Item
  selector : ∃ before after, items = before ++ .distUrlFunction :: after

namespace PinFile

def lines (file : PinFile) : List Text := file.items.flatMap Item.lines

/-! ## The last `set()` of a variable decides -/

def Item.valueFor (var : Text) : Item → Option Value
  | .set name _ value => if var = name.text then some value else none
  | _ => none

/-- The value of the last `set()` of a variable, and the items above it. -/
def lastSet (var : Text) : List Item → Option (List Item × Value)
  | [] => none
  | item :: rest =>
    ((lastSet var rest).map fun found => (item :: found.1, found.2)).or
      ((item.valueFor var).map fun value => ([], value))

theorem lastSet_cons_of_some {var : Text} {rest : List Item} {found : List Item × Value} (item : Item)
    (h : lastSet var rest = some found) :
    lastSet var (item :: rest) = some (item :: found.1, found.2) := by
  rw [lastSet, h, Option.map_some, Option.some_or]

theorem lastSet_cons_of_none {var : Text} {rest : List Item} (item : Item)
    (h : lastSet var rest = none) :
    lastSet var (item :: rest) = (item.valueFor var).map fun value => ([], value) := by
  rw [lastSet, h, Option.map_none, Option.none_or]

theorem vars_evalItem_of_none {var : Text} {item : Item} (h : item.valueFor var = none)
    (scope : Scope) : (evalItem scope item).vars var = scope.vars var := by
  cases item with
  | set name gap value =>
    have hName : var ≠ name.text := by
      intro hName
      rw [Item.valueFor, if_pos hName] at h
      cases h
    exact if_neg hName
  | comment text => rfl
  | blank => rfl
  | distUrlFunction => rfl
  | openvinoUrlFunction => rfl

theorem valueFor_eq_some_iff {var : Text} {item : Item} {value : Value} :
    item.valueFor var = some value ↔ ∃ name gap, item = .set name gap value ∧ var = name.text := by
  cases item with
  | set name gap written =>
    by_cases hName : var = name.text
    · simp [Item.valueFor, hName, eq_comm]
    · simp [Item.valueFor, hName]
  | comment text => simp [Item.valueFor]
  | blank => simp [Item.valueFor]
  | distUrlFunction => simp [Item.valueFor]
  | openvinoUrlFunction => simp [Item.valueFor]

theorem vars_of_lastSet_none {var : Text} {items : List Item} (h : lastSet var items = none)
    (scope : Scope) : (evalItems scope items).vars var = scope.vars var := by
  induction items generalizing scope with
  | nil => rfl
  | cons item rest ih =>
    cases hRest : lastSet var rest with
    | some found =>
      rw [lastSet_cons_of_some item hRest] at h
      cases h
    | none =>
      rw [lastSet_cons_of_none item hRest, Option.map_eq_none_iff] at h
      exact (ih hRest (evalItem scope item)).trans (vars_evalItem_of_none h scope)

theorem vars_of_lastSet_some {var : Text} {items above : List Item} {value : Value}
    (h : lastSet var items = some (above, value)) (scope : Scope) :
    (evalItems scope items).vars var = some (value.expand (evalItems scope above).vars) := by
  induction items generalizing scope above with
  | nil => cases h
  | cons item rest ih =>
    cases hRest : lastSet var rest with
    | some found =>
      rw [lastSet_cons_of_some item hRest] at h
      cases h
      exact ih hRest (evalItem scope item)
    | none =>
      rw [lastSet_cons_of_none item hRest] at h
      obtain ⟨written, hWritten, hFound⟩ := Option.map_eq_some_iff.mp h
      cases hFound
      obtain ⟨name, gap, rfl, hName⟩ := valueFor_eq_some_iff.mp hWritten
      exact (vars_of_lastSet_none hRest _).trans (if_pos hName)

theorem mem_of_lastSet {var : Text} {items above : List Item} {value : Value}
    (h : lastSet var items = some (above, value)) :
    ∃ name gap, Item.set name gap value ∈ items := by
  induction items generalizing above with
  | nil => cases h
  | cons item rest ih =>
    cases hRest : lastSet var rest with
    | some found =>
      rw [lastSet_cons_of_some item hRest] at h
      cases h
      obtain ⟨name, gap, hMem⟩ := ih hRest
      exact ⟨name, gap, List.mem_cons_of_mem item hMem⟩
    | none =>
      rw [lastSet_cons_of_none item hRest] at h
      obtain ⟨written, hWritten, hFound⟩ := Option.map_eq_some_iff.mp h
      cases hFound
      obtain ⟨name, gap, rfl, _⟩ := valueFor_eq_some_iff.mp hWritten
      exact ⟨name, gap, List.mem_cons_self⟩

theorem distUrl_evalItems {scope : Scope} {items : List Item} (h : scope.distUrl = true) :
    (evalItems scope items).distUrl = true := by
  induction items generalizing scope with
  | nil => exact h
  | cons item rest ih =>
    apply ih
    cases item with
    | distUrlFunction => rfl
    | set name gap value => exact h
    | comment text => exact h
    | blank => exact h
    | openvinoUrlFunction => exact h

theorem distUrl_of_file (file : PinFile) (scope : Scope) :
    (evalItems scope file.items).distUrl = true := by
  obtain ⟨above, below, hItems⟩ := file.selector
  rw [hItems, evalItems, List.foldl_append, List.foldl_cons]
  exact distUrl_evalItems rfl

/-- Only characters that stand for themselves. -/
def Value.Literal (value : Value) : Prop := ∀ piece ∈ value, ∃ c h, piece = .char c h

theorem Value.expand_of_literal {value : Value} (h : value.Literal) (vars : Text → Option Text) :
    value.expand vars = value.source := by
  apply List.flatMap_congr
  intro piece hPiece
  obtain ⟨c, hc, rfl⟩ := h piece hPiece
  rfl

def linuxRow : Name := ⟨⟨"ET_RUNTIME_URL_logging_linux-x86_64".toList, by decide⟩, by decide⟩

end PinFile

end ExecutorchNumpy
