import ExecutorchNumpy.Openvino
import ExecutorchNumpy.Library.FileTree
import ExecutorchNumpy.Library.Fnmatch
import Mathlib.Data.List.DropRight

/-! # Python's `glob`

A pattern is split at its last slash, the directory part is expanded first, then
the last component is looked for in each of the directories found. Without special
characters a component is only looked up, never compared with the entries.
-/

namespace ExecutorchNumpy
set_option autoImplicit false

open FileTree (FileSystem slash dot)
open Fnmatch (hasMagic fnmatch)

/-- `os.path.split` -/
def osPathSplit (path : PyStr) : PyStr × PyStr :=
  let head := path.rdropWhile fun c => c ≠ slash
  (if head.all fun c => c == slash then head else head.rdropWhile fun c => c = slash,
    path.rtakeWhile fun c => c ≠ slash)

def isHidden (name : PyStr) : Bool := name.head? == some '.'.toNat

section Glob

variable (fs : FileSystem)

/-- `_listdir`: an error of the system counts as an empty directory. -/
def listdir (dirname : PyStr) (dironly : Bool) : List PyStr :=
  let arg := if dirname = [] then dot else dirname
  match fs.scandir arg with
  | none => []
  | some names => names.filter fun name => !dironly || fs.isDir (osPathJoin arg name)

def glob1 (dirname pattern : PyStr) (dironly : Bool) : List PyStr :=
  ((listdir fs dirname dironly).filter fun name => isHidden pattern || !isHidden name).filter
    fun name => fnmatch name pattern

def glob0 (dirname basename : PyStr) : List PyStr :=
  if basename ≠ [] then
    if fs.lexists (osPathJoin dirname basename) then [basename] else []
  else if fs.isDir dirname then [basename] else []

def globInDir (dirname basename : PyStr) (dironly : Bool) : List PyStr :=
  if hasMagic basename then glob1 fs dirname basename dironly else glob0 fs dirname basename

/-- The directory part gets shorter with each call, see `osPathSplit_length_lt`. -/
def iglob : Nat → PyStr → Bool → List PyStr
  | 0, _, _ => []
  | fuel + 1, pathname, dironly =>
    let dirname := (osPathSplit pathname).1
    let basename := (osPathSplit pathname).2
    if hasMagic pathname = false then
      if basename ≠ [] then if fs.lexists pathname then [pathname] else []
      else if fs.isDir dirname then [pathname] else []
    else if dirname = [] then glob1 fs dirname basename dironly
    else
      let dirs := if dirname ≠ pathname ∧ hasMagic dirname = true then iglob fuel dirname true else [dirname]
      dirs.flatMap fun dir => (globInDir fs dir basename dironly).map (osPathJoin dir)

def glob (pathname : PyStr) : List PyStr := iglob fs (pathname.length + 1) pathname false

end Glob

/-! ## Splitting paths -/

theorem osPathJoin_nil (name : PyStr) : osPathJoin [] name = name := by
  rw [osPathJoin]
  split <;> simp

theorem osPathSplit_append (path : PyStr) :
    (path.rdropWhile fun c => c ≠ slash) ++ (osPathSplit path).2 = path :=
  List.rdropWhile_append_rtakeWhile

theorem osPathSplit_dirname_length_le (path : PyStr) :
    (osPathSplit path).1.length ≤ (path.rdropWhile fun c => c ≠ slash).length := by
  rw [osPathSplit]
  split
  · exact le_rfl
  · exact (List.rdropWhile_prefix _ _).length_le

theorem hasMagic_of_slashes {text : PyStr} (h : ∀ c ∈ text, c = slash) : hasMagic text = false := by
  refine List.any_eq_false.mpr fun c hc => ?_
  rw [h c hc]
  exact Bool.false_ne_true

theorem hasMagic_append (first second : PyStr) :
    hasMagic (first ++ second) = (hasMagic first || hasMagic second) := List.any_append

/-- Slashes alone hold no special character, so the directory part of a pattern is never the whole. -/
theorem osPathSplit_length_lt {path : PyStr} (hMagic : hasMagic path = true) :
    (osPathSplit path).1.length < path.length := by
  have hAppend := osPathSplit_append path
  have hLength := congrArg List.length hAppend
  have hDirname := osPathSplit_dirname_length_le path
  rw [List.length_append] at hLength
  cases hBase : (osPathSplit path).2 with
  | cons c rest =>
    rw [hBase, List.length_cons] at hLength
    omega
  | nil =>
    rw [hBase, List.append_nil] at hAppend
    have hNotSlashes : ¬ ∀ c ∈ path, c = slash := by
      intro h
      rw [hasMagic_of_slashes h] at hMagic
      cases hMagic
    have hNe : path ≠ [] := by
      rintro rfl
      exact hNotSlashes (by simp)
    have hLast : path.getLast hNe = slash := by
      simpa using List.rtakeWhile_eq_nil_iff.mp hBase hNe
    have hStripped : (osPathSplit path).1 = path.rdropWhile fun c => c = slash := by
      simp only [osPathSplit, hAppend]
      exact if_neg (by simpa using hNotSlashes)
    rw [hStripped]
    have hProper : (path.rdropWhile fun c => c = slash) ≠ path := fun hSelf =>
      List.rdropWhile_eq_self_iff.mp hSelf hNe (decide_eq_true hLast)
    have hPrefix := List.rdropWhile_prefix (fun c => decide (c = slash)) (l := path)
    exact lt_of_le_of_ne hPrefix.length_le fun hEq => hProper (hPrefix.eq_of_length hEq)

/-- The path is no bare root and has no slash at its end. -/
def EndsInName (path : PyStr) : Prop := ∃ start last, path = start ++ [last] ∧ last ≠ slash

theorem EndsInName.ne_nil {path : PyStr} (h : EndsInName path) : path ≠ [] := by
  obtain ⟨start, last, rfl, _⟩ := h
  exact List.append_ne_nil_of_right_ne_nil start (List.cons_ne_nil _ _)

theorem takeWhile_slash_reverse {base : PyStr} (hBase : slash ∉ base) :
    ∀ c ∈ base.reverse, decide (c ≠ slash) = true := by
  intro c hc
  exact decide_eq_true fun hEq => hBase (hEq ▸ List.mem_reverse.mp hc)

theorem osPathSplit_basename (dir : PyStr) {base : PyStr} (hBase : slash ∉ base) :
    (osPathSplit (dir ++ slash :: base)).2 = base := by
  have hReverse : (dir ++ slash :: base).reverse = base.reverse ++ slash :: dir.reverse := by simp
  rw [osPathSplit, List.rtakeWhile, hReverse,
    List.takeWhile_append_of_pos (takeWhile_slash_reverse hBase)]
  simp

theorem osPathSplit_append_slash {dir base : PyStr} (hDir : EndsInName dir) (hBase : slash ∉ base) :
    osPathSplit (dir ++ slash :: base) = (dir, base) := by
  refine Prod.ext ?_ (osPathSplit_basename dir hBase)
  obtain ⟨start, last, rfl, hLast⟩ := hDir
  have hReverse : (start ++ [last] ++ slash :: base).reverse =
      base.reverse ++ slash :: last :: start.reverse := by simp
  have hHead : ((start ++ [last] ++ slash :: base).rdropWhile fun c => c ≠ slash) =
      start ++ [last] ++ [slash] := by
    rw [List.rdropWhile, hReverse, List.dropWhile_append_of_pos (takeWhile_slash_reverse hBase)]
    simp
  have hNotSlashes : ((start ++ [last] ++ [slash]).all fun c => c == slash) = false := by
    simp [hLast]
  have hStripped : ((start ++ [last] ++ [slash]).rdropWhile fun c => c = slash) = start ++ [last] := by
    rw [List.rdropWhile_concat_pos (fun c => decide (c = slash)) _ _ (decide_eq_true rfl)]
    exact List.rdropWhile_concat_neg _ _ _ (by simpa using hLast)
  rw [osPathSplit]
  simp only [hHead, hNotSlashes, hStripped, Bool.false_eq_true, if_false]

theorem osPathJoin_eq {dir name : PyStr} (hDir : EndsInName dir) (hName : slash ∉ name) :
    osPathJoin dir name = dir ++ slash :: name := by
  have hHead : ¬ name.head? = some slash := fun h => hName (List.mem_of_mem_head? h)
  have hEnds : ¬ (dir = [] ∨ dir.getLast? = some slash) := by
    rintro (h | h)
    · exact hDir.ne_nil h
    · obtain ⟨start, last, rfl, hLast⟩ := hDir
      rw [List.getLast?_concat, Option.some.injEq] at h
      exact hLast h
  exact (if_neg hHead).trans (if_neg hEnds)

theorem osPathSplit_join {dir name : PyStr} (hDir : EndsInName dir) (hName : slash ∉ name) :
    osPathSplit (osPathJoin dir name) = (dir, name) := by
  rw [osPathJoin_eq hDir hName, osPathSplit_append_slash hDir hName]

theorem endsInName_join (dir : PyStr) {name : PyStr} (hName : EndsInName name) :
    EndsInName (osPathJoin dir name) := by
  obtain ⟨start, last, rfl, hLast⟩ := hName
  rw [osPathJoin]
  split
  · exact ⟨start, last, rfl, hLast⟩
  · split
    · exact ⟨dir ++ start, last, by simp, hLast⟩
    · exact ⟨dir ++ slash :: start, last, by simp [slash], hLast⟩

theorem hasMagic_osPathJoin {dir name : PyStr} (hDir : hasMagic dir = false) (hName : hasMagic name = false) :
    hasMagic (osPathJoin dir name) = false := by
  rw [osPathJoin]
  split
  · exact hName
  · split
    · rw [hasMagic_append, hDir, hName]
      rfl
    · rw [hasMagic_append, hDir]
      exact hName

theorem osPathJoin_le_iff {dir first second : PyStr} (hDir : EndsInName dir) (hFirst : slash ∉ first)
    (hSecond : slash ∉ second) : osPathJoin dir first ≤ osPathJoin dir second ↔ first ≤ second := by
  have hLt : ∀ a b : PyStr, a < b → dir ++ slash :: a < dir ++ slash :: b := by
    intro a b hab
    simpa using @List.append_left_lt Nat _ (dir ++ [slash]) a b hab
  rw [osPathJoin_eq hDir hFirst, osPathJoin_eq hDir hSecond]
  constructor
  · intro hLe
    by_contra hNot
    exact absurd (hLt _ _ (not_le.mp hNot)) (not_lt.mpr hLe)
  · intro hLe
    rcases eq_or_lt_of_le hLe with rfl | h
    · exact le_rfl
    · exact le_of_lt (hLt _ _ h)

theorem hasMagic_of_dirname_nil {path : PyStr} (hMagic : hasMagic path = true)
    (hDir : (osPathSplit path).1 = []) : hasMagic (osPathSplit path).2 = true := by
  have hSlashes : ∀ c ∈ path.rdropWhile fun c => c ≠ slash, c = slash := by
    simp only [osPathSplit] at hDir
    split at hDir
    · rw [hDir]
      simp
    · simpa using List.rdropWhile_eq_nil_iff.mp hDir
  rw [← osPathSplit_append path, hasMagic_append, hasMagic_of_slashes hSlashes] at hMagic
  exact hMagic

theorem slash_notMem_of_listdir {fs : FileSystem} {dirname name : PyStr} {dironly : Bool}
    (h : name ∈ listdir fs dirname dironly) : slash ∉ name := by
  simp only [listdir] at h
  generalize (if dirname = [] then dot else dirname) = arg at h
  cases hNames : fs.scandir arg with
  | none =>
    rw [hNames] at h
    cases h
  | some names =>
    rw [hNames] at h
    exact (FileSystem.legal_of_scandir hNames (List.mem_of_mem_filter h)).2.2.2.1

/-! ## What a pattern expands to -/

/-- A component with special characters stands for the entries that it matches, and for hidden ones only
if it begins with a dot itself; any other component stands for itself if it exists. -/
def Fits (fs : FileSystem) (dironly : Bool) (dir pattern name : PyStr) : Prop :=
  if hasMagic pattern = true then
    name ∈ listdir fs dir dironly ∧ (isHidden name = true → isHidden pattern = true) ∧
      fnmatch name pattern = true
  else name = pattern ∧ if name = [] then fs.isDir dir = true else fs.lexists (osPathJoin dir name) = true

/-- The directories that the directory part of a pattern stands for. -/
inductive Expands (fs : FileSystem) : PyStr → PyStr → Prop where
  | literal {path : PyStr} : hasMagic path = false → Expands fs path path
  | component {path dir name : PyStr} : hasMagic path = true → Expands fs (osPathSplit path).1 dir →
      Fits fs true dir (osPathSplit path).2 name → Expands fs path (osPathJoin dir name)

theorem mem_glob1_iff (fs : FileSystem) (dir pattern name : PyStr) (dironly : Bool) :
    name ∈ glob1 fs dir pattern dironly ↔ name ∈ listdir fs dir dironly ∧
      (isHidden name = true → isHidden pattern = true) ∧ fnmatch name pattern = true := by
  have hHidden : (isHidden pattern || !isHidden name) = true ↔
      (isHidden name = true → isHidden pattern = true) := by
    cases isHidden pattern <;> cases isHidden name <;> decide
  simp only [glob1, List.mem_filter, hHidden, and_assoc]

theorem mem_glob0_iff (fs : FileSystem) (dir basename name : PyStr) :
    name ∈ glob0 fs dir basename ↔ name = basename ∧
      if name = [] then fs.isDir dir = true else fs.lexists (osPathJoin dir name) = true := by
  rw [glob0]
  cases basename with
  | nil =>
    rw [if_neg (not_not.mpr rfl), List.mem_ite_nil_right, List.mem_singleton, and_comm]
    refine and_congr_right ?_
    rintro rfl
    rw [if_pos rfl]
  | cons c rest =>
    have hNe : c :: rest ≠ [] := List.cons_ne_nil c rest
    rw [if_pos hNe, List.mem_ite_nil_right, List.mem_singleton, and_comm]
    refine and_congr_right ?_
    rintro rfl
    rw [if_neg hNe]

theorem mem_globInDir_iff (fs : FileSystem) (dir pattern name : PyStr) (dironly : Bool) :
    name ∈ globInDir fs dir pattern dironly ↔ Fits fs dironly dir pattern name := by
  rw [globInDir, Fits]
  split
  · exact mem_glob1_iff fs dir pattern name dironly
  · exact mem_glob0_iff fs dir pattern name

theorem Expands.eq_of_literal {fs : FileSystem} {path dir : PyStr} (hLiteral : hasMagic path = false)
    (h : Expands fs path dir) : dir = path := by
  cases h with
  | literal => rfl
  | component hMagic =>
    rw [hLiteral] at hMagic
    cases hMagic

theorem expands_iff_of_magic {fs : FileSystem} {path dir : PyStr} (hMagic : hasMagic path = true) :
    Expands fs path dir ↔ ∃ parent name, Expands fs (osPathSplit path).1 parent ∧
      Fits fs true parent (osPathSplit path).2 name ∧ dir = osPathJoin parent name := by
  constructor
  · intro h
    cases h with
    | literal hLiteral =>
      rw [hLiteral] at hMagic
      cases hMagic
    | component _ hParent hName => exact ⟨_, _, hParent, hName, rfl⟩
  · rintro ⟨parent, name, hParent, hName, rfl⟩
    exact .component hMagic hParent hName

/-- What `iglob` goes through for the directory part, where `found` is its own result for that. -/
theorem mem_dirs_iff {fs : FileSystem} {dirname path : PyStr} {found : List PyStr} (hNe : dirname ≠ path)
    (hFound : hasMagic dirname = true → ∀ dir, dir ∈ found ↔ Expands fs dirname dir) (dir : PyStr) :
    dir ∈ (if dirname ≠ path ∧ hasMagic dirname = true then found else [dirname]) ↔
      Expands fs dirname dir := by
  cases hMagic : hasMagic dirname with
  | false =>
    rw [if_neg (by simp), List.mem_singleton]
    constructor
    · rintro rfl
      exact .literal hMagic
    · exact Expands.eq_of_literal hMagic
  | true =>
    rw [if_pos ⟨hNe, rfl⟩]
    exact hFound hMagic dir

theorem mem_iglob_iff (fs : FileSystem) {fuel : Nat} {path found : PyStr} {dironly : Bool}
    (hFuel : path.length < fuel) (hMagic : hasMagic path = true) :
    found ∈ iglob fs fuel path dironly ↔ ∃ dir name, Expands fs (osPathSplit path).1 dir ∧
      Fits fs dironly dir (osPathSplit path).2 name ∧ found = osPathJoin dir name := by
  induction fuel generalizing path found dironly with
  | zero => omega
  | succ fuel ih =>
    have hShorter := osPathSplit_length_lt hMagic
    rw [iglob]
    simp only [hMagic, Bool.true_eq_false, if_false]
    split
    · rename_i hDir
      have hInDir : ∀ dir, globInDir fs dir (osPathSplit path).2 dironly =
          glob1 fs dir (osPathSplit path).2 dironly :=
        fun dir => if_pos (hasMagic_of_dirname_nil hMagic hDir)
      simp only [← mem_globInDir_iff, hInDir, hDir]
      constructor
      · intro hFound
        exact ⟨[], found, .literal rfl, hFound, (osPathJoin_nil found).symm⟩
      · rintro ⟨dir, name, hDirs, hName, rfl⟩
        rw [hDirs.eq_of_literal rfl] at hName ⊢
        rwa [osPathJoin_nil]
    · have hNe : (osPathSplit path).1 ≠ path := fun hEq => hShorter.ne (congrArg List.length hEq)
      have hDirs := @mem_dirs_iff fs _ path (iglob fs fuel (osPathSplit path).1 true) hNe
        fun hDirMagic dir => (ih (by omega) hDirMagic).trans (expands_iff_of_magic hDirMagic).symm
      simp only [List.mem_flatMap, hDirs, List.mem_map, mem_globInDir_iff]
      constructor
      · rintro ⟨dir, hDir, name, hName, rfl⟩
        exact ⟨dir, name, hDir, hName, rfl⟩
      · rintro ⟨dir, name, hDir, hName, rfl⟩
        exact ⟨dir, hDir, name, hName, rfl⟩

theorem mem_glob_iff (fs : FileSystem) {path found : PyStr} (hMagic : hasMagic path = true) :
    found ∈ glob fs path ↔ ∃ dir name, Expands fs (osPathSplit path).1 dir ∧
      Fits fs false dir (osPathSplit path).2 name ∧ found = osPathJoin dir name :=
  mem_iglob_iff fs (Nat.lt_succ_self _) hMagic

end ExecutorchNumpy
