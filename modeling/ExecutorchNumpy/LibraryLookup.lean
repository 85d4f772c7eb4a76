import ExecutorchNumpy.Glob
import ExecutorchNumpy.OpenvinoAgreement

/-! # Finding the OpenVINO library

The directory of the installed package goes into a pattern as it is, so its own
characters may be special, and whatever the pattern finds is taken for a file.
-/

namespace ExecutorchNumpy
set_option autoImplicit false

open FileTree (FileSystem slash)
open Fnmatch (hasMagic)

/-! ## The lookup on a file system -/

/-- An absolute path of the system. -/
structure InstallPath where
  path : PyStr
  absolute : path.head? = some slash
  noNul : 0 ∉ path

def InstallPath.libs (location : InstallPath) : PyStr := osPathJoin location.path (py "libs")

/-- The package is installed at the first of its search locations. -/
def installedAt (interp : Interpreter) (fs : FileSystem) (location : InstallPath) (more : List PyStr) :
    Interpreter :=
  { interp with findSpec := some (some (location.path :: more)), glob := glob fs }

def libraryName : PyStr := py "libopenvino_c.so"

/-- An entry that the last component of the pattern matches, whatever it is. -/
def Candidate (fs : FileSystem) (dir name : PyStr) : Prop :=
  name ∈ listdir fs dir false ∧ libraryName <+: name

/-- An entry that is a regular file, links followed. -/
def Library (fs : FileSystem) (dir name : PyStr) : Prop :=
  Candidate fs dir name ∧ fs.isFile (osPathJoin dir name) = true

/-- `wheelLibPath` finds a library in this place exactly if there is one, and the next load accepts it:
there the value is set, and the host sees at it what the file system has at the path. -/
structure FindsLibrary (interp : Interpreter) (fs : FileSystem) (libs : PyStr) : Prop where
  returns_iff : (∃ path, wheelLibPath interp = .ok path) ↔ ∃ name, Library fs libs name
  returns_library : ∀ path, wheelLibPath interp = .ok path →
    ∃ name, Library fs libs name ∧ path = osPathJoin libs name
  next_load : ∀ (host : Host) (path : PyStr) (lib : EnvValue), wheelLibPath interp = .ok path →
    setEnviron interp path = .ok lib → host.isRegular lib.val = fs.isFile path →
      resolveLibPath interp host (some lib) = .ok (some lib)

/-- The directory matches itself when it holds a library, its first candidate is a regular file, and no
other directory that it matches as a pattern has a candidate in front of that. -/
structure LookupSafe (fs : FileSystem) (libs : PyStr) : Prop where
  own : (∃ name, Library fs libs name) → Expands fs libs libs
  first : Expands fs libs libs → ∀ name, Candidate fs libs name →
    (∀ other, Candidate fs libs other → name ≤ other) → fs.isFile (osPathJoin libs name) = true
  others : ∀ dir name, Expands fs libs dir → dir ≠ libs → Candidate fs dir name →
    Expands fs libs libs ∧ ∃ name', Candidate fs libs name' ∧ osPathJoin libs name' ≤ osPathJoin dir name

/-! ## Sorted matches -/

theorem sorted_eq_cons {strings rest : List PyStr} {first : PyStr} (h : sorted strings = first :: rest) :
    first ∈ strings ∧ ∀ text ∈ strings, first ≤ text := by
  have hMem : ∀ text, text ∈ strings ↔ text ∈ first :: rest := by
    intro text
    rw [← h, sorted, List.mem_mergeSort]
  have hTotal : ∀ a b : PyStr, (decide (a ≤ b) || decide (b ≤ a)) = true := by
    intro a b
    simpa only [Bool.or_eq_true, decide_eq_true_eq] using le_total a b
  have hTrans : ∀ a b c : PyStr, decide (a ≤ b) = true → decide (b ≤ c) = true → decide (a ≤ c) = true := by
    intro a b c hab hbc
    exact decide_eq_true (le_trans (of_decide_eq_true hab) (of_decide_eq_true hbc))
  have hPairwise := List.pairwise_mergeSort hTrans hTotal strings
  rw [← sorted, h] at hPairwise
  refine ⟨(hMem first).mpr List.mem_cons_self, fun text hText => ?_⟩
  rcases List.mem_cons.mp ((hMem text).mp hText) with rfl | hRest
  · exact le_rfl
  · exact of_decide_eq_true (List.rel_of_pairwise_cons hPairwise hRest)

theorem exists_sorted_eq_cons {strings : List PyStr} {text : PyStr} (hText : text ∈ strings) :
    ∃ first rest, sorted strings = first :: rest := by
  refine List.exists_cons_of_ne_nil fun hNil => ?_
  have hSorted : text ∈ sorted strings := List.mem_mergeSort.mpr hText
  rw [hNil] at hSorted
  cases hSorted

/-! ## What the pattern finds -/

def Found (fs : FileSystem) (libs path : PyStr) : Prop :=
  ∃ dir name, Expands fs libs dir ∧ Candidate fs dir name ∧ path = osPathJoin dir name

theorem slash_notMem_libs : slash ∉ py "libs" := by decide

theorem slash_notMem_libraryPattern : slash ∉ py "libopenvino_c.so*" := by decide

theorem InstallPath.libs_eq (location : InstallPath) :
    ∃ dir, location.libs = dir ++ slash :: py "libs" := by
  have hHead : ¬ (py "libs").head? = some slash := by decide
  have hNe : location.path ≠ [] := by
    intro h
    have hAbsolute := location.absolute
    rw [h] at hAbsolute
    cases hAbsolute
  by_cases hEnds : location.path.getLast? = some slash
  · obtain ⟨dir, hDir⟩ := List.getLast?_eq_some_iff.mp hEnds
    refine ⟨dir, ?_⟩
    rw [InstallPath.libs]
    refine (if_neg hHead).trans ((if_pos (Or.inr hEnds)).trans ?_)
    rw [hDir, List.append_assoc, List.singleton_append]
  · refine ⟨location.path, ?_⟩
    rw [InstallPath.libs]
    exact (if_neg hHead).trans (if_neg fun h => h.elim hNe hEnds)

theorem endsInName_libs : EndsInName (py "libs") := ⟨py "lib", 's'.toNat, by decide, by decide⟩

theorem InstallPath.endsInName (location : InstallPath) : EndsInName location.libs :=
  endsInName_join location.path endsInName_libs

theorem Expands.endsInName {fs : FileSystem} {location : InstallPath} {dir : PyStr}
    (h : Expands fs location.libs dir) : EndsInName dir := by
  cases hMagic : hasMagic location.libs with
  | false =>
    rw [h.eq_of_literal hMagic]
    exact location.endsInName
  | true =>
    obtain ⟨parent, name, _, hName, rfl⟩ := (expands_iff_of_magic hMagic).mp h
    obtain ⟨start, hLibs⟩ := location.libs_eq
    have hPlain : ¬ hasMagic (py "libs") = true := by decide
    rw [hLibs, osPathSplit_basename start slash_notMem_libs, Fits, if_neg hPlain] at hName
    rw [hName.1]
    exact endsInName_join parent endsInName_libs

theorem Candidate.slash_notMem {fs : FileSystem} {dir name : PyStr} (h : Candidate fs dir name) :
    slash ∉ name := slash_notMem_of_listdir h.1

theorem fits_libraryPattern_iff (fs : FileSystem) (dir name : PyStr) :
    Fits fs false dir (py "libopenvino_c.so*") name ↔ Candidate fs dir name := by
  have hMagic : hasMagic (py "libopenvino_c.so*") = true := by decide
  have hPlain : hasMagic libraryName = false := by decide
  have hPattern : py "libopenvino_c.so*" = libraryName ++ [Fnmatch.star] := by decide
  rw [Fits, if_pos hMagic, hPattern, Fnmatch.fnmatch_literal_star hPlain, Candidate]
  constructor
  · rintro ⟨hListed, _, hName⟩
    exact ⟨hListed, hName⟩
  · rintro ⟨hListed, hName⟩
    refine ⟨hListed, fun hHidden => ?_, hName⟩
    obtain ⟨more, rfl⟩ := hName
    exact absurd hHidden (by simp [isHidden, libraryName, py])

theorem mem_glob_libraryPattern_iff (fs : FileSystem) (location : InstallPath) (path : PyStr) :
    path ∈ glob fs (osPathJoin location.libs (py "libopenvino_c.so*")) ↔ Found fs location.libs path := by
  have hMagic : hasMagic (osPathJoin location.libs (py "libopenvino_c.so*")) = true := by
    rw [osPathJoin_eq location.endsInName slash_notMem_libraryPattern, hasMagic_append]
    exact Bool.or_eq_true_iff.mpr (Or.inr (by decide))
  rw [mem_glob_iff fs hMagic, osPathSplit_join location.endsInName slash_notMem_libraryPattern]
  simp only [fits_libraryPattern_iff, Found]

section Found

variable {fs : FileSystem} {location : InstallPath}

/-- A found path tells its directory and its name. -/
theorem Found.parts {dir name name' : PyStr} (hDir : Expands fs location.libs dir)
    (hName : Candidate fs dir name) (hName' : Candidate fs location.libs name')
    (h : osPathJoin location.libs name' = osPathJoin dir name) : dir = location.libs ∧ name = name' := by
  have hSplit := osPathSplit_join location.endsInName hName'.slash_notMem
  rw [h, osPathSplit_join hDir.endsInName hName.slash_notMem] at hSplit
  exact Prod.mk.inj hSplit

theorem Candidate.found {name : PyStr} (h : Candidate fs location.libs name)
    (hOwn : Expands fs location.libs location.libs) : Found fs location.libs (osPathJoin location.libs name) :=
  ⟨location.libs, name, hOwn, h, rfl⟩

theorem Library.found_of_safe (h : LookupSafe fs location.libs) {name : PyStr}
    (hLibrary : Library fs location.libs name) : Found fs location.libs (osPathJoin location.libs name) :=
  hLibrary.1.found (h.own ⟨name, hLibrary⟩)

theorem library_of_least (h : LookupSafe fs location.libs) {path : PyStr}
    (hFound : Found fs location.libs path) (hLeast : ∀ other, Found fs location.libs other → path ≤ other) :
    ∃ name, Library fs location.libs name ∧ path = osPathJoin location.libs name := by
  obtain ⟨dir, name, hDir, hName, rfl⟩ := hFound
  by_cases hOwnDir : dir = location.libs
  · rw [hOwnDir] at hDir hName hLeast ⊢
    refine ⟨name, ⟨hName, h.first hDir name hName fun other hOther => ?_⟩, rfl⟩
    exact (osPathJoin_le_iff location.endsInName hName.slash_notMem hOther.slash_notMem).mp
      (hLeast _ (hOther.found hDir))
  · -- a candidate of the directory itself sorts at least as early, so the least path cannot be this one
    obtain ⟨hOwn, name', hName', hLe⟩ := h.others dir name hDir hOwnDir hName
    have hEq := le_antisymm hLe (hLeast _ (hName'.found hOwn))
    exact absurd (Found.parts hDir hName hName' hEq).1 hOwnDir

end Found

/-! ## What the lookup returns -/

section Lookup

variable (interp : Interpreter) (fs : FileSystem) (location : InstallPath) (more : List PyStr)

theorem wheelLibPath_installedAt (path : PyStr) :
    wheelLibPath (installedAt interp fs location more) = .ok path ↔
      Found fs location.libs path ∧ ∀ other, Found fs location.libs other → path ≤ other := by
  have hMatches : libraryMatches (installedAt interp fs location more) location.path =
      sorted (glob fs (osPathJoin location.libs (py "libopenvino_c.so*"))) := rfl
  have hOk : wheelLibPath (installedAt interp fs location more) = .ok path ↔
      ∃ rest, sorted (glob fs (osPathJoin location.libs (py "libopenvino_c.so*"))) = path :: rest := by
    rw [wheelLibPath_eq_ok_iff, ← hMatches]
    constructor
    · rintro ⟨first, _, rest, hSpec, hRest⟩
      obtain ⟨rfl, _⟩ : location.path = first ∧ _ := by simpa [installedAt] using hSpec
      exact ⟨rest, hRest⟩
    · rintro ⟨rest, hRest⟩
      exact ⟨location.path, more, rest, rfl, hRest⟩
  rw [hOk]
  simp only [← mem_glob_libraryPattern_iff]
  constructor
  · rintro ⟨rest, hRest⟩
    exact sorted_eq_cons hRest
  · rintro ⟨hFound, hLeast⟩
    obtain ⟨first, rest, hSorted⟩ := exists_sorted_eq_cons hFound
    obtain ⟨hFirst, hFirstLeast⟩ := sorted_eq_cons hSorted
    exact ⟨rest, by rw [hSorted, le_antisymm (hLeast first hFirst) (hFirstLeast path hFound)]⟩

theorem wheelLibPath_returns_iff :
    (∃ path, wheelLibPath (installedAt interp fs location more) = .ok path) ↔
      ∃ path, Found fs location.libs path := by
  simp only [wheelLibPath_installedAt]
  constructor
  · rintro ⟨path, hFound, _⟩
    exact ⟨path, hFound⟩
  · rintro ⟨path, hFound⟩
    obtain ⟨first, rest, hSorted⟩ :=
      exists_sorted_eq_cons ((mem_glob_libraryPattern_iff fs location path).mpr hFound)
    obtain ⟨hFirst, hLeast⟩ := sorted_eq_cons hSorted
    simp only [mem_glob_libraryPattern_iff] at hFirst hLeast
    exact ⟨first, hFirst, hLeast⟩

theorem findsLibrary_of_safe (h : LookupSafe fs location.libs) :
    FindsLibrary (installedAt interp fs location more) fs location.libs := by
  have hReturned : ∀ path, wheelLibPath (installedAt interp fs location more) = .ok path →
      ∃ name, Library fs location.libs name ∧ path = osPathJoin location.libs name := by
    intro path hPath
    obtain ⟨hFound, hLeast⟩ := (wheelLibPath_installedAt interp fs location more path).mp hPath
    exact library_of_least h hFound hLeast
  refine ⟨⟨?_, ?_⟩, hReturned, ?_⟩
  · rintro ⟨path, hPath⟩
    obtain ⟨name, hLibrary, _⟩ := hReturned path hPath
    exact ⟨name, hLibrary⟩
  · rintro ⟨name, hLibrary⟩
    exact (wheelLibPath_returns_iff interp fs location more).mpr
      ⟨_, hLibrary.found_of_safe h⟩
  · intro host path lib hPath _ hHost
    obtain ⟨name, hLibrary, rfl⟩ := hReturned path hPath
    exact (resolveLibPath_set _ host lib (some lib)).mpr ⟨hHost.trans hLibrary.2, rfl⟩

/-- Where the lookup is right, all that is found comes behind a library of the directory itself. -/
theorem library_before_found (h : FindsLibrary (installedAt interp fs location more) fs location.libs)
    {path : PyStr} (hFound : Found fs location.libs path) :
    Expands fs location.libs location.libs ∧ ∃ name, Library fs location.libs name ∧
      osPathJoin location.libs name ≤ path := by
  obtain ⟨first, hFirst⟩ := (wheelLibPath_returns_iff interp fs location more).mpr ⟨path, hFound⟩
  obtain ⟨name, hLibrary, rfl⟩ := h.returns_library first hFirst
  obtain ⟨⟨dir, name', hDir, hName', hEq⟩, hLeast⟩ :=
    (wheelLibPath_installedAt interp fs location more _).mp hFirst
  obtain ⟨rfl, _⟩ := Found.parts hDir hName' hLibrary.1 hEq
  exact ⟨hDir, name, hLibrary, hLeast path hFound⟩

theorem safe_of_findsLibrary (h : FindsLibrary (installedAt interp fs location more) fs location.libs) :
    LookupSafe fs location.libs := by
  refine ⟨?_, ?_, ?_⟩
  · intro hLibrary
    obtain ⟨path, hPath⟩ := h.returns_iff.mpr hLibrary
    exact (library_before_found interp fs location more h
      ((wheelLibPath_installedAt interp fs location more path).mp hPath).1).1
  · intro hOwn name hName hLeast
    obtain ⟨_, name', hLibrary, hLe⟩ :=
      library_before_found interp fs location more h (hName.found hOwn)
    rw [osPathJoin_le_iff location.endsInName hLibrary.1.slash_notMem hName.slash_notMem] at hLe
    rw [le_antisymm (hLeast name' hLibrary.1) hLe]
    exact hLibrary.2
  · intro dir name hDir _ hName
    obtain ⟨hOwn, name', hLibrary, hLe⟩ :=
      library_before_found interp fs location more h ⟨dir, name, hDir, hName, rfl⟩
    exact ⟨hOwn, name', hLibrary.1, hLe⟩

/-- The lookup is right on a file system exactly when that is safe for it. -/
theorem findsLibrary_iff :
    FindsLibrary (installedAt interp fs location more) fs location.libs ↔ LookupSafe fs location.libs :=
  ⟨safe_of_findsLibrary interp fs location more, findsLibrary_of_safe interp fs location more⟩

/-- Without special characters in the path of the package only the order of the candidates counts. -/
theorem lookupSafe_iff_of_plain (hPlain : hasMagic location.path = false) :
    LookupSafe fs location.libs ↔ ∀ name, Candidate fs location.libs name →
      (∀ other, Candidate fs location.libs other → name ≤ other) →
        fs.isFile (osPathJoin location.libs name) = true := by
  have hLibs : hasMagic location.libs = false := hasMagic_osPathJoin hPlain (by decide)
  constructor
  · intro h
    exact h.first (.literal hLibs)
  · intro h
    refine ⟨fun _ => .literal hLibs, fun _ => h, fun dir name hDir hOther _ => ?_⟩
    exact absurd (hDir.eq_of_literal hLibs) hOther

end Lookup

/-! ## Lookups that go wrong -/

def packageDirectory : FileTree.Directory := ⟨0, [(py "libs", 2)], by decide, by decide⟩

/-- A root with one package, whose libraries may be the file 3 or a link to nothing. -/
def packageTree (top libs : FileTree.Directory) : FileSystem where
  node n :=
    if n = 0 then .directory top
    else if n = 1 then .directory packageDirectory
    else if n = 2 then .directory libs
    else if n = 3 then .regular
    else .link (py "gone")
  root := 0
  workingDirectory := 0

def bracketedPath : InstallPath := ⟨py "/e[3]", by decide, by decide⟩

def bracketed : FileSystem :=
  packageTree ⟨0, [(py "e[3]", 1)], by decide, by decide⟩ ⟨1, [(libraryName, 3)], by decide, by decide⟩

def plainPath : InstallPath := ⟨py "/e", by decide, by decide⟩

def dangling : FileSystem :=
  packageTree ⟨0, [(py "e", 1)], by decide, by decide⟩
    ⟨1, [(libraryName, 4), (py "libopenvino_c.so.1", 3)], by decide, by decide⟩

theorem library_bracketed : Library bracketed bracketedPath.libs libraryName :=
  ⟨⟨by decide +kernel, List.prefix_rfl⟩, by decide +kernel⟩

theorem glob_bracketed : glob bracketed (osPathJoin bracketedPath.libs (py "libopenvino_c.so*")) = [] := by
  decide +kernel

theorem candidate_dangling : Candidate dangling plainPath.libs libraryName :=
  ⟨by decide +kernel, List.prefix_rfl⟩

theorem isFile_dangling : dangling.isFile (osPathJoin plainPath.libs libraryName) = false := by
  decide +kernel

/-- Nothing is found under a path with brackets, and a dangling link is returned before the library. -/
theorem not_findsLibrary :
    ¬ FindsLibrary (installedAt bareInterpreter bracketed bracketedPath []) bracketed bracketedPath.libs ∧
      ¬ FindsLibrary (installedAt bareInterpreter dangling plainPath []) dangling plainPath.libs := by
  constructor
  · intro h
    have hReturns := h.returns_iff.mpr ⟨libraryName, library_bracketed⟩
    obtain ⟨path, hFound⟩ := (wheelLibPath_returns_iff _ _ _ _).mp hReturns
    rw [← mem_glob_libraryPattern_iff, glob_bracketed] at hFound
    cases hFound
  · intro h
    have hPlain : hasMagic plainPath.libs = false := by decide
    have hRegular := (safe_of_findsLibrary _ _ _ _ h).first (.literal hPlain) libraryName candidate_dangling
      fun other hOther => by
        obtain ⟨more, rfl⟩ := hOther.2
        exact not_lt.mp (@List.le_append_left Nat _ _ libraryName more)
    rw [isFile_dangling] at hRegular
    cases hRegular

end ExecutorchNumpy
