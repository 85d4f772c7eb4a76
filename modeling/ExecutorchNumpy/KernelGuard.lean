import ExecutorchNumpy.Library.CmakeValues
import ExecutorchNumpy.Library.SpencerRegex

/-! # The registration guard

`Kernels.cmake` turns the list of kernel sources into expected symbol names, and
`assert_kernels_registered.cmake` looks for them in the output of `nm`. A text is
a string of bytes here; a byte is the character of its code.
-/

namespace ExecutorchNumpy
set_option autoImplicit false

open CmakeValues (Text isOff items unquoted listAppend PlainItem)
open SpencerRegex (Regex compile matchAll escapeDots literal occurrences places PlainPattern)

namespace KernelGuard

/-! ## The expected symbols -/

/-- `get_filename_component(… NAME)` -/
def fileName (path : Text) : Text := (path.reverse.takeWhile (· != '/')).reverse

def registrar (base : Text) : Text := "_GLOBAL__sub_I_".toList ++ base

/-- `_etnp_kernel_sources` -/
def kernelSources (buildReference : Bool) (listDir extra : Text) : Text :=
  let bundled := if buildReference then
    listAppend [] [listDir ++ "/../kernels/reference/etnp_reference_ops.cpp".toList] else []
  listAppend bundled (unquoted extra)

/-- The list that the loop of `Kernels.cmake` goes through. -/
def sourceList (sources : Text) : List Text := if isOff sources then [] else items sources

/-- `ETNP_KERNEL_EXPECT_TUS` -/
def expectTus (sources : List Text) : Text :=
  sources.foldl (fun tus src => listAppend tus [registrar (fileName src)]) []

/-! ## The guard -/

/-- One line of `nm`: address and type, then the name. -/
structure NmSymbol where
  columns : Text
  name : Text
  plainColumns : '\n' ∉ columns ∧ '_' ∉ columns
  oneLine : '\n' ∉ name

def NmSymbol.line (s : NmSymbol) : Text := s.columns ++ s.name

def nmText (table : List NmSymbol) : Text := table.flatMap fun s => s.line ++ ['\n']

inductive GuardError where
  | backendDropped (tu : Text)
  | codegenDropped (expected found : Nat)
  | badPattern (tu : Text)
  | kernelDropped (tu : Text)
  deriving DecidableEq, Repr

def xnnpack : Text := "_GLOBAL__sub_I_XNNPACKBackend".toList

def codegen : Text := "_GLOBAL__sub_I_RegisterCodegenUnboxedKernelsEverything.cpp".toList

/-- `string(REGEX MATCHALL <pattern> …)` and `list(LENGTH …)` of its result. -/
def matchCount (pattern syms : Text) : Option Nat :=
  ((compile pattern).bind fun r => matchAll r syms).map fun found =>
    (items (List.intercalate [';'] found)).length

def checkTu (syms tu : Text) : Except GuardError Unit :=
  if tu = [] then .ok ()
  else
    match matchCount (escapeDots tu) syms with
    | none => .error (.badPattern tu)
    | some n => if n < 1 then .error (.kernelDropped tu) else .ok ()

def checkTus (syms : Text) : List Text → Except GuardError Unit
  | [] => .ok ()
  | tu :: tus =>
    match checkTu syms tu with
    | .error e => .error e
    | .ok () => checkTus syms tus

/-- `assert_kernels_registered.cmake`, once `nm` has printed the symbols. -/
def assertKernelsRegistered (syms : Text) (expectCodegen : Option Nat) (extraTus : Text) :
    Except GuardError Unit :=
  if ¬ xnnpack <:+: syms then .error (.backendDropped xnnpack)
  else
    let expected := expectCodegen.getD 2
    match matchCount (escapeDots codegen) syms with
    | none => .error (.badPattern codegen)
    | some n =>
      if n < expected then .error (.codegenDropped expected n) else checkTus syms (items extraTus)

/-! ## What the guard is for -/

def count (table : List NmSymbol) (name : Text) : Nat := table.countP fun s => s.name = name

/-- Nothing that was linked in has been dropped. -/
structure AllRegistered (sources : List Text) (expected : Nat) (table : List NmSymbol) : Prop where
  codegen : expected ≤ count table codegen
  kernels : ∀ base, sources.countP (fun src => fileName src = base) ≤ count table (registrar base)

/-- The guard neither misses a dropped kernel nor rejects a good build. -/
def GuardRight (sources : List Text) (expectCodegen : Option Nat) (table : List NmSymbol) : Prop :=
  assertKernelsRegistered (nmText table) expectCodegen (expectTus sources) = .ok () ↔
    AllRegistered sources (expectCodegen.getD 2) table

/-! ## How the guard can be misled -/

def kernelTus (sources : List Text) : List Text := sources.map fun src => registrar (fileName src)

/-- The places at which longer symbols hold a name. -/
def partsOf (table : List NmSymbol) (name : Text) : Nat :=
  table.foldr (fun s found => if s.name = name then found else places name s.name + found) 0

/-- A symbol has the name, or a longer one that contains it, as the `.cold` part of a function has. -/
def Held (table : List NmSymbol) (name : Text) : Prop := ∃ s ∈ table, name <:+: s.name

/-- The expression that a name is read as describes a part of the symbols. If it describes the
empty word too, the search must not come to an empty match. -/
def FoundIn (table : List NmSymbol) (piece : Text) : Prop :=
  ∃ r, compile (escapeDots piece) = some r ∧ r.StandsIn (nmText table) ∧
    ((∃ atStart after, r.Describes atStart [] after) → matchAll r (nmText table) ≠ none)

/-- Fewer symbols than there should be have a name. -/
inductive Lost (names : List Text) (expected : Nat) (table : List NmSymbol) : Prop where
  | codegen (hFew : count table codegen < expected)
  | kernel (name : Text) (hName : name ∈ names) (hFew : count table name < names.count name)

/-- A name that shows up too seldom, or not at all, for the guard to pass. -/
inductive Missed (found : Text → Prop) (names : List Text) (expected : Nat)
    (table : List NmSymbol) : Prop where
  | codegen (hFew : count table codegen + partsOf table codegen < expected)
  | kernel (name : Text) (hName : name ∈ names) (hNot : ¬ found name)

/-- A loss behind other symbols: places in longer names make up the number of codegen registrars, or
a name shows up although fewer symbols have it than sources ask for it. -/
inductive Masked (found : Text → Prop) (names : List Text) (expected : Nat)
    (table : List NmSymbol) : Prop where
  | codegen (hFew : count table codegen < expected)
      (hParts : expected ≤ count table codegen + partsOf table codegen)
  | kernel (name : Text) (hName : name ∈ names) (hFew : count table name < names.count name)
      (hFound : found name)

/-- A name that enough symbols have, and that does not show up. -/
def Misread (found : Text → Prop) (names : List Text) (table : List NmSymbol) : Prop :=
  ∃ name ∈ names, names.count name ≤ count table name ∧ ¬ found name

/-- Basenames whose characters mean nothing to a CMake list or, dots apart, to a pattern. -/
def PlainNames (sources : List Text) : Prop :=
  ∀ src ∈ sources, PlainItem (fileName src) ∧ PlainPattern (fileName src) ∧ '\n' ∉ fileName src

def PlainItems (sources : List Text) : Prop := ∀ src ∈ sources, PlainItem (fileName src)

/-- What CMake makes of the names when it splits their list. -/
def pieces (sources : List Text) : List Text :=
  (items (List.intercalate [';'] (kernelTus sources))).filter (· ≠ [])

/-- The condition. Plain names show up in symbols that contain them: one must be missed, or no loss
may be masked. Other items show up as expressions, and one that is misread must come with a loss. If
the list itself is split anew, its pieces must show up unless something is lost. -/
structure ToldApart (sources : List Text) (expected : Nat) (table : List NmSymbol) : Prop where
  plain : PlainNames sources →
    Missed (Held table) (kernelTus sources) expected table ∨
      ¬ Masked (Held table) (kernelTus sources) expected table
  pattern : ¬ PlainNames sources → PlainItems sources →
    (Missed (FoundIn table) (kernelTus sources) expected table ∨
      ¬ Masked (FoundIn table) (kernelTus sources) expected table) ∧
    (Lost (kernelTus sources) expected table ∨ ¬ Misread (FoundIn table) (kernelTus sources) table)
  split : ¬ PlainItems sources → (Lost (kernelTus sources) expected table ↔
    Missed (FoundIn table) (pieces sources) expected table)

/-! ## What the guard counts -/

def Readable (syms tu : Text) : Prop :=
  ∃ r found, compile (escapeDots tu) = some r ∧ matchAll r syms = some found ∧ found ≠ []

theorem checkTu_eq_ok_iff {syms tu : Text} : checkTu syms tu = .ok () ↔ tu = [] ∨ Readable syms tu := by
  rw [checkTu]
  by_cases hEmpty : tu = []
  · simp [hEmpty]
  · rw [if_neg hEmpty, or_iff_right hEmpty, matchCount, Readable]
    cases hCompile : compile (escapeDots tu) with
    | none => simp
    | some r =>
      cases hMatch : matchAll r syms with
      | none => simp [hMatch]
      | some found =>
        have hItems : (items (List.intercalate [';'] found)).length < 1 ↔ found = [] := by
          rw [Nat.lt_one_iff, List.length_eq_zero_iff, CmakeValues.items_eq_nil_iff]
          exact CmakeValues.intercalate_eq_nil_iff (SpencerRegex.ne_nil_of_mem_matchAllFrom hMatch)
        simp only [Option.bind_some, hMatch, Option.map_some, hItems, Option.some.injEq,
          ne_eq]
        split <;> simp_all

theorem checkTus_eq_ok_iff {syms : Text} {tus : List Text} :
    checkTus syms tus = .ok () ↔ ∀ tu ∈ tus, tu ≠ [] → Readable syms tu := by
  induction tus with
  | nil => simp [checkTus]
  | cons tu tus ih =>
    rw [checkTus, List.forall_mem_cons, ← ih, ← or_iff_not_imp_left, ← checkTu_eq_ok_iff]
    cases checkTu syms tu with
    | error e => simp
    | ok done => simp

theorem readable_iff_foundIn (table : List NmSymbol) (tu : Text) :
    Readable (nmText table) tu ↔ FoundIn table tu := by
  constructor
  · rintro ⟨r, found, hCompile, hMatch, hFound⟩
    refine ⟨r, hCompile, ?_, fun _ hNone => ?_⟩
    · exact (SpencerRegex.matchAll_ne_nil_iff hMatch).mp hFound
    · rw [hMatch] at hNone
      cases hNone
  · rintro ⟨r, hCompile, hStands, hEmpty⟩
    have hSome : matchAll r (nmText table) ≠ none := by
      by_cases hWord : ∃ atStart after, r.Describes atStart [] after
      · exact hEmpty hWord
      · exact SpencerRegex.matchAllFrom_ne_none (fun atStart after h => hWord ⟨atStart, after, h⟩) _ _
    obtain ⟨found, hMatch⟩ := Option.ne_none_iff_exists'.mp hSome
    exact ⟨r, found, hCompile, hMatch, (SpencerRegex.matchAll_ne_nil_iff hMatch).mpr hStands⟩

theorem matchCount_of_plain {name : Text} (hName : name ≠ []) (hItem : PlainItem name)
    (hPattern : PlainPattern name) (syms : Text) :
    matchCount (escapeDots name) syms = some (occurrences name 0 syms) := by
  have hSplit : items (List.intercalate [';'] (List.replicate (occurrences name 0 syms) name)) =
      List.replicate (occurrences name 0 syms) name := by
    apply CmakeValues.items_intercalate
    · intro item hMem
      rw [List.eq_of_mem_replicate hMem]
      exact hItem
    · intro item hMem
      rw [List.eq_of_mem_replicate hMem]
      exact hName
  rw [matchCount, SpencerRegex.compile_escapeDots hPattern, Option.bind_some,
    SpencerRegex.matchAll_literal hName, Option.map_some, hSplit, List.length_replicate]

theorem readable_of_plain {name : Text} (hName : name ≠ []) (hPattern : PlainPattern name)
    (syms : Text) : Readable syms name ↔ name <:+: syms := by
  rw [← SpencerRegex.occurrences_pos_iff hName, Readable, SpencerRegex.compile_escapeDots hPattern]
  simp [SpencerRegex.matchAll_literal hName, Nat.pos_iff_ne_zero]

theorem codegen_plain : codegen ≠ [] ∧ PlainItem codegen ∧ PlainPattern codegen := by decide

theorem assertKernelsRegistered_eq_ok_iff {syms : Text} (h : xnnpack <:+: syms)
    (expectCodegen : Option Nat) (extraTus : Text) :
    assertKernelsRegistered syms expectCodegen extraTus = .ok () ↔
      expectCodegen.getD 2 ≤ occurrences codegen 0 syms ∧
        ∀ tu ∈ items extraTus, tu ≠ [] → Readable syms tu := by
  obtain ⟨hName, hItem, hPattern⟩ := codegen_plain
  rw [assertKernelsRegistered, if_neg (not_not.mpr h), matchCount_of_plain hName hItem hPattern,
    ← checkTus_eq_ok_iff]
  dsimp only
  split
  · rename_i hFew
    exact iff_of_false (by simp) fun hBoth => absurd hBoth.1 (by omega)
  · rename_i hEnough
    exact (and_iff_right (by omega)).symm

/-! ## Names in the table and names in the text -/

theorem nmText_cons (s : NmSymbol) (table : List NmSymbol) :
    nmText (s :: table) = s.line ++ '\n' :: nmText table := by
  rw [nmText, List.flatMap_cons, List.append_assoc, List.singleton_append, ← nmText]

theorem registrar_ne_nil (base : Text) : registrar base ≠ [] :=
  List.append_ne_nil_of_left_ne_nil (by decide) base

theorem count_cons (s : NmSymbol) (table : List NmSymbol) (name : Text) :
    count (s :: table) name = count table name + if s.name = name then 1 else 0 := by
  simp only [count, List.countP_cons, decide_eq_true_eq]

theorem partsOf_cons (s : NmSymbol) (table : List NmSymbol) (name : Text) :
    partsOf (s :: table) name =
      partsOf table name + if s.name = name then 0 else places name s.name := by
  rw [partsOf, List.foldr_cons, ← partsOf]
  split
  · rfl
  · exact Nat.add_comm _ _

/-- A registrar's name starts with an underscore, and the columns hold none. -/
theorem places_line (base : Text) (s : NmSymbol) :
    places (registrar base) s.line = places (registrar base) s.name :=
  SpencerRegex.places_append_of_notMem s.plainColumns.2 s.name

theorem infix_nmText_iff {base : Text} (hLine : '\n' ∉ registrar base) (table : List NmSymbol) :
    registrar base <:+: nmText table ↔ Held table (registrar base) := by
  have hName := registrar_ne_nil base
  induction table with
  | nil => simp [nmText, Held, hName]
  | cons s table ih =>
    have hHere : 0 < occurrences (registrar base) 0 s.line ↔ registrar base <:+: s.name := by
      rw [SpencerRegex.occurrences_pos_iff hName, ← SpencerRegex.places_pos_iff, places_line,
        SpencerRegex.places_pos_iff]
    have hBelow := (SpencerRegex.occurrences_pos_iff hName (nmText table)).trans ih
    rw [← SpencerRegex.occurrences_pos_iff hName, nmText_cons,
      SpencerRegex.occurrences_append_newline hName hLine (nmText table) (Nat.zero_le _),
      Nat.add_pos_iff_pos_or_pos, hHere, hBelow]
    simp only [Held, List.mem_cons, exists_eq_or_imp]

theorem held_of_count {table : List NmSymbol} {name : Text} (h : 0 < count table name) :
    Held table name := by
  obtain ⟨s, hMem, hName⟩ := List.countP_pos_iff.mp h
  have hExact : s.name = name := by simpa using hName
  exact ⟨s, hMem, hExact ▸ List.infix_rfl⟩

/-- The codegen name cannot overlap itself, so the guard counts every place that holds it. -/
theorem occurrences_codegen (table : List NmSymbol) :
    occurrences codegen 0 (nmText table) = count table codegen + partsOf table codegen := by
  have hBorder : SpencerRegex.Borderless codegen := by decide +kernel
  induction table with
  | nil => rfl
  | cons s table ih =>
    have hPlaces : places codegen s.line = places codegen s.name :=
      places_line "RegisterCodegenUnboxedKernelsEverything.cpp".toList s
    rw [nmText_cons, SpencerRegex.occurrences_append_newline codegen_plain.1 (by decide)
      (nmText table) (Nat.zero_le _), ih, SpencerRegex.occurrences_eq_places codegen_plain.1 hBorder,
      hPlaces, count_cons, partsOf_cons]
    split
    · rename_i hExact
      rw [hExact, SpencerRegex.places_self codegen_plain.1 hBorder]
      omega
    · omega

/-! ## When the guard is right -/

/-- A registrar's name that CMake leaves as it is. -/
structure PlainTu (tu : Text) : Prop where
  base : ∃ base, tu = registrar base
  item : PlainItem tu
  pattern : PlainPattern tu
  oneLine : '\n' ∉ tu

theorem PlainTu.ne_nil {tu : Text} (h : PlainTu tu) : tu ≠ [] := by
  obtain ⟨base, rfl⟩ := h.base
  exact registrar_ne_nil base

theorem plainItem_registrar {base : Text} (h : PlainItem base) : PlainItem (registrar base) := by
  have hHead : PlainItem "_GLOBAL__sub_I_".toList := by decide
  intro c hc
  obtain hc | hc := List.mem_append.mp hc
  · exact hHead c hc
  · exact h c hc

theorem plain_registrar {base : Text} (hItem : PlainItem base) (hPattern : PlainPattern base)
    (hLine : '\n' ∉ base) : PlainTu (registrar base) := by
  have hHead : PlainPattern "_GLOBAL__sub_I_".toList ∧ '\n' ∉ "_GLOBAL__sub_I_".toList := by decide
  refine ⟨⟨base, rfl⟩, plainItem_registrar hItem, ?_, ?_⟩
  · intro c hc
    obtain hc | hc := List.mem_append.mp hc
    · exact hHead.1 c hc
    · exact hPattern c hc
  · intro hMem
    obtain hMem | hMem := List.mem_append.mp hMem
    · exact hHead.2 hMem
    · exact hLine hMem

theorem plain_kernelTus {sources : List Text} (h : PlainNames sources) :
    ∀ tu ∈ kernelTus sources, PlainTu tu := by
  intro tu hTu
  obtain ⟨src, hSrc, rfl⟩ := List.mem_map.mp hTu
  obtain ⟨hItem, hPattern, hLine⟩ := h src hSrc
  exact plain_registrar hItem hPattern hLine

theorem readable_plainTu_iff {tu : Text} (h : PlainTu tu) (table : List NmSymbol) :
    Readable (nmText table) tu ↔ Held table tu := by
  obtain ⟨base, rfl⟩ := h.base
  rw [readable_of_plain h.ne_nil h.pattern, infix_nmText_iff h.oneLine]

section Names

variable {found : Text → Prop} {names : List Text} {expected : Nat} {table : List NmSymbol}

theorem not_missed_iff : ¬ Missed found names expected table ↔
    expected ≤ count table codegen + partsOf table codegen ∧ ∀ name ∈ names, found name := by
  constructor
  · intro hNot
    constructor
    · by_contra hFew
      exact hNot (Missed.codegen (by omega))
    · intro name hName
      by_contra hAbsent
      exact hNot (Missed.kernel name hName hAbsent)
  · rintro ⟨hEnough, hFound⟩ (hFew | ⟨name, hName, hNot⟩)
    · omega
    · exact hNot (hFound name hName)

theorem lost_of_masked (h : Masked found names expected table) : Lost names expected table := by
  cases h with
  | codegen hFew _ => exact Lost.codegen hFew
  | kernel name hName hFew _ => exact Lost.kernel name hName hFew

theorem masked_of_lost (h : Lost names expected table) (hNot : ¬ Missed found names expected table) :
    Masked found names expected table := by
  obtain ⟨hEnough, hFound⟩ := not_missed_iff.mp hNot
  cases h with
  | codegen hFew => exact Masked.codegen hFew hEnough
  | kernel name hName hFew => exact Masked.kernel name hName hFew (hFound name hName)

theorem misread_of_missed (h : Missed found names expected table)
    (hKept : ¬ Lost names expected table) : Misread found names table := by
  cases h with
  | codegen hFew => exact absurd (Lost.codegen (by omega)) hKept
  | kernel name hName hNot =>
    refine ⟨name, hName, ?_, hNot⟩
    by_contra hFew
    exact hKept (Lost.kernel name hName (by omega))

/-- A test that fails on what is missed is right unless a loss is masked or a name is misread. -/
theorem missed_iff_lost_iff : (Missed found names expected table ↔ Lost names expected table) ↔
    (Missed found names expected table ∨ ¬ Masked found names expected table) ∧
      (Lost names expected table ∨ ¬ Misread found names table) := by
  constructor
  · intro hRight
    constructor
    · by_cases hMissed : Missed found names expected table
      · exact Or.inl hMissed
      · exact Or.inr fun hMasked => hMissed (hRight.mpr (lost_of_masked hMasked))
    · by_cases hLost : Lost names expected table
      · exact Or.inl hLost
      · refine Or.inr ?_
        rintro ⟨name, hName, _, hNot⟩
        exact hLost (hRight.mp (Missed.kernel name hName hNot))
  · rintro ⟨hMasked, hMisread⟩
    constructor
    · intro hMissed
      by_contra hKept
      exact hMisread.resolve_left hKept (misread_of_missed hMissed hKept)
    · intro hLost
      by_contra hNot
      exact hMasked.resolve_left hNot (masked_of_lost hLost hNot)

theorem not_misread_held : ¬ Misread (Held table) names table := by
  rintro ⟨name, hName, hEnough, hNot⟩
  have hPos : 0 < names.count name := List.count_pos_iff.mpr hName
  exact hNot (held_of_count (by omega))

theorem registered_iff_not_missed (hBackend : xnnpack <:+: nmText table)
    (expectCodegen : Option Nat) {tus : Text}
    (hNames : ∀ name, name ∈ names ↔ name ∈ items tus ∧ name ≠ [])
    (hFound : ∀ name ∈ names, Readable (nmText table) name ↔ found name) :
    assertKernelsRegistered (nmText table) expectCodegen tus = .ok () ↔
      ¬ Missed found names (expectCodegen.getD 2) table := by
  rw [assertKernelsRegistered_eq_ok_iff hBackend, not_missed_iff, occurrences_codegen]
  apply and_congr_right
  intro _
  constructor
  · intro hAll name hName
    obtain ⟨hItem, hNonempty⟩ := (hNames name).mp hName
    exact (hFound name hName).mp (hAll name hItem hNonempty)
  · intro hAll name hItem hNonempty
    have hName := (hNames name).mpr ⟨hItem, hNonempty⟩
    exact (hFound name hName).mpr (hAll name hName)

theorem mem_items_intercalate (hItem : ∀ name ∈ names, PlainItem name)
    (hNonempty : ∀ name ∈ names, name ≠ []) (name : Text) :
    name ∈ names ↔ name ∈ items (List.intercalate [';'] names) ∧ name ≠ [] := by
  rw [CmakeValues.items_intercalate hItem hNonempty]
  exact ⟨fun hName => ⟨hName, hNonempty name hName⟩, And.left⟩

theorem registered_iff_of_plain (hBackend : xnnpack <:+: nmText table)
    (expectCodegen : Option Nat) (hPlain : ∀ name ∈ names, PlainTu name) :
    assertKernelsRegistered (nmText table) expectCodegen (List.intercalate [';'] names) = .ok () ↔
      ¬ Missed (Held table) names (expectCodegen.getD 2) table :=
  registered_iff_not_missed hBackend expectCodegen
    (mem_items_intercalate (fun name hName => (hPlain name hName).item)
      fun name hName => (hPlain name hName).ne_nil)
    fun name hName => readable_plainTu_iff (hPlain name hName) table

end Names

theorem kernelTus_ne_nil (sources : List Text) : ∀ tu ∈ kernelTus sources, tu ≠ [] := by
  intro tu hTu
  obtain ⟨src, _, rfl⟩ := List.mem_map.mp hTu
  exact registrar_ne_nil _

theorem plainItem_kernelTus {sources : List Text} (h : PlainItems sources) :
    ∀ tu ∈ kernelTus sources, PlainItem tu := by
  intro tu hTu
  obtain ⟨src, hSrc, rfl⟩ := List.mem_map.mp hTu
  exact plainItem_registrar (h src hSrc)

theorem expectTus_eq (sources : List Text) :
    expectTus sources = List.intercalate [';'] (kernelTus sources) := by
  have hJoined := CmakeValues.foldl_listAppend (kernelTus_ne_nil sources)
  rwa [kernelTus, List.foldl_map] at hJoined

theorem count_kernelTus (sources : List Text) (base : Text) :
    (kernelTus sources).count (registrar base) = sources.countP fun src => fileName src = base := by
  rw [kernelTus, List.count_eq_countP, List.countP_map]
  apply List.countP_congr
  intro src _
  rw [Function.comp_apply, beq_iff_eq, decide_eq_true_eq]
  exact List.append_right_inj _

theorem allRegistered_iff (sources : List Text) (expected : Nat) (table : List NmSymbol) :
    AllRegistered sources expected table ↔ ¬ Lost (kernelTus sources) expected table := by
  constructor
  · rintro hAll (hFew | ⟨name, hName, hFew⟩)
    · have hCodegen := hAll.codegen
      omega
    · obtain ⟨src, _, rfl⟩ := List.mem_map.mp hName
      rw [count_kernelTus] at hFew
      exact absurd (hAll.kernels (fileName src)) (by omega)
  · intro hKept
    constructor
    · by_contra hFew
      exact hKept (Lost.codegen (by omega))
    · intro base
      rw [← count_kernelTus]
      by_contra hFew
      refine hKept (Lost.kernel (registrar base) ?_ (by omega))
      exact List.count_pos_iff.mp (by omega)

def nmLine (name : String) (h : '\n' ∉ name.toList) : NmSymbol := ⟨"0 t ".toList, name.toList, by decide, h⟩

def backendLine : NmSymbol := nmLine "_GLOBAL__sub_I_XNNPACKBackend.cpp" (by decide)

/-- Two sources of one basename, of which one was linked. -/
def twins : List Text := ["/a/op.cpp".toList, "/b/op.cpp".toList]

def oneTwin : List NmSymbol := [backendLine, nmLine "_GLOBAL__sub_I_op.cpp" (by decide)]

/-- A codegen registrar and the cold part that the compiler split off it. -/
def splitCodegen : List NmSymbol :=
  [backendLine, nmLine "_GLOBAL__sub_I_RegisterCodegenUnboxedKernelsEverything.cpp" (by decide),
    nmLine "_GLOBAL__sub_I_RegisterCodegenUnboxedKernelsEverything.cpp.cold" (by decide)]

theorem guard_runs :
    assertKernelsRegistered (nmText oneTwin) (some 0) (expectTus twins) = .ok () ∧
      assertKernelsRegistered (nmText splitCodegen) (some 2) (expectTus []) = .ok () := by
  decide +kernel

end KernelGuard

end ExecutorchNumpy
