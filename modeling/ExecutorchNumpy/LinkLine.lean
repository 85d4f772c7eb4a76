import ExecutorchNumpy.KernelGuard
import ExecutorchNumpy.PinFile

/-! # The link line of the extension module

`CMakeLists.txt` links what the runtime provides, block by block. Each block also
tells the two readers of the link line about it: the advertised kernel libraries
and the registration guard that runs after the link.
-/

namespace ExecutorchNumpy
set_option autoImplicit false

open CmakeValues (Text items listAppend)
open KernelGuard

namespace LinkLine

/-! ## The blocks -/

/-- `etnpExtras` stands for what `etnp_extras_whole_archive` links. -/
inductive LinkItem where
  | executorch
  | xnnpackBackend
  | extensionModuleStatic
  | extensionDataLoader
  | extensionTensor
  | openvinoBackend
  | optimizedNativeCpuOpsLib
  | portableOpsLib
  | quantizedOpsLib
  | etnpKernels
  | etnpExtras
  deriving DecidableEq, Repr

/-- What `find_package(ExecuTorch)` has defined, and whether the prefix ships `ETNPExtras`. -/
structure Install where
  target : LinkItem → Bool
  extras : Bool

/-- The variables that the blocks read; `scope` is what the pin file has set. -/
structure Build where
  install : Install
  scope : PinFile.Scope
  platform : Text
  win32 : Bool
  buildReferenceKernel : Option Text
  extraKernelSources : Text
  listDir : Text
  compilerId : Text
  msvc : Bool

/-- `ETNP_BUILD_REFERENCE_KERNEL`, off by default on Windows. -/
def Build.reference (b : Build) : Bool :=
  CmakeValues.isOn (some (b.buildReferenceKernel.getD (if b.win32 then "OFF".toList else "ON".toList)))

/-- `_etnp_kernel_sources` -/
def Build.kernelSources (b : Build) : Text :=
  KernelGuard.kernelSources b.reference b.listDir b.extraKernelSources

/-- The sources that `Kernels.cmake` compiles into `etnp_kernels`. -/
def Build.sources (b : Build) : List Text := sourceList b.kernelSources

/-- `ET_RUNTIME_OPENVINO_PLATFORM` -/
def Build.openvinoPlatform (b : Build) : Text :=
  (b.scope.vars "ET_RUNTIME_OPENVINO_PLATFORM".toList).getD []

/-- `if(TARGET <library>)`: only `etnp_kernels` is a target of this project. -/
def Build.hasTarget (b : Build) (lib : LinkItem) : Bool :=
  if lib = .etnpKernels then !CmakeValues.isOff b.kernelSources else b.install.target lib

/-- `kernelLibs` is `_etnp_kernel_libs`, `expectTus` is `ETNP_KERNEL_EXPECT_TUS`. -/
structure Plan where
  libraries : List LinkItem
  kernelLibs : Text
  expectTus : Text
  deriving DecidableEq, Repr

def Plan.link (plan : Plan) (lib : LinkItem) : Plan :=
  { plan with libraries := plan.libraries ++ [lib] }

def Plan.advertise (plan : Plan) (name : Text) : Plan :=
  { plan with kernelLibs := listAppend plan.kernelLibs [name] }

def Plan.expect (plan : Plan) (tu : Text) : Plan :=
  { plan with expectTus := listAppend plan.expectTus [tu] }

/-- The libraries that are always linked, under the flags of `Kernels.cmake`. -/
def linkRuntime (b : Build) : Plan where
  libraries := [.executorch, .xnnpackBackend, .extensionModuleStatic, .extensionDataLoader,
    .extensionTensor]
  kernelLibs := "portable".toList
  expectTus := KernelGuard.expectTus b.sources

def openvinoTu : Text := "_GLOBAL__sub_I_OpenvinoBackend.cpp".toList

def Build.openvino (b : Build) : Bool :=
  b.hasTarget .openvinoBackend && b.platform == b.openvinoPlatform

def linkOpenvino (b : Build) (plan : Plan) : Plan :=
  if b.openvino then (plan.link .openvinoBackend).expect openvinoTu else plan

def linkAten (b : Build) (plan : Plan) : Plan :=
  if b.hasTarget .optimizedNativeCpuOpsLib then
    (plan.link .optimizedNativeCpuOpsLib).advertise "optimized".toList
  else plan.link .portableOpsLib

def linkQuantized (b : Build) (plan : Plan) : Plan :=
  if b.hasTarget .quantizedOpsLib then (plan.link .quantizedOpsLib).advertise "quantized".toList
  else plan

def linkKernels (b : Build) (plan : Plan) : Plan :=
  if b.hasTarget .etnpKernels then plan.link .etnpKernels else plan

/-- `if(COMMAND etnp_extras_whole_archive)` -/
def linkExtras (b : Build) (plan : Plan) : Plan :=
  if b.install.extras then (plan.link .etnpExtras).advertise "lstm".toList else plan

inductive FatalError where
  | targetMissing (lib : LinkItem)
  deriving DecidableEq, Repr

/-- The floor under `find_package`, which succeeds also when it defines no targets. -/
def requireTargets (b : Build) : List LinkItem → Except FatalError Unit
  | [] => .ok ()
  | lib :: rest => if b.hasTarget lib then requireTargets b rest else .error (.targetMissing lib)

def plan (b : Build) : Plan :=
  linkExtras b (linkKernels b (linkQuantized b (linkAten b (linkOpenvino b (linkRuntime b)))))

/-- `CMakeLists.txt`, up to the compile definitions. -/
def configure (b : Build) : Except FatalError Plan := do
  requireTargets b [.executorch, .xnnpackBackend]
  return plan b

/-! ## What the blocks tell about the link line -/

/-- `_etnp_expect_codegen` -/
def expectCodegen (b : Build) : Nat :=
  (if b.hasTarget .optimizedNativeCpuOpsLib then 1 else 0) +
    (if b.hasTarget .quantizedOpsLib then 1 else 0)

/-- `list(JOIN _etnp_kernel_libs "," _etnp_kernel_libs_str)` -/
def kernelLibsStr (plan : Plan) : Text := List.intercalate [','] (items plan.kernelLibs)

/-- `if(CMAKE_CXX_COMPILER_ID MATCHES "^(GNU|Clang|AppleClang)$" AND NOT MSVC)` -/
def guarded (b : Build) : Bool :=
  ["GNU", "Clang", "AppleClang"].any (fun id => b.compilerId == id.toList) && !b.msvc

inductive PostBuildError where
  | nmFailed
  | guard (reason : GuardError)
  deriving DecidableEq, Repr

/-- The registration guard as the build runs it; `nm` prints the symbols or fails. -/
def postBuild (b : Build) (plan : Plan) (nm : Option Text) : Except PostBuildError Unit :=
  if guarded b then
    match nm with
    | none => .error .nmFailed
    | some syms =>
      (assertKernelsRegistered syms (some (expectCodegen b)) plan.expectTus).mapError .guard
  else .ok ()

/-! ## What the line brings into the module -/

/-- The guard looks for this name without its ending. -/
def xnnpackTu : Text := registrar "XNNPACKBackend.cpp".toList

/-- The symbols by which the objects of a library register something. -/
def registrars (b : Build) : LinkItem → List Text
  | .xnnpackBackend => [xnnpackTu]
  | .openvinoBackend => [openvinoTu]
  | .optimizedNativeCpuOpsLib | .portableOpsLib | .quantizedOpsLib => [codegen]
  | .etnpKernels => kernelTus b.sources
  | .executorch | .extensionModuleStatic | .extensionDataLoader | .extensionTensor
  | .etnpExtras => []

def Plan.registrars (b : Build) (plan : Plan) : List Text :=
  plan.libraries.flatMap (LinkLine.registrars b)

/-- The module has every registrar of the line, equally named ones as often as the line brings them. -/
def Survived (b : Build) (plan : Plan) (table : List NmSymbol) : Prop :=
  ∀ tu, (plan.registrars b).count tu ≤ count table tu

/-- The libraries whose registrars the guard counts. -/
def counted (lib : LinkItem) : Bool := lib == .optimizedNativeCpuOpsLib || lib == .quantizedOpsLib

/-! ## The line as a whole -/

def LinkItem.all : List LinkItem :=
  [.executorch, .xnnpackBackend, .extensionModuleStatic, .extensionDataLoader, .extensionTensor,
    .openvinoBackend, .optimizedNativeCpuOpsLib, .portableOpsLib, .quantizedOpsLib, .etnpKernels,
    .etnpExtras]

def wanted (b : Build) : LinkItem → Bool
  | .executorch | .xnnpackBackend | .extensionModuleStatic | .extensionDataLoader
  | .extensionTensor => true
  | .openvinoBackend => b.openvino
  | .optimizedNativeCpuOpsLib => b.hasTarget .optimizedNativeCpuOpsLib
  | .portableOpsLib => !b.hasTarget .optimizedNativeCpuOpsLib
  | .quantizedOpsLib => b.hasTarget .quantizedOpsLib
  | .etnpKernels => b.hasTarget .etnpKernels
  | .etnpExtras => b.install.extras

def advertised : LinkItem → Option Text
  | .optimizedNativeCpuOpsLib => some "optimized".toList
  | .quantizedOpsLib => some "quantized".toList
  | .etnpExtras => some "lstm".toList
  | _ => none

def expected : LinkItem → Option Text
  | .openvinoBackend => some openvinoTu
  | _ => none

def joined (list : List Text) : Text := list.foldl (fun value item => listAppend value [item]) []

/-- The invariant of the blocks, for the libraries of the line so far. -/
structure Tells (b : Build) (plan : Plan) : Prop where
  kernelLibs : plan.kernelLibs = joined ("portable".toList :: plan.libraries.filterMap advertised)
  expectTus : plan.expectTus = joined (kernelTus b.sources ++ plan.libraries.filterMap expected)

theorem joined_snoc (list : List Text) (item : Text) :
    joined (list ++ [item]) = listAppend (joined list) [item] := by
  rw [joined, List.foldl_append]
  rfl

section Blocks

variable {b : Build} {p : Plan}

theorem Tells.link (h : Tells b p) {lib : LinkItem} (hName : advertised lib = none)
    (hTu : expected lib = none) : Tells b (p.link lib) := by
  constructor
  · rw [Plan.link, h.kernelLibs, List.filterMap_append, List.filterMap_cons_none hName,
      List.filterMap_nil, List.append_nil]
  · rw [Plan.link, h.expectTus, List.filterMap_append, List.filterMap_cons_none hTu,
      List.filterMap_nil, List.append_nil]

theorem Tells.advertise (h : Tells b p) {lib : LinkItem} {name : Text}
    (hName : advertised lib = some name) (hTu : expected lib = none) :
    Tells b ((p.link lib).advertise name) := by
  constructor
  · rw [Plan.advertise, Plan.link, h.kernelLibs, List.filterMap_append,
      List.filterMap_cons_some hName, List.filterMap_nil, ← List.cons_append, joined_snoc]
  · rw [Plan.advertise, Plan.link, h.expectTus, List.filterMap_append,
      List.filterMap_cons_none hTu, List.filterMap_nil, List.append_nil]

theorem Tells.expect (h : Tells b p) {lib : LinkItem} {tu : Text} (hName : advertised lib = none)
    (hTu : expected lib = some tu) : Tells b ((p.link lib).expect tu) := by
  constructor
  · rw [Plan.expect, Plan.link, h.kernelLibs, List.filterMap_append,
      List.filterMap_cons_none hName, List.filterMap_nil, List.append_nil]
  · rw [Plan.expect, Plan.link, h.expectTus, List.filterMap_append,
      List.filterMap_cons_some hTu, List.filterMap_nil, ← List.append_assoc, joined_snoc]

theorem tells_linkRuntime (b : Build) : Tells b (linkRuntime b) where
  kernelLibs := rfl
  expectTus := by
    change KernelGuard.expectTus b.sources = joined (kernelTus b.sources ++ [])
    rw [List.append_nil, joined, kernelTus, List.foldl_map]
    rfl

theorem tells_linkOpenvino (h : Tells b p) : Tells b (linkOpenvino b p) := by
  rw [linkOpenvino]
  split
  · exact h.expect rfl rfl
  · exact h

theorem tells_linkAten (h : Tells b p) : Tells b (linkAten b p) := by
  rw [linkAten]
  split
  · exact h.advertise rfl rfl
  · exact h.link rfl rfl

theorem tells_linkQuantized (h : Tells b p) : Tells b (linkQuantized b p) := by
  rw [linkQuantized]
  split
  · exact h.advertise rfl rfl
  · exact h

theorem tells_linkKernels (h : Tells b p) : Tells b (linkKernels b p) := by
  rw [linkKernels]
  split
  · exact h.link rfl rfl
  · exact h

theorem tells_linkExtras (h : Tells b p) : Tells b (linkExtras b p) := by
  rw [linkExtras]
  split
  · exact h.advertise rfl rfl
  · exact h

end Blocks

theorem tells_plan (b : Build) : Tells b (plan b) :=
  tells_linkExtras <| tells_linkKernels <| tells_linkQuantized <| tells_linkAten <|
    tells_linkOpenvino (tells_linkRuntime b)

theorem libraries_block {b : Build} {p linked : Plan} {lib : LinkItem}
    (hLinked : linked.libraries = p.libraries ++ [lib]) :
    (if wanted b lib then linked else p).libraries = p.libraries ++ [lib].filter (wanted b) := by
  cases h : wanted b lib with
  | true => rw [if_pos rfl, hLinked, List.filter_cons_of_pos h, List.filter_nil]
  | false =>
    rw [if_neg Bool.false_ne_true, List.filter_cons_of_neg (by simp [h]), List.filter_nil,
      List.append_nil]

theorem libraries_linkOpenvino (b : Build) (p : Plan) :
    (linkOpenvino b p).libraries = p.libraries ++ [.openvinoBackend].filter (wanted b) :=
  @libraries_block b p _ .openvinoBackend rfl

theorem libraries_linkQuantized (b : Build) (p : Plan) :
    (linkQuantized b p).libraries = p.libraries ++ [.quantizedOpsLib].filter (wanted b) :=
  @libraries_block b p _ .quantizedOpsLib rfl

theorem libraries_linkKernels (b : Build) (p : Plan) :
    (linkKernels b p).libraries = p.libraries ++ [.etnpKernels].filter (wanted b) :=
  @libraries_block b p _ .etnpKernels rfl

theorem libraries_linkExtras (b : Build) (p : Plan) :
    (linkExtras b p).libraries = p.libraries ++ [.etnpExtras].filter (wanted b) :=
  @libraries_block b p _ .etnpExtras rfl

/-- Exactly one library provides the aten operators. -/
theorem libraries_linkAten (b : Build) (p : Plan) : (linkAten b p).libraries =
    p.libraries ++ [.optimizedNativeCpuOpsLib, .portableOpsLib].filter (wanted b) := by
  by_cases h : b.hasTarget .optimizedNativeCpuOpsLib = true
  · simp [linkAten, wanted, h, Plan.link, Plan.advertise]
  · simp [linkAten, wanted, h, Plan.link]

theorem libraries_plan (b : Build) : (plan b).libraries = LinkItem.all.filter (wanted b) := by
  rw [plan, libraries_linkExtras, libraries_linkKernels, libraries_linkQuantized,
    libraries_linkAten, libraries_linkOpenvino]
  simp only [← List.filter_append, List.append_assoc]
  rfl

theorem mem_libraries_plan {b : Build} {lib : LinkItem} :
    lib ∈ (plan b).libraries ↔ wanted b lib = true := by
  rw [libraries_plan, List.mem_filter]
  apply and_iff_right
  cases lib <;> decide

theorem nodup_libraries_plan (b : Build) : (plan b).libraries.Nodup := by
  rw [libraries_plan]
  exact (by decide : LinkItem.all.Nodup).filter _

theorem countP_counted (b : Build) : (plan b).libraries.countP counted = expectCodegen b := by
  rw [libraries_plan, List.countP_filter, expectCodegen]
  simp only [LinkItem.all, List.countP_cons, List.countP_nil, counted, wanted]
  cases b.hasTarget .optimizedNativeCpuOpsLib <;> cases b.hasTarget .quantizedOpsLib <;> rfl

theorem configure_eq_ok {b : Build} {p : Plan} (h : configure b = .ok p) : p = plan b := by
  rw [configure] at h
  cases hTargets : requireTargets b [.executorch, .xnnpackBackend] with
  | error e =>
    rw [hTargets] at h
    cases h
  | ok done =>
    rw [hTargets] at h
    exact (Except.ok.inj h).symm

/-! ## The guard against the line -/

theorem openvinoTu_plain : PlainTu openvinoTu :=
  @plain_registrar "OpenvinoBackend.cpp".toList (by decide) (by decide) (by decide)

section Guard

variable {b : Build} {table : List NmSymbol}

def asked (b : Build) : List Text := kernelTus b.sources ++ (plan b).libraries.filterMap expected

/-- A registrar is missing, and its name does not tell: as many generated registrars are left as
are expected, though the portable library has one too and places in longer names count; the name that
the guard takes for the backend's is in some symbol; or the name shows up, in one of several equally
named symbols or in a longer one. -/
inductive Unseen (b : Build) (plan : Plan) (table : List NmSymbol) : Prop where
  | codegen (hFew : count table codegen < (plan.registrars b).count codegen)
      (hEnough : expectCodegen b ≤ count table codegen + partsOf table codegen)
  | backend (hFew : count table xnnpackTu < (plan.registrars b).count xnnpackTu)
      (hHeld : Held table xnnpack)
  | kernel (tu : Text) (hTu : tu ∈ asked b)
      (hFew : count table tu < (plan.registrars b).count tu) (hHeld : Held table tu)

theorem mem_expected {tu : Text} :
    tu ∈ (plan b).libraries.filterMap expected ↔ b.openvino = true ∧ tu = openvinoTu := by
  rw [List.mem_filterMap]
  constructor
  · rintro ⟨lib, hMem, hTu⟩
    cases lib with
    | openvinoBackend => exact ⟨mem_libraries_plan.mp hMem, (Option.some.inj hTu).symm⟩
    | _ => cases hTu
  · rintro ⟨hOpenvino, rfl⟩
    exact ⟨.openvinoBackend, mem_libraries_plan.mpr hOpenvino, rfl⟩

theorem asked_plain (hPlain : PlainNames b.sources) : ∀ tu ∈ asked b, PlainTu tu := by
  intro tu hTu
  obtain hKernel | hLibrary := List.mem_append.mp hTu
  · exact plain_kernelTus hPlain tu hKernel
  · obtain ⟨_, rfl⟩ := mem_expected.mp hLibrary
    exact openvinoTu_plain

theorem expectTus_plan (hPlain : PlainNames b.sources) :
    (plan b).expectTus = List.intercalate [';'] (asked b) := by
  rw [(tells_plan b).expectTus, joined]
  exact CmakeValues.foldl_listAppend fun tu hTu => (asked_plain hPlain tu hTu).ne_nil

/-- A list of sources exists only together with the library that is built of it. -/
theorem hasTarget_of_source {src : Text} (h : src ∈ b.sources) : b.hasTarget .etnpKernels = true := by
  rw [Build.sources, sourceList] at h
  rw [Build.hasTarget, if_pos rfl]
  split at h
  · cases h
  · rename_i hOn
    simpa using hOn

theorem mem_registrars_of_asked {tu : Text} (h : tu ∈ asked b) : tu ∈ (plan b).registrars b := by
  obtain hKernel | hLibrary := List.mem_append.mp h
  · obtain ⟨src, hSrc, _⟩ := List.mem_map.mp hKernel
    exact List.mem_flatMap.mpr
      ⟨.etnpKernels, mem_libraries_plan.mpr (hasTarget_of_source hSrc), hKernel⟩
  · obtain ⟨hOpenvino, rfl⟩ := mem_expected.mp hLibrary
    exact List.mem_flatMap.mpr
      ⟨.openvinoBackend, mem_libraries_plan.mpr hOpenvino, List.mem_cons_self⟩

theorem mem_registrars {tu : Text} (h : tu ∈ (plan b).registrars b) :
    tu = codegen ∨ tu = xnnpackTu ∨ tu ∈ asked b := by
  obtain ⟨lib, hLib, hTu⟩ := List.mem_flatMap.mp h
  cases lib with
  | xnnpackBackend => exact Or.inr (Or.inl (List.mem_singleton.mp hTu))
  | openvinoBackend =>
    exact Or.inr (Or.inr (List.mem_append_right _ (mem_expected.mpr
      ⟨mem_libraries_plan.mp hLib, List.mem_singleton.mp hTu⟩)))
  | optimizedNativeCpuOpsLib | portableOpsLib | quantizedOpsLib =>
    exact Or.inl (List.mem_singleton.mp hTu)
  | etnpKernels => exact Or.inr (Or.inr (List.mem_append_left _ hTu))
  | executorch | extensionModuleStatic | extensionDataLoader | extensionTensor | etnpExtras =>
    cases hTu

theorem expectCodegen_le (b : Build) : expectCodegen b ≤ ((plan b).registrars b).count codegen := by
  rw [← countP_counted, Plan.registrars]
  induction (plan b).libraries with
  | nil => exact Nat.le_refl 0
  | cons lib libraries ih =>
    rw [List.countP_cons, List.flatMap_cons, List.count_append]
    have hHere : (if counted lib = true then 1 else 0) ≤ (registrars b lib).count codegen := by
      cases lib with
      | optimizedNativeCpuOpsLib | quantizedOpsLib => simp [counted, registrars]
      | _ => exact Nat.zero_le _
    omega

theorem backend_of_survived (h : Survived b (plan b) table) : Held table xnnpack := by
  have hMem : xnnpackTu ∈ (plan b).registrars b :=
    List.mem_flatMap.mpr ⟨.xnnpackBackend, mem_libraries_plan.mpr rfl, List.mem_cons_self⟩
  have hPos : 0 < count table xnnpackTu :=
    Nat.lt_of_lt_of_le (List.count_pos_iff.mpr hMem) (h xnnpackTu)
  obtain ⟨s, hSymbol, hInfix⟩ := held_of_count hPos
  have hStem : xnnpack <+: xnnpackTu := by decide
  exact ⟨s, hSymbol, hStem.isInfix.trans hInfix⟩

theorem not_missed_of_survived (h : Survived b (plan b) table) :
    ¬ Missed (Held table) (asked b) (expectCodegen b) table := by
  rw [not_missed_iff]
  constructor
  · have hCodegen := h codegen
    have hExpected := expectCodegen_le b
    omega
  · intro tu hTu
    have hPos := List.count_pos_iff.mpr (mem_registrars_of_asked hTu)
    exact held_of_count (Nat.lt_of_lt_of_le hPos (h tu))

theorem unseen_of_lost (hBackend : Held table xnnpack)
    (hNot : ¬ Missed (Held table) (asked b) (expectCodegen b) table) {tu : Text}
    (hFew : count table tu < ((plan b).registrars b).count tu) : Unseen b (plan b) table := by
  obtain ⟨hEnough, hHeld⟩ := not_missed_iff.mp hNot
  have hMem : tu ∈ (plan b).registrars b := List.count_pos_iff.mp (by omega)
  obtain rfl | rfl | hAsked := mem_registrars hMem
  · exact Unseen.codegen hFew hEnough
  · exact Unseen.backend hFew hBackend
  · exact Unseen.kernel tu hAsked hFew (hHeld tu hAsked)

theorem guard_passes_plan_iff (hPlain : PlainNames b.sources) (table : List NmSymbol) :
    assertKernelsRegistered (nmText table) (some (expectCodegen b)) (plan b).expectTus = .ok () ↔
      Held table xnnpack ∧ ¬ Missed (Held table) (asked b) (expectCodegen b) table := by
  have hText : xnnpack <:+: nmText table ↔ Held table xnnpack :=
    @infix_nmText_iff "XNNPACKBackend".toList (by decide) table
  by_cases hBackend : xnnpack <:+: nmText table
  · rw [expectTus_plan hPlain, registered_iff_of_plain hBackend _ (asked_plain hPlain),
      and_iff_right (hText.mp hBackend)]
    rfl
  · rw [assertKernelsRegistered, if_pos hBackend]
    exact iff_of_false (by simp) fun h => hBackend (hText.mpr h.1)

end Guard

def linuxBuild : Build where
  install := ⟨fun lib => lib != .portableOpsLib, true⟩
  scope := ⟨fun name => if name = "ET_RUNTIME_OPENVINO_PLATFORM".toList then
    some "linux-x86_64".toList else none, true⟩
  platform := "linux-x86_64".toList
  win32 := false
  buildReferenceKernel := none
  extraKernelSources := []
  listDir := "/p/cmake".toList
  compilerId := "GNU".toList
  msvc := false

def openvinoLine : NmSymbol := nmLine "_GLOBAL__sub_I_OpenvinoBackend.cpp" (by decide)

def codegenLine : NmSymbol := ⟨"0000000000001c40 t ".toList, codegen, by decide, by decide⟩

def kernelLine : NmSymbol := nmLine "_GLOBAL__sub_I_etnp_reference_ops.cpp" (by decide)

def linuxTable : List NmSymbol := [backendLine, openvinoLine, codegenLine, codegenLine, kernelLine]

theorem linuxBuild_sources : linuxBuild.sources =
    ["/p/cmake/../kernels/reference/etnp_reference_ops.cpp".toList] := by
  decide +kernel

theorem linuxBuild_plain : PlainNames linuxBuild.sources := by
  rw [linuxBuild_sources, PlainNames, List.forall_mem_singleton]
  decide +kernel

theorem linuxBuild_registrars : (plan linuxBuild).registrars linuxBuild =
    [xnnpackTu, openvinoTu, codegen, codegen, kernelLine.name] := by
  decide +kernel

theorem linuxBuild_asked : asked linuxBuild = [kernelLine.name, openvinoTu] := by
  decide +kernel

theorem linuxTable_survived : Survived linuxBuild (plan linuxBuild) linuxTable := by
  have hNames : (plan linuxBuild).registrars linuxBuild = linuxTable.map NmSymbol.name :=
    linuxBuild_registrars
  intro tu
  rw [hNames, List.count_eq_countP, List.countP_map]
  apply Nat.le_of_eq
  apply List.countP_congr
  intro s _
  rw [Function.comp_apply, beq_iff_eq, decide_eq_true_eq]

end LinkLine

end ExecutorchNumpy
