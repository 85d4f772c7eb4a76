import Mathlib.Data.List.Pairwise
import ExecutorchNumpy.InputMarshal
import ExecutorchNumpy.Library.Registry
import ExecutorchNumpy.LinkLine
import ExecutorchNumpy.Openvino

/-! # What the loaded module says about itself

Static initializers fill ExecuTorch's registries when the module is loaded.
`runtime_info` reports them next to the kernel libraries of the link line, and
the delegates of the line are the ones a program can run on.
-/

namespace ExecutorchNumpy
set_option autoImplicit false

open CmakeValues (Text items)
open LinkLine (LinkItem Build Plan)
open Registry (Table registerAll registerEach)

/-! ## The registries as `et_core.cpp` reads them -/

/-- A registered kernel: its name, which may be null, and what tells it from others of that name. -/
structure Kernel where
  name : Option ByteString
  key : ByteString
  deriving DecidableEq, Repr

/-- The answers of `get_backend_name`, index by index, and of `get_registered_kernels`. -/
structure Registries where
  backendNames : List (Except Executorch.Error ByteString)
  kernels : List Kernel

def registeredBackends (registries : Registries) : List ByteString :=
  registries.backendNames.filterMap Except.toOption

def operatorNames (registries : Registries) : List ByteString :=
  registries.kernels.filterMap Kernel.name

def Error.NotFound : Executorch.Error := 0x20

/-- The value of a `BackendOption`, of which only an int is expected. -/
inductive OptionValue where
  | int (value : Int)
  | other
  deriving DecidableEq, Repr

def xnnpackBackend : ByteString := cxx "XnnpackBackend"

def backendNotRegistered : EtError :=
  ⟨.backendMissing, cxx "XnnpackBackend is not registered, so its workspace size cannot be read", xnnpackBackend⟩

def getOptionFailed (err : Executorch.Error) : EtError :=
  ⟨.execution, cxx "get_option(XnnpackBackend, workspace_size_bytes) failed with ExecuTorch error " ++ cxx (toString err), xnnpackBackend⟩

def notAnInt : EtError :=
  ⟨.execution, cxx "XnnpackBackend workspace_size_bytes did not hold an int", xnnpackBackend⟩

/-- `getOption` answers for the option `workspace_size_bytes` of a backend. -/
def xnnpackWorkspaceSizeBytes (getOption : ByteString → Except Executorch.Error OptionValue) :
    Except EtError Int :=
  match getOption xnnpackBackend with
  | .error err =>
    if err = Error.NotFound then .error backendNotRegistered else .error (getOptionFailed err)
  | .ok (.int value) => .ok value
  | .ok .other => .error notAnInt

namespace Bound

def registeredBackends (registries : Registries) : Except PyException (List PyStr) :=
  castStrings (ExecutorchNumpy.registeredBackends registries)

def operatorNames (registries : Registries) : Except PyException (List PyStr) :=
  castStrings (ExecutorchNumpy.operatorNames registries)

def xnnpackWorkspaceSizeBytes (getOption : ByteString → Except Executorch.Error OptionValue) :
    Except PyException Int :=
  toPyResult (ExecutorchNumpy.xnnpackWorkspaceSizeBytes getOption)

end Bound

/-! ## `runtime_info` -/

def supportedDtypes : List PyStr :=
  ["float32", "float64", "float16", "int64", "int32", "int16", "int8", "uint8", "bool",
    "uint16(bfloat16-bits)"].map py

structure RuntimeInfo where
  executorchVersion : PyStr
  backends : List PyStr
  operators : List PyStr
  kernelLibs : List PyStr
  supportedDtypes : List PyStr
  bfloat16 : PyStr
  deriving DecidableEq, Repr

/-- `[s for s in text.split(",") if s]` -/
def splitNonempty (text : PyStr) : List PyStr := (text.splitOn ','.toNat).filter (· ≠ [])

/-- `runtime_info` over the attributes `__et_version__` and `__kernel_libs__` of `_core`. -/
def runtimeInfo (etVersion kernelLibs : PyStr) (registries : Registries) :
    Except PyException RuntimeInfo := do
  let backends ← Bound.registeredBackends registries
  let operators ← Bound.operatorNames registries
  return {
    executorchVersion := etVersion
    backends := backends
    operators := operators
    kernelLibs := splitNonempty kernelLibs
    supportedDtypes := supportedDtypes
    bfloat16 := py "uint16-passthrough" }

/-! ## Loading the module -/

/-- What the objects of each library register when they are initialized. -/
structure Archives where
  kernels : LinkItem → List Kernel
  backends : LinkItem → List ByteString

/-- The static initializers of a link line, in the order in which they happen to run. A kernel that
is registered twice ends the process; a backend that is refused is not there. -/
def loadModule (kernelTable : Table Kernel) (backendTable : Table ByteString) (archives : Archives)
    (order : List LinkItem) : Option Registries :=
  (registerAll kernelTable (order.map archives.kernels) kernelTable.empty).map fun kernels =>
    ⟨(backendTable.entries
        (registerEach backendTable (order.map archives.backends) backendTable.empty)).map .ok,
      kernelTable.entries kernels⟩

/-! ## What is linked is registered -/

/-- What the kernel libraries of a runtime are: each aten operator comes from both the optimized and
the portable library, and no other kernel comes from two. -/
structure ShippedKernels (archives : Archives) : Prop where
  aten : ∀ k, k ∈ archives.kernels .optimizedNativeCpuOpsLib ↔ k ∈ archives.kernels .portableOpsLib
  nodup : ∀ {lib : LinkItem}, lib ≠ .etnpKernels → (archives.kernels lib).Nodup
  apart : ∀ {lib other : LinkItem} {k : Kernel}, lib ≠ .etnpKernels → other ≠ .etnpKernels →
    k ∈ archives.kernels lib → k ∈ archives.kernels other → lib ≠ other →
      (lib = .optimizedNativeCpuOpsLib ∧ other = .portableOpsLib) ∨
        (lib = .portableOpsLib ∧ other = .optimizedNativeCpuOpsLib)
  names : ∀ {lib : LinkItem} {k : Kernel} {name : ByteString}, lib ≠ .etnpKernels →
    k ∈ archives.kernels lib → k.name = some name → Utf8Text.Valid name

/-- The sources compiled into `etnp_kernels` are the consumer's own: they register no kernel twice
and none that another library of the line registers. -/
structure OwnKernels (archives : Archives) (libraries : List LinkItem) : Prop where
  nodup : (archives.kernels .etnpKernels).Nodup
  apart : ∀ {lib : LinkItem} {k : Kernel}, lib ∈ libraries → lib ≠ .etnpKernels →
    k ∈ archives.kernels .etnpKernels → k ∉ archives.kernels lib
  names : ∀ {k : Kernel} {name : ByteString}, k ∈ archives.kernels .etnpKernels →
    k.name = some name → Utf8Text.Valid name

/-- The delegates are the only backends. -/
structure ShippedBackends (archives : Archives) : Prop where
  xnnpack : archives.backends .xnnpackBackend = [xnnpackBackend]
  openvino : archives.backends .openvinoBackend = [openvinoBackend]
  others : ∀ {lib : LinkItem}, lib ≠ .xnnpackBackend → lib ≠ .openvinoBackend →
    archives.backends lib = []

section Loading

variable {kernelTable : Table Kernel} {backendTable : Table ByteString} {archives : Archives}
  {order : List LinkItem}

theorem nodup_kernels (hShipped : ShippedKernels archives) (hOwn : OwnKernels archives order)
    (hOrder : order.Nodup)
    (hOne : ¬ (.optimizedNativeCpuOpsLib ∈ order ∧ .portableOpsLib ∈ order)) :
    (order.flatMap archives.kernels).Nodup := by
  rw [List.nodup_flatMap]
  constructor
  · intro lib _
    by_cases hLib : lib = .etnpKernels
    · exact hLib ▸ hOwn.nodup
    · exact hShipped.nodup hLib
  · apply hOrder.pairwise_of_forall_ne
    intro lib hLib other hOther hNe k hk hk'
    by_cases hFirst : lib = .etnpKernels
    · subst hFirst
      exact hOwn.apart hOther hNe.symm hk hk'
    · by_cases hSecond : other = .etnpKernels
      · subst hSecond
        exact hOwn.apart hLib hNe hk' hk
      · obtain ⟨rfl, rfl⟩ | ⟨rfl, rfl⟩ := hShipped.apart hFirst hSecond hk hk' hNe
        · exact hOne ⟨hLib, hOther⟩
        · exact hOne ⟨hOther, hLib⟩

theorem mem_backends (hShipped : ShippedBackends archives) {lib : LinkItem} {name : ByteString} :
    name ∈ archives.backends lib ↔ (lib = .xnnpackBackend ∧ name = xnnpackBackend) ∨
      (lib = .openvinoBackend ∧ name = openvinoBackend) := by
  by_cases hXnnpack : lib = .xnnpackBackend
  · subst hXnnpack
    simp [hShipped.xnnpack]
  · by_cases hOpenvino : lib = .openvinoBackend
    · subst hOpenvino
      simp [hShipped.openvino]
    · simp [hShipped.others hXnnpack hOpenvino, hXnnpack, hOpenvino]

theorem xnnpackBackend_ne : xnnpackBackend ≠ openvinoBackend := by decide

theorem nodup_backends (hShipped : ShippedBackends archives) (hOrder : order.Nodup) :
    (order.flatMap archives.backends).Nodup := by
  rw [List.nodup_flatMap]
  constructor
  · intro lib _
    by_cases hXnnpack : lib = .xnnpackBackend
    · rw [hXnnpack, hShipped.xnnpack]
      exact List.nodup_singleton _
    · by_cases hOpenvino : lib = .openvinoBackend
      · rw [hOpenvino, hShipped.openvino]
        exact List.nodup_singleton _
      · rw [hShipped.others hXnnpack hOpenvino]
        exact List.nodup_nil
  · apply hOrder.pairwise_of_forall_ne
    intro lib _ other _ hNe name hName hName'
    rcases (mem_backends hShipped).mp hName with ⟨rfl, rfl⟩ | ⟨rfl, rfl⟩ <;>
      obtain ⟨rfl, hSame⟩ | ⟨rfl, hSame⟩ := (mem_backends hShipped).mp hName'
    · exact hNe rfl
    · exact xnnpackBackend_ne hSame
    · exact xnnpackBackend_ne hSame.symm
    · exact hNe rfl

/-- The tables of the process have room for what the line registers. -/
structure Room (kernelTable : Table Kernel) (backendTable : Table ByteString) (archives : Archives)
    (order : List LinkItem) : Prop where
  kernels : (order.flatMap archives.kernels).length ≤ kernelTable.capacity
  backends : (order.flatMap archives.backends).length ≤ backendTable.capacity

/-- The module loads when only one library of its line provides the aten operators. -/
theorem load_of_one (hShipped : ShippedKernels archives) (hOwn : OwnKernels archives order)
    (hOrder : order.Nodup)
    (hOne : ¬ (.optimizedNativeCpuOpsLib ∈ order ∧ .portableOpsLib ∈ order))
    (hRoom : (order.flatMap archives.kernels).length ≤ kernelTable.capacity) :
    ∃ registries, loadModule kernelTable backendTable archives order = some registries := by
  have hNodup := nodup_kernels hShipped hOwn hOrder hOne
  rw [List.flatMap_def] at hRoom hNodup
  obtain ⟨kernels, hRun⟩ := (Registry.registerAll_empty_iff hRoom).mpr hNodup
  exact ⟨_, Option.map_eq_some_iff.mpr ⟨kernels, hRun, rfl⟩⟩

/-- What a loaded module has registered. -/
theorem operatorNames_of_load {registries : Registries}
    (hRoom : (order.flatMap archives.kernels).length ≤ kernelTable.capacity)
    (hLoad : loadModule kernelTable backendTable archives order = some registries) :
    operatorNames registries = (order.flatMap archives.kernels).filterMap Kernel.name := by
  rw [List.flatMap_def] at hRoom
  obtain ⟨kernels, hRun, rfl⟩ := Option.map_eq_some_iff.mp hLoad
  rw [operatorNames, Registry.entries_of_registerAll hRoom hRun, List.flatMap_def]

theorem registeredBackends_of_load {registries : Registries} (hShipped : ShippedBackends archives)
    (hOrder : order.Nodup)
    (hRoom : (order.flatMap archives.backends).length ≤ backendTable.capacity)
    (hLoad : loadModule kernelTable backendTable archives order = some registries) :
    registeredBackends registries = order.flatMap archives.backends := by
  have hNodup := nodup_backends hShipped hOrder
  rw [List.flatMap_def] at hRoom hNodup
  obtain ⟨kernels, hRun, rfl⟩ := Option.map_eq_some_iff.mp hLoad
  obtain ⟨backends, hEach⟩ := (Registry.registerAll_empty_iff hRoom).mpr hNodup
  rw [registeredBackends, Registry.registerEach_of_some hEach,
    Registry.entries_of_registerAll hRoom hEach, List.flatMap_def]
  simp [List.filterMap_map, Function.comp_def, Except.toOption]

end Loading

/-! ## What is registered is reported -/

def pyText (text : Text) : PyStr := text.map Char.toNat

theorem pyText_intercalate (c : Char) (names : List Text) :
    pyText (List.intercalate [c] names) = List.intercalate [c.toNat] (names.map pyText) := by
  induction names with
  | nil => rfl
  | cons first rest ih =>
    cases rest with
    | nil => rw [List.intercalate_singleton, List.map_singleton, List.intercalate_singleton]
    | cons second rest =>
      rw [List.intercalate_cons_cons, pyText, List.map_append, List.map_append]
      change pyText first ++ [c.toNat] ++ pyText (List.intercalate [c] (second :: rest)) = _
      rw [ih]
      exact List.intercalate_cons_cons.symm

/-- Joining with commas and splitting again gives nonempty names without a comma back. -/
theorem splitNonempty_joined {names : List Text} (hNames : names ≠ [])
    (hEach : ∀ name ∈ names, name ≠ [] ∧ ',' ∉ name) :
    splitNonempty (pyText (List.intercalate [','] names)) = names.map pyText := by
  have hComma : ∀ text ∈ names.map pyText, ','.toNat ∉ text := by
    intro text hText hMem
    obtain ⟨name, hName, rfl⟩ := List.mem_map.mp hText
    obtain ⟨c, hc, hCode⟩ := List.mem_map.mp hMem
    exact (hEach name hName).2 (Char.toNat_inj.mp hCode ▸ hc)
  rw [splitNonempty, pyText_intercalate, List.splitOn_intercalate _ hComma (by simpa using hNames),
    List.filter_eq_self]
  intro text hText
  obtain ⟨name, hName, rfl⟩ := List.mem_map.mp hText
  simpa [pyText] using (hEach name hName).1

section KernelLibs

variable {b : Build}

/-- The kernel libraries of a line, as they are advertised. -/
def advertisedNames (libraries : List LinkItem) : List Text :=
  "portable".toList :: libraries.filterMap LinkLine.advertised

theorem advertisedNames_each {libraries : List LinkItem} {name : Text}
    (h : name ∈ advertisedNames libraries) :
    CmakeValues.PlainItem name ∧ name ≠ [] ∧ ',' ∉ name := by
  obtain rfl | hMem := List.mem_cons.mp h
  · decide
  · obtain ⟨lib, _, hName⟩ := List.mem_filterMap.mp hMem
    cases lib with
    | optimizedNativeCpuOpsLib => exact Option.some.inj hName ▸ by decide
    | quantizedOpsLib => exact Option.some.inj hName ▸ by decide
    | etnpExtras => exact Option.some.inj hName ▸ by decide
    | _ => cases hName

theorem splitNonempty_kernelLibsStr (b : Build) :
    splitNonempty (pyText (LinkLine.kernelLibsStr (LinkLine.plan b))) =
      (advertisedNames (LinkLine.plan b).libraries).map pyText := by
  have hItems : items (LinkLine.plan b).kernelLibs = advertisedNames (LinkLine.plan b).libraries := by
    rw [(LinkLine.tells_plan b).kernelLibs]
    exact CmakeValues.items_foldl_listAppend (fun _ h => (advertisedNames_each h).1)
      fun _ h => (advertisedNames_each h).2.1
  rw [LinkLine.kernelLibsStr, hItems]
  exact splitNonempty_joined (List.cons_ne_nil _ _) fun _ h => (advertisedNames_each h).2

end KernelLibs

theorem mem_castStrings {strings : List ByteString} {texts : List PyStr}
    (h : List.Forall₂ (fun bytes text => decodeUtf8 bytes = some text) strings texts) {text : PyStr} :
    text ∈ texts ↔ ∃ bytes ∈ strings, decodeUtf8 bytes = some text := by
  induction h with
  | nil => simp
  | cons hText _ ih => simp [ih, hText, eq_comm]

/-- The name of a dtype as numpy writes it. -/
def dtypeName (d : NpDtype) : String :=
  (if d.kind = ch 'f' then "float" else if d.kind = ch 'i' then "int"
    else if d.kind = ch 'u' then "uint" else "bool") ++
  (if d.kind = ch 'b' then "" else toString (d.itemsize * 8))

/-- How `runtime_info` writes the numpy side of a ScalarType; bfloat16 passes through as its bits. -/
def ScalarType.label (t : ScalarType) : PyStr :=
  py (dtypeName t.npDtype ++ if t = .bfloat16 then "(bfloat16-bits)" else "")

theorem mem_supportedDtypes {text : PyStr} :
    text ∈ supportedDtypes ↔ ∃ t : ScalarType, t.label = text := by
  constructor
  · intro h
    simp only [supportedDtypes, List.map_cons, List.map_nil, List.mem_cons, List.not_mem_nil,
      or_false] at h
    obtain rfl | rfl | rfl | rfl | rfl | rfl | rfl | rfl | rfl | rfl := h
    · exact ⟨.float, by decide⟩
    · exact ⟨.double, by decide⟩
    · exact ⟨.half, by decide⟩
    · exact ⟨.long, by decide⟩
    · exact ⟨.int, by decide⟩
    · exact ⟨.short, by decide⟩
    · exact ⟨.char, by decide⟩
    · exact ⟨.byte, by decide⟩
    · exact ⟨.bool, by decide⟩
    · exact ⟨.bfloat16, by decide⟩
  · rintro ⟨t, rfl⟩
    cases t <;> decide

/-- The report is the link line: the advertised libraries, the operators and the backends are those
of the libraries on it, aten operators among them; the dtypes are those that inputs may have, and no
others. -/
structure Reports (archives : Archives) (libraries : List LinkItem) (info : RuntimeInfo) : Prop where
  kernelLibs : info.kernelLibs = (advertisedNames libraries).map pyText
  operators : ∀ text, text ∈ info.operators ↔ ∃ lib ∈ libraries, ∃ k ∈ archives.kernels lib,
    ∃ name, k.name = some name ∧ decodeUtf8 name = some text
  aten : ∀ k ∈ archives.kernels .portableOpsLib, ∀ name text, k.name = some name →
    decodeUtf8 name = some text → text ∈ info.operators
  backends : ∀ text, text ∈ info.backends ↔ ∃ lib ∈ libraries, ∃ name ∈ archives.backends lib,
    decodeUtf8 name = some text
  dtypes : ∀ dtype code, inputScalarType dtype = .ok code ↔ ∃ t : ScalarType, t.code = code ∧
    dlpackDtype t.npDtype = dtype ∧ t.label ∈ info.supportedDtypes
  accepted : ∀ text ∈ info.supportedDtypes, ∃ t : ScalarType, t.label = text ∧
    inputScalarType (dlpackDtype t.npDtype) = .ok t.code

section Report

variable {kernelTable : Table Kernel} {backendTable : Table ByteString} {archives : Archives}
  {b : Build} {order : List LinkItem}

/-- Every line that `CMakeLists.txt` makes loads, in whatever order its initializers run. -/
theorem line_loads (hShipped : ShippedKernels archives) (hOwn : OwnKernels archives order)
    (hOrder : order.Perm (LinkLine.plan b).libraries)
    (hRoom : Room kernelTable backendTable archives order) :
    ∃ registries, loadModule kernelTable backendTable archives order = some registries := by
  have hNodup : order.Nodup := hOrder.nodup_iff.mpr (LinkLine.nodup_libraries_plan b)
  apply load_of_one hShipped hOwn hNodup _ hRoom.kernels
  rw [hOrder.mem_iff, hOrder.mem_iff, LinkLine.mem_libraries_plan, LinkLine.mem_libraries_plan]
  simp [LinkLine.wanted]

theorem aten_on_line (hShipped : ShippedKernels archives) {k : Kernel}
    (hk : k ∈ archives.kernels .portableOpsLib) :
    ∃ lib ∈ (LinkLine.plan b).libraries, k ∈ archives.kernels lib := by
  cases hTarget : b.hasTarget .optimizedNativeCpuOpsLib with
  | true =>
    exact ⟨.optimizedNativeCpuOpsLib, LinkLine.mem_libraries_plan.mpr hTarget, (hShipped.aten k).mpr hk⟩
  | false =>
    refine ⟨.portableOpsLib, LinkLine.mem_libraries_plan.mpr ?_, hk⟩
    rw [LinkLine.wanted, hTarget]
    rfl

theorem valid_registeredBackends {registries : Registries} (hShipped : ShippedBackends archives)
    (hBackends : registeredBackends registries = order.flatMap archives.backends) :
    ∀ name ∈ registeredBackends registries, Utf8Text.Valid name := by
  intro name hName
  rw [hBackends] at hName
  obtain ⟨lib, _, hMem⟩ := List.mem_flatMap.mp hName
  obtain ⟨_, rfl⟩ | ⟨_, rfl⟩ := (mem_backends hShipped).mp hMem
  · exact valid_cxx _
  · exact valid_cxx _

theorem valid_operatorNames {registries : Registries} (hShipped : ShippedKernels archives)
    (hOwn : OwnKernels archives order)
    (hOperators : operatorNames registries =
      (order.flatMap archives.kernels).filterMap Kernel.name) :
    ∀ name ∈ operatorNames registries, Utf8Text.Valid name := by
  intro name hName
  rw [hOperators] at hName
  obtain ⟨k, hk, hKernel⟩ := List.mem_filterMap.mp hName
  obtain ⟨lib, _, hMem⟩ := List.mem_flatMap.mp hk
  by_cases hLib : lib = .etnpKernels
  · exact hOwn.names (hLib ▸ hMem) hKernel
  · exact hShipped.names hLib hMem hKernel

theorem runtimeInfo_of_texts {registries : Registries} {etVersion kernelLibs : PyStr}
    {backends operators : List PyStr}
    (hBackends : castStrings (registeredBackends registries) = .ok backends)
    (hOperators : castStrings (operatorNames registries) = .ok operators) :
    runtimeInfo etVersion kernelLibs registries =
      .ok ⟨etVersion, backends, operators, splitNonempty kernelLibs, supportedDtypes,
        py "uint16-passthrough"⟩ := by
  rw [runtimeInfo, Bound.registeredBackends, hBackends, Bound.operatorNames, hOperators]
  rfl

end Report

/-- A configured module whose own kernels are of no other library loads, whatever the order of its
initializers, and reports its link line. -/
theorem runtime_info_reports {kernelTable : Table Kernel} {backendTable : Table ByteString}
    {archives : Archives} {b : Build} {p : Plan} {order : List LinkItem} {etVersion : PyStr}
    (hPlan : LinkLine.configure b = .ok p) (hShipped : ShippedKernels archives)
    (hOwn : OwnKernels archives p.libraries) (hDelegates : ShippedBackends archives)
    (hOrder : order.Perm p.libraries) (hRoom : Room kernelTable backendTable archives order) :
    ∃ registries info, loadModule kernelTable backendTable archives order = some registries ∧
      runtimeInfo etVersion (pyText (LinkLine.kernelLibsStr p)) registries = .ok info ∧
      Reports archives p.libraries info := by
  obtain rfl := LinkLine.configure_eq_ok hPlan
  have hOrdered : OwnKernels archives order :=
    ⟨hOwn.nodup, fun hLib => hOwn.apart (hOrder.mem_iff.mp hLib), hOwn.names⟩
  obtain ⟨registries, hLoad⟩ := line_loads hShipped hOrdered hOrder hRoom
  have hNodup : order.Nodup := hOrder.nodup_iff.mpr (LinkLine.nodup_libraries_plan b)
  have hOperators := operatorNames_of_load hRoom.kernels hLoad
  have hBackends := registeredBackends_of_load hDelegates hNodup hRoom.backends hLoad
  obtain ⟨backends, hBackendTexts, hEachBackend⟩ :=
    castStrings_of_valid _ (valid_registeredBackends hDelegates hBackends)
  obtain ⟨operators, hOperatorTexts, hEachOperator⟩ :=
    castStrings_of_valid _ (valid_operatorNames hShipped hOrdered hOperators)
  refine ⟨registries, _, hLoad, runtimeInfo_of_texts hBackendTexts hOperatorTexts, ?_⟩
  have hOperator : ∀ text, text ∈ operators ↔ ∃ lib ∈ (LinkLine.plan b).libraries,
      ∃ k ∈ archives.kernels lib, ∃ name, k.name = some name ∧ decodeUtf8 name = some text := by
    intro text
    rw [mem_castStrings hEachOperator, hOperators]
    constructor
    · rintro ⟨name, hName, hText⟩
      obtain ⟨k, hk, hKernel⟩ := List.mem_filterMap.mp hName
      obtain ⟨lib, hLib, hMem⟩ := List.mem_flatMap.mp hk
      exact ⟨lib, hOrder.mem_iff.mp hLib, k, hMem, name, hKernel, hText⟩
    · rintro ⟨lib, hLib, k, hMem, name, hKernel, hText⟩
      have hk := List.mem_flatMap.mpr ⟨lib, hOrder.mem_iff.mpr hLib, hMem⟩
      exact ⟨name, List.mem_filterMap.mpr ⟨k, hk, hKernel⟩, hText⟩
  constructor
  · exact splitNonempty_kernelLibsStr b
  · exact hOperator
  · intro k hk name text hName hText
    obtain ⟨lib, hLib, hMem⟩ := @aten_on_line archives b hShipped k hk
    exact (hOperator text).mpr ⟨lib, hLib, k, hMem, name, hName, hText⟩
  · intro text
    rw [mem_castStrings hEachBackend, hBackends]
    constructor
    · rintro ⟨name, hName, hText⟩
      obtain ⟨lib, hLib, hMem⟩ := List.mem_flatMap.mp hName
      exact ⟨lib, hOrder.mem_iff.mp hLib, name, hMem, hText⟩
    · rintro ⟨lib, hLib, name, hMem, hText⟩
      exact ⟨name, List.mem_flatMap.mpr ⟨lib, hOrder.mem_iff.mpr hLib, hMem⟩, hText⟩
  · intro dtype code
    rw [inputScalarType_eq_ok_iff]
    constructor
    · rintro ⟨t, hCode, hDtype⟩
      exact ⟨t, hCode, hDtype, mem_supportedDtypes.mpr ⟨t, rfl⟩⟩
    · rintro ⟨t, hCode, hDtype, _⟩
      exact ⟨t, hCode, hDtype⟩
  · intro text hText
    obtain ⟨t, hLabel⟩ := mem_supportedDtypes.mp hText
    exact ⟨t, hLabel, (inputScalarType_eq_ok_iff _ _).mpr ⟨t, rfl, rfl⟩⟩

def namedKernel (name : String) : Kernel := ⟨some (cxx name), []⟩

/-- One kernel for each library that has any. -/
def smallArchives : Archives where
  kernels
    | .optimizedNativeCpuOpsLib | .portableOpsLib => [namedKernel "aten::add.out"]
    | .quantizedOpsLib => [namedKernel "quantized_decomposed::add.out"]
    | .etnpKernels => [namedKernel "etnp::triple.out"]
    | .etnpExtras => [namedKernel "etnp::lstm.out"]
    | _ => []
  backends
    | .xnnpackBackend => [xnnpackBackend]
    | .openvinoBackend => [openvinoBackend]
    | _ => []

theorem smallArchives_shippedKernels : ShippedKernels smallArchives where
  aten _ := Iff.rfl
  nodup {lib} _ := by cases lib <;> simp [smallArchives]
  apart {lib other k} _ _ hk hk' hNe := by
    cases lib <;> cases other <;>
      simp only [smallArchives, List.mem_singleton, List.not_mem_nil] at hk hk' <;>
      first
        | exact absurd rfl hNe
        | exact Or.inl ⟨rfl, rfl⟩
        | exact Or.inr ⟨rfl, rfl⟩
        | exact absurd (hk.symm.trans hk') (by decide)
  names {lib k name} _ hk hName := by
    cases lib <;> simp only [smallArchives, List.mem_singleton, List.not_mem_nil] at hk <;>
      (subst hk; exact Option.some.inj hName ▸ valid_cxx _)

theorem smallArchives_own (libraries : List LinkItem) : OwnKernels smallArchives libraries where
  nodup := List.nodup_singleton _
  apart {lib k} _ hLib hk := by
    obtain rfl := List.mem_singleton.mp hk
    cases lib with
    | etnpKernels => exact absurd rfl hLib
    | _ => decide
  names {k name} hk hName := by
    obtain rfl := List.mem_singleton.mp hk
    exact Option.some.inj hName ▸ valid_cxx _

theorem smallArchives_shippedBackends : ShippedBackends smallArchives where
  xnnpack := rfl
  openvino := rfl
  others {lib} hXnnpack hOpenvino := by
    cases lib with
    | xnnpackBackend => exact absurd rfl hXnnpack
    | openvinoBackend => exact absurd rfl hOpenvino
    | _ => rfl

/-- The full Linux module reports all four kernel libraries. -/
theorem linuxBuild_reports : ∃ registries info,
    loadModule (.ofCapacity Kernel 8) (.ofCapacity ByteString 8) smallArchives
      (LinkLine.plan LinkLine.linuxBuild).libraries = some registries ∧
    runtimeInfo (py "1.5.1") (pyText (LinkLine.kernelLibsStr (LinkLine.plan LinkLine.linuxBuild)))
      registries = .ok info ∧
    info.kernelLibs = [py "portable", py "optimized", py "quantized", py "lstm"] ∧
    py "aten::add.out" ∈ info.operators := by
  have hRoom : Room (.ofCapacity Kernel 8) (.ofCapacity ByteString 8) smallArchives
      (LinkLine.plan LinkLine.linuxBuild).libraries := ⟨by decide, by decide⟩
  obtain ⟨registries, info, hLoad, hInfo, hReports⟩ := @runtime_info_reports
    (.ofCapacity Kernel 8) (.ofCapacity ByteString 8) smallArchives LinkLine.linuxBuild
    (LinkLine.plan LinkLine.linuxBuild) _ (py "1.5.1") rfl smallArchives_shippedKernels
    (smallArchives_own _) smallArchives_shippedBackends (List.Perm.refl _) hRoom
  refine ⟨registries, info, hLoad, hInfo, ?_, ?_⟩
  · rw [hReports.kernelLibs]
    decide
  · exact hReports.aten (namedKernel "aten::add.out") List.mem_cons_self (cxx "aten::add.out") _ rfl
      (by decide)

/-! ## The delegates of the line -/

section Delegates

variable {kernelTable : Table Kernel} {backendTable : Table ByteString} {archives : Archives}
  {b : Build} {order : List LinkItem} {registries : Registries}

theorem backendAvailable_iff (hShipped : ShippedBackends archives)
    (hOrder : order.Perm (LinkLine.plan b).libraries)
    {host : Host} (hBackends : host.registeredBackends = order.flatMap archives.backends) :
    backendAvailable host openvinoBackend = true ↔ b.openvino = true := by
  simp only [backendAvailable, List.any_eq_true, beq_iff_eq, exists_eq_right, hBackends,
    List.mem_flatMap]
  constructor
  · rintro ⟨lib, hLib, hMem⟩
    obtain ⟨_, hName⟩ | ⟨rfl, _⟩ := (mem_backends hShipped).mp hMem
    · exact absurd hName.symm xnnpackBackend_ne
    · exact LinkLine.mem_libraries_plan.mp (hOrder.mem_iff.mp hLib)
  · intro hOpenvino
    refine ⟨.openvinoBackend, hOrder.mem_iff.mpr (LinkLine.mem_libraries_plan.mpr hOpenvino), ?_⟩
    exact (mem_backends hShipped).mpr (Or.inr ⟨rfl, rfl⟩)

theorem xnnpack_registered (hShipped : ShippedBackends archives)
    (hOrder : order.Perm (LinkLine.plan b).libraries)
    (hBackends : registeredBackends registries = order.flatMap archives.backends) :
    xnnpackBackend ∈ registeredBackends registries := by
  rw [hBackends]
  refine List.mem_flatMap.mpr ⟨.xnnpackBackend, ?_, (mem_backends hShipped).mpr (Or.inl ⟨rfl, rfl⟩)⟩
  exact hOrder.mem_iff.mpr (LinkLine.mem_libraries_plan.mpr rfl)

theorem workspace_missing_iff (getOption : ByteString → Except Executorch.Error OptionValue) :
    xnnpackWorkspaceSizeBytes getOption = .error backendNotRegistered ↔
      getOption xnnpackBackend = .error Error.NotFound := by
  have hKind : ErrorKind.execution ≠ ErrorKind.backendMissing := by decide
  rw [xnnpackWorkspaceSizeBytes]
  cases getOption xnnpackBackend with
  | error err =>
    by_cases hErr : err = Error.NotFound
    · simp [hErr]
    · simp only [hErr, if_false, Except.error.injEq, iff_false]
      exact fun h => hKind (congrArg EtError.kind h)
  | ok value =>
    cases value with
    | int value => simp
    | other => exact iff_of_false (fun h => hKind (congrArg EtError.kind (Except.error.inj h))) (by simp)

section Lowered

variable {σ : Type} {M : Executorch.Module σ} {host : Host} {env : Env} {name : ByteString}
  {s : RuntimeState σ} {mm : Executorch.MethodMeta}

/-- The method that `mm` describes was lowered to the OpenVINO delegate. -/
structure LoweredMethod (M : Executorch.Module σ) (name : ByteString) (s : RuntimeState σ)
    (mm : Executorch.MethodMeta) : Prop where
  metadata : (M.methodMeta name s.module).1 = .ok mm
  uses : mm.usesBackend openvinoBackend = true

theorem usesOutcome_lowered (h : LoweredMethod M name s mm) :
    usesOutcome name openvinoBackend (M.methodMeta name s.module).1 = .ok true := by
  have hName : Utf8Text.cString openvinoBackend = openvinoBackend := by decide
  rw [h.metadata, usesOutcome, checked, hName, h.uses]

theorem guard_lowered_iff (h : LoweredMethod M name s mm) :
    ((guardOpenvino M host env name).runOn s).1 = .ok () ↔
      backendAvailable host openvinoBackend = true ∧ ∃ lib, env = some lib ∧ lib.val ≠ [] ∧
        (host.win32 = true ∨ host.isRegular lib.val = true) := by
  rw [guardOpenvino_runOn, usesOutcome_lowered h, ← checkOpenvino_eq_ok_iff]
  rfl

theorem run_lowered_absent (h : LoweredMethod M name s mm)
    (hAbsent : backendAvailable host openvinoBackend = false) (inputs : List InputDesc) :
    ((runMethod M host env name inputs).runOn s).1 = .error backendNotProvided := by
  have hCheck : checkOpenvino host env = .error backendNotProvided := by
    rw [checkOpenvino, requireBackend, hAbsent]
    rfl
  rw [runMethod_runOn, usesOutcome_lowered h, guardOutcome, hCheck]

end Lowered

end Delegates

/-- In a loaded module the XNNPACK delegate is there to be asked, and a method that was lowered to
OpenVINO can run exactly when the delegate was linked and the environment names its library; where
it was not linked, every call is refused with the reason. -/
theorem delegates_of_line {kernelTable : Table Kernel} {backendTable : Table ByteString}
    {archives : Archives} {b : Build} {p : Plan} {order : List LinkItem} {registries : Registries}
    (hPlan : LinkLine.configure b = .ok p) (hShipped : ShippedBackends archives)
    (hOrder : order.Perm p.libraries)
    (hRoom : (order.flatMap archives.backends).length ≤ backendTable.capacity)
    (hLoad : loadModule kernelTable backendTable archives order = some registries) :
    (∀ getOption, (getOption xnnpackBackend = .error Error.NotFound →
        xnnpackBackend ∉ registeredBackends registries) →
      xnnpackWorkspaceSizeBytes getOption ≠ .error backendNotRegistered) ∧
    ∀ {σ : Type} (M : Executorch.Module σ) (host : Host) (env : Env) (name : ByteString)
      (s : RuntimeState σ) (mm : Executorch.MethodMeta),
      host.registeredBackends = registeredBackends registries → LoweredMethod M name s mm →
        (((guardOpenvino M host env name).runOn s).1 = .ok () ↔ b.openvino = true ∧
          ∃ lib, env = some lib ∧ lib.val ≠ [] ∧
            (host.win32 = true ∨ host.isRegular lib.val = true)) ∧
        (b.openvino = false → ∀ inputs,
          ((runMethod M host env name inputs).runOn s).1 = .error backendNotProvided) := by
  obtain rfl := LinkLine.configure_eq_ok hPlan
  have hNodup : order.Nodup := hOrder.nodup_iff.mpr (LinkLine.nodup_libraries_plan b)
  have hBackends := registeredBackends_of_load hShipped hNodup hRoom hLoad
  constructor
  · intro getOption hNotFound hMissing
    exact hNotFound ((workspace_missing_iff getOption).mp hMissing)
      (xnnpack_registered hShipped hOrder hBackends)
  · intro σ M host env name s mm hHost hLowered
    have hAvailable := backendAvailable_iff hShipped hOrder (hHost.trans hBackends)
    constructor
    · rw [guard_lowered_iff hLowered, hAvailable]
    · intro hAbsent inputs
      refine run_lowered_absent hLowered (Bool.eq_false_iff.mpr ?_) inputs
      exact fun hThere => Bool.eq_false_iff.mp hAbsent (hAvailable.mp hThere)

/-- The Windows line of a prefix without kernel libraries of its own. -/
def windowsBuild : Build where
  install := ⟨fun lib => lib == .executorch || lib == .xnnpackBackend, false⟩
  scope := LinkLine.linuxBuild.scope
  platform := "windows-x86_64".toList
  win32 := true
  buildReferenceKernel := none
  extraKernelSources := []
  listDir := "/p/cmake".toList
  compilerId := "MSVC".toList
  msvc := true

/-- Every method of every program was lowered to OpenVINO. -/
def loweredModule : Executorch.Module Unit :=
  { Executorch.constantModule [] (fun _ => 0) with
    methodMeta := fun _ s => (.ok ⟨[], [], fun _ => true⟩, s) }

theorem windowsBuild_refuses : ∃ registries,
    loadModule (.ofCapacity Kernel 8) (.ofCapacity ByteString 8) smallArchives
      (LinkLine.plan windowsBuild).libraries = some registries ∧
    ((runMethod loweredModule ⟨true, registeredBackends registries, fun _ => none⟩ none
      (cxx "forward") []).runOn ⟨(), false⟩).1 = .error backendNotProvided := by
  have hRoom : Room (.ofCapacity Kernel 8) (.ofCapacity ByteString 8) smallArchives
      (LinkLine.plan windowsBuild).libraries := ⟨by decide, by decide⟩
  obtain ⟨registries, hLoad⟩ :=
    line_loads smallArchives_shippedKernels (smallArchives_own _) (List.Perm.refl _) hRoom
  refine ⟨registries, hLoad, ?_⟩
  have hDelegates := delegates_of_line (b := windowsBuild) rfl smallArchives_shippedBackends
    (List.Perm.refl _) hRoom.backends hLoad
  exact (hDelegates.2 loweredModule _ none (cxx "forward") ⟨(), false⟩ _ rfl ⟨rfl, rfl⟩).2
    (by decide) []

end ExecutorchNumpy
