import ExecutorchNumpy.Executorch

/-! # The binding-agnostic core, `et_core.cpp`

One definition per function of the source, as a computation on the state of one
`Runtime`. `Core` threads that state through normal and exceptional exits alike,
as the destructor of a `lock_guard` does.
-/

namespace ExecutorchNumpy
set_option autoImplicit false

open Executorch (EValue TensorPtr Module TensorInfo)

/-! ## The process around the core -/

inductive FileType where
  | regular
  | directory
  | other
  deriving DecidableEq, Repr

/-- The build and the file system: nothing in here changes while the process runs.
`fileType` is `stat`, symbolic links followed; `none` means that `stat` fails. -/
structure Host where
  win32 : Bool
  registeredBackends : List ByteString
  fileType : ByteString → Option FileType

/-- The value of an environment variable cannot hold a NUL byte. -/
abbrev EnvValue := { value : ByteString // (0 : UInt8) ∉ value }

/-- `OPENVINO_LIB_PATH` in the process environment, unset or set. -/
abbrev Env := Option EnvValue

/-- `stat` succeeds with a regular file; on the empty path it always fails. -/
def Host.isRegular (host : Host) (path : ByteString) : Bool :=
  !path.isEmpty && host.fileType path == some .regular

theorem Host.ne_nil_of_isRegular {host : Host} {path : ByteString} (h : host.isRegular path = true) :
    path ≠ [] := by
  rintro rfl
  cases h

/-- A POSIX system where no delegate is registered. -/
def bareHost : Host := ⟨false, [], fun _ => none⟩

def backendAvailable (host : Host) (name : ByteString) : Bool :=
  host.registeredBackends.any fun n => n == name

/-! ## Descriptors -/

structure InputDesc where
  data : ByteString
  shape : List Int
  scalarType : Int
  deriving DecidableEq, Repr

inductive OutputKind where
  | tensor
  | int
  | double
  | bool
  | string
  deriving DecidableEq, Repr

/-- `data` points into the storage of the `ForwardState`: it is the index of the owned buffer. -/
structure OutputView where
  kind : OutputKind := .tensor
  shape : List Int := []
  scalarType : Int := -1
  data : Option Nat := none
  nbytes : Nat := 0
  intVal : Int := 0
  doubleVal : UInt64 := 0
  strVal : ByteString := []
  deriving DecidableEq, Repr

structure ForwardState where
  storage : List ByteString
  views : List OutputView
  deriving DecidableEq, Repr

structure TensorMeta where
  shape : List Int
  scalarType : Int
  isMemoryPlanned : Bool
  deriving DecidableEq, Repr

structure MethodMeta where
  inputs : List TensorMeta
  outputs : List TensorMeta
  deriving DecidableEq, Repr

/-! ## Computations on one Runtime -/

structure RuntimeState (σ : Type) where
  module : σ
  execMutex : Bool

abbrev Core (σ α : Type) := ExceptT EtError (StateM (RuntimeState σ)) α

section Combinators

variable {σ α β : Type}

def Core.runOn (c : Core σ α) (s : RuntimeState σ) : Except EtError α × RuntimeState σ := c.run.run s

def onModule (op : σ → α × σ) : Core σ α := do
  let s ← get
  let (result, next) := op s.module
  set { s with module := next }
  return result

/-- `std::lock_guard` on `exec_mutex` around a block; the guard unlocks on every way out. -/
def lockGuard (body : Core σ α) : Core σ α := ExceptT.mk fun s =>
  let (result, s') := body.run.run { s with execMutex := true }
  (result, { s' with execMutex := false })

def ofExcept (result : Except EtError α) : Core σ α := ExceptT.mk (pure result)

@[simp] theorem runOn_pure (a : α) (s : RuntimeState σ) : (pure a : Core σ α).runOn s = (.ok a, s) := rfl

@[simp] theorem runOn_throw (e : EtError) (s : RuntimeState σ) :
    (throw e : Core σ α).runOn s = (.error e, s) := rfl

@[simp] theorem runOn_ofExcept (result : Except EtError α) (s : RuntimeState σ) :
    (ofExcept result : Core σ α).runOn s = (result, s) := rfl

@[simp] theorem runOn_get (s : RuntimeState σ) :
    (get : Core σ (RuntimeState σ)).runOn s = (.ok s, s) := rfl

@[simp] theorem runOn_onModule (op : σ → α × σ) (s : RuntimeState σ) :
    (onModule op).runOn s = (.ok (op s.module).1, { s with module := (op s.module).2 }) := rfl

@[simp] theorem runOn_lockGuard (body : Core σ α) (s : RuntimeState σ) :
    (lockGuard body).runOn s =
      ((body.runOn { s with execMutex := true }).1,
        { (body.runOn { s with execMutex := true }).2 with execMutex := false }) := rfl

theorem runOn_bind (c : Core σ α) (f : α → Core σ β) (s : RuntimeState σ) :
    (c >>= f).runOn s =
      match c.runOn s with
      | (.ok a, s') => (f a).runOn s'
      | (.error e, s') => (.error e, s') := by
  change (match c.runOn s with | (r, s') => (ExceptT.bindCont f r).run s') = _
  rcases c.runOn s with ⟨_ | a, s'⟩ <;> rfl

end Combinators

section Operations

variable {σ : Type} (M : Module σ) (host : Host) (env : Env)

def classifyLoadFailure (what : ByteString) : EtError :=
  ⟨.load, cxx "Failed to load .pte (corrupt, or exported by an ExecuTorch version other than the one this runtime targets, 1.5.1): " ++ what, []⟩

def loadPath (path : ByteString) : Except EtError (RuntimeState σ) :=
  match M.loadPath path with
  | .error _ => .error (classifyLoadFailure path)
  | .ok module => .ok ⟨module, false⟩

def loadBuffer (bytes : ByteString) : Except EtError (RuntimeState σ) :=
  match M.loadBuffer bytes with
  | .error _ => .error (classifyLoadFailure (cxx "<buffer>"))
  | .ok module => .ok ⟨module, false⟩

def methodNamesFailed : EtError := ⟨.load, cxx "method_names() failed", []⟩

def methodNames : Core σ (List ByteString) := lockGuard do
  match ← onModule M.methodNames with
  | .error _ => throw methodNamesFailed
  | .ok names => return names

def toTensorMeta : Except Executorch.Error TensorInfo → TensorMeta
  | .ok info => ⟨info.sizes, info.scalarType, info.isMemoryPlanned⟩
  | .error _ => ⟨[], -1, false⟩

def methodMetaFailed (name : ByteString) : EtError :=
  ⟨.load, cxx "method_meta('" ++ name ++ cxx "') failed", []⟩

def methodMeta (name : ByteString) : Core σ MethodMeta := lockGuard do
  match ← onModule (M.methodMeta name) with
  | .error _ => throw (methodMetaFailed name)
  | .ok mm => return ⟨mm.inputTensorMeta.map toTensorMeta, mm.outputTensorMeta.map toTensorMeta⟩

def metadataUnreadable (name : ByteString) : EtError :=
  ⟨.load, cxx "Could not read metadata for method '" ++ name ++ cxx "'", name⟩

def methodUsesBackend (name backend : ByteString) : Core σ Bool := lockGuard do
  match ← onModule (M.methodMeta name) with
  | .error _ => throw (metadataUnreadable name)
  | .ok mm => return mm.usesBackend (Utf8Text.cString backend)

/-! ## The OpenVINO guard -/

def openvinoBackend : ByteString := cxx "OpenvinoBackend"

def backendNotProvided : EtError :=
  ⟨.backendMissing, cxx "This .pte uses the OpenvinoBackend delegate, which this build does not provide. The OpenVINO delegate ships on linux-x86_64 only. Re-export without the OpenVINO partitioner to run here.", openvinoBackend⟩

def libPathNotSet : EtError :=
  ⟨.backendMissing, cxx "This .pte uses the OpenvinoBackend delegate, but OPENVINO_LIB_PATH is not set. Set it to the FULL PATH OF THE .so FILE (not a directory) before the first inference, or install the 'openvino' extra and load through executorch_numpy_runtime.Runtime, which resolves it for you.", openvinoBackend⟩

def libPathNotRegular (lib : ByteString) : EtError :=
  ⟨.backendMissing, cxx "OPENVINO_LIB_PATH does not name a regular file: '" ++ lib ++ cxx "'. It must be the full path to libopenvino_c.so, not a directory.", openvinoBackend⟩

def requireBackend : Except EtError Unit :=
  if backendAvailable host openvinoBackend then .ok () else .error backendNotProvided

def requireLibPath : Except EtError EnvValue :=
  match env with
  | none => .error libPathNotSet
  | some lib => if lib.val = [] then .error libPathNotSet else .ok lib

/-- The `stat` check, compiled out on Windows. -/
def requireRegular (lib : EnvValue) : Except EtError Unit :=
  if host.win32 then .ok ()
  else if host.isRegular lib.val then .ok ()
  else .error (libPathNotRegular lib.val)

/-- The part of `guard_openvino` after the delegate has been found in the metadata. -/
def checkOpenvino : Except EtError Unit := do
  requireBackend host
  let lib ← requireLibPath env
  requireRegular host lib

theorem checkOpenvino_ok {host : Host} {env : Env} {lib : EnvValue}
    (hBackend : requireBackend host = .ok ())
    (hLib : requireLibPath env = .ok lib) (hRegular : requireRegular host lib = .ok ()) :
    checkOpenvino host env = .ok () := by
  simp [checkOpenvino, hBackend, hLib, hRegular, bind, Except.bind]

theorem checkOpenvino_eq_ok_iff : checkOpenvino host env = .ok () ↔
    backendAvailable host openvinoBackend = true ∧
      ∃ lib, env = some lib ∧ lib.val ≠ [] ∧ (host.win32 = true ∨ host.isRegular lib.val = true) := by
  unfold checkOpenvino requireBackend
  cases backendAvailable host openvinoBackend with
  | false => simp [bind, Except.bind]
  | true =>
    cases env with
    | none => simp [bind, Except.bind, requireLibPath]
    | some lib =>
      by_cases hEmpty : lib.val = [] <;> cases hWin : host.win32 <;>
        cases hRegular : host.isRegular lib.val <;>
          simp [bind, Except.bind, requireLibPath, requireRegular, hEmpty, hWin, hRegular]

def guardOpenvino (method : ByteString) : Core σ Unit := do
  if ← methodUsesBackend M method openvinoBackend then
    ofExcept (checkOpenvino host env)

/-! ## run_method -/

/-- Assigning an int64 extent to `SizesType`, a 32-bit signed integer. -/
def toSizesType (extent : Int) : Int := Int.bmod extent (2 ^ 32)

def toTensorPtr (input : InputDesc) : TensorPtr :=
  Executorch.fromBlob input.data (input.shape.map toSizesType) input.scalarType

def executeFailed (name : ByteString) : EtError :=
  ⟨.execution, cxx "execute('" ++ name ++ cxx "') failed", []⟩

def unsupportedOutput (name : ByteString) : EtError :=
  ⟨.execution, cxx "method '" ++ name ++ cxx "' returned an unsupported non-tensor output (only tensor/int/float/bool/str are supported)", []⟩

/-- One turn of the copy-out loop: the view of one EValue, its bytes copied out of the arena. -/
def copyOutput (memory : Nat → UInt8) (name : ByteString) (fs : ForwardState) :
    EValue → Except EtError ForwardState
  | .int value => .ok { fs with views := fs.views ++ [{ kind := .int, intVal := value }] }
  | .double bits => .ok { fs with views := fs.views ++ [{ kind := .double, doubleVal := bits }] }
  | .bool value =>
    .ok { fs with views := fs.views ++ [{ kind := .bool, intVal := if value then 1 else 0 }] }
  | .string data size => .ok { fs with
      views := fs.views ++ [{ kind := .string, strVal := Executorch.readBytes memory data size }] }
  | .other _ => .error (unsupportedOutput name)
  | .tensor t =>
    let buf := Executorch.readBytes memory t.dataPtr t.nbytes
    .ok {
      storage := fs.storage ++ [buf]
      views := fs.views ++ [{ kind := .tensor, shape := t.sizes, scalarType := t.scalarType,
                              data := some fs.storage.length, nbytes := buf.length }] }

def copyOutputs (memory : Nat → UInt8) (name : ByteString) :
    List EValue → ForwardState → Except EtError ForwardState
  | [], fs => .ok fs
  | ev :: rest, fs =>
    match copyOutput memory name fs ev with
    | .error e => .error e
    | .ok fs => copyOutputs memory name rest fs

def executeAndCopy (name : ByteString) (inputs : List TensorPtr) : Core σ ForwardState := lockGuard do
  match ← onModule (M.execute name inputs) with
  | .error _ => throw (executeFailed name)
  | .ok result =>
    let s ← get
    ofExcept (copyOutputs (M.memory s.module) name result ⟨[], []⟩)

def runMethod (name : ByteString) (inputs : List InputDesc) : Core σ ForwardState := do
  guardOpenvino M host env name
  executeAndCopy M name (inputs.map toTensorPtr)

end Operations

/-! ## What each operation does to the state -/

def checked {α β : Type} (failure : EtError) (f : α → β) : Except Executorch.Error α → Except EtError β
  | .error _ => .error failure
  | .ok a => .ok (f a)

def namesOutcome : Except Executorch.Error (List ByteString) → Except EtError (List ByteString) :=
  checked methodNamesFailed id

def metaOutcome (name : ByteString) : Except Executorch.Error Executorch.MethodMeta →
    Except EtError MethodMeta :=
  checked (methodMetaFailed name) fun mm =>
    ⟨mm.inputTensorMeta.map toTensorMeta, mm.outputTensorMeta.map toTensorMeta⟩

def usesOutcome (name backend : ByteString) : Except Executorch.Error Executorch.MethodMeta →
    Except EtError Bool :=
  checked (metadataUnreadable name) fun mm => mm.usesBackend (Utf8Text.cString backend)

def guardOutcome (host : Host) (env : Env) : Except EtError Bool → Except EtError Unit
  | .error e => .error e
  | .ok false => .ok ()
  | .ok true => checkOpenvino host env

section Runs

variable {σ : Type} (M : Module σ) (host : Host) (env : Env)

def executeOutcome (name : ByteString) :
    Except Executorch.Error (List EValue) × σ → Except EtError ForwardState
  | (.error _, _) => .error (executeFailed name)
  | (.ok result, s) => copyOutputs (M.memory s) name result ⟨[], []⟩

theorem methodNames_runOn (s : RuntimeState σ) :
    (methodNames M).runOn s =
      (namesOutcome (M.methodNames s.module).1, ⟨(M.methodNames s.module).2, false⟩) := by
  rcases h : M.methodNames s.module with ⟨_ | names, next⟩ <;>
    simp [methodNames, runOn_bind, namesOutcome, checked, h]

theorem methodMeta_runOn (name : ByteString) (s : RuntimeState σ) :
    (methodMeta M name).runOn s =
      (metaOutcome name (M.methodMeta name s.module).1,
        ⟨(M.methodMeta name s.module).2, false⟩) := by
  rcases h : M.methodMeta name s.module with ⟨_ | mm, next⟩ <;>
    simp [methodMeta, runOn_bind, metaOutcome, checked, h]

theorem methodUsesBackend_runOn (name backend : ByteString) (s : RuntimeState σ) :
    (methodUsesBackend M name backend).runOn s =
      (usesOutcome name backend (M.methodMeta name s.module).1,
        ⟨(M.methodMeta name s.module).2, false⟩) := by
  rcases h : M.methodMeta name s.module with ⟨_ | mm, next⟩ <;>
    simp [methodUsesBackend, runOn_bind, usesOutcome, checked, h]

theorem guardOpenvino_runOn (method : ByteString) (s : RuntimeState σ) :
    (guardOpenvino M host env method).runOn s =
      (guardOutcome host env (usesOutcome method openvinoBackend (M.methodMeta method s.module).1),
        ⟨(M.methodMeta method s.module).2, false⟩) := by
  rw [guardOpenvino, runOn_bind, methodUsesBackend_runOn]
  cases usesOutcome method openvinoBackend (M.methodMeta method s.module).1 with
  | error e => rfl
  | ok uses => cases uses <;> rfl

theorem executeAndCopy_runOn (name : ByteString) (inputs : List TensorPtr) (s : RuntimeState σ) :
    (executeAndCopy M name inputs).runOn s =
      (executeOutcome M name (M.execute name inputs s.module),
        ⟨(M.execute name inputs s.module).2, false⟩) := by
  rcases h : M.execute name inputs s.module with ⟨_ | result, next⟩ <;>
    simp [executeAndCopy, runOn_bind, executeOutcome, h]

theorem runMethod_runOn (name : ByteString) (inputs : List InputDesc) (s : RuntimeState σ) :
    (runMethod M host env name inputs).runOn s =
      match guardOutcome host env
        (usesOutcome name openvinoBackend (M.methodMeta name s.module).1) with
      | .error e => (.error e, ⟨(M.methodMeta name s.module).2, false⟩)
      | .ok () =>
        let run := M.execute name (inputs.map toTensorPtr) (M.methodMeta name s.module).2
        (executeOutcome M name run, ⟨run.2, false⟩) := by
  rw [runMethod, runOn_bind, guardOpenvino_runOn]
  cases guardOutcome host env (usesOutcome name openvinoBackend (M.methodMeta name s.module).1) with
  | error e => rfl
  | ok _ => exact executeAndCopy_runOn M name (inputs.map toTensorPtr) _

end Runs

end ExecutorchNumpy
