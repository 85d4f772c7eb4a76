import ExecutorchNumpy.Binding
import Mathlib.Data.List.Lex

/-! # The Python side of loading, `_openvino.py` and `_api.py`

A program is loaded, then `OPENVINO_LIB_PATH` is checked or resolved when one of
its methods is lowered to the OpenVINO delegate.
-/

namespace ExecutorchNumpy
set_option autoImplicit false

open Executorch (Module)
open Traverse

/-! ## What Python provides -/

/-- The interpreter's file name codec, `repr`, and what the import system and the file system answer.
`findSpec` is the search locations of the spec of `openvino`; a spec may have none. -/
structure Interpreter where
  fsencode : PyStr → Option ByteString
  fsdecode : ByteString → PyStr
  fsencode_fsdecode : ∀ bytes, fsencode (fsdecode bytes) = some bytes
  repr : PyStr → PyStr
  findSpec : Option (Option (List PyStr))
  glob : PyStr → List PyStr

/-- The UTF-8 encoding of a `str`; lone surrogates have none. -/
def encodeUtf8 (text : PyStr) : Option Utf8String :=
  if text.all fun c => (Char.ofNat c).toNat == c then
    some ⟨Utf8Text.encode (text.map Char.ofNat), Utf8Text.valid_encode _⟩
  else none

theorem encodeUtf8_of_decodes {bytes : ByteString} {text : PyStr} (h : decodeUtf8 bytes = some text) :
    ∃ arg, encodeUtf8 text = some arg ∧ arg.val = bytes := by
  obtain ⟨chars, rfl, rfl⟩ := (decodeUtf8_eq_some_iff bytes text).mp h
  have hChars : (chars.map Char.toNat).map Char.ofNat = chars := by
    simp [Function.comp_def]
  refine ⟨⟨Utf8Text.encode chars, Utf8Text.valid_encode chars⟩, ?_, rfl⟩
  rw [encodeUtf8, if_pos (by simp), Option.some.injEq, Subtype.mk.injEq, hChars]

def osPathJoin (path component : PyStr) : PyStr :=
  if component.head? = some '/'.toNat then component
  else if path = [] ∨ path.getLast? = some '/'.toNat then path ++ component
  else path ++ '/'.toNat :: component

def sorted (strings : List PyStr) : List PyStr := strings.mergeSort fun a b => decide (a ≤ b)

section Python

variable (interp : Interpreter) (host : Host)

/-- `os.path.isfile`: a path that the system cannot be asked about is no file. -/
def osPathIsfile (path : PyStr) : Bool :=
  match interp.fsencode path with
  | none => false
  | some bytes => if (0 : UInt8) ∈ bytes then false else host.isRegular bytes

/-- `os.environ[...] = value`; `putenv` accepts no NUL byte. -/
def setEnviron (value : PyStr) : Except PyException EnvValue :=
  match interp.fsencode value with
  | none => .error .valueError
  | some bytes => if h : (0 : UInt8) ∈ bytes then .error .valueError else .ok ⟨bytes, h⟩

/-! ## `_openvino.py` -/

def backendNotAvailable (message : PyStr) : PyException := .executorch .backendNotAvailable message

def openvinoNotInstalled : PyException :=
  backendNotAvailable (py "This .pte uses the OpenvinoBackend delegate, but the 'openvino' package is not installed. Install it with: pip install \"executorch-numpy-runtime[openvino]\"")

def noLibraryUnder (libs : PyStr) : PyException :=
  backendNotAvailable (py "The installed openvino package has no libopenvino_c.so* under " ++ libs ++ py ". Set OPENVINO_LIB_PATH manually to the full path of that file.")

def libPathNotFile (existing : PyStr) : PyException :=
  backendNotAvailable (py "OPENVINO_LIB_PATH is set to " ++ interp.repr existing ++ py ", which is not a file. It must be the full path to libopenvino_c.so, not a directory. (The underlying error message mentions LD_LIBRARY_PATH, which reads like it wants a directory; it does not.)")

/-- `sorted(glob.glob(...))` for the package at the given location. -/
def libraryMatches (location : PyStr) : List PyStr :=
  sorted (interp.glob (osPathJoin (osPathJoin location (py "libs")) (py "libopenvino_c.so*")))

def wheelLibPath : Except PyException PyStr :=
  match interp.findSpec with
  | none => .error openvinoNotInstalled
  | some none => .error openvinoNotInstalled
  | some (some []) => .error openvinoNotInstalled
  | some (some (location :: _)) =>
    match libraryMatches interp location with
    | [] => .error (noLibraryUnder (osPathJoin location (py "libs")))
    | first :: _ => .ok first

/-- The rest of `ensure_openvino_lib_path` once a method uses the backend: the environment it
leaves behind, or what it raises. -/
def resolveLibPath (env : Env) : Except PyException Env :=
  match env with
  | some lib =>
    if osPathIsfile interp host (interp.fsdecode lib.val) then .ok env
    else .error (libPathNotFile interp (interp.fsdecode lib.val))
  | none =>
    match wheelLibPath interp with
    | .error e => .error e
    | .ok path =>
      match setEnviron interp path with
      | .error e => .error e
      | .ok lib => .ok (some lib)

def backendArg : Utf8String := ⟨cxx "OpenvinoBackend", valid_cxx _⟩

section Loading

variable {σ : Type} (M : Module σ)

def anyUsesBackend : List PyStr → RuntimeState σ → Except PyException Bool × RuntimeState σ
  | [], s => (.ok false, s)
  | name :: rest, s =>
    match encodeUtf8 name with
    | none => (.error .castError, s)
    | some arg =>
      match Bound.methodUsesBackend M arg backendArg s with
      | (.error e, s') => (.error e, s')
      | (.ok true, s') => (.ok true, s')
      | (.ok false, s') => anyUsesBackend rest s'

def usesOpenvino (s : RuntimeState σ) : Except PyException Bool × RuntimeState σ :=
  match Bound.methodNames M s with
  | (.error e, s') => (.error e, s')
  | (.ok names, s') => anyUsesBackend M names s'

def ensureOpenvinoLibPath (s : RuntimeState σ) (env : Env) :
    Except PyException Unit × RuntimeState σ × Env :=
  match usesOpenvino M s with
  | (.error e, s') => (.error e, s', env)
  | (.ok false, s') => (.ok (), s', env)
  | (.ok true, s') =>
    match resolveLibPath interp host env with
    | .error e => (.error e, s', env)
    | .ok env' => (.ok (), s', env')

/-! ## `_api.py` -/

def Program.init (s : RuntimeState σ) (env : Env) : Except PyException Unit × RuntimeState σ × Env :=
  ensureOpenvinoLibPath interp host M s env

inductive Source where
  | path (path : PyStr)
  | bytes (bytes : ByteString)
  deriving DecidableEq, Repr

def openSource : Source → Except PyException (RuntimeState σ)
  | .bytes bytes => Bound.loadBuffer M bytes
  | .path path =>
    match encodeUtf8 path with
    | none => .error .castError
    | some arg => Bound.loadPath M arg

def Runtime.loadProgram (source : Source) (env : Env) : Except PyException (RuntimeState σ) × Env :=
  match openSource M source with
  | .error e => (.error e, env)
  | .ok s =>
    match Program.init interp host M s env with
    | (.error e, _, env') => (.error e, env')
    | (.ok (), s', env') => (.ok s', env')

def methodNotFound (name : PyStr) : PyException :=
  .executorch .programLoadError (py "method '" ++ name ++ py "' not found in program")

/-- `Program.load_method`; the result is the name the `Method` object keeps. -/
def Program.loadMethod (name : PyStr) (s : RuntimeState σ) :
    Except PyException PyStr × RuntimeState σ :=
  match Bound.methodNames M s with
  | (.error e, s') => (.error e, s')
  | (.ok names, s') => if name ∈ names then (.ok name, s') else (.error (methodNotFound name), s')

end Loading

end Python

end ExecutorchNumpy
