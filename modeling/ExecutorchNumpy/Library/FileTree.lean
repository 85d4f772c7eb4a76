import Mathlib.Data.List.Basic

/-! # File systems of a POSIX system

Directories map names to numbered nodes; links hold a path. A path is looked up
one component at a time, and each link that is met puts the components of its
target in front of those that are left.
-/

namespace FileTree
set_option autoImplicit false

abbrev Text := List Nat

def slash : Nat := '/'.toNat

def dot : Text := ['.'.toNat]

def dotDot : Text := ['.'.toNat, '.'.toNat]

def LegalName (name : Text) : Prop := name ≠ [] ∧ name ≠ dot ∧ name ≠ dotDot ∧ slash ∉ name ∧ 0 ∉ name

instance (name : Text) : Decidable (LegalName name) :=
  inferInstanceAs (Decidable (name ≠ [] ∧ name ≠ dot ∧ name ≠ dotDot ∧ slash ∉ name ∧ 0 ∉ name))

/-- The entries other than `.` and `..`. -/
structure Directory where
  parent : Nat
  entries : List (Text × Nat)
  legal : ∀ entry ∈ entries, LegalName entry.1
  distinct : (entries.map Prod.fst).Nodup

def Directory.child (d : Directory) (name : Text) : Option Nat :=
  (d.entries.find? fun entry => entry.1 == name).map Prod.snd

def Directory.names (d : Directory) : List Text := d.entries.map Prod.fst

inductive Node where
  | regular
  | directory (contents : Directory)
  | link (target : Text)
  | other

/-- A file system as one process sees it. -/
structure FileSystem where
  node : Nat → Node
  root : Nat
  workingDirectory : Nat

/-- A path that ends in a slash is read as if a dot followed. -/
def components (path : Text) : List Text :=
  (path.splitOn slash).filter (fun c => c ≠ []) ++ if path.getLast? = some slash then [dot] else []

/-- As many links as one lookup may meet. -/
def linkLimit : Nat := 40

namespace FileSystem

variable (fs : FileSystem)

def start (current : Nat) (path : Text) : Nat := if path.head? = some slash then fs.root else current

def contents (current : Nat) : Option Directory :=
  match fs.node current with
  | .directory d => some d
  | _ => none

/-- `onLink` goes on behind a link, from a node and with the components left. -/
def walkWith (onLink : Nat → List Text → Option Nat) : Nat → List Text → Option Nat
  | current, [] => some current
  | current, c :: rest =>
    match fs.contents current with
    | none => none
    | some d =>
      if c = dot then walkWith onLink current rest
      else if c = dotDot then walkWith onLink d.parent rest
      else
        match d.child c with
        | none => none
        | some child =>
          match fs.node child with
          | .link target =>
            if target = [] then none else onLink (fs.start current target) (components target ++ rest)
          | _ => walkWith onLink child rest

def walk : Nat → Nat → List Text → Option Nat
  | 0 => fs.walkWith fun _ _ => none
  | links + 1 => fs.walkWith (walk links)

/-- The node that a path names, links followed. -/
def stat (path : Text) : Option Nat :=
  if path = [] then none
  else fs.walk linkLimit (fs.start fs.workingDirectory path) (components path)

/-- Like `stat`, but a link in the last component is not followed. -/
def lstat (path : Text) : Option Nat :=
  match (components path).getLast? with
  | none => none
  | some last =>
    if last = dot ∨ last = dotDot then fs.stat path
    else
      match fs.walk linkLimit (fs.start fs.workingDirectory path) (components path).dropLast with
      | none => none
      | some current => (fs.contents current).bind fun d => d.child last

/-- The directory that a path names, links followed. -/
def directory (path : Text) : Option Nat :=
  match fs.stat path with
  | none => none
  | some current => (fs.contents current).map fun _ => current

def isDir (path : Text) : Bool := (fs.directory path).isSome

def isFile (path : Text) : Bool :=
  match fs.stat path with
  | none => false
  | some current =>
    match fs.node current with
    | .regular => true
    | _ => false

def lexists (path : Text) : Bool := (fs.lstat path).isSome

/-- The names in a directory, in the order that the system gives them; `none` stands for an error. -/
def scandir (path : Text) : Option (List Text) :=
  match fs.stat path with
  | none => none
  | some current => (fs.contents current).map Directory.names

variable {fs}

theorem legal_of_scandir {path : Text} {names : List Text} (h : fs.scandir path = some names)
    {name : Text} (hName : name ∈ names) : LegalName name := by
  rw [scandir] at h
  cases hStat : fs.stat path with
  | none =>
    rw [hStat] at h
    cases h
  | some current =>
    rw [hStat] at h
    obtain ⟨d, _, rfl⟩ := Option.map_eq_some_iff.mp h
    obtain ⟨entry, hEntry, rfl⟩ := List.mem_map.mp hName
    exact d.legal entry hEntry

end FileSystem

end FileTree
