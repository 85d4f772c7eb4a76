import Mathlib.Data.List.ReduceOption
import ExecutorchNumpy.Library.Separators
import ExecutorchNumpy.Library.Traverse

/-! # The contract of the USDT probes

`check-usdt-notes.sh` reads what `readelf --notes` prints for a binary. The text
is searched by pipelines whose last command may stop reading early; the writer
can then be killed, which fails the pipeline.
-/

namespace ExecutorchNumpy
set_option autoImplicit false

open Traverse

namespace UsdtNotes

abbrev Text := List Char

/-! ## The script -/

inductive Pipe where
  | stapsdt
  | provider
  | probe (name : Text)
  deriving DecidableEq, Repr

/-- What the script runs on. `killed` tells whether the `printf` of a pipeline is still writing when its
reader has what it wants. -/
structure Machine where
  readelfText : Option Text
  isFile : Text → Bool
  readelf : Text → Nat × Text
  killed : Pipe → Bool

inductive ProbeFailure where
  | notFound (name : Text)
  | arity (name : Text) (got expected : Nat) (args : Text)
  deriving DecidableEq, Repr

inductive Failure where
  | shift
  | unknownArg (arg : Text)
  | usage
  | binaryNotFound (binary : Text)
  | readelf (status : Nat)
  | stapsdtPresent
  | providerAbsent
  | brokenPipe
  | probes (failures : List ProbeFailure)
  deriving DecidableEq, Repr

def Failure.status : Failure → Nat
  | .unknownArg _ | .usage | .binaryNotFound _ => 2
  | .readelf status => status
  | .brokenPipe => 141
  | .shift | .stapsdtPresent | .providerAbsent | .probes _ => 1

inductive Success where
  | disabled
  | contract
  deriving DecidableEq, Repr

/-- The loop over the arguments; `shift 2` fails when one is left. -/
def parseArgs : List Text → Text → Text → Except Failure (Text × Text)
  | [], expect, binary => .ok (expect, binary)
  | arg :: rest, expect, binary =>
    if arg = "--expect".toList then
      match rest with
      | [] => .error .shift
      | value :: rest => parseArgs rest value binary
    else if arg.head? = some '-' then .error (.unknownArg arg)
    else parseArgs rest expect arg

/-- `$(…)` drops the newlines at the end. -/
def stripNewlines (text : Text) : Text := (text.reverse.dropWhile (· == '\n')).reverse

def readNotes (machine : Machine) (binary : Text) : Except Failure Text :=
  match machine.readelfText with
  | some text => .ok text
  | none =>
    if binary = [] ∨ machine.isFile binary = false then .error (.binaryNotFound binary)
    else
      match machine.readelf binary with
      | (0, text) => .ok (stripNewlines text)
      | (status + 1, _) => .error (.readelf (status + 1))

/-- The lines that `printf '%s\n' "$notes"` writes. -/
def linesOf (notes : Text) : List Text := notes.splitOn '\n'

/-- `printf … | grep -q <text>` -/
def greps (machine : Machine) (pipe : Pipe) (text : Text) (lines : List Text) : Bool :=
  lines.any (fun line => decide (text <:+: line)) && !machine.killed pipe

/-- `[[:space:]]` -/
def isSpace (c : Char) : Bool := c ∈ " \t\n\x0b\x0c\r".toList

/-- What separates the fields of a record. -/
def isBlank (c : Char) : Bool := c ∈ " \t\n".toList

/-- The fields of a record; `word` is the field read so far. -/
def fields : Text → Text → List Text
  | word, [] => if word = [] then [] else [word]
  | word, c :: rest =>
    if isBlank c then (if word = [] then [] else [word]) ++ fields [] rest
    else fields (word ++ [c]) rest

/-- `/^[[:space:]]*Name:[[:space:]]/` -/
def isName (line : Text) : Bool :=
  let rest := line.dropWhile isSpace
  "Name:".toList.isPrefixOf rest && (rest.drop 5).head?.any isSpace

/-- `/^[[:space:]]*Arguments:/` -/
def isArguments (line : Text) : Bool := "Arguments:".toList.isPrefixOf (line.dropWhile isSpace)

/-- `sub(/^[[:space:]]*Arguments:[[:space:]]*/,"")` -/
def afterArguments (line : Text) : Text := ((line.dropWhile isSpace).drop 10).dropWhile isSpace

/-- The `awk` program; `cur` is its variable. It stops at the first line that it prints. -/
def awkArguments (name : Text) : Text → List Text → Option Text
  | _, [] => none
  | cur, line :: rest =>
    let cur := if isName line then ((fields [] line)[1]?).getD [] else cur
    if isArguments line = true ∧ cur = name then some (afterArguments line) else awkArguments name cur rest

/-- `check_probe <name> <expected-argc>` -/
def checkProbe (machine : Machine) (lines : List Text) (probe : Text × Nat) :
    Except Failure (Option ProbeFailure) :=
  match awkArguments probe.1 [] lines with
  | none => .ok (some (.notFound probe.1))
  | some args =>
    if machine.killed (.probe probe.1) then .error .brokenPipe
    else if args = [] then .ok (some (.notFound probe.1))
    else if args.count '@' = probe.2 then .ok none
    else .ok (some (.arity probe.1 (args.count '@') probe.2 args))

def contract : List (Text × Nat) :=
  [("lstm_xnn_cache__hit".toList, 4), ("lstm_xnn_cache__miss".toList, 4), ("lstm_xnn_cache__evict".toList, 7)]

def expectOff (machine : Machine) (lines : List Text) : Except Failure Success :=
  if greps machine .stapsdt "NT_STAPSDT".toList lines then .error .stapsdtPresent else .ok .disabled

def expectOn (machine : Machine) (lines : List Text) : Except Failure Success :=
  if greps machine .provider "Provider: etnp".toList lines then
    match traverseFrom (fun _ probe => checkProbe machine lines probe) 0 contract with
    | .error failure => .error failure
    | .ok results =>
      if results.reduceOption = [] then .ok .contract else .error (.probes results.reduceOption)
  else .error .providerAbsent

/-- `scripts/check-usdt-notes.sh`; a result means exit status 0. -/
def checkUsdtNotes (machine : Machine) (args : List Text) : Except Failure Success :=
  match parseArgs args [] [] with
  | .error failure => .error failure
  | .ok (expect, binary) =>
    if expect = "on".toList ∨ expect = "off".toList then
      match readNotes machine binary with
      | .error failure => .error failure
      | .ok notes =>
        if expect = "off".toList then expectOff machine (linesOf notes) else expectOn machine (linesOf notes)
    else .error .usage

def exitStatus : Except Failure Success → Nat
  | .ok _ => 0
  | .error failure => failure.status

/-! ## What `readelf` displays -/

/-- `size@location` -/
structure Argument where
  size : Text
  location : Text
  oneAt : '@' ∉ size ∧ '@' ∉ location
  oneLine : '\n' ∉ size ∧ '\n' ∉ location

def Argument.text (arg : Argument) : Text := arg.size ++ '@' :: arg.location

def argumentsText (args : List Argument) : Text := List.intercalate [' '] (args.map Argument.text)

/-- A note of one probe. -/
structure Probe where
  size : Text
  provider : Text
  name : Text
  location : Text
  args : List Argument
  word : name ≠ [] ∧ ∀ c ∈ name, isSpace c = false
  oneLine : '\n' ∉ size ∧ '\n' ∉ provider ∧ '\n' ∉ location
  plain : ':' ∉ size ∧ ':' ∉ provider ∧ 'P' ∉ location
  noProvider : ¬ "Provider: etnp".toList <:+: argumentsText args

def Probe.lines (probe : Probe) : List Text :=
  ["  stapsdt              ".toList ++ probe.size ++ "\tNT_STAPSDT (SystemTap probe descriptors)".toList,
    "    Provider: ".toList ++ probe.provider,
    "    Name: ".toList ++ probe.name,
    "    Location: ".toList ++ probe.location,
    "    Arguments: ".toList ++ argumentsText probe.args]

/-- A line of another note, or between the notes. -/
structure OtherLine where
  text : Text
  oneLine : '\n' ∉ text
  noStapsdt : ¬ "NT_STAPSDT".toList <:+: text
  noProvider : ¬ "Provider: etnp".toList <:+: text
  noProbe : isName text = false ∧ isArguments text = false

inductive Entry where
  | note (probe : Probe)
  | other (line : OtherLine)

def Entry.lines : Entry → List Text
  | .note probe => probe.lines
  | .other line => [line.text]

def Entry.probe : Entry → Option Probe
  | .note probe => some probe
  | .other _ => none

structure Display where
  entries : List Entry
  last : (entries.flatMap Entry.lines).getLast?.any (· ≠ []) = true

namespace Display

def lines (display : Display) : List Text := display.entries.flatMap Entry.lines

def text (display : Display) : Text := List.intercalate ['\n'] display.lines

def probes (display : Display) : List Probe := display.entries.filterMap Entry.probe

/-- The probes of the contract are there, with their arities. -/
structure Contract (display : Display) : Prop where
  provider : ∃ probe ∈ display.probes, "etnp".toList <+: probe.provider
  probes : ∀ name arity, (name, arity) ∈ contract → ∃ probe,
    (display.probes.find? fun probe => probe.name = name) = some probe ∧ probe.args.length = arity

end Display

/-- `readelf` shows the notes of the binary. -/
structure Shows (machine : Machine) (binary : Text) (display : Display) : Prop where
  noHook : machine.readelfText = none
  named : binary ≠ [] ∧ binary.head? ≠ some '-'
  isFile : machine.isFile binary = true
  readelf : machine.readelf binary = (0, display.text ++ ['\n'])

/-! ## The `awk` program on the notes -/

theorem isBlank_of_isSpace {c : Char} (h : isSpace c = false) : isBlank c = false := by
  rw [isBlank, decide_eq_false_iff_not]
  rw [isSpace, decide_eq_false_iff_not] at h
  exact fun hBlank => h (List.mem_append_left "\x0b\x0c\r".toList hBlank)

theorem fields_of_word {word rest : Text} (h : ∀ c ∈ rest, isBlank c = false)
    (hNonempty : word ++ rest ≠ []) : fields word rest = [word ++ rest] := by
  induction rest generalizing word with
  | nil =>
    rw [List.append_nil] at hNonempty ⊢
    exact if_neg hNonempty
  | cons c rest ih =>
    rw [fields, h c List.mem_cons_self, if_neg Bool.false_ne_true,
      ih (fun d hd => h d (List.mem_cons_of_mem c hd)) (by simp), List.append_assoc, List.singleton_append]

theorem name_field (probe : Probe) :
    ((fields [] ("    Name: ".toList ++ probe.name))[1]?).getD [] = probe.name := by
  have hFields : fields [] ("    Name: ".toList ++ probe.name) = "Name:".toList :: fields [] probe.name := rfl
  have hName := @fields_of_word [] probe.name (fun c hc => isBlank_of_isSpace (probe.word.2 c hc))
    probe.word.1
  rw [hFields, hName]
  rfl

def Probe.argumentsLine (probe : Probe) : Text := "    Arguments: ".toList ++ argumentsText probe.args

/-- Only the name and the arguments of a note move the program. -/
theorem awkArguments_note (name cur : Text) (probe : Probe) (rest : List Text) :
    awkArguments name cur (probe.lines ++ rest) =
      if probe.name = name then some (afterArguments probe.argumentsLine)
      else awkArguments name probe.name rest := by
  have hOwner : ∀ cur lines, awkArguments name cur
      (("  stapsdt              ".toList ++ probe.size ++
        "\tNT_STAPSDT (SystemTap probe descriptors)".toList) :: lines) = awkArguments name cur lines :=
    fun _ _ => rfl
  have hProvider : ∀ cur lines, awkArguments name cur (("    Provider: ".toList ++ probe.provider) :: lines) =
      awkArguments name cur lines := fun _ _ => rfl
  have hName : ∀ cur lines, awkArguments name cur (("    Name: ".toList ++ probe.name) :: lines) =
      awkArguments name (((fields [] ("    Name: ".toList ++ probe.name))[1]?).getD []) lines :=
    fun _ _ => rfl
  have hLocation : ∀ cur lines, awkArguments name cur (("    Location: ".toList ++ probe.location) :: lines) =
      awkArguments name cur lines := fun _ _ => rfl
  have hArguments : ∀ cur lines, awkArguments name cur (probe.argumentsLine :: lines) =
      if cur = name then some (afterArguments probe.argumentsLine) else awkArguments name cur lines := by
    intro cur lines
    have hLine : isName probe.argumentsLine = false ∧ isArguments probe.argumentsLine = true := ⟨rfl, rfl⟩
    rw [awkArguments, hLine.1, hLine.2]
    simp
  rw [Probe.lines, List.cons_append, List.cons_append, List.cons_append, List.cons_append,
    List.cons_append, List.nil_append, hOwner, hProvider, hName, hLocation, name_field]
  exact hArguments probe.name rest

theorem awkArguments_other (name cur : Text) (line : OtherLine) (rest : List Text) :
    awkArguments name cur (line.text :: rest) = awkArguments name cur rest := by
  rw [awkArguments, line.noProbe.1, line.noProbe.2]
  simp

/-- The program prints the arguments of the first note of that name. -/
theorem awkArguments_entries (name cur : Text) (entries : List Entry) :
    awkArguments name cur (entries.flatMap Entry.lines) =
      ((entries.filterMap Entry.probe).find? fun probe => probe.name = name).map
        fun probe => afterArguments probe.argumentsLine := by
  induction entries generalizing cur with
  | nil => rfl
  | cons entry entries ih =>
    rw [List.flatMap_cons]
    cases entry with
    | other line =>
      rw [Entry.lines, List.singleton_append, awkArguments_other, ih]
      rfl
    | note probe =>
      have hProbes : (Entry.note probe :: entries).filterMap Entry.probe =
          probe :: entries.filterMap Entry.probe := rfl
      rw [Entry.lines, awkArguments_note, ih, hProbes, List.find?_cons]
      obtain hSame | hOther := eq_or_ne probe.name name
      · simp [hSame]
      · simp [hOther]

/-! ## Arity -/

theorem at_not_space {c : Char} (h : isSpace c = true) : c ≠ '@' := by
  rintro rfl
  exact absurd h (by decide)

theorem count_dropWhile_space (text : Text) : (text.dropWhile isSpace).count '@' = text.count '@' := by
  have hSpaces : (text.takeWhile isSpace).count '@' = 0 :=
    List.count_eq_zero_of_not_mem fun hMem => at_not_space (List.all_eq_true.mp List.all_takeWhile _ hMem) rfl
  have hCount := congrArg (List.count '@') (@List.takeWhile_append_dropWhile _ isSpace text)
  rw [List.count_append, hSpaces, Nat.zero_add] at hCount
  exact hCount

theorem Argument.count_text (arg : Argument) : arg.text.count '@' = 1 := by
  rw [Argument.text, List.count_append, List.count_cons_self,
    List.count_eq_zero_of_not_mem arg.oneAt.1, List.count_eq_zero_of_not_mem arg.oneAt.2]

theorem count_argumentsText (args : List Argument) : (argumentsText args).count '@' = args.length := by
  induction args with
  | nil => rfl
  | cons arg args ih =>
    cases args with
    | nil =>
      rw [argumentsText, List.map_singleton, List.intercalate_singleton]
      exact arg.count_text
    | cons second args =>
      have hJoin : argumentsText (arg :: second :: args) =
          arg.text ++ [' '] ++ argumentsText (second :: args) := by
        rw [argumentsText, List.map_cons, List.map_cons, List.intercalate_cons_cons]
        rfl
      have hSpace : [' '].count '@' = 0 := by decide
      rw [hJoin, List.count_append, List.count_append, arg.count_text, hSpace, ih]
      simp only [List.length_cons]
      omega

/-- The arity that the script counts is the number of arguments. -/
theorem count_afterArguments (probe : Probe) :
    (afterArguments probe.argumentsLine).count '@' = probe.args.length := by
  have hLine : afterArguments probe.argumentsLine = (argumentsText probe.args).dropWhile isSpace := rfl
  rw [hLine, count_dropWhile_space, count_argumentsText]

theorem afterArguments_eq_nil {probe : Probe} (h : afterArguments probe.argumentsLine = []) :
    probe.args.length = 0 := by
  rw [← count_afterArguments, h]
  rfl

/-! ## The searches -/

theorem provider_in_line {probe : Probe} :
    "Provider: etnp".toList <:+: "    Provider: ".toList ++ probe.provider ↔
      "etnp".toList <+: probe.provider := by
  have hText : "Provider: etnp".toList = "Provider".toList ++ ':' :: " etnp".toList := by decide
  have hLine : "    Provider: ".toList ++ probe.provider =
      "    Provider".toList ++ ':' :: (' ' :: probe.provider) := rfl
  rw [hText, hLine]
  constructor
  · intro h
    have hRight := (Separators.infix_around (by decide) (by simpa using probe.plain.2.1) h).2
    exact (List.cons_prefix_cons.mp hRight).2
  · rintro ⟨rest, hProvider⟩
    rw [← hProvider]
    exact ⟨"    ".toList, rest, rfl⟩

theorem stapsdt_in_owner (probe : Probe) : ∃ line ∈ probe.lines, "NT_STAPSDT".toList <:+: line := by
  refine ⟨_, List.mem_cons_self, "  stapsdt              ".toList ++ probe.size ++ ['\t'],
    " (SystemTap probe descriptors)".toList, ?_⟩
  simp only [List.append_assoc]
  rfl

/-- No other line of a note shows the provider. -/
theorem provider_in_note (probe : Probe) :
    (∃ line ∈ probe.lines, "Provider: etnp".toList <:+: line) ↔ "etnp".toList <+: probe.provider := by
  have hText : "Provider: etnp".toList = 'P' :: "rovider: etnp".toList := by decide
  constructor
  · rintro ⟨line, hLine, hInfix⟩
    simp only [Probe.lines, List.mem_cons, List.not_mem_nil, or_false] at hLine
    obtain rfl | rfl | rfl | rfl | rfl := hLine
    · have hColon : ':' ∈ "  stapsdt              ".toList ++ probe.size ++
          "\tNT_STAPSDT (SystemTap probe descriptors)".toList := hInfix.subset (by decide)
      simp only [List.mem_append] at hColon
      obtain (hLeft | hSize) | hRight := hColon
      · exact absurd hLeft (by decide)
      · exact absurd hSize probe.plain.1
      · exact absurd hRight (by decide)
    · exact provider_in_line.mp hInfix
    · rw [hText] at hInfix
      have hName := (Separators.infix_of_head_not_mem (by decide) hInfix).subset
        (by decide : ' ' ∈ 'P' :: "rovider: etnp".toList)
      have hWord := probe.word.2 ' ' hName
      exact absurd hWord (by decide)
    · rw [hText] at hInfix
      have hLocation := Separators.infix_of_head_not_mem (by decide) hInfix
      exact absurd (hLocation.subset List.mem_cons_self) probe.plain.2.2
    · rw [hText] at hInfix
      have hArguments := Separators.infix_of_head_not_mem (by decide) hInfix
      exact absurd (hText ▸ hArguments) probe.noProvider
  · intro h
    exact ⟨_, List.mem_cons_of_mem _ List.mem_cons_self, provider_in_line.mpr h⟩

theorem mem_probes {display : Display} {probe : Probe} :
    probe ∈ display.probes ↔ Entry.note probe ∈ display.entries := by
  rw [Display.probes, List.mem_filterMap]
  constructor
  · rintro ⟨entry, hEntry, hProbe⟩
    cases entry with
    | note found =>
      cases hProbe
      exact hEntry
    | other line => cases hProbe
  · exact fun h => ⟨_, h, rfl⟩

/-- A text that no other line shows is shown by a display exactly when one of its notes shows it. -/
theorem any_lines_iff {display : Display} {text : Text} (hOther : ∀ line : OtherLine, ¬ text <:+: line.text) :
    display.lines.any (fun line => decide (text <:+: line)) = true ↔
      ∃ probe ∈ display.probes, ∃ line ∈ probe.lines, text <:+: line := by
  rw [List.any_eq_true]
  constructor
  · rintro ⟨line, hLine, hText⟩
    obtain ⟨entry, hEntry, hMem⟩ := List.mem_flatMap.mp hLine
    cases entry with
    | note probe => exact ⟨probe, mem_probes.mpr hEntry, line, hMem, of_decide_eq_true hText⟩
    | other other =>
      rw [List.mem_singleton.mp hMem] at hText
      exact absurd (of_decide_eq_true hText) (hOther other)
  · rintro ⟨probe, hProbe, line, hLine, hText⟩
    exact ⟨line, List.mem_flatMap.mpr ⟨_, mem_probes.mp hProbe, hLine⟩, decide_eq_true hText⟩

theorem greps_stapsdt (machine : Machine) (display : Display) :
    greps machine .stapsdt "NT_STAPSDT".toList display.lines = true ↔
      display.probes ≠ [] ∧ machine.killed .stapsdt = false := by
  rw [greps, Bool.and_eq_true, any_lines_iff fun line => line.noStapsdt, Bool.not_eq_true']
  refine and_congr_left' ⟨?_, fun h => ?_⟩
  · rintro ⟨probe, hProbe, _⟩
    exact List.ne_nil_of_mem hProbe
  · obtain ⟨probe, hProbe⟩ := List.exists_mem_of_ne_nil _ h
    exact ⟨probe, hProbe, stapsdt_in_owner probe⟩

theorem greps_provider (machine : Machine) (display : Display) :
    greps machine .provider "Provider: etnp".toList display.lines = true ↔
      (∃ probe ∈ display.probes, "etnp".toList <+: probe.provider) ∧ machine.killed .provider = false := by
  rw [greps, Bool.and_eq_true, any_lines_iff fun line => line.noProvider, Bool.not_eq_true']
  refine and_congr_left' (exists_congr fun probe => and_congr_right fun _ => ?_)
  exact provider_in_note probe

/-! ## What the script decides -/

/-- One probe is right: its first note has the arity, and the program's reader was not cut off. -/
theorem checkProbe_eq_none_iff {machine : Machine} {display : Display} {name : Text} {arity : Nat}
    (hPositive : 0 < arity) :
    checkProbe machine display.lines (name, arity) = .ok none ↔
      (∃ probe, (display.probes.find? fun probe => probe.name = name) = some probe ∧
        probe.args.length = arity) ∧ machine.killed (.probe name) = false := by
  rw [checkProbe, Display.lines, awkArguments_entries, ← Display.probes]
  cases hFind : display.probes.find? fun probe => probe.name = name with
  | none => simp
  | some probe =>
    have hEmpty : afterArguments probe.argumentsLine = [] → probe.args.length ≠ arity := fun h => by
      have hNone := afterArguments_eq_nil h
      omega
    dsimp only [Option.map_some]
    rw [count_afterArguments]
    cases machine.killed (.probe name) with
    | true => simp
    | false =>
      rw [if_neg Bool.false_ne_true]
      split
      · rename_i hNil
        simp [hEmpty hNil]
      · split
        · rename_i hArity
          simp [hArity]
        · rename_i hArity
          simp [hArity]

theorem traverse_none_iff {machine : Machine} {lines : List Text} {probes : List (Text × Nat)} {i : Nat} :
    (∃ results, traverseFrom (fun _ probe => checkProbe machine lines probe) i probes = .ok results ∧
      results.reduceOption = []) ↔ ∀ probe ∈ probes, checkProbe machine lines probe = .ok none := by
  induction probes generalizing i with
  | nil => simp [traverseFrom, List.reduceOption]
  | cons probe probes ih =>
    rw [List.forall_mem_cons, ← @ih (i + 1)]
    constructor
    · rintro ⟨results, hResults, hNone⟩
      obtain ⟨first, rest, hFirst, hRest, rfl⟩ := traverse_cons_eq_ok_iff.mp hResults
      cases first with
      | some failure =>
        rw [List.reduceOption_cons_of_some] at hNone
        cases hNone
      | none => exact ⟨hFirst, rest, hRest, hNone⟩
    · rintro ⟨hFirst, rest, hRest, hNone⟩
      exact ⟨none :: rest, traverse_cons_eq_ok_iff.mpr ⟨none, rest, hFirst, hRest, rfl⟩, hNone⟩

theorem expectOn_eq_ok_iff {machine : Machine} {lines : List Text} {done : Success} :
    expectOn machine lines = .ok done ↔
      greps machine .provider "Provider: etnp".toList lines = true ∧
        (∀ probe ∈ contract, checkProbe machine lines probe = .ok none) ∧ done = .contract := by
  rw [← @traverse_none_iff machine lines contract 0, expectOn]
  cases greps machine .provider "Provider: etnp".toList lines with
  | false => simp
  | true =>
    rw [if_pos rfl]
    cases traverseFrom (fun _ probe => checkProbe machine lines probe) 0 contract with
    | error failure => simp
    | ok results =>
      dsimp only
      split
      · rename_i hNone
        constructor
        · intro h
          cases h
          exact ⟨rfl, ⟨results, rfl, hNone⟩, rfl⟩
        · rintro ⟨_, _, rfl⟩
          rfl
      · rename_i hSome
        constructor
        · intro h
          cases h
        · rintro ⟨_, ⟨found, hFound, hNone⟩, _⟩
          cases hFound
          exact absurd hNone hSome

theorem expectOff_eq_ok_iff {machine : Machine} {lines : List Text} {done : Success} :
    expectOff machine lines = .ok done ↔
      greps machine .stapsdt "NT_STAPSDT".toList lines = false ∧ done = .disabled := by
  rw [expectOff]
  cases greps machine .stapsdt "NT_STAPSDT".toList lines with
  | false => simp [eq_comm]
  | true => simp

theorem newline_not_mem_arguments (args : List Argument) : '\n' ∉ argumentsText args := by
  induction args with
  | nil => simp [argumentsText]
  | cons arg args ih =>
    have hText : '\n' ∉ arg.text := by
      rw [Argument.text, List.mem_append, List.mem_cons, not_or, not_or]
      exact ⟨arg.oneLine.1, by decide, arg.oneLine.2⟩
    cases args with
    | nil =>
      rw [argumentsText, List.map_singleton, List.intercalate_singleton]
      exact hText
    | cons second args =>
      rw [argumentsText, List.map_cons, List.map_cons, List.intercalate_cons_cons, List.mem_append,
        List.mem_append, not_or, not_or]
      exact ⟨⟨hText, by decide⟩, ih⟩

theorem newline_not_mem_lines {display : Display} : ∀ line ∈ display.lines, '\n' ∉ line := by
  intro line hLine
  obtain ⟨entry, _, hMem⟩ := List.mem_flatMap.mp hLine
  cases entry with
  | other other =>
    rw [List.mem_singleton.mp hMem]
    exact other.oneLine
  | note probe =>
    have hName : '\n' ∉ probe.name := fun hNewline =>
      absurd (probe.word.2 _ hNewline) (by decide)
    simp only [Entry.lines, Probe.lines, List.mem_cons, List.not_mem_nil, or_false] at hMem
    obtain rfl | rfl | rfl | rfl | rfl := hMem
    · simp only [List.mem_append, not_or]
      exact ⟨⟨by decide, probe.oneLine.1⟩, by decide⟩
    · simp only [List.mem_append, not_or]
      exact ⟨by decide, probe.oneLine.2.1⟩
    · simp only [List.mem_append, not_or]
      exact ⟨by decide, hName⟩
    · simp only [List.mem_append, not_or]
      exact ⟨by decide, probe.oneLine.2.2⟩
    · simp only [List.mem_append, not_or]
      exact ⟨by decide, newline_not_mem_arguments probe.args⟩

theorem exists_last_line (display : Display) : ∃ before line, display.lines = before ++ [line] ∧ line ≠ [] := by
  obtain ⟨line, hLine, hNonempty⟩ := (Option.any_eq_true _ _).mp display.last
  obtain ⟨before, hLines⟩ := List.getLast?_eq_some_iff.mp hLine
  exact ⟨before, line, hLines, of_decide_eq_true hNonempty⟩

theorem lines_ne_nil (display : Display) : display.lines ≠ [] := by
  obtain ⟨before, line, hLines, _⟩ := exists_last_line display
  rw [hLines]
  exact List.append_ne_nil_of_right_ne_nil before (List.cons_ne_nil line [])

theorem linesOf_text (display : Display) : linesOf display.text = display.lines :=
  List.splitOn_intercalate '\n' newline_not_mem_lines (lines_ne_nil display)

theorem suffix_intercalate (before : List Text) (line : Text) :
    line <:+ List.intercalate ['\n'] (before ++ [line]) := by
  induction before with
  | nil =>
    rw [List.nil_append, List.intercalate_singleton]
  | cons first before ih =>
    obtain ⟨second, rest, hRest⟩ := List.exists_cons_of_ne_nil
      (List.append_ne_nil_of_right_ne_nil before (List.cons_ne_nil line []))
    rw [List.cons_append, hRest, List.intercalate_cons_cons, ← hRest]
    exact ih.trans (List.suffix_append _ _)

/-- The newline that ends the display is all that `$(…)` drops. -/
theorem stripNewlines_text (display : Display) : stripNewlines (display.text ++ ['\n']) = display.text := by
  obtain ⟨before, line, hLines, hNonempty⟩ := exists_last_line display
  have hMem : line ∈ display.lines := by
    rw [hLines]
    exact List.mem_append_right before List.mem_cons_self
  have hNewline := newline_not_mem_lines line hMem
  have hSuffix : line <:+ display.text := by
    rw [Display.text, hLines]
    exact suffix_intercalate before line
  obtain ⟨start, c, rfl⟩ : ∃ start c, line = start ++ [c] := by
    obtain hNil | ⟨start, c, hLine⟩ := List.eq_nil_or_concat line
    · exact absurd hNil hNonempty
    · exact ⟨start, c, by rw [hLine, List.concat_eq_append]⟩
  obtain ⟨front, hFront⟩ := hSuffix
  have hChar : c ≠ '\n' := by
    rintro rfl
    exact hNewline (List.mem_append_right start List.mem_cons_self)
  rw [← hFront, stripNewlines]
  simp [hChar]

theorem readNotes_of_shows {machine : Machine} {binary : Text} {display : Display}
    (h : Shows machine binary display) : readNotes machine binary = .ok display.text := by
  rw [readNotes, h.noHook]
  have hFound : ¬ (binary = [] ∨ machine.isFile binary = false) := by
    rw [h.isFile]
    simpa using h.named.1
  dsimp only
  rw [if_neg hFound, h.readelf]
  exact congrArg Except.ok (stripNewlines_text display)

theorem parseArgs_expect {mode binary : Text} (h : binary.head? ≠ some '-') :
    parseArgs ["--expect".toList, mode, binary] [] [] = .ok (mode, binary) := by
  have hOther : binary ≠ "--expect".toList := by
    rintro rfl
    exact h rfl
  rw [parseArgs, if_pos rfl, parseArgs, if_neg hOther, if_neg h, parseArgs]

theorem parseArgs_status {args : List Text} {expect binary : Text} {failure : Failure}
    (h : parseArgs args expect binary = .error failure) : failure.status ≠ 0 := by
  fun_induction parseArgs args expect binary with
  | case1 => cases h
  | case2 =>
    cases h
    decide
  | case3 expect binary value rest ih => exact ih h
  | case4 =>
    cases h
    simp [Failure.status]
  | case5 expect binary arg rest hName hDash ih => exact ih h

theorem readNotes_status {machine : Machine} {binary : Text} {failure : Failure}
    (h : readNotes machine binary = .error failure) : failure.status ≠ 0 := by
  rw [readNotes] at h
  split at h
  · cases h
  · split at h
    · cases h
      simp [Failure.status]
    · split at h
      · cases h
      · cases h
        simp [Failure.status]

theorem checkProbe_status {machine : Machine} {lines : List Text} {probe : Text × Nat}
    {failure : Failure} (h : checkProbe machine lines probe = .error failure) : failure.status ≠ 0 := by
  rw [checkProbe] at h
  split at h
  · cases h
  · split at h
    · cases h
      simp [Failure.status]
    · split at h
      · cases h
      · split at h <;> cases h

theorem expectOn_status {machine : Machine} {lines : List Text} {failure : Failure}
    (h : expectOn machine lines = .error failure) : failure.status ≠ 0 := by
  rw [expectOn] at h
  split at h
  · split at h
    · rename_i found hFound
      cases h
      obtain ⟨_, probe, _, hProbe, _⟩ := traverse_eq_error_iff.mp hFound
      exact checkProbe_status hProbe
    · split at h
      · cases h
      · cases h
        simp [Failure.status]
  · cases h
    simp [Failure.status]

/-- Every failure of the script has an exit status of its own, and none is 0. -/
theorem checkUsdtNotes_status {machine : Machine} {args : List Text} {failure : Failure}
    (h : checkUsdtNotes machine args = .error failure) : failure.status ≠ 0 := by
  rw [checkUsdtNotes] at h
  split at h
  · rename_i found hParse
    cases h
    exact parseArgs_status hParse
  · split at h
    · split at h
      · rename_i found hRead
        cases h
        exact readNotes_status hRead
      · split at h
        · rw [expectOff] at h
          split at h
          · cases h
            simp [Failure.status]
          · cases h
        · exact expectOn_status h
    · cases h
      simp [Failure.status]

theorem exitStatus_eq_zero_iff {machine : Machine} {args : List Text} :
    exitStatus (checkUsdtNotes machine args) = 0 ↔ ∃ done, checkUsdtNotes machine args = .ok done := by
  cases hRun : checkUsdtNotes machine args with
  | ok done => exact iff_of_true rfl ⟨done, rfl⟩
  | error failure =>
    apply iff_of_false (checkUsdtNotes_status hRun)
    rintro ⟨done, hDone⟩
    cases hDone

theorem contract_arities {name : Text} {arity : Nat} (h : (name, arity) ∈ contract) : 0 < arity := by
  have hAll : contract.all (fun probe => decide (0 < probe.2)) = true := by decide
  exact of_decide_eq_true (List.all_eq_true.mp hAll (name, arity) h)

/-- No pipeline of `--expect on` is cut off. -/
structure Uncut (machine : Machine) : Prop where
  provider : machine.killed .provider = false
  probes : ∀ name arity, (name, arity) ∈ contract → machine.killed (.probe name) = false

theorem check_on_iff {machine : Machine} {binary : Text} {display : Display}
    (h : Shows machine binary display) :
    exitStatus (checkUsdtNotes machine ["--expect".toList, "on".toList, binary]) = 0 ↔
      display.Contract ∧ Uncut machine := by
  have hRun : checkUsdtNotes machine ["--expect".toList, "on".toList, binary] =
      expectOn machine display.lines := by
    rw [checkUsdtNotes, parseArgs_expect h.named.2]
    dsimp only
    rw [if_pos (Or.inl rfl), readNotes_of_shows h]
    dsimp only
    rw [if_neg (by decide), linesOf_text]
  rw [exitStatus_eq_zero_iff, hRun]
  simp only [expectOn_eq_ok_iff, greps_provider, exists_and_left, exists_eq, and_true]
  constructor
  · rintro ⟨⟨hProvider, hAlive⟩, hProbes⟩
    refine ⟨⟨hProvider, fun name arity hMem => ?_⟩, hAlive, fun name arity hMem => ?_⟩
    · exact ((checkProbe_eq_none_iff (contract_arities hMem)).mp (hProbes _ hMem)).1
    · exact ((checkProbe_eq_none_iff (contract_arities hMem)).mp (hProbes _ hMem)).2
  · rintro ⟨hContract, hUncut⟩
    refine ⟨⟨hContract.provider, hUncut.provider⟩, ?_⟩
    rintro ⟨name, arity⟩ hMem
    exact (checkProbe_eq_none_iff (contract_arities hMem)).mpr
      ⟨hContract.probes name arity hMem, hUncut.probes name arity hMem⟩

theorem check_off_iff {machine : Machine} {binary : Text} {display : Display}
    (h : Shows machine binary display) :
    exitStatus (checkUsdtNotes machine ["--expect".toList, "off".toList, binary]) = 0 ↔
      display.probes = [] ∨ machine.killed .stapsdt = true := by
  have hRun : checkUsdtNotes machine ["--expect".toList, "off".toList, binary] =
      expectOff machine display.lines := by
    rw [checkUsdtNotes, parseArgs_expect h.named.2]
    dsimp only
    rw [if_pos (Or.inr rfl), readNotes_of_shows h]
    dsimp only
    rw [if_pos rfl, linesOf_text]
  rw [exitStatus_eq_zero_iff, hRun]
  simp only [expectOff_eq_ok_iff, exists_and_left, exists_eq, and_true]
  rw [← Bool.not_eq_true, greps_stapsdt, not_and_or, not_not, Bool.not_eq_false]

/-- On the notes of a binary the script decides the contract. A pipeline whose writer is cut off makes
`--expect on` fail, and makes `--expect off` miss the probes. -/
theorem usdt_check_decides {machine : Machine} {binary : Text} {display : Display}
    (h : Shows machine binary display) :
    (exitStatus (checkUsdtNotes machine ["--expect".toList, "on".toList, binary]) = 0 ↔
        display.Contract ∧ Uncut machine) ∧
      (exitStatus (checkUsdtNotes machine ["--expect".toList, "off".toList, binary]) = 0 ↔
        display.probes = [] ∨ machine.killed .stapsdt = true) :=
  ⟨check_on_iff h, check_off_iff h⟩

def register : Argument where
  size := "8".toList
  location := "%rdi".toList
  oneAt := by decide
  oneLine := by decide

def linkedProbe (name : Text) (word : name ≠ [] ∧ (name.all fun c => !isSpace c) = true) (arity : Nat)
    (h : ¬ "Provider: etnp".toList <:+: argumentsText (List.replicate arity register)) : Probe where
  size := "0x00000040".toList
  provider := "etnp".toList
  name := name
  location := "0x0000000000001234".toList
  args := List.replicate arity register
  word := ⟨word.1, by simpa using word.2⟩
  oneLine := by decide
  plain := by decide
  noProvider := h

/-- The notes of a library with the three probes. -/
def linkedDisplay : Display where
  entries :=
    [.other ⟨"Displaying notes found in: .note.stapsdt".toList, by decide, by decide, by decide, by decide⟩,
      .note (linkedProbe "lstm_xnn_cache__hit".toList (by decide) 4 (by decide)),
      .note (linkedProbe "lstm_xnn_cache__miss".toList (by decide) 4 (by decide)),
      .note (linkedProbe "lstm_xnn_cache__evict".toList (by decide) 7 (by decide))]
  last := by decide +kernel

def linkedMachine : Machine where
  readelfText := none
  isFile := fun binary => binary = "/_core.so".toList
  readelf := fun _ => (0, linkedDisplay.text ++ ['\n'])
  killed := fun _ => false

theorem linked_shows : Shows linkedMachine "/_core.so".toList linkedDisplay where
  noHook := rfl
  named := by decide
  isFile := by decide
  readelf := rfl

theorem linked_contract : linkedDisplay.Contract where
  provider := by
    have hAny : linkedDisplay.probes.any (fun probe => decide ("etnp".toList <+: probe.provider)) = true := by
      decide +kernel
    obtain ⟨probe, hProbe, hProvider⟩ := List.any_eq_true.mp hAny
    exact ⟨probe, hProbe, of_decide_eq_true hProvider⟩
  probes := by
    have hAll : contract.all (fun entry =>
        (linkedDisplay.probes.find? fun probe => probe.name = entry.1).any fun probe =>
          probe.args.length = entry.2) = true := by
      decide +kernel
    intro name arity hMem
    have hEntry := List.all_eq_true.mp hAll (name, arity) hMem
    rw [Option.any_eq_true] at hEntry
    obtain ⟨probe, hProbe, hArity⟩ := hEntry
    exact ⟨probe, hProbe, of_decide_eq_true hArity⟩

theorem linked_uncut : Uncut linkedMachine := ⟨rfl, fun _ _ _ => rfl⟩

theorem linked_checks :
    exitStatus (checkUsdtNotes linkedMachine ["--expect".toList, "on".toList, "/_core.so".toList]) = 0 ∧
      exitStatus (checkUsdtNotes linkedMachine ["--expect".toList, "off".toList, "/_core.so".toList]) ≠ 0 := by
  obtain ⟨hOn, hOff⟩ := usdt_check_decides linked_shows
  refine ⟨hOn.mpr ⟨linked_contract, linked_uncut⟩, fun hZero => ?_⟩
  obtain hNone | hKilled := hOff.mp hZero
  · obtain ⟨probe, hProbe, _⟩ := linked_contract.provider
    rw [hNone] at hProbe
    cases hProbe
  · cases hKilled

end UsdtNotes

end ExecutorchNumpy
