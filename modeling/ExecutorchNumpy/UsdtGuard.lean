import ExecutorchNumpy.Library.CmakeValues
import ExecutorchNumpy.Library.Separators
import ExecutorchNumpy.Library.SpencerRegex
import ExecutorchNumpy.UsdtNotes

/-! # The USDT guard of the build

`assert_usdt_probes.cmake` runs after the link. It arms itself by a line of the
runtime's BUILDINFO and then runs the contract check on the linked library.
-/

namespace ExecutorchNumpy
set_option autoImplicit false

open SpencerRegex (Regex Place compile find)
open UsdtNotes (Text)

namespace UsdtGuard

/-! ## The script -/

inductive Node where
  | directory
  | file (content : Text)

/-- `run` is the exit status of `bash <script> <args>…`, when the process could be started. -/
structure Host where
  node : Text → Option Node
  bash : Bool
  run : Text → List Text → Option Nat

inductive GuardError where
  | soNotFound (so : Text)
  | checkerNotFound (checker : Text)
  | unreadable (path : Text)
  | noBash
  | contractBroken (so : Text) (status : Option Nat)
  deriving DecidableEq, Repr

inductive Verdict where
  | noPrefix
  | noBuildinfo (path : Text)
  | noUsdt (path : Text)
  | present (so : Text)
  deriving DecidableEq, Repr

/-- `(^|\n)usdt=on([\r\n]|$)` -/
def usdtOn : Text := "(^|\n)usdt=on([\r\n]|$)".toList

/-- `if(<text> MATCHES <pattern>)` -/
def isMatch (pattern text : Text) : Bool :=
  ((compile pattern).bind fun r => find r true text).isSome

/-- `-DSO`, `-DPREFIX` and `-DCHECKER` -/
structure Options where
  so : Option Text
  root : Option Text
  checker : Option Text

def buildinfo (options : Options) : Text := options.root.getD [] ++ "/BUILDINFO".toList

/-- The guard, once the runtime is known to record `usdt=on`. -/
def check (host : Host) (so checker : Text) : Except GuardError Verdict :=
  if host.bash = false then .error .noBash
  else
    let status := host.run checker ["--expect".toList, "on".toList, so]
    if status = some 0 then .ok (.present so) else .error (.contractBroken so status)

/-- The guard arms itself by the BUILDINFO of the prefix. -/
def checkArmed (host : Host) (options : Options) : Except GuardError Verdict :=
  if CmakeValues.isOn options.root = false then .ok .noPrefix
  else
    match host.node (buildinfo options) with
    | none => .ok (.noBuildinfo (buildinfo options))
    | some .directory => .error (.unreadable (buildinfo options))
    | some (.file content) =>
      if isMatch usdtOn content then check host (options.so.getD []) (options.checker.getD [])
      else .ok (.noUsdt (buildinfo options))

/-- `assert_usdt_probes.cmake`; a verdict means that the build goes on. -/
def assertUsdtProbes (host : Host) (options : Options) : Except GuardError Verdict :=
  if CmakeValues.isOn options.so = false ∨ host.node (options.so.getD []) = none then
    .error (.soNotFound (options.so.getD []))
  else if CmakeValues.isOn options.checker = false ∨ host.node (options.checker.getD []) = none then
    .error (.checkerNotFound (options.checker.getD []))
  else checkArmed host options

/-! ## When the guard is armed -/

/-- What the pattern wants behind the start of a line. -/
def Records (text : Text) : Prop :=
  ∃ rest, text = "usdt=on".toList ++ rest ∧ (rest = [] ∨ ∃ c more, rest = c :: more ∧ (c = '\r' ∨ c = '\n'))

def ending : Regex := .alt (.seq .nothing (.set false ['\r', '\n'])) (.seq .nothing .eol)

def opening : Regex := .seq .nothing (.alt (.seq .nothing .bol) (.seq .nothing (.char '\n')))

theorem compile_usdtOn : compile usdtOn =
    some (.seq ("usdt=on".toList.foldl SpencerRegex.appendChar opening) ending) := by
  decide

theorem ends_ending {atStart : Bool} {text : Text} :
    ending.ends ⟨atStart, text⟩ ≠ [] ↔ text = [] ∨ ∃ c more, text = c :: more ∧ (c = '\r' ∨ c = '\n') := by
  cases text with
  | nil => simp [ending, Regex.ends, SpencerRegex.oneChar]
  | cons c more => simp [ending, Regex.ends, SpencerRegex.oneChar, or_iff_not_imp_left]

theorem mem_ends_opening {atStart : Bool} {text : Text} {q : Place} :
    q ∈ opening.ends ⟨atStart, text⟩ ↔
      (atStart = true ∧ q = ⟨true, text⟩) ∨ ∃ rest, text = '\n' :: rest ∧ q = ⟨false, rest⟩ := by
  cases text with
  | nil => cases atStart <;> simp [opening, Regex.ends, SpencerRegex.oneChar]
  | cons c more =>
    obtain rfl | hOther := eq_or_ne c '\n'
    · cases atStart <;> simp [opening, Regex.ends, SpencerRegex.oneChar]
    · cases atStart <;> simp [opening, Regex.ends, SpencerRegex.oneChar, hOther]

theorem records_iff {text : Text} :
    Records text ↔ "usdt=on".toList <+: text ∧ ∀ atStart,
      ending.ends ⟨atStart, text.drop "usdt=on".toList.length⟩ ≠ [] := by
  constructor
  · rintro ⟨rest, rfl, hRest⟩
    refine ⟨List.prefix_append _ _, fun atStart => ends_ending.mpr ?_⟩
    rwa [List.drop_left]
  · rintro ⟨⟨rest, rfl⟩, hEnds⟩
    have hRest := ends_ending.mp (hEnds true)
    rw [List.drop_left] at hRest
    exact ⟨rest, rfl, hRest⟩

theorem ends_usdtOn {atStart : Bool} {text : Text} :
    (Regex.seq ("usdt=on".toList.foldl SpencerRegex.appendChar opening) ending).ends ⟨atStart, text⟩ ≠ [] ↔
      (atStart = true ∧ Records text) ∨ ∃ rest, text = '\n' :: rest ∧ Records rest := by
  have hPlace : (atStart = true ∧ Records text) ∨ (∃ rest, text = '\n' :: rest ∧ Records rest) ↔
      ∃ q ∈ opening.ends ⟨atStart, text⟩, Records q.rest := by
    constructor
    · rintro (⟨hStart, hRecords⟩ | ⟨rest, hText, hRecords⟩)
      · exact ⟨⟨true, text⟩, mem_ends_opening.mpr (Or.inl ⟨hStart, rfl⟩), hRecords⟩
      · exact ⟨⟨false, rest⟩, mem_ends_opening.mpr (Or.inr ⟨rest, hText, rfl⟩), hRecords⟩
    · rintro ⟨q, hMem, hRecords⟩
      obtain ⟨hStart, rfl⟩ | ⟨rest, hText, rfl⟩ := mem_ends_opening.mp hMem
      · exact Or.inl ⟨hStart, hRecords⟩
      · exact Or.inr ⟨rest, hText, hRecords⟩
  rw [hPlace, Regex.ends, SpencerRegex.ends_foldl_appendChar]
  constructor
  · intro hEnds
    obtain ⟨last, hLast⟩ := List.exists_mem_of_ne_nil _ hEnds
    obtain ⟨middle, hMiddle, hLast⟩ := List.mem_flatMap.mp hLast
    obtain ⟨q, hMem, hMiddle⟩ := List.mem_flatMap.mp hMiddle
    split at hMiddle
    · rename_i hName
      rw [List.mem_singleton.mp hMiddle] at hLast
      have hEnding := ends_ending.mp (List.ne_nil_of_mem hLast)
      exact ⟨q, hMem, records_iff.mpr ⟨hName, fun _ => ends_ending.mpr hEnding⟩⟩
    · cases hMiddle
  · rintro ⟨q, hMem, hRecords⟩
    obtain ⟨hName, hEnding⟩ := records_iff.mp hRecords
    obtain ⟨last, hLast⟩ := List.exists_mem_of_ne_nil _ (hEnding (q.atStart && "usdt=on".toList.isEmpty))
    refine List.ne_nil_of_mem (List.mem_flatMap.mpr ⟨_, List.mem_flatMap.mpr ⟨q, hMem, ?_⟩, hLast⟩)
    rw [if_pos hName]
    exact List.mem_singleton_self _

/-- The pattern is matched when some line of the text is what it wants. -/
theorem isMatch_usdtOn_iff (text : Text) :
    isMatch usdtOn text = true ↔ Records text ∨ ∃ before rest, text = before ++ '\n' :: rest ∧ Records rest := by
  rw [isMatch, compile_usdtOn, Option.bind_some, SpencerRegex.find_isSome_iff]
  simp only [ends_usdtOn, Bool.true_and]
  constructor
  · rintro ⟨before, rest, rfl, ⟨hStart, hRecords⟩ | ⟨more, rfl, hRecords⟩⟩
    · rw [List.isEmpty_iff.mp hStart, List.nil_append]
      exact Or.inl hRecords
    · exact Or.inr ⟨before, more, rfl, hRecords⟩
  · rintro (hRecords | ⟨before, rest, rfl, hRecords⟩)
    · exact ⟨[], text, rfl, Or.inl ⟨rfl, hRecords⟩⟩
    · exact ⟨before, _, rfl, Or.inr ⟨rest, rfl, hRecords⟩⟩

/-! ## BUILDINFO as a list of entries -/

structure Entry where
  key : Text
  value : Text
  plain : '=' ∉ key ∧ '\n' ∉ key ∧ '\n' ∉ value ∧ '\r' ∉ value

inductive LineEnd where
  | lf
  | crlf

def LineEnd.text : LineEnd → Text
  | .lf => ['\n']
  | .crlf => ['\r', '\n']

/-- The file that records the entries. -/
def written (lineEnd : LineEnd) (entries : List Entry) : Text :=
  entries.flatMap fun entry => entry.key ++ '=' :: (entry.value ++ lineEnd.text)

def lineChar (c : Char) : Bool := c != '\r' && c != '\n'

theorem takeWhile_line {line rest : Text} {c : Char} (hLine : ∀ d ∈ line, lineChar d = true)
    (hEnd : c = '\r' ∨ c = '\n') : (line ++ c :: rest).takeWhile lineChar = line := by
  have hStop : ¬ lineChar c = true := by
    rcases hEnd with rfl | rfl <;> decide
  rw [List.takeWhile_append_of_pos hLine, List.takeWhile_cons_of_neg hStop, List.append_nil]

theorem LineEnd.exists_head (lineEnd : LineEnd) :
    ∃ c more, lineEnd.text = c :: more ∧ (c = '\r' ∨ c = '\n') := by
  cases lineEnd with
  | lf => exact ⟨_, _, rfl, Or.inr rfl⟩
  | crlf => exact ⟨_, _, rfl, Or.inl rfl⟩

theorem records_entry_iff {lineEnd : LineEnd} {entry : Entry} {rest : Text} :
    Records (entry.key ++ '=' :: (entry.value ++ (lineEnd.text ++ rest))) ↔
      entry.key = "usdt".toList ∧ entry.value = "on".toList := by
  obtain ⟨e, more, hEnd, hChar⟩ := lineEnd.exists_head
  have hOn : "usdt=on".toList = "usdt".toList ++ '=' :: "on".toList := by decide
  have hValue : ∀ c ∈ entry.value, lineChar c = true := by
    intro c hc
    have hReturn : c ≠ '\r' := fun h => entry.plain.2.2.2 (h ▸ hc)
    have hNewline : c ≠ '\n' := fun h => entry.plain.2.2.1 (h ▸ hc)
    simp [lineChar, hReturn, hNewline]
  have hWord : ∀ c ∈ "on".toList, lineChar c = true := by simp [lineChar]
  rw [Records, hOn, hEnd]
  constructor
  · rintro ⟨after, hText, hAfter⟩
    rw [List.append_assoc, List.cons_append] at hText
    obtain ⟨hKey, hRest⟩ := Separators.append_cons_inj_left entry.plain.1 (by decide) hText
    refine ⟨hKey, ?_⟩
    change entry.value ++ e :: (more ++ rest) = "on".toList ++ after at hRest
    have hTaken := @takeWhile_line entry.value (more ++ rest) e hValue hChar
    rw [hRest] at hTaken
    obtain rfl | ⟨c, tail, rfl, hc⟩ := hAfter
    · rw [List.append_nil] at hRest
      have hMem : e ∈ "on".toList := hRest ▸ List.mem_append_right _ List.mem_cons_self
      have hNot := hWord e hMem
      rcases hChar with rfl | rfl <;> cases hNot
    · rw [takeWhile_line hWord hc] at hTaken
      exact hTaken.symm
  · rintro ⟨hKey, hOnValue⟩
    refine ⟨e :: more ++ rest, ?_, Or.inr ⟨e, more ++ rest, rfl, hChar⟩⟩
    rw [hKey, hOnValue, List.append_assoc]
    rfl

/-- Behind a line the text starts again. -/
theorem after_line_iff {line rest : Text} {p : Text → Prop} (h : '\n' ∉ line) :
    (∃ before after, line ++ '\n' :: rest = before ++ '\n' :: after ∧ p after) ↔
      p rest ∨ ∃ before after, rest = before ++ '\n' :: after ∧ p after := by
  constructor
  · rintro ⟨before, after, hText, hAfter⟩
    obtain hMem | hFirst := Classical.em ('\n' ∈ before)
    · obtain ⟨first, second, rfl, hFirst⟩ := List.eq_append_cons_of_mem hMem
      rw [List.append_assoc, List.cons_append] at hText
      exact Or.inr ⟨second, after, (Separators.append_cons_inj_left h hFirst hText).2, hAfter⟩
    · rw [(Separators.append_cons_inj_left h hFirst hText).2]
      exact Or.inl hAfter
  · rintro (hRest | ⟨before, after, rfl, hAfter⟩)
    · exact ⟨line, rest, rfl, hRest⟩
    · exact ⟨line ++ '\n' :: before, after, by rw [List.append_assoc, List.cons_append], hAfter⟩

theorem entry_line (lineEnd : LineEnd) (entry : Entry) (rest : Text) : ∃ line, '\n' ∉ line ∧
    entry.key ++ '=' :: (entry.value ++ (lineEnd.text ++ rest)) = line ++ '\n' :: rest := by
  have hKey := entry.plain.2.1
  have hValue := entry.plain.2.2.1
  cases lineEnd with
  | lf =>
    refine ⟨entry.key ++ '=' :: entry.value, ?_, ?_⟩
    · simp [hKey, hValue]
    · simp [LineEnd.text]
  | crlf =>
    refine ⟨entry.key ++ '=' :: (entry.value ++ ['\r']), ?_, ?_⟩
    · simp [hKey, hValue]
    · simp [LineEnd.text]

/-- The guard reads the record that the file was written from. -/
theorem isMatch_written_iff (lineEnd : LineEnd) (entries : List Entry) :
    isMatch usdtOn (written lineEnd entries) = true ↔
      ∃ entry ∈ entries, entry.key = "usdt".toList ∧ entry.value = "on".toList := by
  induction entries with
  | nil =>
    rw [isMatch_usdtOn_iff]
    simp [written, Records]
  | cons entry entries ih =>
    have hText : written lineEnd (entry :: entries) =
        entry.key ++ '=' :: (entry.value ++ (lineEnd.text ++ written lineEnd entries)) := by
      simp [written]
    obtain ⟨line, hLine, hShape⟩ := entry_line lineEnd entry (written lineEnd entries)
    rw [isMatch_usdtOn_iff] at ih ⊢
    rw [hText, records_entry_iff, hShape, after_line_iff hLine, ih]
    simp

/-! ## The guard as a whole -/

/-- The build as it runs the guard: a linked library whose notes are the display, the checker of the
repository, and a BUILDINFO that was written from entries if there is one. -/
structure Linked (host : Host) (options : Options) (machine : UsdtNotes.Machine)
    (display : UsdtNotes.Display) : Prop where
  so : CmakeValues.isOn options.so = true ∧ host.node (options.so.getD []) ≠ none
  checker : CmakeValues.isOn options.checker = true ∧ host.node (options.checker.getD []) ≠ none
  script : ∀ args, host.run (options.checker.getD []) args =
    some (UsdtNotes.exitStatus (UsdtNotes.checkUsdtNotes machine args))
  shows : UsdtNotes.Shows machine (options.so.getD []) display
  buildinfo : ∀ node, host.node (buildinfo options) = some node →
    ∃ lineEnd entries, node = .file (written lineEnd entries)

/-- The runtime of the prefix records `usdt=on`. -/
def RecordsUsdt (host : Host) (options : Options) : Prop :=
  CmakeValues.isOn options.root = true ∧ ∃ lineEnd entries,
    host.node (buildinfo options) = some (.file (written lineEnd entries)) ∧
      ∃ entry ∈ entries, entry.key = "usdt".toList ∧ entry.value = "on".toList

section Guard

variable {host : Host} {options : Options} {machine : UsdtNotes.Machine} {display : UsdtNotes.Display}

theorem check_eq_ok_iff (h : Linked host options machine display) :
    (∃ verdict, check host (options.so.getD []) (options.checker.getD []) = .ok verdict) ↔
      host.bash = true ∧ display.Contract ∧ UsdtNotes.Uncut machine := by
  rw [← UsdtNotes.check_on_iff h.shows, check, h.script]
  cases host.bash with
  | false => simp
  | true =>
    rw [if_neg (by decide)]
    dsimp only
    split
    · rename_i hZero
      exact iff_of_true ⟨_, rfl⟩ ⟨rfl, Option.some.inj hZero⟩
    · rename_i hStatus
      refine iff_of_false ?_ fun hBoth => hStatus (congrArg some hBoth.2)
      rintro ⟨verdict, hVerdict⟩
      cases hVerdict

theorem assertUsdtProbes_linked (h : Linked host options machine display) :
    assertUsdtProbes host options = checkArmed host options := by
  have hSo : ¬ (CmakeValues.isOn options.so = false ∨ host.node (options.so.getD []) = none) := by
    simp [h.so.1, h.so.2]
  have hChecker : ¬ (CmakeValues.isOn options.checker = false ∨ host.node (options.checker.getD []) = none) := by
    simp [h.checker.1, h.checker.2]
  rw [assertUsdtProbes, if_neg hSo, if_neg hChecker]

/-- The build goes on exactly when the linked library meets the contract, if the runtime records USDT. -/
theorem usdt_guard_iff (h : Linked host options machine display) :
    (∃ verdict, assertUsdtProbes host options = .ok verdict) ↔
      (RecordsUsdt host options → host.bash = true ∧ display.Contract ∧ UsdtNotes.Uncut machine) := by
  rw [assertUsdtProbes_linked h, ← check_eq_ok_iff h, checkArmed]
  cases hRoot : CmakeValues.isOn options.root with
  | false =>
    refine iff_of_true ⟨_, rfl⟩ fun hRecords => ?_
    rw [hRecords.1] at hRoot
    cases hRoot
  | true =>
    rw [if_neg (by decide)]
    cases hNode : host.node (buildinfo options) with
    | none =>
      refine iff_of_true ⟨_, rfl⟩ fun hRecords => ?_
      obtain ⟨_, _, _, hFile, _⟩ := hRecords
      rw [hNode] at hFile
      cases hFile
    | some node =>
      obtain ⟨lineEnd, entries, rfl⟩ := h.buildinfo node hNode
      dsimp only
      split
      · rename_i hMatch
        refine (imp_iff_right ?_).symm
        exact ⟨hRoot, lineEnd, entries, hNode, (isMatch_written_iff lineEnd entries).mp hMatch⟩
      · rename_i hMatch
        refine iff_of_true ⟨_, rfl⟩ fun hRecords => ?_
        obtain ⟨_, otherEnd, others, hFile, hEntry⟩ := hRecords
        rw [hNode] at hFile
        have hContent : written lineEnd entries = written otherEnd others :=
          Node.file.inj (Option.some.inj hFile)
        rw [hContent] at hMatch
        exact absurd ((isMatch_written_iff otherEnd others).mpr hEntry) hMatch

end Guard

def linkedBuildinfo : Text := written .lf [⟨"usdt".toList, "on".toList, by decide⟩]

def linkedHost : Host where
  node := fun path => some (.file (if path = "/r/BUILDINFO".toList then linkedBuildinfo else []))
  bash := true
  run := fun _ args => some (UsdtNotes.exitStatus (UsdtNotes.checkUsdtNotes UsdtNotes.linkedMachine args))

def linkedOptions : Options where
  so := some "/_core.so".toList
  root := some "/r".toList
  checker := some "/check".toList

theorem linkedHost_linked : Linked linkedHost linkedOptions UsdtNotes.linkedMachine UsdtNotes.linkedDisplay where
  so := ⟨by decide, Option.some_ne_none _⟩
  checker := ⟨by decide, Option.some_ne_none _⟩
  script := fun _ => rfl
  shows := UsdtNotes.linked_shows
  buildinfo := by
    intro node hNode
    have hPath : buildinfo linkedOptions = "/r/BUILDINFO".toList := by decide
    rw [hPath] at hNode
    refine ⟨.lf, [⟨"usdt".toList, "on".toList, by decide⟩], ?_⟩
    rw [← Option.some.inj hNode, if_pos rfl, linkedBuildinfo]

theorem linkedHost_passes : ∃ verdict, assertUsdtProbes linkedHost linkedOptions = .ok verdict :=
  (usdt_guard_iff linkedHost_linked).mpr fun _ => ⟨rfl, UsdtNotes.linked_contract, UsdtNotes.linked_uncut⟩

end UsdtGuard

end ExecutorchNumpy
