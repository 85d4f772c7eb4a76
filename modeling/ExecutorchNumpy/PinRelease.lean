import ExecutorchNumpy.PinRows
import ExecutorchNumpy.PinTable

/-! # Releases under the pin check

What the searches of `check-pin-rows.sh` find in the file of a release, when the
script accepts it, and what the build fetches from an accepted release.
-/

namespace ExecutorchNumpy
set_option autoImplicit false

open Grep PinFile Separators Traverse
open CmakeValues (Text)

namespace PinRows

/-! ## Lines with one quoted argument -/

theorem not_mem_source {c : Char} (hChar : valueChar c = false) (hName : nameChar c = false)
    (hRef : c ∉ "$\x7b\x7d".toList) (value : Value) : c ∉ Value.source value := by
  intro hMem
  obtain ⟨piece, _, hPiece⟩ := List.mem_flatMap.mp hMem
  cases piece with
  | char d h =>
    rw [List.mem_singleton.mp hPiece, h] at hChar
    cases hChar
  | ref name =>
    obtain hFront | hClose := List.mem_append.mp hPiece
    · obtain hOpen | hText := List.mem_append.mp hFront
      · exact hRef (List.mem_append_left ['\x7d'] hOpen)
      · rw [List.all_eq_true.mp name.chars c hText] at hName
        cases hName
    · exact hRef (List.mem_append_right "$\x7b".toList hClose)

theorem quote_not_mem_source (value : Value) : '"' ∉ Value.source value :=
  not_mem_source (by decide) (by decide) (by decide) value

theorem newline_not_mem_source (value : Value) : '\n' ∉ Value.source value :=
  not_mem_source (by decide) (by decide) (by decide) value

/-- What stands left of the argument on the line of a `set()`. -/
def opening (name : Text) : Text := "set(".toList ++ name ++ " ".toList

theorem sameLine_lines (name : Name) (value : Value) :
    (Item.set name .sameLine value).lines =
      [opening name.text ++ ['"'] ++ (Value.source value ++ "\")".toList)] := by
  rw [opening, List.append_assoc ("set(".toList ++ name.text) " ".toList]
  rfl

/-! ## The search for tarballs -/

/-- A scheme only at the start, and then the ending of a tarball only at the end. -/
structure OneUrl (value : Text) : Prop where
  scheme : ¬ "https://".toList <:+: value.tail
  ending : "https://".toList <+: value → ¬ ".tar.gz".toList <:+: value.dropLast

instance (value : Text) : Decidable (OneUrl value) :=
  decidable_of_iff (¬ "https://".toList <:+: value.tail ∧
      ("https://".toList <+: value → ¬ ".tar.gz".toList <:+: value.dropLast))
    ⟨fun h => ⟨h.1, h.2⟩, fun h => ⟨h.scheme, h.ending⟩⟩

theorem OneUrl.eq_of_infix {value text : Text} (h : OneUrl value) (hText : text <:+: value)
    (hScheme : "https://".toList <+: text) (hEnding : ".tar.gz".toList <:+ text) : text = value := by
  obtain ⟨before, after, rfl⟩ := hText
  cases before with
  | nil =>
    obtain rfl | ⟨after, c, rfl⟩ := List.eq_nil_or_concat after
    · simp
    · refine absurd ?_ (h.ending (hScheme.trans (List.prefix_append text _)))
      rw [List.nil_append, List.concat_eq_append, ← List.append_assoc, List.dropLast_concat]
      exact hEnding.isInfix.trans (List.prefix_append text after).isInfix
  | cons c before =>
    refine absurd ?_ h.scheme
    rw [List.cons_append, List.cons_append, List.tail_cons]
    exact hScheme.isInfix.trans (List.infix_append before text after)

theorem scheme_of_accepts {platform text : Text} (h : (urlPattern platform).accepts text = true) :
    "https://".toList <+: text := by
  obtain ⟨run, rfl, _⟩ := Pattern.accepts_iff.mp h
  rw [List.append_assoc]
  exact List.prefix_append _ _

theorem tarball_of_accepts {platform text : Text} (h : (urlPattern platform).accepts text = true) :
    "logging-".toList ++ platform ++ ".tar.gz".toList <:+ text := by
  obtain ⟨run, rfl, _⟩ := Pattern.accepts_iff.mp h
  exact List.suffix_append _ _

theorem ending_of_accepts {platform text : Text} (h : (urlPattern platform).accepts text = true) :
    ".tar.gz".toList <:+ text :=
  (List.suffix_append _ _).trans (tarball_of_accepts h)

theorem quotes_not_accepted {platform text : Text} (hPlatform : platform ∈ platforms)
    (h : (urlPattern platform).accepts text = true) : '"' ∉ text :=
  fun hMem => noQuote_of_accepts hPlatform h '"' hMem rfl

theorem matchAt_quoted_url {platform value : Text} (hPlatform : platform ∈ platforms)
    (h : (urlPattern platform).accepts value = true) :
    (urlPattern platform).matchAt (value ++ "\")".toList) = some value.length := by
  apply Pattern.matchAt_append h
  intro n hn
  rw [Bool.eq_false_iff]
  intro hLonger
  apply quotes_not_accepted hPlatform hLonger
  obtain ⟨m, hm⟩ : ∃ m, n - value.length = m + 1 := ⟨n - value.length - 1, by omega⟩
  rw [List.take_append, hm]
  exact List.mem_append_right _ List.mem_cons_self

theorem scan_quoted_url {platform front value : Text} (hPlatform : platform ∈ platforms)
    (hColon : ':' ∉ front) (hUrl : OneUrl value) :
    (urlPattern platform).scan 0 (front ++ ['"'] ++ (value ++ "\")".toList)) =
      if (urlPattern platform).accepts value then [value] else [] := by
  have hNoScheme : ¬ "https://".toList <:+: "\")".toList := by decide
  have hClose : (urlPattern platform).scan 0 "\")".toList = [] :=
    Pattern.scan_of_not_infix hNoScheme
  cases hValue : (urlPattern platform).accepts value with
  | true =>
    rw [if_pos rfl, Pattern.scan_append_of_none, Pattern.scan_append_of_matchAt
      (ne_nil_of_accepts hValue) (matchAt_quoted_url hPlatform hValue), hClose]
    intro r hNonempty hSuffix
    exact Pattern.matchAt_eq_none_of_head (https_not_head hColon hNonempty hSuffix)
  | false =>
    rw [if_neg Bool.false_ne_true]
    apply Pattern.scan_eq_nil
    intro text hText
    rw [Bool.eq_false_iff]
    intro hAccepts
    have hQuote := quotes_not_accepted hPlatform hAccepts
    have hScheme := scheme_of_accepts hAccepts
    have hColonMem : ':' ∈ text := hScheme.subset (by decide)
    rw [List.append_assoc] at hText
    obtain hFront | hRest := infix_append_cons hQuote hText
    · exact hColon (hFront.subset hColonMem)
    · obtain hInside | hAfter := infix_append_cons hQuote hRest
      · have hWhole := hUrl.eq_of_infix hInside hScheme (ending_of_accepts hAccepts)
        rw [hWhole, hValue] at hAccepts
        cases hAccepts
      · exact absurd (hAfter.subset hColonMem) (by decide)

/-- A comment that shows neither a link nor a command. -/
def Quiet : Item → Prop
  | .comment note => ¬ "https://".toList <:+: '#' :: note.text ∧ ¬ "set(".toList <:+: '#' :: note.text
  | _ => True

/-- The argument of a `set()` as it is written. -/
def argument : Item → Option Text
  | .set _ _ value => some (Value.source value)
  | _ => none

theorem not_scheme_of_colon {line : Text} (h : ':' ∉ line) : ¬ "https://".toList <:+: line :=
  fun hScheme => h (hScheme.subset (by decide))

theorem functions_quiet :
    (distUrlFunctionLines ++ openvinoUrlFunctionLines).all (fun line => line.tails.all fun rest =>
      !"https://".toList.isPrefixOf rest && !"set(ET".toList.isPrefixOf rest) = true := by
  decide +kernel

theorem function_line_quiet {line : Text}
    (h : line ∈ distUrlFunctionLines ++ openvinoUrlFunctionLines) :
    ¬ "https://".toList <:+: line ∧ ¬ "set(ET".toList <:+: line := by
  have hTails := List.all_eq_true.mp (List.all_eq_true.mp functions_quiet line h)
  constructor <;> intro hInfix
  · obtain ⟨rest, hPrefix, hSuffix⟩ := List.infix_iff_prefix_suffix.mp hInfix
    have hRest := hTails rest ((List.mem_tails _ _).mpr hSuffix)
    rw [List.isPrefixOf_iff_prefix.mpr hPrefix] at hRest
    cases hRest
  · obtain ⟨rest, hPrefix, hSuffix⟩ := List.infix_iff_prefix_suffix.mp hInfix
    have hRest := hTails rest ((List.mem_tails _ _).mpr hSuffix)
    rw [List.isPrefixOf_iff_prefix.mpr hPrefix, Bool.not_true, Bool.and_false] at hRest
    cases hRest

theorem grep_url_of_quiet {platform : Text} {lines : List Text}
    (h : ∀ line ∈ lines, ¬ "https://".toList <:+: line) : grep (urlPattern platform) lines = [] :=
  List.flatMap_eq_nil_iff.mpr fun line hLine => Pattern.scan_of_not_infix (h line hLine)

theorem grep_url_item {platform : Text} (hPlatform : platform ∈ platforms) {item : Item}
    (hQuiet : Quiet item) (hUrl : ∀ value ∈ argument item, OneUrl value) :
    grep (urlPattern platform) item.lines =
      (argument item).toList.filter (urlPattern platform).accepts := by
  cases item with
  | comment note => exact grep_url_of_quiet (by simpa [Item.lines] using hQuiet.1)
  | blank => exact grep_url_of_quiet (by simp [Item.lines])
  | distUrlFunction =>
    exact grep_url_of_quiet fun line hLine => (function_line_quiet (List.mem_append_left _ hLine)).1
  | openvinoUrlFunction =>
    exact grep_url_of_quiet fun line hLine => (function_line_quiet (List.mem_append_right _ hLine)).1
  | set name gap value =>
    have hOne : OneUrl (Value.source value) := hUrl _ rfl
    have hArgument : (argument (.set name gap value)).toList.filter (urlPattern platform).accepts =
        if (urlPattern platform).accepts (Value.source value) then [Value.source value] else [] := by
      rw [argument, Option.toList_some, List.filter_singleton, Bool.cond_eq_ite]
    have hName := colon_not_mem_word name.toWord
    rw [hArgument]
    cases gap with
    | sameLine =>
      have hFront : ':' ∉ opening name.text := by
        simp only [opening, List.mem_append, not_or]
        exact ⟨⟨by decide, hName⟩, by decide⟩
      rw [grep, sameLine_lines, List.flatMap_singleton, scan_quoted_url hPlatform hFront hOne]
    | nextLine =>
      have hFront : ':' ∉ "set(".toList ++ name.text := by
        rw [List.mem_append, not_or]
        exact ⟨by decide, hName⟩
      have hScan := @scan_quoted_url platform "  ".toList _ hPlatform (by decide) hOne
      have hFirst := @Pattern.scan_of_not_infix _ _ (urlPattern platform) _ (not_scheme_of_colon hFront)
      rw [← hScan, grep, Item.lines, List.flatMap_cons, hFirst, List.nil_append]
      exact List.append_nil _

/-- The search finds the arguments that are tarballs of the platform, in the order of the file. -/
theorem grep_url_items {platform : Text} (hPlatform : platform ∈ platforms) {items : List Item}
    (hQuiet : ∀ item ∈ items, Quiet item)
    (hUrls : ∀ item ∈ items, ∀ value ∈ argument item, OneUrl value) :
    grep (urlPattern platform) (items.flatMap Item.lines) =
      (items.filterMap argument).filter (urlPattern platform).accepts := by
  induction items with
  | nil => rfl
  | cons item items ih =>
    have hItem := grep_url_item hPlatform (hQuiet item List.mem_cons_self) (hUrls item List.mem_cons_self)
    have hRest := ih (fun later hLater => hQuiet later (List.mem_cons_of_mem item hLater))
      fun later hLater => hUrls later (List.mem_cons_of_mem item hLater)
    rw [grep] at hItem hRest ⊢
    rw [List.flatMap_cons, List.flatMap_append, hItem, hRest, ← List.filter_append]
    congr 1
    cases hArgument : argument item with
    | none => rw [List.filterMap_cons_none hArgument]; rfl
    | some value => rw [List.filterMap_cons_some hArgument]; rfl

/-! ## The search for an assignment -/

theorem quote_not_mem_name (name : Name) : '"' ∉ name.text := by
  intro hMem
  have hChar := List.all_eq_true.mp name.chars '"' hMem
  exact absurd hChar (by decide)

theorem paren_not_mem_name (name : Name) : '(' ∉ name.text := by
  intro hMem
  have hChar := List.all_eq_true.mp name.chars '(' hMem
  exact absurd hChar (by decide)

theorem noQuotes_iff {run : Text} : noQuotes run = true ↔ run ≠ [] ∧ '"' ∉ run := by
  rw [noQuotes, Bool.and_eq_true, noQuote_iff, bne_iff_ne]
  refine and_congr_right fun _ => ⟨fun h hMem => h '"' hMem rfl, fun h c hc hEq => h (hEq ▸ hc)⟩

theorem quote_not_mem_opening (name : Name) : '"' ∉ opening name.text := by
  simp only [opening, List.mem_append, not_or]
  exact ⟨⟨by decide, quote_not_mem_name name⟩, by decide⟩

theorem setPattern_head (name : Text) : (setPattern name).head = opening name ++ ['"'] := by
  have hOpen : " \"".toList = " ".toList ++ ['"'] := rfl
  rw [setPattern, opening, hOpen]
  exact (List.append_assoc _ _ _).symm

/-- The quotes of a match are the quotes of the line. -/
theorem assignment_in_line {name : Name} {front value text : Text} (hFront : '"' ∉ front)
    (hValue : '"' ∉ value) (hText : text <:+: front ++ ['"'] ++ (value ++ "\")".toList))
    (hAccepts : (setPattern name.text).accepts text = true) :
    opening name.text <:+ front ∧ value ≠ [] := by
  obtain ⟨run, rfl, hRun⟩ := Pattern.accepts_iff.mp hAccepts
  obtain ⟨hNonempty, hNoQuote⟩ := noQuotes_iff.mp hRun
  obtain ⟨before, after, hLine⟩ := hText
  have hHead := quote_not_mem_opening name
  have hEq : before ++ opening name.text ++ '"' :: (run ++ '"' :: ')' :: after) =
      front ++ '"' :: (value ++ '"' :: [')']) := by
    have hShape : front ++ ['"'] ++ (value ++ "\")".toList) = front ++ '"' :: (value ++ '"' :: [')']) :=
      List.append_assoc _ _ _
    have hTail : (setPattern name.text).tail = '"' :: [')'] := rfl
    rw [← hShape, ← hLine, setPattern_head, hTail]
    simp only [List.append_assoc, List.cons_append, List.nil_append]
  have hCount := congrArg (List.count '"') hEq
  simp only [List.count_append, List.count_cons_self, List.count_eq_zero_of_not_mem hFront,
    List.count_eq_zero_of_not_mem hValue] at hCount
  have hBefore : '"' ∉ before := by
    intro hMem
    have hPos := List.count_pos_iff.mpr hMem
    have hClose : List.count '"' [')'] = 0 := by decide
    omega
  have hStart : '"' ∉ before ++ opening name.text := by
    rw [List.mem_append, not_or]
    exact ⟨hBefore, hHead⟩
  obtain ⟨hSame, hRest⟩ := append_cons_inj_left hStart hFront hEq
  obtain ⟨hBody, _⟩ := append_cons_inj_left hNoQuote hValue hRest
  exact ⟨⟨before, hSame⟩, hBody ▸ hNonempty⟩

theorem name_of_suffix {name other : Name} (h : opening name.text <:+ opening other.text) :
    name.text = other.text := by
  obtain ⟨before, hEq⟩ := h
  have hName : before ++ "set".toList ++ '(' :: name.text = "set".toList ++ '(' :: other.text := by
    rw [opening, opening, ← List.append_assoc, List.append_cancel_right_eq] at hEq
    rw [List.append_assoc]
    exact hEq
  exact (append_cons_inj_right (paren_not_mem_name name) (paren_not_mem_name other) hName).2

theorem head_not_in_line {name : Text} {line : Text} (h : ¬ "set(".toList <:+: line) :
    ¬ (setPattern name).head <:+: line := by
  intro hHead
  rw [setPattern, List.append_assoc] at hHead
  exact h ((List.prefix_append _ _).isInfix.trans hHead)

theorem scan_set_quoted {name : Name} {front value : Text} (hFront : '"' ∉ front) (hValue : '"' ∉ value)
    (h : opening name.text <:+ front → value = []) :
    (setPattern name.text).scan 0 (front ++ ['"'] ++ (value ++ "\")".toList)) = [] := by
  apply Pattern.scan_eq_nil
  intro text hText
  rw [Bool.eq_false_iff]
  intro hAccepts
  obtain ⟨hSuffix, hNonempty⟩ := assignment_in_line hFront hValue hText hAccepts
  exact hNonempty (h hSuffix)

theorem grep_set_other {name : Name} (hOurs : "ET".toList <+: name.text) {item : Item}
    (hQuiet : Quiet item) (h : item.written ≠ some name.text) :
    grep (setPattern name.text) item.lines = [] := by
  have hFunctions : ∀ line ∈ distUrlFunctionLines ++ openvinoUrlFunctionLines,
      (setPattern name.text).scan 0 line = [] := by
    intro line hLine
    apply Pattern.scan_of_not_infix
    intro hHead
    obtain ⟨rest, hName⟩ := hOurs
    rw [setPattern, ← hName, List.append_assoc, List.append_assoc, ← List.append_assoc] at hHead
    exact (function_line_quiet hLine).2 ((List.prefix_append _ _).isInfix.trans hHead)
  apply List.flatMap_eq_nil_iff.mpr
  intro line hLine
  cases item with
  | comment note =>
    rw [List.mem_singleton.mp hLine]
    exact Pattern.scan_of_not_infix (head_not_in_line hQuiet.2)
  | blank =>
    rw [List.mem_singleton.mp hLine]
    rfl
  | distUrlFunction => exact hFunctions line (List.mem_append_left _ hLine)
  | openvinoUrlFunction => exact hFunctions line (List.mem_append_right _ hLine)
  | set other gap value =>
    have hValue := quote_not_mem_source value
    cases gap with
    | sameLine =>
      rw [sameLine_lines, List.mem_singleton] at hLine
      rw [hLine]
      refine scan_set_quoted (quote_not_mem_opening other) hValue fun hSuffix => absurd ?_ h
      exact congrArg some (name_of_suffix hSuffix).symm
    | nextLine =>
      obtain rfl | hLine := List.mem_cons.mp hLine
      · apply Pattern.scan_of_not_infix
        intro hHead
        have hQuote : '"' ∈ (setPattern name.text).head := List.mem_append_right _ (by decide)
        obtain hSet | hOther := List.mem_append.mp (hHead.subset hQuote)
        · exact absurd hSet (by decide)
        · exact quote_not_mem_name other hOther
      · rw [List.mem_singleton.mp hLine]
        apply @scan_set_quoted name "  ".toList _ (by decide) hValue
        intro hSuffix
        have hParen : '(' ∈ opening name.text := by
          rw [opening, List.append_assoc]
          exact List.mem_append_left _ (by decide)
        exact absurd (hSuffix.subset hParen) (by decide)

theorem grep_set_self {name : Name} {value : Value} :
    grep (setPattern name.text) (Item.set name .sameLine value).lines =
      if Value.source value = [] then [] else (Item.set name .sameLine value).lines := by
  have hValue := quote_not_mem_source value
  rw [sameLine_lines, grep, List.flatMap_singleton]
  obtain hEmpty | hNonempty := eq_or_ne (Value.source value) []
  · rw [if_pos hEmpty]
    exact scan_set_quoted (quote_not_mem_opening name) hValue fun _ => hEmpty
  · rw [if_neg hNonempty]
    have hAccepts : (setPattern name.text).accepts
        (opening name.text ++ ['"'] ++ (Value.source value ++ "\")".toList)) = true := by
      refine Pattern.accepts_iff.mpr ⟨Value.source value, ?_, noQuotes_iff.mpr ⟨hNonempty, hValue⟩⟩
      rw [setPattern_head, List.append_assoc (opening name.text ++ ['"'])]
      rfl
    exact Pattern.scan_self (by simp) hAccepts

theorem quoted_accepts_iff {text : Text} :
    quoted.accepts text = true ↔ ∃ run, text = '"' :: (run ++ ['"']) ∧ run ≠ [] ∧ '"' ∉ run := by
  rw [Pattern.accepts_iff]
  refine exists_congr fun run => and_congr_right' ?_
  exact noQuotes_iff

theorem scan_quoted_argument {front value : Text} (hFront : '"' ∉ front) (hValue : '"' ∉ value)
    (hNonempty : value ≠ []) :
    quoted.scan 0 (front ++ ['"'] ++ (value ++ "\")".toList)) = ['"' :: (value ++ ['"'])] := by
  have hAccepts : quoted.accepts ('"' :: (value ++ ['"'])) = true :=
    quoted_accepts_iff.mpr ⟨value, rfl, hNonempty, hValue⟩
  have hShape : front ++ ['"'] ++ (value ++ "\")".toList) = front ++ ('"' :: (value ++ ['"']) ++ [')']) := by
    simp only [List.append_assoc, List.cons_append, List.nil_append]
    rfl
  have hMatch : quoted.matchAt ('"' :: (value ++ ['"']) ++ [')']) = some ('"' :: (value ++ ['"'])).length := by
    apply Pattern.matchAt_append hAccepts
    intro n hn
    rw [List.take_of_length_le (by rw [List.length_append]; exact hn), Bool.eq_false_iff]
    intro hLonger
    obtain ⟨run, hText, _, _⟩ := quoted_accepts_iff.mp hLonger
    have hLast := congrArg List.getLast? hText
    rw [List.getLast?_concat, ← List.cons_append, List.getLast?_concat] at hLast
    exact absurd hLast (by decide)
  rw [hShape, Pattern.scan_append_of_none, Pattern.scan_append_of_matchAt (List.cons_ne_nil _ _) hMatch]
  · rfl
  · intro r hr hSuffix
    apply Pattern.matchAt_eq_none_of_head
    intro hHead
    obtain ⟨c, rest, rfl⟩ := List.exists_cons_of_ne_nil hr
    have hQuote : '"' = c := (List.cons_prefix_cons.mp hHead).1
    exact hFront (hSuffix.subset (hQuote ▸ List.mem_cons_self))

theorem substitution_singleton {value : Text} (h : '\n' ∉ value) : substitution [value] = value := by
  have hDrop : value.reverse.dropWhile (· == '\n') = value.reverse := by
    cases hReverse : value.reverse with
    | nil => rfl
    | cons c rest =>
      have hChar : c ≠ '\n' := by
        rintro rfl
        exact h (List.mem_reverse.mp (hReverse ▸ List.mem_cons_self))
      rw [List.dropWhile_cons_of_neg (by simpa using hChar)]
  rw [substitution, List.intercalate_singleton, hDrop, List.reverse_reverse]

theorem grep_items_eq_nil {p : Pattern Char} {items : List Item}
    (h : ∀ item ∈ items, grep p item.lines = []) : grep p (items.flatMap Item.lines) = [] := by
  rw [grep, List.flatMap_assoc]
  exact List.flatMap_eq_nil_iff.mpr h

theorem written_of_mem {items : List Item} {item : Item} {var : Text} (hMem : item ∈ items)
    (h : item.written = some var) : var ∈ writtenNames items :=
  List.mem_filterMap.mpr ⟨item, hMem, h⟩

/-- What the script reads as the value of a variable that the file sets once. -/
theorem assigned_items {items : List Item} (hOnce : (writtenNames items).Nodup)
    (hQuiet : ∀ item ∈ items, Quiet item) {name : Name} (hOurs : "ET".toList <+: name.text)
    {value : Value} (hMem : Item.set name .sameLine value ∈ items) :
    assigned name.text (items.flatMap Item.lines) =
      if Value.source value = [] then .error .pipeline else .ok (Value.source value) := by
  have hGrep : grep (setPattern name.text) (items.flatMap Item.lines) =
      grep (setPattern name.text) (Item.set name .sameLine value).lines := by
    obtain ⟨above, below, rfl⟩ := List.append_of_mem hMem
    rw [writtenNames_append] at hOnce
    obtain ⟨_, hBelow, hApart⟩ := List.nodup_append.mp hOnce
    have hAboveNil : grep (setPattern name.text) (above.flatMap Item.lines) = [] := by
      apply grep_items_eq_nil
      intro item hItem
      apply grep_set_other hOurs (hQuiet item (List.mem_append_left _ hItem))
      intro hWritten
      exact hApart _ (written_of_mem hItem hWritten) _ List.mem_cons_self rfl
    have hBelowNil : grep (setPattern name.text) (below.flatMap Item.lines) = [] := by
      apply grep_items_eq_nil
      intro item hItem
      have hHere := hQuiet item (List.mem_append_right _ (List.mem_cons_of_mem _ hItem))
      apply grep_set_other hOurs hHere
      intro hWritten
      exact (List.nodup_cons.mp hBelow).1 (written_of_mem hItem hWritten)
    rw [grep] at hAboveNil hBelowNil ⊢
    rw [List.flatMap_append, List.flatMap_cons, List.flatMap_append, List.flatMap_append, hAboveNil,
      hBelowNil, List.nil_append, List.append_nil]
    rfl
  rw [assigned, hGrep, grep_set_self, sameLine_lines]
  have hValue := quote_not_mem_source value
  obtain hEmpty | hNonempty := eq_or_ne (Value.source value) []
  · rw [if_pos hEmpty, if_pos hEmpty]
    rfl
  · have hFilter : ('"' :: (Value.source value ++ ['"'])).filter (· != '"') = Value.source value := by
      have hKeep : (Value.source value).filter (· != '"') = Value.source value :=
        List.filter_eq_self.mpr fun c hc => by
          rw [bne_iff_ne]
          rintro rfl
          exact hValue hc
      simp [hKeep]
    rw [if_neg hNonempty, if_neg hNonempty, grep, List.flatMap_singleton,
      scan_quoted_argument (quote_not_mem_opening name) hValue hNonempty, pipeline,
      if_neg (List.cons_ne_nil _ _), List.map_singleton, hFilter,
      substitution_singleton (newline_not_mem_source value)]

/-! ## Releases -/

/-- The URLs of a release, in the order of its file. -/
def urls (dist : Dist) : List Text :=
  dist.tarballs.map (fun row => row.url.text) ++ dist.bundles.map (fun row => row.url.text) ++
    [dist.legacy.url.text]

/-- The URLs of a release are its only links. -/
structure Published (dist : Dist) : Prop where
  notes : ∀ note ∈ dist.header ++ dist.openvinoNote ++ dist.legacyNote, Quiet (.comment note)
  urls : ∀ url ∈ urls dist, OneUrl url
  versions : ':' ∉ dist.version.text ∧ ':' ∉ dist.etVersion.text ∧ ':' ∉ dist.openvinoVersion.text
  checksums : (∀ row ∈ dist.tarballs, ':' ∉ row.sha256.text) ∧
    (∀ row ∈ dist.bundles, ':' ∉ row.sha256.text) ∧ ':' ∉ dist.legacy.sha256.text

/-- `grep -oE '^openvino_version=.*' … | cut -d= -f2` -/
def manifestVersion (manifest : List Text) : Except Failure Text :=
  pipeline (manifest.filter fun line => "openvino_version=".toList.isPrefixOf line) (List.map (cut 2))

/-- `grep -oE 'openvino==[0-9][^";]*' … | head -1 | cut -d= -f3` -/
def pyprojectVersion (pyproject : List Text) : Except Failure Text :=
  pipeline (grep requirement pyproject) fun found => (found.take 1).map (cut 3)

theorem quiet_items {dist : Dist} (h : Published dist) : ∀ item ∈ dist.items, Quiet item := by
  intro item hItem
  cases item with
  | comment note =>
    apply h.notes note
    simp only [Dist.items, Dist.front, Dist.back, List.mem_append, List.mem_cons, List.mem_map,
      List.mem_flatMap, List.not_mem_nil, Tarball.items, Bundle.items, Alias.items, setting] at hItem ⊢
    simpa [or_assoc] using hItem
  | blank => trivial
  | set name gap value => trivial
  | distUrlFunction => trivial
  | openvinoUrlFunction => trivial

theorem oneUrl_of_colon {value : Text} (h : ':' ∉ value) : OneUrl value where
  scheme := fun hInfix => h (List.mem_of_mem_tail (hInfix.subset (by decide)))
  ending := fun hPrefix => absurd (hPrefix.subset (by decide)) h

theorem not_accepted_of_colon {platform value : Text} (h : ':' ∉ value) :
    (urlPattern platform).accepts value = false := by
  rw [Bool.eq_false_iff]
  intro hAccepts
  exact h ((scheme_of_accepts hAccepts).subset (by decide))

/-- The arguments of a release that are not links. -/
theorem colon_not_mem_alias (name : Name) : ':' ∉ Value.source [.ref name] := by
  rw [Value.source, List.flatMap_singleton, Piece.source]
  simp only [List.mem_append, not_or]
  exact ⟨⟨by decide, colon_not_mem_word name.toWord⟩, by decide⟩

theorem arguments_items (dist : Dist) : dist.items.filterMap argument =
    [dist.version.text, dist.etVersion.text] ++
      dist.tarballs.flatMap (fun row => [row.url.text, row.sha256.text]) ++ [dist.openvinoVersion.text] ++
      dist.bundles.flatMap (fun row => [row.url.text, row.sha256.text]) ++
      dist.aliases.flatMap (fun row => [Value.source [.ref (Kind.name .openvinoUrl (onPlatform row.target))],
        Value.source [.ref (Kind.name .openvinoSha256 (onPlatform row.target))]]) ++
      [Value.source (Value.plain dist.legacy.platform.text), dist.legacy.url.text, dist.legacy.sha256.text] := by
  have hNotes : ∀ notes : List Comment, (notes.map Item.comment).filterMap argument = [] := by
    intro notes
    rw [List.filterMap_map]
    exact List.filterMap_eq_nil_iff.mpr fun _ _ => rfl
  simp only [Dist.items, Dist.front, Dist.back, List.filterMap_append, hNotes, List.filterMap_flatMap,
    Tarball.items, Bundle.items, Alias.items, setting, argument, List.filterMap_cons, List.filterMap_nil,
    Plain.source_value, List.nil_append, List.append_assoc, List.cons_append]

theorem filter_rows {α : Type} {rows : List α} {url sha256 : α → Text} {p : Text → Bool}
    (h : ∀ row ∈ rows, p (sha256 row) = false) :
    (rows.flatMap fun row => [url row, sha256 row]).filter p = (rows.map url).filter p := by
  induction rows with
  | nil => rfl
  | cons row rows ih =>
    have hSha : p (sha256 row) = false := h row List.mem_cons_self
    have hRest := ih fun later hLater => h later (List.mem_cons_of_mem row hLater)
    rw [List.flatMap_cons, List.map_cons, List.filter_append, hRest]
    cases hUrl : p (url row) with
    | true => simp [hUrl, hSha]
    | false => simp [hUrl, hSha]

theorem colon_not_mem_legacy (dist : Dist) :
    ':' ∉ Value.source (Value.plain dist.legacy.platform.text) := by
  rw [source_plain_word]
  exact colon_not_mem_word _

theorem filter_arguments {dist : Dist} (h : Published dist) (platform : Text) :
    (dist.items.filterMap argument).filter (urlPattern platform).accepts =
      (urls dist).filter (urlPattern platform).accepts := by
  have hNone : ∀ {value : Text}, ':' ∉ value → (urlPattern platform).accepts value = false :=
    not_accepted_of_colon
  have hTarballs := @filter_rows _ dist.tarballs (fun row => row.url.text) (fun row => row.sha256.text)
    (urlPattern platform).accepts fun row hRow => hNone (h.checksums.1 row hRow)
  have hBundles := @filter_rows _ dist.bundles (fun row => row.url.text) (fun row => row.sha256.text)
    (urlPattern platform).accepts fun row hRow => hNone (h.checksums.2.1 row hRow)
  have hAliases : (dist.aliases.flatMap fun row =>
      [Value.source [.ref (Kind.name .openvinoUrl (onPlatform row.target))],
        Value.source [.ref (Kind.name .openvinoSha256 (onPlatform row.target))]]).filter
        (urlPattern platform).accepts = [] := by
    rw [List.filter_eq_nil_iff]
    intro value hValue
    obtain ⟨row, _, hRow⟩ := List.mem_flatMap.mp hValue
    obtain rfl | hRow := List.mem_cons.mp hRow
    · exact Bool.eq_false_iff.mp (hNone (colon_not_mem_alias _))
    · rw [List.mem_singleton.mp hRow]
      exact Bool.eq_false_iff.mp (hNone (colon_not_mem_alias _))
  rw [arguments_items, urls]
  simp only [List.filter_append, hTarballs, hBundles, hAliases, List.filter_cons, List.filter_nil,
    hNone h.versions.1, hNone h.versions.2.1, hNone h.versions.2.2, hNone h.checksums.2.2,
    hNone (colon_not_mem_legacy dist), Bool.false_eq_true, if_false, List.nil_append, List.append_nil]

theorem url_or_no_colon {dist : Dist} (h : Published dist) {value : Text}
    (hValue : value ∈ dist.items.filterMap argument) : value ∈ urls dist ∨ ':' ∉ value := by
  rw [arguments_items] at hValue
  simp only [List.mem_append, List.mem_cons, List.mem_flatMap, List.not_mem_nil, or_false] at hValue
  simp only [urls, List.mem_append, List.mem_map, List.mem_singleton]
  obtain ((((hVersion | hTarball) | hOpenvino) | hBundle) | hAlias) | hLegacy := hValue
  · obtain rfl | rfl := hVersion
    · exact Or.inr h.versions.1
    · exact Or.inr h.versions.2.1
  · obtain ⟨row, hRow, rfl | rfl⟩ := hTarball
    · exact Or.inl (Or.inl (Or.inl ⟨row, hRow, rfl⟩))
    · exact Or.inr (h.checksums.1 row hRow)
  · exact Or.inr (hOpenvino ▸ h.versions.2.2)
  · obtain ⟨row, hRow, rfl | rfl⟩ := hBundle
    · exact Or.inl (Or.inl (Or.inr ⟨row, hRow, rfl⟩))
    · exact Or.inr (h.checksums.2.1 row hRow)
  · obtain ⟨row, _, rfl | rfl⟩ := hAlias
    · exact Or.inr (colon_not_mem_alias _)
    · exact Or.inr (colon_not_mem_alias _)
  · obtain rfl | rfl | rfl := hLegacy
    · exact Or.inr (colon_not_mem_legacy dist)
    · exact Or.inl (Or.inr rfl)
    · exact Or.inr h.checksums.2.2

theorem oneUrl_arguments {dist : Dist} (h : Published dist) :
    ∀ item ∈ dist.items, ∀ value ∈ argument item, OneUrl value := by
  intro item hItem value hValue
  obtain hUrl | hColon := url_or_no_colon h (List.mem_filterMap.mpr ⟨item, hItem, hValue⟩)
  · exact h.urls value hUrl
  · exact oneUrl_of_colon hColon

/-- In the file of a release the search finds the URLs of the platform's tarballs. -/
theorem grep_dist {dist : Dist} (h : Published dist) {platform : Text} (hPlatform : platform ∈ platforms) :
    grep (urlPattern platform) dist.file.lines = (urls dist).filter (urlPattern platform).accepts := by
  rw [← filter_arguments h]
  exact grep_url_items hPlatform (quiet_items h) (oneUrl_arguments h)

/-! ## When the script accepts a release -/

theorem tarball_not_static :
    platforms.all (fun platform => !decide ("-static.tar.gz".toList <:+
      "logging-".toList ++ platform ++ ".tar.gz".toList) && decide ("-static.tar.gz".toList.length ≤
        ("logging-".toList ++ platform ++ ".tar.gz".toList).length)) = true := by
  decide

/-- No match is a `-static` row, whatever the file says. -/
theorem not_static_of_accepts {platform text : Text} (hPlatform : platform ∈ platforms)
    (h : (urlPattern platform).accepts text = true) : ¬ "-static.tar.gz".toList <:+ text := by
  intro hStatic
  have hRow := List.all_eq_true.mp tarball_not_static platform hPlatform
  rw [Bool.and_eq_true, Bool.not_eq_true', decide_eq_false_iff_not, decide_eq_true_eq] at hRow
  exact hRow.1 (List.suffix_of_suffix_length_le hStatic (tarball_of_accepts h) hRow.2)

theorem checkPlatform_eq_ok_iff {pin : List Text} {version platform url : Text}
    (hPlatform : platform ∈ platforms) :
    checkPlatform pin version platform = .ok url ↔
      grep (urlPattern platform) pin = [url] ∧ "/download/v".toList ++ version ++ "/".toList <:+: url := by
  constructor
  · intro h
    have hFound := checkPlatform_eq_ok h
    refine ⟨hFound, ?_⟩
    rw [checkPlatform, hFound] at h
    dsimp only [List.headD_cons, List.length_singleton] at h
    by_contra hOther
    rw [if_neg (not_not.mpr rfl), if_pos hOther] at h
    split at h
    · cases h
    · split at h <;> cases h
  · rintro ⟨hFound, hRelease⟩
    have hAccepts := accepts_of_mem_grep (hFound ▸ List.mem_singleton_self url)
    rw [checkPlatform, hFound]
    dsimp only [List.headD_cons, List.length_singleton]
    rw [if_neg (not_not.mpr rfl), if_neg (not_not.mpr (tarball_of_accepts hAccepts)),
      if_neg (not_static_of_accepts hPlatform hAccepts), if_neg (not_not.mpr hRelease)]

theorem requireText_eq_ok_iff {failure : Failure} {text : Text} {done : Unit} :
    requireText failure text = .ok done ↔ text ≠ [] := by
  rw [requireText]
  split
  · rename_i hEmpty
    simp [hEmpty]
  · rename_i hNonempty
    simp [hNonempty]

theorem checkOpenvino_eq_ok_iff {pin manifest pyproject : List Text} {version : Text} :
    checkOpenvino pin manifest pyproject = .ok version ↔
      version ≠ [] ∧ assigned "ET_RUNTIME_OPENVINO_VERSION".toList pin = .ok version ∧
        manifestVersion manifest = .ok version ∧ pyprojectVersion pyproject = .ok version := by
  constructor
  · intro h
    obtain ⟨ovPin, hPin, h⟩ := bind_eq_ok_iff.mp h
    obtain ⟨ovManifest, hManifest, h⟩ := bind_eq_ok_iff.mp h
    obtain ⟨ovPyproject, hPyproject, h⟩ := bind_eq_ok_iff.mp h
    obtain ⟨_, hNonempty, h⟩ := bind_eq_ok_iff.mp h
    obtain ⟨_, _, h⟩ := bind_eq_ok_iff.mp h
    obtain ⟨_, _, h⟩ := bind_eq_ok_iff.mp h
    split at h
    · rename_i hAgree
      cases h
      exact ⟨requireText_eq_ok_iff.mp hNonempty, hPin, hAgree.1 ▸ hManifest, hAgree.2 ▸ hPyproject⟩
    · cases h
  · rintro ⟨hNonempty, hPin, hManifest, hPyproject⟩
    refine bind_eq_ok_iff.mpr ⟨version, hPin, ?_⟩
    refine bind_eq_ok_iff.mpr ⟨version, hManifest, ?_⟩
    refine bind_eq_ok_iff.mpr ⟨version, hPyproject, ?_⟩
    refine bind_eq_ok_iff.mpr ⟨(), requireText_eq_ok_iff.mpr hNonempty, ?_⟩
    refine bind_eq_ok_iff.mpr ⟨(), requireText_eq_ok_iff.mpr hNonempty, ?_⟩
    refine bind_eq_ok_iff.mpr ⟨(), requireText_eq_ok_iff.mpr hNonempty, ?_⟩
    rw [if_pos ⟨rfl, rfl⟩]
    rfl

theorem assigned_dist {dist : Dist} (h : Published dist) {kind : Kind} {value : Plain}
    (hMem : setting kind noKey .sameLine value.value ∈ dist.items) :
    assigned kind.head dist.file.lines = if value.text = [] then .error .pipeline else .ok value.text := by
  have hOurs : "ET".toList <+: (kind.name noKey).text := by
    cases kind <;> decide
  have hAssigned := assigned_items dist.written_once (quiet_items h) hOurs hMem
  have hName : (kind.name noKey).text = kind.head := List.append_nil _
  rwa [hName, value.source_value] at hAssigned

theorem assigned_version {dist : Dist} (h : Published dist) :
    assigned "ET_RUNTIME_VERSION".toList dist.file.lines =
      if dist.version.text = [] then .error .pipeline else .ok dist.version.text :=
  @assigned_dist dist h .version dist.version (Dist.mem_items_of_front (by simp [Dist.front]))

theorem assigned_openvinoVersion {dist : Dist} (h : Published dist) :
    assigned "ET_RUNTIME_OPENVINO_VERSION".toList dist.file.lines =
      if dist.openvinoVersion.text = [] then .error .pipeline else .ok dist.openvinoVersion.text :=
  @assigned_dist dist h .openvinoVersion dist.openvinoVersion
    (Dist.mem_items_of_front (by simp [Dist.front]))

theorem checkPinRows_eq_ok_iff {pin manifest pyproject : List Text} {report : Report} :
    checkPinRows pin manifest pyproject = .ok report ↔
      assigned "ET_RUNTIME_VERSION".toList pin = .ok report.version ∧ report.version ≠ [] ∧
        traverseFrom (fun _ platform => checkPlatform pin report.version platform) 0 platforms =
          .ok report.urls ∧
        checkOpenvino pin manifest pyproject = .ok report.openvino := by
  rw [checkPinRows]
  constructor
  · intro h
    obtain ⟨version, hVersion, h⟩ := bind_eq_ok_iff.mp h
    obtain ⟨_, hNonempty, h⟩ := bind_eq_ok_iff.mp h
    obtain ⟨urls, hUrls, h⟩ := bind_eq_ok_iff.mp h
    obtain ⟨openvino, hOpenvino, h⟩ := bind_eq_ok_iff.mp h
    cases h
    exact ⟨hVersion, requireText_eq_ok_iff.mp hNonempty, hUrls, hOpenvino⟩
  · rintro ⟨hVersion, hNonempty, hUrls, hOpenvino⟩
    refine bind_eq_ok_iff.mpr ⟨report.version, hVersion, ?_⟩
    refine bind_eq_ok_iff.mpr ⟨(), requireText_eq_ok_iff.mpr hNonempty, ?_⟩
    refine bind_eq_ok_iff.mpr ⟨report.urls, hUrls, ?_⟩
    exact bind_eq_ok_iff.mpr ⟨report.openvino, hOpenvino, rfl⟩

theorem ok_of_nonempty {text value : Text} (h : (if text = [] then Except.error Failure.pipeline else .ok text) =
    .ok value) : text = value ∧ text ≠ [] := by
  split at h
  · cases h
  · rename_i hNonempty
    exact ⟨Except.ok.inj h, hNonempty⟩

theorem accepted_of_rows {dist : Dist} (h : Published dist) {manifest pyproject : List Text}
    (hVersionSome : dist.version.text ≠ []) (hOpenvinoSome : dist.openvinoVersion.text ≠ [])
    (hRows : ∀ platform ∈ platforms, ∃ url, (urls dist).filter (urlPattern platform).accepts = [url] ∧
      "/download/v".toList ++ dist.version.text ++ "/".toList <:+: url)
    (hManifest : manifestVersion manifest = .ok dist.openvinoVersion.text)
    (hPyproject : pyprojectVersion pyproject = .ok dist.openvinoVersion.text) :
    ∃ report, checkPinRows dist.file.lines manifest pyproject = .ok report := by
  have hVersion := assigned_version h
  have hOpenvino := assigned_openvinoVersion h
  rw [if_neg hVersionSome] at hVersion
  rw [if_neg hOpenvinoSome] at hOpenvino
  have hAll : ∀ k : Nat, ∀ platform ∈ platforms, ∃ url,
      (fun (_ : Nat) platform => checkPlatform dist.file.lines dist.version.text platform) k platform =
        .ok url := by
    intro _ platform hPlatform
    obtain ⟨url, hUrl, hRelease⟩ := hRows platform hPlatform
    exact ⟨url, (checkPlatform_eq_ok_iff hPlatform).mpr ⟨(grep_dist h hPlatform).trans hUrl, hRelease⟩⟩
  obtain ⟨found, hFound⟩ := @traverse_ok_of_forall _ _ _ _ 0 _ hAll
  exact ⟨⟨dist.version.text, found, dist.openvinoVersion.text⟩, checkPinRows_eq_ok_iff.mpr
    ⟨hVersion, hVersionSome, hFound, checkOpenvino_eq_ok_iff.mpr
      ⟨hOpenvinoSome, hOpenvino, hManifest, hPyproject⟩⟩⟩

/-- The script accepts a published release when the release has, for each platform, exactly one tarball
that the build could mean, and when the three files name one OpenVINO version. -/
theorem release_accepted_iff {dist : Dist} (h : Published dist) (manifest pyproject : List Text) :
    (∃ report, checkPinRows dist.file.lines manifest pyproject = .ok report) ↔
      dist.version.text ≠ [] ∧ dist.openvinoVersion.text ≠ [] ∧
        (∀ platform ∈ platforms, ∃ url, (urls dist).filter (urlPattern platform).accepts = [url] ∧
          "/download/v".toList ++ dist.version.text ++ "/".toList <:+: url) ∧
        manifestVersion manifest = .ok dist.openvinoVersion.text ∧
        pyprojectVersion pyproject = .ok dist.openvinoVersion.text := by
  have hVersion := assigned_version h
  have hOpenvino := assigned_openvinoVersion h
  constructor
  · rintro ⟨report, hReport⟩
    obtain ⟨hRead, _, hUrls, hAgree⟩ := checkPinRows_eq_ok_iff.mp hReport
    obtain ⟨_, hPin, hManifest, hPyproject⟩ := checkOpenvino_eq_ok_iff.mp hAgree
    rw [hVersion] at hRead
    rw [hOpenvino] at hPin
    obtain ⟨hVersionIs, hVersionSome⟩ := ok_of_nonempty hRead
    obtain ⟨hOpenvinoIs, hOpenvinoSome⟩ := ok_of_nonempty hPin
    rw [hOpenvinoIs]
    refine ⟨hVersionSome, hOpenvinoIs ▸ hOpenvinoSome, ?_, hManifest, hPyproject⟩
    intro platform hPlatform
    obtain ⟨k, hk⟩ := List.mem_iff_getElem?.mp hPlatform
    obtain ⟨url, _, hUrl⟩ := (traverse_eq_ok_iff.mp hUrls).2 k platform hk
    rw [← hVersionIs] at hUrl
    obtain ⟨hFound, hRelease⟩ := (checkPlatform_eq_ok_iff hPlatform).mp hUrl
    exact ⟨url, (grep_dist h hPlatform).symm.trans hFound, hRelease⟩
  · rintro ⟨hVersionSome, hOpenvinoSome, hRows, hManifest, hPyproject⟩
    exact accepted_of_rows h hVersionSome hOpenvinoSome hRows hManifest hPyproject

/-- Every tarball is named after its variant and platform. -/
def Named (dist : Dist) : Prop :=
  ∀ row ∈ dist.tarballs, ∃ location, row.url.text = "https://".toList ++ location ++
    (row.variant.text ++ "-".toList ++ row.platform.text ++ ".tar.gz".toList)

theorem accepts_row {dist : Dist} (hNamed : Named dist) {row : Tarball} {platform : Text}
    (hRow : dist.tarball "logging".toList platform = some row) :
    row ∈ dist.tarballs ∧ (urlPattern platform).accepts row.url.text = true := by
  have hMem : row ∈ dist.tarballs := List.mem_of_find?_eq_some hRow
  have hAsked := List.find?_some hRow
  rw [Bool.and_eq_true, decide_eq_true_eq, decide_eq_true_eq] at hAsked
  obtain ⟨location, hUrl⟩ := hNamed row hMem
  rw [hAsked.1, hAsked.2] at hUrl
  refine ⟨hMem, Pattern.accepts_iff.mpr ⟨location, hUrl, noQuote_iff.mpr fun c hc hQuote => ?_⟩⟩
  have hInUrl : c ∈ row.url.text := by
    rw [hUrl]
    exact List.mem_append_left _ (List.mem_append_right _ hc)
  have hChar := List.all_eq_true.mp row.url.chars c hInUrl
  rw [hQuote] at hChar
  exact absurd hChar (by decide)

/-- From an accepted release the build fetches what CI verifies, on every platform that has a row. On
the others it fetches what its includer set, if that is what CI found. -/
theorem accepted_release_fetches {dist : Dist} (h : Published dist) (hNamed : Named dist)
    {manifest pyproject : List Text} {report : Report}
    (hAccepted : checkPinRows dist.file.lines manifest pyproject = .ok report)
    (vars : Text → Option Text) :
    VerifiesFetched vars dist.file ↔ ∀ platform ∈ platforms,
      (dist.tarball "logging".toList platform).isSome = true ∨
        vars (urlVariable "logging".toList platform) = scrapeUrl platform dist.file.lines := by
  apply forall₂_congr
  intro platform hPlatform
  obtain ⟨found, hFound⟩ := exists_url_of_checkPinRows hAccepted hPlatform
  have hTable := @Dist.etRuntimeDistUrl_items dist vars false "logging".toList (by decide) platform
  have hFetch : etRuntimeDistUrl (evalItems ⟨vars, false⟩ dist.file.items) "logging".toList platform =
    _ := hTable
  rw [scrapeUrl_of_grep hFound, hFetch]
  cases hRow : dist.tarball "logging".toList platform with
  | some row =>
    obtain ⟨hMem, hAccepts⟩ := accepts_row hNamed hRow
    have hUrl : row.url.text ∈ (urls dist).filter (urlPattern platform).accepts := by
      refine List.mem_filter.mpr ⟨?_, hAccepts⟩
      exact List.mem_append_left _ (List.mem_append_left _ (List.mem_map.mpr ⟨row, hMem, rfl⟩))
    rw [← grep_dist h hPlatform, hFound, List.mem_singleton] at hUrl
    refine iff_of_true ⟨_, _, rfl, ?_⟩ (Or.inl rfl)
    rw [hUrl]
  | none =>
    rw [Option.elim_none]
    constructor
    · rintro ⟨url, sha, hFetched, hScraped⟩
      exact Or.inr (((etRuntimeDistUrl_eq_ok_iff rfl).mp hFetched).1.trans hScraped.symm)
    · intro hEither
      obtain hSome | hGiven := hEither
      · cases hSome
      · exact ⟨found, _, (etRuntimeDistUrl_eq_ok_iff rfl).mpr ⟨hGiven, rfl⟩, rfl⟩

theorem smallDist_published : Published smallDist where
  notes := by
    intro note hNote
    rw [List.mem_singleton.mp hNote]
    exact ⟨by decide, by decide⟩
  urls := by
    have hUrls : (urls smallDist).all (fun url => decide (OneUrl url)) = true := by decide +kernel
    exact fun url hUrl => of_decide_eq_true (List.all_eq_true.mp hUrls url hUrl)
  versions := by decide
  checksums := by
    have hRows : smallDist.tarballs.all (fun row => !decide (':' ∈ row.sha256.text)) = true := by decide
    refine ⟨fun row hRow => ?_, fun row hRow => ?_, by decide⟩
    · simpa using List.all_eq_true.mp hRows row hRow
    · rw [List.mem_singleton.mp hRow]
      decide

theorem smallDist_named : Named smallDist := by
  intro row hRow
  refine ⟨"h/download/v1/".toList, ?_⟩
  have hAll : smallDist.tarballs.all (fun row => row.url.text = "https://".toList ++
      "h/download/v1/".toList ++ (row.variant.text ++ "-".toList ++ row.platform.text ++
        ".tar.gz".toList)) = true := by
    decide +kernel
  exact of_decide_eq_true (List.all_eq_true.mp hAll row hRow)

theorem smallDist_rows : ∀ platform ∈ platforms, ∃ url,
    (urls smallDist).filter (urlPattern platform).accepts = [url] ∧
      "/download/v".toList ++ smallDist.version.text ++ "/".toList <:+: url := by
  have hRows : platforms.all (fun platform => ((urls smallDist).filter (urlPattern platform).accepts).length = 1 &&
      ((urls smallDist).filter (urlPattern platform).accepts).all fun url =>
        decide ("/download/v".toList ++ smallDist.version.text ++ "/".toList <:+: url)) = true := by
    decide +kernel
  intro platform hPlatform
  have hRow := List.all_eq_true.mp hRows platform hPlatform
  rw [Bool.and_eq_true, decide_eq_true_eq, List.length_eq_one_iff] at hRow
  obtain ⟨⟨url, hUrl⟩, hRelease⟩ := hRow
  refine ⟨url, hUrl, of_decide_eq_true (List.all_eq_true.mp hRelease url ?_)⟩
  rw [hUrl]
  exact List.mem_singleton_self url

theorem openvinoFiles_agree :
    manifestVersion openvinoManifest = .ok smallDist.openvinoVersion.text ∧
      pyprojectVersion openvinoRequirement = .ok smallDist.openvinoVersion.text := by
  decide +kernel

theorem smallDist_accepted : ∃ report,
    checkPinRows smallDist.file.lines openvinoManifest openvinoRequirement = .ok report := by
  refine (release_accepted_iff smallDist_published _ _).mpr ⟨?_, ?_, smallDist_rows, openvinoFiles_agree⟩
  · decide
  · decide

theorem smallDist_fetches : VerifiesFetched (fun _ => none) smallDist.file := by
  obtain ⟨report, hReport⟩ := accepted_of_rows smallDist_published (by decide) (by decide)
    smallDist_rows openvinoFiles_agree.1 openvinoFiles_agree.2
  refine (accepted_release_fetches smallDist_published smallDist_named hReport _).mpr ?_
  have hRows : platforms.all (fun platform =>
      (smallDist.tarball "logging".toList platform).isSome) = true := by
    decide +kernel
  exact fun platform hPlatform => Or.inl (List.all_eq_true.mp hRows platform hPlatform)

end PinRows

end ExecutorchNumpy
