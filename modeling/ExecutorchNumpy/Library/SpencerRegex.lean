import Mathlib.Data.List.Basic
import Mathlib.Data.List.Infix

/-! # Regular expressions in the style of Henry Spencer

The engine that CMake uses: a compiler that goes through the expression once,
a backtracking matcher that prefers longer repetitions and earlier branches,
and a search for all matches that do not overlap.
-/

namespace SpencerRegex
set_option autoImplicit false

abbrev Text := List Char

inductive Regex where
  | nothing
  | char (c : Char)
  | any
  | set (negated : Bool) (members : List Char)
  | bol
  | eol
  | seq (first second : Regex)
  | alt (first second : Regex)
  | star (body : Regex)
  | plus (body : Regex)
  | opt (body : Regex)
  deriving DecidableEq, Repr

/-! ## Compilation -/

/-- One open group. `atom` is the piece that a quantifier would bind to; the flags tell whether a
regex always consumes something. -/
structure Frame where
  earlier : Option (Regex × Bool) := none
  branch : Regex := .nothing
  width : Bool := false
  atom : Option (Regex × Bool) := none
  deriving DecidableEq, Repr

def Frame.flush (f : Frame) : Frame :=
  match f.atom with
  | none => f
  | some (r, width) => { f with branch := .seq f.branch r, width := f.width || width, atom := none }

def Frame.push (f : Frame) (r : Regex) (width : Bool) : Frame := { f.flush with atom := some (r, width) }

def Frame.close (f : Frame) : Regex × Bool :=
  match f.earlier with
  | none => (f.flush.branch, f.flush.width)
  | some (r, width) => (.alt r f.flush.branch, width && f.flush.width)

/-- A quantifier binds to one atom, which must consume something unless it is `?`. -/
def Frame.quantify (f : Frame) (c : Char) : Option Frame :=
  match f.atom with
  | none => none
  | some (r, width) =>
    if c = '?' then some { f with branch := .seq f.branch (.opt r), atom := none }
    else if width = false then none
    else if c = '+' then some { f with branch := .seq f.branch (.plus r), width := true, atom := none }
    else some { f with branch := .seq f.branch (.star r), atom := none }

/-- Inside square brackets `last` is the character before, where a range may start. -/
inductive Mode where
  | plain
  | escape
  | setOpen
  | setFirst (negated : Bool)
  | inSet (negated : Bool) (members : List Char) (last : Char)
  | setRange (negated : Bool) (members : List Char) (last : Char)
  deriving DecidableEq, Repr

structure State where
  mode : Mode
  frame : Frame
  outer : List Frame
  groups : Nat
  deriving DecidableEq, Repr

def State.push (st : State) (r : Regex) (width : Bool) : State :=
  { st with mode := .plain, frame := st.frame.push r width }

def charRange (last c : Char) : List Char :=
  (List.range (c.toNat - last.toNat)).map fun k => Char.ofNat (last.toNat + 1 + k)

def stepSet (st : State) (negated : Bool) (members : List Char) (last : Char) (c : Char) : State :=
  if c = ']' then st.push (.set negated members) true
  else if c = '-' then { st with mode := .setRange negated members last }
  else { st with mode := .inSet negated (members ++ [c]) c }

def stepPlain (st : State) (c : Char) : Option State :=
  if c = '^' then some (st.push .bol false)
  else if c = '$' then some (st.push .eol false)
  else if c = '.' then some (st.push .any true)
  else if c = '[' then some { st with mode := .setOpen }
  else if c = '(' then
    if st.groups ≥ 9 then none
    else some { st with frame := {}, outer := st.frame :: st.outer, groups := st.groups + 1 }
  else if c = ')' then
    match st.outer with
    | [] => none
    | f :: outer => some { st with frame := f.push st.frame.close.1 st.frame.close.2, outer := outer }
  else if c = '|' then some { st with frame := { earlier := some st.frame.close } }
  else if c = '?' ∨ c = '+' ∨ c = '*' then
    (st.frame.quantify c).map fun f => { st with frame := f }
  else if c = '\\' then some { st with mode := .escape }
  else some (st.push (.char c) true)

def step (st : State) (c : Char) : Option State :=
  match st.mode with
  | .plain => stepPlain st c
  | .escape => some (st.push (.char c) true)
  | .setOpen =>
    if c = '^' then some { st with mode := .setFirst true }
    else some { st with mode := .inSet false [c] c }
  | .setFirst negated => some { st with mode := .inSet negated [c] c }
  | .inSet negated members last => some (stepSet st negated members last c)
  | .setRange negated members last =>
    if c = ']' then some (st.push (.set negated (members ++ ['-'])) true)
    else if c < last then none
    else some { st with mode := .inSet negated (members ++ charRange last c) c }

def start : State := ⟨.plain, {}, [], 0⟩

def finish (st : State) : Option Regex :=
  if st.mode = .plain ∧ st.outer = [] then some st.frame.close.1 else none

def run : State → Text → Option State
  | st, [] => some st
  | st, c :: text => (step st c).bind fun st => run st text

def compile (text : Text) : Option Regex := (run start text).bind finish

/-! ## Matching -/

/-- What is left of the text, and whether the match could still stand at its start. -/
structure Place where
  atStart : Bool
  rest : Text
  deriving DecidableEq, Repr

def repeatEnds (ends : Place → List Place) : Nat → Place → List Place
  | 0, p => [p]
  | n + 1, p => (ends p).flatMap (repeatEnds ends n) ++ [p]

def oneChar (accepts : Char → Bool) (p : Place) : List Place :=
  match p.rest with
  | [] => []
  | c :: rest => if accepts c then [⟨false, rest⟩] else []

/-- The places where a match from here can end, in the order in which they are tried. -/
def Regex.ends : Regex → Place → List Place
  | .nothing, p => [p]
  | .char c, p => oneChar (· == c) p
  | .any, p => oneChar (fun _ => true) p
  | .set negated members, p => oneChar (fun c => (members.contains c) != negated) p
  | .bol, p => if p.atStart then [p] else []
  | .eol, p => if p.rest = [] then [p] else []
  | .seq first second, p => (first.ends p).flatMap second.ends
  | .alt first second, p => first.ends p ++ second.ends p
  | .star body, p => repeatEnds body.ends p.rest.length p
  | .plus body, p => (body.ends p).flatMap fun q => repeatEnds body.ends q.rest.length q
  | .opt body, p => body.ends p ++ [p]

/-- The first match: the text from its place on, and what is left behind it. -/
def find (r : Regex) : Bool → Text → Option (Text × Text)
  | atStart, [] => (r.ends ⟨atStart, []⟩).head?.map fun p => ([], p.rest)
  | atStart, c :: rest =>
    match (r.ends ⟨atStart, c :: rest⟩).head? with
    | some p => some (c :: rest, p.rest)
    | none => find r false rest

/-- The search starts afresh behind each match; an empty match is an error. -/
def matchAllFrom (r : Regex) : Nat → Text → Option (List Text)
  | 0, _ => some []
  | fuel + 1, text =>
    match find r true text with
    | none => some []
    | some (found, rest) =>
      let matched := found.take (found.length - rest.length)
      if matched = [] then none else (matchAllFrom r fuel rest).map (matched :: ·)

/-- Each match consumes something, so the length of the text bounds their number. -/
def matchAll (r : Regex) (text : Text) : Option (List Text) := matchAllFrom r (text.length + 1) text

/-- A text is matched when some place in it is, at the start or behind it. -/
theorem find_isSome_iff (r : Regex) (atStart : Bool) (text : Text) :
    (find r atStart text).isSome = true ↔ ∃ before rest, text = before ++ rest ∧
      r.ends ⟨atStart && before.isEmpty, rest⟩ ≠ [] := by
  induction text generalizing atStart with
  | nil =>
    rw [find, Option.isSome_map]
    constructor
    · intro h
      refine ⟨[], [], rfl, fun hNil => ?_⟩
      rw [List.isEmpty_nil, Bool.and_true] at hNil
      rw [hNil] at h
      cases h
    · rintro ⟨before, rest, hText, hEnds⟩
      obtain ⟨rfl, rfl⟩ := List.append_eq_nil_iff.mp hText.symm
      rw [List.isEmpty_nil, Bool.and_true] at hEnds
      rwa [List.isSome_head?]
  | cons c text ih =>
    rw [find]
    cases hHere : (r.ends ⟨atStart, c :: text⟩).head? with
    | some p =>
      refine iff_of_true rfl ⟨[], c :: text, rfl, fun hNil => ?_⟩
      rw [List.isEmpty_nil, Bool.and_true] at hNil
      rw [hNil] at hHere
      cases hHere
    | none =>
      have hNone := List.head?_eq_none_iff.mp hHere
      refine (ih false).trans ⟨?_, ?_⟩
      · rintro ⟨before, rest, rfl, hEnds⟩
        refine ⟨c :: before, rest, rfl, ?_⟩
        rwa [List.isEmpty_cons, Bool.and_false]
      · rintro ⟨before, rest, hText, hEnds⟩
        cases before with
        | nil =>
          rw [List.nil_append] at hText
          rw [← hText, List.isEmpty_nil, Bool.and_true] at hEnds
          exact absurd hNone hEnds
        | cons d before =>
          obtain ⟨rfl, rfl⟩ := List.cons.inj hText
          exact ⟨before, rest, rfl, by rwa [List.isEmpty_cons, Bool.and_false] at hEnds⟩

theorem ne_nil_of_mem_matchAllFrom {r : Regex} {fuel : Nat} {text : Text} {found : List Text}
    (h : matchAllFrom r fuel text = some found) : ∀ m ∈ found, m ≠ [] := by
  induction fuel generalizing text found with
  | zero =>
    cases h
    simp
  | succ fuel ih =>
    rw [matchAllFrom] at h
    split at h
    · cases h
      simp
    · dsimp only at h
      split at h
      · cases h
      · rename_i hMatched
        obtain ⟨more, hMore, rfl⟩ := Option.map_eq_some_iff.mp h
        intro m hm
        rcases List.mem_cons.mp hm with rfl | hm
        · exact hMatched
        · exact ih hMore m hm

/-! ## What an expression describes -/

/-- Several words in a row, each described where the one before it ends. -/
inductive Repeats (describes : Bool → Text → Text → Prop) : Bool → Text → Text → Prop where
  | none (atStart : Bool) (after : Text) : Repeats describes atStart [] after
  | more {atStart : Bool} {first rest after : Text} (hFirst : describes atStart first (rest ++ after))
      (hRest : Repeats describes (atStart && first.isEmpty) rest after) :
      Repeats describes atStart (first ++ rest) after

/-- The words of an expression. The anchors also look at where the word starts and at what is
behind it. -/
def Regex.Describes : Regex → Bool → Text → Text → Prop
  | .nothing, _, word, _ => word = []
  | .char c, _, word, _ => word = [c]
  | .any, _, word, _ => ∃ c, word = [c]
  | .set negated members, _, word, _ => ∃ c, word = [c] ∧ (c ∈ members ↔ negated = false)
  | .bol, atStart, word, _ => word = [] ∧ atStart = true
  | .eol, _, word, after => word = [] ∧ after = []
  | .seq first second, atStart, word, after => ∃ front back, word = front ++ back ∧
      first.Describes atStart front (back ++ after) ∧
        second.Describes (atStart && front.isEmpty) back after
  | .alt first second, atStart, word, after =>
      first.Describes atStart word after ∨ second.Describes atStart word after
  | .star body, atStart, word, after => Repeats body.Describes atStart word after
  | .plus body, atStart, word, after => ∃ front back, word = front ++ back ∧
      body.Describes atStart front (back ++ after) ∧
        Repeats body.Describes (atStart && front.isEmpty) back after
  | .opt body, atStart, word, after => body.Describes atStart word after ∨ word = []

/-- From `p` to `q` over a word that is described there. -/
def Spans (describes : Bool → Text → Text → Prop) (p q : Place) : Prop :=
  ∃ word, p.rest = word ++ q.rest ∧ q.atStart = (p.atStart && word.isEmpty) ∧
    describes p.atStart word q.rest

theorem spans_empty_iff {describes : Bool → Text → Text → Prop} {p q : Place}
    (h : ∀ atStart word after, describes atStart word after → word = []) :
    Spans describes p q ↔ q = p ∧ describes p.atStart [] p.rest := by
  constructor
  · rintro ⟨word, hRest, hStart, hWord⟩
    have hNil : word = [] := h _ _ _ hWord
    subst hNil
    have hEq : q = p := by
      obtain ⟨atStart, rest⟩ := p
      obtain ⟨atStart', rest'⟩ := q
      simp_all
    subst hEq
    exact ⟨rfl, hWord⟩
  · rintro ⟨rfl, hWord⟩
    exact ⟨[], rfl, by simp, hWord⟩

theorem mem_oneChar_iff {accepts : Char → Bool} {p q : Place} :
    q ∈ oneChar accepts p ↔ Spans (fun _ word _ => ∃ c, word = [c] ∧ accepts c = true) p q := by
  obtain ⟨atStart, rest⟩ := p
  obtain ⟨atStart', rest'⟩ := q
  cases rest with
  | nil => simp [oneChar, Spans]
  | cons c rest =>
    dsimp only [oneChar]
    constructor
    · intro h
      split at h
      · rename_i hAccepts
        obtain ⟨rfl, rfl⟩ := Place.mk.inj (List.mem_singleton.mp h)
        exact ⟨[c], rfl, by simp, c, rfl, hAccepts⟩
      · cases h
    · rintro ⟨word, hRest, hStart, d, rfl, hAccepts⟩
      obtain ⟨rfl, rfl⟩ := List.cons.inj hRest
      have hFalse : atStart' = false := by simpa using hStart
      rw [if_pos hAccepts, hFalse]
      exact List.mem_singleton_self _

theorem isEmpty_append (front back : Text) :
    (front ++ back).isEmpty = (front.isEmpty && back.isEmpty) := by
  cases front <;> rfl

theorem spans_seq_iff {first second : Bool → Text → Text → Prop} {p q : Place} :
    (∃ middle, Spans first p middle ∧ Spans second middle q) ↔
      Spans (fun atStart word after => ∃ front back, word = front ++ back ∧
        first atStart front (back ++ after) ∧ second (atStart && front.isEmpty) back after) p q := by
  constructor
  · rintro ⟨middle, ⟨front, hFront, hMiddle, hFirst⟩, back, hBack, hEnd, hSecond⟩
    rw [hBack] at hFront hFirst
    rw [hMiddle] at hSecond hEnd
    refine ⟨front ++ back, ?_, ?_, front, back, rfl, hFirst, hSecond⟩
    · rw [hFront, List.append_assoc]
    · rw [hEnd, Bool.and_assoc, isEmpty_append]
  · rintro ⟨word, hRest, hEnd, front, back, rfl, hFirst, hSecond⟩
    refine ⟨⟨p.atStart && front.isEmpty, back ++ q.rest⟩, ?_, ?_⟩
    · exact ⟨front, by rw [hRest, List.append_assoc], rfl, hFirst⟩
    · refine ⟨back, rfl, ?_, hSecond⟩
      rw [hEnd, isEmpty_append, ← Bool.and_assoc]

/-- The fuel is enough, because repetitions that consume nothing can be left out. -/
theorem mem_repeatEnds {ends : Place → List Place} {describes : Bool → Text → Text → Prop}
    (h : ∀ p q, q ∈ ends p ↔ Spans describes p q) {fuel : Nat} {p : Place}
    (hFuel : p.rest.length ≤ fuel) (q : Place) :
    q ∈ repeatEnds ends fuel p ↔ Spans (Repeats describes) p q := by
  constructor
  · clear hFuel
    intro hMem
    induction fuel generalizing p with
    | zero =>
      rw [repeatEnds, List.mem_singleton] at hMem
      subst hMem
      exact ⟨[], rfl, by simp, Repeats.none _ _⟩
    | succ fuel ih =>
      rw [repeatEnds, List.mem_append, List.mem_flatMap, List.mem_singleton] at hMem
      rcases hMem with ⟨middle, hFirst, hMore⟩ | rfl
      · obtain ⟨word, hRest, hEnd, front, back, rfl, hFront, hBack⟩ :=
          spans_seq_iff.mp ⟨middle, (h p middle).mp hFirst, ih hMore⟩
        exact ⟨front ++ back, hRest, hEnd, Repeats.more hFront hBack⟩
      · exact ⟨[], rfl, by simp, Repeats.none _ _⟩
  · rintro ⟨word, hRest, hEnd, hRepeats⟩
    obtain ⟨atStart, rest⟩ := p
    obtain ⟨atStart', after⟩ := q
    dsimp only at hRest hEnd hRepeats hFuel
    subst hRest hEnd
    induction hRepeats generalizing fuel with
    | none atStart after =>
      rw [List.isEmpty_nil, Bool.and_true, List.nil_append]
      cases fuel with
      | zero => exact List.mem_singleton_self _
      | succ fuel => exact List.mem_append_right _ (List.mem_singleton_self _)
    | @more atStart first rest after hFirst _ ih =>
      cases first with
      | nil =>
        rw [List.isEmpty_nil, Bool.and_true] at ih
        exact ih hFuel
      | cons c first =>
        have hLess : (rest ++ after).length < fuel := by
          simp only [List.length_append, List.length_cons] at hFuel ⊢
          omega
        obtain ⟨fuel, rfl⟩ := Nat.exists_eq_succ_of_ne_zero (Nat.ne_of_gt (Nat.zero_lt_of_lt hLess))
        rw [repeatEnds, List.mem_append, List.mem_flatMap]
        refine Or.inl ⟨⟨false, rest ++ after⟩, ?_, ?_⟩
        · rw [h]
          exact ⟨c :: first, List.append_assoc _ _ _, by simp, hFirst⟩
        · have hMore := ih (Nat.le_of_lt_succ hLess)
          simpa using hMore

/-- The matcher ends exactly where a word of the expression does. -/
theorem mem_ends_iff (r : Regex) (p q : Place) : q ∈ r.ends p ↔ Spans r.Describes p q := by
  induction r generalizing p q with
  | nothing =>
    rw [Regex.ends, List.mem_singleton]
    exact ((spans_empty_iff fun _ _ _ h => h).trans (and_iff_left rfl)).symm
  | char c =>
    rw [Regex.ends, mem_oneChar_iff]
    simp [Spans, Regex.Describes]
  | any =>
    rw [Regex.ends, mem_oneChar_iff]
    simp [Spans, Regex.Describes]
  | set negated members =>
    rw [Regex.ends, mem_oneChar_iff]
    cases negated <;> simp [Spans, Regex.Describes]
  | bol =>
    refine Iff.trans ?_ (spans_empty_iff fun _ _ _ h => h.1).symm
    rw [Regex.ends]
    split <;> simp_all [Regex.Describes]
  | eol =>
    refine Iff.trans ?_ (spans_empty_iff fun _ _ _ h => h.1).symm
    rw [Regex.ends]
    split <;> simp_all [Regex.Describes]
  | seq first second ihFirst ihSecond =>
    rw [Regex.ends, List.mem_flatMap]
    simp only [ihFirst, ihSecond]
    exact spans_seq_iff
  | alt first second ihFirst ihSecond =>
    rw [Regex.ends, List.mem_append, ihFirst, ihSecond]
    simp only [Spans, Regex.Describes, and_or_left, exists_or]
  | star body ih =>
    rw [Regex.ends]
    exact mem_repeatEnds ih (Nat.le_refl _) q
  | plus body ih =>
    rw [Regex.ends, List.mem_flatMap]
    simp only [ih, mem_repeatEnds ih (Nat.le_refl _)]
    exact spans_seq_iff
  | opt body ih =>
    rw [Regex.ends, List.mem_append, ih, List.mem_singleton]
    have hSkip : q = p ↔ Spans (fun _ word _ => word = []) p q := by
      rw [spans_empty_iff fun _ _ _ h => h]
      exact (and_iff_left rfl).symm
    rw [hSkip]
    simp only [Spans, Regex.Describes, and_or_left, exists_or]

/-- Some part of the text is a word of the expression. -/
def Regex.StandsIn (r : Regex) (text : Text) : Prop :=
  ∃ before word after, text = before ++ (word ++ after) ∧ r.Describes before.isEmpty word after

theorem find_isSome_iff_standsIn (r : Regex) (text : Text) :
    (find r true text).isSome = true ↔ r.StandsIn text := by
  rw [find_isSome_iff]
  constructor
  · rintro ⟨before, rest, rfl, hEnds⟩
    obtain ⟨q, hMem⟩ := List.exists_mem_of_ne_nil _ hEnds
    obtain ⟨word, rfl, _, hWord⟩ := (mem_ends_iff r _ q).mp hMem
    exact ⟨before, word, q.rest, rfl, hWord⟩
  · rintro ⟨before, word, after, rfl, hWord⟩
    refine ⟨before, word ++ after, rfl, ?_⟩
    apply List.ne_nil_of_mem
    exact (mem_ends_iff r ⟨true && before.isEmpty, word ++ after⟩
      ⟨(true && before.isEmpty) && word.isEmpty, after⟩).mpr ⟨word, rfl, rfl, hWord⟩

theorem matchAll_ne_nil_iff {r : Regex} {text : Text} {found : List Text}
    (h : matchAll r text = some found) : found ≠ [] ↔ r.StandsIn text := by
  rw [← find_isSome_iff_standsIn]
  rw [matchAll, matchAllFrom] at h
  cases hFind : find r true text with
  | none =>
    rw [hFind] at h
    obtain rfl := Option.some.inj h
    simp
  | some place =>
    obtain ⟨front, rest⟩ := place
    rw [hFind] at h
    dsimp only at h
    split at h
    · cases h
    · obtain ⟨more, _, rfl⟩ := Option.map_eq_some_iff.mp h
      simp

/-- The search takes a word of the expression, from its first place to what is left behind it. -/
theorem describes_of_find {r : Regex} {atStart : Bool} {text front rest : Text}
    (h : find r atStart text = some (front, rest)) :
    ∃ start word, front = word ++ rest ∧ r.Describes start word rest := by
  induction text generalizing atStart with
  | nil =>
    obtain ⟨q, hHead, hPair⟩ := Option.map_eq_some_iff.mp h
    obtain ⟨rfl, rfl⟩ := Prod.mk.inj hPair
    obtain ⟨word, hRest, _, hWord⟩ := (mem_ends_iff r _ q).mp (List.mem_of_head? hHead)
    exact ⟨atStart, word, hRest, hWord⟩
  | cons c text ih =>
    rw [find] at h
    split at h
    · rename_i q hHead
      obtain ⟨rfl, rfl⟩ := Prod.mk.inj (Option.some.inj h)
      obtain ⟨word, hRest, _, hWord⟩ := (mem_ends_iff r _ q).mp (List.mem_of_head? hHead)
      exact ⟨atStart, word, hRest, hWord⟩
    · exact ih h

/-- Without an empty word the search cannot fail. -/
theorem matchAllFrom_ne_none {r : Regex} (h : ∀ atStart after, ¬ r.Describes atStart [] after)
    (fuel : Nat) (text : Text) : matchAllFrom r fuel text ≠ none := by
  induction fuel generalizing text with
  | zero => exact Option.some_ne_none _
  | succ fuel ih =>
    rw [matchAllFrom]
    split
    · exact Option.some_ne_none _
    · rename_i front rest hFind
      obtain ⟨start, word, rfl, hWord⟩ := describes_of_find hFind
      have hMatched : (word ++ rest).take ((word ++ rest).length - rest.length) = word := by
        rw [List.length_append, Nat.add_sub_cancel, List.take_left]
      have hNonempty : word ≠ [] := fun hNil => h start rest (hNil ▸ hWord)
      obtain ⟨more, hMore⟩ := Option.ne_none_iff_exists'.mp (ih rest)
      dsimp only
      rw [hMatched, if_neg hNonempty, hMore]
      exact Option.some_ne_none _

/-! ## Literal expressions -/

def appendChar (r : Regex) (c : Char) : Regex := .seq r (.char c)

/-- Matches one text and nothing else. -/
def literal (name : Text) : Regex := name.foldl appendChar .nothing

/-- `string(REGEX REPLACE "\\." "\\\\." …)` -/
def escapeDots (name : Text) : Text := name.flatMap fun c => if c = '.' then ['\\', '.'] else [c]

/-- A character that stands for itself in an expression whose dots are escaped. -/
def PlainPattern (name : Text) : Prop := ∀ c ∈ name, c ∉ "^$[()|?+*\\".toList

instance (name : Text) : Decidable (PlainPattern name) :=
  List.decidableBAll (fun c => c ∉ "^$[()|?+*\\".toList) name

theorem step_of_plain {st : State} {c : Char} (hMode : st.mode = .plain)
    (h : c ∉ "^$[()|?+*\\".toList) (hDot : c ≠ '.') :
    step st c = some (st.push (.char c) true) := by
  have hChars : c ≠ '^' ∧ c ≠ '$' ∧ c ≠ '[' ∧ c ≠ '(' ∧ c ≠ ')' ∧ c ≠ '|' ∧ c ≠ '?' ∧ c ≠ '+' ∧
      c ≠ '*' ∧ c ≠ '\\' := by simpa using h
  rw [step, hMode]
  simp [stepPlain, hChars, hDot]

theorem run_escapeDot {st : State} (hMode : st.mode = .plain) (rest : Text) :
    run st ('\\' :: '.' :: rest) = run (st.push (.char '.') true) rest := by
  obtain ⟨mode, frame, outer, groups⟩ := st
  cases hMode
  rfl

theorem run_cons {st next : State} {c : Char} (h : step st c = some next) (rest : Text) :
    run st (c :: rest) = run next rest := by
  rw [run, h, Option.bind_some]

theorem flush_push (f : Frame) (r : Regex) (width : Bool) :
    (f.push r width).flush.branch = .seq f.flush.branch r := rfl

theorem earlier_push (f : Frame) (r : Regex) (width : Bool) : (f.push r width).earlier = f.earlier := by
  rw [Frame.push, Frame.flush]
  split <;> rfl

/-- The compiler takes a plain text character by character. -/
theorem run_escapeDots {name : Text} (h : PlainPattern name) {st : State} (hMode : st.mode = .plain) :
    ∃ next, run st (escapeDots name) = some next ∧ next.mode = .plain ∧ next.outer = st.outer ∧
      next.frame.earlier = st.frame.earlier ∧
      next.frame.flush.branch = name.foldl appendChar st.frame.flush.branch := by
  induction name generalizing st with
  | nil => exact ⟨st, rfl, hMode, rfl, rfl, rfl⟩
  | cons c name ih =>
    have hTail : PlainPattern name := fun d hd => h d (List.mem_cons_of_mem c hd)
    obtain ⟨next, hRun, hPlain, hOuter, hEarlier, hBranch⟩ :=
      @ih hTail (st.push (.char c) true) rfl
    refine ⟨next, ?_, hPlain, hOuter, ?_, ?_⟩
    · rw [escapeDots, List.flatMap_cons, ← escapeDots]
      split
      · rename_i hDot
        subst hDot
        exact (run_escapeDot hMode _).trans hRun
      · rename_i hDot
        exact (run_cons (step_of_plain hMode (h c List.mem_cons_self) hDot) _).trans hRun
    · rw [hEarlier]
      exact earlier_push _ _ _
    · rw [hBranch]
      exact congrArg (name.foldl appendChar) (flush_push _ _ _)

theorem compile_escapeDots {name : Text} (h : PlainPattern name) :
    compile (escapeDots name) = some (literal name) := by
  obtain ⟨next, hRun, hMode, hOuter, hEarlier, hBranch⟩ := @run_escapeDots name h start rfl
  rw [compile, hRun, Option.bind_some, finish, if_pos ⟨hMode, hOuter⟩, Frame.close, hEarlier]
  exact congrArg some hBranch

theorem ends_foldl_appendChar (name : Text) (r : Regex) (p : Place) :
    (name.foldl appendChar r).ends p = (r.ends p).flatMap fun q =>
      if name <+: q.rest then [⟨q.atStart && name.isEmpty, q.rest.drop name.length⟩] else [] := by
  induction name generalizing r with
  | nil => simp
  | cons c name ih =>
    rw [List.foldl_cons, ih, appendChar, Regex.ends, List.flatMap_assoc]
    apply List.flatMap_congr
    rintro ⟨atStart, rest⟩ _
    cases rest with
    | nil => simp [Regex.ends, oneChar]
    | cons d rest =>
      by_cases hChar : d = c
      · subst hChar
        simp [Regex.ends, oneChar]
      · simp [Regex.ends, oneChar, hChar, Ne.symm hChar]

theorem ends_literal (name : Text) (p : Place) :
    (literal name).ends p =
      if name <+: p.rest then [⟨p.atStart && name.isEmpty, p.rest.drop name.length⟩] else [] := by
  rw [literal, ends_foldl_appendChar, Regex.ends, List.flatMap_singleton]

/-! ## Searching for a literal text -/

/-- Occurrences from left to right, each looked for behind the last; `skip` is what is left of it. -/
def occurrences (name : Text) : Nat → Text → Nat
  | _, [] => 0
  | skip + 1, _ :: rest => occurrences name skip rest
  | 0, c :: rest =>
    if name <+: c :: rest then occurrences name (name.length - 1) rest + 1 else occurrences name 0 rest

theorem occurrences_drop (name : Text) (skip : Nat) (text : Text) :
    occurrences name skip text = occurrences name 0 (text.drop skip) := by
  induction skip generalizing text with
  | zero => rfl
  | succ skip ih =>
    cases text with
    | nil => rfl
    | cons c rest => exact ih rest

theorem find_literal_cons (name : Text) (atStart : Bool) (c : Char) (rest : Text) :
    find (literal name) atStart (c :: rest) =
      if name <+: c :: rest then some (c :: rest, (c :: rest).drop name.length)
      else find (literal name) false rest := by
  rw [find, ends_literal]
  by_cases hHead : name <+: c :: rest
  · simp [hHead]
  · simp [hHead]

theorem find_literal_nil {name : Text} (hName : name ≠ []) (atStart : Bool) :
    find (literal name) atStart [] = none := by
  rw [find, ends_literal]
  simp [hName]

theorem occurrences_append_self {name : Text} (hName : name ≠ []) (rest : Text) :
    occurrences name 0 (name ++ rest) = occurrences name 0 rest + 1 := by
  obtain ⟨c, tail, rfl⟩ := List.exists_cons_of_ne_nil hName
  have hHead : c :: tail <+: c :: (tail ++ rest) := List.prefix_append (c :: tail) rest
  rw [List.cons_append, occurrences, if_pos hHead, occurrences_drop]
  simp

/-- The search for a literal text stops at its first occurrence. -/
theorem find_literal {name : Text} (hName : name ≠ []) (atStart : Bool) (text : Text) :
    find (literal name) atStart text = none ∧ occurrences name 0 text = 0 ∨
      ∃ rest, find (literal name) atStart text = some (name ++ rest, rest) ∧
        (name ++ rest).length ≤ text.length ∧
        occurrences name 0 text = occurrences name 0 rest + 1 := by
  induction text generalizing atStart with
  | nil => exact Or.inl ⟨find_literal_nil hName atStart, rfl⟩
  | cons c text ih =>
    rw [find_literal_cons]
    by_cases hHead : name <+: c :: text
    · obtain ⟨rest, hRest⟩ := hHead
      refine Or.inr ⟨rest, ?_, ?_, ?_⟩
      · rw [if_pos ⟨rest, hRest⟩, ← hRest, List.drop_left]
      · rw [hRest]
      · rw [← hRest]
        exact occurrences_append_self hName rest
    · rw [if_neg hHead, occurrences, if_neg hHead]
      rcases ih false with hNone | ⟨rest, hFind, hLength, hCount⟩
      · exact Or.inl hNone
      · exact Or.inr ⟨rest, hFind, hLength.trans (Nat.le_succ _), hCount⟩

theorem matchAllFrom_literal {name : Text} (hName : name ≠ []) {fuel : Nat} {text : Text}
    (hFuel : text.length < fuel) : matchAllFrom (literal name) fuel text =
      some (List.replicate (occurrences name 0 text) name) := by
  induction fuel generalizing text with
  | zero => omega
  | succ fuel ih =>
    rw [matchAllFrom]
    rcases find_literal hName true text with ⟨hNone, hCount⟩ | ⟨rest, hFind, hLength, hCount⟩
    · rw [hNone, hCount]
      rfl
    · have hPos : 0 < name.length := List.length_pos_iff.mpr hName
      rw [List.length_append] at hLength
      have hFound : (name ++ rest).take ((name ++ rest).length - rest.length) = name := by
        rw [List.length_append, Nat.add_sub_cancel, List.take_left]
      rw [hFind, hCount, List.replicate_succ]
      dsimp only
      rw [hFound, if_neg hName, ih (by omega), Option.map_some]

theorem matchAll_literal {name : Text} (hName : name ≠ []) (text : Text) :
    matchAll (literal name) text = some (List.replicate (occurrences name 0 text) name) :=
  matchAllFrom_literal hName (Nat.lt_succ_self _)

theorem occurrences_pos_iff {name : Text} (hName : name ≠ []) (text : Text) :
    0 < occurrences name 0 text ↔ name <:+: text := by
  induction text with
  | nil => simp [occurrences, hName]
  | cons c text ih =>
    rw [occurrences, List.infix_cons_iff]
    split
    · rename_i hHead
      exact iff_of_true (Nat.succ_pos _) (Or.inl hHead)
    · rename_i hHead
      rw [ih, or_iff_right hHead]

/-! ## Texts made of lines -/

theorem prefix_append_newline_iff {name line rest : Text} {newline : Char} (h : newline ∉ name) :
    name <+: line ++ newline :: rest ↔ name <+: line := by
  constructor
  · intro hHead
    rcases List.prefix_or_prefix_of_prefix hHead (List.prefix_append line _) with hShort | hLong
    · exact hShort
    · obtain ⟨more, rfl⟩ := hLong
      have hMore : more <+: newline :: rest := (List.prefix_append_right_inj line).mp hHead
      cases more with
      | nil => simp
      | cons c more =>
        have hEq : c = newline := (List.cons_prefix_cons.mp hMore).1
        exact absurd (List.mem_append_right line (hEq ▸ List.mem_cons_self)) h
  · intro hHead
    exact hHead.trans (List.prefix_append line _)

/-- No occurrence reaches over the end of a line. -/
theorem occurrences_append_newline {name : Text} {newline : Char} (hName : name ≠ [])
    (h : newline ∉ name) (rest : Text) {line : Text} {skip : Nat} (hSkip : skip ≤ line.length) :
    occurrences name skip (line ++ newline :: rest) =
      occurrences name skip line + occurrences name 0 rest := by
  induction line generalizing skip with
  | nil =>
    have hZero : skip = 0 := by simpa using hSkip
    have hHead : ¬ name <+: newline :: rest := by
      intro hHead
      have hNil := (@prefix_append_newline_iff name [] rest newline h).mp hHead
      exact hName (List.prefix_nil.mp hNil)
    rw [hZero, List.nil_append]
    simp [occurrences, hHead]
  | cons c line ih =>
    cases skip with
    | succ skip =>
      rw [List.cons_append, occurrences, occurrences]
      exact ih (by simpa using hSkip)
    | zero =>
      have hIff : name <+: c :: (line ++ newline :: rest) ↔ name <+: c :: line :=
        @prefix_append_newline_iff name (c :: line) rest newline h
      rw [List.cons_append, occurrences, occurrences]
      split
      · rename_i hHead
        have hShort := (hIff.mp hHead).length_le
        rw [if_pos (hIff.mp hHead), ih (by simp at hShort; omega)]
        omega
      · rename_i hHead
        rw [if_neg fun hLine => hHead (hIff.mpr hLine)]
        exact ih (Nat.zero_le _)

/-! ## Names without a border -/

/-- The places of the text at which the name starts, overlapping ones included. -/
def places (name text : Text) : Nat := text.tails.countP fun rest => name.isPrefixOf rest

theorem places_nil {name : Text} (hName : name ≠ []) : places name [] = 0 := by
  simp [places, hName]

theorem places_cons (name : Text) (c : Char) (text : Text) :
    places name (c :: text) = places name text + if name <+: c :: text then 1 else 0 := by
  simp only [places, List.tails_cons, List.countP_cons, List.isPrefixOf_iff_prefix]

/-- No end of the name is also a beginning of it. -/
def Borderless (name : Text) : Prop := ∀ k, 0 < k → k < name.length → ¬ name.drop k <+: name

instance (name : Text) : Decidable (Borderless name) :=
  decidable_of_iff (∀ k < name.length, 0 < k → ¬ name.drop k <+: name)
    ⟨fun h k hPos hLess => h k hLess hPos, fun h k hLess hPos => h k hPos hLess⟩

theorem places_drop {name text : Text} {n : Nat} (h : ∀ k < n, ¬ name <+: text.drop k) :
    places name (text.drop n) = places name text := by
  induction n generalizing text with
  | zero => rfl
  | succ n ih =>
    cases text with
    | nil => rfl
    | cons c text =>
      have hHead : ¬ name <+: c :: text := h 0 (Nat.succ_pos n)
      rw [List.drop_succ_cons, places_cons, if_neg hHead, Nat.add_zero]
      exact ih fun k hk => h (k + 1) (Nat.succ_lt_succ hk)

theorem not_prefix_inside {name : Text} (hBorder : Borderless name) {text : Text}
    (hHead : name <+: text) {k : Nat} (hPos : 0 < k) (hLess : k < name.length) :
    ¬ name <+: text.drop k := by
  intro hAgain
  obtain ⟨rest, rfl⟩ := hHead
  rw [List.drop_append_of_le_length (Nat.le_of_lt hLess)] at hAgain
  have hBoth := List.prefix_of_prefix_length_le (List.prefix_append (name.drop k) rest) hAgain
    (by rw [List.length_drop]; omega)
  exact hBorder k hPos hLess hBoth

/-- Without a border no two occurrences overlap, so the search finds each of them. -/
theorem occurrences_eq_places {name : Text} (hName : name ≠ []) (hBorder : Borderless name)
    (text : Text) : occurrences name 0 text = places name text := by
  induction hLength : text.length using Nat.strong_induction_on generalizing text with
  | _ length ih =>
    subst hLength
    cases text with
    | nil => rw [places_nil hName, occurrences]
    | cons c text =>
      rw [occurrences, places_cons]
      split
      · rename_i hHead
        have hPos : 0 < name.length := List.length_pos_iff.mpr hName
        have hInside : ∀ k < name.length - 1, ¬ name <+: text.drop k := by
          intro k hk
          exact not_prefix_inside hBorder hHead (Nat.succ_pos k) (by omega)
        rw [occurrences_drop, ih _ (by rw [List.length_drop, List.length_cons]; omega) _ rfl,
          places_drop hInside]
      · exact ih _ (Nat.lt_succ_self _) _ rfl

theorem places_self {name : Text} (hName : name ≠ []) (hBorder : Borderless name) :
    places name name = 1 := by
  have hSelf := occurrences_append_self hName []
  rw [List.append_nil] at hSelf
  rw [← occurrences_eq_places hName hBorder, hSelf]
  rfl

theorem places_pos_iff (name text : Text) : 0 < places name text ↔ name <:+: text := by
  rw [places, List.countP_pos_iff, List.infix_iff_prefix_suffix]
  simp only [List.mem_tails, List.isPrefixOf_iff_prefix, and_comm]

/-- In front of the place where it can start, a name has no place. -/
theorem places_append_of_notMem {c : Char} {name front : Text} (h : c ∉ front) (text : Text) :
    places (c :: name) (front ++ text) = places (c :: name) text := by
  induction front with
  | nil => rfl
  | cons d front ih =>
    have hHead : ¬ c :: name <+: d :: (front ++ text) := fun hHead =>
      h (List.mem_cons.mpr (Or.inl (List.cons_prefix_cons.mp hHead).1))
    rw [List.cons_append, places_cons, if_neg hHead, Nat.add_zero]
    exact ih fun hMem => h (List.mem_cons_of_mem d hMem)

end SpencerRegex
