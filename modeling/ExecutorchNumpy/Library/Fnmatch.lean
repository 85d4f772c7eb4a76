import Mathlib.Data.List.Basic
import Mathlib.Data.List.Infix

/-! # Shell patterns

A star stands for any text, a question mark for one character, and square
brackets for one character of a set, or outside it when the set begins with an
exclamation mark. There is no way to quote any of them.
-/

namespace Fnmatch
set_option autoImplicit false

abbrev Text := List Nat

def star : Nat := '*'.toNat

def question : Nat := '?'.toNat

def opening : Nat := '['.toNat

def closing : Nat := ']'.toNat

def bang : Nat := '!'.toNat

def hyphen : Nat := '-'.toNat

def magic (c : Nat) : Bool := c == star || c == question || c == opening

def hasMagic (pattern : Text) : Bool := pattern.any magic

/-! ## Patterns -/

/-- A range whose ends are in the wrong order is empty. -/
inductive Member where
  | char (c : Nat)
  | range (first last : Nat)
  deriving DecidableEq, Repr

def Member.holds : Member → Nat → Bool
  | .char d, c => c == d
  | .range first last, c => decide (first ≤ c) && decide (c ≤ last)

inductive Token where
  | anything
  | anyChar
  | char (c : Nat)
  | set (negated : Bool) (members : List Member)
  deriving DecidableEq, Repr

def Token.accepts : Token → Nat → Bool
  | .anything, _ => false
  | .anyChar, _ => true
  | .char d, c => c == d
  | .set negated members, c => xor negated (members.any fun m => m.holds c)

/-- A hyphen between two characters makes a range of them; `skip` counts the characters that belong to
the range before. -/
def membersFrom : Nat → Text → List Member
  | _, [] => []
  | skip + 1, _ :: rest => membersFrom skip rest
  | 0, c :: rest =>
    if rest.head? = some hyphen then
      match rest[1]? with
      | some last => .range c last :: membersFrom 2 rest
      | none => .char c :: membersFrom 0 rest
    else .char c :: membersFrom 0 rest

def setToken (inside : Text) : Token :=
  if inside.head? = some bang then .set true (membersFrom 0 inside.tail)
  else .set false (membersFrom 0 inside)

/-- How many characters stand before the bracket that closes a set. A bracket that is first in the set is
one of its members. -/
def setLength (rest : Text) : Option Nat :=
  let lead := if rest.head? = some bang then 1 else 0
  let opened := if (rest.drop lead).head? = some closing then lead + 1 else lead
  let inside := opened + ((rest.drop opened).takeWhile fun c => c ≠ closing).length
  if inside < rest.length then some inside else none

/-- `skip` counts the characters that belong to the set before; an opening bracket that is never closed
stands for itself. -/
def tokensFrom : Nat → Text → List Token
  | _, [] => []
  | skip + 1, _ :: rest => tokensFrom skip rest
  | 0, c :: rest =>
    if c = star then .anything :: tokensFrom 0 rest
    else if c = question then .anyChar :: tokensFrom 0 rest
    else if c = opening then
      match setLength rest with
      | some n => setToken (rest.take n) :: tokensFrom (n + 1) rest
      | none => .char c :: tokensFrom 0 rest
    else .char c :: tokensFrom 0 rest

def tokens (pattern : Text) : List Token := tokensFrom 0 pattern

/-! ## Matching -/

def accepts : List Token → Text → Bool
  | [], text => text.isEmpty
  | .anything :: rest, text => text.tails.any (accepts rest)
  | _ :: _, [] => false
  | token :: rest, c :: text => token.accepts c && accepts rest text

def fnmatch (name pattern : Text) : Bool := accepts (tokens pattern) name

theorem tokensFrom_literal {literal : Text} (hLiteral : hasMagic literal = false) (pattern : Text) :
    tokensFrom 0 (literal ++ pattern) = literal.map Token.char ++ tokensFrom 0 pattern := by
  induction literal with
  | nil => rfl
  | cons c rest ih =>
    simp only [hasMagic, List.any_cons, Bool.or_eq_false_iff, magic, beq_eq_false_iff_ne] at hLiteral ih
    obtain ⟨⟨⟨hStar, hQuestion⟩, hOpening⟩, hRest⟩ := hLiteral
    rw [List.cons_append, tokensFrom, if_neg hStar, if_neg hQuestion, if_neg hOpening, ih hRest]
    rfl

theorem accepts_literal (literal text : Text) (rest : List Token) :
    accepts (literal.map Token.char ++ rest) text = true ↔
      ∃ more, text = literal ++ more ∧ accepts rest more = true := by
  induction literal generalizing text with
  | nil => simp
  | cons d literal ih =>
    cases text with
    | nil => simp [accepts]
    | cons c text =>
      simp only [List.map_cons, List.cons_append, accepts, Token.accepts, Bool.and_eq_true,
        beq_iff_eq, List.cons.injEq, ih]
      constructor
      · rintro ⟨rfl, more, rfl, hMore⟩
        exact ⟨more, ⟨rfl, rfl⟩, hMore⟩
      · rintro ⟨more, ⟨rfl, rfl⟩, hMore⟩
        exact ⟨rfl, more, rfl, hMore⟩

theorem accepts_anything (text : Text) : accepts [.anything] text = true := by
  rw [accepts, List.any_eq_true]
  exact ⟨[], (List.mem_tails _ _).mpr List.nil_suffix, rfl⟩

/-- A final star after a text without special characters asks for that beginning. -/
theorem fnmatch_literal_star {literal : Text} (hLiteral : hasMagic literal = false) (name : Text) :
    fnmatch name (literal ++ [star]) = true ↔ literal <+: name := by
  rw [fnmatch, tokens, tokensFrom_literal hLiteral, accepts_literal]
  constructor
  · rintro ⟨more, rfl, _⟩
    exact List.prefix_append literal more
  · rintro ⟨more, rfl⟩
    exact ⟨more, rfl, accepts_anything more⟩

end Fnmatch
