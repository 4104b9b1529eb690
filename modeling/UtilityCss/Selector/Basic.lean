import UtilityCss.Text.Split

/-!
# Complex selectors

A selector is a sequence of compounds, each with the combinator that stands before it. The first
compound has one only in a relative selector such as `> li`. A compound is a run of simple
selectors without a combinator, such as `a.btn:hover` or `&[open]`, and is kept as it is written.

An anchor is an ampersand without a backslash before it; the backslash protects one character,
itself included. Strings are not looked at. A template is handled through the pieces between its
anchors: their number gives the number of anchors, and putting a text between them replaces every
anchor.
-/

namespace UtilityCss

/-! ## Anchors -/

namespace Anchor

/-- Whether the character behind `c` is protected, when `c` itself is or is not. -/
def protectsNext (isProtected : Bool) (c : Char) : Bool := !isProtected && c == '\\'

/-- The pieces of a template between its anchors. -/
def pieces (s : List Char) : List (List Char) :=
  Text.splitBy protectsNext (fun isProtected c => !isProtected && c == '&') false s

/-- The number of anchors. -/
def count (s : List Char) : Nat := (pieces s).length - 1

/-- Whether there is an anchor. -/
def occurs (s : List Char) : Bool := 0 < count s

/-- The template with `r` in place of every anchor. -/
def replace (r s : List Char) : List Char := r.intercalate (pieces s)

/-- The text behind an anchor that is the only one and stands first. -/
def suffix? (s : List Char) : Option (List Char) :=
  match pieces s with
  | [[], rest] => some rest
  | _ => none

/-- An anchor in place of every anchor changes nothing. -/
theorem replace_self (s : List Char) : replace ['&'] s = s := by
  refine Text.intercalate_splitBy (fun st d h => ?_) false s
  simp only [Bool.and_eq_true, beq_iff_eq] at h
  exact h.2

theorem eq_cons_of_suffix? {s rest : List Char} (h : suffix? s = some rest) : s = '&' :: rest := by
  have hs : pieces s = [[], rest] := by
    unfold suffix? at h
    split at h
    · next r hr => rw [hr, Option.some.inj h]
    · cases h
  have := replace_self s
  rw [replace, hs] at this
  simpa using this.symm

end Anchor

/-! ## Compounds and combinators -/

inductive Combinator where
  | descendant
  | child
  | nextSibling
  | subsequentSibling
  deriving DecidableEq, Repr

namespace Combinator

/-- The combinator that a character stands for. -/
def ofChar? (c : Char) : Option Combinator :=
  if c = '>' then some child
  else if c = '+' then some nextSibling
  else if c = '~' then some subsequentSibling
  else none

/-- The character of a combinator; a descendant is written by blank space alone. -/
def mark : Combinator → List Char
  | descendant => []
  | child => ['>']
  | nextSibling => ['+']
  | subsequentSibling => ['~']

/-- The text of a combinator between two compounds. -/
def between : Combinator → List Char
  | descendant => [' ']
  | c => ' ' :: c.mark ++ [' ']

end Combinator

/-- A compound with the combinator before it. -/
structure Part where
  combinator : Option Combinator
  compound : List Char
  deriving DecidableEq, Repr

namespace Part

/-- Whether the compound has an anchor. -/
def hasAnchor (p : Part) : Bool := Anchor.occurs p.compound

/-- The text of a first part. -/
def leadingText (p : Part) : List Char :=
  match p.combinator with
  | none => p.compound
  | some c => c.mark ++ ' ' :: p.compound

/-- The text of a part behind another one. -/
def followingText (p : Part) : List Char :=
  (p.combinator.getD .descendant).between ++ p.compound

end Part

structure Selector where
  parts : List Part
  deriving DecidableEq, Repr

namespace Selector

/-- Whether some compound has an anchor. -/
def hasAnchor (s : Selector) : Bool := s.parts.any Part.hasAnchor

/-- Whether the selector is one compound without a combinator. -/
def isCompound (s : Selector) : Bool :=
  match s.parts with
  | [p] => p.combinator.isNone
  | _ => false

/-- The selector in normal form: one space on each side of a combinator. -/
def text (s : Selector) : List Char :=
  match s.parts with
  | [] => []
  | p :: ps => p.leadingText ++ ps.flatMap Part.followingText

end Selector
end UtilityCss
