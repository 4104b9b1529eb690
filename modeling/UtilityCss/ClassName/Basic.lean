import UtilityCss.Text.Split

/-!
# Class names

What a class name says once it is taken apart: a chain of modifiers and at most one utility. A
utility carries its value as written; `Utility.resolvedValue` is the value as it stands in a
declaration.

A class name is written as tokens separated by colons. A colon inside brackets belongs to the token
around it: it separates only where as many square brackets have been closed as opened and as many
round ones. Empty runs between separators are no tokens. Brackets need not balance; the counts may
then stay off zero, or fall below it and come back. Positions are byte offsets into the UTF-8 form of
the text.
-/

namespace UtilityCss

/-! ## Modifiers and utilities -/

/-- A modifier as it is used in a class name. -/
structure Modifier where
  /-- The name, or a whole bracketed text when `arbitrary`. -/
  kind : String
  /-- Written with a leading dash. -/
  negative : Bool
  /-- The kind is a text in square brackets. -/
  arbitrary : Bool
  deriving DecidableEq, Repr

namespace Modifier

/-- A modifier that is a plain name. -/
def named (kind : String) : Modifier := ⟨kind, false, false⟩

/-- A token read as a modifier. -/
def ofToken (token : String) : Modifier :=
  let bare := (Text.after? "-" token).getD token
  { kind := bare
    negative := (Text.after? "-" token).isSome
    arbitrary := 2 ≤ bare.utf8ByteSize && Text.beginsWith "[" bare && Text.endsIn "]" bare }

/-- The text between the brackets of an arbitrary modifier. -/
def literal? (m : Modifier) : Option String :=
  if m.arbitrary then Text.after? "[" m.kind >>= Text.before? "]" else none

/-- The text between the brackets behind `name-`. -/
def argument? (m : Modifier) (name : String) : Option String :=
  Text.after? name m.kind >>= Text.after? "-[" >>= Text.before? "]"

end Modifier

/-- A utility as it is used in a class name. -/
structure Utility where
  /-- The name it is registered under. -/
  name : String
  /-- The value as written: behind the name, between the brackets, or a custom property. -/
  value : String
  /-- The value stood in square brackets. -/
  arbitrary : Bool := false
  /-- The value stood in round brackets. -/
  customProperty : Bool := false
  /-- Written with a leading dash. -/
  negative : Bool := false
  /-- The text behind the slash that follows the closing bracket. -/
  opacity : String := ""
  /-- The category of the rule of that name. -/
  category : String := ""
  /-- The priority of the rule of that name. -/
  priority : Int := 0
  /-- The class name was marked with `!`. -/
  important : Bool := false
  deriving DecidableEq, Repr

/-- An underscore stands for a space, and behind a backslash for itself. -/
def decodeUnderscores : List Char → List Char
  | [] => []
  | '\\' :: '_' :: s => '_' :: decodeUnderscores s
  | c :: s => (if c = '_' then ' ' else c) :: decodeUnderscores s

namespace Utility

/-- The value as it stands in a declaration: a custom property is read with `var`, and in an
arbitrary value underscores stand for spaces. -/
def resolvedValue (u : Utility) : String :=
  if u.customProperty then "var(" ++ u.value ++ ")"
  else if u.arbitrary then String.ofList (decodeUnderscores u.value.toList)
  else u.value

/-- Whether an opacity was written. -/
def hasOpacity (u : Utility) : Bool := u.opacity != ""

end Utility

/-- A class name taken apart. A class name without a utility is no error: it stands for nothing. -/
structure ClassName where
  /-- The modifiers in the order of writing. -/
  modifiers : List Modifier
  utility : Option Utility
  deriving DecidableEq, Repr

/-! ## Tokens -/

/-- A token and the half-open range of bytes it stands in. -/
structure Token where
  text : String
  start : Nat
  stop : Nat
  deriving DecidableEq, Repr

/-- Brackets opened and not yet closed, of each kind; negative after a surplus of closing ones. -/
structure Depths where
  square : Int
  round : Int
  deriving DecidableEq, Repr

namespace Depths

def zero : Depths := ⟨0, 0⟩

/-- The counts behind one more character. -/
def next (d : Depths) (c : Char) : Depths :=
  if c = '[' then { d with square := d.square + 1 }
  else if c = ']' then { d with square := d.square - 1 }
  else if c = '(' then { d with round := d.round + 1 }
  else if c = ')' then { d with round := d.round - 1 }
  else d

/-- Whether a character met at these counts separates two tokens. -/
def separates (d : Depths) (c : Char) : Bool :=
  c == ':' && d.square == 0 && d.round == 0

end Depths

/-- Whether a character is counted in `Depths`. -/
def isBracket (c : Char) : Bool :=
  c == '[' || c == ']' || c == '(' || c == ')'

namespace Token

/-- The number of bytes of a text. -/
def byteLength (s : List Char) : Nat := s.foldr (fun c n => c.utf8Size + n) 0

/-- The non-empty runs as tokens, when the first run starts at `start` and each next one behind a
separator of one byte. -/
def locate (start : Nat) : List (List Char) → List Token
  | [] => []
  | run :: runs =>
    let stop := start + byteLength run
    let later := locate (stop + 1) runs
    if run.isEmpty then later else ⟨String.ofList run, start, stop⟩ :: later

/-- The tokens of a text, by counting brackets. -/
def scanNested (s : List Char) : List Token :=
  locate 0 (Text.splitBy Depths.next Depths.separates Depths.zero s)

/-- The tokens of a text without brackets: every colon separates. -/
def scanFlat (s : List Char) : List Token :=
  locate 0 (s.splitOn ':')

/-- The tokens of a text. -/
def scan (s : String) : List Token :=
  if s.toList.any isBracket then scanNested s.toList else scanFlat s.toList

end Token
end UtilityCss
