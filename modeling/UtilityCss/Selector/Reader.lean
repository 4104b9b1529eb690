import UtilityCss.Selector.Basic
import UtilityCss.Text.Character

/-!
# Reading a selector

A selector is read character by character by an automaton. Inside brackets, strings and escapes
nothing is a combinator or a comma. An escape is a backslash and one character, or a backslash, one
to six hexadecimal digits and at most one space, which belongs to the escape. Brackets are counted
together, whatever their kind.
-/

namespace UtilityCss

/-- Why a text is no selector. -/
inductive Fault where
  | topLevelComma
  | unbalancedBrackets
  | unterminatedString
  | missingCompound
  deriving DecidableEq, Repr

namespace Fault

/-- The reason as it is reported. -/
def reason : Fault → String
  | topLevelComma => "unexpected top-level comma"
  | unbalancedBrackets => "unbalanced brackets or parentheses"
  | unterminatedString => "unterminated string"
  | missingCompound => "selector ends without a compound"

end Fault

/-- Where a reader stands in an escape. -/
inductive Escape where
  | outside
  /-- Right behind the backslash. -/
  | opened
  /-- Behind so many hexadecimal digits. -/
  | hex (digits : Nat)
  deriving DecidableEq, Repr

/-- Whether a character is a hexadecimal digit. -/
def isHexDigit (c : Char) : Bool :=
  c.isDigit || ('a' ≤ c && c ≤ 'f') || ('A' ≤ c && c ≤ 'F')

/-- Whether a character separates compounds: tab, line feed, form feed, carriage return, space. -/
def isSelectorSpace (c : Char) : Bool :=
  c == '\t' || c == '\n' || c == '\x0c' || c == '\r' || c == ' '

def isQuote (c : Char) : Bool := c == '"' || c == '\''

def isOpener (c : Char) : Bool := c == '[' || c == '('

def isCloser (c : Char) : Bool := c == ']' || c == ')'

/-- The state of a reader behind some characters. -/
structure Reader where
  /-- The finished parts. -/
  parts : List Part
  /-- The compound being read. -/
  compound : List Char
  /-- The combinator before the compound being read. -/
  lead : Option Combinator
  /-- The combinator read since the last compound. -/
  pending : Option Combinator
  /-- Brackets opened and not yet closed. -/
  depth : Int
  /-- The quote that ends the string being read. -/
  quote : Option Char
  escape : Escape
  deriving DecidableEq, Repr

namespace Reader

def start : Reader := ⟨[], [], none, none, 0, none, .outside⟩

/-- Whether the reader is outside brackets and strings. -/
def atTop (r : Reader) : Bool := r.depth == 0 && r.quote.isNone

/-- The parts, with the compound being read as the last one if it has begun. -/
def flushed (r : Reader) : List Part :=
  if r.compound.isEmpty then r.parts else r.parts ++ [⟨r.lead, r.compound⟩]

/-- Read a space or the character of a combinator: the compound ends. The last combinator written
before the next compound counts, and a space counts only behind a compound. -/
def separate (r : Reader) (c : Char) : Reader :=
  { r with
    parts := r.flushed
    compound := []
    pending :=
      match Combinator.ofChar? c with
      | some k => some k
      | none => if r.flushed.isEmpty then r.pending else r.pending.or (some .descendant) }

/-- The brackets and quotes behind a character that is not escaped. -/
def track (r : Reader) (c : Char) : Reader :=
  match r.quote with
  | some q => if c = q then { r with quote := none } else r
  | none =>
    if isQuote c then { r with quote := some c }
    else if isOpener c then { r with depth := r.depth + 1 }
    else if isCloser c then { r with depth := r.depth - 1 }
    else r

/-- Put a character to the compound; its first character takes the pending combinator. -/
def put (r : Reader) (c : Char) : Reader :=
  if r.compound.isEmpty then { r with compound := [c], lead := r.pending, pending := none }
  else { r with compound := r.compound ++ [c] }

/-- Read a character outside escapes. -/
def plain (r : Reader) (c : Char) : Except Fault Reader :=
  if r.atTop && c == ',' then .error .topLevelComma
  else if r.atTop && (isSelectorSpace c || (Combinator.ofChar? c).isSome) then .ok (r.separate c)
  else if c = '\\' then .ok { r.put c with escape := .opened }
  else .ok ((r.put c).track c)

/-- Read a character. -/
def step (r : Reader) (c : Char) : Except Fault Reader :=
  match r.escape with
  | .outside => r.plain c
  | .opened => .ok { r.put c with escape := if isHexDigit c then .hex 1 else .outside }
  | .hex n =>
    if n < 6 && isHexDigit c then .ok { r.put c with escape := .hex (n + 1) }
    else if c = ' ' then .ok { r.put c with escape := .outside }
    else { r with escape := .outside }.plain c

/-- The selector, if the text may end here. -/
def finish (r : Reader) : Except Fault Selector :=
  if r.depth ≠ 0 then .error .unbalancedBrackets
  else if r.quote.isSome then .error .unterminatedString
  else if r.compound.isEmpty then .error .missingCompound
  else .ok ⟨r.flushed⟩

end Reader

/-- A text read as one selector; blanks around it do not count. -/
def Selector.read (s : List Char) : Except Fault Selector := do
  let r ← (Text.trim s).foldlM Reader.step Reader.start
  r.finish

end UtilityCss
