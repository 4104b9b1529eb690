import UtilityCss.Selector.Reader

/-!
# Selector lists and nesting

A selector list is cut at its commas, which count outside strings, escapes and brackets; here an
escape is a backslash and one character. Each member is then read by itself.

A template stands for the selectors of the elements it picks inside an outer selector. Each anchor
of the template stands for the outer selector, and a template without an anchor picks descendants.
An anchor that starts its compound, and is the only one of it, is opened up: the parts of the outer
selector are put in, and the rest of the compound goes to the last of them. Elsewhere the outer
selector is put in as a text, in `:is(...)` unless it is one compound. Lists are nested member by
member, the outer list first.
-/

namespace UtilityCss

/-! ## Lists -/

/-- A selector text that was refused. -/
structure Rejection where
  selector : String
  fault : Fault
  deriving DecidableEq, Repr

/-- The state in which a character of a selector list is met. -/
structure ListState where
  /-- The character stands behind a backslash. -/
  escaped : Bool
  /-- The quote that ends the string around the character. -/
  quote : Option Char
  /-- Brackets opened and not yet closed. -/
  depth : Int
  deriving DecidableEq, Repr

namespace ListState

def start : ListState := ⟨false, none, 0⟩

/-- The state behind one more character. -/
def next (st : ListState) (c : Char) : ListState :=
  if st.escaped then { st with escaped := false }
  else if c = '\\' then { st with escaped := true }
  else
    match st.quote with
    | some q => if c = q then { st with quote := none } else st
    | none =>
      if isQuote c then { st with quote := some c }
      else if isOpener c then { st with depth := st.depth + 1 }
      else if isCloser c then { st with depth := st.depth - 1 }
      else st

/-- Whether a character met in this state is a comma between two members. -/
def separates (st : ListState) (c : Char) : Bool :=
  c == ',' && !st.escaped && st.quote.isNone && st.depth == 0

end ListState

namespace Selector

/-- The members of a selector list, as written. -/
def members (s : List Char) : List (List Char) :=
  Text.splitBy ListState.next ListState.separates ListState.start s

/-- A text read as one selector, or the refused text with its fault. -/
def parse (s : String) : Except Rejection Selector :=
  match read s.toList with
  | .ok sel => .ok sel
  | .error fault => .error ⟨s, fault⟩

/-- A text read as a selector list; the first member that is no selector is refused. -/
def parseList (s : String) : Except Rejection (List Selector) :=
  (members s.toList).mapM fun m => parse (String.ofList (Text.trim m))

/-! ## Nesting -/

/-- Parts with `c` before the first of them, unless it has a combinator. -/
def withLead (c : Combinator) : List Part → List Part
  | [] => []
  | p :: ps => { p with combinator := p.combinator.or (some c) } :: ps

/-- Parts with `lead` in place of the combinator before the first of them, if there is a `lead`. -/
def replaceLead (lead : Option Combinator) : List Part → List Part
  | [] => []
  | p :: ps => { p with combinator := lead.or p.combinator } :: ps

/-- Parts with a text put to the last compound. -/
def appendToLast (t : List Char) : List Part → List Part
  | [] => []
  | [p] => [{ p with compound := p.compound ++ t }]
  | p :: ps => p :: appendToLast t ps

/-- The outer selector as a text that can stand inside a compound. -/
def inlineText (outer : Selector) : List Char :=
  if outer.isCompound then outer.parts.flatMap Part.compound
  else [':', 'i', 's', '('] ++ outer.text ++ [')']

/-- The parts that a part of the template becomes. -/
def expandPart (outer : Selector) (p : Part) : List Part :=
  if p.hasAnchor then
    match Anchor.suffix? p.compound with
    | some t => appendToLast t (replaceLead p.combinator outer.parts)
    | none => [{ p with compound := Anchor.replace outer.inlineText p.compound }]
  else [p]

/-- The template `inner` with `outer` in place of its anchors. -/
def substitute (inner outer : Selector) : Selector :=
  if inner.hasAnchor then ⟨inner.parts.flatMap (expandPart outer)⟩
  else ⟨outer.parts ++ withLead .descendant inner.parts⟩

/-- Every outer selector with every template, as one list. -/
def productText (outers inners : List Selector) : List Char :=
  [',', ' '].intercalate (outers.flatMap fun o => inners.map fun i => (i.substitute o).text)

/-- Two templates as one, if both have an anchor and can be read. -/
def compose (outer inner : String) : Option String :=
  if Anchor.occurs outer.toList && Anchor.occurs inner.toList then
    match parseList outer, parseList inner with
    | .ok os, .ok is => some (String.ofList (productText os is))
    | _, _ => none
  else none

/-- Whether a text is one compound without a combinator. -/
def isCompoundText (s : String) : Bool :=
  match read s.toList with
  | .ok sel => sel.isCompound
  | .error _ => false

/-- A template resolved against a parent as a text: nothing but the anchors is touched. -/
def resolveVerbatim (parent template : String) : String :=
  if Anchor.occurs template.toList then
    let r := if isCompoundText parent then parent else ":is(" ++ parent ++ ")"
    String.ofList (Anchor.replace r.toList template.toList)
  else parent ++ " " ++ template

/-- A template resolved against a parent; a text that cannot be read is resolved verbatim. -/
def resolve (parent template : String) : String :=
  match parseList parent, parseList template with
  | .ok os, .ok is => String.ofList (productText os is)
  | _, _ => resolveVerbatim parent template

end Selector
end UtilityCss
