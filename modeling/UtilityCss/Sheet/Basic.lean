import UtilityCss.Selector.Nesting
import UtilityCss.Style.Node

/-!
# Style sheets

A style sheet is written in blocks that nest no rules: a rule inside a rule becomes a rule of its
own behind it, with the resolved selector, and an at-rule inside a rule comes to stand around it. In
an at-rule the selector around it goes on, except in the at-rules whose bodies belong to no selector:
there everything is kept as written. Without a selector around it an at-rule that holds declarations is
written with those alone.

Blocks are written in one of two layouts. The pretty one has a line for each declaration and brace,
indented by two spaces a level, and an empty line between blocks that follow each other at the top.
The minified one has no space, and semicolons only between the declarations of a block.

A class name is escaped so that a style sheet reads it back as one identifier: characters that
cannot stand in an identifier follow a backslash, and controls and a leading digit are written as
hexadecimal escapes, which end in a space. The nodes of a class are written one by one. A rule without
an anchor and an at-rule whose body belongs to no selector are global: they stand apart from the class.
-/

namespace UtilityCss

/-! ## Blocks -/

/-- A block as it stands in a style sheet. -/
inductive Block where
  | style (selector : String) (decls : List Declaration)
  | atRule (name params : String) (decls : List Declaration) (inner : List Block)
  deriving Repr

/-- The at-rules whose bodies belong to no selector. -/
def globalAtRules : List String := ["keyframes", "property", "font-face"]

namespace Block

/-- A block for declarations, if there are any. -/
def styled (selector : String) (decls : List Declaration) : List Block :=
  if decls = [] then [] else [.style selector decls]

/-- An at-rule around blocks, if there are any. -/
def around (name params : String) (inner : List Block) : List Block :=
  match inner with
  | [] => []
  | b :: bs => [.atRule name params [] (b :: bs)]

end Block

namespace Node

/-- A selector template inside the selector around it. -/
def resolveIn (resolve : String → String → String) (parent : Option String) (template : String) :
    String :=
  match parent with
  | some p => resolve p template
  | none => template

mutual
/-- The blocks of a block node inside the selector around it; a declaration has none of its own. -/
def blocks (parent : Option String) : Node → List Block
  | .decl _ => []
  | .block (.rule template) _ body =>
    let selector := resolveIn Selector.resolve parent template
    Block.styled selector (declarations body) ++ blocksAll (some selector) body
  | .block (.verbatim template) _ body =>
    let selector := resolveIn Selector.resolveVerbatim parent template
    Block.styled selector (declarations body) ++ blocksAll (some selector) body
  | .block (.atRule name params) _ body =>
    if name ∈ globalAtRules then
      [.atRule name params (declarations body) (blocksAll none body)]
    else
      match parent with
      | some p =>
        Block.around name params (Block.styled p (declarations body) ++ blocksAll (some p) body)
      | none =>
        if declarations body = [] then Block.around name params (blocksAll none body)
        else [.atRule name params (declarations body) []]
/-- The blocks of the block nodes of a list. -/
def blocksAll (parent : Option String) : List Node → List Block
  | [] => []
  | n :: ns => blocks parent n ++ blocksAll parent ns
end

/-- The blocks of a node that stands at the top: a declaration is put into the selector around it,
if there is one. -/
def rootBlocks (parent : Option String) : Node → List Block
  | .decl d => (parent.map fun p => Block.style p [d]).toList
  | n => blocks parent n

end Node

/-! ## The text of blocks -/

inductive Layout where
  | pretty
  | minified
  deriving DecidableEq, Repr

namespace Layout

/-- The text between two blocks, or two texts of blocks, at the top. -/
def separator : Layout → String
  | pretty => "\n"
  | minified => ""

/-- The blank space before a line at a depth. -/
def indent (layout : Layout) (depth : Nat) : String :=
  match layout with
  | pretty => String.ofList (List.replicate (2 * depth) ' ')
  | minified => ""

/-- The opening line of a block. -/
def openBlock (layout : Layout) (depth : Nat) (head : String) : String :=
  layout.indent depth ++ head ++
    match layout with
    | pretty => " \x7b\n"
    | minified => "\x7b"

/-- The closing line of a block. -/
def closeBlock (layout : Layout) (depth : Nat) : String :=
  layout.indent depth ++
    match layout with
    | pretty => "\x7d\n"
    | minified => "\x7d"

/-- The declarations of a block. -/
def declarations (layout : Layout) (depth : Nat) (decls : List Declaration) : String :=
  match layout with
  | pretty => String.join (decls.map fun d =>
      layout.indent depth ++ d.property ++ ": " ++ d.value ++ ";\n")
  | minified => ";".intercalate (decls.map fun d => d.property ++ ":" ++ d.value)

end Layout

namespace Block

/-- The head of an at-rule. -/
def atHead (name params : String) : String :=
  if params = "" then "@" ++ name else "@" ++ name ++ " " ++ params

mutual
/-- The text of a block at a depth. -/
def text (layout : Layout) (depth : Nat) : Block → String
  | .style selector decls =>
    layout.openBlock depth selector ++ layout.declarations (depth + 1) decls ++
      layout.closeBlock depth
  | .atRule name params decls inner =>
    layout.openBlock depth (atHead name params) ++ layout.declarations (depth + 1) decls ++
      textAll layout (depth + 1) inner ++ layout.closeBlock depth
/-- The text of blocks inside a block. -/
def textAll (layout : Layout) (depth : Nat) : List Block → String
  | [] => ""
  | b :: bs => text layout depth b ++ textAll layout depth bs
end

end Block

/-- The text of a node inside the selector around it. -/
def Node.css (layout : Layout) (parent : Option String) (n : Node) : String :=
  layout.separator.intercalate ((n.rootBlocks parent).map (Block.text layout 0))

/-! ## The selector of a class name -/

namespace ClassSelector

/-- A character by its number in hexadecimal digits. -/
def hexEscape (c : Char) : List Char := '\\' :: Nat.toDigits 16 c.toNat ++ [' ']

/-- Whether a character is written with its number wherever it stands. -/
def isControl (c : Char) : Bool := (0x1 ≤ c.toNat && c.toNat ≤ 0x1f) || c.toNat == 0x7f

/-- Whether a character can stand for itself in an identifier. -/
def isNameChar (c : Char) : Bool := c.isAlphanum || c == '-' || c == '_' || 0x80 ≤ c.toNat

/-- A character of a class name behind its lead. -/
def escapeChar (c : Char) : List Char :=
  if c = '\x00' then ['\ufffd']
  else if isControl c then hexEscape c
  else if isNameChar c then [c]
  else ['\\', c]

/-- A character where an identifier cannot have a digit. -/
def escapeLead (c : Char) : List Char := if c.isDigit then hexEscape c else escapeChar c

/-- A class name as an identifier. A digit cannot stand first, nor second behind a dash, and a dash
cannot stand alone. -/
def escape : List Char → List Char
  | [] => []
  | ['-'] => ['\\', '-']
  | '-' :: c :: s => '-' :: escapeLead c ++ s.flatMap escapeChar
  | c :: s => escapeLead c ++ s.flatMap escapeChar

end ClassSelector

/-- A class name as an identifier. -/
def escapeClassName (name : String) : String := String.ofList (ClassSelector.escape name.toList)

/-- The selector that picks the elements of a class. -/
def classSelector (name : String) : String := "." ++ escapeClassName name

/-! ## The style sheet of a class -/

/-- Whether a node at the top belongs to no class. -/
def Node.isGlobal : Node → Bool
  | .block (.rule selector) _ _ => !Anchor.occurs selector.toList
  | .block (.atRule name _) _ _ => name ∈ globalAtRules
  | _ => false

/-- The texts of the nodes of a class, those that belong to it apart from the global ones. -/
structure Sheet where
  layout : Layout
  ownTexts : List String
  globalTexts : List String
  deriving DecidableEq, Repr

namespace Sheet

/-- The style sheet of a class; a node without a text is left out. -/
def ofNodes (layout : Layout) (cls : String) (nodes : List Node) : Sheet where
  layout := layout
  ownTexts := ((nodes.filter fun n => !n.isGlobal).map
    (Node.css layout (some (classSelector cls)))).filter (· ≠ "")
  globalTexts := ((nodes.filter Node.isGlobal).map (Node.css layout none)).filter (· ≠ "")

/-- The text of the nodes that belong to the class. -/
def css (s : Sheet) : String := s.layout.separator.intercalate s.ownTexts

/-- The texts of the global nodes, if there are any. -/
def globalList? (s : Sheet) : Option (List String) :=
  if s.globalTexts = [] then none else some s.globalTexts

/-- The text of the global nodes, if there are any. -/
def globalCss? (s : Sheet) : Option String :=
  s.globalList?.map fun texts => s.layout.separator.intercalate texts

/-- Whether nothing was written. -/
def isEmpty (s : Sheet) : Bool := s.ownTexts.isEmpty && s.globalTexts.isEmpty

end Sheet
end UtilityCss
