import UtilityCss.ClassName.Basic
import UtilityCss.Selector.Nesting
import UtilityCss.Style.Merge
import UtilityCss.Text.Character

/-!
# Rules

A utility rule gives the declarations of a utility; a modifier rule puts the path of the
declarations into a further scope. Both are named, and both say by a test of their own which texts
they apply to. Giving no declarations, or no path, rejects a use.

A class name that no rule knows is no error: it stands for nothing. Errors are raised by rules that
break their contract, by selectors that cannot be read and by configurations that cannot be loaded.
A theme is free data in the shape of a tree, which rules look values up in by a path of keys. Only
tables have keys.
-/

namespace UtilityCss

/-! ## Errors -/

inductive CompileError where
  /-- A rule, by its name, broke its contract. -/
  | invalidRule (rule reason : String)
  /-- A text is no selector. -/
  | invalidSelector (selector reason : String)
  /-- A configuration could not be loaded. -/
  | invalidConfig (reason : String)
  deriving DecidableEq, Repr

namespace CompileError

/-- The error of a rule that gives anything but declarations. -/
def notADeclaration (rule : String) : CompileError :=
  .invalidRule rule "handler returned a non-declaration node"

/-- The error of a refused selector. -/
def ofRejection (r : Rejection) : CompileError := .invalidSelector r.selector r.fault.reason

/-- The error as it is reported. -/
def message : CompileError → String
  | .invalidRule rule reason => "Invalid rule '" ++ rule ++ "': " ++ reason
  | .invalidSelector selector reason => "Invalid selector '" ++ selector ++ "': " ++ reason
  | .invalidConfig reason => "Invalid config: " ++ reason

end CompileError

/-! ## Themes -/

inductive Theme where
  | null
  | flag (b : Bool)
  /-- The number `mantissa / 10 ^ scale`. -/
  | number (mantissa : Int) (scale : Nat)
  | text (s : String)
  | list (items : List Theme)
  | table (entries : List (String × Theme))
  deriving Repr, Inhabited

namespace Theme

/-- The entry of a table under a key. -/
def get? (θ : Theme) (key : String) : Option Theme :=
  match θ with
  | .table entries => entries.lookup key
  | _ => none

/-- The part of a theme at a path of keys. -/
def lookup (θ : Theme) (path : List String) : Option Theme := path.foldlM get? θ

/-- The text of a theme that is a text. -/
def text? : Theme → Option String
  | .text s => some s
  | _ => none

/-- The text at a path of keys. -/
def lookupText (θ : Theme) (path : List String) : Option String := (θ.lookup path).bind text?

end Theme

/-! ## Utilities and modifiers -/

/-- Whether a token is the name of a utility, or begins with the name and a dash. -/
def isNamedToken (name token : String) : Bool :=
  match Text.after? name token with
  | some rest => rest == "" || Text.beginsWith "-" rest
  | none => false

/-- A registered utility. -/
structure UtilityRule where
  name : String
  category : String := ""
  priority : Int := 0
  /-- Whether a token is a use of this utility. -/
  accepts : String → Bool := isNamedToken name
  /-- The declarations of a use. -/
  handle : Utility → Theme → Except CompileError (List Node)

namespace UtilityRule

/-- A utility without a value, which stands for fixed declarations. -/
def fixed (name : String) (decls : List Declaration) : UtilityRule where
  name := name
  accepts := fun token => token == name
  handle := fun u _ => .ok (if u.value = "" && !u.negative then decls.map .decl else [])

/-- A short description. -/
def summary (r : UtilityRule) : String :=
  "Utility \x7b name: " ++ Text.quoted r.name ++ ", category: " ++ Text.quoted r.category ++
    ", priority: " ++ toString r.priority ++ ", .. \x7d"

end UtilityRule

/-- A registered modifier. -/
structure ModifierRule where
  name : String
  /-- Whether a text is a use of this modifier. -/
  accepts : String → Theme → Bool := fun s _ => s == name
  /-- The path with the scope of a use. -/
  transform : Modifier → Path → Theme → Except CompileError (Option Path)

namespace ModifierRule

/-- A modifier that adds a fixed scope; it has no negative use. -/
def adding (name : String) (scope : Scope) : ModifierRule where
  name := name
  transform := fun m path _ => .ok (if m.negative then none else some (path ++ [.scope scope]))

/-- A modifier that adds a rule. -/
def selector (name template : String) : ModifierRule := adding name (.rule template)

/-- A modifier that adds an at-rule. -/
def atRule (name atName params : String) : ModifierRule := adding name (.atRule atName params)

/-- A short description. -/
def summary (r : ModifierRule) : String :=
  "Modifier \x7b name: " ++ Text.quoted r.name ++ ", .. \x7d"

end ModifierRule
end UtilityCss
