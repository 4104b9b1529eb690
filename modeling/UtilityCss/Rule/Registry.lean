import UtilityCss.Rule.Basic

/-!
# The registry

Utility rules are kept by falling length of their names, in order of registration where the lengths
are equal, so that the first rule whose name begins a token has the longest such name. Modifier
rules are kept in order of registration, and the first that applies is the one that counts. Lengths
are counted in bytes. Before a rule is asked whether it applies, its name must begin the text. A plugin
is a named bundle of rules.

The style tree of a class name is its expansion: the rule of its utility gives the declarations, its
modifiers build up the path, the first of them outermost, and the path is folded into a tree. A class
name that some rule does not know or rejects stands for nothing.
-/

namespace UtilityCss

structure Registry where
  /-- The utility rules, longest names first. -/
  utilities : List UtilityRule
  /-- The modifier rules, in order of registration. -/
  modifiers : List ModifierRule

namespace Registry

def empty : Registry := ⟨[], []⟩

/-- A rule put before the first one with a shorter name. -/
def insertByLength (rule : UtilityRule) : List UtilityRule → List UtilityRule
  | [] => [rule]
  | r :: rs =>
    if r.name.utf8ByteSize < rule.name.utf8ByteSize then rule :: r :: rs
    else r :: insertByLength rule rs

def addUtility (reg : Registry) (rule : UtilityRule) : Registry :=
  { reg with utilities := insertByLength rule reg.utilities }

def addModifier (reg : Registry) (rule : ModifierRule) : Registry :=
  { reg with modifiers := reg.modifiers ++ [rule] }

/-- The number of rules. -/
def size (reg : Registry) : Nat := reg.utilities.length + reg.modifiers.length

/-- The utility rule of a name. -/
def findUtility? (reg : Registry) (name : String) : Option UtilityRule :=
  reg.utilities.find? fun r => r.name == name

/-- The utility rule with the longest name that is the token or stands before a dash in it, with
the text behind that dash. -/
def longestUtility? (reg : Registry) (token : String) : Option (UtilityRule × String) :=
  match reg.findUtility? token with
  | some r => some (r, "")
  | none => reg.utilities.findSome? fun r =>
      (Text.after? r.name token >>= Text.after? "-").map fun value => (r, value)

/-- A text without one leading dash. -/
def withoutDash (s : String) : String := (Text.after? "-" s).getD s

/-- The modifier rules whose names begin a text, or the text without its dash. -/
def modifierCandidates (reg : Registry) (s : String) : List ModifierRule :=
  reg.modifiers.filter fun r => Text.beginsWith r.name s || Text.beginsWith r.name (withoutDash s)

/-- The utility rules whose names begin a text. -/
def utilityCandidates (reg : Registry) (s : String) : List UtilityRule :=
  reg.utilities.filter fun r => Text.beginsWith r.name s

/-- The first modifier rule that applies to a text. -/
def findModifier? (reg : Registry) (θ : Theme) (s : String) : Option ModifierRule :=
  (reg.modifierCandidates s).find? fun r => r.accepts s θ

/-- Whether a token is a utility: some utility rule applies to it without its dash, and no modifier
rule applies to it. -/
def isUtilityToken (reg : Registry) (θ : Theme) (token : String) : Bool :=
  let bare := withoutDash token
  (reg.utilityCandidates bare).any (fun r => r.accepts bare) &&
    !(reg.modifierCandidates token).any (fun r => r.accepts token θ)

/-- A short description. -/
def summary (reg : Registry) : String :=
  "Registry \x7b utilities: " ++ Text.quotedList (reg.utilities.map (·.name)) ++
    ", modifiers: " ++ Text.quotedList (reg.modifiers.map (·.name)) ++ " \x7d"

end Registry

/-! ## Plugins -/

structure Plugin where
  name : String
  version : String := "0.0.0"
  description : String := ""
  /-- The registry with the rules of the plugin. -/
  register : Registry → Registry

/-- What is remembered of an installed plugin. -/
structure PluginRecord where
  name : String
  version : String
  description : String
  /-- The version of the registry right after the plugin was installed. -/
  registryVersion : Nat
  deriving DecidableEq, Repr

/-- The record of a plugin installed as the given version of the registry. -/
def Plugin.record (p : Plugin) (registryVersion : Nat) : PluginRecord :=
  ⟨p.name, p.version, p.description, registryVersion⟩

/-! ## Expansion -/

namespace Registry

/-- A value with its mark of importance. -/
def markedValue (important : Bool) (value : String) : String :=
  if important then value ++ " !important" else value

/-- The path that a chain of modifiers builds up, if no rule rejects it. -/
def scopePath? (reg : Registry) (θ : Theme) (path : Path) :
    List Modifier → Except CompileError (Option Path)
  | [] => .ok (some path)
  | m :: ms =>
    match reg.findModifier? θ m.kind with
    | none => .ok none
    | some rule =>
      match rule.transform m path θ with
      | .error e => .error e
      | .ok none => .ok none
      | .ok (some inner) => scopePath? reg θ inner ms

/-- The declarations among the nodes that a rule gave, which must be nothing else. -/
def declarationsOf (rule : UtilityRule) (nodes : List Node) :
    Except CompileError (List Declaration) :=
  nodes.mapM fun n =>
    match n with
    | .decl d => .ok d
    | .block _ _ _ => .error (.notADeclaration rule.name)

/-- The style tree of a utility under a chain of modifiers. -/
def expandUtility (reg : Registry) (θ : Theme) (modifiers : List Modifier) (u : Utility) :
    Except CompileError (List Node) := do
  match reg.findUtility? u.name with
  | none => return []
  | some rule =>
    let given ← rule.handle u θ
    if given = [] then return []
    match ← reg.scopePath? θ [] modifiers with
    | none => return []
    | some path =>
      let decls ← declarationsOf rule given
      return Path.nodes (path ++ decls.map fun d =>
        .decl { d with value := markedValue u.important d.value })

/-- The style tree of a class name. -/
def expand (reg : Registry) (θ : Theme) (c : ClassName) : Except CompileError (List Node) :=
  match c.utility with
  | none => .ok []
  | some u => reg.expandUtility θ c.modifiers u

end Registry
end UtilityCss
