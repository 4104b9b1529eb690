/-!
# Style trees

A style tree is made of declarations and of blocks. A block opens a scope: a rule whose selector is
a template, an at-rule, or a rule whose selector is kept verbatim. Two blocks open the same scope if
their scopes are equal, wherever they come from.
-/

namespace UtilityCss

/-- A property with its value. -/
structure Declaration where
  property : String
  value : String
  deriving DecidableEq, Repr

/-- What a block opens. -/
inductive Scope where
  /-- A rule with a selector template. -/
  | rule (selector : String)
  /-- An at-rule, by its name without the `@` and its parameters. -/
  | atRule (name params : String)
  /-- A rule whose selector is neither put in normal form nor joined with another one. -/
  | verbatim (selector : String)
  deriving DecidableEq, Repr

/-- Whether blocks of this scope tell the class name that they come from. -/
def Scope.isSourced : Scope → Bool
  | .verbatim _ => false
  | _ => true

inductive Node where
  | decl (d : Declaration)
  /-- A block with its scope, the class name that it comes from if known, and what it holds. -/
  | block (scope : Scope) (source : Option String) (body : List Node)
  deriving Repr

namespace Node

mutual
/-- Whether two nodes are equal, sources included. -/
def decEq (a b : Node) : Decidable (a = b) :=
  match a, b with
  | .decl d, .decl e => decidable_of_iff (d = e) (by simp)
  | .block s o body, .block t p content =>
    haveI := decEqAll body content
    decidable_of_iff (s = t ∧ o = p ∧ body = content) (by simp)
  | .decl _, .block _ _ _ => isFalse (by simp)
  | .block _ _ _, .decl _ => isFalse (by simp)
/-- Whether two lists of nodes are equal. -/
def decEqAll (as bs : List Node) : Decidable (as = bs) :=
  match as, bs with
  | [], [] => isTrue rfl
  | a :: as, b :: bs =>
    haveI := decEq a b
    haveI := decEqAll as bs
    decidable_of_iff (a = b ∧ as = bs) (by simp)
  | [], _ :: _ => isFalse (by simp)
  | _ :: _, [] => isFalse (by simp)
end

instance : DecidableEq Node := decEq

instance : Inhabited Node := ⟨.decl ⟨"", ""⟩⟩

/-- Whether a node is a declaration. -/
def isDeclaration : Node → Bool
  | .decl _ => true
  | .block _ _ _ => false

def declaration? : Node → Option Declaration
  | .decl d => some d
  | .block _ _ _ => none

/-- What a block holds. -/
def body : Node → List Node
  | .decl _ => []
  | .block _ _ body => body

/-- The scope that a block opens. -/
def scope? : Node → Option Scope
  | .decl _ => none
  | .block scope _ _ => some scope

/-- Whether two blocks open the same scope; no declaration does. -/
def sameScope (a b : Node) : Bool :=
  match a, b with
  | .block s _ _, .block t _ _ => s == t
  | _, _ => false

/-- The declarations that stand directly in a list of nodes. -/
def declarations (nodes : List Node) : List Declaration := nodes.filterMap declaration?

mutual
/-- The number of scopes around the innermost node. -/
def depth : Node → Nat
  | .decl _ => 0
  | .block _ _ body => 1 + depthAll body
/-- The greatest depth in a list of nodes. -/
def depthAll : List Node → Nat
  | [] => 0
  | n :: ns => max (depth n) (depthAll ns)
end

mutual
/-- The node with every sourced block in it marked as coming from `cls`. -/
def withSource (cls : String) : Node → Node
  | .decl d => .decl d
  | .block scope source body =>
    .block scope (if scope.isSourced then some cls else source) (withSourceAll cls body)
/-- The nodes with every sourced block in them marked as coming from `cls`. -/
def withSourceAll (cls : String) : List Node → List Node
  | [] => []
  | n :: ns => withSource cls n :: withSourceAll cls ns
end

theorem withSourceAll_eq_map (cls : String) (nodes : List Node) :
    withSourceAll cls nodes = nodes.map (withSource cls) := by
  induction nodes with
  | nil => rfl
  | cons n ns ih => simp [withSourceAll, ih]

end Node
end UtilityCss
