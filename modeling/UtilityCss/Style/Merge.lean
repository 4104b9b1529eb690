import UtilityCss.Selector.Nesting
import UtilityCss.Style.Node

/-!
# Declaration paths and forests

A declaration path is the flat form in which rules build up a style: scopes from the outermost
inwards, and declarations. `Path.nodes` folds it into a tree. A rule directly inside a rule is
composed with it where both templates have an anchor; every other scope keeps its own level. The
declarations of a path, wherever they stand in it, come to stand in the innermost scope.

A forest takes in one node at a time. A block goes into the first block of the forest that opens the
same scope, node by node; a declaration, or a block without such a place, is appended. So a scope
stays where it was first met, and declarations stay in the order in which they came.
-/

namespace UtilityCss

/-! ## Paths -/

/-- A part of a declaration path. -/
inductive Segment where
  | scope (s : Scope)
  | decl (d : Declaration)
  deriving DecidableEq, Repr

namespace Segment

/-- Whether a segment opens a scope. -/
def isScope : Segment → Bool
  | .scope _ => true
  | .decl _ => false

def scope? : Segment → Option Scope
  | .scope s => some s
  | .decl _ => none

def decl? : Segment → Option Declaration
  | .scope _ => none
  | .decl d => some d

end Segment

/-- A scope chain with declarations, outermost first. -/
abbrev Path := List Segment

/-- One rule for a rule directly inside another one, if their templates compose. -/
def Scope.absorb? : Scope → Scope → Option Scope
  | .rule outer, .rule inner => (Selector.compose outer inner).map .rule
  | _, _ => none

namespace Path

/-- Open a scope inside a chain of levels, the innermost of which comes first. -/
def openScope (levels : List Scope) (s : Scope) : List Scope :=
  match levels with
  | [] => [s]
  | level :: outer =>
    match level.absorb? s with
    | some merged => merged :: outer
    | none => s :: level :: outer

/-- The levels of a chain of scopes, the innermost first. -/
def levels (scopes : List Scope) : List Scope := scopes.foldl openScope []

/-- Nodes wrapped in levels, the innermost of which comes first. -/
def wrap (nodes : List Node) (levels : List Scope) : List Node :=
  levels.foldl (fun body s => [.block s none body]) nodes

/-- The declarations of a path, in order. -/
def decls (path : Path) : List Declaration := path.filterMap Segment.decl?

/-- The scopes of a path, outermost first. -/
def scopes (path : Path) : List Scope := path.filterMap Segment.scope?

/-- The tree of a path. Without a scope the declarations stand in the rule `&`; without a
declaration there is nothing. -/
def nodes (path : Path) : List Node :=
  if decls path = [] then []
  else
    let chain := if scopes path = [] then [.rule "&"] else levels (scopes path)
    wrap ((decls path).map .decl) chain

end Path

/-! ## Forests -/

namespace Forest

/-- Change the first block of a forest that opens the scope, or else append `fresh`. -/
def updateFirst (scope : Scope) (change : List Node → List Node) (fresh : Node) :
    List Node → List Node
  | [] => [fresh]
  | .block s source body :: rest =>
    if s = scope then .block s source (change body) :: rest
    else .block s source body :: updateFirst scope change fresh rest
  | n :: rest => n :: updateFirst scope change fresh rest

mutual
/-- Take a node into a forest. -/
def insert (forest : List Node) : Node → List Node
  | .decl d => forest ++ [.decl d]
  | .block scope source body =>
    updateFirst scope (fun content => insertAll content body) (.block scope source body) forest
/-- Take nodes into a forest, one after the other. -/
def insertAll (forest : List Node) : List Node → List Node
  | [] => forest
  | n :: ns => insertAll (insert forest n) ns
end

theorem insertAll_eq_foldl (forest nodes : List Node) :
    insertAll forest nodes = nodes.foldl insert forest := by
  induction nodes generalizing forest with
  | nil => rfl
  | cons n ns ih => simp [insertAll, ih]

/-- The trees of a list merged into one forest. -/
def merge (trees : List (List Node)) : List Node := trees.foldl insertAll []

end Forest
end UtilityCss
