import UtilityCss.Sheet.Basic

/-!
# Flattening keeps every declaration in its place

A style tree is written as blocks that nest no rules. The blocks of a node inside a selector hold the
declarations of the node, each once, in the at-rules and under the selector that its place in the
tree gives it (`placements_rootBlocks`). The at-rules whose bodies belong to no selector are left out
here: under them there is no selector to be in.

Both sides are read as lists of placements. On the side of the tree, `Node.paths` lists the
declarations with the scopes around them, outermost first, and `Placement.ofPath` folds the scopes
from the selector around the node. On the side of the blocks, `Block.placements` walks blocks with
the at-rules that have been entered. The at-rules entered so far are what the induction over the tree
is generalised over.
-/

namespace UtilityCss

/-- Where a declaration comes to stand in a style sheet. -/
structure Placement where
  /-- The at-rules around the declaration by name and parameters, outermost first. -/
  atRules : List (String × String)
  /-- The selector of the style block of the declaration, if it stands in one. -/
  selector : Option String
  decl : Declaration
  deriving DecidableEq, Repr

/-! ## The declarations of blocks -/

namespace Block

mutual
/-- The declarations of a block inside the at-rules `outer`. -/
def placements (outer : List (String × String)) : Block → List Placement
  | .style selector decls => decls.map fun d => ⟨outer, some selector, d⟩
  | .atRule name params decls inner =>
    decls.map (fun d => ⟨outer ++ [(name, params)], none, d⟩) ++
      placementsAll (outer ++ [(name, params)]) inner
/-- The declarations of blocks inside the at-rules `outer`. -/
def placementsAll (outer : List (String × String)) : List Block → List Placement
  | [] => []
  | b :: bs => placements outer b ++ placementsAll outer bs
end

theorem placementsAll_append (outer : List (String × String)) (bs cs : List Block) :
    placementsAll outer (bs ++ cs) = placementsAll outer bs ++ placementsAll outer cs := by
  induction bs with
  | nil => rfl
  | cons b bs ih => simp [placementsAll, ih]

theorem placementsAll_styled (outer : List (String × String)) (selector : String)
    (decls : List Declaration) :
    placementsAll outer (styled selector decls) = decls.map fun d => ⟨outer, some selector, d⟩ := by
  unfold styled
  split
  · next h => simp [h, placementsAll]
  · simp [placementsAll, placements]

theorem placementsAll_around (outer : List (String × String)) (name params : String)
    (inner : List Block) :
    placementsAll outer (around name params inner) =
      placementsAll (outer ++ [(name, params)]) inner := by
  cases inner with
  | nil => rfl
  | cons b bs => simp [around, placementsAll, placements]

end Block

/-! ## The declarations of trees -/

namespace Scope

/-- Whether the body of a block with this scope belongs to no selector. -/
def isGlobal : Scope → Bool
  | .atRule name _ => name ∈ globalAtRules
  | _ => false

def atRule? : Scope → Option (String × String)
  | .atRule name params => some (name, params)
  | _ => none

theorem eq_of_atRule? {s : Scope} {x : String × String} (h : s.atRule? = some x) :
    s = .atRule x.1 x.2 := by
  cases s with
  | rule t => cases h
  | verbatim t => cases h
  | atRule name params =>
    obtain rfl := Option.some.inj h
    rfl

/-- The selector inside a scope, by the selector around it. -/
def under (parent : String) : Scope → String
  | .rule template => Selector.resolve parent template
  | .verbatim template => Selector.resolveVerbatim parent template
  | .atRule _ _ => parent

end Scope

namespace Node

mutual
/-- The scopes that a tree opens. -/
def scopes : Node → List Scope
  | .decl _ => []
  | .block s _ body => s :: scopesAll body
/-- The scopes that trees open. -/
def scopesAll : List Node → List Scope
  | [] => []
  | n :: ns => scopes n ++ scopesAll ns
end

/-- A declaration with its scopes inside one more scope. -/
def inScope (s : Scope) (x : List Scope × Declaration) : List Scope × Declaration := (s :: x.1, x.2)

mutual
/-- The declarations inside a block, each with the scopes around it: those that stand directly in it,
and then those of its inner blocks. -/
def blockPaths : Node → List (List Scope × Declaration)
  | .decl _ => []
  | .block s _ body =>
    ((declarations body).map (fun d => ([], d)) ++ blockPathsAll body).map (inScope s)
/-- The declarations inside the blocks of a list. -/
def blockPathsAll : List Node → List (List Scope × Declaration)
  | [] => []
  | n :: ns => blockPaths n ++ blockPathsAll ns
end

/-- The declarations of a tree, each with the scopes around it, outermost first. -/
def paths : Node → List (List Scope × Declaration)
  | .decl d => [([], d)]
  | n => blockPaths n

mutual
/-- The declarations of a tree in the order of writing. -/
def leaves : Node → List Declaration
  | .decl d => [d]
  | .block _ _ body => leavesAll body
/-- The declarations of trees in the order of writing. -/
def leavesAll : List Node → List Declaration
  | [] => []
  | n :: ns => leaves n ++ leavesAll ns
end

mutual
theorem blockPaths_perm : ∀ n : Node, n.isDeclaration = false →
    ((blockPaths n).map Prod.snd).Perm (leaves n)
  | .decl _, h => by simp [isDeclaration] at h
  | .block s _ body, _ => by
    have h := blockPathsAll_perm body
    simpa [blockPaths, leaves, inScope, Function.comp_def] using h
theorem blockPathsAll_perm : ∀ ns : List Node,
    (declarations ns ++ (blockPathsAll ns).map Prod.snd).Perm (leavesAll ns)
  | [] => .refl _
  | .decl d :: ns => by
    simpa [declarations, declaration?, blockPathsAll, blockPaths, leavesAll, leaves] using
      blockPathsAll_perm ns
  | .block s source body :: ns => by
    have hn := blockPaths_perm (.block s source body) rfl
    have hns := blockPathsAll_perm ns
    have hd : declarations (.block s source body :: ns) = declarations ns := rfl
    rw [hd, blockPathsAll, leavesAll, List.map_append]
    -- the declarations that stand directly in the list are moved past those of the first block
    exact (List.perm_append_comm_assoc _ _ _).trans (hn.append hns)
end

theorem paths_perm (n : Node) : (n.paths.map Prod.snd).Perm n.leaves := by
  cases n with
  | decl d => exact .refl _
  | block s source body => exact blockPaths_perm (.block s source body) rfl

end Node

namespace Placement

/-- The place of a declaration with these scopes around it, inside the selector `parent`. -/
def ofPath (parent : String) (x : List Scope × Declaration) : Placement where
  atRules := x.1.filterMap Scope.atRule?
  selector := some (x.1.foldl Scope.under parent)
  decl := x.2

/-- A placement inside further at-rules. -/
def inside (outer : List (String × String)) (p : Placement) : Placement :=
  { p with atRules := outer ++ p.atRules }

end Placement

/-! ## Flattening -/

namespace Node

open Block Placement

theorem blocks_of_atRule?_eq_none {s : Scope} (hs : s.atRule? = none) (parent : String)
    (source : Option String) (body : List Node) :
    (Node.block s source body).blocks (some parent) =
      styled (s.under parent) (declarations body) ++ blocksAll (some (s.under parent)) body := by
  cases s with
  | rule template => rfl
  | verbatim template => rfl
  | atRule name params => simp [Scope.atRule?] at hs

theorem blocks_atRule {name : String} (hname : name ∉ globalAtRules) (params parent : String)
    (source : Option String) (body : List Node) :
    (Node.block (.atRule name params) source body).blocks (some parent) =
      around name params (styled parent (declarations body) ++ blocksAll (some parent) body) := by
  rw [blocks, if_neg hname]

theorem blocks_global {name : String} (hname : name ∈ globalAtRules) (params : String)
    (source : Option String) (body : List Node) (parent : Option String) :
    (Node.block (.atRule name params) source body).blocks parent =
      [.atRule name params (declarations body) (blocksAll none body)] := by
  cases parent <;> rw [blocks, if_pos hname]

theorem blocks_atRule_none {name : String} (hname : name ∉ globalAtRules) (params : String)
    (source : Option String) (body : List Node) :
    (Node.block (.atRule name params) source body).blocks none =
      if declarations body = [] then around name params (blocksAll none body)
      else [.atRule name params (declarations body) []] := by
  rw [blocks, if_neg hname]

mutual
theorem placementsAll_blocks : ∀ (n : Node) (outer : List (String × String)) (parent : String),
    (∀ s ∈ n.scopes, s.isGlobal = false) →
    placementsAll outer (n.blocks (some parent)) =
      n.blockPaths.map fun x => (ofPath parent x).inside outer
  | .decl _, _, _, _ => rfl
  | .block s source body, outer, parent, h => by
    have hlocal : s.isGlobal = false := h s (by simp [scopes])
    have hbody : ∀ s ∈ scopesAll body, s.isGlobal = false :=
      fun s hs => h s (List.mem_cons_of_mem _ hs)
    cases hs : s.atRule? with
    | none =>
      rw [blocks_of_atRule?_eq_none hs, placementsAll_append, placementsAll_styled,
        placementsAll_blocksAll body outer (s.under parent) hbody]
      simp [blockPaths, ofPath, inside, inScope, hs, Function.comp_def]
    | some x =>
      obtain ⟨name, params⟩ := x
      obtain rfl := Scope.eq_of_atRule? hs
      have hname : name ∉ globalAtRules := by simpa [Scope.isGlobal] using hlocal
      rw [blocks_atRule hname, placementsAll_around, placementsAll_append, placementsAll_styled,
        placementsAll_blocksAll body (outer ++ [(name, params)]) parent hbody]
      simp [blockPaths, ofPath, inside, inScope, Scope.under, Scope.atRule?, Function.comp_def]
theorem placementsAll_blocksAll :
    ∀ (ns : List Node) (outer : List (String × String)) (parent : String),
    (∀ s ∈ scopesAll ns, s.isGlobal = false) →
    placementsAll outer (blocksAll (some parent) ns) =
      (blockPathsAll ns).map fun x => (ofPath parent x).inside outer
  | [], _, _, _ => rfl
  | n :: ns, outer, parent, h => by
    have hn := placementsAll_blocks n outer parent
      (fun s hs => h s (List.mem_append_left _ hs))
    have hns := placementsAll_blocksAll ns outer parent
      (fun s hs => h s (List.mem_append_right _ hs))
    rw [blocksAll, placementsAll_append, hn, hns, blockPathsAll, List.map_append]
end

/-- **Flattening keeps every declaration in its place.** The blocks of a node inside a selector hold
exactly the declarations of the node: in the order of their paths, each with the at-rules of its path
and with the selector that the scopes of its path give. -/
theorem placements_rootBlocks (parent : String) (n : Node)
    (h : ∀ s ∈ n.scopes, s.isGlobal = false) :
    placementsAll [] (n.rootBlocks (some parent)) = n.paths.map (ofPath parent) ∧
      ((placementsAll [] (n.rootBlocks (some parent))).map Placement.decl).Perm n.leaves := by
  have heq : placementsAll [] (n.rootBlocks (some parent)) = n.paths.map (ofPath parent) := by
    cases n with
    | decl d => rfl
    | block s source body => exact placementsAll_blocks (.block s source body) [] parent h
  refine ⟨heq, ?_⟩
  rw [heq, List.map_map]
  exact n.paths_perm

/-- A rule that holds a declaration between an at-rule and a verbatim rule, which holds a rule. -/
def mixedTree : Node :=
  .block (.rule "&:hover") none
    [.block (.atRule "media" "print") none [.decl ⟨"color", "red"⟩, .block (.rule "li&") none []],
      .decl ⟨"margin", "0"⟩,
      .block (.verbatim "&>*") none [.block (.rule "& p, b") none [.decl ⟨"color", "blue"⟩]]]

theorem placements_rootBlocks_mixedTree :
    (∀ s ∈ mixedTree.scopes, s.isGlobal = false) ∧
      placementsAll [] (mixedTree.rootBlocks (some ".c")) =
        [⟨[], some ".c:hover", ⟨"margin", "0"⟩⟩,
          ⟨[("media", "print")], some ".c:hover", ⟨"color", "red"⟩⟩,
          ⟨[], some ".c:hover > * p, .c:hover > * b", ⟨"color", "blue"⟩⟩] := by
  have h : ∀ s ∈ mixedTree.scopes, s.isGlobal = false := by decide
  refine ⟨h, (placements_rootBlocks ".c" mixedTree h).1.trans ?_⟩
  decide +kernel

end Node
end UtilityCss
