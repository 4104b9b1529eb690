import UtilityCss.Proofs.Sheet.Flattening
import UtilityCss.Sheet.Basic

/-!
# What is lost without a selector

A tree that is written inside no selector loses the declarations in the inner blocks of an at-rule that
holds declarations itself, if no selector stands around that at-rule and its body does belong to one. What
is written and what is lost are together the declarations of the tree, each as often as it is written
there (`Node.written_append_lost_perm`). So nothing is lost if and only if the tree is `Whole`: no such
at-rule holds declarations both directly and in inner blocks (`Node.written_rootBlocks`).

Whether a selector stands around a node is all that counts of its surroundings. A rule puts one around its
body, an at-rule whose body belongs to no selector takes it away, and every other at-rule hands it on.
-/

namespace UtilityCss

namespace Scope

/-- Whether a selector stands around the body of a block, by whether one stands around the block. -/
def encloses (enclosed : Bool) : Scope → Bool
  | .rule _ => true
  | .verbatim _ => true
  | .atRule name _ => enclosed && name ∉ globalAtRules

/-- Whether the body of a block belongs to a selector, but none stands around it. -/
def isBare (enclosed : Bool) (s : Scope) : Bool := !s.isGlobal && !s.encloses enclosed

end Scope

namespace Block

/-- The declarations of blocks in the order of writing. -/
def written (outer : List (String × String)) (bs : List Block) : List Declaration :=
  (placementsAll outer bs).map Placement.decl

variable {outer : List (String × String)}

theorem written_append (bs cs : List Block) :
    written outer (bs ++ cs) = written outer bs ++ written outer cs := by
  rw [written, placementsAll_append, List.map_append]
  rfl

theorem written_styled (selector : String) (decls : List Declaration) :
    written outer (styled selector decls) = decls := by
  rw [written, placementsAll_styled]
  simp [Function.comp_def]

theorem written_around (name params : String) (inner : List Block) :
    written outer (around name params inner) = written (outer ++ [(name, params)]) inner := by
  rw [written, placementsAll_around]
  rfl

theorem written_atRule (name params : String) (decls : List Declaration) (inner : List Block) :
    written outer [.atRule name params decls inner] =
      decls ++ written (outer ++ [(name, params)]) inner := by
  simp [written, placementsAll, placements, Function.comp_def]

end Block

namespace Node

open Block

/-- The declarations in the blocks of a list. -/
def innerDeclarations (ns : List Node) : List Declaration := (blockPathsAll ns).map Prod.snd

mutual
/-- The declarations in a block that are not written, by whether a selector stands around it. -/
def lost (enclosed : Bool) : Node → List Declaration
  | .decl _ => []
  | .block s _ body =>
    if s.isBare enclosed ∧ declarations body ≠ [] then innerDeclarations body
    else lostAll (s.encloses enclosed) body
/-- The declarations in the blocks of a list that are not written. -/
def lostAll (enclosed : Bool) : List Node → List Declaration
  | [] => []
  | n :: ns => lost enclosed n ++ lostAll enclosed ns
end

mutual
/-- Whether no block that belongs to a selector without standing in one holds declarations both directly
and in inner blocks. -/
def Whole (enclosed : Bool) : Node → Prop
  | .decl _ => True
  | .block s _ body =>
    (s.isBare enclosed → declarations body = [] ∨ innerDeclarations body = []) ∧
      WholeAll (s.encloses enclosed) body
def WholeAll (enclosed : Bool) : List Node → Prop
  | [] => True
  | n :: ns => Whole enclosed n ∧ WholeAll enclosed ns
end

mutual
def decWhole (enclosed : Bool) : ∀ n : Node, Decidable (n.Whole enclosed)
  | .decl _ => isTrue trivial
  | .block s _ body =>
    haveI := decWholeAll (s.encloses enclosed) body
    inferInstanceAs (Decidable
      ((s.isBare enclosed → declarations body = [] ∨ innerDeclarations body = []) ∧
        WholeAll (s.encloses enclosed) body))
def decWholeAll (enclosed : Bool) : ∀ ns : List Node, Decidable (WholeAll enclosed ns)
  | [] => isTrue trivial
  | n :: ns =>
    haveI := decWhole enclosed n
    haveI := decWholeAll enclosed ns
    inferInstanceAs (Decidable (Whole enclosed n ∧ WholeAll enclosed ns))
end

instance (enclosed : Bool) (n : Node) : Decidable (n.Whole enclosed) := decWhole enclosed n

/-! ## Trees that lose nothing -/

theorem innerDeclarations_cons (n : Node) (ns : List Node) :
    innerDeclarations (n :: ns) = n.blockPaths.map Prod.snd ++ innerDeclarations ns := by
  rw [innerDeclarations, blockPathsAll, List.map_append]
  rfl

theorem map_blockPaths_block (s : Scope) (source : Option String) (body : List Node) :
    (blockPaths (.block s source body)).map Prod.snd = declarations body ++ innerDeclarations body := by
  simp [blockPaths, inScope, innerDeclarations, Function.comp_def]

mutual
theorem whole_of_blockPaths_eq_nil : ∀ (n : Node) (enclosed : Bool), n.blockPaths.map Prod.snd = [] →
    n.Whole enclosed
  | .decl _, _, _ => trivial
  | .block s source body, enclosed, h => by
    rw [map_blockPaths_block, List.append_eq_nil_iff] at h
    exact ⟨fun _ => .inr h.2, wholeAll_of_innerDeclarations_eq_nil body _ h.2⟩
theorem wholeAll_of_innerDeclarations_eq_nil : ∀ (ns : List Node) (enclosed : Bool),
    innerDeclarations ns = [] → WholeAll enclosed ns
  | [], _, _ => trivial
  | n :: ns, enclosed, h => by
    rw [innerDeclarations_cons, List.append_eq_nil_iff] at h
    exact ⟨whole_of_blockPaths_eq_nil n enclosed h.1,
      wholeAll_of_innerDeclarations_eq_nil ns enclosed h.2⟩
end

mutual
theorem lost_eq_nil_iff : ∀ (n : Node) (enclosed : Bool), n.lost enclosed = [] ↔ n.Whole enclosed
  | .decl _, _ => iff_of_true rfl trivial
  | .block s source body, enclosed => by
    rw [lost, Whole]
    split
    · next h =>
      constructor
      · intro hnil
        exact ⟨fun _ => .inr hnil, wholeAll_of_innerDeclarations_eq_nil body _ hnil⟩
      · intro hwhole
        exact (hwhole.1 h.1).resolve_left h.2
    · next h =>
      have hdirect : s.isBare enclosed = true → declarations body = [] := by simpa using h
      rw [lostAll_eq_nil_iff body (s.encloses enclosed)]
      exact ⟨fun hwhole => ⟨fun hbare => .inl (hdirect hbare), hwhole⟩, fun hwhole => hwhole.2⟩
theorem lostAll_eq_nil_iff : ∀ (ns : List Node) (enclosed : Bool),
    lostAll enclosed ns = [] ↔ WholeAll enclosed ns
  | [], _ => iff_of_true rfl trivial
  | n :: ns, enclosed => by
    rw [lostAll, WholeAll, List.append_eq_nil_iff, lost_eq_nil_iff n enclosed,
      lostAll_eq_nil_iff ns enclosed]
end

/-! ## What is written and what is lost -/

theorem exists_blocks_eq {s : Scope} (hs : s.atRule? = none) (parent : Option String)
    (source : Option String) (body : List Node) :
    ∃ selector, (Node.block s source body).blocks parent =
      styled selector (declarations body) ++ blocksAll (some selector) body := by
  cases s with
  | rule t => exact ⟨resolveIn Selector.resolve parent t, rfl⟩
  | verbatim t => exact ⟨resolveIn Selector.resolveVerbatim parent t, rfl⟩
  | atRule name params => cases hs

theorem encloses_of_atRule?_eq_none {s : Scope} (hs : s.atRule? = none) (enclosed : Bool) :
    s.encloses enclosed = true := by
  cases s with
  | rule t => rfl
  | verbatim t => rfl
  | atRule name params => cases hs

theorem written_of_isBare {s : Scope} {parent : Option String} (hbare : s.isBare parent.isSome = true)
    {body : List Node} (hdecls : declarations body ≠ []) (source : Option String)
    (outer : List (String × String)) :
    written outer ((Node.block s source body).blocks parent) = declarations body := by
  obtain ⟨hlocal, hopen⟩ : s.isGlobal = false ∧ s.encloses parent.isSome = false := by
    simpa [Scope.isBare] using hbare
  cases hat : s.atRule? with
  | none =>
    rw [encloses_of_atRule?_eq_none hat] at hopen
    cases hopen
  | some x =>
    obtain ⟨name, params⟩ := x
    obtain rfl := Scope.eq_of_atRule? hat
    have hname : name ∉ globalAtRules := by simpa [Scope.isGlobal] using hlocal
    obtain rfl : parent = none := by simpa [Scope.encloses, hname] using hopen
    rw [blocks_atRule_none hname, if_neg hdecls, written_atRule]
    simp [written, placementsAll]

theorem exists_written_eq {s : Scope} {parent : Option String} {body : List Node}
    (h : ¬ (s.isBare parent.isSome = true ∧ declarations body ≠ [])) (source : Option String)
    (outer : List (String × String)) :
    ∃ inner within, within.isSome = s.encloses parent.isSome ∧
      written outer ((Node.block s source body).blocks parent) =
        declarations body ++ written inner (blocksAll within body) := by
  cases hat : s.atRule? with
  | none =>
    obtain ⟨selector, hblocks⟩ := exists_blocks_eq hat parent source body
    refine ⟨outer, some selector, (encloses_of_atRule?_eq_none hat _).symm, ?_⟩
    rw [hblocks, written_append, written_styled]
  | some x =>
    obtain ⟨name, params⟩ := x
    obtain rfl := Scope.eq_of_atRule? hat
    by_cases hname : name ∈ globalAtRules
    · refine ⟨outer ++ [(name, params)], none, by simp [Scope.encloses, hname], ?_⟩
      rw [blocks_global hname, written_atRule]
    · refine ⟨outer ++ [(name, params)], parent, by simp [Scope.encloses, hname], ?_⟩
      cases parent with
      | some p => rw [blocks_atRule hname, written_around, written_append, written_styled]
      | none =>
        have hbare : (Scope.atRule name params).isBare false = true := by
          simp [Scope.isBare, Scope.isGlobal, Scope.encloses, hname]
        have hempty : declarations body = [] :=
          Classical.byContradiction fun hdecls => h ⟨hbare, hdecls⟩
        rw [blocks_atRule_none hname, if_pos hempty, written_around, hempty]
        rfl

mutual
theorem written_append_lost_perm : ∀ (n : Node) (outer : List (String × String))
    (parent : Option String), (written outer (n.blocks parent) ++ n.lost parent.isSome).Perm
      (n.blockPaths.map Prod.snd)
  | .decl _, _, _ => .refl _
  | .block s source body, outer, parent => by
    rw [map_blockPaths_block, lost]
    split
    · next h => rw [written_of_isBare h.1 h.2]
    · next h =>
      obtain ⟨inner, within, hwithin, hwritten⟩ := exists_written_eq h source outer
      rw [hwritten, ← hwithin, List.append_assoc]
      exact (writtenAll_append_lostAll_perm body inner within).append_left _
theorem writtenAll_append_lostAll_perm : ∀ (ns : List Node) (outer : List (String × String))
    (parent : Option String), (written outer (blocksAll parent ns) ++ lostAll parent.isSome ns).Perm
      (innerDeclarations ns)
  | [], _, _ => .refl _
  | n :: ns, outer, parent => by
    have hn := written_append_lost_perm n outer parent
    have hns := writtenAll_append_lostAll_perm ns outer parent
    rw [blocksAll, written_append, lostAll, innerDeclarations_cons]
    generalize written outer (n.blocks parent) = first at hn
    generalize written outer (blocksAll parent ns) = rest at hns
    -- what the first block loses is moved before what the others are written with
    calc (first ++ rest ++ (lost parent.isSome n ++ lostAll parent.isSome ns)).Perm
          (first ++ lost parent.isSome n ++ (rest ++ lostAll parent.isSome ns)) := by
            simp only [List.append_assoc]
            exact (List.perm_append_comm_assoc _ _ _).append_left _
      List.Perm _ (n.blockPaths.map Prod.snd ++ innerDeclarations ns) := hn.append hns
end

/-- **What is written and what is lost.** The declarations that a block node is written with inside a
selector or in none, and those that are lost, are together those of the tree, each as often as it stands
there. All of them are written if and only if no at-rule without a selector around it, the body of which
belongs to a selector, holds declarations both directly and in inner blocks. -/
theorem written_rootBlocks (n : Node) (hn : n.isDeclaration = false) (parent : Option String) :
    (written [] (n.rootBlocks parent) ++ n.lost parent.isSome).Perm n.leaves ∧
      ((written [] (n.rootBlocks parent)).Perm n.leaves ↔ n.Whole parent.isSome) := by
  have hroot : n.rootBlocks parent = n.blocks parent := by
    cases n with
    | decl d => cases hn
    | block s source body => rfl
  have hall : (written [] (n.rootBlocks parent) ++ n.lost parent.isSome).Perm n.leaves := by
    rw [hroot]
    exact (written_append_lost_perm n [] parent).trans (blockPaths_perm n hn)
  refine ⟨hall, ?_⟩
  rw [← lost_eq_nil_iff]
  constructor
  · intro hwritten
    have hlength := (hall.trans hwritten.symm).length_eq
    rw [List.length_append] at hlength
    exact List.length_eq_zero_iff.mp (by omega)
  · intro hlost
    simpa [hlost] using hall

/-- A rule in an at-rule that holds nothing else, which stands beside keyframes, and an at-rule with a
declaration inside a rule. -/
def supportedTree : Node :=
  .block (.atRule "supports" "(gap: 0)") none
    [.block (.atRule "media" "print") none
        [.block (.rule "a, &") none
          [.decl ⟨"color", "red"⟩,
            .block (.atRule "layer" "") none
              [.decl ⟨"top", "0"⟩, .block (.verbatim "p") none [.decl ⟨"top", "0"⟩]]]],
      .block (.atRule "keyframes" "spin") none
        [.decl ⟨"color", "red"⟩, .block (.rule "to") none [.decl ⟨"opacity", "1"⟩]]]

theorem written_rootBlocks_supportedTree :
    supportedTree.isDeclaration = false ∧ supportedTree.Whole false ∧
      (written [] (supportedTree.rootBlocks none)).Perm supportedTree.leaves := by
  have hwhole : supportedTree.Whole false := by decide
  exact ⟨rfl, hwhole, (written_rootBlocks supportedTree rfl none).2.mpr hwhole⟩

/-- An at-rule that holds a declaration and a rule, in no selector. -/
def severedMedia : Node :=
  .block (.atRule "media" "print") none
    [.decl ⟨"color", "red"⟩, .block (.rule "a") none [.decl ⟨"margin", "0"⟩]]

/-- The rule is not written. -/
theorem written_rootBlocks_severedMedia :
    severedMedia.css .pretty none = "@media print \x7b\n  color: red;\n\x7d\n" ∧
      ¬ (written [] (severedMedia.rootBlocks none)).Perm severedMedia.leaves := by
  decide +kernel

end Node
end UtilityCss
