import UtilityCss.Proofs.Selector.Carrying
import UtilityCss.Proofs.Sheet.BlockItems
import UtilityCss.Proofs.Sheet.Flattening

/-!
# The two layouts carry the same rules

Style trees whose texts hold no brace and no semicolon are flattened to blocks of the same kind
(`isPlain_rootBlocks`), because resolving a selector brings in none of these marks. So the pretty text of
such a tree is read as what its blocks stand for. The minified text is read as the same if and only if no
block holds declarations beside further blocks (`Node.readItems?_minified_eq_iff`).

Flattening makes such blocks only of the at-rules whose bodies belong to no selector, and only if they hold
both themselves (`Node.isUnmixed_rootBlocks`). There the minified layout leaves out a semicolon that the
pretty one has (`Node.readItems?_minified_mixedKeyframes`).
-/

namespace UtilityCss

/-! ## Texts without marks -/

theorem unmarked_append {s t : String} (hs : Unmarked s) (ht : Unmarked t) : Unmarked (s ++ t) := by
  rw [Unmarked, String.toList_append]
  exact List.forall_mem_append.mpr ⟨hs, ht⟩

theorem unmarked_atHead {name params : String} (hname : Unmarked name) (hparams : Unmarked params) :
    Unmarked (Block.atHead name params) := by
  have hat : Unmarked ("@" ++ name) := unmarked_append (by decide) hname
  unfold Block.atHead
  split
  · exact hat
  · exact unmarked_append (unmarked_append hat (by decide)) hparams

theorem isSheetMark_joints : ∀ c ∈ Selector.joints, isSheetMark c = false := by
  simp [Selector.joints, isSheetMark]

theorem unmarked_resolve {parent template : String} (hp : Unmarked parent) (ht : Unmarked template) :
    Unmarked (Selector.resolve parent template) :=
  Selector.forall_mem_resolve isSheetMark_joints hp ht

theorem unmarked_resolveVerbatim {parent template : String} (hp : Unmarked parent)
    (ht : Unmarked template) : Unmarked (Selector.resolveVerbatim parent template) :=
  Selector.forall_mem_resolveVerbatim isSheetMark_joints hp ht

theorem unmarked_resolveIn {resolve : String → String → String}
    (hresolve : ∀ {p t}, Unmarked p → Unmarked t → Unmarked (resolve p t)) {parent : Option String}
    {template : String} (hp : ∀ p ∈ parent, Unmarked p) (ht : Unmarked template) :
    Unmarked (Node.resolveIn resolve parent template) := by
  cases parent with
  | none => exact ht
  | some p => exact hresolve (hp p rfl) ht

namespace Scope

/-- Whether the texts of a scope hold no mark. -/
def IsPlain : Scope → Prop
  | .rule template => Unmarked template
  | .verbatim template => Unmarked template
  | .atRule name params => Unmarked name ∧ Unmarked params

instance : DecidablePred IsPlain
  | .rule template => inferInstanceAs (Decidable (Unmarked template))
  | .verbatim template => inferInstanceAs (Decidable (Unmarked template))
  | .atRule name params => inferInstanceAs (Decidable (Unmarked name ∧ Unmarked params))

end Scope

/-! ## Parts of flattened trees -/

namespace Block

variable {selector name params : String} {decls : List Declaration} {inner : List Block}

theorem isPlain_styled (hselector : Unmarked selector) (hdecls : ∀ d ∈ decls, d.IsPlain) :
    ∀ b ∈ styled selector decls, b.IsPlain := by
  unfold styled
  split
  · simp
  · simpa [IsPlain] using ⟨hselector, hdecls⟩

theorem isPlain_around (hhead : Unmarked (atHead name params)) (hinner : ∀ b ∈ inner, b.IsPlain) :
    ∀ b ∈ around name params inner, b.IsPlain := by
  cases inner with
  | nil => simp [around]
  | cons b bs => simpa [around, IsPlain, isPlainAll_iff.mpr hinner] using hhead

theorem isUnmixed_styled : ∀ b ∈ styled selector decls, b.IsUnmixed := by
  unfold styled
  split <;> simp [IsUnmixed]

theorem isUnmixed_around (hinner : ∀ b ∈ inner, b.IsUnmixed) :
    ∀ b ∈ around name params inner, b.IsUnmixed := by
  cases inner with
  | nil => simp [around]
  | cons b bs => simpa [around, IsUnmixed] using isUnmixedAll_iff.mpr hinner

end Block

namespace Node

open Block

theorem blocksAll_eq_nil {parent : Option String} {ns : List Node}
    (h : ∀ n ∈ ns, n.isDeclaration = true) : blocksAll parent ns = [] := by
  induction ns with
  | nil => rfl
  | cons n ns ih =>
    obtain ⟨hn, hns⟩ := List.forall_mem_cons.mp h
    cases n with
    | decl d => simpa [blocksAll, blocks] using ih hns
    | block s source body => cases hn

/-! ## Plain trees -/

/-- A tree whose texts can be told apart from the marks between them. -/
structure IsPlain (n : Node) : Prop where
  scopes : ∀ s ∈ n.scopes, s.IsPlain
  leaves : ∀ d ∈ n.leaves, d.IsPlain

instance (n : Node) : Decidable n.IsPlain :=
  decidable_of_iff ((∀ s ∈ n.scopes, s.IsPlain) ∧ ∀ d ∈ n.leaves, d.IsPlain)
    ⟨fun ⟨hscopes, hleaves⟩ => ⟨hscopes, hleaves⟩, fun h => ⟨h.scopes, h.leaves⟩⟩

theorem declarations_subset_leavesAll (ns : List Node) : declarations ns ⊆ leavesAll ns :=
  fun _ hd => (blockPathsAll_perm ns).subset (List.mem_append_left _ hd)

mutual
theorem isPlain_blocks : ∀ (n : Node) (parent : Option String), (∀ p ∈ parent, Unmarked p) →
    (∀ s ∈ n.scopes, s.IsPlain) → (∀ d ∈ n.leaves, d.IsPlain) → ∀ b ∈ n.blocks parent, b.IsPlain
  | .decl _, _, _, _, _ => by simp [blocks]
  | .block (.rule template) source body, parent, hparent, hscopes, hleaves => by
    obtain ⟨htemplate, hbody⟩ := List.forall_mem_cons.mp hscopes
    have hselector := unmarked_resolveIn unmarked_resolve hparent htemplate
    have hinner := isPlain_blocksAll body (some _) (by simpa using hselector) hbody hleaves
    have hdecls := fun d hd => hleaves d (declarations_subset_leavesAll body hd)
    rw [blocks]
    exact List.forall_mem_append.mpr ⟨isPlain_styled hselector hdecls, hinner⟩
  | .block (.verbatim template) source body, parent, hparent, hscopes, hleaves => by
    obtain ⟨htemplate, hbody⟩ := List.forall_mem_cons.mp hscopes
    have hselector := unmarked_resolveIn unmarked_resolveVerbatim hparent htemplate
    have hinner := isPlain_blocksAll body (some _) (by simpa using hselector) hbody hleaves
    have hdecls := fun d hd => hleaves d (declarations_subset_leavesAll body hd)
    rw [blocks]
    exact List.forall_mem_append.mpr ⟨isPlain_styled hselector hdecls, hinner⟩
  | .block (.atRule name params) source body, parent, hparent, hscopes, hleaves => by
    obtain ⟨htexts, hbody⟩ := List.forall_mem_cons.mp hscopes
    have hhead := unmarked_atHead htexts.1 htexts.2
    have hdecls := fun d hd => hleaves d (declarations_subset_leavesAll body hd)
    have hnone := isPlain_blocksAll body none (by simp) hbody hleaves
    by_cases hname : name ∈ globalAtRules
    · rw [blocks_global hname]
      simpa [Block.IsPlain, isPlainAll_iff] using ⟨hhead, hdecls, hnone⟩
    · cases parent with
      | some p =>
        have hinner := isPlain_blocksAll body (some p) hparent hbody hleaves
        have hstyled := isPlain_styled (hparent p rfl) hdecls
        rw [blocks_atRule hname]
        exact isPlain_around hhead (List.forall_mem_append.mpr ⟨hstyled, hinner⟩)
      | none =>
        rw [blocks_atRule_none hname]
        split
        · exact isPlain_around hhead hnone
        · simpa [Block.IsPlain, isPlainAll_iff] using ⟨hhead, hdecls⟩
theorem isPlain_blocksAll : ∀ (ns : List Node) (parent : Option String),
    (∀ p ∈ parent, Unmarked p) → (∀ s ∈ scopesAll ns, s.IsPlain) →
    (∀ d ∈ leavesAll ns, d.IsPlain) → ∀ b ∈ blocksAll parent ns, b.IsPlain
  | [], _, _, _, _ => by simp [blocksAll]
  | n :: ns, parent, hparent, hscopes, hleaves => by
    rw [scopesAll, List.forall_mem_append] at hscopes
    rw [leavesAll, List.forall_mem_append] at hleaves
    rw [blocksAll, List.forall_mem_append]
    exact ⟨isPlain_blocks n parent hparent hscopes.1 hleaves.1,
      isPlain_blocksAll ns parent hparent hscopes.2 hleaves.2⟩
end

theorem isPlain_rootBlocks {n : Node} {parent : Option String} (hparent : ∀ p ∈ parent, Unmarked p)
    (hn : n.IsPlain) : ∀ b ∈ n.rootBlocks parent, b.IsPlain := by
  cases n with
  | decl d =>
    have hd : d.IsPlain := hn.leaves d (by simp [Node.leaves])
    cases parent with
    | none => simp [rootBlocks]
    | some p => simpa [rootBlocks, Block.IsPlain, hd] using hparent p rfl
  | block s source body => exact isPlain_blocks _ parent hparent hn.scopes hn.leaves

/-! ## Trees without mixed blocks -/

mutual
/-- Whether no at-rule whose body belongs to no selector holds declarations beside blocks. -/
def IsUnmixed : Node → Prop
  | .decl _ => True
  | .block s _ body =>
    (s.isGlobal = true → declarations body = [] ∨ ∀ n ∈ body, n.isDeclaration = true) ∧
      IsUnmixedAll body
def IsUnmixedAll : List Node → Prop
  | [] => True
  | n :: ns => IsUnmixed n ∧ IsUnmixedAll ns
end

mutual
theorem isUnmixed_blocks : ∀ (n : Node) (parent : Option String), n.IsUnmixed →
    ∀ b ∈ n.blocks parent, b.IsUnmixed
  | .decl _, _, _ => by simp [blocks]
  | .block (.rule template) source body, parent, h => by
    rw [blocks]
    exact List.forall_mem_append.mpr ⟨isUnmixed_styled, isUnmixed_blocksAll body _ h.2⟩
  | .block (.verbatim template) source body, parent, h => by
    rw [blocks]
    exact List.forall_mem_append.mpr ⟨isUnmixed_styled, isUnmixed_blocksAll body _ h.2⟩
  | .block (.atRule name params) source body, parent, h => by
    have hnone := isUnmixed_blocksAll body none h.2
    by_cases hname : name ∈ globalAtRules
    · rw [blocks_global hname]
      have hinner : declarations body = [] ∨ blocksAll none body = [] :=
        (h.1 (by simpa [Scope.isGlobal] using hname)).imp_right blocksAll_eq_nil
      simpa [Block.IsUnmixed, isUnmixedAll_iff] using ⟨hinner, hnone⟩
    · cases parent with
      | some p =>
        rw [blocks_atRule hname]
        exact isUnmixed_around
          (List.forall_mem_append.mpr ⟨isUnmixed_styled, isUnmixed_blocksAll body _ h.2⟩)
      | none =>
        rw [blocks_atRule_none hname]
        split
        · exact isUnmixed_around hnone
        · simp [Block.IsUnmixed, Block.IsUnmixedAll]
theorem isUnmixed_blocksAll : ∀ (ns : List Node) (parent : Option String), IsUnmixedAll ns →
    ∀ b ∈ blocksAll parent ns, b.IsUnmixed
  | [], _, _ => by simp [blocksAll]
  | n :: ns, parent, h => by
    rw [blocksAll, List.forall_mem_append]
    exact ⟨isUnmixed_blocks n parent h.1, isUnmixed_blocksAll ns parent h.2⟩
end

/-- Outside of the at-rules whose bodies belong to no selector, flattening mixes nothing. -/
theorem isUnmixed_rootBlocks {n : Node} (parent : Option String) (h : n.IsUnmixed) :
    ∀ b ∈ n.rootBlocks parent, b.IsUnmixed := by
  cases n with
  | decl d => cases parent <;> simp [rootBlocks, Block.IsUnmixed]
  | block s source body => exact isUnmixed_blocks _ parent h

/-! ## Reading the texts of a tree -/

variable {n : Node} {parent : Option String}

theorem readItems?_css_pretty (hparent : ∀ p ∈ parent, Unmarked p) (hn : n.IsPlain) :
    readItems? (n.css .pretty parent) = some ((n.rootBlocks parent).map Block.item) := by
  have hblocks := isPlainAll_iff.mpr (isPlain_rootBlocks hparent hn)
  rw [css, readItems?_pretty hblocks, itemAll_eq_map]

theorem readItems?_css_minified (hparent : ∀ p ∈ parent, Unmarked p) (hn : n.IsPlain) :
    readItems? (n.css .minified parent) = some (itemAllBehind none (n.rootBlocks parent)) :=
  readItems?_minified (isPlainAll_iff.mpr (isPlain_rootBlocks hparent hn))

/-- **The two layouts carry the same rules where no block is mixed.** The pretty text of a plain tree is
read as the blocks of the tree with their heads, declarations and inner blocks. The minified text is read
as the same if and only if no block holds declarations beside further blocks, and so whenever no at-rule
of the tree whose body belongs to no selector holds both. -/
theorem readItems?_minified_eq_iff (n : Node) {parent : Option String}
    (hparent : ∀ p ∈ parent, Unmarked p) (hn : n.IsPlain) :
    readItems? (n.css .pretty parent) = some ((n.rootBlocks parent).map Block.item) ∧
      (readItems? (n.css .minified parent) = readItems? (n.css .pretty parent) ↔
        ∀ b ∈ n.rootBlocks parent, b.IsUnmixed) ∧
      (n.IsUnmixed → readItems? (n.css .minified parent) = readItems? (n.css .pretty parent)) := by
  have hpretty := readItems?_css_pretty hparent hn
  have hiff : readItems? (n.css .minified parent) = readItems? (n.css .pretty parent) ↔
      ∀ b ∈ n.rootBlocks parent, b.IsUnmixed := by
    rw [hpretty, readItems?_css_minified hparent hn, Option.some_inj, ← itemAll_eq_map,
      itemAllBehind_none_eq_iff, isUnmixedAll_iff]
  exact ⟨hpretty, hiff, fun h => hiff.mpr (isUnmixed_rootBlocks parent h)⟩

/-- A rule that holds declarations, a rule in an at-rule, and an at-rule that belongs to no selector. -/
def layeredTree : Node :=
  .block (.rule "&:hover, li") none
    [.decl ⟨"color", "red"⟩, .decl ⟨"margin", "0 auto"⟩,
      .block (.atRule "media" "print") none
        [.decl ⟨"color", "blue"⟩, .block (.verbatim "&>p") none [.decl ⟨"top", "0"⟩]],
      .block (.atRule "keyframes" "spin") none [.block (.rule "to") none [.decl ⟨"opacity", "1"⟩]]]

theorem readItems?_minified_eq_iff_layeredTree :
    (∀ p ∈ some ".c", Unmarked p) ∧ layeredTree.IsPlain ∧ layeredTree.IsUnmixed ∧
      readItems? (layeredTree.css .minified (some ".c")) =
        some [.block ".c:hover, .c li" [.declaration "color" "red", .declaration "margin" "0 auto"],
          .block "@media print" [.block ".c:hover, .c li" [.declaration "color" "blue"],
            .block ":is(.c:hover, .c li)>p" [.declaration "top" "0"]],
          .block "@keyframes spin" [.block "to" [.declaration "opacity" "1"]]] := by
  have hparent : ∀ p ∈ some ".c", Unmarked p := by decide
  have hplain : layeredTree.IsPlain := by decide +kernel
  have hunmixed : layeredTree.IsUnmixed := by
    simp [layeredTree, IsUnmixed, IsUnmixedAll, Scope.isGlobal, globalAtRules, declarations,
      declaration?]
  obtain ⟨hpretty, -, hsame⟩ := readItems?_minified_eq_iff layeredTree hparent hplain
  refine ⟨hparent, hplain, hunmixed, ?_⟩
  rw [hsame hunmixed, hpretty]
  decide +kernel

/-- Keyframes that hold a declaration beside a step. -/
def mixedKeyframes : Node :=
  .block (.atRule "keyframes" "spin") none
    [.decl ⟨"color", "red"⟩, .block (.rule "to") none [.decl ⟨"opacity", "1"⟩]]

/-- The declaration and the head behind it become one text in the minified layout. -/
theorem readItems?_minified_mixedKeyframes : mixedKeyframes.IsPlain ∧
    mixedKeyframes.css .minified none = "@keyframes spin\x7bcolor:redto\x7bopacity:1\x7d\x7d" ∧
    readItems? (mixedKeyframes.css .minified none) =
      some [.block "@keyframes spin" [.block "color:redto" [.declaration "opacity" "1"]]] ∧
    readItems? (mixedKeyframes.css .pretty none) =
      some [.block "@keyframes spin"
        [.declaration "color" "red", .block "to" [.declaration "opacity" "1"]]] ∧
    readItems? (mixedKeyframes.css .minified none) ≠ readItems? (mixedKeyframes.css .pretty none) := by
  decide +kernel

end Node
end UtilityCss
