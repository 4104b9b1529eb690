import UtilityCss.Proofs.Sheet.Flattening
import UtilityCss.Proofs.Sheet.Resolution
import UtilityCss.Sheet.Basic

/-!
# The texts of a class stay with the class

Every selector that is written for a class, outside the at-rules whose bodies belong to no selector, has
the selector of the class in every member of its list (`isScoped_of_mem_ownTexts`). The templates must be
orderly, and those that are not resolved selector by selector must be uniform: a template that is kept as
it is gets the class only where its anchors are, or behind its outer selector as a whole.

The blocks of a tree are followed from the outside inwards: the selector around a node is `Scoped`, and
opening a scope keeps it so (`scoped_under`). `leaks_without_conditions` shows what each condition keeps away.
-/

namespace UtilityCss

open Selector

namespace Block

mutual
/-- The selectors of the style blocks, but for those in at-rules that belong to no selector. -/
def selectors : Block → List String
  | .style selector _ => [selector]
  | .atRule name _ _ inner => if name ∈ globalAtRules then [] else selectorsAll inner
def selectorsAll : List Block → List String
  | [] => []
  | b :: bs => selectors b ++ selectorsAll bs
end

theorem selectorsAll_append (bs cs : List Block) :
    selectorsAll (bs ++ cs) = selectorsAll bs ++ selectorsAll cs := by
  induction bs with
  | nil => rfl
  | cons b bs ih => simp [selectorsAll, ih]

theorem mem_selectorsAll_styled {s selector : String} {decls : List Declaration}
    (h : s ∈ selectorsAll (styled selector decls)) : s = selector := by
  unfold styled at h
  split at h
  · cases h
  · simpa [selectorsAll, selectors] using h

theorem mem_selectorsAll_around {s name params : String} {inner : List Block}
    (h : s ∈ selectorsAll (around name params inner)) : s ∈ selectorsAll inner := by
  unfold around at h
  split at h
  · cases h
  · next b bs =>
    simp only [selectorsAll, selectors, List.append_nil] at h ⊢
    split at h
    · cases h
    · exact h

end Block

/-- Whether the class is kept in every member where a scope is opened inside `parent`. -/
def Scope.KeepsClass (parent : String) : Scope → Prop
  | .rule t => IsOrderly t ∧ (IsUniform t ∨ IsReadable parent ∧ IsReadable t)
  | .verbatim t => IsOrderly t ∧ IsUniform t
  | .atRule _ _ => True

instance (parent : String) : ∀ s : Scope, Decidable (s.KeepsClass parent)
  | .rule t => inferInstanceAs
    (Decidable (IsOrderly t ∧ (IsUniform t ∨ IsReadable parent ∧ IsReadable t)))
  | .verbatim t => inferInstanceAs (Decidable (IsOrderly t ∧ IsUniform t))
  | .atRule _ _ => isTrue trivial

namespace Node

mutual
/-- Whether the class is kept wherever the tree opens a scope, outside global at-rules. -/
def KeepsClass (parent : String) : Node → Prop
  | .decl _ => True
  | .block s _ body =>
    s.isGlobal = true ∨ s.KeepsClass parent ∧ KeepsClassAll (s.under parent) body
def KeepsClassAll (parent : String) : List Node → Prop
  | [] => True
  | n :: ns => KeepsClass parent n ∧ KeepsClassAll parent ns
end

mutual
def decKeepsClass (parent : String) : ∀ n : Node, Decidable (n.KeepsClass parent)
  | .decl _ => isTrue trivial
  | .block s _ body =>
    haveI := decKeepsClassAll (s.under parent) body
    inferInstanceAs (Decidable
      (s.isGlobal = true ∨ s.KeepsClass parent ∧ KeepsClassAll (s.under parent) body))
def decKeepsClassAll (parent : String) : ∀ ns : List Node, Decidable (KeepsClassAll parent ns)
  | [] => isTrue trivial
  | n :: ns =>
    haveI := decKeepsClass parent n
    haveI := decKeepsClassAll parent ns
    inferInstanceAs (Decidable (KeepsClass parent n ∧ KeepsClassAll parent ns))
end

instance (parent : String) (n : Node) : Decidable (n.KeepsClass parent) := decKeepsClass parent n

/-- Whether every selector written for the node inside `parent` has `parent` in every member. -/
def IsScoped (parent : String) (n : Node) : Prop :=
  ∀ s ∈ Block.selectorsAll (n.rootBlocks (some parent)),
    ∀ m ∈ members s.toList, parent.toList <:+: m

instance (parent : String) (n : Node) : Decidable (n.IsScoped parent) :=
  inferInstanceAs (Decidable (∀ s ∈ Block.selectorsAll (n.rootBlocks (some parent)),
    ∀ m ∈ members s.toList, parent.toList <:+: m))

end Node

variable {k : List Char}

theorem scoped_under (hk : ClassText k) {parent : String} (hp : Scoped k parent) {s : Scope}
    (hs : s.KeepsClass parent) : Scoped k (s.under parent) := by
  cases s with
  | rule t => exact scoped_resolve hk hp hs.1 hs.2
  | verbatim t => exact scoped_resolveVerbatim hk hp hs.1 hs.2
  | atRule name params => exact hp

namespace Node

open Block

theorem selectorsAll_blocks_of_isGlobal {s : Scope} (hs : s.isGlobal = true)
    (parent : Option String) (source : Option String) (body : List Node) :
    selectorsAll ((Node.block s source body).blocks parent) = [] := by
  cases s with
  | rule t => cases hs
  | verbatim t => cases hs
  | atRule name params =>
    have hname : name ∈ globalAtRules := by simpa [Scope.isGlobal] using hs
    rw [blocks_global hname]
    simp [selectorsAll, selectors, hname]

theorem mem_selectorsAll_blocks {s : Scope} (hs : s.isGlobal = false) {parent : String}
    {source : Option String} {body : List Node} {x : String}
    (h : x ∈ selectorsAll ((Node.block s source body).blocks (some parent))) :
    x = s.under parent ∨ x ∈ selectorsAll (blocksAll (some (s.under parent)) body) := by
  cases hat : s.atRule? with
  | none =>
    rw [blocks_of_atRule?_eq_none hat, selectorsAll_append, List.mem_append] at h
    exact h.imp mem_selectorsAll_styled id
  | some y =>
    obtain ⟨name, params⟩ := y
    obtain rfl := Scope.eq_of_atRule? hat
    have hname : name ∉ globalAtRules := by simpa [Scope.isGlobal] using hs
    rw [blocks_atRule hname] at h
    have hmem := mem_selectorsAll_around h
    rw [selectorsAll_append, List.mem_append] at hmem
    exact hmem.imp mem_selectorsAll_styled id

/-! ## What is handed down from scope to scope -/

variable {Q : String → Prop} {I : String → Node → Prop}

/-- Whether a condition `I` on trees inside a selector keeps the property `Q` of that selector wherever a
scope is opened. -/
def HandsDown (I : String → Node → Prop) (Q : String → Prop) : Prop :=
  ∀ parent s source body, Q parent → I parent (.block s source body) →
    s.isGlobal = true ∨ Q (s.under parent) ∧ ∀ n ∈ body, I (s.under parent) n

mutual
theorem forall_selectorsAll_blocks (h : HandsDown I Q) : ∀ (n : Node) (parent : String), Q parent →
    I parent n → ∀ s ∈ selectorsAll (n.blocks (some parent)), Q s
  | .decl _, _, _, _ => by simp [blocks, selectorsAll]
  | .block scope source body, parent, hp, hn => by
    intro s hs
    rcases h parent scope source body hp hn with hglobal | ⟨hunder, hbody⟩
    · rw [selectorsAll_blocks_of_isGlobal hglobal] at hs
      cases hs
    · cases hglobal : scope.isGlobal with
      | true =>
        rw [selectorsAll_blocks_of_isGlobal hglobal] at hs
        cases hs
      | false =>
        rcases mem_selectorsAll_blocks hglobal hs with rfl | hs
        · exact hunder
        · exact forall_selectorsAll_blocksAll h body (scope.under parent) hunder hbody s hs
theorem forall_selectorsAll_blocksAll (h : HandsDown I Q) : ∀ (ns : List Node) (parent : String), Q parent →
    (∀ n ∈ ns, I parent n) → ∀ s ∈ selectorsAll (blocksAll (some parent) ns), Q s
  | [], _, _, _ => by simp [blocksAll, selectorsAll]
  | n :: ns, parent, hp, hns => by
    intro s hs
    rw [blocksAll, selectorsAll_append, List.mem_append] at hs
    rcases hs with hs | hs
    · exact forall_selectorsAll_blocks h n parent hp (hns n (by simp)) s hs
    · exact forall_selectorsAll_blocksAll h ns parent hp (fun m hm => hns m (by simp [hm])) s hs
end

theorem forall_selectorsAll_rootBlocks (h : HandsDown I Q) (n : Node) {parent : String} (hp : Q parent)
    (hn : I parent n) : ∀ s ∈ selectorsAll (n.rootBlocks (some parent)), Q s := by
  cases n with
  | decl d =>
    intro s hs
    obtain rfl : s = parent := by simpa [rootBlocks, selectorsAll, selectors] using hs
    exact hp
  | block scope source body =>
    exact forall_selectorsAll_blocks h (.block scope source body) parent hp hn

theorem keepsClassAll_iff {parent : String} {ns : List Node} :
    KeepsClassAll parent ns ↔ ∀ n ∈ ns, n.KeepsClass parent := by
  induction ns with
  | nil => simp [KeepsClassAll]
  | cons n ns ih => simp [KeepsClassAll, ih]

theorem scoped_rootBlocks (hk : ClassText k) (n : Node) {parent : String} (hp : Scoped k parent)
    (hn : n.KeepsClass parent) : ∀ s ∈ selectorsAll (n.rootBlocks (some parent)), Scoped k s := by
  have hdown : HandsDown KeepsClass (Scoped k) := by
    rintro parent scope source body hparent (hglobal | ⟨hscope, hbody⟩)
    · exact .inl hglobal
    · exact .inr ⟨scoped_under hk hparent hscope, keepsClassAll_iff.mp hbody⟩
  exact forall_selectorsAll_rootBlocks hdown n hp hn

end Node

theorem scoped_classSelector {k : String} (hk : ClassText k.toList) : Scoped k.toList k := by
  have hcomma : EndsCompound ',' := .inl rfl
  have hmembers : members k.toList = [k.toList] := members_of_along hcomma hk.closed.fits
  refine ⟨hk.closed.fits.imp fun _ _ hc => hc.1, fun m hm => ?_, fun m hm => ?_⟩
  · rw [hmembers] at hm
    obtain rfl := List.mem_singleton.mp hm
    rw [Text.trim_of_trimmed hk.trimmed]
    exact hk.closed.ends
  · rw [hmembers] at hm
    obtain rfl := List.mem_singleton.mp hm
    exact List.infix_rfl

/-- **The texts of a class stay with the class.** If the templates keep the class, each text that is
written for a plain class name is that of a node, and every member of every selector in it has the
selector of the class. -/
theorem isScoped_of_mem_ownTexts (layout : Layout) {cls : String} {nodes : List Node}
    (hcls : ClassSelector.IsPlain cls)
    (hnodes : ∀ n ∈ nodes, n.isGlobal = false → n.KeepsClass (classSelector cls)) :
    ∀ t ∈ (Sheet.ofNodes layout cls nodes).ownTexts, ∃ n ∈ nodes, n.isGlobal = false ∧
      t = n.css layout (some (classSelector cls)) ∧ n.IsScoped (classSelector cls) := by
  intro t ht
  have hk := classText_classSelector hcls
  obtain ⟨ht, -⟩ := List.mem_filter.mp ht
  obtain ⟨n, hn, rfl⟩ := List.mem_map.mp ht
  obtain ⟨hmem, hlocal⟩ := List.mem_filter.mp hn
  have hglobal : n.isGlobal = false := by simpa using hlocal
  refine ⟨n, hmem, hglobal, rfl, ?_⟩
  intro s hs
  exact (n.scoped_rootBlocks hk (scoped_classSelector hk) (hnodes n hmem hglobal) s hs).mem

/-- A declaration in scopes, the outermost first. -/
def Node.within : List Scope → Node
  | [] => .decl ⟨"color", "red"⟩
  | s :: scopes => .block s none [within scopes]

/-- Lists on both ways of resolving, around an at-rule and a global one. -/
theorem isScoped_of_mem_ownTexts_lists :
    let nodes : List Node := [.block (.rule "&:hover, li") none
      [.within [.atRule "media" "print", .verbatim "&>a, b+&"],
        .within [.atRule "keyframes" "k", .rule "from, to"]]]
    ClassSelector.IsPlain "a:b" ∧
      (∀ n ∈ nodes, n.isGlobal = false → n.KeepsClass (classSelector "a:b")) ∧
      ∀ t ∈ (Sheet.ofNodes .minified "a:b" nodes).ownTexts, ∃ n ∈ nodes, n.isGlobal = false ∧
        t = n.css .minified (some (classSelector "a:b")) ∧ n.IsScoped (classSelector "a:b") := by
  intro nodes
  have hcls : ClassSelector.IsPlain "a:b" := by decide +kernel
  have hnodes : ∀ n ∈ nodes, n.isGlobal = false → n.KeepsClass (classSelector "a:b") := by
    decide +kernel
  exact ⟨hcls, hnodes, isScoped_of_mem_ownTexts .minified hcls hnodes⟩

/-- Whether a member of a selector that is written for the class `c` does without the class. -/
def Node.Leaks (n : Node) : Prop :=
  n.isGlobal = false ∧ n.css .minified (some (classSelector "c")) ∈
    (Sheet.ofNodes .minified "c" [n]).ownTexts ∧ ¬ n.IsScoped (classSelector "c")

instance (n : Node) : Decidable n.Leaks :=
  inferInstanceAs (Decidable (_ ∧ _ ∧ ¬ _))

/-- Without the conditions the class is lost: in lists kept as they are, because a rule is verbatim, or
because it or the selector around it cannot be read; and where brackets are closed too early, where an
anchor stands in a string, and where a backslash is left at the end of a member. -/
theorem leaks_without_conditions : ClassSelector.IsPlain "c" ∧
    (Node.within [.verbatim "&>a, b"]).Leaks ∧
    (Node.within [.rule "&:hover, b >"]).Leaks ∧
    (Node.within [.rule "& >", .rule "a, b"]).Leaks ∧
    (Node.within [.rule "&),b(x", .rule ":is(&)"]).Leaks ∧
    (Node.within [.rule "&[y=\"],b[\"]", .rule "[x=\"&\"]"]).Leaks ∧
    (Node.within [.rule "&\\", .rule "&(a,b)"]).Leaks := by
  decide +kernel

end UtilityCss
