import UtilityCss.Proofs.Selector.Template
import UtilityCss.Proofs.Sheet.ClassName
import UtilityCss.Sheet.Basic
import UtilityCss.Style.Merge

/-!
# Folding rules into one agrees with nesting them

A path of rules is folded into one rule before it is written: the templates are composed from the
outside inwards, as texts, and the selector of the class is put into the result at the end. Written as a
nest of rules, the class is put into the outermost template first, and each further template is resolved
against a text that is read again. For plain templates both give the same style sheet
(`ofNodes_path_eq_ofNodes_nest`).

What both sides are compared with is a list of selectors. A text `Stands` for a list if it is read as the
list, and the list with a class put in is in normal form. Composing a text that stands for a list with
another template gives a text that stands for the product of the lists (`Stands.compose`), and resolving
in the class before or after gives the same text, since substitution is associative
(`Stands.resolve_resolve`). The rest is an induction over the path (`foldl_openScope`) and one over the
nest (`blocks_rule_nest`).
-/

namespace UtilityCss

open Selector

namespace Selector

theorem isNormal_ofCompound {k : List Char} (hk : ClassText k) : (ofCompound k).IsNormal := by
  obtain ⟨c, w, rfl⟩ := List.exists_cons_of_ne_nil hk.ne_nil
  refine ⟨⟨?_, [], ⟨none, c :: w⟩, rfl, hk.trimmed.last⟩, c, hk.trimmed.head c rfl, ?_⟩
  · intro p hp
    obtain rfl := List.mem_singleton.mp hp
    exact ⟨hk.ne_nil, hk.closed⟩
  · exact ⟨by simp, fun _ => rfl, by simp⟩

theorem parseList_ofCompound {k : String} (hk : ClassText k.toList) :
    parseList k = .ok [ofCompound k.toList] := by
  have hnormal : ∀ s ∈ [ofCompound k.toList], s.IsNormal := by
    intro s hs
    obtain rfl := List.mem_singleton.mp hs
    exact isNormal_ofCompound hk
  have hlist := parseList_texts (by simp) hnormal
  have htext : [',', ' '].intercalate ([ofCompound k.toList].map text) = k.toList := by
    simp [ofCompound, text, Part.leadingText]
  rwa [htext, String.ofList_toList] at hlist

/-- The templates of one list in the anchors of those of another one. -/
def products (outers inners : List Selector) : List Selector :=
  outers.flatMap fun o => inners.map fun i => i.substitute o

theorem productText_eq (outers inners : List Selector) :
    productText outers inners = [',', ' '].intercalate ((products outers inners).map text) := by
  simp [productText, products, List.map_flatMap, Function.comp_def]

/-- A text that is read as a list of anchored selectors, which are in normal form with `k` put in. -/
structure Stands (k : List Char) (m : String) (ss : List Selector) : Prop where
  reads : parseList m = .ok ss
  occurs : Anchor.occurs m.toList = true
  ne_nil : ss ≠ []
  normal : ∀ s ∈ ss, s.IsNormal
  hasAnchor : ∀ s ∈ ss, s.hasAnchor = true
  normalIn : ∀ s ∈ ss, (s.substitute (ofCompound k)).IsNormal

variable {k : List Char}

theorem neutral_of_isNormal {s : Selector} (h : s.IsNormal) : ∀ p ∈ s.parts, Anchor.Neutral p.compound :=
  fun p hp => Anchor.neutral_of_closed (h.compounds p hp).2

theorem stands_of_isPlainTemplate (hk : ClassText k) {a : String} (ha : IsPlainTemplate a) :
    ∃ ss, Stands k a ss ∧ ∀ s ∈ ss, s.Template := by
  obtain ⟨hoccurs, ss, hread, hne, hss⟩ := ha.template
  refine ⟨ss, ⟨hread, hoccurs, hne, fun s hs => (hss s hs).normal, fun s hs => (hss s hs).hasAnchor, ?_⟩,
    hss⟩
  intro s hs
  have h := hss s hs
  exact h.normal.substitute (isNormal_ofCompound hk) h.hasAnchor h.anchorOutside

theorem products_ne_nil {os is : List Selector} (ho : os ≠ []) (hi : is ≠ []) : products os is ≠ [] := by
  obtain ⟨o, os, rfl⟩ := List.exists_cons_of_ne_nil ho
  obtain ⟨i, is, rfl⟩ := List.exists_cons_of_ne_nil hi
  simp [products]

theorem mem_products {os is : List Selector} {s : Selector} :
    s ∈ products os is ↔ ∃ o ∈ os, ∃ i ∈ is, s = i.substitute o := by
  simp [products, eq_comm]

theorem parseList_productText {os is : List Selector} (hne : products os is ≠ [])
    (h : ∀ s ∈ products os is, s.IsNormal) :
    parseList (String.ofList (productText os is)) = .ok (products os is) := by
  rw [productText_eq]
  exact parseList_texts hne h

theorem occurs_intercalate {ss : List Selector} (hne : ss ≠ []) (hnormal : ∀ s ∈ ss, s.IsNormal)
    (hanchor : ∀ s ∈ ss, s.hasAnchor = true) :
    Anchor.occurs ([',', ' '].intercalate (ss.map text)) = true := by
  obtain ⟨s, ss, rfl⟩ := List.exists_cons_of_ne_nil hne
  have hneutral := neutral_of_isNormal (hnormal s (by simp))
  have hs : Anchor.occurs s.text = true := by
    rw [occurs_text hneutral]
    exact hanchor s (by simp)
  cases ss with
  | nil => simpa [List.intercalate] using hs
  | cons t ts =>
    have hsplit : [',', ' '].intercalate ((s :: t :: ts).map text) =
        s.text ++ (',' :: ' ' :: [',', ' '].intercalate ((t :: ts).map text)) := by
      simp [List.intercalate]
    rw [hsplit, Anchor.occurs_append (neutral_text hneutral), hs, Bool.true_or]

theorem Stands.compose {m a : String} {os is : List Selector} (hm : Stands k m os)
    (ha : Stands k a is) (hi : ∀ i ∈ is, i.Template) :
    ∃ m', Selector.compose m a = some m' ∧ Stands k m' (products os is) := by
  have hnormal : ∀ s ∈ products os is, s.IsNormal := by
    intro s hs
    obtain ⟨o, ho, i, hi', rfl⟩ := mem_products.mp hs
    have h := hi i hi'
    exact h.normal.substitute (hm.normal o ho) h.hasAnchor h.anchorOutside
  have hanchor : ∀ s ∈ products os is, s.hasAnchor = true := by
    intro s hs
    obtain ⟨o, ho, i, hi', rfl⟩ := mem_products.mp hs
    exact hasAnchor_substitute (neutral_of_isNormal (hm.normal o ho)) (hi i hi').hasAnchor
      (hm.hasAnchor o ho)
  have hne := products_ne_nil hm.ne_nil ha.ne_nil
  refine ⟨String.ofList (productText os is), ?_, ?_⟩
  · simp [Selector.compose, hm.occurs, ha.occurs, hm.reads, ha.reads]
  · refine ⟨parseList_productText hne hnormal, ?_, hne, hnormal, hanchor, ?_⟩
    · rw [String.toList_ofList, productText_eq]
      exact occurs_intercalate hne hnormal hanchor
    · intro s hs
      obtain ⟨o, ho, i, hi', rfl⟩ := mem_products.mp hs
      have h := hi i hi'
      rw [← substitute_assoc (neutral_of_isNormal (hm.normal o ho)) h.hasAnchor (hm.hasAnchor o ho)]
      exact h.normal.substitute (hm.normalIn o ho) h.hasAnchor h.anchorOutside

/-! ## Resolving in a class -/

variable {k : String}

theorem Stands.resolve {m : String} {os : List Selector} (hk : ClassText k.toList)
    (hm : Stands k.toList m os) :
    Selector.resolve k m = String.ofList (productText [ofCompound k.toList] os) ∧
      parseList (Selector.resolve k m) = .ok (os.map fun o => o.substitute (ofCompound k.toList)) := by
  have hresolve : Selector.resolve k m = String.ofList (productText [ofCompound k.toList] os) := by
    rw [Selector.resolve, parseList_ofCompound hk, hm.reads]
  have hproducts : products [ofCompound k.toList] os =
      os.map fun o => o.substitute (ofCompound k.toList) := by simp [products]
  refine ⟨hresolve, ?_⟩
  rw [hresolve, parseList_productText (products_ne_nil (by simp) hm.ne_nil), hproducts]
  rw [hproducts]
  intro s hs
  obtain ⟨o, ho, rfl⟩ := List.mem_map.mp hs
  exact hm.normalIn o ho

/-- Resolving in the class first and a template then is resolving in the composed template. -/
theorem Stands.resolve_resolve {m m' a : String} {os is : List Selector} (hk : ClassText k.toList)
    (hm : Stands k.toList m os) (ha : Stands k.toList a is)
    (hm' : Stands k.toList m' (products os is)) :
    Selector.resolve (Selector.resolve k m) a = Selector.resolve k m' := by
  have hleft : Selector.resolve (Selector.resolve k m) a =
      String.ofList (productText (os.map fun o => o.substitute (ofCompound k.toList)) is) := by
    rw [Selector.resolve, (hm.resolve hk).2, ha.reads]
  rw [hleft, (hm'.resolve hk).1, productText_eq, productText_eq]
  congr 3
  have hassoc : ∀ o ∈ os, ∀ i ∈ is, i.substitute (o.substitute (ofCompound k.toList)) =
      (i.substitute o).substitute (ofCompound k.toList) := by
    intro o ho i hi
    exact substitute_assoc (neutral_of_isNormal (hm.normal o ho)) (ha.hasAnchor i hi)
      (hm.hasAnchor o ho) k.toList
  calc products (os.map fun o => o.substitute (ofCompound k.toList)) is
      = os.flatMap fun o => is.map fun i => i.substitute (o.substitute (ofCompound k.toList)) := by
        simp [products, List.flatMap_map]
    _ = os.flatMap fun o => is.map fun i => (i.substitute o).substitute (ofCompound k.toList) :=
        List.flatMap_congr fun o ho => List.map_congr_left fun i hi => hassoc o ho i hi
    _ = products [ofCompound k.toList] (products os is) := by
        simp [products, List.map_flatMap, Function.comp_def]

/-- Templates composed from the outside inwards come to one rule, which gives the selector that they
give one by one. -/
theorem foldl_openScope (hk : ClassText k.toList) {m : String} {os : List Selector}
    (hm : Stands k.toList m os) {as : List String} (has : ∀ a ∈ as, IsPlainTemplate a) :
    ∃ m', (as.map Scope.rule).foldl Path.openScope [.rule m] = [.rule m'] ∧
      Anchor.occurs m'.toList = true ∧
      Selector.resolve k m' = as.foldl Selector.resolve (Selector.resolve k m) := by
  induction as generalizing m os with
  | nil => exact ⟨m, rfl, hm.occurs, rfl⟩
  | cons a as ih =>
    obtain ⟨is, ha, hi⟩ := stands_of_isPlainTemplate hk (has a (by simp))
    obtain ⟨m₁, hcompose, hm₁⟩ := hm.compose ha hi
    obtain ⟨m', hfold, hoccurs, hresolve⟩ := ih hm₁ fun b hb => has b (by simp [hb])
    have hopen : Path.openScope [.rule m] (.rule a) = [.rule m₁] := by
      simp [Path.openScope, Scope.absorb?, hcompose]
    refine ⟨m', ?_, hoccurs, ?_⟩
    · rw [List.map_cons, List.foldl_cons, hopen]
      exact hfold
    · rw [hresolve, List.foldl_cons, hm.resolve_resolve hk ha hm₁]

end Selector

/-! ## The two trees -/

/-- Rules nested in each other, outermost first, around declarations. -/
def Node.nest (templates : List String) (ds : List Declaration) : List Node :=
  templates.foldr (fun a body => [.block (.rule a) none body]) (ds.map .decl)

/-- The path of rules, outermost first, and declarations. -/
def Path.ofRules (templates : List String) (ds : List Declaration) : Path :=
  templates.map (fun a => .scope (.rule a)) ++ ds.map .decl

open Node

theorem declarations_map_decl (ds : List Declaration) : declarations (ds.map .decl) = ds := by
  simp [declarations, Function.comp_def, declaration?]

theorem blocksAll_map_decl (parent : Option String) (ds : List Declaration) :
    blocksAll parent (ds.map .decl) = [] := by
  induction ds with
  | nil => rfl
  | cons d ds ih => exact ih

/-- A rule around a nest becomes one style block, the selector of which the templates give one by
one. -/
theorem blocks_rule_nest (parent a : String) (as : List String) (ds : List Declaration) :
    (Node.block (.rule a) none (nest as ds)).blocks (some parent) =
      Block.styled (as.foldl Selector.resolve (Selector.resolve parent a)) ds := by
  induction as generalizing parent a with
  | nil =>
    have hnest : nest [] ds = ds.map .decl := rfl
    rw [blocks, hnest, declarations_map_decl, blocksAll_map_decl, List.append_nil]
    rfl
  | cons b as ih =>
    have hnest : nest (b :: as) ds = [.block (.rule b) none (nest as ds)] := rfl
    have hih := ih (Selector.resolve parent a) b
    rw [blocks, hnest, blocksAll, blocksAll, List.append_nil]
    exact hih

theorem nodes_ofRules {as : List String} {ds : List Declaration} (has : as ≠ []) (hds : ds ≠ []) :
    Path.nodes (Path.ofRules as ds) =
      Path.wrap (ds.map .decl) (Path.levels (as.map Scope.rule)) := by
  have hdecls : Path.decls (Path.ofRules as ds) = ds := by
    simp [Path.decls, Path.ofRules, List.filterMap_append, Function.comp_def, Segment.decl?,
      List.filterMap_map]
  have hscopes : Path.scopes (Path.ofRules as ds) = as.map Scope.rule := by
    simp [Path.scopes, Path.ofRules, List.filterMap_append, Function.comp_def, Segment.scope?,
      List.filterMap_map]
  rw [Path.nodes, hdecls, hscopes, if_neg hds, if_neg (by simpa using has)]

/-- **Folding rules into one agrees with nesting them.** For plain templates and a plain class name, the
style sheet of the folded path is that of the nest of rules. -/
theorem Sheet.ofNodes_path_eq_ofNodes_nest (layout : Layout) {cls : String} {as : List String}
    {ds : List Declaration} (hcls : ClassSelector.IsPlain cls) (has : as ≠ []) (hds : ds ≠ [])
    (hplain : ∀ a ∈ as, IsPlainTemplate a) :
    Sheet.ofNodes layout cls (Path.nodes (Path.ofRules as ds)) =
      Sheet.ofNodes layout cls (Node.nest as ds) := by
  have hk := classText_classSelector hcls
  rw [nodes_ofRules has hds]
  obtain ⟨a, as, rfl⟩ := List.exists_cons_of_ne_nil has
  obtain ⟨ss, ha, -⟩ := stands_of_isPlainTemplate hk (hplain a (by simp))
  have hrest : ∀ b ∈ as, IsPlainTemplate b := fun b hb => hplain b (List.mem_cons_of_mem _ hb)
  obtain ⟨m, hfold, hoccurs, hresolve⟩ := foldl_openScope hk ha hrest
  have hlevels : Path.levels ((a :: as).map Scope.rule) = [.rule m] := hfold
  have hfolded : Path.wrap (ds.map .decl) [.rule m] = [.block (.rule m) none (ds.map .decl)] := rfl
  have hnest : Node.nest (a :: as) ds = [.block (.rule a) none (Node.nest as ds)] := rfl
  have hblocks : (Node.block (.rule m) none (ds.map .decl)).blocks (some (classSelector cls)) =
      (Node.block (.rule a) none (Node.nest as ds)).blocks (some (classSelector cls)) := by
    rw [blocks_rule_nest, ← hresolve]
    exact blocks_rule_nest (classSelector cls) m [] ds
  have hcss : Node.css layout (some (classSelector cls)) (.block (.rule m) none (ds.map .decl)) =
      Node.css layout (some (classSelector cls)) (.block (.rule a) none (Node.nest as ds)) := by
    simp only [Node.css, rootBlocks, hblocks]
  rw [hlevels, hfolded, hnest]
  simp [Sheet.ofNodes, Node.isGlobal, hoccurs, ha.occurs, hcss]

/-- Two lists in each other, with anchors in front, behind and inside brackets. -/
theorem ofNodes_path_eq_ofNodes_nest_lists :
    ClassSelector.IsPlain "md:p-1" ∧ (∀ a ∈ ["& > li, .dark &", "&:hover, p:not(&)"], IsPlainTemplate a) ∧
      Sheet.ofNodes .minified "md:p-1"
          (Path.nodes (Path.ofRules ["& > li, .dark &", "&:hover, p:not(&)"] [⟨"color", "red"⟩])) =
        Sheet.ofNodes .minified "md:p-1"
          (Node.nest ["& > li, .dark &", "&:hover, p:not(&)"] [⟨"color", "red"⟩]) := by
  have hcls : ClassSelector.IsPlain "md:p-1" := by decide +kernel
  have hplain : ∀ a ∈ ["& > li, .dark &", "&:hover, p:not(&)"], IsPlainTemplate a := by
    decide +kernel
  exact ⟨hcls, hplain, Sheet.ofNodes_path_eq_ofNodes_nest .minified hcls (by simp) (by simp) hplain⟩

end UtilityCss
