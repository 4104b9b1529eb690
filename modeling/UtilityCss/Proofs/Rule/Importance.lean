import UtilityCss.Proofs.Rule.Order
import UtilityCss.Proofs.ClassName.Roles
import UtilityCss.Proofs.Rule.Dispatch

/-!
# The mark of importance

A class name behind a `!` has the style of the class name itself, with the mark behind every value and
the new class name as the source, or it fails with the same error (`Compiler.generate_mark`). This needs
rules that do not look at the mark, and modifiers that add no declarations of their own.

The two class names have the same tokens (`ClassName.tokens_mark`), so the same modifiers and the same
utility, but for the mark on it. What the mark does to the values is a change of every declaration, and
such a change commutes with all that becomes of them: the folding of the path (`Path.nodes_onDecls`) and
the putting in of the source (`Node.withSourceAll_mapDeclarationsAll`).
-/

namespace UtilityCss

/-- The declaration with the mark behind its value. -/
def Declaration.marked (d : Declaration) : Declaration := { d with value := d.value ++ " !important" }

/-! ## A change of every declaration -/

namespace Node

mutual
/-- The node with every declaration in it changed. -/
def mapDeclarations (f : Declaration → Declaration) : Node → Node
  | .decl d => .decl (f d)
  | .block scope source body => .block scope source (mapDeclarationsAll f body)
/-- The nodes with every declaration in them changed. -/
def mapDeclarationsAll (f : Declaration → Declaration) : List Node → List Node
  | [] => []
  | n :: ns => mapDeclarations f n :: mapDeclarationsAll f ns
end

variable (f : Declaration → Declaration) (a b : String)

theorem mapDeclarationsAll_map_decl (ds : List Declaration) :
    mapDeclarationsAll f (ds.map .decl) = (ds.map f).map .decl := by
  induction ds with
  | nil => rfl
  | cons d ds ih => rw [List.map_cons, mapDeclarationsAll, mapDeclarations, ih]; rfl

theorem mapDeclarationsAll_wrap (nodes : List Node) (levels : List Scope) :
    mapDeclarationsAll f (Path.wrap nodes levels) = Path.wrap (mapDeclarationsAll f nodes) levels := by
  induction levels generalizing nodes with
  | nil => rfl
  | cons level levels ih => exact ih _

mutual
theorem withSource_mapDeclarations :
    ∀ n : Node, withSource a (mapDeclarations f n) = mapDeclarations f (withSource a n)
  | .decl _ => rfl
  | .block scope source body => by
    rw [mapDeclarations, withSource, withSource, mapDeclarations, withSourceAll_mapDeclarationsAll body]
theorem withSourceAll_mapDeclarationsAll :
    ∀ ns : List Node, withSourceAll a (mapDeclarationsAll f ns) = mapDeclarationsAll f (withSourceAll a ns)
  | [] => rfl
  | n :: ns => by
    rw [mapDeclarationsAll, withSourceAll, withSourceAll, mapDeclarationsAll, withSource_mapDeclarations n,
      withSourceAll_mapDeclarationsAll ns]
end

mutual
theorem withSource_withSource : ∀ n : Node, withSource b (withSource a n) = withSource b n
  | .decl _ => rfl
  | .block scope source body => by
    rw [withSource, withSource, withSource, withSourceAll_withSourceAll body]
    split <;> rfl
theorem withSourceAll_withSourceAll :
    ∀ ns : List Node, withSourceAll b (withSourceAll a ns) = withSourceAll b ns
  | [] => rfl
  | n :: ns => by
    rw [withSourceAll, withSourceAll, withSourceAll, withSource_withSource n,
      withSourceAll_withSourceAll ns]
end

end Node

/-- The segment with its declaration changed, if it is one. -/
def Segment.onDecl (f : Declaration → Declaration) : Segment → Segment
  | .scope s => .scope s
  | .decl d => .decl (f d)

namespace Path

/-- The path with every declaration in it changed. -/
def onDecls (f : Declaration → Declaration) (path : Path) : Path := path.map (Segment.onDecl f)

variable (f : Declaration → Declaration) (path : Path)

theorem decls_onDecls : (path.onDecls f).decls = path.decls.map f := by
  induction path with
  | nil => rfl
  | cons segment path ih =>
    cases segment with
    | scope s => exact ih
    | decl d => exact congrArg (f d :: ·) ih

theorem scopes_onDecls : (path.onDecls f).scopes = path.scopes := by
  induction path with
  | nil => rfl
  | cons segment path ih =>
    cases segment with
    | scope s => exact congrArg (s :: ·) ih
    | decl d => exact ih

theorem nodes_onDecls : (path.onDecls f).nodes = Node.mapDeclarationsAll f path.nodes := by
  unfold nodes
  rw [decls_onDecls, scopes_onDecls]
  by_cases hdecls : path.decls = []
  · simp [hdecls, Node.mapDeclarationsAll]
  · rw [if_neg (by simpa using hdecls), if_neg hdecls, Node.mapDeclarationsAll_wrap,
      Node.mapDeclarationsAll_map_decl]

theorem onDecls_append {path : Path} (h : path.decls = []) (ds : List Declaration) :
    onDecls f (path ++ ds.map .decl) = path ++ (ds.map f).map .decl := by
  have hpath : path.onDecls f = path := by
    refine (List.map_congr_left fun segment hsegment => ?_).trans (List.map_id path)
    cases segment with
    | scope s => rfl
    | decl d =>
      have hmem : d ∈ path.decls := List.mem_filterMap.mpr ⟨_, hsegment, rfl⟩
      rw [h] at hmem
      cases hmem
  rw [onDecls, List.map_append, ← onDecls, hpath, List.map_map, List.map_map]
  rfl

end Path

/-! ## Rules that do not look at the mark -/

namespace Registry

variable {reg : Registry} {θ : Theme}

/-- Whether no rule looks at the mark, and no modifier adds declarations to a path. -/
structure IsMarkBlind (reg : Registry) (θ : Theme) : Prop where
  handle : ∀ r ∈ reg.utilities, ∀ u : Utility,
    r.handle { u with important := true } θ = r.handle { u with important := false } θ
  transform : ∀ r ∈ reg.modifiers, ∀ (m : Modifier) (path inner : Path),
    r.transform m path θ = .ok (some inner) → path.decls = [] → inner.decls = []

theorem IsMarkBlind.decls_scopePath? (h : reg.IsMarkBlind θ) {modifiers : List Modifier}
    {path inner : Path} (hpath : path.decls = [])
    (hinner : reg.scopePath? θ path modifiers = .ok (some inner)) : inner.decls = [] := by
  induction modifiers generalizing path with
  | nil =>
    obtain rfl := Option.some.inj (Except.ok.inj hinner)
    exact hpath
  | cons m rest ih =>
    rw [scopePath?] at hinner
    split at hinner
    · cases hinner
    · next rule hrule =>
      have hmem : rule ∈ reg.modifiers := (List.mem_filter.mp (List.mem_of_find?_eq_some hrule)).1
      split at hinner
      · cases hinner
      · cases hinner
      · next next hnext => exact ih (h.transform rule hmem m path next hnext hpath) hinner

theorem underModifiers_marked (h : reg.IsMarkBlind θ) (modifiers : List Modifier) (rule : UtilityRule)
    (given : List Node) :
    reg.underModifiers θ modifiers true rule given =
      (reg.underModifiers θ modifiers false rule given).map
        (Node.mapDeclarationsAll Declaration.marked) := by
  unfold underModifiers
  by_cases hgiven : given = []
  · rw [if_pos hgiven, if_pos hgiven]
    rfl
  rw [if_neg hgiven, if_neg hgiven]
  cases hpath : reg.scopePath? θ [] modifiers with
  | error err => rfl
  | ok path? =>
    cases path? with
    | none => rfl
    | some path =>
      cases declarationsOf rule given with
      | error err => rfl
      | ok ds =>
        have hfold := Path.nodes_onDecls Declaration.marked (path ++ ds.map .decl)
        rw [Path.onDecls_append _ (h.decls_scopePath? rfl hpath), List.map_map] at hfold
        exact congrArg Except.ok hfold

theorem expand_marked (h : reg.IsMarkBlind θ) (modifiers : List Modifier) {u : Utility}
    (hu : u.important = false) :
    reg.expand θ ⟨modifiers, some { u with important := true }⟩ =
      (reg.expand θ ⟨modifiers, some u⟩).map (Node.mapDeclarationsAll Declaration.marked) := by
  have hname : ({ u with important := true } : Utility).name = u.name := rfl
  cases hrule : reg.findUtility? u.name with
  | none =>
    rw [expand_of_findUtility?_eq_none hrule, expand_of_findUtility?_eq_none (hname ▸ hrule)]
    rfl
  | some rule =>
    have hplain : { u with important := false } = u := by rw [← hu]
    have hhandle := h.handle rule (List.mem_of_find?_eq_some hrule) u
    rw [hplain] at hhandle
    rw [expand_of_findUtility? hrule, expand_of_findUtility? (hname ▸ hrule), hhandle, hu]
    cases rule.handle u θ with
    | error err => rfl
    | ok given => exact underModifiers_marked h modifiers rule given

theorem IsMarkBlind.addUtility (h : reg.IsMarkBlind θ) {rule : UtilityRule}
    (hrule : ∀ u : Utility,
      rule.handle { u with important := true } θ = rule.handle { u with important := false } θ) :
    (reg.addUtility rule).IsMarkBlind θ := by
  refine ⟨fun r hr => ?_, h.transform⟩
  obtain rfl | hr := mem_insertByLength.mp hr
  · exact hrule
  · exact h.handle r hr

end Registry

/-! ## The marked class name -/

namespace ClassName

variable {reg : Registry} {θ : Theme} {cls : String}

theorem parse_mark (h : isImportant cls = false) :
    parse reg θ ("!" ++ cls) = ⟨(parse reg θ cls).modifiers,
      (parse reg θ cls).utility.map (Utility.markedIf true)⟩ := by
  have htokens : tokens ("!" ++ cls) = tokens cls := by rw [tokens_mark, tokens_of_not_isImportant h]
  have hutility : utilityToken? reg θ ("!" ++ cls) = utilityToken? reg θ cls := by
    rw [utilityToken?, utilityToken?, htokens]
  have hmodifiers : modifierTokens reg θ ("!" ++ cls) = modifierTokens reg θ cls := by
    rw [modifierTokens, modifierTokens, htokens]
  rw [parse_eq, parse_eq, hutility, hmodifiers, isImportant_mark, h, Option.map_map]
  rfl

theorem important_of_parse (h : isImportant cls = false) {u : Utility}
    (hu : (parse reg θ cls).utility = some u) : u.important = false := by
  rw [parse_eq, Option.map_eq_some_iff] at hu
  obtain ⟨v, hv, rfl⟩ := hu
  obtain ⟨token, -, hread⟩ := Option.bind_eq_some_iff.mp hv
  rw [h, Utility.markedIf_eq, Bool.false_or]
  exact (Registry.reads_of_parseUtility? hread).important_eq

end ClassName

theorem Registry.compile_mark {reg : Registry} {θ : Theme} (h : reg.IsMarkBlind θ) {cls : String}
    (hcls : ClassName.isImportant cls = false) :
    reg.compile θ ("!" ++ cls) = (reg.compile θ cls).map fun nodes =>
      Node.withSourceAll ("!" ++ cls) (Node.mapDeclarationsAll Declaration.marked nodes) := by
  -- The source that the class name itself puts in is put in again.
  have hsource (nodes : List Node) :
      Node.withSourceAll ("!" ++ cls) (Node.mapDeclarationsAll Declaration.marked nodes) =
        Node.withSourceAll ("!" ++ cls)
          (Node.mapDeclarationsAll Declaration.marked (Node.withSourceAll cls nodes)) := by
    rw [← Node.withSourceAll_mapDeclarationsAll, Node.withSourceAll_withSourceAll]
  unfold compile
  rw [ClassName.parse_mark hcls]
  cases hparse : ClassName.parse reg θ cls with
  | mk modifiers utility =>
    cases utility with
    | none => rfl
    | some u =>
      have hu : u.important = false :=
        ClassName.important_of_parse hcls (congrArg ClassName.utility hparse)
      have hexpand := expand_marked h modifiers hu
      show (reg.expand θ ⟨modifiers, some { u with important := true }⟩).map _ = _
      rw [hexpand]
      cases reg.expand θ ⟨modifiers, some u⟩ with
      | error err => rfl
      | ok nodes => exact congrArg Except.ok (hsource nodes)

/-- **The mark of importance changes the values only.** Let no rule of a compiler look at the mark, and no
modifier add declarations. A class name without the mark and the same one behind it fail with the same
errors; and where the one has a style tree, the other has the same tree, but for the mark behind the value
of every declaration and the class name with the mark as the source. The two may be compiled one after the
other, or by compilers with any coherent caches. -/
theorem Compiler.generate_mark {c d : Compiler} (hc : c.Coherent) (hd : d.Coherent)
    (hbook : d.rulebook = c.rulebook) (hblind : c.registry.IsMarkBlind c.theme) {cls : String}
    (hcls : Text.beginsWith "!" cls = false) :
    (∀ err, (d.generate ("!" ++ cls)).1 = .error err ↔ (c.generate cls).1 = .error err) ∧
    ∀ nodes, (c.generate cls).1 = .ok nodes →
      (d.generate ("!" ++ cls)).1 = .ok (Node.withSourceAll ("!" ++ cls)
        (Node.mapDeclarationsAll Declaration.marked nodes)) := by
  obtain ⟨hregistry, htheme⟩ := Rulebook.mk.inj hbook
  have hplain : (c.generate cls).1 = c.registry.compile c.theme cls :=
    (Registry.compileCached_spec hc cls).1
  have hmarked : (d.generate ("!" ++ cls)).1 = c.registry.compile c.theme ("!" ++ cls) := by
    rw [← hregistry, ← htheme]
    exact (Registry.compileCached_spec hd ("!" ++ cls)).1
  rw [hplain, hmarked, Registry.compile_mark hblind hcls]
  cases c.registry.compile c.theme cls with
  | error err => exact ⟨fun _ => Iff.rfl, fun _ h => by cases h⟩
  | ok nodes =>
    refine ⟨fun _ => iff_of_false (by simp [Except.map]) (by simp), fun _ h => ?_⟩
    obtain rfl := Except.ok.inj h
    rfl

/-! ## The catalogue -/

namespace Catalogue

theorem exists_transform_eq {r : ModifierRule} (h : r ∈ variants) (m : Modifier) (path : Path)
    (θ : Theme) : ∃ scope, r.transform m path θ = .ok (addScope m path scope) := by
  simp only [variants, List.mem_append, List.mem_map, List.mem_cons, List.not_mem_nil, or_false] at h
  obtain (⟨_, -, rfl⟩ | ⟨_, -, rfl⟩) | rfl | rfl := h
  · exact ⟨some (.rule _), rfl⟩
  · exact ⟨some (.atRule _ _), rfl⟩
  · exact ⟨_, rfl⟩
  · exact ⟨_, rfl⟩

theorem decls_addScope {m : Modifier} {path inner : Path} {scope : Option Scope}
    (h : addScope m path scope = some inner) : inner.decls = path.decls := by
  unfold addScope at h
  split at h
  · cases h
  · obtain ⟨s, -, rfl⟩ := Option.map_eq_some_iff.mp h
    simp [Path.decls, Segment.decl?]

theorem isMarkBlind_rules (θ : Theme) : rules.IsMarkBlind θ where
  handle r hr u := by
    have hmem := mem_utilities_rules.mp hr
    simp only [utilities, List.mem_append, List.mem_map, List.mem_cons, List.not_mem_nil,
      or_false] at hmem
    obtain ((((rfl | rfl) | ⟨_, -, rfl⟩) | ⟨_, -, rfl⟩) | rfl) | ⟨_, -, rfl⟩ := hmem <;> rfl
  transform r hr m path inner hinner hpath := by
    rw [rules_eq] at hr
    obtain ⟨scope, hscope⟩ := exists_transform_eq hr m path θ
    rw [decls_addScope (Except.ok.inj (hscope.symm.trans hinner)), hpath]

end Catalogue

namespace Compiler

/-- A compiler with the catalogue and with a utility that fails. -/
def catalogueAndBoom : Compiler :=
  (serve perform (Compiler.new {}) [.usePlugin Catalogue.basic,
    .addUtility { name := "boom", handle := fun _ _ => .error (.notADeclaration "boom") }]).2

/-- The class name without the mark is compiled before the one with it. -/
theorem generate_mark_catalogueAndBoom :
    catalogueAndBoom.Coherent ∧ catalogueAndBoom.registry.IsMarkBlind catalogueAndBoom.theme ∧
      (catalogueAndBoom.generate "hover:[&>a]:p-4").1 =
        .ok [.block (.rule "&:hover") (some "hover:[&>a]:p-4")
          [.block (.verbatim "&>a") none [.decl ⟨"padding", "calc(var(--spacing) * 4)"⟩]]] ∧
      ((catalogueAndBoom.generate "hover:[&>a]:p-4").2.generate "!hover:[&>a]:p-4").1 =
        .ok [.block (.rule "&:hover") (some "!hover:[&>a]:p-4")
          [.block (.verbatim "&>a") none [.decl ⟨"padding", "calc(var(--spacing) * 4) !important"⟩]]] ∧
      ((catalogueAndBoom.generate "hover:[&>a]:p-4").2.generate "!boom").1 =
        .error (.notADeclaration "boom") := by
  have hc : catalogueAndBoom.Coherent := Reachable.coherent ⟨_, _, rfl⟩
  have hblind : catalogueAndBoom.registry.IsMarkBlind catalogueAndBoom.theme :=
    (Catalogue.isMarkBlind_rules .null).addUtility fun _ => rfl
  obtain ⟨-, hbook, hd⟩ := perform_spec hc (.generate "hover:[&>a]:p-4")
  have hplain : (catalogueAndBoom.generate "hover:[&>a]:p-4").1 =
      .ok [.block (.rule "&:hover") (some "hover:[&>a]:p-4")
        [.block (.verbatim "&>a") none [.decl ⟨"padding", "calc(var(--spacing) * 4)"⟩]]] := by
    rw [generate, (Registry.compileCached_spec hc _).1]
    decide +kernel
  have hboom : (catalogueAndBoom.generate "boom").1 = .error (.notADeclaration "boom") := by
    rw [generate, (Registry.compileCached_spec hc _).1]
    decide +kernel
  refine ⟨hc, hblind, hplain, ?_, ?_⟩
  · refine ((generate_mark hc hd hbook hblind (by decide)).2 _ hplain).trans (congrArg Except.ok ?_)
    decide +kernel
  · exact ((generate_mark hc hd hbook hblind (by decide)).1 _).mpr hboom

end Compiler
end UtilityCss
