import Mathlib.Data.List.Chain
import UtilityCss.Style.Merge

/-!
# The levels of a folded path

A path with declarations is folded into one chain of blocks, each the only child of the one before it,
with the declarations of the path in the innermost (`nodes_eq_chained`). The scopes of the path, in
order, are cut into levels: a level is one scope, or a rule with the rules behind it that it has taken
in. A rule is taken in exactly if its template composes with what the level has come to so far, not with
the template before it, so a level carries the text that its templates come to from the left
(`Level.scope?`).

The fold keeps the innermost level at hand and looks at no other one, so the induction is on the path at
its end: one more scope either goes into the last level or opens a new one (`IsFold.absorb`,
`IsFold.open`).
-/

namespace UtilityCss

/-- A level of a folded path: the scope that opens it, and the templates of the rules taken in. -/
structure Level where
  opener : Scope
  absorbed : List String
  deriving DecidableEq, Repr

namespace Level

/-- The scopes of the path that a level is made of. -/
def scopes (l : Level) : List Scope := l.opener :: l.absorbed.map .rule

/-- The scope that stands in the tree: the opening one, with the templates taken in composed with it
from the left. Nothing but a rule takes rules in. -/
def scope? (l : Level) : Option Scope :=
  match l.opener with
  | .rule a => (l.absorbed.foldlM Selector.compose a).map .rule
  | s => if l.absorbed = [] then some s else none

/-- The level with one more rule taken in. -/
def absorb (l : Level) (b : String) : Level := { l with absorbed := l.absorbed ++ [b] }

theorem scope?_opener (s : Scope) : scope? ⟨s, []⟩ = some s := by cases s <;> rfl

theorem scopes_absorb (l : Level) (b : String) : (l.absorb b).scopes = l.scopes ++ [.rule b] := by
  simp [absorb, scopes]

theorem scope?_absorb {l : Level} {a b c : String} (hl : l.scope? = some (.rule a))
    (hc : Selector.compose a b = some c) : (l.absorb b).scope? = some (.rule c) := by
  obtain ⟨opener, absorbed⟩ := l
  cases opener with
  | rule t =>
    simp only [scope?, Option.map_eq_some_iff, Scope.rule.injEq, exists_eq_right] at hl
    simp [scope?, absorb, List.foldlM_append, hl, hc]
  | atRule name params =>
    simp only [scope?] at hl
    split at hl <;> cases hl
  | verbatim t =>
    simp only [scope?] at hl
    split at hl <;> cases hl

theorem exists_of_scope?_absorb {l : Level} {b : String} {s : Scope}
    (h : (l.absorb b).scope? = some s) :
    ∃ a c, l.scope? = some (.rule a) ∧ Selector.compose a b = some c ∧ s = .rule c := by
  obtain ⟨opener, absorbed⟩ := l
  cases opener with
  | rule t =>
    simp only [scope?, absorb, List.foldlM_append, Option.map_eq_some_iff] at h
    obtain ⟨c, hc, rfl⟩ := h
    obtain ⟨a, ha, hc⟩ := Option.bind_eq_some_iff.mp hc
    exact ⟨a, c, by simp [scope?, ha], by simpa using hc, rfl⟩
  | atRule name params => simp [scope?, absorb] at h
  | verbatim t => simp [scope?, absorb] at h

end Level

namespace Path

/-- Whether a scope behind this one keeps a level of its own: no two rules that compose. -/
def Apart (s t : Scope) : Prop :=
  ∀ a b, s = .rule a → t = .rule b → Selector.compose a b = none

theorem apart_iff {s t : Scope} : Apart s t ↔ s.absorb? t = none := by
  cases s <;> cases t <;> simp [Apart, Scope.absorb?]

instance (s t : Scope) : Decidable (Apart s t) := decidable_of_iff _ apart_iff.symm

theorem absorb?_eq_some {s t u : Scope} (h : s.absorb? t = some u) :
    ∃ a b c, s = .rule a ∧ t = .rule b ∧ u = .rule c ∧ Selector.compose a b = some c := by
  cases s with
  | rule a =>
    cases t with
    | rule b =>
      obtain ⟨c, hc, rfl⟩ := Option.map_eq_some_iff.mp h
      exact ⟨a, b, c, rfl, rfl, rfl, hc⟩
    | atRule name params => cases h
    | verbatim t => cases h
  | atRule name params => cases h
  | verbatim t => cases h

/-- Whether no level could have taken in the scope that opens the next one. -/
def Separated (levels : List Level) : Prop :=
  levels.IsChain fun l m => ∀ s ∈ l.scope?, Apart s m.opener

instance (levels : List Level) : Decidable (Separated levels) :=
  inferInstanceAs (Decidable (levels.IsChain _))

/-- How scopes are cut into levels, with the scopes of the levels in `chain`. -/
structure IsFold (scopes : List Scope) (levels : List Level) (chain : List Scope) : Prop where
  /-- The levels hold the scopes in order, each once. -/
  scopes_eq : levels.flatMap Level.scopes = scopes
  /-- Each level carries what its templates come to. -/
  chain_eq : levels.map Level.scope? = chain.map some
  /-- The scope that opens a level does not compose with the level before it. -/
  separated : Separated levels

theorem Separated.concat_of_opener {inits : List Level} {l : Level} (h : Separated (inits ++ [l]))
    {m : Level} (hopener : m.opener = l.opener) : Separated (inits ++ [m]) := by
  obtain ⟨hinits, -, hbetween⟩ := List.isChain_append.mp h
  refine hinits.append (.singleton _) fun x hx y hy => ?_
  obtain rfl : m = y := by simpa using hy
  rw [hopener]
  exact hbetween x hx l (by simp)

theorem exists_concat_of_map {inits : List Level} {last : Level} {chain : List Scope}
    (h : (inits ++ [last]).map Level.scope? = chain.map some) :
    ∃ outer s, chain = outer ++ [s] ∧ inits.map Level.scope? = outer.map some ∧
      last.scope? = some s := by
  have hne : chain ≠ [] := by
    rintro rfl
    simp at h
  obtain ⟨outer, s, rfl⟩ := (List.eq_nil_or_concat' chain).resolve_left hne
  rw [List.map_append, List.map_append] at h
  obtain ⟨hinits, hlast⟩ := List.append_inj' h rfl
  exact ⟨outer, s, rfl, hinits, List.singleton_inj.mp hlast⟩

theorem isFold_nil : IsFold [] [] [] := ⟨rfl, rfl, .nil⟩

/-- A scope that does not compose with the last level opens a level. -/
theorem IsFold.open {scopes chain : List Scope} {levels : List Level} (h : IsFold scopes levels chain)
    {s : Scope} (hs : ∀ l, chain.getLast? = some l → Apart l s) :
    IsFold (scopes ++ [s]) (levels ++ [⟨s, []⟩]) (chain ++ [s]) := by
  refine ⟨?_, ?_, ?_⟩
  · simp [h.scopes_eq, Level.scopes]
  · simp [h.chain_eq, Level.scope?_opener]
  · refine h.separated.append (.singleton _) fun l hl m hm t ht => ?_
    obtain rfl : ⟨s, []⟩ = m := by simpa using hm
    have hlast := congrArg List.getLast? h.chain_eq
    rw [List.getLast?_map, List.getLast?_map, Option.mem_def.mp hl, Option.map_some,
      Option.mem_def.mp ht] at hlast
    exact hs t (by simpa [eq_comm] using hlast)

/-- A rule that composes with the last level goes into it. -/
theorem IsFold.absorb {scopes chain : List Scope} {levels : List Level} {a b c : String}
    (h : IsFold scopes levels (chain ++ [.rule a])) (hc : Selector.compose a b = some c) :
    ∃ inits last, levels = inits ++ [last] ∧
      IsFold (scopes ++ [.rule b]) (inits ++ [last.absorb b]) (chain ++ [.rule c]) := by
  have hne : levels ≠ [] := by
    rintro rfl
    simpa using h.chain_eq
  obtain ⟨inits, last, rfl⟩ := (List.eq_nil_or_concat' levels).resolve_left hne
  obtain ⟨outer, s, hchain, hinits, hlast⟩ := exists_concat_of_map h.chain_eq
  obtain ⟨rfl, hs⟩ := List.append_inj' hchain rfl
  obtain rfl := List.singleton_inj.mp hs
  refine ⟨inits, last, rfl, ?_, ?_, h.separated.concat_of_opener rfl⟩
  · rw [← h.scopes_eq]
    simp [Level.scopes_absorb]
  · simp [hinits, Level.scope?_absorb hlast hc]

theorem IsFold.eq_nil {chain : List Scope} {levels : List Level} (h : IsFold [] levels chain) :
    levels = [] ∧ chain = [] := by
  obtain rfl : levels = [] := by
    cases levels with
    | nil => rfl
    | cons l levels => cases h.scopes_eq
  exact ⟨rfl, (List.map_eq_nil_iff.mp h.chain_eq.symm)⟩

theorem IsFold.cases_concat {scopes chain : List Scope} {levels : List Level} {s : Scope}
    (h : IsFold (scopes ++ [s]) levels chain) :
    (∃ inits outer, levels = inits ++ [⟨s, []⟩] ∧ chain = outer ++ [s] ∧ IsFold scopes inits outer ∧
      ∀ l, outer.getLast? = some l → Apart l s) ∨
    ∃ inits outer last a b c, levels = inits ++ [last.absorb b] ∧ chain = outer ++ [.rule c] ∧
      s = .rule b ∧ IsFold scopes (inits ++ [last]) (outer ++ [.rule a]) ∧
      Selector.compose a b = some c := by
  obtain ⟨hscopes, hchain, hseparated⟩ := h
  have hne : levels ≠ [] := by
    rintro rfl
    simp at hscopes
  obtain ⟨inits, ⟨opener, absorbed⟩, rfl⟩ := (List.eq_nil_or_concat' levels).resolve_left hne
  obtain ⟨outer, u, rfl, hinits, hlast⟩ := exists_concat_of_map hchain
  rw [List.flatMap_append, List.flatMap_singleton] at hscopes
  rcases List.eq_nil_or_concat' absorbed with rfl | ⟨absorbed, b, rfl⟩
  · left
    obtain ⟨rfl, hs⟩ := List.append_inj' hscopes rfl
    obtain rfl : opener = s := List.singleton_inj.mp hs
    obtain rfl : opener = u := Option.some.inj ((Level.scope?_opener opener).symm.trans hlast)
    obtain ⟨hchain, -, hbetween⟩ := List.isChain_append.mp hseparated
    refine ⟨inits, outer, rfl, rfl, ⟨rfl, hinits, hchain⟩, fun l hl => ?_⟩
    have hget := congrArg List.getLast? hinits
    rw [List.getLast?_map, List.getLast?_map, hl, Option.map_some, Option.map_eq_some_iff] at hget
    obtain ⟨x, hx, hxl⟩ := hget
    exact hbetween x hx ⟨opener, []⟩ (by simp) l hxl
  · right
    obtain ⟨a, c, hcarried, hc, rfl⟩ := Level.exists_of_scope?_absorb (l := ⟨opener, absorbed⟩) hlast
    have hlevel : Level.scopes ⟨opener, absorbed ++ [b]⟩ =
        Level.scopes ⟨opener, absorbed⟩ ++ [.rule b] := Level.scopes_absorb ⟨opener, absorbed⟩ b
    rw [hlevel, ← List.append_assoc] at hscopes
    obtain ⟨hbefore, hs⟩ := List.append_inj' hscopes rfl
    obtain rfl := List.singleton_inj.mp hs
    refine ⟨inits, outer, ⟨opener, absorbed⟩, a, b, c, rfl, rfl, rfl, ⟨?_, ?_, ?_⟩, hc⟩
    · rw [List.flatMap_append, List.flatMap_singleton, hbefore]
    · simp [hinits, hcarried]
    · exact hseparated.concat_of_opener rfl

theorem IsFold.unique {scopes chain chain' : List Scope} {levels levels' : List Level}
    (h : IsFold scopes levels chain) (h' : IsFold scopes levels' chain') :
    levels' = levels ∧ chain' = chain := by
  induction scopes using List.reverseRecOn generalizing levels levels' chain chain' with
  | nil =>
    obtain ⟨rfl, rfl⟩ := h.eq_nil
    exact h'.eq_nil
  | append_singleton scopes s ih =>
    rcases h.cases_concat with ⟨inits, outer, rfl, rfl, hfold, happart⟩ |
        ⟨inits, outer, last, a, b, c, rfl, rfl, rfl, hfold, hc⟩ <;>
      rcases h'.cases_concat with ⟨inits', outer', rfl, rfl, hfold', happart'⟩ |
        ⟨inits', outer', last', a', b', c', rfl, rfl, hs, hfold', hc'⟩
    · obtain ⟨rfl, rfl⟩ := ih hfold hfold'
      exact ⟨rfl, rfl⟩
    · obtain ⟨rfl, rfl⟩ := ih hfold hfold'
      rw [happart (.rule a') (by simp) a' b' rfl hs] at hc'
      cases hc'
    · obtain ⟨rfl, rfl⟩ := ih hfold hfold'
      rw [happart' (.rule a) (by simp) a b rfl rfl] at hc
      cases hc
    · obtain ⟨hlevels, hchain⟩ := ih hfold hfold'
      obtain ⟨rfl, hlast⟩ := List.append_inj' hlevels rfl
      obtain ⟨rfl, ha⟩ := List.append_inj' hchain rfl
      obtain rfl := List.singleton_inj.mp hlast
      obtain rfl : a' = a := by simpa using ha
      obtain rfl := Scope.rule.inj hs
      rw [hc] at hc'
      rw [Option.some.inj hc']
      exact ⟨rfl, rfl⟩

theorem exists_isFold (scopes : List Scope) :
    ∃ ls : List Level, IsFold scopes ls (levels scopes).reverse := by
  induction scopes using List.reverseRecOn with
  | nil => exact ⟨[], isFold_nil⟩
  | append_singleton scopes s ih =>
    obtain ⟨ls, h⟩ := ih
    have hstep : levels (scopes ++ [s]) = openScope (levels scopes) s := by
      simp [levels, List.foldl_append]
    rw [hstep]
    cases hlevels : levels scopes with
    | nil =>
      rw [hlevels] at h
      exact ⟨_, h.open (by simp)⟩
    | cons level outer =>
      rw [hlevels, List.reverse_cons] at h
      cases habsorb : level.absorb? s with
      | none =>
        have hopen : openScope (level :: outer) s = s :: level :: outer := by
          simp [openScope, habsorb]
        rw [hopen, List.reverse_cons, List.reverse_cons]
        refine ⟨_, h.open fun l hl => ?_⟩
        obtain rfl : level = l := by simpa using hl
        exact apart_iff.mpr habsorb
      | some merged =>
        obtain ⟨a, b, c, rfl, rfl, rfl, hc⟩ := absorb?_eq_some habsorb
        have hopen : openScope (.rule a :: outer) (.rule b) = .rule c :: outer := by
          simp [openScope, habsorb]
        obtain ⟨inits, last, -, hfold⟩ := h.absorb hc
        rw [hopen, List.reverse_cons]
        exact ⟨_, hfold⟩

/-- The number of scopes that have been taken in by a level before them. -/
def countAbsorbed (levels : List Level) : Nat := (levels.flatMap Level.absorbed).length

theorem IsFold.length_eq {scopes chain : List Scope} {levels : List Level}
    (h : IsFold scopes levels chain) : scopes.length = chain.length + countAbsorbed levels := by
  have hchain := congrArg List.length h.chain_eq
  rw [List.length_map, List.length_map] at hchain
  rw [← h.scopes_eq, ← hchain]
  clear h hchain
  induction levels with
  | nil => rfl
  | cons l levels ih =>
    rw [List.flatMap_cons, List.length_append, ih]
    simp only [Level.scopes, countAbsorbed, List.length_cons, List.length_map, List.flatMap_cons,
      List.length_append]
    omega

theorem IsFold.countAbsorbed_eq_zero {scopes chain : List Scope} {levels : List Level}
    (h : IsFold scopes levels chain) (happart : scopes.IsChain Apart) : countAbsorbed levels = 0 := by
  have habsorbed : ∀ l ∈ levels, l.absorbed = [] := by
    rintro ⟨opener, absorbed⟩ hl
    -- the level carries a scope, so the first rule taken in composes with the opening one
    have hsome : (Level.scope? ⟨opener, absorbed⟩).isSome = true := by
      have hmem := List.mem_map_of_mem (f := Level.scope?) hl
      rw [h.chain_eq] at hmem
      obtain ⟨s, -, hs⟩ := List.mem_map.mp hmem
      rw [← hs]
      rfl
    have hinfix : Level.scopes ⟨opener, absorbed⟩ <:+: scopes := by
      rw [← h.scopes_eq]
      obtain ⟨before, behind, rfl⟩ := List.append_of_mem hl
      exact ⟨before.flatMap Level.scopes, behind.flatMap Level.scopes, by simp⟩
    cases absorbed with
    | nil => rfl
    | cons b bs =>
      exfalso
      have hchain := List.IsChain.infix happart hinfix
      have hpair : Apart opener (.rule b) := hchain.rel
      cases opener with
      | rule a =>
        have hnone := hpair a b rfl rfl
        simp [Level.scope?, hnone] at hsome
      | atRule name params => simp [Level.scope?] at hsome
      | verbatim t => simp [Level.scope?] at hsome
  rw [countAbsorbed, List.flatMap_eq_nil_iff.mpr habsorbed]
  rfl

end Path

namespace Node

/-- Blocks inside each other, each the only child of the one around it, with declarations in the
innermost. -/
def chained (ds : List Declaration) : Scope → List Scope → Node
  | s, [] => .block s none (ds.map .decl)
  | s, t :: inner => .block s none [chained ds t inner]

theorem depthAll_map_decl (ds : List Declaration) : depthAll (ds.map .decl) = 0 := by
  induction ds with
  | nil => rfl
  | cons d ds ih => simp [depthAll, depth, ih]

theorem depth_chained (ds : List Declaration) (s : Scope) (inner : List Scope) :
    (chained ds s inner).depth = inner.length + 1 := by
  induction inner generalizing s with
  | nil => simp [chained, depth, depthAll_map_decl]
  | cons t inner ih =>
    simp only [chained, depth, depthAll, ih, List.length_cons]
    omega

end Node

namespace Path

theorem wrap_eq_chained (ds : List Declaration) (s : Scope) (inner : List Scope) :
    wrap (ds.map .decl) (s :: inner).reverse = [Node.chained ds s inner] := by
  have hfoldr : ∀ scopes : List Scope, wrap (ds.map .decl) scopes.reverse =
      scopes.foldr (fun s body => [.block s none body]) (ds.map .decl) := by
    intro scopes
    rw [wrap, List.foldl_reverse]
  rw [hfoldr]
  induction inner generalizing s with
  | nil => rfl
  | cons t inner ih =>
    rw [List.foldr_cons, ih t]
    rfl

theorem nodes_of_isFold {path : Path} (hdecls : path.decls ≠ []) {ls : List Level}
    (hfold : IsFold path.scopes ls (levels path.scopes).reverse) {s : Scope} {inner : List Scope}
    (hroot : s :: inner =
      if (levels path.scopes).reverse = [] then [.rule "&"] else (levels path.scopes).reverse) :
    path.nodes = [Node.chained path.decls s inner] := by
  have hnil : (levels path.scopes).reverse = [] ↔ path.scopes = [] := by
    constructor
    · intro hchain
      have hnone : ls = [] := by simpa [hchain] using hfold.chain_eq
      rw [← hfold.scopes_eq, hnone, List.flatMap_nil]
    · intro hscopes
      rw [hscopes]
      rfl
  rw [← wrap_eq_chained, hroot, nodes, if_neg hdecls]
  by_cases hscopes : path.scopes = []
  · rw [if_pos hscopes, if_pos (hnil.mpr hscopes)]
    rfl
  · rw [if_neg hscopes, if_neg (mt hnil.mp hscopes), List.reverse_reverse]

/-- **The structure of a folded path.** A path gives nothing if it has no declaration. Otherwise it gives
one chain of blocks, with all its declarations, in order, in the innermost. The chain carries the levels
into which the scopes of the path are cut, in the only way there is, or the rule `&` if there is no
scope. Its depth is the number of the scopes less those taken in, but at least one; so it is the number
of the scopes where no two neighbours compose. -/
theorem nodes_eq_chained (path : Path) :
    (path.nodes = [] ↔ path.decls = []) ∧
      (path.decls ≠ [] → ∃ levels chain s inner,
        IsFold path.scopes levels chain ∧
        (∀ levels' chain', IsFold path.scopes levels' chain' → levels' = levels ∧ chain' = chain) ∧
        s :: inner = (if chain = [] then [.rule "&"] else chain) ∧
        path.nodes = [Node.chained path.decls s inner] ∧
        (Node.chained path.decls s inner).depth =
          max 1 (path.scopes.length - countAbsorbed levels) ∧
        (path.scopes ≠ [] → path.scopes.IsChain Apart →
          (Node.chained path.decls s inner).depth = path.scopes.length)) := by
  obtain ⟨ls, hfold⟩ := exists_isFold path.scopes
  have hsome : (if (levels path.scopes).reverse = [] then [.rule "&"]
      else (levels path.scopes).reverse) ≠ [] := by
    split
    · simp
    · assumption
  obtain ⟨s, inner, hroot⟩ := List.exists_cons_of_ne_nil hsome
  refine ⟨⟨fun hnil => ?_, fun hdecls => if_pos hdecls⟩, fun hdecls => ?_⟩
  · by_contra hdecls
    rw [nodes_of_isFold hdecls hfold hroot.symm] at hnil
    cases hnil
  have hdepth : (Node.chained path.decls s inner).depth =
      max 1 (path.scopes.length - countAbsorbed ls) := by
    rw [Node.depth_chained, ← List.length_cons (a := s), ← hroot, hfold.length_eq,
      Nat.add_sub_cancel]
    split
    · next h => simp [h]
    · next h =>
      have := List.length_pos_iff.mpr h
      omega
  refine ⟨ls, _, s, inner, hfold, fun _ _ => hfold.unique, hroot.symm,
    nodes_of_isFold hdecls hfold hroot.symm, hdepth, fun hscopes happart => ?_⟩
  have hpos := List.length_pos_iff.mpr hscopes
  rw [hdepth, hfold.countAbsorbed_eq_zero happart]
  omega

/-- Declarations between scopes, a rule that is taken in and one that is not, and an at-rule and a
verbatim rule that keep two rules apart. -/
def mixedPath : Path :=
  [.scope (.rule ".g:hover &"), .decl ⟨"color", "red"⟩, .scope (.rule "&:hover"),
    .scope (.rule "span"), .scope (.atRule "media" "print"), .scope (.rule "&"),
    .scope (.verbatim "&>*"), .decl ⟨"margin", "0"⟩, .scope (.rule "&:focus")]

/-- The whole path, and what stands behind the rule that is taken in, where all scopes stay apart. -/
theorem nodes_eq_chained_mixedPath :
    (mixedPath.decls ≠ [] ∧
      mixedPath.nodes = [Node.chained [⟨"color", "red"⟩, ⟨"margin", "0"⟩] (.rule ".g:hover &:hover")
        [.rule "span", .atRule "media" "print", .rule "&", .verbatim "&>*", .rule "&:focus"]] ∧
      ∃ n ∈ mixedPath.nodes, n.depth = 7 - 1) ∧
    decls (mixedPath.drop 3) ≠ [] ∧ scopes (mixedPath.drop 3) ≠ [] ∧
      (scopes (mixedPath.drop 3)).IsChain Apart ∧ ∃ n ∈ nodes (mixedPath.drop 3), n.depth = 5 := by
  refine ⟨?_, ?_⟩
  · have hdecls : mixedPath.decls ≠ [] := by decide
    obtain ⟨levels, chain, s, inner, -, hunique, hroot, hnodes, hdepth, -⟩ :=
      (nodes_eq_chained mixedPath).2 hdecls
    have hcut : IsFold mixedPath.scopes
        [⟨.rule ".g:hover &", ["&:hover"]⟩, ⟨.rule "span", []⟩, ⟨.atRule "media" "print", []⟩,
          ⟨.rule "&", []⟩, ⟨.verbatim "&>*", []⟩, ⟨.rule "&:focus", []⟩]
        [.rule ".g:hover &:hover", .rule "span", .atRule "media" "print", .rule "&", .verbatim "&>*",
          .rule "&:focus"] := ⟨by decide, by decide, by decide⟩
    obtain ⟨rfl, rfl⟩ := hunique _ _ hcut
    obtain ⟨rfl, rfl⟩ := List.cons.inj hroot
    exact ⟨hdecls, hnodes, _, hnodes ▸ List.mem_singleton_self _, hdepth⟩
  · have hdecls : decls (mixedPath.drop 3) ≠ [] := by decide
    have hscopes : scopes (mixedPath.drop 3) ≠ [] := by decide
    have happart : (scopes (mixedPath.drop 3)).IsChain Apart := by decide
    obtain ⟨_, _, _, _, -, -, -, hnodes, -, hdepth⟩ := (nodes_eq_chained (mixedPath.drop 3)).2 hdecls
    exact ⟨hdecls, hscopes, happart, _, hnodes ▸ List.mem_singleton_self _, hdepth hscopes happart⟩

end Path
end UtilityCss
