import Mathlib.Data.List.Nodup
import UtilityCss.Style.Merge

/-!
# Merging groups scopes and keeps orders

If no two siblings of a tree open the same scope, at any depth, the tree is distinct. Merging distinct
trees gives a distinct forest (`isDistinct_merge`), in which a path of scopes leads to what it leads to
in the trees, one after the other (`merge_groups_scopes`).

The proof looks at one level at a time. `Forest.inside s` goes down into the scope `s`, and the law that
carries everything is that merging and going down commute (`inside_insertAll`, and `under_merge` for a
whole path). So what stands under a path is a merge itself, and only the top of a merge is left to be
described: its declarations are those of the trees in a row (`declarations_insertAll`), and its scopes
come in the order in which they are first met (`heads_insertAll`).
-/

namespace UtilityCss
namespace Forest

open Node

/-! ## Scopes and paths of a forest -/

/-- The scopes that the blocks of a forest open, in order. -/
def heads (forest : List Node) : List Scope := forest.filterMap scope?

/-- What the blocks of a forest with this scope hold. -/
def inside (s : Scope) (forest : List Node) : List Node :=
  forest.flatMap fun n => if n.scope? = some s then n.body else []

/-- What stands directly under a path of scopes, from a root inwards. -/
def under (path : List Scope) (forest : List Node) : List Node :=
  path.foldl (fun nodes s => inside s nodes) forest

/-- A path of scopes leads from a root of the forest inwards to a block. -/
inductive HasPath : List Scope → List Node → Prop
  | root {s : Scope} {source : Option String} {body forest : List Node} :
    .block s source body ∈ forest → HasPath [s] forest
  | inner {s : Scope} {source : Option String} {path : List Scope} {body forest : List Node} :
    .block s source body ∈ forest → HasPath path body → HasPath (s :: path) forest

mutual
/-- Whether no two siblings in a node open the same scope, at any depth. -/
def isDistinctNode : Node → Bool
  | .decl _ => true
  | .block _ _ body => isDistinct body
/-- Whether no two siblings in a forest open the same scope, at any depth. -/
def isDistinct : List Node → Bool
  | [] => true
  | n :: ns => isDistinctNode n && ns.all (fun m => !n.sameScope m) && isDistinct ns
end

theorem heads_append (xs ys : List Node) : heads (xs ++ ys) = heads xs ++ heads ys :=
  List.filterMap_append

theorem heads_decl (d : Declaration) : heads [.decl d] = [] := rfl

theorem heads_block_cons (s : Scope) (source : Option String) (body ns : List Node) :
    heads (.block s source body :: ns) = s :: heads ns := rfl

theorem heads_block (s : Scope) (source : Option String) (body : List Node) :
    heads [.block s source body] = [s] := rfl

theorem mem_heads {s : Scope} {forest : List Node} :
    s ∈ heads forest ↔ ∃ source body, .block s source body ∈ forest := by
  rw [heads, List.mem_filterMap]
  constructor
  · rintro ⟨n, hn, hscope⟩
    cases n with
    | decl d => simp [scope?] at hscope
    | block t source body =>
      obtain rfl := Option.some.inj hscope
      exact ⟨source, body, hn⟩
  · rintro ⟨source, body, hn⟩
    exact ⟨_, hn, rfl⟩

theorem inside_append (s : Scope) (xs ys : List Node) :
    inside s (xs ++ ys) = inside s xs ++ inside s ys :=
  List.flatMap_append

theorem inside_block (s : Scope) (source : Option String) (body : List Node) :
    inside s [.block s source body] = body := by
  simp [inside, scope?, Node.body]

theorem inside_of_not_mem {s : Scope} {forest : List Node} (h : s ∉ heads forest) :
    inside s forest = [] := by
  rw [inside, List.flatMap_eq_nil_iff]
  intro n hn
  rw [if_neg]
  intro hscope
  exact h (List.mem_filterMap.mpr ⟨n, hn, hscope⟩)

theorem under_cons (s : Scope) (path : List Scope) (forest : List Node) :
    under (s :: path) forest = under path (inside s forest) := rfl

/-! ## Distinct forests -/

theorem all_not_sameScope_iff {s : Scope} {source : Option String} {body forest : List Node} :
    forest.all (fun m => !(Node.block s source body).sameScope m) = true ↔ s ∉ heads forest := by
  rw [List.all_eq_true]
  constructor
  · intro h hs
    obtain ⟨source', body', hm⟩ := mem_heads.mp hs
    have hne := h _ hm
    simp [sameScope] at hne
  · intro h m hm
    cases m with
    | decl d => rfl
    | block t source' body' =>
      have hne : s ≠ t := by
        rintro rfl
        exact h (mem_heads.mpr ⟨source', body', hm⟩)
      simpa [sameScope] using hne

theorem isDistinct_iff {forest : List Node} :
    isDistinct forest = true ↔
      (heads forest).Nodup ∧ ∀ n ∈ forest, isDistinctNode n = true := by
  induction forest with
  | nil => simp [isDistinct, heads]
  | cons n ns ih =>
    cases n with
    | decl d =>
      have hall : ns.all (fun m => !(Node.decl d).sameScope m) = true :=
        List.all_eq_true.mpr fun m _ => rfl
      have hheads : heads (.decl d :: ns) = heads ns := rfl
      rw [isDistinct, hall, hheads]
      simp [isDistinctNode, ih]
    | block s source body =>
      rw [isDistinct, heads_block_cons, List.nodup_cons, Bool.and_eq_true, Bool.and_eq_true,
        all_not_sameScope_iff, ih, List.forall_mem_cons]
      constructor
      · rintro ⟨⟨hn, hs⟩, hnodup, hns⟩
        exact ⟨⟨hs, hnodup⟩, hn, hns⟩
      · rintro ⟨⟨hs, hnodup⟩, hn, hns⟩
        exact ⟨⟨hn, hs⟩, hnodup, hns⟩

theorem inside_of_mem {s : Scope} {source : Option String} {body forest : List Node}
    (h : (heads forest).Nodup) (hmem : .block s source body ∈ forest) : inside s forest = body := by
  obtain ⟨front, back, rfl⟩ := List.append_of_mem hmem
  have hheads : heads (front ++ .block s source body :: back) = heads front ++ s :: heads back := by
    simp [heads, scope?]
  rw [hheads, List.nodup_middle, List.nodup_cons, List.mem_append, not_or] at h
  have hblock : inside s (.block s source body :: back) = body ++ inside s back := by
    simp [inside, scope?, Node.body]
  rw [inside_append, inside_of_not_mem h.1.1, hblock, inside_of_not_mem h.1.2]
  simp

theorem isDistinct_inside {forest : List Node} (h : isDistinct forest = true) (s : Scope) :
    isDistinct (inside s forest) = true := by
  obtain ⟨hnodup, hbodies⟩ := isDistinct_iff.mp h
  by_cases hs : s ∈ heads forest
  · obtain ⟨source, body, hmem⟩ := mem_heads.mp hs
    rw [inside_of_mem hnodup hmem]
    exact hbodies _ hmem
  · rw [inside_of_not_mem hs]
    rfl

/-! ## Updating the first block of a scope -/

section update

variable {t : Scope} {change : List Node → List Node} {fresh : Node} {forest : List Node}

theorem updateFirst_of_not_mem (h : t ∉ heads forest) :
    updateFirst t change fresh forest = forest ++ [fresh] := by
  induction forest with
  | nil => rfl
  | cons n ns ih =>
    cases n with
    | decl d => exact congrArg _ (ih h)
    | block s source body =>
      rw [heads_block_cons, List.mem_cons, not_or] at h
      rw [updateFirst, if_neg (Ne.symm h.1), ih h.2]
      rfl

theorem exists_updateFirst_eq (h : t ∈ heads forest) :
    ∃ front source body back, forest = front ++ .block t source body :: back ∧ t ∉ heads front ∧
      updateFirst t change fresh forest = front ++ .block t source (change body) :: back := by
  induction forest with
  | nil => cases h
  | cons n ns ih =>
    cases n with
    | decl d =>
      obtain ⟨front, source, body, back, rfl, hfront, hupdate⟩ := ih h
      exact ⟨.decl d :: front, source, body, back, rfl, hfront, congrArg _ hupdate⟩
    | block s source body =>
      by_cases hs : s = t
      · subst hs
        exact ⟨[], source, body, ns, rfl, by simp [heads], by rw [updateFirst, if_pos rfl]; rfl⟩
      · rw [heads_block_cons, List.mem_cons] at h
        obtain ⟨front, source', body', back, rfl, hfront, hupdate⟩ :=
          ih (h.resolve_left (Ne.symm hs))
        refine ⟨.block s source body :: front, source', body', back, rfl, ?_, ?_⟩
        · simpa [heads_block_cons, hfront] using Ne.symm hs
        · rw [updateFirst, if_neg hs, hupdate]
          rfl

end update

section insert

variable {s : Scope} {source : Option String} {body forest : List Node}

theorem insert_of_not_mem (h : s ∉ heads forest) :
    insert forest (.block s source body) = forest ++ [.block s source body] :=
  updateFirst_of_not_mem h

theorem exists_insert_eq (h : s ∈ heads forest) (source : Option String) (body : List Node) :
    ∃ front origin content back, forest = front ++ .block s origin content :: back ∧
      s ∉ heads front ∧
      insert forest (.block s source body) =
        front ++ .block s origin (insertAll content body) :: back :=
  exists_updateFirst_eq h

end insert

/-! ## The top of a merge -/

theorem eraseDups_of_nodup {l : List Scope} (h : l.Nodup) : l.eraseDups = l := by
  induction l with
  | nil => rfl
  | cons a l ih =>
    rw [List.nodup_cons] at h
    have hkeep : l.filter (fun b => !b == a) = l := by
      rw [List.filter_eq_self]
      intro b hb
      have hne : b ≠ a := by
        rintro rfl
        exact h.1 hb
      simpa using hne
    rw [List.eraseDups_cons, hkeep, ih h.2]

theorem eraseDups_append_cons_of_mem {a : Scope} {l : List Scope} (h : a ∈ l) (m : List Scope) :
    (l ++ a :: m).eraseDups = (l ++ m).eraseDups := by
  simp [List.eraseDups_append, List.removeAll, h]

theorem heads_insert_decl (forest : List Node) (d : Declaration) :
    heads (insert forest (.decl d)) = heads forest := by
  rw [insert, heads_append, heads_decl, List.append_nil]

theorem heads_insert_block (forest : List Node) (s : Scope) (source : Option String)
    (body : List Node) :
    heads (insert forest (.block s source body)) =
      if s ∈ heads forest then heads forest else heads forest ++ [s] := by
  by_cases hs : s ∈ heads forest
  · obtain ⟨front, origin, content, back, rfl, -, hinsert⟩ := exists_insert_eq hs source body
    rw [hinsert, if_pos hs]
    simp [heads, scope?]
  · rw [insert_of_not_mem hs, if_neg hs, heads_append, heads_block]

theorem nodup_heads_insert {forest : List Node} (h : (heads forest).Nodup) (n : Node) :
    (heads (insert forest n)).Nodup := by
  cases n with
  | decl d => rwa [heads_insert_decl]
  | block s source body =>
    rw [heads_insert_block]
    split
    · exact h
    · next hs =>
      refine List.nodup_append.mpr ⟨h, by simp, fun a ha b hb => ?_⟩
      obtain rfl := List.mem_singleton.mp hb
      rintro rfl
      exact hs ha

theorem eraseDups_heads_insert (forest : List Node) (n : Node) (later : List Scope) :
    (heads (insert forest n) ++ later).eraseDups = (heads forest ++ (heads [n] ++ later)).eraseDups := by
  cases n with
  | decl d => rw [heads_insert_decl, heads_decl, List.nil_append]
  | block s source body =>
    rw [heads_insert_block, heads_block]
    split
    · next hs => exact (eraseDups_append_cons_of_mem hs later).symm
    · rw [List.append_assoc]

theorem nodup_heads_insertAll {forest : List Node} (h : (heads forest).Nodup) (nodes : List Node) :
    (heads (insertAll forest nodes)).Nodup := by
  induction nodes generalizing forest with
  | nil => exact h
  | cons n ns ih => exact ih (nodup_heads_insert h n)

/-- The scopes of a merge come in the order in which they are first met. -/
theorem heads_insertAll {forest : List Node} (h : (heads forest).Nodup) (nodes : List Node) :
    heads (insertAll forest nodes) = (heads forest ++ heads nodes).eraseDups := by
  rw [← eraseDups_of_nodup (nodup_heads_insertAll h nodes)]
  clear h
  induction nodes generalizing forest with
  | nil => simp [insertAll, heads]
  | cons n ns ih =>
    have hcons : heads (n :: ns) = heads [n] ++ heads ns := heads_append [n] ns
    rw [insertAll, ih, eraseDups_heads_insert, hcons]

theorem declarations_append (xs ys : List Node) :
    declarations (xs ++ ys) = declarations xs ++ declarations ys :=
  List.filterMap_append

theorem declarations_insert (forest : List Node) (n : Node) :
    declarations (insert forest n) = declarations forest ++ declarations [n] := by
  cases n with
  | decl d => rw [insert, declarations_append]
  | block s source body =>
    by_cases hs : s ∈ heads forest
    · obtain ⟨front, origin, content, back, rfl, -, hinsert⟩ := exists_insert_eq hs source body
      have hblock : ∀ o c, declarations (.block s o c :: back) = declarations back := fun _ _ => rfl
      have hnone : declarations [.block s source body] = [] := rfl
      rw [hinsert, declarations_append, declarations_append, hblock, hblock, hnone, List.append_nil]
    · rw [insert_of_not_mem hs, declarations_append]

/-- The declarations at the top of a merge are those of both sides, one after the other. -/
theorem declarations_insertAll (forest nodes : List Node) :
    declarations (insertAll forest nodes) = declarations forest ++ declarations nodes := by
  induction nodes generalizing forest with
  | nil => simp [insertAll, declarations]
  | cons n ns ih =>
    have hcons : declarations (n :: ns) = declarations [n] ++ declarations ns :=
      declarations_append [n] ns
    rw [insertAll, ih, declarations_insert, hcons, List.append_assoc]

/-! ## Going down commutes with merging -/

theorem insertAll_append (forest xs ys : List Node) :
    insertAll forest (xs ++ ys) = insertAll (insertAll forest xs) ys := by
  simp only [insertAll_eq_foldl, List.foldl_append]

theorem insertAll_eq_append {forest nodes : List Node} (h : (heads (forest ++ nodes)).Nodup) :
    insertAll forest nodes = forest ++ nodes := by
  induction nodes generalizing forest with
  | nil => simp [insertAll]
  | cons n ns ih =>
    have hinsert : insert forest n = forest ++ [n] := by
      cases n with
      | decl d => rfl
      | block s source body =>
        refine insert_of_not_mem fun hs => ?_
        rw [heads_append] at h
        have hdisjoint := (List.nodup_append.mp h).2.2 s hs s
        exact hdisjoint (mem_heads.mpr ⟨source, body, by simp⟩) rfl
    have hassoc : forest ++ n :: ns = (forest ++ [n]) ++ ns := by simp
    rw [insertAll, hinsert, ih (hassoc ▸ h), hassoc]

theorem inside_insert {forest : List Node} (hforest : (heads forest).Nodup) (s : Scope) {n : Node}
    (hn : (heads n.body).Nodup) :
    inside s (insert forest n) = insertAll (inside s forest) (inside s [n]) := by
  have hnodup := nodup_heads_insert hforest n
  cases n with
  | decl d =>
    have hnone : inside s [.decl d] = [] := rfl
    rw [insert, inside_append, hnone, List.append_nil]
    rfl
  | block t source body =>
    by_cases hst : t = s
    · subst hst
      rw [inside_block]
      by_cases ht : t ∈ heads forest
      · obtain ⟨front, origin, content, back, rfl, -, hinsert⟩ := exists_insert_eq ht source body
        rw [hinsert] at hnodup ⊢
        rw [inside_of_mem hnodup (List.mem_append_right front List.mem_cons_self),
          inside_of_mem hforest (List.mem_append_right front List.mem_cons_self)]
      · -- nothing is there yet, and the body does not open a scope twice
        rw [insert_of_not_mem ht, inside_append, inside_block, inside_of_not_mem ht]
        exact (insertAll_eq_append hn).symm
    · have hnone : inside s [.block t source body] = [] := by simp [inside, scope?, hst]
      rw [hnone, insertAll]
      by_cases ht : t ∈ heads forest
      · obtain ⟨front, origin, content, back, rfl, -, hinsert⟩ := exists_insert_eq ht source body
        rw [hinsert]
        simp [inside, scope?, hst]
      · rw [insert_of_not_mem ht, inside_append, hnone, List.append_nil]

/-- Going down into a scope of a merge is merging what both sides hold there. -/
theorem inside_insertAll {forest nodes : List Node} (hforest : (heads forest).Nodup)
    (hnodes : ∀ n ∈ nodes, (heads n.body).Nodup) (s : Scope) :
    inside s (insertAll forest nodes) = insertAll (inside s forest) (inside s nodes) := by
  induction nodes generalizing forest with
  | nil => rfl
  | cons n ns ih =>
    have hn := hnodes n List.mem_cons_self
    have hns := ih (nodup_heads_insert hforest n) fun m hm => hnodes m (List.mem_cons_of_mem n hm)
    have hcons : inside s (n :: ns) = inside s [n] ++ inside s ns := inside_append s [n] ns
    rw [insertAll, hns, inside_insert hforest s hn, ← insertAll_append, hcons]

/-! ## Merging keeps forests distinct -/

theorem nodup_heads_body {n : Node} (h : isDistinctNode n = true) : (heads n.body).Nodup := by
  cases n with
  | decl d => simp [Node.body, heads]
  | block s source body => exact (isDistinct_iff.mp h).1

mutual
theorem isDistinct_insert : ∀ (n : Node) {forest : List Node}, isDistinct forest = true →
    isDistinctNode n = true → isDistinct (insert forest n) = true
  | .decl d, forest, hforest, hn => by
    obtain ⟨hnodup, hbodies⟩ := isDistinct_iff.mp hforest
    refine isDistinct_iff.mpr ⟨nodup_heads_insert hnodup _, fun m hm => ?_⟩
    obtain hm | hm := List.mem_append.mp hm
    · exact hbodies m hm
    · rwa [List.mem_singleton.mp hm]
  | .block s source body, forest, hforest, hn => by
    obtain ⟨hnodup, hbodies⟩ := isDistinct_iff.mp hforest
    refine isDistinct_iff.mpr ⟨nodup_heads_insert hnodup _, fun m hm => ?_⟩
    by_cases hs : s ∈ heads forest
    · obtain ⟨front, origin, content, back, rfl, -, hinsert⟩ := exists_insert_eq hs source body
      rw [hinsert, List.mem_append, List.mem_cons] at hm
      obtain hm | rfl | hm := hm
      · exact hbodies m (List.mem_append_left _ hm)
      · have hcontent := hbodies (.block s origin content)
          (List.mem_append_right front List.mem_cons_self)
        exact isDistinct_insertAll body hcontent hn
      · exact hbodies m (List.mem_append_right _ (List.mem_cons_of_mem _ hm))
    · rw [insert_of_not_mem hs, List.mem_append, List.mem_singleton] at hm
      obtain hm | rfl := hm
      · exact hbodies m hm
      · exact hn
theorem isDistinct_insertAll : ∀ (nodes : List Node) {forest : List Node},
    isDistinct forest = true → isDistinct nodes = true → isDistinct (insertAll forest nodes) = true
  | [], _, hforest, _ => hforest
  | n :: ns, _, hforest, h => by
    rw [isDistinct, Bool.and_eq_true, Bool.and_eq_true] at h
    exact isDistinct_insertAll ns (isDistinct_insert n hforest h.1.1) h.2
end

theorem under_insertAll (path : List Scope) {forest nodes : List Node}
    (hforest : isDistinct forest = true) (hnodes : isDistinct nodes = true) :
    under path (insertAll forest nodes) = insertAll (under path forest) (under path nodes) := by
  induction path generalizing forest nodes with
  | nil => rfl
  | cons s path ih =>
    have hinside := inside_insertAll (isDistinct_iff.mp hforest).1
      (fun n hn => nodup_heads_body ((isDistinct_iff.mp hnodes).2 n hn)) s
    rw [under_cons, hinside, ih (isDistinct_inside hforest s) (isDistinct_inside hnodes s)]
    rfl

/-! ## Merging many trees -/

theorem merge_eq_insertAll (trees : List (List Node)) : merge trees = insertAll [] trees.flatten := by
  have hstep : insertAll = fun forest nodes => nodes.foldl insert forest :=
    funext₂ insertAll_eq_foldl
  rw [merge, hstep, ← List.foldl_flatten]

theorem heads_merge (trees : List (List Node)) :
    heads (merge trees) = (trees.flatMap heads).eraseDups := by
  have hnil : heads [] = [] := rfl
  rw [merge_eq_insertAll, heads_insertAll (hnil ▸ List.nodup_nil), hnil, List.nil_append,
    List.flatMap_def]
  exact congrArg _ List.filterMap_flatten

theorem declarations_merge (trees : List (List Node)) :
    declarations (merge trees) = trees.flatMap declarations := by
  have hnil : declarations [] = [] := rfl
  rw [merge_eq_insertAll, declarations_insertAll, hnil, List.nil_append, List.flatMap_def]
  exact List.filterMap_flatten

theorem foldl_insertAll_spec {trees : List (List Node)} (h : ∀ t ∈ trees, isDistinct t = true)
    {forest : List Node} (hforest : isDistinct forest = true) (path : List Scope) :
    isDistinct (trees.foldl insertAll forest) = true ∧
      under path (trees.foldl insertAll forest) =
        (trees.map (under path)).foldl insertAll (under path forest) := by
  induction trees generalizing forest with
  | nil => exact ⟨hforest, rfl⟩
  | cons t trees ih =>
    have ht := h t List.mem_cons_self
    obtain ⟨hdistinct, hunder⟩ :=
      ih (fun u hu => h u (List.mem_cons_of_mem t hu)) (isDistinct_insertAll t hforest ht)
    refine ⟨hdistinct, ?_⟩
    rw [List.foldl_cons, hunder, under_insertAll path hforest ht]
    rfl

theorem isDistinct_nil : isDistinct [] = true := by rw [isDistinct]

theorem under_nil (path : List Scope) : under path [] = [] := by
  induction path with
  | nil => rfl
  | cons s path ih => exact ih

theorem isDistinct_merge {trees : List (List Node)} (h : ∀ t ∈ trees, isDistinct t = true) :
    isDistinct (merge trees) = true :=
  (foldl_insertAll_spec h isDistinct_nil []).1

theorem under_merge {trees : List (List Node)} (h : ∀ t ∈ trees, isDistinct t = true)
    (path : List Scope) : under path (merge trees) = merge (trees.map (under path)) := by
  have hunder := (foldl_insertAll_spec h isDistinct_nil path).2
  rwa [under_nil] at hunder

/-! ## Paths -/

theorem hasPath_singleton {s : Scope} {forest : List Node} : HasPath [s] forest ↔ s ∈ heads forest := by
  rw [mem_heads]
  constructor
  · intro h
    cases h with
    | root hmem => exact ⟨_, _, hmem⟩
    | inner _ hpath => cases hpath
  · rintro ⟨source, body, hmem⟩
    exact .root hmem

theorem hasPath_iff_exists_mem {path : List Scope} {forest : List Node} :
    HasPath path forest ↔ ∃ n ∈ forest, HasPath path [n] := by
  constructor
  · intro h
    cases h with
    | root hmem => exact ⟨_, hmem, .root List.mem_cons_self⟩
    | inner hmem hpath => exact ⟨_, hmem, .inner List.mem_cons_self hpath⟩
  · rintro ⟨n, hn, h⟩
    cases h with
    | root hmem => exact .root (List.mem_singleton.mp hmem ▸ hn)
    | inner hmem hpath => exact .inner (List.mem_singleton.mp hmem ▸ hn) hpath

theorem hasPath_cons {s : Scope} {path : List Scope} (hne : path ≠ []) {forest : List Node} :
    HasPath (s :: path) forest ↔ HasPath path (inside s forest) := by
  constructor
  · intro h
    cases h with
    | root _ => exact absurd rfl hne
    | inner hmem hpath =>
      obtain ⟨n, hn, hstart⟩ := hasPath_iff_exists_mem.mp hpath
      refine hasPath_iff_exists_mem.mpr ⟨n, List.mem_flatMap.mpr ⟨_, hmem, ?_⟩, hstart⟩
      simpa [scope?, Node.body] using hn
  · intro h
    obtain ⟨n, hn, hstart⟩ := hasPath_iff_exists_mem.mp h
    obtain ⟨m, hm, hbody⟩ := List.mem_flatMap.mp hn
    split at hbody
    · next hscope =>
      cases m with
      | decl d => simp [scope?] at hscope
      | block u source body =>
        obtain rfl := Option.some.inj hscope
        exact .inner hm (hasPath_iff_exists_mem.mpr ⟨n, hbody, hstart⟩)
    · cases hbody

theorem hasPath_concat {s : Scope} {path : List Scope} {forest : List Node} :
    HasPath (path ++ [s]) forest ↔ s ∈ heads (under path forest) := by
  induction path generalizing forest with
  | nil => exact hasPath_singleton
  | cons t path ih =>
    rw [List.cons_append, hasPath_cons (by simp), ih, under_cons]

/-! ## The trees of declaration paths -/

theorem isDistinct_map_decl (ds : List Declaration) : isDistinct (ds.map .decl) = true := by
  refine isDistinct_iff.mpr ⟨?_, ?_⟩
  · have hheads : heads (ds.map .decl) = [] := by
      simp [heads, List.filterMap_map, Function.comp_def, scope?]
    rw [hheads]
    exact List.nodup_nil
  · intro n hn
    obtain ⟨d, -, rfl⟩ := List.mem_map.mp hn
    rfl

theorem isDistinct_wrap {nodes : List Node} (h : isDistinct nodes = true) (levels : List Scope) :
    isDistinct (Path.wrap nodes levels) = true := by
  unfold Path.wrap
  induction levels generalizing nodes with
  | nil => exact h
  | cons s levels ih =>
    refine ih ?_
    rw [isDistinct, isDistinctNode, h, isDistinct_nil]
    rfl

theorem isDistinct_nodes (path : Path) : isDistinct path.nodes = true := by
  unfold Path.nodes
  split
  · exact isDistinct_nil
  · exact isDistinct_wrap (isDistinct_map_decl _) _

/-- **Merging groups scopes and keeps orders.** The trees of declaration paths are distinct. Distinct
trees are merged into a distinct forest: a path of scopes exists in it if it exists in one of the trees,
the declarations under it are those of the trees in a row, and the scopes under it come in the order in
which they are first met in the trees. -/
theorem merge_groups_scopes : (∀ path : Path, isDistinct path.nodes = true) ∧
    ∀ trees : List (List Node), (∀ t ∈ trees, isDistinct t = true) →
      isDistinct (merge trees) = true ∧ ∀ path : List Scope,
        (HasPath path (merge trees) ↔ ∃ t ∈ trees, HasPath path t) ∧
        declarations (under path (merge trees)) =
          trees.flatMap (fun t => declarations (under path t)) ∧
        heads (under path (merge trees)) =
          (trees.flatMap fun t => heads (under path t)).eraseDups := by
  refine ⟨isDistinct_nodes, fun trees h => ⟨isDistinct_merge h, fun path => ⟨?_, ?_, ?_⟩⟩⟩
  · obtain rfl | ⟨outer, s, rfl⟩ := List.eq_nil_or_concat' path
    · constructor
      · intro hpath
        cases hpath
      · rintro ⟨t, -, hpath⟩
        cases hpath
    · simp only [hasPath_concat, under_merge h, heads_merge, List.mem_eraseDups, List.mem_flatMap,
        List.mem_map, exists_exists_and_eq_and]
  · rw [under_merge h, declarations_merge, List.flatMap_map]
  · rw [under_merge h, heads_merge, List.flatMap_map]

/-- Three trees that share an at-rule, and two of them a rule in it. -/
def sharedTrees : List (List Node) :=
  [[.block (.atRule "media" "print") (some "a") [.block (.rule "&") none [.decl ⟨"color", "red"⟩]]],
    [.block (.rule "&") none [.decl ⟨"margin", "0"⟩],
      .block (.atRule "media" "print") (some "b")
        [.decl ⟨"top", "0"⟩, .block (.verbatim "&") none [], .block (.rule "&") none [.decl ⟨"left", "0"⟩]]],
    [.block (.atRule "media" "print") none [.block (.rule "&:hover") none [.decl ⟨"color", "blue"⟩]]]]

theorem merge_groups_scopes_sharedTrees :
    (∀ t ∈ sharedTrees, isDistinct t = true) ∧ isDistinct (merge sharedTrees) = true ∧
      heads (merge sharedTrees) = [.atRule "media" "print", .rule "&"] ∧
      heads (under [.atRule "media" "print"] (merge sharedTrees)) =
        [.rule "&", .verbatim "&", .rule "&:hover"] ∧
      declarations (under [.atRule "media" "print", .rule "&"] (merge sharedTrees)) =
        [⟨"color", "red"⟩, ⟨"left", "0"⟩] := by
  have h : ∀ t ∈ sharedTrees, isDistinct t = true := by decide
  obtain ⟨hdistinct, hpaths⟩ := merge_groups_scopes.2 sharedTrees h
  refine ⟨h, hdistinct, (hpaths []).2.2.trans ?_, (hpaths [.atRule "media" "print"]).2.2.trans ?_,
    (hpaths [.atRule "media" "print", .rule "&"]).2.1.trans ?_⟩
  · decide
  · decide
  · decide

end Forest
end UtilityCss
