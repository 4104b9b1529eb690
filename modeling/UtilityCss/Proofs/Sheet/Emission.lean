import Mathlib.Data.Multiset.Bind
import UtilityCss.Proofs.Sheet.Flattening
import UtilityCss.Proofs.Style.Merging

/-!
# Merging keeps what is emitted

The roots of a merged forest inside a selector are written with the same declarations as the roots of the
trees, each under the same selector and in the same at-rules, and as often: only the order may change
(`emitted_merge`). Trees may open a scope more than once among siblings.

Where a declaration is written depends on the scopes of its path alone (`emitted_eq`). A block that is
taken into another one of its scope leaves the paths of its declarations as they are, so taking a node
into a forest adds the paths of the node (`paths_insert`). The selectors do not show in this: they come
in when the paths are folded.
-/

namespace UtilityCss

open Node

namespace Node

/-- The declarations that the nodes of a forest are written with as roots inside the selector `parent`. -/
def emitted (parent : String) (forest : List Node) : List Placement :=
  forest.flatMap fun n => Block.placementsAll [] (n.rootBlocks (some parent))

/-- The declarations of a forest, each with the scopes around it. -/
def pathsAll (forest : List Node) : List (List Scope × Declaration) := forest.flatMap paths

theorem pathsAll_append (xs ys : List Node) : pathsAll (xs ++ ys) = pathsAll xs ++ pathsAll ys :=
  List.flatMap_append

theorem pathsAll_cons (n : Node) (ns : List Node) : pathsAll (n :: ns) = n.paths ++ pathsAll ns :=
  List.flatMap_cons

theorem emitted_eq {parent : String} {forest : List Node}
    (h : ∀ s ∈ scopesAll forest, s.isGlobal = false) :
    emitted parent forest = (pathsAll forest).map (Placement.ofPath parent) := by
  induction forest with
  | nil => rfl
  | cons n ns ih =>
    have hn : ∀ s ∈ n.scopes, s.isGlobal = false := fun s hs => h s (List.mem_append_left _ hs)
    have hroot : Block.placementsAll [] (n.rootBlocks (some parent)) =
        n.paths.map (Placement.ofPath parent) := by
      cases n with
      | decl d => rfl
      | block s source body => exact placementsAll_blocks (.block s source body) [] parent hn
    have hns := ih fun s hs => h s (List.mem_append_right _ hs)
    rw [pathsAll_cons, List.map_append, ← hns, ← hroot]
    rfl

theorem pathsAll_perm (body : List Node) :
    ((declarations body).map (fun d => ([], d)) ++ blockPathsAll body).Perm (pathsAll body) := by
  induction body with
  | nil => exact .refl _
  | cons n ns ih =>
    cases n with
    | decl d => exact ih.cons _
    | block s source body =>
      have hd : declarations (.block s source body :: ns) = declarations ns := rfl
      rw [hd, blockPathsAll, pathsAll_cons]
      exact (List.perm_append_comm_assoc _ _ _).trans (ih.append_left _)

theorem paths_block_perm (s : Scope) (source : Option String) (body : List Node) :
    (Node.block s source body).paths.Perm ((pathsAll body).map (inScope s)) :=
  (pathsAll_perm body).map (inScope s)

theorem scopesAll_append (xs ys : List Node) :
    scopesAll (xs ++ ys) = scopesAll xs ++ scopesAll ys := by
  induction xs with
  | nil => rfl
  | cons n ns ih => simp [scopesAll, ih]

end Node

namespace Forest

mutual
/-- A forest that takes in a node has the declarations of both, with their scopes. -/
theorem paths_insert : ∀ (n : Node) (forest : List Node),
    (pathsAll (insert forest n)).Perm (pathsAll forest ++ n.paths)
  | .decl d, forest => by
    rw [insert, pathsAll_append]
    exact .refl _
  | .block s source body, forest => by
    by_cases hs : s ∈ heads forest
    · obtain ⟨front, origin, content, back, rfl, -, hinsert⟩ := exists_insert_eq hs source body
      have hblock : (Node.block s origin (insertAll content body)).paths.Perm
          ((Node.block s origin content).paths ++ (Node.block s source body).paths) :=
        calc (Node.block s origin (insertAll content body)).paths.Perm
              ((pathsAll (insertAll content body)).map (inScope s)) := paths_block_perm s origin _
          List.Perm _ ((pathsAll content ++ pathsAll body).map (inScope s)) :=
            (paths_insertAll body content).map _
          _ = (pathsAll content).map (inScope s) ++ (pathsAll body).map (inScope s) := List.map_append
          List.Perm _ _ :=
            (paths_block_perm s origin content).symm.append (paths_block_perm s source body).symm
      rw [hinsert, pathsAll_append, pathsAll_append, pathsAll_cons, pathsAll_cons, List.append_assoc,
        List.append_assoc]
      -- what the block takes in is moved past what stands behind it
      refine List.Perm.append_left _ ((hblock.append_right _).trans ?_)
      rw [List.append_assoc]
      exact List.perm_append_comm.append_left _
    · rw [insert_of_not_mem hs, pathsAll_append, pathsAll_cons]
      exact .of_eq (by simp [pathsAll])
theorem paths_insertAll : ∀ (nodes forest : List Node),
    (pathsAll (insertAll forest nodes)).Perm (pathsAll forest ++ pathsAll nodes)
  | [], forest => .of_eq (by simp [insertAll, pathsAll])
  | n :: ns, forest => by
    rw [insertAll, pathsAll_cons, ← List.append_assoc]
    exact (paths_insertAll ns (insert forest n)).trans ((paths_insert n forest).append_right _)
end

theorem paths_merge (trees : List (List Node)) :
    (pathsAll (merge trees)).Perm (trees.flatMap pathsAll) := by
  have hflatten : pathsAll trees.flatten = trees.flatMap pathsAll := by
    rw [pathsAll, List.flatMap_def, List.map_flatten, List.flatten_flatten, List.map_map]
    rfl
  rw [merge_eq_insertAll, ← hflatten]
  exact paths_insertAll trees.flatten []

mutual
theorem scopes_insert_subset : ∀ (n : Node) (forest : List Node),
    scopesAll (insert forest n) ⊆ scopesAll forest ++ n.scopes
  | .decl d, forest => by
    rw [insert, scopesAll_append]
    exact List.Subset.refl _
  | .block s source body, forest => by
    by_cases hs : s ∈ heads forest
    · obtain ⟨front, origin, content, back, rfl, -, hinsert⟩ := exists_insert_eq hs source body
      have hcontent := scopes_insertAll_subset body content
      intro t ht
      rw [hinsert] at ht
      have := @hcontent t
      simp only [scopesAll_append, scopesAll, scopes, List.mem_append, List.mem_cons] at ht this ⊢
      tauto
    · rw [insert_of_not_mem hs, scopesAll_append]
      simp [scopesAll]
theorem scopes_insertAll_subset : ∀ (nodes forest : List Node),
    scopesAll (insertAll forest nodes) ⊆ scopesAll forest ++ scopesAll nodes
  | [], forest => by simp [insertAll, scopesAll]
  | n :: ns, forest => by
    rw [insertAll, scopesAll, ← List.append_assoc]
    refine List.Subset.trans (scopes_insertAll_subset ns (insert forest n)) ?_
    exact List.append_subset.mpr ⟨fun s hs => List.mem_append_left _ (scopes_insert_subset n forest hs),
      List.subset_append_right _ _⟩
end

theorem scopes_merge_subset (trees : List (List Node)) :
    scopesAll (merge trees) ⊆ scopesAll trees.flatten := by
  rw [merge_eq_insertAll]
  exact scopes_insertAll_subset trees.flatten []

theorem forall_scopesAll_flatten {P : Scope → Prop} {trees : List (List Node)}
    (h : ∀ t ∈ trees, ∀ s ∈ scopesAll t, P s) : ∀ s ∈ scopesAll trees.flatten, P s := by
  induction trees with
  | nil => simp [scopesAll]
  | cons t trees ih =>
    intro s hs
    rw [List.flatten_cons, scopesAll_append, List.mem_append] at hs
    obtain hs | hs := hs
    · exact h t List.mem_cons_self s hs
    · exact ih (fun u hu => h u (List.mem_cons_of_mem t hu)) s hs

/-- **Merging keeps what is emitted.** Let no at-rule of some trees have a body that belongs to no
selector. The merged forest is written inside a selector with the declarations that its trees are written
with, each as often under the same selector and in the same at-rules. -/
theorem emitted_merge (parent : String) (trees : List (List Node))
    (h : ∀ t ∈ trees, ∀ s ∈ scopesAll t, s.isGlobal = false) :
    (emitted parent (merge trees) : Multiset Placement) =
      (trees.map fun t => (emitted parent t : Multiset Placement)).sum := by
  have hmerged : ∀ s ∈ scopesAll (merge trees), s.isGlobal = false := fun s hs =>
    forall_scopesAll_flatten h s (scopes_merge_subset trees hs)
  have hperm : (emitted parent (merge trees)).Perm (trees.flatMap (emitted parent)) := by
    rw [emitted_eq hmerged, List.flatMap_congr fun t ht => emitted_eq (h t ht), ← List.map_flatMap]
    exact (paths_merge trees).map (Placement.ofPath parent)
  rw [Multiset.coe_eq_coe.mpr hperm, ← Multiset.coe_bind, Multiset.bind, Multiset.join,
    Multiset.map_coe, Multiset.sum_coe]

/-- Two trees that share an at-rule; the first one repeats a rule, and the second one repeats it again. -/
def repeatingTrees : List (List Node) :=
  [[.block (.atRule "media" "print") none
      [.block (.rule "&:hover") none [.decl ⟨"color", "red"⟩],
        .block (.rule "&:hover") none [.decl ⟨"top", "0"⟩]]],
    [.decl ⟨"left", "0"⟩,
      .block (.atRule "media" "print") none
        [.block (.rule "&:hover") none [.decl ⟨"color", "red"⟩], .decl ⟨"margin", "0"⟩]]]

theorem emitted_merge_repeatingTrees :
    (∀ t ∈ repeatingTrees, ∀ s ∈ scopesAll t, s.isGlobal = false) ∧
      (emitted ".c" (merge repeatingTrees) : Multiset Placement) =
        {⟨[], some ".c", ⟨"left", "0"⟩⟩,
          ⟨[("media", "print")], some ".c", ⟨"margin", "0"⟩⟩,
          ⟨[("media", "print")], some ".c:hover", ⟨"color", "red"⟩⟩,
          ⟨[("media", "print")], some ".c:hover", ⟨"color", "red"⟩⟩,
          ⟨[("media", "print")], some ".c:hover", ⟨"top", "0"⟩⟩} := by
  have h : ∀ t ∈ repeatingTrees, ∀ s ∈ scopesAll t, s.isGlobal = false := by decide
  refine ⟨h, (emitted_merge ".c" repeatingTrees h).trans ?_⟩
  decide +kernel

end Forest
end UtilityCss
