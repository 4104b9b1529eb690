import UtilityCss.Engine.Compiler
import UtilityCss.Proofs.Style.Merging

/-!
# Merging in batches

Trees can be merged all at once, or batch by batch and then the merged batches: the forest is the same,
sources and order included (`merge_batches`). So it does not matter either how a list of class names is
cut into batches before their styles are put together.

The law behind it is that taking in is associative (`insertAll_insertAll`): a forest takes in a merge as
it takes in what was merged. One node at a time, this is a matter of where the node goes in the inner
forest. If it goes into a block there, that block has already been taken in when the rest of the inner
forest is, and the rest opens other scopes (`insert_insertAll_comm`). This is where trees must be
distinct: a second block of the same scope would have been taken in between.
-/

namespace UtilityCss
namespace Forest

open Node

/-! ## Updates of one forest -/

section update

variable {s t : Scope} {f g : List Node → List Node} {x y z : Node} {forest : List Node}

theorem updateFirst_append (h : s ∈ heads forest) (rest : List Node) :
    updateFirst s f x (forest ++ rest) = updateFirst s f x forest ++ rest := by
  induction forest with
  | nil => cases h
  | cons n ns ih =>
    cases n with
    | decl d => exact congrArg _ (ih h)
    | block u source body =>
      by_cases hu : u = s
      · simp [updateFirst, hu]
      · rw [heads_block_cons, List.mem_cons] at h
        simp [updateFirst, hu, ih (h.resolve_left (Ne.symm hu))]

theorem updateFirst_append_of_not_mem (h : s ∉ heads forest) (rest : List Node) :
    updateFirst s f x (forest ++ rest) = forest ++ updateFirst s f x rest := by
  induction forest with
  | nil => rfl
  | cons n ns ih =>
    cases n with
    | decl d => exact congrArg _ (ih h)
    | block u source body =>
      rw [heads_block_cons, List.mem_cons, not_or] at h
      rw [List.cons_append, updateFirst, if_neg (Ne.symm h.1), ih h.2]
      rfl

theorem updateFirst_updateFirst (h : s ∈ heads forest) :
    updateFirst s f x (updateFirst s g y forest) = updateFirst s (fun c => f (g c)) z forest := by
  induction forest with
  | nil => cases h
  | cons n ns ih =>
    cases n with
    | decl d => exact congrArg _ (ih h)
    | block u source body =>
      by_cases hu : u = s
      · simp [updateFirst, hu]
      · rw [heads_block_cons, List.mem_cons] at h
        simp [updateFirst, hu, ih (h.resolve_left (Ne.symm hu))]

theorem updateFirst_comm (hne : s ≠ t) (h : s ∈ heads forest) :
    updateFirst s f x (updateFirst t g y forest) = updateFirst t g y (updateFirst s f x forest) := by
  induction forest with
  | nil => cases h
  | cons n ns ih =>
    cases n with
    | decl d => exact congrArg _ (ih h)
    | block u source body =>
      by_cases hs : u = s
      · subst hs
        simp [updateFirst, hne]
      · rw [heads_block_cons, List.mem_cons] at h
        have hns := ih (h.resolve_left (Ne.symm hs))
        by_cases ht : u = t
        · subst ht
          simp [updateFirst, hs]
        · simp [updateFirst, hs, ht, hns]

end update

/-! ## Taking in is associative -/

section insert

variable {s : Scope} {forest : List Node}

theorem insert_comm (h : s ∈ heads forest) {n : Node} (hn : s ∉ heads [n]) (source : Option String)
    (body : List Node) :
    insert (insert forest n) (.block s source body) =
      insert (insert forest (.block s source body)) n := by
  cases n with
  | decl d => exact updateFirst_append h [.decl d]
  | block t origin content =>
    rw [heads_block, List.mem_singleton] at hn
    exact updateFirst_comm hn h

/-- A block with a place in the forest can be taken in before nodes that open other scopes. -/
theorem insert_insertAll_comm (h : s ∈ heads forest) {nodes : List Node} (hnodes : s ∉ heads nodes)
    (source : Option String) (body : List Node) :
    insert (insertAll forest nodes) (.block s source body) =
      insertAll (insert forest (.block s source body)) nodes := by
  induction nodes generalizing forest with
  | nil => rfl
  | cons n ns ih =>
    have hcons : heads (n :: ns) = heads [n] ++ heads ns := heads_append [n] ns
    rw [hcons, List.mem_append, not_or] at hnodes
    have hstay : s ∈ heads (insert forest n) := by
      cases n with
      | decl d => rwa [heads_insert_decl]
      | block t origin content =>
        rw [heads_insert_block]
        split
        · exact h
        · exact List.mem_append_left _ h
    rw [insertAll, insertAll, ih hstay hnodes.2, insert_comm h hnodes.1]

theorem mem_heads_insert (forest : List Node) (s : Scope) (source : Option String)
    (body : List Node) : s ∈ heads (insert forest (.block s source body)) := by
  rw [heads_insert_block]
  split
  · next h => exact h
  · exact List.mem_append_right _ (List.mem_singleton_self s)

end insert

theorem insert_block_insertAll (before : List Node) (s : Scope) (origin source : Option String)
    {content body : List Node} (hassoc : ∀ outer,
      insertAll outer (insertAll content body) = insertAll (insertAll outer content) body) :
    insert before (.block s origin (insertAll content body)) =
      insert (insert before (.block s origin content)) (.block s source body) := by
  by_cases hs : s ∈ heads before
  · have hchange : (fun c => insertAll c (insertAll content body)) =
        fun c => insertAll (insertAll c content) body := funext hassoc
    rw [insert, insert, insert, updateFirst_updateFirst hs, hchange]
  · rw [insert_of_not_mem hs, insert_of_not_mem hs, insert, updateFirst_append_of_not_mem hs]
    simp [updateFirst]

theorem forall_isDistinctNode {forest : List Node} (h : isDistinct forest = true) :
    ∀ n ∈ forest, isDistinctNode n = true :=
  (isDistinct_iff.mp h).2

mutual
theorem insertAll_insert : ∀ (n : Node) {outer inner : List Node}, isDistinct inner = true →
    isDistinctNode n = true → insertAll outer (insert inner n) = insert (insertAll outer inner) n
  | .decl d, outer, inner, _, _ => by
    rw [insert, insertAll_append]
    rfl
  | .block s source body, outer, inner, hinner, hn => by
    by_cases hs : s ∈ heads inner
    · obtain ⟨front, origin, content, back, rfl, -, hinsert⟩ := exists_insert_eq hs source body
      obtain ⟨hnodup, hbodies⟩ := isDistinct_iff.mp hinner
      have hback : s ∉ heads back := by
        rw [heads_append, heads_block_cons, List.nodup_middle, List.nodup_cons, List.mem_append,
          not_or] at hnodup
        exact hnodup.1.2
      have hcontent : isDistinct content = true :=
        hbodies _ (List.mem_append_right front List.mem_cons_self)
      -- what the outer forest holds when the block of the inner one comes
      generalize hbefore : insertAll outer front = before
      have hblock := insert_block_insertAll before s origin source fun _ =>
        insertAll_insertAll body hcontent (forall_isDistinctNode hn)
      rw [hinsert, insertAll_append, insertAll_append, hbefore, insertAll, insertAll, hblock,
        insert_insertAll_comm (mem_heads_insert before s origin content) hback]
    · rw [insert_of_not_mem hs, insertAll_append]
      rfl
/-- A forest takes in a merge as it takes in what was merged. -/
theorem insertAll_insertAll : ∀ (nodes : List Node) {outer inner : List Node},
    isDistinct inner = true → (∀ n ∈ nodes, isDistinctNode n = true) →
    insertAll outer (insertAll inner nodes) = insertAll (insertAll outer inner) nodes
  | [], _, _, _, _ => rfl
  | n :: ns, outer, inner, hinner, hnodes => by
    have hn := hnodes n List.mem_cons_self
    rw [insertAll, insertAll_insertAll ns (isDistinct_insert n hinner hn)
      fun m hm => hnodes m (List.mem_cons_of_mem n hm), insertAll_insert n hinner hn]
    rfl
end

/-! ## Batches -/

theorem insertAll_merge {batch : List (List Node)} (h : ∀ t ∈ batch, isDistinct t = true)
    (forest : List Node) : insertAll forest (merge batch) = batch.foldl insertAll forest := by
  have hnodes : ∀ n ∈ batch.flatten, isDistinctNode n = true := by
    intro n hn
    obtain ⟨t, ht, hnt⟩ := List.mem_flatten.mp hn
    exact forall_isDistinctNode (h t ht) n hnt
  have hstep : insertAll = fun forest nodes => nodes.foldl insert forest :=
    funext₂ insertAll_eq_foldl
  rw [merge_eq_insertAll, insertAll_insertAll _ isDistinct_nil hnodes, insertAll, insertAll_eq_foldl,
    List.foldl_flatten, ← hstep]

theorem merge_flatten {batches : List (List (List Node))}
    (h : ∀ batch ∈ batches, ∀ t ∈ batch, isDistinct t = true) :
    merge batches.flatten = merge (batches.map merge) := by
  rw [merge, merge, List.foldl_flatten, List.foldl_map]
  generalize [] = forest
  induction batches generalizing forest with
  | nil => rfl
  | cons batch batches ih =>
    rw [List.foldl_cons, List.foldl_cons, insertAll_merge (h batch List.mem_cons_self)]
    exact ih (fun b hb => h b (List.mem_cons_of_mem batch hb)) _

/-! ## The trees of class names -/

theorem sameScope_withSource (cls : String) (a b : Node) :
    (a.withSource cls).sameScope (b.withSource cls) = a.sameScope b := by
  cases a <;> cases b <;> rfl

mutual
theorem isDistinctNode_withSource (cls : String) :
    ∀ n : Node, isDistinctNode (n.withSource cls) = isDistinctNode n
  | .decl _ => rfl
  | .block _ _ body => isDistinct_withSourceAll cls body
theorem isDistinct_withSourceAll (cls : String) :
    ∀ ns : List Node, isDistinct (withSourceAll cls ns) = isDistinct ns
  | [] => rfl
  | n :: ns => by
    have hall : (withSourceAll cls ns).all (fun m => !(n.withSource cls).sameScope m) =
        ns.all fun m => !n.sameScope m := by
      rw [withSourceAll_eq_map, List.all_map]
      exact congrArg _ (funext fun m => by rw [Function.comp, sameScope_withSource])
    rw [withSourceAll, isDistinct, isDistinct, isDistinctNode_withSource cls n, hall,
      isDistinct_withSourceAll cls ns]
end

theorem expand_eq_ok {reg : Registry} {θ : Theme} {c : ClassName} {nodes : List Node}
    (h : reg.expand θ c = .ok nodes) : nodes = [] ∨ ∃ path : Path, nodes = path.nodes := by
  unfold Registry.expand at h
  split at h
  · exact .inl (Except.ok.inj h).symm
  · unfold Registry.expandUtility at h
    simp only [bind, Except.bind, pure, Except.pure] at h
    split at h
    · exact .inl (Except.ok.inj h).symm
    · split at h
      · cases h
      · split_ifs at h
        · exact .inl (Except.ok.inj h).symm
        · split at h
          · cases h
          · split at h
            · exact .inl (Except.ok.inj h).symm
            · split at h
              · cases h
              · exact .inr ⟨_, (Except.ok.inj h).symm⟩

/-- The forest of some class names; a class name that is refused adds nothing. -/
def ofClasses (reg : Registry) (θ : Theme) (classes : List String) : List Node :=
  merge (classes.map fun cls => (reg.compile θ cls).toOption.getD [])

theorem isDistinct_compile (reg : Registry) (θ : Theme) (cls : String) :
    isDistinct ((reg.compile θ cls).toOption.getD []) = true := by
  unfold Registry.compile
  cases hexpand : reg.expand θ (ClassName.parse reg θ cls) with
  | error e => exact isDistinct_nil
  | ok nodes =>
    show isDistinct (withSourceAll cls nodes) = true
    rw [isDistinct_withSourceAll]
    obtain rfl | ⟨path, rfl⟩ := expand_eq_ok hexpand
    · exact isDistinct_nil
    · exact isDistinct_nodes path

theorem ofClasses_flatten (reg : Registry) (θ : Theme) (batches : List (List String)) :
    ofClasses reg θ batches.flatten = merge (batches.map (ofClasses reg θ)) := by
  unfold ofClasses
  rw [List.map_flatten, merge_flatten, List.map_map]
  · rfl
  · intro batch hbatch t ht
    obtain ⟨classes, -, rfl⟩ := List.mem_map.mp hbatch
    obtain ⟨cls, -, rfl⟩ := List.mem_map.mp ht
    exact isDistinct_compile reg θ cls

/-- **Merging in batches is merging at once.** Distinct trees are merged to the same forest if two parts
of their list are merged first, or any number of parts. So the forest of a list of class names does not
depend on the batches in which they are compiled and merged. -/
theorem merge_batches :
    (∀ xs ys : List (List Node), (∀ t ∈ xs, isDistinct t = true) → (∀ t ∈ ys, isDistinct t = true) →
      merge (xs ++ ys) = merge [merge xs, merge ys]) ∧
    (∀ batches : List (List (List Node)), (∀ batch ∈ batches, ∀ t ∈ batch, isDistinct t = true) →
      merge batches.flatten = merge (batches.map merge)) ∧
    ∀ (reg : Registry) (θ : Theme) (batches : List (List String)),
      ofClasses reg θ batches.flatten = merge (batches.map (ofClasses reg θ)) := by
  refine ⟨fun xs ys hxs hys => ?_, fun batches h => merge_flatten h, ofClasses_flatten⟩
  have h := @merge_flatten [xs, ys] (by simpa using ⟨hxs, hys⟩)
  simpa using h

def earlierTrees : List (List Node) :=
  [[.block (.atRule "media" "print") (some "a") [.block (.rule "&") none [.decl ⟨"color", "red"⟩]]],
    [.block (.rule "&") none [.decl ⟨"margin", "0"⟩]]]

/-- Trees that open scopes of `earlierTrees` again, and a scope of their own twice. -/
def laterTrees : List (List Node) :=
  [[.block (.rule "&:hover") none [.decl ⟨"top", "0"⟩], .decl ⟨"left", "0"⟩,
      .block (.atRule "media" "print") (some "b") [.block (.verbatim "&") none []]],
    [.block (.rule "&:hover") none [.decl ⟨"color", "blue"⟩],
      .block (.atRule "media" "print") none [.decl ⟨"top", "1px"⟩, .block (.rule "&") (some "c") []]]]

/-- What all these trees are merged to. -/
def laterForest : List Node :=
  [.block (.atRule "media" "print") (some "a")
      [.block (.rule "&") none [.decl ⟨"color", "red"⟩], .block (.verbatim "&") none [],
        .decl ⟨"top", "1px"⟩],
    .block (.rule "&") none [.decl ⟨"margin", "0"⟩],
    .block (.rule "&:hover") none [.decl ⟨"top", "0"⟩, .decl ⟨"color", "blue"⟩],
    .decl ⟨"left", "0"⟩]

theorem merge_batches_laterForest :
    (∀ t ∈ earlierTrees, isDistinct t = true) ∧ (∀ t ∈ laterTrees, isDistinct t = true) ∧
      merge [merge earlierTrees, merge laterTrees] = laterForest ∧
      merge ([earlierTrees, [], laterTrees].map merge) = laterForest := by
  have hearlier : ∀ t ∈ earlierTrees, isDistinct t = true := by decide
  have hlater : ∀ t ∈ laterTrees, isDistinct t = true := by decide
  have hbatches : ∀ batch ∈ [earlierTrees, [], laterTrees], ∀ t ∈ batch, isDistinct t = true := by
    simpa using ⟨hearlier, hlater⟩
  refine ⟨hearlier, hlater, (merge_batches.1 _ _ hearlier hlater).symm.trans ?_,
    (merge_batches.2.1 _ hbatches).symm.trans ?_⟩
  · decide
  · decide

/-- A scope that a tree repeats keeps its second block, until it is merged into a third one. -/
example :
    let q (body : List Node) : Node := .block (.rule "&") none [.block (.rule "& p") none body]
    let twice : Node := .block (.rule "&") none
      [.block (.rule "& p") none [.decl ⟨"a", "1"⟩], .block (.rule "& p") none [.decl ⟨"b", "2"⟩]]
    isDistinct [twice] = false ∧ merge ([[q []]] ++ [[twice], [q [.decl ⟨"c", "3"⟩]]]) ≠
      merge [merge [[q []]], merge [[twice], [q [.decl ⟨"c", "3"⟩]]]] := by decide

end Forest
end UtilityCss
