import UtilityCss.Proofs.Selector.Template

/-!
# What resolving carries over

A resolved selector is put together from the compounds of the selector around it, those of the template,
and the few characters that join them: spaces, commas, the characters of combinators, and `:is(` with its
bracket (`joints`). So a property of texts that survives being put together, read into compounds, and put
in place of the anchors of a template is carried over by both ways of resolving (`Carries.resolve`,
`Carries.resolveVerbatim`), whether or not the texts can be read. The templates may have a property of
their own.

A condition on single characters that the joints meet is such a property (`carries_forall_mem`), so a
resolved selector has no characters but those of the two texts and the joints.
-/

namespace UtilityCss
namespace Selector

/-- The characters that are put between compounds, between selectors and around them. -/
def joints : List Char := [' ', ',', '>', '+', '~', ':', 'i', 's', '(', ')']

theorem mark_subset_joints (k : Combinator) : k.mark ⊆ joints := by cases k <;> decide

/-- Whether a property of a text is one of every compound that is read from it. -/
def PassesToCompounds (P : List Char → Prop) : Prop :=
  ∀ s ss, parseList s = .ok ss → P s.toList → ∀ x ∈ ss, ∀ p ∈ x.parts, P p.compound

/-- What carries a property `P` of selectors over when they are put into templates with the property
`T`. -/
structure Carries (T P : List Char → Prop) : Prop where
  nil : P []
  append : ∀ s t, P s → P t → P (s ++ t)
  joint : ∀ c ∈ joints, P [c]
  suffix : ∀ t, T ('&' :: t) → T t
  replace : ∀ r s, P r → T s → P (Anchor.replace r s)
  outer : PassesToCompounds P
  inner : PassesToCompounds T

namespace Carries

variable {T P : List Char → Prop}

/-! ## Texts -/

theorem of_subset_joints (h : Carries T P) {s : List Char} (hs : s ⊆ joints) : P s := by
  induction s with
  | nil => exact h.nil
  | cons c s ih =>
    obtain ⟨hc, hs⟩ := List.cons_subset.mp hs
    exact h.append [c] s (h.joint c hc) (ih hs)

theorem of_not_occurs (h : Carries T P) {s : List Char} (hs : T s) (hnone : Anchor.occurs s = false) :
    P s := by
  have hreplace := h.replace [] s h.nil hs
  rwa [Anchor.replace_eq_replaceFrom,
    Anchor.replaceFrom_of_not_occurs (Anchor.occurs_eq_occursFrom s ▸ hnone)] at hreplace

theorem text (h : Carries T P) {s : Selector} (hs : ∀ p ∈ s.parts, P p.compound) : P s.text :=
  text_of_append h.nil h.append (h.joint ' ' (by decide))
    (fun c => h.of_subset_joints (mark_subset_joints c)) hs

theorem inIs (h : Carries T P) {s : List Char} (hs : P s) : P ([':', 'i', 's', '('] ++ s ++ [')']) := by
  have hopen : P [':', 'i', 's', '('] := h.of_subset_joints (by decide)
  exact h.append _ _ (h.append _ _ hopen hs) (h.joint ')' (by decide))

theorem inlineText (h : Carries T P) {s : Selector} (hs : ∀ p ∈ s.parts, P p.compound) :
    P s.inlineText := by
  by_cases hc : s.isCompound = true
  · obtain ⟨w, hw⟩ := isCompound_iff.mp hc
    rw [inlineText_of_isCompound hw]
    exact hs ⟨none, w⟩ (by simp [hw])
  · rw [Selector.inlineText, if_neg hc]
    exact h.inIs (h.text hs)

/-! ## Putting one selector into another -/

theorem appendToLast (h : Carries T P) {t : List Char} (ht : P t) {ps : List Part}
    (hps : ∀ p ∈ ps, P p.compound) : ∀ p ∈ appendToLast t ps, P p.compound := by
  rcases List.eq_nil_or_concat ps with rfl | ⟨ps, p, rfl⟩
  · simp [Selector.appendToLast]
  · rw [List.concat_eq_append] at hps ⊢
    rw [appendToLast_concat]
    intro q hq
    rcases List.mem_append.mp hq with hq | hq
    · exact hps q (List.mem_append_left _ hq)
    · obtain rfl := List.mem_singleton.mp hq
      exact h.append _ _ (hps p (by simp)) ht

theorem expandPart (h : Carries T P) {outer : Selector} (ho : ∀ p ∈ outer.parts, P p.compound)
    {p : Part} (hp : T p.compound) : ∀ q ∈ expandPart outer p, P q.compound := by
  unfold Selector.expandPart
  split
  · split
    · next t ht =>
      obtain ⟨hcompound, hnone⟩ := Anchor.eq_cons_and_not_occurs_of_suffix? ht
      have hrest : P t :=
        h.of_not_occurs (h.suffix t (hcompound ▸ hp)) (Anchor.occurs_eq_occursFrom t ▸ hnone)
      exact h.appendToLast hrest (forall_compound (map_compound_replaceLead _ _) ho)
    · intro q hq
      obtain rfl := List.mem_singleton.mp hq
      exact h.replace _ _ (h.inlineText ho) hp
  · next hanchor =>
    intro q hq
    obtain rfl := List.mem_singleton.mp hq
    exact h.of_not_occurs hp (by simpa [Part.hasAnchor] using hanchor)

theorem substitute (h : Carries T P) {inner outer : Selector} (hi : ∀ p ∈ inner.parts, T p.compound)
    (ho : ∀ p ∈ outer.parts, P p.compound) : ∀ p ∈ (inner.substitute outer).parts, P p.compound := by
  unfold Selector.substitute
  split
  · intro q hq
    obtain ⟨p, hp, hq⟩ := List.mem_flatMap.mp hq
    exact h.expandPart ho (hi p hp) q hq
  · next hanchor =>
    have hnone : ∀ p ∈ inner.parts, Anchor.occurs p.compound = false := by
      simpa [hasAnchor, Part.hasAnchor] using hanchor
    have hinner : ∀ p ∈ inner.parts, P p.compound :=
      fun p hp => h.of_not_occurs (hi p hp) (hnone p hp)
    intro q hq
    rcases List.mem_append.mp hq with hq | hq
    · exact ho q hq
    · exact forall_compound (map_compound_withLead _ _) hinner q hq

/-! ## Resolving -/

theorem productText (h : Carries T P) {os is : List Selector}
    (ho : ∀ o ∈ os, ∀ p ∈ o.parts, P p.compound) (hi : ∀ i ∈ is, ∀ p ∈ i.parts, T p.compound) :
    P (productText os is) := by
  refine intercalate_of_append h.nil h.append (h.of_subset_joints (by decide)) fun t ht => ?_
  obtain ⟨o, hos, ht⟩ := List.mem_flatMap.mp ht
  obtain ⟨i, his, rfl⟩ := List.mem_map.mp ht
  exact h.text (h.substitute (hi i his) (ho o hos))

variable {parent template : String}

theorem resolveVerbatim (h : Carries T P) (hp : P parent.toList) (ht : T template.toList) :
    P (resolveVerbatim parent template).toList := by
  unfold Selector.resolveVerbatim
  split
  · rw [String.toList_ofList]
    refine h.replace _ _ ?_ ht
    split
    · exact hp
    · simpa using h.inIs hp
  · next hanchor =>
    have htemplate := h.of_not_occurs ht (by simpa using hanchor)
    rw [String.toList_append, String.toList_append]
    exact h.append _ _ (h.append _ _ hp (h.of_subset_joints (by decide))) htemplate

theorem resolve (h : Carries T P) (hp : P parent.toList) (ht : T template.toList) :
    P (resolve parent template).toList := by
  unfold Selector.resolve
  split
  · next os is hos his =>
    rw [String.toList_ofList]
    exact h.productText (h.outer _ _ hos hp) (h.inner _ _ his ht)
  · exact h.resolveVerbatim hp ht

end Carries

/-! ## Conditions on single characters -/

open ListState

variable {Q : Char → Prop}

theorem forall_mem_of_read {s : List Char} {sel : Selector} (h : read s = .ok sel)
    (hs : ∀ c ∈ s, Q c) : ∀ p ∈ sel.parts, ∀ c ∈ p.compound, Q c := by
  obtain ⟨r, hrun, hfinish⟩ := read_eq_ok h
  obtain ⟨rfl, -, -, -⟩ := Reader.finish_eq_ok hfinish
  have htrim : ∀ c ∈ Text.trim s, Q c := by
    intro c hc
    obtain ⟨l, r, -, -, heq⟩ := Text.exists_eq_append_trim s
    exact hs c (heq ▸ by simp [hc])
  have halong : Along (fun _ c => Q c) start (Text.trim s) := along_of_forall (fun _ => htrim) _
  have hprog := Reader.progress_of_run halong hrun
  have hholds : ∀ w, Along (Reader.Holds fun _ c => Q c) start w → ∀ c ∈ w, Q c :=
    fun w hw => forall_of_along (fun _ _ hc => hc.1) hw
  intro p hp
  rcases List.mem_append.mp hp with hp | hp
  · exact hholds _ (hprog.parts p hp).holds
  · obtain rfl := List.mem_singleton.mp hp
    exact hholds _ hprog.compound

theorem passesToCompounds_forall_mem : PassesToCompounds fun s => ∀ c ∈ s, Q c := by
  intro s ss h hs x hx
  obtain ⟨m, hm, hread⟩ := (mem_of_parseList h).2 x hx
  have hsub : ∀ c ∈ m, c ∈ s.toList :=
    (along_member (P := fun _ _ => True) (along_of_forall (fun _ _ _ => trivial) _) hm).2
  exact forall_mem_of_read hread fun c hc => hs c (hsub c hc)

theorem passesToCompounds_not_mem (c : Char) : PassesToCompounds fun s => c ∉ s := by
  intro s ss h hs x hx p hp hc
  have hne : ∀ d ∈ s.toList, d ≠ c := fun d hd heq => hs (heq ▸ hd)
  exact passesToCompounds_forall_mem s ss h hne x hx p hp c hc rfl

theorem forall_mem_replace {r s : List Char} (hr : ∀ c ∈ r, Q c) (hs : ∀ c ∈ s, Q c) :
    ∀ c ∈ Anchor.replace r s, Q c := by
  rw [Anchor.replace_eq_replaceFrom]
  generalize false = isProtected
  induction s generalizing isProtected with
  | nil => simp [Anchor.replaceFrom]
  | cons d s ih =>
    intro c hc
    rcases List.mem_append.mp hc with hc | hc
    · split at hc
      · exact hr c hc
      · exact hs c (by simpa using .inl (List.mem_singleton.mp hc))
    · exact ih (fun x hx => hs x (by simp [hx])) _ c hc

theorem carries_forall_mem (hjoint : ∀ c ∈ joints, Q c) :
    Carries (fun s => ∀ c ∈ s, Q c) (fun s => ∀ c ∈ s, Q c) where
  nil := by simp
  append := fun _ _ hs ht => List.forall_mem_append.mpr ⟨hs, ht⟩
  joint := fun c hc => List.forall_mem_singleton.mpr (hjoint c hc)
  suffix := fun _ ht => (List.forall_mem_cons.mp ht).2
  replace := fun _ _ => forall_mem_replace
  outer := passesToCompounds_forall_mem
  inner := passesToCompounds_forall_mem

variable {parent template : String}

theorem forall_mem_resolveVerbatim (hjoint : ∀ c ∈ joints, Q c) (hp : ∀ c ∈ parent.toList, Q c)
    (ht : ∀ c ∈ template.toList, Q c) : ∀ c ∈ (resolveVerbatim parent template).toList, Q c :=
  (carries_forall_mem hjoint).resolveVerbatim hp ht

theorem forall_mem_resolve (hjoint : ∀ c ∈ joints, Q c) (hp : ∀ c ∈ parent.toList, Q c)
    (ht : ∀ c ∈ template.toList, Q c) : ∀ c ∈ (resolve parent template).toList, Q c :=
  (carries_forall_mem hjoint).resolve hp ht

end Selector
end UtilityCss
