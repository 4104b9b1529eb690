import Mathlib.Algebra.Ring.Parity
import UtilityCss.Proofs.Selector.Carrying

/-!
# Texts without anchors

A text is `Filled` if it has no anchor and every backslash in it stands before a visible character or
belongs to an earlier backslash. Such a text can be cut wherever nothing is protected (`Filled.split`), so
the members of a list and the compounds of a selector are filled with it (`Filled.member`,
`Filled.compounds`): neither a comma in the open nor a blank at an end is protected.

A filled text in place of all anchors leaves a template filled that has no backslash (`Filled.replace`).
So a filled selector stays filled, however it is put into such templates (`Filled.carries`).
-/

namespace UtilityCss

open Anchor ListState

namespace Anchor

/-- Whether every ampersand of a text is escaped: the backslashes before it do not come in pairs. -/
def AllEscaped (s : List Char) : Prop := ∀ u v, s = u ++ '&' :: v → Odd (trailingBackslashes u)

end Anchor

/-- A text without an anchor, in which a backslash stands before a visible character. -/
inductive Filled : List Char → Prop where
  | nil : Filled []
  | plain {c : Char} {s : List Char} (hbackslash : c ≠ '\\') (hamp : c ≠ '&') (hs : Filled s) :
      Filled (c :: s)
  | escaped {c : Char} {s : List Char} (hvisible : Text.isBlank c = false) (hs : Filled s) :
      Filled ('\\' :: c :: s)

namespace Filled

variable {s t u v : List Char}

theorem append (hs : Filled s) (ht : Filled t) : Filled (s ++ t) := by
  induction hs with
  | nil => exact ht
  | plain hbackslash hamp _ ih => exact .plain hbackslash hamp ih
  | escaped hvisible _ ih => exact .escaped hvisible ih

theorem of_forall (h : ∀ c ∈ s, c ≠ '\\' ∧ c ≠ '&') : Filled s := by
  induction s with
  | nil => exact .nil
  | cons c s ih =>
    obtain ⟨hbackslash, hamp⟩ := h c (by simp)
    exact .plain hbackslash hamp (ih fun d hd => h d (by simp [hd]))

theorem neutral (h : Filled s) : Neutral s := by
  induction h with
  | nil => rfl
  | @plain c s hbackslash _ _ ih =>
    exact neutral_append (s := [c]) (neutral_of_not_mem (by simpa using hbackslash)) ih
  | @escaped c s _ _ ih => exact neutral_append (s := ['\\', c]) rfl ih

/-- A filled text can be cut where nothing is protected. -/
theorem split (h : Filled (u ++ v)) (hu : Neutral u) : Filled u ∧ Filled v := by
  generalize hs : u ++ v = s at h
  induction h generalizing u with
  | nil =>
    obtain ⟨rfl, rfl⟩ := List.append_eq_nil_iff.mp hs
    exact ⟨.nil, .nil⟩
  | @plain c s hbackslash hamp hrest ih =>
    rcases List.append_eq_cons_iff.mp hs with ⟨rfl, rfl⟩ | ⟨u, rfl, rfl⟩
    · exact ⟨.nil, .plain hbackslash hamp hrest⟩
    · have hu' : Neutral u := by
        have hnext : protectsNext false c = false := by simp [protectsNext, hbackslash]
        rwa [Neutral, protectedAfter, List.foldl_cons, hnext] at hu
      obtain ⟨hfirst, hsecond⟩ := ih hu' rfl
      exact ⟨.plain hbackslash hamp hfirst, hsecond⟩
  | @escaped c s hvisible hrest ih =>
    rcases List.append_eq_cons_iff.mp hs with ⟨rfl, rfl⟩ | ⟨u, rfl, htail⟩
    · exact ⟨.nil, .escaped hvisible hrest⟩
    · rcases List.append_eq_cons_iff.mp htail.symm with ⟨rfl, -⟩ | ⟨u, rfl, rfl⟩
      · -- the cut would be right behind the backslash
        cases hu
      · have hu' : Neutral u := hu
        obtain ⟨hfirst, hsecond⟩ := ih hu' rfl
        exact ⟨.escaped hvisible hfirst, hsecond⟩

theorem allEscaped (h : Filled s) : AllEscaped s := by
  rintro u v rfl
  rw [← Nat.not_even_iff_odd, ← neutral_iff]
  intro hu
  cases (h.split hu).2 with
  | plain _ hamp _ => exact hamp rfl

theorem neutral_of_isBlank {c : Char} (h : Filled (u ++ c :: v)) (hc : Text.isBlank c = true) :
    Neutral u := by
  by_contra hu
  obtain ⟨w, rfl, hw⟩ := exists_of_not_neutral hu
  rw [List.append_assoc, List.singleton_append] at h
  cases (h.split hw).2 with
  | plain hbackslash _ _ => exact hbackslash rfl
  | escaped hvisible _ =>
    rw [hc] at hvisible
    cases hvisible

theorem trim (h : Filled s) : Filled (Text.trim s) := by
  obtain ⟨l, r, hl, hr, hs⟩ := Text.exists_eq_append_trim s
  rw [hs] at h
  have hfront : Neutral l := by
    apply neutral_of_not_mem
    rintro c hc rfl
    have := hl _ hc
    revert this
    decide
  have hrest := (h.split hfront).2
  cases r with
  | nil => simpa using hrest
  | cons c r => exact (hrest.split (hrest.neutral_of_isBlank (hr c (by simp)))).1

/-! ## Reading -/

/-- What a character of a filled text is, protected or not. -/
def Fills (st : ListState) (c : Char) : Prop :=
  (st.escaped = false → c ≠ '&') ∧ (st.escaped = true → Text.isBlank c = false)

theorem along (h : Filled s) {st : ListState} (hst : st.escaped = false) : Along Fills st s := by
  induction h generalizing st with
  | nil => trivial
  | @plain c s hbackslash hamp _ ih =>
    refine ⟨⟨fun _ => hamp, fun hesc => ?_⟩, ih ?_⟩
    · rw [hst] at hesc
      cases hesc
    · rw [escaped_next]
      simp [protectsNext, hbackslash]
  | @escaped c s hvisible _ ih =>
    have hopen : (st.next '\\').escaped = true := by
      rw [escaped_next, hst]
      rfl
    refine ⟨⟨fun _ => by decide, fun hesc => ?_⟩, ⟨fun hesc => ?_, fun _ => hvisible⟩, ih ?_⟩
    · rw [hst] at hesc
      cases hesc
    · rw [hopen] at hesc
      cases hesc
    · rw [escaped_next, hopen]
      rfl

theorem of_along : ∀ {s : List Char} {st : ListState}, st.escaped = false → Along Fills st s →
    Neutral s → Filled s
  | [], _, _, _, _ => .nil
  | c :: s, st, hst, h, hneutral => by
    by_cases hc : c = '\\'
    · subst hc
      cases s with
      | nil => cases hneutral
      | cons d s =>
        have hopen : (st.next '\\').escaped = true := by
          rw [escaped_next, hst]
          rfl
        have hclose : ((st.next '\\').next d).escaped = false := by
          rw [escaped_next, hopen]
          rfl
        exact .escaped (h.2.1.2 hopen) (of_along hclose h.2.2 hneutral)
    · have hnext : protectsNext false c = false := by simp [protectsNext, hc]
      have hclose : (st.next c).escaped = false := by rw [escaped_next, hst, hnext]
      rw [Neutral, protectedAfter, List.foldl_cons, hnext] at hneutral
      exact .plain hc (h.1.1 hst) (of_along hclose h.2 hneutral)

theorem neutral_of_separates {w : List Char} {c : Char}
    (h : (start.after w).separates c = true) : Neutral w := by
  have hst := (separates_iff.mp h).2
  rw [Neutral, ← show start.escaped = false from rfl, ← escaped_after, hst]

theorem member {m : List Char} (h : Filled s) (hm : m ∈ Selector.members s) : Filled m := by
  obtain ⟨ps, qs, hsplit⟩ := List.append_of_mem hm
  obtain ⟨u, w, rfl, hu, -, hw⟩ := Text.splitBy_eq_append_cons_iff.mp hsplit
  have hfront : Neutral u := by
    rcases hu with ⟨rfl, -⟩ | ⟨t, c, rfl, hc, -⟩
    · rfl
    · obtain ⟨rfl, -⟩ := separates_iff.mp hc
      exact neutral_append (neutral_of_separates hc) rfl
  have hback : Neutral (u ++ m) := by
    rcases hw with ⟨rfl, -⟩ | ⟨c, t, rfl, hc, -⟩
    · simpa using h.neutral
    · rw [← List.foldl_append] at hc
      exact neutral_of_separates hc
  exact ((h.split hback).1.split hfront).2

theorem compounds {sel : Selector} (h : Filled s) (hread : Selector.read s = .ok sel) :
    ∀ p ∈ sel.parts, Filled p.compound := by
  have halong : Along Fills start (Text.trim s) := h.trim.along rfl
  have hesc : (start.after (Text.trim s)).escaped = false := by
    rw [escaped_after]
    exact h.trim.neutral
  intro p hp
  have hfinished := (Selector.isReadFrom_of_read hread halong hesc).finished p hp
  have hneutral : Neutral p.compound := by
    rw [Neutral, ← show start.escaped = false from rfl, ← escaped_after, hfinished.ends]
  exact of_along rfl (hfinished.holds.imp fun _ _ hc => hc.1) hneutral

/-! ## Resolving -/

/-- Without a backslash nothing is protected, so every ampersand is an anchor and is replaced. -/
theorem replace {r : List Char} (hr : Filled r) (hs : '\\' ∉ s) :
    Filled (Anchor.replace r s) := by
  rw [replace_eq_replaceFrom]
  induction s with
  | nil => exact .nil
  | cons c s ih =>
    have hbackslash : c ≠ '\\' := Ne.symm (List.ne_of_not_mem_cons hs)
    have hnext : protectsNext false c = false := by simp [protectsNext, hbackslash]
    have hrest := ih (List.not_mem_of_not_mem_cons hs)
    rw [replaceFrom, hnext]
    by_cases hc : c = '&'
    · subst hc
      exact hr.append hrest
    · rw [if_neg (by simpa using hc)]
      exact .plain hbackslash hc hrest

theorem passesToCompounds : Selector.PassesToCompounds Filled := by
  intro s ss h hs x hx
  obtain ⟨m, hm, hread⟩ := (Selector.mem_of_parseList h).2 x hx
  exact (hs.member hm).compounds hread

theorem carries : Selector.Carries (fun s => '\\' ∉ s) Filled where
  nil := .nil
  append := fun _ _ => append
  joint := fun c hc => of_forall fun d hd => by
    obtain rfl := List.mem_singleton.mp hd
    simp only [Selector.joints, List.mem_cons, List.not_mem_nil, or_false] at hc
    rcases hc with rfl | rfl | rfl | rfl | rfl | rfl | rfl | rfl | rfl | rfl <;> decide
  suffix := fun _ => List.not_mem_of_not_mem_cons
  replace := fun _ _ => replace
  outer := passesToCompounds
  inner := Selector.passesToCompounds_not_mem _

end Filled
end UtilityCss
