import UtilityCss.ClassName.Basic
import UtilityCss.Proofs.Text.Split

/-!
# The tokens of a join

The texts of the tokens are the non-empty runs between separators, whichever of the two scanners
reads them (`map_text_scan`): without brackets the counts stay at zero, where every colon separates.

A token is self-contained if it closes the brackets it opens and hides its colons in them. Tokens
that are joined by colons are read again, if all of them hide their colons and all but the last are
self-contained (`map_text_scan_intercalate`).
-/

namespace UtilityCss

namespace Depths

/-- The counts behind a text. -/
def after (d : Depths) (s : List Char) : Depths := s.foldl next d

theorem after_cons (d : Depths) (c : Char) (s : List Char) :
    d.after (c :: s) = (d.next c).after s := rfl

theorem next_of_not_isBracket {c : Char} (h : isBracket c = false) (d : Depths) : d.next c = d := by
  simp only [isBracket, Bool.or_eq_false_iff, beq_eq_false_iff_ne] at h
  obtain ⟨⟨⟨h1, h2⟩, h3⟩, h4⟩ := h
  simp [next, h1, h2, h3, h4]

theorem after_of_forall {s : List Char} (h : ∀ c ∈ s, isBracket c = false) (d : Depths) :
    d.after s = d := by
  induction s with
  | nil => rfl
  | cons c s ih =>
    rw [after_cons, next_of_not_isBracket (h c (by simp)), ih fun x hx => h x (by simp [hx])]

theorem separates_iff {d : Depths} {c : Char} : d.separates c = true ↔ c = ':' ∧ d = zero := by
  obtain ⟨square, round⟩ := d
  simp [separates, zero, and_assoc]

end Depths

namespace Token

open Depths

/-! ## Texts of tokens -/

theorem map_text_locate (start : Nat) (runs : List (List Char)) :
    (locate start runs).map Token.text =
      (runs.filter fun run => !run.isEmpty).map String.ofList := by
  induction runs generalizing start with
  | nil => rfl
  | cons run runs ih =>
    have hrest := ih (start + byteLength run + 1)
    cases run with
    | nil => simpa [locate] using hrest
    | cons c run => simpa [locate] using hrest

theorem splitOn_eq_splitBy {s : List Char} (h : ∀ c ∈ s, isBracket c = false) :
    s.splitOn ':' = Text.splitBy next separates zero s := by
  induction s with
  | nil => rfl
  | cons c s ih =>
    have hrest := ih fun d hd => h d (by simp [hd])
    have hnext : zero.next c = zero := next_of_not_isBracket (h c (by simp)) _
    rw [List.splitOn_cons_eq_if_modifyHead, Text.splitBy, hnext, hrest]
    by_cases hc : c = ':'
    · have hcut : zero.separates c = true := separates_iff.mpr ⟨hc, rfl⟩
      rw [if_pos (by simp [hc]), if_pos hcut]
    · have hcut : ¬ zero.separates c = true := fun hcut => hc (separates_iff.mp hcut).1
      rw [if_neg (by simp [hc]), if_neg hcut]
      have hne : Text.splitBy next separates zero s ≠ [] := Text.splitBy_ne_nil _ _
      obtain ⟨p, ps, hp⟩ := List.exists_cons_of_ne_nil hne
      rw [hp]
      rfl

/-- The texts of the tokens are the non-empty runs between separators. -/
theorem map_text_scan (s : String) :
    (scan s).map Token.text =
      ((Text.splitBy next separates zero s.toList).filter fun run => !run.isEmpty).map
        String.ofList := by
  unfold scan
  split
  · rw [scanNested, map_text_locate]
  · next hflat =>
    rw [scanFlat, map_text_locate, splitOn_eq_splitBy]
    intro c hc
    rw [Bool.eq_false_iff]
    exact fun hb => hflat (List.any_eq_true.mpr ⟨c, hc, hb⟩)

/-! ## Self-contained tokens -/

/-- Whether every colon of a text stands inside brackets. -/
def HidesColons (t : String) : Prop :=
  ∀ u v, t.toList = u ++ ':' :: v → zero.after u ≠ zero

/-- Whether a token closes the brackets it opens and hides its colons in them. -/
structure SelfContained (t : String) : Prop where
  ne_empty : t ≠ ""
  ends : zero.after t.toList = zero
  hidden : HidesColons t

theorem hidesColons_iff {t : String} :
    HidesColons t ↔ Text.Uncut next separates zero t.toList := by
  rw [Text.uncut_iff]
  constructor
  · intro h u c v hs
    rw [Bool.eq_false_iff]
    intro hcut
    obtain ⟨rfl, hzero⟩ := separates_iff.mp hcut
    exact h u v hs hzero
  · intro h u v hs hzero
    have hcut := h u ':' v hs
    rw [Bool.eq_false_iff] at hcut
    exact hcut (separates_iff.mpr ⟨rfl, hzero⟩)

instance (t : String) : Decidable (HidesColons t) := decidable_of_iff _ hidesColons_iff.symm

theorem selfContained_iff {t : String} :
    SelfContained t ↔ t ≠ "" ∧ zero.after t.toList = zero ∧
      Text.Uncut next separates zero t.toList := by
  rw [← hidesColons_iff]
  exact ⟨fun h => ⟨h.ne_empty, h.ends, h.hidden⟩, fun h => ⟨h.1, h.2.1, h.2.2⟩⟩

instance (t : String) : Decidable (SelfContained t) :=
  decidable_of_iff _ selfContained_iff.symm

/-- Tokens joined by colons are read again. The last one may leave brackets open. -/
theorem map_text_scan_intercalate {ts : List String} {t : String}
    (hts : ∀ x ∈ ts, SelfContained x) (hne : t ≠ "") (ht : HidesColons t) :
    (scan (":".intercalate (ts ++ [t]))).map Token.text = ts ++ [t] := by
  have hpieces : ∀ p ∈ ts.map String.toList,
      Text.Uncut next separates zero p ∧ p.foldl next zero = zero := by
    intro p hp
    obtain ⟨x, hx, rfl⟩ := List.mem_map.mp hp
    exact ⟨hidesColons_iff.mp (hts x hx).hidden, (hts x hx).ends⟩
  have hsplit : Text.splitBy next separates zero (":".intercalate (ts ++ [t])).toList =
      (ts ++ [t]).map String.toList := by
    rw [String.toList_intercalate, List.map_append]
    exact Text.splitBy_intercalate (by decide) (by decide) hpieces (hidesColons_iff.mp ht)
  have hkeep : ∀ run ∈ (ts ++ [t]).map String.toList, (!run.isEmpty) = true := by
    intro run hrun
    obtain ⟨x, hx, rfl⟩ := List.mem_map.mp hrun
    have hx : x ≠ "" := by
      rcases List.mem_append.mp hx with hx | hx
      · exact (hts x hx).ne_empty
      · rwa [List.mem_singleton.mp hx]
    simpa [String.toList_eq_nil_iff] using hx
  rw [map_text_scan, hsplit, List.filter_eq_self.mpr hkeep, List.map_map]
  simp [Function.comp_def]

theorem map_text_scan_intercalate_of_forall {ts : List String} (hne : ts ≠ [])
    (hts : ∀ x ∈ ts, SelfContained x) :
    (scan (":".intercalate ts)).map Token.text = ts := by
  obtain ⟨init, last, rfl⟩ := List.eq_nil_or_concat ts |>.resolve_left hne
  have hlast := hts last (by simp)
  rw [List.concat_eq_append]
  exact map_text_scan_intercalate (fun x hx => hts x (by simp [hx])) hlast.ne_empty hlast.hidden

end Token
end UtilityCss
