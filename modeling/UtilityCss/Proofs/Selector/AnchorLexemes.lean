import UtilityCss.Proofs.Selector.Associativity
import UtilityCss.Proofs.Selector.Lexemes

/-!
# The anchors of a text, lexeme by lexeme

The scanner for anchors knows the escapes of a text but not its quotes. No lexeme but the last one protects
what stands behind it, so the scanner treats every lexeme by itself (`anchors_of_lexemes`): in an escape it
finds no anchor, among the characters that stand for themselves every ampersand, and in a string what it
would find in the string alone (`occurs_iff_exposed`).
-/

namespace UtilityCss

open Anchor

/-- A lexeme protects nothing behind it, and an escape has no anchor. -/
structure Lexeme.Separate (l : Lexeme) : Prop where
  neutral : Neutral l.text
  anchorless : ∀ t, l = .escape t → occurs t = false

namespace Begun

/-- What the scanner for anchors knows of the lexeme that has been begun. -/
structure Tracked (b : Begun) : Prop where
  escaped : protectedAfter false b.text = b.escaped
  anchorless : ∀ n t, b = .escape n t → occurs t = false

theorem tracked_nothing : Tracked nothing := ⟨rfl, by simp⟩

theorem protectedAfter_concat (t : List Char) (c : Char) :
    protectedAfter false (t ++ [c]) = protectsNext (protectedAfter false t) c := by
  simp [protectedAfter]

theorem occurs_concat (t : List Char) (c : Char) :
    occurs (t ++ [c]) = (occurs t || (!protectedAfter false t && c == '&')) := by
  rw [occurs_eq_occursFrom, occurs_eq_occursFrom, occursFrom_append]
  simp [occursFrom]

theorem tracked_fresh (c : Char) : (∀ l ∈ (fresh c).1, l.Separate) ∧ Tracked (fresh c).2 := by
  unfold fresh
  split_ifs with h1 h2
  · subst h1
    exact ⟨by simp, rfl, by rintro _ _ ⟨⟩; rfl⟩
  · exact ⟨by simp, by simp [protectedAfter, protectsNext, text, escaped, h1], by simp⟩
  · refine ⟨fun l hl => ?_, tracked_nothing⟩
    obtain rfl := List.mem_singleton.mp hl
    exact ⟨by simp [Neutral, Lexeme.text, protectedAfter, protectsNext, h1], by simp⟩

theorem Tracked.next {b : Begun} (h : b.Tracked) (c : Char) :
    (∀ l ∈ (b.next c).1, l.Separate) ∧ Tracked (b.next c).2 := by
  obtain ⟨hesc, hanchor⟩ := h
  match b with
  | nothing => exact tracked_fresh c
  | escape 0 t =>
    have hprotected : protectedAfter false t = true := hesc
    have hafter : protectedAfter false (t ++ [c]) = false := by
      rw [protectedAfter_concat, hprotected]
      rfl
    have hnone : occurs (t ++ [c]) = false := by
      rw [occurs_concat, hanchor 0 t rfl, hprotected]
      rfl
    simp only [Begun.next]
    split_ifs
    · exact ⟨by simp, hafter, by rintro _ _ ⟨⟩; exact hnone⟩
    · refine ⟨fun l hl => ?_, tracked_nothing⟩
      obtain rfl := List.mem_singleton.mp hl
      exact ⟨hafter, by rintro _ ⟨⟩; exact hnone⟩
  | escape (n + 1) t =>
    have hprotected : protectedAfter false t = false := hesc
    -- neither a digit nor the space of an escape is a backslash or an anchor
    have hend : isHexDigit c = true ∨ c = ' ' →
        protectedAfter false (t ++ [c]) = false ∧ occurs (t ++ [c]) = false := by
      intro hc
      have hne : ∀ d, (isHexDigit d || d == ' ') = false → c ≠ d := by
        rintro d hd rfl
        simp at hd
        simp [hd] at hc
      rw [protectedAfter_concat, occurs_concat, hanchor _ t rfl, hprotected]
      simp [protectsNext, hne '\\' (by decide), hne '&' (by decide)]
    simp only [Begun.next]
    split_ifs with h1 h2
    · obtain ⟨hafter, hnone⟩ := hend (.inl (Bool.and_eq_true_iff.mp h1).2)
      exact ⟨by simp, hafter, by rintro _ _ ⟨⟩; exact hnone⟩
    · obtain ⟨hafter, hnone⟩ := hend (.inr h2)
      refine ⟨fun l hl => ?_, tracked_nothing⟩
      obtain rfl := List.mem_singleton.mp hl
      exact ⟨hafter, by rintro _ ⟨⟩; exact hnone⟩
    · obtain ⟨hfresh, htracked⟩ := tracked_fresh c
      refine ⟨fun l hl => ?_, htracked⟩
      rcases List.mem_cons.mp hl with rfl | hl
      · exact ⟨hprotected, by rintro _ ⟨⟩; exact hanchor _ t rfl⟩
      · exact hfresh l hl
  | quoted q true t =>
    have hprotected : protectedAfter false t = true := hesc
    refine ⟨by simp [Begun.next], ?_, by simp [Begun.next]⟩
    show protectedAfter false (t ++ [c]) = false
    rw [protectedAfter_concat, hprotected]
    rfl
  | quoted q false t =>
    have hprotected : protectedAfter false t = false := hesc
    have hafter : protectedAfter false (t ++ [c]) = (c == '\\') := by
      rw [protectedAfter_concat, hprotected]
      rfl
    simp only [Begun.next]
    split_ifs with h1 h2
    · exact ⟨by simp, hafter.trans (by simp [h1, Begun.escaped]), by simp⟩
    · refine ⟨fun l hl => ?_, tracked_nothing⟩
      obtain rfl := List.mem_singleton.mp hl
      exact ⟨hafter.trans (by simp [h1]), by simp⟩
    · exact ⟨by simp, hafter.trans (by simp [h1, Begun.escaped]), by simp⟩

theorem Tracked.run {b : Begun} (h : b.Tracked) (s : List Char) :
    (∀ l ∈ b.emitted s, l.Separate) ∧ Tracked (b.after s) := by
  induction s generalizing b with
  | nil => exact ⟨by simp, h⟩
  | cons c s ih =>
    obtain ⟨hemitted, hnext⟩ := h.next c
    obtain ⟨hrest, hafter⟩ := ih hnext
    refine ⟨fun l hl => ?_, hafter⟩
    rcases List.mem_append.mp hl with hl | hl
    · exact hemitted l hl
    · exact hrest l hl

end Begun

theorem exists_lexemes_eq (s : List Char) : ∃ ls rest, lexemes s = ls ++ rest ∧ rest.length ≤ 1 ∧
    (∀ l ∈ ls, Neutral l.text) ∧ ∀ t, .escape t ∈ lexemes s → occurs t = false := by
  obtain ⟨hemitted, hafter⟩ := Begun.tracked_nothing.run s
  refine ⟨Begun.nothing.emitted s, (Begun.nothing.after s).flush, rfl, ?_,
    fun l hl => (hemitted l hl).neutral, fun t ht => ?_⟩
  · cases Begun.nothing.after s <;> simp [Begun.flush]
  · rcases List.mem_append.mp ht with ht | ht
    · exact (hemitted _ ht).anchorless t rfl
    · cases hb : Begun.nothing.after s with
      | nothing =>
        rw [hb] at ht
        cases ht
      | escape n w =>
        rw [hb] at ht
        obtain rfl := Lexeme.escape.inj (List.mem_singleton.mp ht)
        exact hafter.anchorless n _ hb
      | quoted q e w =>
        rw [hb] at ht
        cases List.mem_singleton.mp ht

/-- The scanner for anchors treats every lexeme by itself. -/
theorem anchors_of_lexemes (r s : List Char) :
    replace r s = (lexemes s).flatMap (fun l => replace r l.text) ∧
      occurs s = (lexemes s).any fun l => occurs l.text := by
  obtain ⟨ls, rest, hs, hrest, hneutral, -⟩ := exists_lexemes_eq s
  suffices hall : replace r ((ls ++ rest).flatMap Lexeme.text) =
      (ls ++ rest).flatMap (fun l => replace r l.text) ∧
        occurs ((ls ++ rest).flatMap Lexeme.text) = (ls ++ rest).any fun l => occurs l.text by
    rwa [← hs, flatMap_text_lexemes] at hall
  clear hs
  induction ls with
  | nil =>
    match rest, hrest with
    | [], _ => exact ⟨by simp [replace_eq_replaceFrom, replaceFrom], rfl⟩
    | [l], _ => simp
  | cons l ls ih =>
    obtain ⟨hreplace, hoccurs⟩ := ih fun x hx => hneutral x (by simp [hx])
    have hl : Neutral l.text := hneutral l (by simp)
    rw [List.cons_append, List.flatMap_cons, List.flatMap_cons, List.any_cons, replace_append hl,
      occurs_append hl, hreplace, hoccurs]
    exact ⟨rfl, rfl⟩

/-- An anchor is an ampersand outside strings and escapes, or an anchor of a string. -/
theorem occurs_iff_exposed {s : List Char} :
    occurs s = true ↔ '&' ∈ exposed s ∨ ∃ q ∈ strings s, occurs q = true := by
  obtain ⟨-, -, -, -, -, hescape⟩ := exists_lexemes_eq s
  have hplain : ∀ c, occurs [c] = true ↔ c = '&' := by
    intro c
    simp [occurs_eq_occursFrom, occursFrom]
  rw [(anchors_of_lexemes [] s).2, List.any_eq_true]
  constructor
  · rintro ⟨l, hl, hocc⟩
    cases l with
    | plain c =>
      obtain rfl := (hplain c).mp hocc
      exact .inl (List.mem_filterMap.mpr ⟨_, hl, rfl⟩)
    | escape t =>
      have hnone := hescape t hl
      rw [show occurs t = true from hocc] at hnone
      cases hnone
    | quoted q => exact .inr ⟨q, List.mem_filterMap.mpr ⟨_, hl, rfl⟩, hocc⟩
  · rintro (h | ⟨q, hq, hocc⟩)
    · obtain ⟨l, hl, hplain'⟩ := List.mem_filterMap.mp h
      cases l with
      | plain c => exact ⟨_, hl, (hplain c).mpr (Option.some.inj hplain')⟩
      | escape t => cases hplain'
      | quoted q => cases hplain'
    · obtain ⟨l, hl, hquoted⟩ := List.mem_filterMap.mp hq
      cases l with
      | plain c => cases hquoted
      | escape t => cases hquoted
      | quoted t =>
        obtain rfl := Option.some.inj hquoted
        exact ⟨_, hl, hocc⟩

theorem length_replaceFrom_nil_le (p : Bool) (s : List Char) :
    (replaceFrom [] p s).length ≤ s.length := by
  induction s generalizing p with
  | nil => exact Nat.le_refl _
  | cons c s ih =>
    have hrest := ih (protectsNext p c)
    rw [replaceFrom, List.length_append, List.length_cons]
    split_ifs
    · simp only [List.length_nil]
      omega
    · simp only [List.length_singleton]
      omega

theorem length_le_length_replaceFrom {r : List Char} (hr : r ≠ []) (p : Bool) (s : List Char) :
    s.length ≤ (replaceFrom r p s).length := by
  have hpos := List.length_pos_iff.mpr hr
  induction s generalizing p with
  | nil => exact Nat.zero_le _
  | cons c s ih =>
    have hrest := ih (protectsNext p c)
    rw [replaceFrom, List.length_append, List.length_cons]
    split_ifs
    · omega
    · simp only [List.length_singleton]
      omega

theorem of_replaceFrom_eq_self {r : List Char} {p : Bool} {s : List Char} (h : replaceFrom r p s = s) :
    occursFrom p s = false ∨ r = ['&'] := by
  induction s generalizing p with
  | nil => exact .inl rfl
  | cons c s ih =>
    rw [replaceFrom] at h
    rw [occursFrom]
    by_cases hc : (!p && c == '&') = true
    · obtain ⟨rfl, rfl⟩ : p = false ∧ c = '&' := by simpa using hc
      rw [if_pos hc] at h
      right
      cases r with
      | nil =>
        have hle := length_replaceFrom_nil_le (protectsNext false '&') s
        rw [List.nil_append] at h
        rw [h, List.length_cons] at hle
        omega
      | cons x xs =>
        rw [List.cons_append] at h
        obtain ⟨rfl, hrest⟩ := List.cons.inj h
        have hle := length_le_length_replaceFrom (List.cons_ne_nil '&' xs) (protectsNext false '&') s
        have hsum := congrArg List.length hrest
        rw [List.length_append] at hsum
        have hnil : xs = [] := List.length_eq_zero_iff.mp (by omega)
        rw [hnil]
    · rw [if_neg hc] at h
      rw [Bool.eq_false_iff.mpr hc, Bool.false_or]
      exact ih (List.cons.inj h).2

theorem replace_eq_self_iff {r q : List Char} : replace r q = q ↔ occurs q = false ∨ r = ['&'] := by
  constructor
  · rw [replace_eq_replaceFrom, occurs_eq_occursFrom]
    exact of_replaceFrom_eq_self
  · rintro (h | rfl)
    · exact replace_of_not_occurs h
    · exact replace_self q

end UtilityCss
