import UtilityCss.Proofs.Selector.Anchors

/-!
# Texts that end what they open before their trailing blanks

A member of a selector list is trimmed before it is read, so a backslash that protects a trailing blank
is left without it. A text `EndsBare` if it is closed without its trailing blanks too. This is kept when
texts are put behind each other (`EndsBare.append`) and when a text takes the place of anchors
(`EndsBare.replace`), where the trailing blanks may be those of the text put in.

The states behind a list text come from those behind its members (`after_of_members`), and the members of
two texts behind each other are those of both, but for the two that meet (`splitBy_append`).
-/

namespace UtilityCss

open ListState

/-- The text without its trailing blanks. -/
def Text.trimEnd (s : List Char) : List Char := s.rdropWhile isBlank

namespace Text

theorem exists_eq_trimEnd_append (s : List Char) :
    ∃ r, (∀ c ∈ r, isBlank c = true) ∧ s = trimEnd s ++ r :=
  ⟨s.rtakeWhile isBlank, fun _ hc => List.mem_rtakeWhile_imp hc,
    List.rdropWhile_append_rtakeWhile.symm⟩

theorem trimEnd_append_blanks (s : List Char) {r : List Char} (hr : ∀ c ∈ r, isBlank c = true) :
    trimEnd (s ++ r) = trimEnd s := by
  have hrev : ∀ c ∈ r.reverse, isBlank c = true := fun c hc => hr c (List.mem_reverse.mp hc)
  simp only [trimEnd, List.rdropWhile]
  rw [List.reverse_append, List.dropWhile_append_of_pos hrev]

theorem trimEnd_append {s t : List Char} (ht : trimEnd t ≠ []) : trimEnd (s ++ t) = s ++ trimEnd t := by
  obtain ⟨r, hr, hs⟩ := exists_eq_trimEnd_append t
  have hlast : ∀ c, (s ++ trimEnd t).getLast? = some c → isBlank c = false := by
    intro c hc
    rw [List.getLast?_append_of_ne_nil _ ht] at hc
    exact last_rdropWhile hc
  calc trimEnd (s ++ t) = trimEnd (s ++ trimEnd t ++ r) := by rw [List.append_assoc, ← hs]
    _ = trimEnd (s ++ trimEnd t) := trimEnd_append_blanks _ hr
    _ = s ++ trimEnd t := rdropWhile_of_last hlast

theorem trimEnd_of_last {s : List Char} (h : ∀ c, s.getLast? = some c → isBlank c = false) :
    trimEnd s = s := rdropWhile_of_last h

theorem trimEnd_cons {c : Char} (hc : isBlank c = false) (w : List Char) :
    trimEnd (c :: w) = c :: trimEnd w := by
  by_cases hnil : trimEnd w = []
  · have hblanks := List.rdropWhile_eq_nil_iff.mp hnil
    have hself : trimEnd [c] = [c] := trimEnd_of_last (by simp [hc])
    rw [hnil, ← hself]
    exact trimEnd_append_blanks [c] hblanks
  · exact trimEnd_append (s := [c]) hnil

theorem trim_append_cons {c : Char} (hc : isBlank c = false) (u w : List Char) :
    trim (u ++ c :: w) = u.dropWhile isBlank ++ c :: trimEnd w := by
  have hhead : (u ++ c :: w).dropWhile isBlank = u.dropWhile isBlank ++ c :: w := by
    rw [List.dropWhile_append]
    split
    · next hnil =>
      rw [List.isEmpty_iff.mp hnil, List.dropWhile_cons_of_neg (by simp [hc])]
      rfl
    · rfl
  have hend := trimEnd_cons hc w
  rw [trim_eq_rdropWhile, hhead, ← hend]
  exact trimEnd_append (by rw [hend]; simp)

theorem exists_trimEnd_eq (s : List Char) :
    ∃ l, (∀ c ∈ l, isBlank c = true) ∧ (trimEnd s = l ++ trim s ∨ trimEnd s = [] ∧ trim s = []) := by
  obtain ⟨l, r, hl, hr, hs⟩ := exists_eq_append_trim s
  refine ⟨l, hl, ?_⟩
  by_cases htrim : trim s = []
  · right
    refine ⟨?_, htrim⟩
    rw [htrim, List.nil_append] at hs
    have hall : ∀ c ∈ s, isBlank c = true := by
      intro c hc
      rw [hs] at hc
      rcases List.mem_append.mp hc with hc | hc
      · exact hl c hc
      · exact hr c hc
    exact List.rdropWhile_eq_nil_iff.mpr hall
  · left
    have hend : trimEnd (trim s) = trim s := trimEnd_of_last (trimmed_trim s).last
    calc trimEnd s = trimEnd (l ++ trim s ++ r) := by rw [List.append_assoc, ← hs]
      _ = trimEnd (l ++ trim s) := trimEnd_append_blanks _ hr
      _ = l ++ trim s := by rw [trimEnd_append (by rwa [hend]), hend]

end Text

namespace ListState

/-- A text that ends what it opens, with its trailing blanks and without them. -/
def EndsBare (s : List Char) : Prop := start.after (Text.trimEnd s) = start

theorem after_trim (s : List Char) : start.after (Text.trim s) = start.after (Text.trimEnd s) := by
  obtain ⟨l, hl, h | ⟨h₁, h₂⟩⟩ := Text.exists_trimEnd_eq s
  · rw [h, after_append, after_blanks hl]
  · rw [h₁, h₂]

theorem EndsBare.after {s : List Char} (h : EndsBare s) : start.after s = start := by
  obtain ⟨r, hr, hs⟩ := Text.exists_eq_trimEnd_append s
  have hend : start.after (Text.trimEnd s) = start := h
  rw [hs, after_append, hend, after_blanks hr]

theorem endsBare_of_last {s : List Char} (h : start.after s = start)
    (hlast : ∀ c, s.getLast? = some c → Text.isBlank c = false) : EndsBare s := by
  rw [EndsBare, Text.trimEnd_of_last hlast]
  exact h

theorem EndsBare.append {s t : List Char} (hs : EndsBare s) (ht : EndsBare t) : EndsBare (s ++ t) := by
  by_cases hblank : Text.trimEnd t = []
  · have hall : ∀ c ∈ t, Text.isBlank c = true := List.rdropWhile_eq_nil_iff.mp hblank
    rw [EndsBare, Text.trimEnd_append_blanks s hall]
    exact hs
  · rw [EndsBare, Text.trimEnd_append hblank, after_append, hs.after]
    exact ht

theorem occursFrom_of_not_mem {s : List Char} (h : '&' ∉ s) (p : Bool) :
    Anchor.occursFrom p s = false := by
  induction s generalizing p with
  | nil => rfl
  | cons c s ih =>
    have hc : c ≠ '&' := by
      rintro rfl
      exact h (by simp)
    rw [Anchor.occursFrom, ih fun hs => h (List.mem_cons_of_mem _ hs)]
    simp [hc]

variable {esc stop : Char → Prop}

theorem endsBare_replaceFrom_concat {r u : List Char} {c : Char} (hr : Closed esc stop r)
    (hbare : EndsBare r) (hne : Text.trimEnd r ≠ []) (hs : Along (Fits esc stop) start (u ++ [c]))
    (ho : Along AnchorOutside start (u ++ [c])) (hend : start.after (u ++ [c]) = start)
    (hblank : Text.isBlank c = false) : EndsBare (Anchor.replaceFrom r false (u ++ [c])) := by
  rw [along_append] at hs ho
  rw [after_append] at hend
  have hput := (along_replaceFrom hr (show 0 ≤ start.depth from Int.le_refl _) hs.1 ho.1).2
  rw [show start.escaped = false from rfl] at hput
  rw [Anchor.replaceFrom_append, Anchor.replaceFrom, Anchor.replaceFrom, List.append_nil, EndsBare]
  by_cases hc : (!Anchor.protectedAfter false u && c == '&') = true
  · -- the last anchor leaves the state as it was, so what is before it is closed
    obtain ⟨hesc, rfl⟩ : Anchor.protectedAfter false u = false ∧ c = '&' := by simpa using hc
    have hescaped : (start.after u).escaped = false := by
      rw [escaped_after]
      exact hesc
    have hu : start.after u = start := by
      rw [← next_anchor hescaped (ho.2.1 rfl hescaped)]
      exact hend
    rw [if_pos hc, Text.trimEnd_append hne, after_append, hput, hu]
    exact hbare
  · have hlast : ∀ d, (Anchor.replaceFrom r false u ++ [c]).getLast? = some d →
        Text.isBlank d = false := by
      intro d hd
      rw [List.getLast?_concat] at hd
      obtain rfl := Option.some.inj hd
      exact hblank
    rw [if_neg hc, Text.trimEnd_of_last hlast, after_append, hput]
    exact hend

/-- A text that is put in for anchors may bring the last blanks along. -/
theorem EndsBare.replace {r s : List Char} (hr : Closed esc stop r) (hbare : EndsBare r)
    (hne : Text.trimEnd r ≠ []) (hs : Along (Fits esc stop) start s) (ho : Along AnchorOutside start s)
    (h : EndsBare s) : EndsBare (Anchor.replace r s) := by
  obtain ⟨b, hb, hsb⟩ := Text.exists_eq_trimEnd_append s
  have hend : start.after (Text.trimEnd s) = start := h
  have hlast : ∀ c, (Text.trimEnd s).getLast? = some c → Text.isBlank c = false :=
    fun c hc => Text.last_rdropWhile hc
  rw [hsb, along_append] at hs ho
  have hblanks : '&' ∉ b := by
    intro hmem
    have := hb _ hmem
    revert this
    decide
  have hneutral : Anchor.protectedAfter false (Text.trimEnd s) = false := by
    have hesc := congrArg ListState.escaped hend
    rwa [escaped_after] at hesc
  rw [Anchor.replace_eq_replaceFrom, hsb, Anchor.replaceFrom_append, hneutral,
    Anchor.replaceFrom_of_not_occurs (occursFrom_of_not_mem hblanks _), EndsBare,
    Text.trimEnd_append_blanks _ hb]
  rcases List.eq_nil_or_concat (Text.trimEnd s) with hnil | ⟨u, c, hu⟩
  · rw [hnil]
    rfl
  · rw [List.concat_eq_append] at hu
    rw [hu] at hend hlast hs ho ⊢
    have hc : Text.isBlank c = false := hlast c (by simp)
    exact endsBare_replaceFrom_concat hr hbare hne hs.1 ho.1 hend hc

end ListState

/-! ## The members of a text -/

namespace Selector

theorem after_of_splitBy {st : ListState} {s m : List Char} {ms : List (List Char)}
    (hsplit : Text.splitBy next separates st s = m :: ms) (hm : st.after m = start)
    (hms : ∀ n ∈ ms, start.after n = start) : st.after s = start := by
  induction s generalizing st m ms with
  | nil =>
    obtain ⟨rfl, rfl⟩ := List.cons.inj hsplit
    exact hm
  | cons c s ih =>
    rcases splitBy_cons_cases hsplit with ⟨rfl, rfl, rfl, hrest⟩ | ⟨n, hrest, rfl⟩
    · have hne : Text.splitBy next separates start s ≠ [] := Text.splitBy_ne_nil _ _
      obtain ⟨n, ns, hns⟩ := List.exists_cons_of_ne_nil hne
      have hnext : start.next ',' = start := by decide
      rw [hns] at hrest
      subst hrest
      rw [after_cons, hnext]
      exact ih hns (hms n (by simp)) fun x hx => hms x (by simp [hx])
    · exact ih hrest hm hms

theorem after_of_members {s : List Char} (h : ∀ m ∈ members s, start.after m = start) :
    start.after s = start := by
  have hne : members s ≠ [] := Text.splitBy_ne_nil _ _
  obtain ⟨m, ms, hsplit⟩ := List.exists_cons_of_ne_nil hne
  rw [hsplit] at h
  exact after_of_splitBy hsplit (h m (by simp)) fun n hn => h n (by simp [hn])

/-- The last member of a text goes on with the first one of a text behind it. -/
theorem splitBy_append {st : ListState} {s p t q : List Char} {ps qs : List (List Char)}
    (hs : Text.splitBy next separates st s = ps ++ [p])
    (ht : Text.splitBy next separates (st.after s) t = q :: qs) :
    Text.splitBy next separates st (s ++ t) = ps ++ (p ++ q) :: qs := by
  induction s generalizing st ps p with
  | nil =>
    obtain ⟨rfl, hp⟩ : ps = [] ∧ p = [] := by
      cases ps with
      | nil => exact ⟨rfl, ((List.cons.inj hs).1).symm⟩
      | cons x xs => simp [Text.splitBy] at hs
    rw [hp]
    exact ht
  | cons c s ih =>
    have hne : Text.splitBy next separates (st.next c) s ≠ [] := Text.splitBy_ne_nil _ _
    obtain ⟨xs, x, hrest⟩ := (List.eq_nil_or_concat _).resolve_left hne
    rw [List.concat_eq_append] at hrest
    rw [Text.splitBy, hrest] at hs
    rw [List.cons_append, Text.splitBy, ih hrest ht]
    by_cases hsep : st.separates c = true
    · rw [if_pos hsep] at hs ⊢
      obtain ⟨rfl, hp⟩ := List.append_inj' (show ([] :: xs) ++ [x] = ps ++ [p] from hs) rfl
      rw [← (List.cons.inj hp).1]
      rfl
    · rw [if_neg hsep] at hs
      rw [if_neg hsep]
      cases xs with
      | nil =>
        obtain ⟨rfl, hp⟩ := List.append_inj' (show [] ++ [c :: x] = ps ++ [p] from hs) rfl
        rw [← (List.cons.inj hp).1]
        rfl
      | cons y ys =>
        obtain ⟨rfl, hp⟩ := List.append_inj' (show ((c :: y) :: ys) ++ [x] = ps ++ [p] from hs) rfl
        rw [← (List.cons.inj hp).1]
        rfl

end Selector
end UtilityCss
