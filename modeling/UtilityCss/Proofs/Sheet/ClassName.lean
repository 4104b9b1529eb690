import UtilityCss.Proofs.Selector.NormalForm
import UtilityCss.Sheet.Basic

/-!
# The selector of a plain class name

A class name is plain if it has no blank and no control character, and no digit where an identifier
cannot have one. Its selector has no hexadecimal escape: behind the dot it is made of name characters and
of backslashes before other visible characters (`Ident`). Such a text is closed, ends no compound
wherever it is read, and has no blank at its ends.
-/

namespace UtilityCss

open ListState

namespace ClassSelector

/-- A class name that is written without hexadecimal escapes. -/
structure IsPlain (name : String) : Prop where
  visible : ∀ c ∈ name.toList, Text.isBlank c = false ∧ isControl c = false
  lead : ∀ c, name.toList.head? = some c → c.isDigit = false
  second : ∀ c s, name.toList = '-' :: c :: s → c.isDigit = false

instance (name : String) : Decidable (IsPlain name) :=
  decidable_of_iff ((name.toList.all fun c => !Text.isBlank c && !isControl c) = true ∧
      (name.toList.head?.all fun c => !c.isDigit) = true ∧
      (name.toList.head? = some '-' → (name.toList.tail.head?.all fun c => !c.isDigit) = true)) <| by
    constructor
    · rintro ⟨hvisible, hlead, hsecond⟩
      refine ⟨fun c hc => ?_, fun c hc => ?_, fun c s hs => ?_⟩
      · simpa using List.all_eq_true.mp hvisible c hc
      · simpa [hc] using hlead
      · simpa [hs] using hsecond
    · rintro ⟨hvisible, hlead, hsecond⟩
      refine ⟨List.all_eq_true.mpr fun c hc => ?_, ?_, fun hdash => ?_⟩
      · simpa using hvisible c hc
      · exact (Option.all_eq_true _ _).mpr fun c hc => by simpa using hlead c hc
      · obtain ⟨s, hs⟩ := List.head?_eq_some_iff.mp hdash
        cases s with
        | nil => simp [hs]
        | cons c s => simpa [hs] using hsecond c s hs

/-- Name characters, and backslashes before characters that are neither blanks nor hexadecimal
digits. -/
inductive Ident : List Char → Prop where
  | nil : Ident []
  | bare {c : Char} {s : List Char} (hname : isNameChar c = true) (hc : Text.isBlank c = false)
      (hs : Ident s) : Ident (c :: s)
  | escaped {c : Char} {s : List Char} (hhex : isHexDigit c = false) (hc : Text.isBlank c = false)
      (hs : Ident s) : Ident ('\\' :: c :: s)

theorem Ident.append {s t : List Char} (hs : Ident s) (ht : Ident t) : Ident (s ++ t) := by
  induction hs with
  | nil => exact ht
  | bare hname hc _ ih => exact .bare hname hc ih
  | escaped hhex hc _ ih => exact .escaped hhex hc ih

theorem isNameChar_of_isHexDigit {c : Char} (h : isHexDigit c = true) : isNameChar c = true := by
  have halnum : ((c.isUpper || c.isLower) || c.isDigit) = true := by
    simp only [isHexDigit, Bool.or_eq_true, Bool.and_eq_true, decide_eq_true_eq] at h
    rcases h with (h | ⟨h1, h2⟩) | ⟨h1, h2⟩
    · rw [h, Bool.or_true]
    · have hz : c.val ≤ 'z'.val := UInt32.le_trans (show c.val ≤ 'f'.val from h2) (by decide)
      have hlower : c.isLower = true :=
        (Bool.and_eq_true _ _).mpr ⟨decide_eq_true h1, decide_eq_true hz⟩
      simp [hlower]
    · have hz : c.val ≤ 'Z'.val := UInt32.le_trans (show c.val ≤ 'F'.val from h2) (by decide)
      have hupper : c.isUpper = true := decide_eq_true ⟨h1, hz⟩
      simp [hupper]
  have hname : c.isAlphanum = true := halnum
  simp [isNameChar, hname]

theorem ident_escapeChar {c : Char} (hblank : Text.isBlank c = false) (hctrl : isControl c = false) :
    Ident (escapeChar c) := by
  unfold escapeChar
  split_ifs with h1 h2 h3
  · exact .bare (by decide) (by decide) .nil
  · rw [hctrl] at h2
    cases h2
  · exact .bare h3 hblank .nil
  · have hhex : isHexDigit c = false := by
      by_contra h
      exact h3 (isNameChar_of_isHexDigit (by simpa using h))
    exact .escaped hhex hblank .nil

theorem ident_flatMap {s : List Char}
    (h : ∀ c ∈ s, Text.isBlank c = false ∧ isControl c = false) : Ident (s.flatMap escapeChar) := by
  induction s with
  | nil => exact .nil
  | cons c s ih =>
    obtain ⟨hblank, hctrl⟩ := h c (by simp)
    exact (ident_escapeChar hblank hctrl).append (ih fun d hd => h d (by simp [hd]))

theorem escapeLead_of_not_isDigit {c : Char} (h : c.isDigit = false) : escapeLead c = escapeChar c := by
  rw [escapeLead, if_neg (by simp [h])]

theorem ident_escape {name : String} (h : IsPlain name) : Ident (escape name.toList) := by
  obtain ⟨hvisible, hlead, hsecond⟩ := h
  unfold escape
  split
  · exact .nil
  · exact .escaped (by decide) (by decide) .nil
  · next c s heq =>
    rw [heq] at hvisible
    obtain ⟨hblank, hctrl⟩ := hvisible c (by simp)
    rw [escapeLead_of_not_isDigit (hsecond c s heq)]
    exact .bare (by decide) (by decide) ((ident_escapeChar hblank hctrl).append
      (ident_flatMap fun d hd => hvisible d (by simp [hd])))
  · next c s _ _ heq =>
    rw [heq] at hvisible
    obtain ⟨hblank, hctrl⟩ := hvisible c (by simp)
    rw [escapeLead_of_not_isDigit (hlead c (by rw [heq]; rfl))]
    exact (ident_escapeChar hblank hctrl).append
      (ident_flatMap fun d hd => hvisible d (by simp [hd]))

theorem ne_of_isNameChar {c d : Char} (hc : isNameChar c = true) (hd : isNameChar d = false) :
    c ≠ d := by
  rintro rfl
  rw [hc] at hd
  cases hd

theorem next_of_isNameChar {c : Char} (hc : isNameChar c = true) :
    ListState.start.next c = ListState.start ∧ ¬ EndsCompound c := by
  have hbackslash : c ≠ '\\' := ne_of_isNameChar hc (by decide)
  have hquote : isQuote c = false := by
    simp [isQuote, ne_of_isNameChar hc (show isNameChar '"' = false by decide),
      ne_of_isNameChar hc (show isNameChar '\'' = false by decide)]
  have hopener : isOpener c = false := by
    simp [isOpener, ne_of_isNameChar hc (show isNameChar '[' = false by decide),
      ne_of_isNameChar hc (show isNameChar '(' = false by decide)]
  have hcloser : isCloser c = false := by
    simp [isCloser, ne_of_isNameChar hc (show isNameChar ']' = false by decide),
      ne_of_isNameChar hc (show isNameChar ')' = false by decide)]
  refine ⟨by simp [next, ListState.start, hbackslash, hquote, hopener, hcloser], ?_⟩
  rintro (rfl | hspace | hmark)
  · revert hc
    decide
  · simp only [isSelectorSpace, Bool.or_eq_true, beq_iff_eq] at hspace
    rcases hspace with (((rfl | rfl) | rfl) | rfl) | rfl <;> revert hc <;> decide
  · unfold Combinator.ofChar? at hmark
    split_ifs at hmark with h1 h2 h3
    · rw [h1] at hc; revert hc; decide
    · rw [h2] at hc; revert hc; decide
    · rw [h3] at hc; revert hc; decide
    · simp at hmark

theorem closed_escaped {c : Char} (h : isHexDigit c = false) :
    Closed Escapable EndsCompound ['\\', c] := by
  have hnext : ListState.start.next '\\' = ⟨true, none, 0⟩ := by decide
  have hbackslash : ¬ EndsCompound '\\' := by decide
  have hfirst : Fits Escapable EndsCompound ListState.start '\\' :=
    ⟨by decide, fun hesc => (by cases hesc), fun _ => hbackslash⟩
  have hsecond : Fits Escapable EndsCompound (ListState.start.next '\\') c := by
    rw [hnext]
    exact ⟨Int.le_refl 0, fun _ => h, fun hst => (by cases hst)⟩
  exact ⟨rfl, hfirst, hsecond, trivial⟩

theorem Ident.closed {s : List Char} (h : Ident s) : Closed Escapable EndsCompound s := by
  induction h with
  | nil => exact closed_nil
  | bare hname _ _ ih =>
    obtain ⟨hnext, hends⟩ := next_of_isNameChar hname
    exact (closed_singleton hnext hends).append ih
  | escaped hhex _ _ ih => exact (closed_escaped hhex).append ih

theorem Ident.solid {s : List Char} (h : Ident s) {st : ListState} (hst : st.escaped = false) :
    Along Reader.Solid st s := by
  induction h generalizing st with
  | nil => trivial
  | @bare c s hname _ _ ih =>
    have hends := (next_of_isNameChar hname).2
    have hbackslash : c ≠ '\\' := ne_of_isNameChar hname (by decide)
    have hesc : (st.next c).escaped = false := by
      rw [escaped_next]
      simp [Anchor.protectsNext, hbackslash]
    exact ⟨fun _ => ⟨fun hc => hends (.inl hc), fun hb => hends (.inr hb)⟩, ih hesc⟩
  | @escaped c s _ _ _ ih =>
    have hnext : st.next '\\' = { st with escaped := true } := Reader.next_backslash hst
    have hesc : ((st.next '\\').next c).escaped = false := by
      rw [hnext, escaped_next]
      rfl
    refine ⟨fun _ => by decide, fun hopen => ?_, ih hesc⟩
    rw [hnext] at hopen
    cases congrArg ListState.escaped hopen

theorem Ident.last {s : List Char} (h : Ident s) :
    ∀ c, s.getLast? = some c → Text.isBlank c = false := by
  intro d hd
  induction h with
  | nil => cases hd
  | @bare c s _ hc _ ih =>
    cases s with
    | nil =>
      obtain rfl := Option.some.inj hd
      exact hc
    | cons e s => exact ih (by simpa using hd)
  | @escaped c s _ hc _ ih =>
    cases s with
    | nil =>
      obtain rfl := Option.some.inj hd
      exact hc
    | cons e s => exact ih (by simpa using hd)

end ClassSelector

open ClassSelector

/-- What the rest of the development uses of the selector of a plain class name. -/
structure ClassText (k : List Char) : Prop where
  closed : Closed Escapable EndsCompound k
  solid : ∀ st, Along Reader.Solid st k
  trimmed : Text.Trimmed k
  ne_nil : k ≠ []

theorem classText_classSelector {name : String} (h : IsPlain name) :
    ClassText (classSelector name).toList := by
  have hident := ident_escape h
  have hdot : ListState.start.next '.' = ListState.start := by decide
  have hends : ¬ EndsCompound '.' := by decide
  have htext : (classSelector name).toList = '.' :: escape name.toList := by
    simp [classSelector, escapeClassName]
  rw [htext]
  refine ⟨(closed_singleton hdot hends).append hident.closed, fun st => ?_, ⟨?_, ?_⟩, by simp⟩
  · have hesc : (st.next '.').escaped = false := by
      rw [escaped_next]
      simp [Anchor.protectsNext]
    exact ⟨fun _ => ⟨fun hc => hends (.inl hc), fun hb => hends (.inr hb)⟩, hident.solid hesc⟩
  · intro c hc
    obtain rfl := Option.some.inj hc
    decide
  · intro c hc
    cases hs : escape name.toList with
    | nil =>
      rw [hs] at hc
      obtain rfl := Option.some.inj hc
      decide
    | cons d s =>
      have hlast := hident.last
      rw [hs] at hlast hc
      exact hlast c (by simpa using hc)

end UtilityCss
