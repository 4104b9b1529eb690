import UtilityCss.Proofs.Text.Split
import UtilityCss.Proofs.Text.Trim
import UtilityCss.Selector.Nesting

/-!
# Scanning selector texts

What the state of the list splitter says about a text that is put together from others. A text is
`Closed` if it ends everything that it opens and never closes more brackets than it has opened; with
`esc` it escapes only such characters, and with `stop` it keeps such characters inside brackets,
strings or escapes. A closed text leaves every state outside strings and escapes as it was, and inside
brackets it may hold anything (`after_closed`, `along_closed`). So closed texts can be put behind each
other, into `:is(...)`, and in place of a character (`Closed.append`, `Closed.inIs`).

For a text in which no comma stands in the open, closed means: one member of a selector list. The
members of a list text made of such texts are these texts again (`members_append_comma`).
-/

namespace UtilityCss

namespace ListState

/-- The state behind a text. -/
def after (st : ListState) (s : List Char) : ListState := s.foldl next st

@[simp] theorem after_nil (st : ListState) : st.after [] = st := rfl

@[simp] theorem after_cons (st : ListState) (c : Char) (s : List Char) :
    st.after (c :: s) = (st.next c).after s := rfl

@[simp] theorem after_append (st : ListState) (s t : List Char) :
    st.after (s ++ t) = (st.after s).after t := by
  simp [after]

/-- The same state inside `k` more brackets. -/
def deeper (k : Int) (st : ListState) : ListState := { st with depth := st.depth + k }

theorem next_deeper (k : Int) (st : ListState) (c : Char) :
    (st.deeper k).next c = (st.next c).deeper k := by
  obtain ⟨escaped, quote, depth⟩ := st
  cases escaped with
  | true => rfl
  | false =>
    by_cases hc : c = '\\'
    · simp [next, deeper, hc]
    · cases quote with
      | some q =>
        by_cases hq : c = q
        · subst hq; simp [next, deeper, hc]
        · simp [next, deeper, hc, hq]
      | none =>
        by_cases hq : isQuote c = true
        · simp [next, deeper, hc, hq]
        · by_cases ho : isOpener c = true
          · simp [next, deeper, hc, hq, ho]
            omega
          · by_cases hl : isCloser c = true <;> simp [next, deeper, hc, hq, ho, hl]
            omega

/-- Every character of a text is met in a state that admits it. -/
def Along (P : ListState → Char → Prop) : ListState → List Char → Prop
  | _, [] => True
  | st, c :: s => P st c ∧ Along P (st.next c) s

instance decidableAlong {P : ListState → Char → Prop} [∀ st c, Decidable (P st c)] :
    ∀ st s, Decidable (Along P st s)
  | _, [] => isTrue trivial
  | st, c :: s =>
    haveI : Decidable (Along P (st.next c) s) := decidableAlong (st.next c) s
    inferInstanceAs (Decidable (P st c ∧ Along P (st.next c) s))

variable {P Q : ListState → Char → Prop}

theorem along_append {st : ListState} {s t : List Char} :
    Along P st (s ++ t) ↔ Along P st s ∧ Along P (st.after s) t := by
  induction s generalizing st with
  | nil => simp [Along]
  | cons c s ih => simp [Along, ih, and_assoc]

theorem Along.imp (h : ∀ st c, P st c → Q st c) {st : ListState} {s : List Char}
    (hs : Along P st s) : Along Q st s := by
  induction s generalizing st with
  | nil => trivial
  | cons c s ih => exact ⟨h _ _ hs.1, ih hs.2⟩

theorem along_and {st : ListState} {s : List Char} :
    Along (fun st c => P st c ∧ Q st c) st s ↔ Along P st s ∧ Along Q st s := by
  induction s generalizing st with
  | nil => simp [Along]
  | cons c s ih =>
    simp only [Along, ih]
    tauto

theorem along_of_forall {s : List Char} (h : ∀ st, ∀ c ∈ s, P st c) (st : ListState) :
    Along P st s := by
  induction s generalizing st with
  | nil => trivial
  | cons c s ih =>
    exact ⟨h st c (by simp), ih (fun st d hd => h st d (by simp [hd])) _⟩

/-- A character keeps brackets from being closed that were not opened, stands behind a backslash only
if it may, and stands in the open only if it may. -/
def Fits (esc stop : Char → Prop) (st : ListState) (c : Char) : Prop :=
  0 ≤ (st.next c).depth ∧ (st.escaped = true → esc c) ∧ (st = start → ¬ stop c)

variable {esc stop stop' : Char → Prop}

theorem Fits.imp (h : ∀ c, stop' c → stop c) {st : ListState} {c : Char} (hc : Fits esc stop st c) :
    Fits esc stop' st c :=
  ⟨hc.1, hc.2.1, fun hst hs => hc.2.2 hst (h c hs)⟩

theorem along_deeper {st : ListState} {s : List Char} {k : Int} (hk : 0 < k) (hst : 0 ≤ st.depth)
    (hs : Along (Fits esc stop) st s) : Along (Fits esc stop') (st.deeper k) s := by
  induction s generalizing st with
  | nil => trivial
  | cons c s ih =>
    obtain ⟨⟨hdepth, hesc, -⟩, hs⟩ := hs
    refine ⟨⟨?_, hesc, fun h => ?_⟩, ?_⟩
    · rw [next_deeper]
      simp only [deeper]
      omega
    · have := congrArg ListState.depth h
      simp only [deeper, start] at this
      omega
    · rw [next_deeper]
      exact ih hdepth hs

theorem after_deeper (k : Int) (st : ListState) (s : List Char) :
    (st.deeper k).after s = (st.after s).deeper k := by
  induction s generalizing st with
  | nil => rfl
  | cons c s ih => rw [after_cons, next_deeper, ih, after_cons]

/-- Whether a text closes what it opens, escapes nothing but what `esc` allows, and keeps what `stop`
names out of the open. -/
structure Closed (esc stop : Char → Prop) (s : List Char) : Prop where
  ends : start.after s = start
  fits : Along (Fits esc stop) start s

theorem closed_nil : Closed esc stop [] := ⟨rfl, trivial⟩

theorem Closed.append {s t : List Char} (hs : Closed esc stop s) (ht : Closed esc stop t) :
    Closed esc stop (s ++ t) := by
  refine ⟨by rw [after_append, hs.ends, ht.ends], along_append.mpr ⟨hs.fits, ?_⟩⟩
  rw [hs.ends]
  exact ht.fits

theorem Closed.imp (h : ∀ c, stop' c → stop c) {s : List Char} (hs : Closed esc stop s) :
    Closed esc stop' s :=
  ⟨hs.ends, hs.fits.imp fun _ _ => Fits.imp h⟩

theorem Closed.of_append_left {s t : List Char} (h : Closed esc stop (s ++ t))
    (hs : start.after s = start) : Closed esc stop t := by
  have hends := h.ends
  have hfits := (along_append.mp h.fits).2
  rw [after_append, hs] at hends
  rw [hs] at hfits
  exact ⟨hends, hfits⟩

theorem closed_singleton {c : Char} (h : start.next c = start) (hc : ¬ stop c) :
    Closed esc stop [c] :=
  ⟨h, ⟨by rw [h]; decide, by simp [start], fun _ => hc⟩, trivial⟩

theorem eq_deeper_start {st : ListState} (hesc : st.escaped = false) (hquote : st.quote = none) :
    st = start.deeper st.depth := by
  obtain ⟨escaped, quote, depth⟩ := st
  simp_all [deeper, start]

/-- A closed text leaves a state outside strings and escapes as it was. -/
theorem after_closed {s : List Char} (hs : start.after s = start) {st : ListState}
    (hesc : st.escaped = false) (hquote : st.quote = none) : st.after s = st := by
  rw [eq_deeper_start hesc hquote, after_deeper, hs]

/-- A closed text can be met in any state outside strings and escapes. -/
theorem along_closed {s : List Char} (hs : Closed esc stop s) {st : ListState}
    (hesc : st.escaped = false) (hquote : st.quote = none) (hdepth : 0 ≤ st.depth) :
    Along (Fits esc stop) st s := by
  rcases Int.le_iff_eq_or_lt.mp hdepth with h | h
  · have hst : st = start := by
      obtain ⟨escaped, quote, depth⟩ := st
      simp_all [start]
    rw [hst]
    exact hs.fits
  · rw [eq_deeper_start hesc hquote]
    exact along_deeper h (Int.le_refl _) hs.fits

/-- Round brackets close a text off, whatever stands in the open in it. -/
theorem Closed.inIs {s : List Char} (hs : Closed esc stop s)
    (hstop : ∀ c ∈ [':', 'i', 's', '('], ¬ stop' c) :
    Closed esc stop' ([':', 'i', 's', '('] ++ s ++ [')']) := by
  have hopen : start.after [':', 'i', 's', '('] = start.deeper 1 := by decide
  have hinner : (start.deeper 1).after s = start.deeper 1 := by rw [after_deeper, hs.ends]
  refine ⟨?_, ?_⟩
  · rw [after_append, after_append, hopen, hinner]
    decide
  · rw [along_append, along_append, after_append, hopen, hinner]
    refine ⟨⟨?_, along_deeper Int.one_pos (Int.le_refl _) hs.fits⟩, ?_⟩
    · simp only [List.mem_cons, List.not_mem_nil, or_false, forall_eq_or_imp, forall_eq] at hstop
      obtain ⟨h1, h2, h3, h4⟩ := hstop
      have hplain : ∀ {st : ListState} {c : Char}, st.escaped = false → (st.escaped = true → esc c) :=
        fun h h' => by simp [h] at h'
      exact ⟨⟨by decide, hplain rfl, fun _ => h1⟩, ⟨by decide, hplain rfl, fun _ => h2⟩,
        ⟨by decide, hplain rfl, fun _ => h3⟩, ⟨by decide, hplain rfl, fun _ => h4⟩, trivial⟩
    · exact ⟨⟨by decide, fun h => absurd h (by decide), fun h => absurd h (by decide)⟩, trivial⟩

/-! ## Members -/

theorem separates_iff {st : ListState} {c : Char} : st.separates c = true ↔ c = ',' ∧ st = start := by
  obtain ⟨escaped, quote, depth⟩ := st
  simp [separates, start, and_assoc]

end ListState

namespace Selector

open ListState

variable {esc stop : Char → Prop}

theorem uncut_of_along {st : ListState} {s : List Char}
    (h : Along (fun st c => st = start → c ≠ ',') st s) : Text.Uncut next separates st s := by
  induction s generalizing st with
  | nil => trivial
  | cons c s ih =>
    refine ⟨?_, ih h.2⟩
    rw [Bool.eq_false_iff]
    intro hsep
    obtain ⟨hcomma, hst⟩ := separates_iff.mp hsep
    exact h.1 hst hcomma

theorem uncut_of_fits (hstop : stop ',') {st : ListState} {s : List Char}
    (h : Along (Fits esc stop) st s) : Text.Uncut next separates st s := by
  refine uncut_of_along (h.imp fun st c hc hst => ?_)
  rintro rfl
  exact hc.2.2 hst hstop

theorem splitBy_of_along (hstop : stop ',') {st : ListState} {s : List Char}
    (h : Along (Fits esc stop) st s) (t : List Char) :
    Text.splitBy next separates st (s ++ t) =
      Text.appendHead s (Text.splitBy next separates (st.after s) t) :=
  Text.splitBy_append_of_uncut (uncut_of_fits hstop h) t

theorem members_of_along (hstop : stop ',') {s : List Char} (h : Along (Fits esc stop) start s) :
    members s = [s] :=
  Text.splitBy_of_uncut (uncut_of_fits hstop h)

/-- A comma behind a text that leads back to the start ends a member. -/
theorem members_append_comma {s : List Char} (h : Text.Uncut next separates start s)
    (hback : start.after s = start) (t : List Char) : members (s ++ ',' :: t) = s :: members t := by
  have hend : s.foldl next start = start := hback
  have hsep : (s.foldl next start).separates ',' = true := by rw [hend]; decide
  rw [members, Text.splitBy_append_cons h hsep, hend]
  rfl

theorem splitBy_cons_cases {st : ListState} {c : Char} {s m : List Char} {ms : List (List Char)}
    (h : Text.splitBy next separates st (c :: s) = m :: ms) :
    (c = ',' ∧ st = start ∧ m = [] ∧ Text.splitBy next separates start s = ms) ∨
      ∃ n, Text.splitBy next separates (st.next c) s = n :: ms ∧ m = c :: n := by
  have hne : Text.splitBy next separates (st.next c) s ≠ [] := Text.splitBy_ne_nil _ _
  obtain ⟨n, ns, hrest⟩ := List.exists_cons_of_ne_nil hne
  rw [Text.splitBy, hrest] at h
  by_cases hsep : st.separates c = true
  · obtain ⟨rfl, rfl⟩ := separates_iff.mp hsep
    have hnext : start.next ',' = start := by decide
    rw [if_pos hsep] at h
    obtain ⟨rfl, rfl⟩ := List.cons.inj h
    exact .inl ⟨rfl, rfl, rfl, hnext ▸ hrest⟩
  · rw [if_neg hsep] at h
    obtain ⟨rfl, rfl⟩ := List.cons.inj h
    exact .inr ⟨n, hrest, rfl⟩

theorem splitBy_members {P : ListState → Char → Prop} {st : ListState} {s : List Char}
    (h : Along P st s) {m : List Char} {ms : List (List Char)}
    (hsplit : Text.splitBy next separates st s = m :: ms) :
    (Along P st m ∧ ∀ c ∈ m, c ∈ s) ∧ ∀ n ∈ ms, Along P start n ∧ ∀ c ∈ n, c ∈ s := by
  induction s generalizing st m ms with
  | nil =>
    obtain ⟨rfl, rfl⟩ := List.cons.inj hsplit
    exact ⟨⟨trivial, by simp⟩, by simp⟩
  | cons c s ih =>
    rcases splitBy_cons_cases hsplit with ⟨rfl, rfl, rfl, hrest⟩ | ⟨n, hrest, rfl⟩
    · have hne : Text.splitBy next separates start s ≠ [] := Text.splitBy_ne_nil _ _
      obtain ⟨n, ns, hns⟩ := List.exists_cons_of_ne_nil hne
      have hnext : start.next ',' = start := by decide
      obtain ⟨hn, hall⟩ := ih (hnext ▸ h.2) hns
      rw [hns] at hrest
      subst hrest
      refine ⟨⟨trivial, by simp⟩, fun x hx => ?_⟩
      rcases List.mem_cons.mp hx with rfl | hx
      · exact ⟨hn.1, fun d hd => List.mem_cons_of_mem _ (hn.2 d hd)⟩
      · exact ⟨(hall x hx).1, fun d hd => List.mem_cons_of_mem _ ((hall x hx).2 d hd)⟩
    · obtain ⟨hn, hall⟩ := ih h.2 hrest
      refine ⟨⟨⟨h.1, hn.1⟩, fun d hd => ?_⟩, fun x hx =>
        ⟨(hall x hx).1, fun d hd => List.mem_cons_of_mem _ ((hall x hx).2 d hd)⟩⟩
      rcases List.mem_cons.mp hd with rfl | hd
      · exact List.mem_cons_self
      · exact List.mem_cons_of_mem _ (hn.2 d hd)

theorem along_member {P : ListState → Char → Prop} {s m : List Char} (h : Along P start s)
    (hm : m ∈ members s) : Along P start m ∧ ∀ c ∈ m, c ∈ s := by
  have hne : members s ≠ [] := Text.splitBy_ne_nil _ _
  obtain ⟨n, ns, hsplit⟩ := List.exists_cons_of_ne_nil hne
  obtain ⟨hn, hns⟩ := splitBy_members h hsplit
  rw [hsplit] at hm
  rcases List.mem_cons.mp hm with rfl | hm
  · exact hn
  · exact hns m hm

end Selector

/-! ## Blanks -/

namespace ListState

theorem next_of_isBlank {c : Char} (h : Text.isBlank c = true) {st : ListState}
    (hesc : st.escaped = false) (hquote : st.quote = none) : st.next c = st := by
  have hne : ∀ d, Text.isBlank d = false → c ≠ d := by
    rintro d hd rfl
    rw [h] at hd
    cases hd
  have hbackslash := hne '\\' (by decide)
  have hq : isQuote c = false := by simp [isQuote, hne '"' (by decide), hne '\'' (by decide)]
  have ho : isOpener c = false := by simp [isOpener, hne '[' (by decide), hne '(' (by decide)]
  have hl : isCloser c = false := by simp [isCloser, hne ']' (by decide), hne ')' (by decide)]
  obtain ⟨escaped, quote, depth⟩ := st
  dsimp only at hesc hquote
  subst hesc hquote
  simp [next, hbackslash, hq, ho, hl]

theorem after_blanks {s : List Char} (h : ∀ c ∈ s, Text.isBlank c = true) :
    start.after s = start := by
  induction s with
  | nil => rfl
  | cons c s ih =>
    rw [after_cons, next_of_isBlank (h c (by simp)) rfl rfl]
    exact ih fun d hd => h d (by simp [hd])

variable {P : ListState → Char → Prop}

theorem along_trim {s : List Char} (h : Along P start s) : Along P start (Text.trim s) := by
  obtain ⟨l, r, hl, -, hs⟩ := Text.exists_eq_append_trim s
  rw [hs, along_append, after_blanks hl, along_append] at h
  exact h.2.1

end ListState
end UtilityCss
