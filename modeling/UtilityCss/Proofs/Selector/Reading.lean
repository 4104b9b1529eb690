import UtilityCss.Proofs.Selector.Scan
import UtilityCss.Proofs.Text.Trim

/-!
# What the reader of selectors does

The reader and the list splitter go through the same states, escapes of several characters included
(`Reader.listState`). A character either ends the compound, in the open, or is put to it
(`Reader.step_cases`); all that is said here about readings follows from these two cases.

* The compounds of a selector that was read are closed, if the text closes what it opens
  (`Progress`, `isReadFrom_of_read`).
* Where no hexadecimal digit is escaped, no space and no combinator stands in the open in a compound
  (`Holds`). Such compounds are read as they are (`exists_putsAll`).
* What the reader puts together stands together in a compound (`isInfix_compound_of_read`).
-/

namespace UtilityCss

/-- Whether a character ends a compound in the open. -/
def IsBreak (c : Char) : Prop := isSelectorSpace c = true ∨ (Combinator.ofChar? c).isSome = true

instance (c : Char) : Decidable (IsBreak c) :=
  inferInstanceAs (Decidable (isSelectorSpace c = true ∨ (Combinator.ofChar? c).isSome = true))

namespace Reader

open ListState

/-- The state of the list splitter that a reader is in. -/
def listState (r : Reader) : ListState := ⟨decide (r.escape = .opened), r.quote, r.depth⟩

theorem listState_eq_start {r : Reader} (h : r.escape ≠ .opened) :
    r.listState = ListState.start ↔ r.atTop = true := by
  simp [listState, ListState.start, atTop, h, and_comm]

@[simp] theorem quote_put (r : Reader) (c : Char) : (r.put c).quote = r.quote := by
  unfold put; split <;> rfl

@[simp] theorem depth_put (r : Reader) (c : Char) : (r.put c).depth = r.depth := by
  unfold put; split <;> rfl

@[simp] theorem escape_put (r : Reader) (c : Char) : (r.put c).escape = r.escape := by
  unfold put; split <;> rfl

theorem listState_put (r : Reader) (c : Char) : (r.put c).listState = r.listState := by
  simp [listState]

/-- What a character does that is put to the compound. -/
structure Puts (r : Reader) (c : Char) (r' : Reader) : Prop where
  parts : r'.parts = r.parts
  compound : r'.compound = r.compound ++ [c]
  lead : r'.lead = if r.compound = [] then r.pending else r.lead
  pending : r'.pending = if r.compound = [] then none else r.pending
  state : r'.listState = r.listState.next c
  not_comma : r.listState = ListState.start → c ≠ ','
  not_break : r.escape = .outside → r.listState = ListState.start → ¬ IsBreak c
  hex : ∀ n, r'.escape = .hex n → (∃ m, r.escape = .hex m) ∨ r.escape = .opened ∧ isHexDigit c = true

theorem puts_put {r : Reader} {c : Char} {e : Escape} {st : ListState}
    (hst : r.listState.next c = st) (he : st.escaped = decide (e = .opened))
    (hcomma : r.listState = ListState.start → c ≠ ',')
    (hbreak : r.escape = .outside → r.listState = ListState.start → ¬ IsBreak c)
    (hhex : ∀ n, e = .hex n → (∃ m, r.escape = .hex m) ∨ r.escape = .opened ∧ isHexDigit c = true) :
    Puts r c { r.put c with quote := st.quote, depth := st.depth, escape := e } := by
  have hstate : (⟨decide (e = .opened), st.quote, st.depth⟩ : ListState) = r.listState.next c := by
    rw [← he, hst]
  by_cases hc : r.compound = []
  · exact ⟨by simp [put, hc], by simp [put, hc], by simp [put, hc], by simp [put, hc], hstate,
      hcomma, hbreak, hhex⟩
  · exact ⟨by simp [put, hc], by simp [put, hc], by simp [put, hc], by simp [put, hc], hstate,
      hcomma, hbreak, hhex⟩

theorem next_backslash {st : ListState} (h : st.escaped = false) :
    st.next '\\' = { st with escaped := true } := by
  simp [next, h]

theorem track_eq {r : Reader} {c : Char} (he : r.escape = .outside) (hc : c ≠ '\\') :
    r.track c = { r with
      quote := (r.listState.next c).quote, depth := (r.listState.next c).depth,
      escape := .outside } ∧ (r.listState.next c).escaped = false := by
  obtain ⟨parts, compound, lead, pending, depth, quote, escape⟩ := r
  dsimp only at he
  subst he
  cases quote with
  | none =>
    by_cases hq : isQuote c = true
    · simp [track, listState, next, hc, hq]
    · by_cases ho : isOpener c = true
      · simp [track, listState, next, hc, hq, ho]
      · by_cases hl : isCloser c = true <;> simp [track, listState, next, hc, hq, ho, hl]
  | some q =>
    by_cases hq : c = q
    · subst hq; simp [track, listState, next, hc]
    · simp [track, listState, next, hc, hq]

theorem plain_cases {r r' : Reader} {c : Char} (he : r.escape = .outside)
    (h : r.plain c = .ok r') :
    (r.listState = ListState.start ∧ IsBreak c ∧ r' = r.separate c) ∨ Puts r c r' := by
  have htop := listState_eq_start (r := r) (by simp [he])
  unfold plain at h
  split_ifs at h with h1 h2 h3
  · left
    rw [Bool.and_eq_true, Bool.or_eq_true] at h2
    exact ⟨htop.mpr h2.1, h2.2, (Except.ok.inj h).symm⟩
  all_goals
    right
    obtain rfl := Except.ok.inj h
    have hcomma : r.listState = ListState.start → c ≠ ',' := by
      intro hst hc
      exact h1 (by simp [htop.mp hst, hc])
    have hbreak : r.escape = .outside → r.listState = ListState.start → ¬ IsBreak c := by
      intro _ hst hb
      exact h2 (by rw [Bool.and_eq_true, Bool.or_eq_true]; exact ⟨htop.mp hst, hb⟩)
  · subst h3
    have hesc : r.listState.escaped = false := by simp [listState, he]
    have := puts_put (e := .opened) (next_backslash hesc) rfl hcomma hbreak (by simp)
    simpa [listState, quote_put, depth_put] using this
  · obtain ⟨htrack, hesc⟩ := track_eq (r := r.put c) (by rw [escape_put, he]) h3
    rw [htrack, listState_put]
    rw [listState_put] at hesc
    exact puts_put rfl (by simp [hesc]) hcomma hbreak (by simp)

theorem isQuote_of_quote_next {st : ListState} (h : ∀ q, st.quote = some q → isQuote q = true)
    {c q : Char} (hq : (st.next c).quote = some q) : isQuote q = true := by
  obtain ⟨escaped, quote, depth⟩ := st
  cases quote with
  | none =>
    simp only [next] at hq
    split_ifs at hq
    simp_all
  | some p =>
    simp only [next] at hq
    split_ifs at hq <;> simp_all

theorem isQuote_of_quote_after {st : ListState} (h : ∀ q, st.quote = some q → isQuote q = true)
    (u : List Char) {q : Char} (hq : (st.after u).quote = some q) : isQuote q = true := by
  induction u generalizing st with
  | nil => exact h q hq
  | cons c u ih => exact ih (fun _ => isQuote_of_quote_next h) hq

theorem next_eq_self {st : ListState} (hesc : st.escaped = false)
    (hquote : ∀ q, st.quote = some q → isQuote q = true) {c : Char}
    (hc : isHexDigit c = true ∨ c = ' ') : st.next c = st := by
  have hnot : ∀ d, (isHexDigit d || d == ' ') = false → c ≠ d := by
    rintro d hd rfl
    simp at hd
    simp [hd] at hc
  have h1 : c ≠ '\\' := hnot _ (by decide)
  have h2 : isQuote c = false := by
    simp [isQuote, hnot '"' (by decide), hnot '\'' (by decide)]
  have h3 : isOpener c = false := by
    simp [isOpener, hnot '[' (by decide), hnot '(' (by decide)]
  have h4 : isCloser c = false := by
    simp [isCloser, hnot ']' (by decide), hnot ')' (by decide)]
  obtain ⟨escaped, quote, depth⟩ := st
  dsimp only at hesc
  subst hesc
  cases quote with
  | none => simp [next, h1, h2, h3, h4]
  | some q =>
    have : c ≠ q := by
      rintro rfl
      simp [hquote c rfl] at h2
    simp [next, h1, this]

theorem puts_escaped {r : Reader} (c : Char) (he : r.escape = .opened) :
    Puts r c { r.put c with escape := if isHexDigit c then .hex 1 else .outside } := by
  have hst : r.listState.next c = ⟨false, r.quote, r.depth⟩ := by simp [listState, he, next]
  have hne : r.listState ≠ ListState.start := by simp [listState, he, ListState.start]
  have := puts_put (e := if isHexDigit c then .hex 1 else .outside) hst (by split <;> rfl)
    (fun h => absurd h hne) (fun _ h => absurd h hne)
    (fun n hn => .inr ⟨he, by by_contra hx; simp [hx] at hn⟩)
  simpa [quote_put, depth_put] using this

theorem puts_hex {r : Reader} {c : Char} {n : Nat}
    (hquote : ∀ q, r.quote = some q → isQuote q = true) (he : r.escape = .hex n)
    (hc : isHexDigit c = true ∨ c = ' ') {e : Escape} (hopened : e ≠ .opened) :
    Puts r c { r.put c with escape := e } := by
  have hst : r.listState = ⟨false, r.quote, r.depth⟩ := by simp [listState, he]
  have hnext : r.listState.next c = ⟨false, r.quote, r.depth⟩ := by
    rw [hst]
    exact next_eq_self rfl hquote hc
  have hcomma : c ≠ ',' := by
    rintro rfl
    revert hc
    decide
  have := puts_put (e := e) hnext (by simp [hopened]) (fun _ => hcomma) (by simp [he])
    (fun m _ => .inl ⟨n, he⟩)
  simpa using this

/-- What a character does: outside brackets, strings and escapes a space or a combinator ends the
compound, and every other character is put to it. -/
theorem step_cases {r r' : Reader} {c : Char} (hquote : ∀ q, r.quote = some q → isQuote q = true)
    (h : r.step c = .ok r') :
    (r.listState = ListState.start ∧ IsBreak c ∧ r' = { r with escape := .outside }.separate c) ∨
      Puts r c r' := by
  unfold step at h
  split at h
  · next he =>
    have hr : { r with escape := Escape.outside } = r := by rw [← he]
    rw [hr]
    exact plain_cases he h
  · next he =>
    obtain rfl := Except.ok.inj h
    exact .inr (puts_escaped c he)
  · next n he =>
    split_ifs at h with h1 h2
    · obtain rfl := Except.ok.inj h
      exact .inr (puts_hex hquote he (.inl (by simpa using (Bool.and_eq_true _ _ ▸ h1).2)) (by simp))
    · obtain rfl := Except.ok.inj h
      exact .inr (puts_hex hquote he (.inr h2) (by simp))
    · -- the escape is over, and the character is read as outside of it
      have hsame : ({ r with escape := .outside } : Reader).listState = r.listState := by
        simp [listState, he]
      rcases plain_cases (r := { r with escape := .outside }) rfl h with ⟨hs, hb, heq⟩ | hp
      · exact .inl ⟨hsame ▸ hs, hb, heq⟩
      · refine .inr ⟨hp.parts, hp.compound, hp.lead, hp.pending, ?_, ?_, by simp [he],
          fun m _ => .inl ⟨n, he⟩⟩
        · rw [hp.state, hsame]
        · rw [← hsame]
          exact hp.not_comma

theorem invariant {I : List Char → Reader → Prop}
    (hstep : ∀ u r c r', I u r → r.step c = .ok r' → I (u ++ [c]) r') {u s : List Char}
    {r r' : Reader} (hstart : I u r) (h : s.foldlM step r = .ok r') : I (u ++ s) r' := by
  induction s generalizing u r with
  | nil =>
    obtain rfl := Except.ok.inj h
    simpa using hstart
  | cons c s ih =>
    rw [List.foldlM_cons] at h
    cases hc : r.step c with
    | error e => rw [hc] at h; cases h
    | ok r₁ =>
      rw [hc] at h
      simpa using ih (hstep u r c r₁ hstart hc) h

/-! ## Compounds are met as they stand in the text -/

variable {P : ListState → Char → Prop}

/-- In a text whose characters are admitted by `P`, no escape begins with a hexadecimal digit. -/
def Spares (P : ListState → Char → Prop) : Prop :=
  ∀ st c, P st c → st.escaped = true → isHexDigit c = false

/-- What a compound may hold: what `P` admits, but in the open no comma; and no break either, unless it
belongs to a hexadecimal escape. -/
def Holds (P : ListState → Char → Prop) (st : ListState) (c : Char) : Prop :=
  P st c ∧ (st = ListState.start → c ≠ ',' ∧ (Spares P → ¬ IsBreak c))

/-- A compound as the reader finishes it: closed, and made of what a compound may hold. -/
structure Finished (P : ListState → Char → Prop) (w : List Char) : Prop where
  ne_nil : w ≠ []
  ends : ListState.start.after w = ListState.start
  holds : Along (Holds P) ListState.start w

theorem next_of_isBreak {c : Char} (h : IsBreak c) : ListState.start.next c = ListState.start := by
  rcases h with h | h
  · simp only [isSelectorSpace, Bool.or_eq_true, beq_iff_eq] at h
    rcases h with (((rfl | rfl) | rfl) | rfl) | rfl <;> rfl
  · unfold Combinator.ofChar? at h
    split_ifs at h with h1 h2 h3
    · rw [h1]; rfl
    · rw [h2]; rfl
    · rw [h3]; rfl
    · simp at h

theorem ne_comma_of_isBreak {c : Char} (h : IsBreak c) : c ≠ ',' := by
  rintro rfl
  revert h
  decide

theorem listState_separate {r : Reader} (h : r.listState = ListState.start) (c : Char) :
    ({ r with escape := .outside }.separate c : Reader).listState = ListState.start := by
  have hquote := congrArg ListState.quote h
  have hdepth := congrArg ListState.depth h
  simp only [listState, ListState.start] at hquote hdepth
  simp [listState, separate, ListState.start, hquote, hdepth]

/-- What is known of a reader behind the text `u`. The compound being read has been begun in the open,
so it is met in the states in which it stands in the text. -/
structure Progress (P : ListState → Char → Prop) (u : List Char) (r : Reader) : Prop where
  state : ListState.start.after u = r.listState
  text : Along (fun st c => P st c ∧ (st = ListState.start → c ≠ ',')) ListState.start u
  compoundState : ListState.start.after r.compound = r.listState
  compound : Along (Holds P) ListState.start r.compound
  parts : ∀ p ∈ r.parts, Finished P p.compound
  spared : Spares P → ∀ n, r.escape ≠ .hex n
  last : r.compound ≠ [] → r.compound.getLast? = u.getLast?

theorem progress_start : Progress P [] Reader.start :=
  ⟨rfl, trivial, rfl, trivial, by simp [Reader.start], by simp [Reader.start], by simp [Reader.start]⟩

theorem Progress.flushed {u : List Char} {r : Reader} (h : Progress P u r)
    (hst : r.listState = ListState.start) : ∀ p ∈ r.flushed, Finished P p.compound := by
  intro p hp
  unfold Reader.flushed at hp
  split at hp
  · exact h.parts p hp
  · next hne =>
    rcases List.mem_append.mp hp with hp | hp
    · exact h.parts p hp
    · obtain rfl := List.mem_singleton.mp hp
      exact ⟨by simpa using hne, h.compoundState.trans hst, h.compound⟩

theorem Progress.isQuote {u : List Char} {r : Reader} (h : Progress P u r) :
    ∀ q, r.quote = some q → isQuote q = true := by
  intro q hq
  have hstart : ∀ q, ListState.start.quote = some q → UtilityCss.isQuote q = true := by
    simp [ListState.start]
  refine isQuote_of_quote_after hstart u ?_
  rw [h.state]
  exact hq

theorem Progress.step {u : List Char} {r r' : Reader} {c : Char} (h : Progress P u r)
    (hc : P r.listState c) (hr : r.step c = .ok r') : Progress P (u ++ [c]) r' := by
  rcases step_cases h.isQuote hr with ⟨hst, hb, rfl⟩ | hp
  · have hnew := listState_separate hst c
    refine ⟨?_, ?_, hnew.symm, trivial, h.flushed hst, by simp [separate], fun hne => absurd rfl hne⟩
    · -- in the open, a break leaves the state of the splitter as it is
      rw [after_append, h.state, hst, hnew]
      exact next_of_isBreak hb
    · rw [along_append, h.state]
      exact ⟨h.text, ⟨hc, fun _ => ne_comma_of_isBreak hb⟩, trivial⟩
  · have hbreak : Spares P → r.listState = ListState.start → ¬ IsBreak c := by
      intro hspares hst
      refine hp.not_break ?_ hst
      cases he : r.escape with
      | outside => rfl
      | opened => simp [listState, he, ListState.start] at hst
      | hex n => exact absurd he (h.spared hspares n)
    refine ⟨?_, ?_, ?_, ?_, ?_, ?_, ?_⟩
    · rw [after_append, h.state, hp.state]; rfl
    · rw [along_append, h.state]
      exact ⟨h.text, ⟨hc, hp.not_comma⟩, trivial⟩
    · rw [hp.compound, after_append, h.compoundState, hp.state]; rfl
    · rw [hp.compound, along_append, h.compoundState]
      exact ⟨h.compound, ⟨hc, fun hst => ⟨hp.not_comma hst, fun hs => hbreak hs hst⟩⟩, trivial⟩
    · rw [hp.parts]; exact h.parts
    · intro hspares n hn
      rcases hp.hex n hn with ⟨m, hm⟩ | ⟨he, hx⟩
      · exact h.spared hspares m hm
      · have := hspares _ _ hc (by simp [listState, he])
        rw [hx] at this
        cases this
    · intro _
      rw [hp.compound]
      simp

theorem progress_of_run {s : List Char} {r : Reader} (hs : Along P ListState.start s)
    (h : s.foldlM step start = .ok r) : Progress P s r := by
  refine invariant (I := fun u r => Along P ListState.start u → Progress P u r) ?_
    (fun _ => progress_start) h hs
  intro u r c r' ih hc hu
  rw [along_append] at hu
  have hprog := ih hu.1
  exact hprog.step (hprog.state ▸ hu.2.1) hc

theorem progress_of_any_run {s : List Char} {r : Reader} (h : s.foldlM step start = .ok r) :
    Progress (fun _ _ => True) s r :=
  progress_of_run (along_of_forall (fun _ _ _ => trivial) _) h

theorem kept_of_run {I : Reader → Prop}
    (hstep : ∀ r c r', (∀ q, r.quote = some q → UtilityCss.isQuote q = true) → I r →
      r.step c = .ok r' → I r')
    {s t : List Char} {r r' : Reader} (hs : s.foldlM step start = .ok r) (hr : I r)
    (ht : t.foldlM step r = .ok r') : I r' := by
  have hend := invariant (I := fun u r => Progress (fun _ _ => True) u r ∧ I r)
    (fun _ _ _ _ hI hc => ⟨hI.1.step trivial hc, hstep _ _ _ hI.1.isQuote hI.2 hc⟩)
    ⟨progress_of_any_run hs, hr⟩ ht
  exact hend.2

theorem finish_eq_ok {r : Reader} {sel : Selector} (h : r.finish = .ok sel) :
    sel = ⟨r.parts ++ [⟨r.lead, r.compound⟩]⟩ ∧ r.depth = 0 ∧ r.quote = none ∧ r.compound ≠ [] := by
  unfold finish at h
  split_ifs at h with h1 h2 h3
  have hne : r.compound ≠ [] := by simpa using h3
  refine ⟨?_, by simpa using h1, by simpa using h2, hne⟩
  rw [← Except.ok.inj h, flushed, if_neg h3]

end Reader

namespace Selector

open Reader ListState

variable {P : ListState → Char → Prop}

theorem read_trim (s : List Char) : read (Text.trim s) = read s := by
  rw [read, Text.trim_of_trimmed (Text.trimmed_trim s), read]

theorem read_eq_ok {s : List Char} {sel : Selector} (h : read s = .ok sel) :
    ∃ r, (Text.trim s).foldlM Reader.step Reader.start = .ok r ∧ r.finish = .ok sel := by
  unfold read at h
  cases hr : (Text.trim s).foldlM Reader.step Reader.start with
  | error e => rw [hr] at h; cases h
  | ok r =>
    rw [hr] at h
    exact ⟨r, rfl, h⟩

/-- What is known of a selector that was read from a text between blanks. -/
structure IsReadFrom (P : ListState → Char → Prop) (t : List Char) (sel : Selector) : Prop where
  finished : ∀ p ∈ sel.parts, Finished P p.compound
  last : ∃ ps p, sel.parts = ps ++ [p] ∧ p.compound.getLast? = t.getLast?

theorem isReadFrom_of_read {s : List Char} {sel : Selector} (h : read s = .ok sel)
    (hs : Along P ListState.start (Text.trim s))
    (hesc : (ListState.start.after (Text.trim s)).escaped = false) :
    IsReadFrom P (Text.trim s) sel := by
  obtain ⟨r, hrun, hfinish⟩ := read_eq_ok h
  obtain ⟨rfl, hdepth, hquote, hne⟩ := finish_eq_ok hfinish
  have hprog := progress_of_run hs hrun
  have hst : r.listState = ListState.start := by
    rw [hprog.state] at hesc
    simp only [listState] at hesc ⊢
    rw [hdepth, hquote, hesc]
    rfl
  refine ⟨?_, r.parts, ⟨r.lead, r.compound⟩, rfl, hprog.last hne⟩
  have := hprog.flushed hst
  rwa [Reader.flushed, if_neg (by simpa using hne)] at this

end Selector

/-! ## Texts that are put to a compound as a whole -/

namespace Reader

open ListState

/-- A character that is neither a comma nor a break, if it stands in the open. -/
def Solid (st : ListState) (c : Char) : Prop := st = ListState.start → c ≠ ',' ∧ ¬ IsBreak c

theorem exists_step_eq_ok {r : Reader} {c : Char} (hc : r.listState = ListState.start → c ≠ ',') :
    ∃ r', r.step c = .ok r' := by
  have hplain : ∀ r₁ : Reader, r₁.escape = .outside → r₁.listState = r.listState →
      ∃ r', r₁.plain c = .ok r' := by
    intro r₁ he hst
    have htop := listState_eq_start (r := r₁) (by simp [he])
    unfold plain
    split_ifs with h1 h2 h3
    · rw [Bool.and_eq_true, beq_iff_eq, ← htop, hst] at h1
      exact absurd h1.2 (hc h1.1)
    all_goals exact ⟨_, rfl⟩
  unfold step
  split
  · next he => exact hplain r he rfl
  · exact ⟨_, rfl⟩
  · next n he =>
    split_ifs
    · exact ⟨_, rfl⟩
    · exact ⟨_, rfl⟩
    · exact hplain _ rfl (by simp [listState, he])

theorem exists_puts {r : Reader} {c : Char} (hquote : ∀ q, r.quote = some q → isQuote q = true)
    (hc : Solid r.listState c) : ∃ r', r.step c = .ok r' ∧ Puts r c r' := by
  obtain ⟨r', hr⟩ := exists_step_eq_ok fun hst => (hc hst).1
  rcases step_cases hquote hr with ⟨hst, hb, -⟩ | hp
  · exact absurd hb (hc hst).2
  · exact ⟨r', hr, hp⟩

/-- What a text does that is put to the compound as a whole. -/
structure PutsAll (r : Reader) (w : List Char) (r' : Reader) : Prop where
  parts : r'.parts = r.parts
  compound : r'.compound = r.compound ++ w
  lead : r'.lead = if r.compound = [] ∧ w ≠ [] then r.pending else r.lead
  pending : r'.pending = if r.compound = [] ∧ w ≠ [] then none else r.pending
  state : r'.listState = r.listState.after w
  spared : (∀ n, r.escape ≠ .hex n) →
    Along (fun st c => st.escaped = true → isHexDigit c = false) r.listState w →
      ∀ n, r'.escape ≠ .hex n

theorem exists_putsAll {r : Reader} (hquote : ∀ q, r.quote = some q → isQuote q = true)
    {w : List Char} (hw : Along Solid r.listState w) :
    ∃ r', w.foldlM step r = .ok r' ∧ PutsAll r w r' := by
  induction w generalizing r with
  | nil =>
    exact ⟨r, rfl, rfl, by simp, by simp, by simp, rfl, fun h _ => h⟩
  | cons c w ih =>
    obtain ⟨r₁, hr₁, hp⟩ := exists_puts hquote hw.1
    have hquote₁ : ∀ q, r₁.quote = some q → isQuote q = true := by
      intro q hq
      have hnext : (r.listState.next c).quote = some q := by
        rw [← hp.state]
        exact hq
      exact isQuote_of_quote_next hquote hnext
    obtain ⟨r', hr', hall⟩ := ih hquote₁ (hp.state ▸ hw.2)
    have hne : r₁.compound ≠ [] := by simp [hp.compound]
    refine ⟨r', by rw [List.foldlM_cons, hr₁]; exact hr', ?_, ?_, ?_, ?_, ?_, ?_⟩
    · rw [hall.parts, hp.parts]
    · rw [hall.compound, hp.compound, List.append_assoc]; rfl
    · rw [hall.lead, if_neg (by simp [hne]), hp.lead]
      simp
    · rw [hall.pending, if_neg (by simp [hne]), hp.pending]
      simp
    · rw [hall.state, hp.state]; rfl
    · intro hr hspared
      refine hall.spared (fun n hn => ?_) (hp.state ▸ hspared.2)
      rcases hp.hex n hn with ⟨m, hm⟩ | ⟨he, hx⟩
      · exact hr m hm
      · have := hspared.1 (by simp [listState, he])
        rw [hx] at this
        cases this

/-- A text in the compound being read or in a finished one. -/
def Keeps (k : List Char) (r : Reader) : Prop :=
  k <:+: r.compound ∨ ∃ p ∈ r.parts, k <:+: p.compound

theorem Keeps.flushed {k : List Char} {r : Reader} (h : Keeps k r) (hk : k ≠ []) :
    ∃ p ∈ r.flushed, k <:+: p.compound := by
  unfold Reader.flushed
  split_ifs with hc
  · rcases h with h | h
    · rw [List.isEmpty_iff.mp hc] at h
      exact absurd (List.infix_nil.mp h) hk
    · exact h
  · rcases h with h | ⟨p, hp, h⟩
    · exact ⟨⟨r.lead, r.compound⟩, by simp, h⟩
    · exact ⟨p, by simp [hp], h⟩

theorem Keeps.step {k : List Char} (hk : k ≠ []) {r r' : Reader} {c : Char}
    (hquote : ∀ q, r.quote = some q → isQuote q = true) (h : Keeps k r) (hr : r.step c = .ok r') :
    Keeps k r' := by
  rcases step_cases hquote hr with ⟨-, -, rfl⟩ | hp
  · exact .inr (h.flushed hk)
  · rcases h with h | h
    · exact .inl (hp.compound ▸ List.infix_append_of_infix_left h)
    · exact .inr (hp.parts ▸ h)

theorem foldlM_append_eq_ok {s t : List Char} {r r' : Reader}
    (h : (s ++ t).foldlM step r = .ok r') :
    ∃ r₁, s.foldlM step r = .ok r₁ ∧ t.foldlM step r₁ = .ok r' := by
  rw [List.foldlM_append] at h
  cases hs : s.foldlM step r with
  | error e => rw [hs] at h; cases h
  | ok r₁ =>
    rw [hs] at h
    exact ⟨r₁, rfl, h⟩

end Reader

namespace Selector

open Reader ListState

/-- A text that never ends a compound stands within one compound of the selector. -/
theorem isInfix_compound_of_read {k s : List Char} {sel : Selector} (h : read s = .ok sel)
    (hne : k ≠ []) (hk : ∀ st, Along Solid st k) (hs : k <:+: Text.trim s) :
    ∃ p ∈ sel.parts, k <:+: p.compound := by
  obtain ⟨r, hrun, hfinish⟩ := read_eq_ok h
  obtain ⟨u, v, huv⟩ := hs
  rw [← huv] at hrun
  obtain ⟨r₂, h₂, h₃⟩ := foldlM_append_eq_ok hrun
  obtain ⟨r₁, h₁, h₁₂⟩ := foldlM_append_eq_ok h₂
  obtain ⟨r₂', h₂', hputs⟩ := exists_putsAll (progress_of_any_run h₁).isQuote (hk r₁.listState)
  obtain rfl := Except.ok.inj (h₁₂.symm.trans h₂')
  have hkeeps : Keeps k r₂ := .inl (hputs.compound ▸ List.infix_append_right)
  have hend : Keeps k r :=
    kept_of_run (fun _ _ _ hquote hkeeps hc => hkeeps.step hne hquote hc) h₂ hkeeps h₃
  obtain ⟨rfl, -, -, hc⟩ := finish_eq_ok hfinish
  have := hend.flushed hne
  rwa [Reader.flushed, if_neg (by simpa using hc)] at this

end Selector
end UtilityCss
