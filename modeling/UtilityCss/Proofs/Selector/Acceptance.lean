import Mathlib.Logic.Relation
import UtilityCss.Proofs.Selector.Ending
import UtilityCss.Proofs.Selector.TopLevel

/-!
# The selectors that are accepted

A text is accepted as a selector if its strings end, it has as many openers as closers, no comma stands
in the open, and it ends in a compound (`Selector.Readable`). That is less than a selector has to be. The
brackets of an accepted text are nested if each closer closes the last open bracket, and is of its kind
(`WellNested`), which the reader does not ask for: it counts openers and closers of both kinds together.
Where only one kind occurs, nested means that the count never falls below zero. And of several combinators
between two compounds the reader drops all but the last one.
-/

namespace UtilityCss

open ListState

/-! ## Nested brackets -/

/-- Whether a closer is of the kind of an opener. -/
def closes (o c : Char) : Bool := (o == '[' && c == ']') || (o == '(' && c == ')')

/-- The open brackets behind a text, the last one first, if every closer closes the last open bracket and
is of its kind. -/
def nest? : List Char → List Char → Option (List Char)
  | stack, [] => some stack
  | stack, c :: e =>
    if isOpener c then nest? (c :: stack) e
    else if isCloser c then
      match stack with
      | [] => none
      | o :: rest => if closes o c then nest? rest e else none
    else nest? stack e

/-- Whether every closer closes the last open bracket and is of its kind, and every opener is closed. -/
def WellNested (e : List Char) : Prop := nest? [] e = some []

instance (e : List Char) : Decidable (WellNested e) := inferInstanceAs (Decidable (nest? [] e = some []))

/-- Whether the brackets of a text are all of the kind of one opener and its closer. -/
def OneKind (e : List Char) : Prop :=
  ∃ o l, closes o l = true ∧ ∀ c ∈ e, (isOpener c = true → c = o) ∧ (isCloser c = true → c = l)

theorem balance_cons (c : Char) (e : List Char) : balance (c :: e) = balance [c] + balance e :=
  balance_append [c] e

theorem length_of_nest? {stack e rest : List Char} (h : nest? stack e = some rest) :
    (rest.length : Int) = stack.length + balance e := by
  induction e generalizing stack with
  | nil =>
    obtain rfl := Option.some.inj h
    simp
  | cons c e ih =>
    rw [nest?.eq_def] at h
    rw [balance_cons, balance_singleton]
    dsimp only at h
    split_ifs at h ⊢
    · rw [ih h, List.length_cons]
      omega
    · cases stack with
      | nil => cases h
      | cons o stack =>
        dsimp only at h
        split_ifs at h
        rw [ih h, List.length_cons]
        omega
    · rw [ih h]
      omega

theorem wellNested_iff_isSome {e : List Char} (h : balance e = 0) :
    WellNested e ↔ (nest? [] e).isSome = true := by
  rw [WellNested]
  cases hnest : nest? [] e with
  | none => simp
  | some rest =>
    have hlength := length_of_nest? hnest
    rw [h] at hlength
    have hnil : rest = [] := List.length_eq_zero_iff.mp (by simpa using hlength)
    simp [hnil]

theorem nest?_of_not_bracket {e : List Char}
    (h : ∀ c ∈ e, isOpener c = false ∧ isCloser c = false) (stack : List Char) :
    nest? stack e = some stack := by
  induction e with
  | nil => rfl
  | cons c e ih =>
    obtain ⟨ho, hl⟩ := h c (by simp)
    rw [nest?.eq_def]
    simp only [ho, hl, Bool.false_eq_true, if_false]
    exact ih fun d hd => h d (by simp [hd])

theorem balance_of_not_bracket {e : List Char}
    (h : ∀ c ∈ e, isOpener c = false ∧ isCloser c = false) : balance e = 0 := by
  have hlength := length_of_nest? (nest?_of_not_bracket h [])
  simpa using hlength.symm

theorem isSome_nest?_iff {o l : Char} (hol : closes o l = true) {stack e : List Char}
    (hstack : ∀ c ∈ stack, c = o)
    (he : ∀ c ∈ e, (isOpener c = true → c = o) ∧ (isCloser c = true → c = l)) :
    (nest? stack e).isSome = true ↔ ∀ u, u <+: e → 0 ≤ stack.length + balance u := by
  induction e generalizing stack with
  | nil =>
    refine iff_of_true rfl fun u hu => ?_
    rw [List.prefix_nil.mp hu, balance_nil]
    omega
  | cons c e ih =>
    have hrest := fun d (hd : d ∈ e) => he d (List.mem_cons_of_mem c hd)
    -- a beginning of the text is empty, or goes on behind its first character
    have hcons : (∀ u, u <+: c :: e → 0 ≤ stack.length + balance u) ↔
        ∀ u, u <+: e → 0 ≤ stack.length + balance [c] + balance u := by
      constructor
      · intro h u hu
        have := h (c :: u) (List.cons_prefix_cons.mpr ⟨rfl, hu⟩)
        rwa [balance_cons, ← Int.add_assoc] at this
      · intro h u hu
        rcases List.prefix_cons_iff.mp hu with rfl | ⟨t, rfl, ht⟩
        · rw [balance_nil]
          omega
        · rw [balance_cons, ← Int.add_assoc]
          exact h t ht
    rw [hcons, nest?.eq_def, balance_singleton]
    dsimp only
    split_ifs with hopen hclose
    · have hco := (he c (by simp)).1 hopen
      rw [ih (by simpa [hco] using hstack) hrest, List.length_cons]
      exact forall₂_congr fun u _ => by omega
    · cases stack with
      | nil =>
        refine iff_of_false (by simp) fun h => ?_
        have := h [] List.nil_prefix
        rw [balance_nil] at this
        simp at this
      | cons x rest =>
        obtain rfl := hstack x (by simp)
        obtain rfl := (he c (by simp)).2 hclose
        dsimp only
        rw [if_pos hol, ih (fun d hd => hstack d (by simp [hd])) hrest, List.length_cons]
        exact forall₂_congr fun u _ => by omega
    · rw [ih hstack hrest]
      exact forall₂_congr fun u _ => by omega

theorem wellNested_iff_of_oneKind {e : List Char} (h : balance e = 0) (hone : OneKind e) :
    WellNested e ↔ ∀ u, u <+: e → 0 ≤ balance u := by
  obtain ⟨o, l, hol, he⟩ := hone
  rw [wellNested_iff_isSome h, isSome_nest?_iff hol (by simp) he]
  simp

/-! ## The brackets of a trimmed text -/

theorem exists_exposed_eq (s : List Char) :
    ∃ l r, (∀ c ∈ l, Text.isBlank c = true) ∧ (∀ c ∈ r, Text.isBlank c = true) ∧
      exposed s = l ++ (exposed (Text.trim s) ++ r) := by
  obtain ⟨l, r, hl, hr, hs⟩ := Text.exists_eq_append_trim s
  refine ⟨exposed l, ((Begun.nothing.after (Text.trim s)).emitted r).filterMap Lexeme.plain?,
    fun c hc => hl c (mem_of_mem_emitted (exposed_eq l ▸ hc)), fun c hc => hr c (mem_of_mem_emitted hc), ?_⟩
  have hleft : exposed s = exposed l ++ exposed (Text.trim s ++ r) := by
    rw [exposed, hs, lexemes_append (Begun.after_blanks hl), List.filterMap_append]
    simp only [← hs]
    rfl
  rw [hleft, exposed_eq (Text.trim s ++ r), Begun.emitted_append, List.filterMap_append, ← exposed_eq]

theorem not_bracket_of_isBlank {c : Char} (h : Text.isBlank c = true) :
    isOpener c = false ∧ isCloser c = false := by
  constructor
  · rw [Bool.eq_false_iff]
    intro ho
    simp only [isOpener, Bool.or_eq_true, beq_iff_eq] at ho
    rcases ho with rfl | rfl <;> cases h
  · rw [Bool.eq_false_iff]
    intro hl
    simp only [isCloser, Bool.or_eq_true, beq_iff_eq] at hl
    rcases hl with rfl | rfl <;> cases h

theorem balance_exposed_trim (s : List Char) : balance (exposed (Text.trim s)) = balance (exposed s) := by
  obtain ⟨l, r, hl, hr, hs⟩ := exists_exposed_eq s
  rw [hs, balance_append, balance_append, balance_of_not_bracket fun c hc => not_bracket_of_isBlank (hl c hc),
    balance_of_not_bracket fun c hc => not_bracket_of_isBlank (hr c hc)]
  omega

/-! ## What the reader asks for -/

theorem not_isBlank_of_combinator {c : Char} (h : (Combinator.ofChar? c).isSome = true) :
    Text.isBlank c = false ∧ isHexDigit c = false ∧ c ≠ ' ' ∧ Begun.fresh c = ([.plain c], .nothing) ∧
      balance [c] = 0 := by
  unfold Combinator.ofChar? at h
  split_ifs at h with h1 h2 h3
  · subst h1; decide
  · subst h2; decide
  · subst h3; decide
  · simp at h

namespace Reader

theorem plain_of_isBreak {r : Reader} {c : Char} (he : r.escape = .outside)
    (hst : r.listState = ListState.start) (hb : IsBreak c) : r.plain c = .ok (r.separate c) := by
  have htop : r.atTop = true := (listState_eq_start (by simp [he])).mp hst
  have hcomma : c ≠ ',' := ne_comma_of_isBreak hb
  rw [plain, if_neg (by simp [hcomma]), if_pos (by simpa [htop, IsBreak] using hb)]

theorem step_of_combinator {r : Reader} {c : Char} (hst : r.listState = ListState.start)
    (hc : (Combinator.ofChar? c).isSome = true) :
    r.step c = .ok ({ r with escape := .outside }.separate c) := by
  obtain ⟨-, hhex, hspace, -⟩ := not_isBlank_of_combinator hc
  unfold step
  split
  · next he =>
    have hr : { r with escape := Escape.outside } = r := by rw [← he]
    rw [hr]
    exact plain_of_isBreak he hst (.inr hc)
  · next he => simp [listState, he, ListState.start] at hst
  · next n he =>
    rw [if_neg (by simp [hhex]), if_neg hspace]
    exact plain_of_isBreak rfl (by simpa [listState, he] using hst) (.inr hc)

theorem compound_eq_nil_iff {t : List Char} {r : Reader} (hrun : t.foldlM step start = .ok r)
    (ht : Text.Trimmed t) : r.compound = [] ↔ t = [] ∨ ∃ u c, t = u ++ [c] ∧
      ListState.start.after u = ListState.start ∧ (Combinator.ofChar? c).isSome = true := by
  rcases List.eq_nil_or_concat' t with rfl | ⟨u, c, rfl⟩
  · obtain rfl := Except.ok.inj hrun
    exact iff_of_true rfl (.inl rfl)
  · obtain ⟨r₁, h₁, hlast⟩ := foldlM_append_eq_ok hrun
    have hstep : r₁.step c = .ok r := by simpa using hlast
    have hprog := progress_of_any_run h₁
    have hsnoc : (u ++ [c] = [] ∨ ∃ v d, u ++ [c] = v ++ [d] ∧
        ListState.start.after v = ListState.start ∧ (Combinator.ofChar? d).isSome = true) ↔
          r₁.listState = ListState.start ∧ (Combinator.ofChar? c).isSome = true := by
      constructor
      · rintro (hnil | ⟨v, d, heq, hv, hd⟩)
        · simp at hnil
        · obtain ⟨rfl, hcd⟩ := List.append_inj' heq rfl
          exact ⟨hprog.state.symm.trans hv, (List.cons.inj hcd).1 ▸ hd⟩
      · exact fun ⟨hst, hc⟩ => .inr ⟨u, c, rfl, hprog.state.trans hst, hc⟩
    rw [hsnoc]
    constructor
    · intro hnil
      rcases step_cases hprog.isQuote hstep with ⟨hst, hb, -⟩ | hp
      · -- a blank cannot stand last
        refine ⟨hst, hb.resolve_left fun hspace => ?_⟩
        have hblank := ht.last c (by simp)
        rw [isBlank_of_isSelectorSpace hspace] at hblank
        cases hblank
      · rw [hp.compound] at hnil
        simp at hnil
    · rintro ⟨hst, hc⟩
      rw [step_of_combinator hst hc] at hstep
      obtain rfl := Except.ok.inj hstep
      rfl

theorem run_spaces {r : Reader} {k : Combinator} (he : r.escape = .outside)
    (hst : r.listState = ListState.start) (hc : r.compound = []) (hk : r.pending = some k) {v : List Char}
    (hv : ∀ x ∈ v, isSelectorSpace x = true) : v.foldlM step r = .ok r := by
  induction v with
  | nil => rfl
  | cons x v ih =>
    have hx := hv x (by simp)
    have hnone : Combinator.ofChar? x = none := by
      simp only [isSelectorSpace, Bool.or_eq_true, beq_iff_eq] at hx
      rcases hx with (((rfl | rfl) | rfl) | rfl) | rfl <;> rfl
    have hself : r.separate x = r := by
      obtain ⟨parts, compound, lead, pending, depth, quote, escape⟩ := r
      dsimp only at hc hk
      subst hc hk
      simp [separate, hnone, flushed]
    have hstep : r.step x = .ok r := by
      rw [step, he]
      exact (plain_of_isBreak he hst (.inl hx)).trans (by rw [hself])
    rw [List.foldlM_cons, hstep]
    exact ih fun y hy => hv y (by simp [hy])

theorem run_combinators {r : Reader} {c d : Char} {v : List Char} (hst : r.listState = ListState.start)
    (hc : (Combinator.ofChar? c).isSome = true) (hd : (Combinator.ofChar? d).isSome = true)
    (hv : ∀ x ∈ v, isSelectorSpace x = true) (w : List Char) :
    (c :: v ++ d :: w).foldlM step r = (d :: w).foldlM step r := by
  obtain ⟨k, hk⟩ := Option.isSome_iff_exists.mp hc
  obtain ⟨l, hl⟩ := Option.isSome_iff_exists.mp hd
  have hbehind := listState_separate hst c
  have hspaces : v.foldlM step ({ r with escape := .outside }.separate c) =
      .ok ({ r with escape := .outside }.separate c) :=
    run_spaces (k := k) rfl hbehind rfl (by simp [separate, hk]) hv
  have hagain : ({ ({ r with escape := .outside }.separate c : Reader) with
      escape := .outside }.separate d : Reader) = { r with escape := .outside }.separate d := by
    simp [separate, hl, flushed]
  rw [List.cons_append, List.foldlM_cons, step_of_combinator hst hc]
  show (v ++ d :: w).foldlM step _ = _
  rw [foldlM_append_ok hspaces, List.foldlM_cons, List.foldlM_cons,
    step_of_combinator hbehind hd, step_of_combinator hst hd, hagain]

end Reader

theorem ends_in_combinator_iff {t : List Char} (h : balance (exposed t) = 0) :
    (∃ u c, t = u ++ [c] ∧ start.after u = start ∧ (Combinator.ofChar? c).isSome = true) ↔
      ∃ c, (lexemes t).getLast? = some (.plain c) ∧ (Combinator.ofChar? c).isSome = true := by
  have hsnoc : ∀ u c, lexemes (u ++ [c]) = Begun.nothing.emitted u ++
      (((Begun.nothing.after u).next c).1 ++ ((Begun.nothing.after u).next c).2.flush) := by
    intro u c
    rw [lexemes, Begun.lexemesFrom_append, Begun.lexemesFrom_cons]
    rfl
  constructor
  · rintro ⟨u, c, rfl, hst, hc⟩
    obtain ⟨-, hhex, hspace, hfresh, -⟩ := not_isBlank_of_combinator hc
    refine ⟨c, ?_, hc⟩
    rw [hsnoc, Begun.next_of_agrees (Begun.agrees_after u) (by rw [hst]; rfl) (by rw [hst]; rfl)
      ⟨hhex, hspace⟩, hfresh]
    simp [Begun.flush]
  · rintro ⟨c, hlast, hc⟩
    rcases List.eq_nil_or_concat' t with rfl | ⟨u, d, rfl⟩
    · cases hlast
    · have htext := Begun.flatMap_text_next (Begun.nothing.after u) d
      rw [hsnoc] at hlast
      have hadds : c ∈ ((Begun.nothing.after u).next d).1.filterMap Lexeme.plain? := by
        refine List.mem_filterMap.mpr ⟨.plain c, ?_, rfl⟩
        generalize (Begun.nothing.after u).next d = x at hlast htext
        obtain ⟨ls, b⟩ := x
        cases b with
        | nothing =>
          have hne : ls ≠ [] := by
            rintro rfl
            simp [Begun.text] at htext
          rw [Begun.flush, List.append_nil, List.getLast?_append_of_ne_nil _ hne] at hlast
          exact List.mem_of_getLast? hlast
        | escape n w => simp [Begun.flush] at hlast
        | quoted q e w => simp [Begun.flush] at hlast
      rcases Begun.exposes_cases (Begun.nothing.after u) d with hnil | ⟨hself, hesc, hquote⟩
      · rw [hnil] at hadds
        cases hadds
      · rw [hself, List.mem_singleton] at hadds
        subst hadds
        refine ⟨u, c, rfl, ?_, hc⟩
        obtain ⟨-, -, -, -, hzero⟩ := not_isBlank_of_combinator hc
        rw [exposed_concat, hself, balance_append, hzero] at h
        have hagrees := Begun.agrees_after u
        have hdepth : (start.after u).depth = 0 := by
          rw [depth_after_start]
          omega
        rw [eq_deeper_start (hagrees.escaped.trans hesc) (hagrees.quote.trans hquote), hdepth]
        rfl

namespace Selector

/-- What is asked of a text without blanks at its ends. -/
structure Readable (t : List Char) : Prop where
  commas : openCommas (exposed t) = 0
  balanced : balance (exposed t) = 0
  strings : (Begun.nothing.after t).quote = none
  ne_nil : t ≠ []
  last : ∀ c, (lexemes t).getLast? = some (.plain c) → Combinator.ofChar? c = none

theorem exists_read_iff (s : List Char) : (∃ sel, read s = .ok sel) ↔ Readable (Text.trim s) := by
  have hstate : ∀ {r}, (Text.trim s).foldlM Reader.step Reader.start = .ok r →
      r.depth = balance (exposed (Text.trim s)) ∧
        r.quote = (Begun.nothing.after (Text.trim s)).quote := by
    intro r hrun
    have hst := (Reader.progress_of_any_run hrun).state
    rw [← depth_after_start, ← (Begun.agrees_after _).quote, hst]
    exact ⟨rfl, rfl⟩
  constructor
  · rintro ⟨sel, h⟩
    obtain ⟨r, hrun, hfinish⟩ := read_eq_ok h
    obtain ⟨-, hdepth, hquote, hne⟩ := Reader.finish_eq_ok hfinish
    obtain ⟨hbalance, hstrings⟩ := hstate hrun
    have hbalanced : balance (exposed (Text.trim s)) = 0 := hbalance.symm.trans hdepth
    have hends := fun hnil => hne ((Reader.compound_eq_nil_iff hrun (Text.trimmed_trim s)).mpr hnil)
    refine ⟨uncut_iff.mp (Reader.exists_run_iff.mp ⟨r, hrun⟩), hbalanced, hstrings.symm.trans hquote,
      fun hnil => hends (.inl hnil), fun c hc => ?_⟩
    rw [← Option.not_isSome_iff_eq_none]
    exact fun hsome => hends (.inr ((ends_in_combinator_iff hbalanced).mpr ⟨c, hc, hsome⟩))
  · intro h
    obtain ⟨r, hrun, hread⟩ := read_eq_finish (uncut_iff.mpr h.commas)
    obtain ⟨hdepth, hquote⟩ := hstate hrun
    have hne : r.compound ≠ [] := by
      rw [Ne, Reader.compound_eq_nil_iff hrun (Text.trimmed_trim s), ends_in_combinator_iff h.balanced]
      rintro (hnil | ⟨c, hc, hsome⟩)
      · exact h.ne_nil hnil
      · rw [h.last c hc] at hsome
        cases hsome
    refine ⟨⟨r.flushed⟩, ?_⟩
    rw [hread, Reader.finish, if_neg (by simp [hdepth, h.balanced]), if_neg (by simp [hquote, h.strings]),
      if_neg (by simpa using hne)]

/-- Whether `t` is the text `s` without a combinator in the open that another one stands behind, and
without the spaces between them. -/
def DropsCombinator (s t : List Char) : Prop :=
  ∃ u c v d w, s = u ++ (c :: v ++ d :: w) ∧ t = u ++ d :: w ∧ start.after u = start ∧
    (Combinator.ofChar? c).isSome = true ∧ (Combinator.ofChar? d).isSome = true ∧
    ∀ x ∈ v, isSelectorSpace x = true

/-- Whether no combinator in the open stands before another one. -/
def SingleCombinators (s : List Char) : Prop := ∀ t, ¬ DropsCombinator s t

theorem read_of_dropsCombinator {s t : List Char} (h : DropsCombinator s t) : read t = read s := by
  obtain ⟨u, c, v, d, w, rfl, rfl, hu, hc, hd, hv⟩ := h
  have hd' := Text.trimEnd_cons (not_isBlank_of_combinator hd).1 w
  have hboth : Text.trim (u ++ (c :: v ++ d :: w)) =
      u.dropWhile Text.isBlank ++ (c :: v ++ d :: Text.trimEnd w) := by
    rw [List.cons_append, Text.trim_append_cons (not_isBlank_of_combinator hc).1,
      Text.trimEnd_append (by rw [hd']; simp), hd']
    rfl
  have hback : start.after (u.dropWhile Text.isBlank) = start := by
    have hblanks : start.after (u.takeWhile Text.isBlank) = start :=
      after_blanks fun _ hx => List.mem_takeWhile_imp hx
    rwa [← List.takeWhile_append_dropWhile (p := Text.isBlank) (l := u), after_append, hblanks] at hu
  rw [read, read, hboth, Text.trim_append_cons (not_isBlank_of_combinator hd).1, List.foldlM_append,
    List.foldlM_append]
  cases hrun : (u.dropWhile Text.isBlank).foldlM Reader.step Reader.start with
  | error f => rfl
  | ok r =>
    have hst : r.listState = start := (Reader.progress_of_any_run hrun).state.symm.trans hback
    have hrest := Reader.run_combinators hst hc hd hv (Text.trimEnd w)
    show _ = ((c :: v ++ d :: Text.trimEnd w).foldlM Reader.step r >>= _)
    rw [hrest]
    rfl

theorem exists_singleCombinators (s : List Char) :
    ∃ t, SingleCombinators t ∧ Relation.ReflTransGen DropsCombinator s t ∧ read t = read s := by
  induction hn : s.length using Nat.strong_induction_on generalizing s with
  | _ n ih =>
    by_cases hsingle : SingleCombinators s
    · exact ⟨s, hsingle, .refl, rfl⟩
    · obtain ⟨s', hdrop⟩ := not_forall_not.mp hsingle
      have hlength : s'.length < n := by
        obtain ⟨u, c, v, d, w, rfl, rfl, -⟩ := hdrop
        simp only [List.length_append, List.length_cons] at hn ⊢
        omega
      obtain ⟨t, ht, hsteps, hread⟩ := ih _ hlength s' rfl
      exact ⟨t, ht, .head hdrop hsteps, hread.trans (read_of_dropsCombinator hdrop)⟩

/-- **What is accepted as a selector.** In an accepted text there are as many openers as closers, and it is
nested if every closer closes the last open bracket and is of its kind; where all brackets are of one kind,
if no beginning of the text closes more than it opens. It may have several combinators between two
compounds, and reads like a text that has single ones. -/
theorem parse_accepts (s : String) :
    ((∃ sel, parse s = .ok sel) ↔ Readable (Text.trim s.toList)) ∧
      ((∃ sel, parse s = .ok sel) →
        (WellNested (exposed s.toList) ↔ (nest? [] (exposed s.toList)).isSome = true) ∧
        (OneKind (exposed s.toList) →
          (WellNested (exposed s.toList) ↔ ∀ u, u <+: exposed s.toList → 0 ≤ balance u))) ∧
      ∃ t, SingleCombinators t ∧ Relation.ReflTransGen DropsCombinator s.toList t ∧
        read t = read s.toList := by
  have hparse : (∃ sel, parse s = .ok sel) ↔ Readable (Text.trim s.toList) := by
    rw [← exists_read_iff]
    refine exists_congr fun sel => ⟨fun h => ?_, fun h => ?_⟩
    · exact read_of_parse (by rwa [String.ofList_toList])
    · rw [parse, h]
  refine ⟨hparse, fun haccept => ?_, exists_singleCombinators s.toList⟩
  have hbalance : balance (exposed s.toList) = 0 := by
    rw [← balance_exposed_trim]
    exact (hparse.mp haccept).balanced
  exact ⟨wellNested_iff_isSome hbalance, wellNested_iff_of_oneKind hbalance⟩

/-- Round brackets inside each other, one of them in a string and one behind a backslash. -/
theorem parse_accepts_roundBrackets :
    (∃ sel, parse "a:not(b:is(c, '('), \\)) > d" = .ok sel) ∧
      OneKind (exposed "a:not(b:is(c, '('), \\)) > d".toList) ∧
      ∀ u, u <+: exposed "a:not(b:is(c, '('), \\)) > d".toList → 0 ≤ balance u := by
  have hparse : ∃ sel, parse "a:not(b:is(c, '('), \\)) > d" = .ok sel :=
    ⟨⟨[⟨none, "a:not(b:is(c, '('), \\))".toList⟩, ⟨some .child, ['d']⟩]⟩, by decide⟩
  have hkind : (exposed "a:not(b:is(c, '('), \\)) > d".toList).all (fun c =>
      decide ((isOpener c = true → c = '(') ∧ (isCloser c = true → c = ')'))) = true := by decide
  have hone : OneKind (exposed "a:not(b:is(c, '('), \\)) > d".toList) :=
    ⟨'(', ')', by decide, fun c hc => of_decide_eq_true (List.all_eq_true.mp hkind c hc)⟩
  exact ⟨hparse, hone, (((parse_accepts _).2.1 hparse).2 hone).mp (by decide)⟩

/-- A bracket that is closed before it is opened, one that is closed by another kind, and a combinator behind
another one are accepted; a combinator without a compound behind it at the end is not. -/
theorem parse_accepts_illNested :
    (∃ sel, parse "a)[b" = .ok sel) ∧ ¬ WellNested (exposed "a)[b".toList) ∧
      (∃ sel, parse "a([)]" = .ok sel) ∧ ¬ WellNested (exposed "a([)]".toList) ∧
      (∃ sel, parse "a > + b" = .ok sel) ∧ ¬ SingleCombinators "a > + b".toList ∧
      parse "a >" = .error ⟨"a >", .missingCompound⟩ := by
  refine ⟨⟨⟨[⟨none, "a)[b".toList⟩]⟩, by decide⟩, by decide, ⟨⟨[⟨none, "a([)]".toList⟩]⟩, by decide⟩,
    by decide, ⟨⟨[⟨none, ['a']⟩, ⟨some .nextSibling, ['b']⟩]⟩, by decide⟩, fun h => ?_, by decide⟩
  exact h "a + b".toList ⟨['a', ' '], '>', [' '], '+', [' ', 'b'], rfl, rfl, rfl, rfl, rfl,
    List.forall_mem_singleton.mpr rfl⟩

end Selector
end UtilityCss
