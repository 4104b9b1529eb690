import UtilityCss.Proofs.Selector.AnchorLexemes
import UtilityCss.Proofs.Selector.TopLevel

/-!
# The strings of a template

A template keeps its strings when it is resolved: those of a member occur in the same order in each
selector that comes from it. But anchors are looked for in strings too, so each string occurs with its own
anchors replaced, and is kept as it is only if it has none (`strings_resolve`).

For the splitter of lists and the reader a string is one piece: the strings of a text are those of its
members (`strings_eq_flatMap_members`) and those of the compounds read from it (`strings_of_read`). The
scanner for anchors treats them like any other text.
-/

namespace UtilityCss

open Anchor ListState

/-! ## Strings in order -/

/-- Whether texts occur in another one, each of them behind those before it. -/
def OccurInOrder : List (List Char) → List Char → Prop
  | [], _ => True
  | q :: qs, t => ∃ u v, t = u ++ (q ++ v) ∧ OccurInOrder qs v

theorem occurInOrder_append_left {qs : List (List Char)} {t : List Char} (u : List Char)
    (h : OccurInOrder qs t) : OccurInOrder qs (u ++ t) := by
  cases qs with
  | nil => trivial
  | cons q qs =>
    obtain ⟨v, w, rfl, hrest⟩ := h
    exact ⟨u ++ v, w, by simp, hrest⟩

theorem OccurInOrder.append {qs rs : List (List Char)} {s t : List Char} (hs : OccurInOrder qs s)
    (ht : OccurInOrder rs t) : OccurInOrder (qs ++ rs) (s ++ t) := by
  induction qs generalizing s with
  | nil => exact occurInOrder_append_left s ht
  | cons q qs ih =>
    obtain ⟨u, v, rfl, hrest⟩ := hs
    exact ⟨u, v ++ t, by simp, ih hrest⟩

theorem occurInOrder_singleton (q : List Char) : OccurInOrder [q] q := ⟨[], [], by simp, trivial⟩

theorem occurInOrder_replace (r s : List Char) :
    OccurInOrder ((strings s).map (replace r)) (replace r s) := by
  rw [(anchors_of_lexemes r s).1, strings]
  generalize lexemes s = ls
  induction ls with
  | nil => trivial
  | cons l ls ih =>
    rw [List.flatMap_cons]
    cases l with
    | plain c => exact occurInOrder_append_left _ ih
    | escape t => exact occurInOrder_append_left _ ih
    | quoted q => exact (occurInOrder_singleton _).append ih

/-! ## Strings in members and compounds -/

namespace Begun

/-- The string that has been begun. -/
def held : Begun → List Char
  | quoted _ _ t => t
  | _ => []

theorem next_fresh (c : Char) : (fresh c).1.filterMap Lexeme.quoted? = [] ∧
    (fresh c).2.held = if isQuote c = true then [c] else [] := by
  by_cases hc : c = '\\'
  · subst hc
    exact ⟨rfl, rfl⟩
  · by_cases hq : isQuote c = true
    · simp [fresh, hc, hq, held]
    · simp [fresh, hc, hq, held]

theorem next_of_quote_eq_none {b : Begun} (h : b.quote = none) (c : Char) :
    (b.next c).1.filterMap Lexeme.quoted? = [] ∧
      (b.next c).2.held = if b.escaped = false ∧ isQuote c = true then [c] else [] := by
  match b with
  | nothing => simpa only [next, escaped, true_and] using next_fresh c
  | escape 0 t => by_cases hc : isHexDigit c = true <;> simp [next, hc, held, escaped]
  | escape (n + 1) t =>
    by_cases h1 : (n + 1 < 6 && isHexDigit c) = true
    · have hq := isQuote_of_escapes (.inl (Bool.and_eq_true_iff.mp h1).2)
      rw [next, if_pos h1]
      simp [held, hq]
    · by_cases h2 : c = ' '
      · rw [next, if_neg h1, if_pos h2]
        simp [held, isQuote_of_escapes (.inr h2)]
      · have hesc : (escape (n + 1) t).escaped = false := rfl
        simp only [next, if_neg h1, if_neg h2, hesc, true_and, Lexeme.filterMap_quoted?_escape]
        exact next_fresh c
  | quoted q e t => cases h

theorem quote_eq_none_of_held {b : Begun} (h : b.quote = none) : b.held = [] ∧
    b.flush.filterMap Lexeme.quoted? = [] := by
  cases b with
  | nothing => exact ⟨rfl, rfl⟩
  | escape n t => exact ⟨rfl, rfl⟩
  | quoted q e t => cases h

theorem next_of_held_eq {b b' : Begun} {st : ListState} (h : b.Agrees st) (h' : b'.Agrees st)
    (hheld : b.held = b'.held) (c : Char) :
    (b.next c).1.filterMap Lexeme.quoted? = (b'.next c).1.filterMap Lexeme.quoted? ∧
      (b.next c).2.held = (b'.next c).2.held := by
  have hesc : b.escaped = b'.escaped := h.escaped.symm.trans h'.escaped
  have hquote : b.quote = b'.quote := h.quote.symm.trans h'.quote
  cases hb : b.quote with
  | none =>
    obtain ⟨h1, h2⟩ := next_of_quote_eq_none hb c
    obtain ⟨h1', h2'⟩ := next_of_quote_eq_none (hquote ▸ hb) c
    rw [h1, h1', h2, h2', hesc]
    exact ⟨rfl, rfl⟩
  | some q =>
    have hsame : b = b' := by
      cases b with
      | nothing => cases hb
      | escape n t => cases hb
      | quoted p e t =>
        cases b' with
        | nothing => cases hquote
        | escape n w => cases hquote
        | quoted p' e' w =>
          obtain rfl : p = p' := Option.some.inj hquote
          obtain rfl : e = e' := hesc
          obtain rfl : t = w := hheld
          rfl
    rw [hsame]
    exact ⟨rfl, rfl⟩

theorem quote_next {b : Begun} (h : b.quote = none) {c : Char} (hc : isQuote c = false) :
    (b.next c).2.quote = none := by
  have hagrees : b.Agrees ⟨b.escaped, none, 0⟩ := ⟨rfl, h.symm⟩
  rw [← (hagrees.next c).agrees.quote, ListState.next]
  simp only [hc, Bool.false_eq_true, if_false]
  split_ifs <;> rfl

theorem lexemesFrom_blanks {b : Begun} (h : b.quote = none) {s : List Char}
    (hs : ∀ c ∈ s, Text.isBlank c = true) : (b.lexemesFrom s).filterMap Lexeme.quoted? = [] := by
  induction s generalizing b with
  | nil => exact (quote_eq_none_of_held h).2
  | cons c s ih =>
    have hq : isQuote c = false := isQuote_of_isBlank (hs c (by simp))
    rw [lexemesFrom_cons, List.filterMap_append, (next_of_quote_eq_none h c).1,
      ih (quote_next h hq) fun d hd => hs d (by simp [hd])]
    rfl

end Begun

theorem strings_eq {s : List Char} (h : (Begun.nothing.after s).quote = none) :
    strings s = (Begun.nothing.emitted s).filterMap Lexeme.quoted? := by
  rw [strings, lexemes, Begun.lexemesFrom, List.filterMap_append, (Begun.quote_eq_none_of_held h).2,
    List.append_nil]

theorem strings_trim {s : List Char} (h : (Begun.nothing.after (Text.trim s)).quote = none) :
    strings (Text.trim s) = strings s := by
  obtain ⟨l, r, hl, hr, hs⟩ := Text.exists_eq_append_trim s
  have hleft : strings l = [] := Begun.lexemesFrom_blanks rfl hl
  have hright := Begun.lexemesFrom_blanks h hr
  conv_rhs => rw [hs, strings, lexemes_append (Begun.after_blanks hl), List.filterMap_append, lexemes,
    lexemes, Begun.lexemesFrom_append, List.filterMap_append, hright, List.append_nil, ← strings_eq h]
  rw [show (Begun.nothing.lexemesFrom l).filterMap Lexeme.quoted? = [] from hleft]
  rfl

theorem strings_of_splitBy {b : Begun} {st : ListState} (h : b.Agrees st) {s m : List Char}
    {ms : List (List Char)} (hsplit : Text.splitBy ListState.next separates st s = m :: ms) :
    (b.lexemesFrom s).filterMap Lexeme.quoted? =
      (b.lexemesFrom m).filterMap Lexeme.quoted? ++ ms.flatMap strings := by
  induction s generalizing b st m ms with
  | nil =>
    obtain ⟨rfl, rfl⟩ := List.cons.inj hsplit
    simp
  | cons c s ih =>
    rcases Selector.splitBy_cons_cases hsplit with ⟨rfl, rfl, rfl, hrest⟩ | ⟨n, hrest, rfl⟩
    · have hne : Text.splitBy ListState.next separates start s ≠ [] := Text.splitBy_ne_nil _ _
      obtain ⟨n, ns, hns⟩ := List.exists_cons_of_ne_nil hne
      have hflush := (Begun.quote_eq_none_of_held h.quote.symm).2
      have hnil : (b.lexemesFrom []).filterMap Lexeme.quoted? = [] := hflush
      rw [hns] at hrest
      subst hrest
      rw [Begun.lexemesFrom_cons, Begun.next_of_agrees h rfl rfl (by decide), List.filterMap_append,
        List.filterMap_append, hflush, hnil]
      exact ih Begun.agrees_start hns
    · rw [Begun.lexemesFrom_cons, Begun.lexemesFrom_cons, List.filterMap_append, List.filterMap_append,
        ih (h.next c).agrees hrest, List.append_assoc]

theorem strings_eq_flatMap_members (s : List Char) : strings s = (Selector.members s).flatMap strings := by
  have hne : Selector.members s ≠ [] := Text.splitBy_ne_nil _ _
  obtain ⟨m, ms, hms⟩ := List.exists_cons_of_ne_nil hne
  rw [hms, List.flatMap_cons]
  exact strings_of_splitBy Begun.agrees_start hms

namespace Reader

/-- What is known of the strings behind a text: they are those of the parts, and the one that has been
begun in the text has been begun in the compound. -/
structure Strung (u : List Char) (r : Reader) : Prop where
  progress : Progress (fun _ _ => True) u r
  parts : (Begun.nothing.emitted u).filterMap Lexeme.quoted? =
    r.parts.flatMap (fun p => strings p.compound) ++
      (Begun.nothing.emitted r.compound).filterMap Lexeme.quoted?
  held : (Begun.nothing.after u).held = (Begun.nothing.after r.compound).held

theorem strung_start : Strung [] start := ⟨progress_start, rfl, rfl⟩

theorem Strung.agrees {u : List Char} {r : Reader} (h : Strung u r) :
    (Begun.nothing.after u).Agrees r.listState ∧ (Begun.nothing.after r.compound).Agrees r.listState := by
  have htext := Begun.agrees_after u
  have hcompound := Begun.agrees_after r.compound
  rw [h.progress.state] at htext
  rw [h.progress.compoundState] at hcompound
  exact ⟨htext, hcompound⟩

theorem Strung.flushed {u : List Char} {r : Reader} (h : Strung u r) (hquote : r.quote = none) :
    (Begun.nothing.emitted u).filterMap Lexeme.quoted? =
      r.flushed.flatMap fun p => strings p.compound := by
  have hcompound : strings r.compound =
      (Begun.nothing.emitted r.compound).filterMap Lexeme.quoted? :=
    strings_eq (h.agrees.2.quote.symm.trans hquote)
  rw [h.parts, ← hcompound]
  by_cases hc : r.compound = []
  · rw [flushed_of_eq hc, hc]
    exact List.append_nil _
  · rw [flushed_of_ne hc, List.flatMap_append]
    simp

theorem Strung.step {u : List Char} {r r' : Reader} {c : Char} (h : Strung u r)
    (hr : r.step c = .ok r') : Strung (u ++ [c]) r' := by
  obtain ⟨htext, hcompound⟩ := h.agrees
  have hprogress := h.progress.step trivial hr
  rcases step_cases h.progress.isQuote hr with ⟨hst, hb, rfl⟩ | hp
  · -- a break leaves no string open, and ends none
    have hquote : r.quote = none := congrArg ListState.quote hst
    have hnone : (Begun.nothing.after u).quote = none := htext.quote.symm.trans hquote
    have hafter : (Begun.nothing.after (u ++ [c])).quote = none := by
      rw [← (Begun.agrees_after _).quote, hprogress.state]
      exact hquote
    refine ⟨hprogress, ?_, (Begun.quote_eq_none_of_held hafter).1⟩
    rw [Begun.emitted_append, List.filterMap_append, Begun.emitted_cons, Begun.emitted_nil,
      List.append_nil, (Begun.next_of_quote_eq_none hnone c).1, h.flushed hquote]
    rfl
  · obtain ⟨hsame, hheld⟩ := Begun.next_of_held_eq htext hcompound h.held c
    refine ⟨hprogress, ?_, ?_⟩
    · rw [hp.parts, hp.compound, Begun.emitted_append, Begun.emitted_append, List.filterMap_append,
        List.filterMap_append, h.parts, List.append_assoc, Begun.emitted_cons, Begun.emitted_cons,
        Begun.emitted_nil, Begun.emitted_nil, List.append_nil, List.append_nil, hsame]
    · rw [hp.compound, Begun.after_append, Begun.after_append]
      exact hheld

end Reader

namespace Selector

/-- The strings of a text are those of the compounds that are read from it. -/
theorem strings_of_read {s : List Char} {sel : Selector} (h : read s = .ok sel) :
    strings s = sel.parts.flatMap fun p => strings p.compound := by
  obtain ⟨r, hrun, hfinish⟩ := read_eq_ok h
  obtain ⟨rfl, -, hquote, hne⟩ := Reader.finish_eq_ok hfinish
  have hstrung : Reader.Strung (Text.trim s) r := by
    simpa using Reader.invariant (I := Reader.Strung) (fun _ _ _ _ => Reader.Strung.step)
      Reader.strung_start hrun
  have hflushed := hstrung.flushed hquote
  have hafter : (Begun.nothing.after (Text.trim s)).quote = none :=
    hstrung.agrees.1.quote.symm.trans hquote
  rw [Reader.flushed_of_ne hne] at hflushed
  rw [← strings_trim hafter, strings_eq hafter, hflushed]

/-! ## Strings in the selectors that are put together -/

/-- Whether texts occur in some others, one behind the other. -/
def OccurAmong (qs : List (List Char)) (ws : List (List Char)) : Prop :=
  ∃ qss, qs = qss.flatten ∧ List.Forall₂ OccurInOrder qss ws

theorem occurAmong_nil (ws : List (List Char)) : OccurAmong [] ws :=
  ⟨ws.map fun _ => [], by simp, by
    rw [List.forall₂_map_left_iff, List.forall₂_same]
    exact fun _ _ => trivial⟩

theorem OccurAmong.append {qs rs ws xs : List (List Char)} (h : OccurAmong qs ws)
    (h' : OccurAmong rs xs) : OccurAmong (qs ++ rs) (ws ++ xs) := by
  obtain ⟨qss, rfl, hq⟩ := h
  obtain ⟨rss, rfl, hr⟩ := h'
  exact ⟨qss ++ rss, by simp, List.rel_append hq hr⟩

theorem occurAmong_singleton {qs : List (List Char)} {w : List Char} (h : OccurInOrder qs w) :
    OccurAmong qs [w] := ⟨[qs], by simp, .cons h .nil⟩

theorem occurAmong_flatMap {α : Type} {f : α → List (List Char)} {g : α → List (List Char)} {xs : List α}
    (h : ∀ x ∈ xs, OccurAmong (f x) (g x)) : OccurAmong (xs.flatMap f) (xs.flatMap g) := by
  induction xs with
  | nil => exact occurAmong_nil []
  | cons x xs ih =>
    rw [List.flatMap_cons, List.flatMap_cons]
    exact (h x (by simp)).append (ih fun y hy => h y (by simp [hy]))

theorem OccurAmong.text {qs : List (List Char)} {s : Selector}
    (h : OccurAmong qs (s.parts.map Part.compound)) : OccurInOrder qs s.text := by
  obtain ⟨qss, rfl, hq⟩ := h
  have hrest : ∀ {qss : List (List (List Char))} {ps : List Part},
      List.Forall₂ OccurInOrder qss (ps.map Part.compound) →
        OccurInOrder qss.flatten (ps.flatMap Part.followingText) := by
    intro qss ps
    induction ps generalizing qss with
    | nil =>
      intro h
      cases h
      trivial
    | cons p ps ih =>
      intro h
      cases h with
      | cons hp hps =>
        rw [List.flatten_cons, List.flatMap_cons]
        exact (occurInOrder_append_left _ hp).append (ih hps)
  unfold Selector.text
  split
  · next hnil =>
    rw [hnil] at hq
    cases hq
    trivial
  · next p ps hp =>
    rw [hp] at hq
    cases hq with
    | cons hfirst hps =>
      refine OccurInOrder.append ?_ (hrest hps)
      unfold Part.leadingText
      split
      · exact hfirst
      · exact occurInOrder_append_left _ (occurInOrder_append_left [' '] hfirst)

theorem map_replace_strings {r w : List Char} (h : occurs w = false) :
    OccurInOrder ((strings w).map (replace r)) w := by
  have hreplace := occurInOrder_replace r w
  rwa [replace_of_not_occurs h] at hreplace

theorem occurAmong_expandPart {o : Selector} (ho : o.parts ≠ []) (p : Part) :
    OccurAmong ((strings p.compound).map (replace o.inlineText))
      ((expandPart o p).map Part.compound) := by
  unfold expandPart
  split
  · split
    · next t ht =>
      -- a leading anchor is no string, and the text behind it goes to the last part
      obtain ⟨hcomp, hnone⟩ := eq_cons_and_not_occurs_of_suffix? ht
      have hstrings : strings p.compound = strings t := by rw [hcomp]; rfl
      rw [← occurs_eq_occursFrom] at hnone
      obtain ⟨ps, last, hps⟩ := (List.eq_nil_or_concat' o.parts).resolve_left ho
      rw [hstrings, hps, map_compound_opened, ← List.nil_append (List.map _ (strings t))]
      exact (occurAmong_nil _).append
        (occurAmong_singleton (occurInOrder_append_left _ (map_replace_strings hnone)))
    · exact occurAmong_singleton (occurInOrder_replace _ _)
  · next h => exact occurAmong_singleton (map_replace_strings (by simpa [Part.hasAnchor] using h))

theorem occurAmong_substitute {i o : Selector} (ho : o.parts ≠ []) :
    OccurAmong ((i.parts.flatMap fun p => strings p.compound).map (replace o.inlineText))
      ((i.substitute o).parts.map Part.compound) := by
  rw [List.map_flatMap]
  unfold Selector.substitute
  split
  · rw [List.map_flatMap]
    exact occurAmong_flatMap fun p _ => occurAmong_expandPart ho p
  · next h =>
    have hnone : ∀ p ∈ i.parts, occurs p.compound = false := by
      intro p hp
      rw [Bool.eq_false_iff]
      exact fun hocc => h (hasAnchor_iff.mpr ⟨p, hp, hocc⟩)
    rw [List.map_append, map_compound_withLead, ← List.nil_append (List.flatMap _ i.parts)]
    refine (occurAmong_nil _).append ?_
    rw [← List.flatMap_singleton' (List.map _ i.parts), List.flatMap_map]
    exact occurAmong_flatMap fun p hp => occurAmong_singleton (map_replace_strings (hnone p hp))

/-- What a text is put in for the anchors of a template that is kept as it is. -/
def verbatimText (parent : String) : List Char :=
  (if isCompoundText parent then parent else ":is(" ++ parent ++ ")").toList

theorem occurInOrder_resolveVerbatim (parent template : String) :
    OccurInOrder ((strings template.toList).map (replace (verbatimText parent)))
      (resolveVerbatim parent template).toList := by
  unfold resolveVerbatim
  split
  · rw [String.toList_ofList]
    exact occurInOrder_replace _ _
  · next h =>
    have hnone : occurs template.toList = false := by simpa using h
    rw [String.toList_append, String.toList_append]
    exact occurInOrder_append_left _ (map_replace_strings hnone)

/-- **The strings of a template are kept in order, each with its anchors replaced.** A string that has no
anchor is kept as it is; an anchor in a string counts like any other. -/
theorem strings_resolve {parent template : String} {os is : List Selector}
    (hp : parseList parent = .ok os) (ht : parseList template = .ok is) :
    resolve parent template = String.ofList (productText os is) ∧
      (∀ t, compose parent template = some t → t = String.ofList (productText os is)) ∧
      strings template.toList = (members template.toList).flatMap strings ∧
      List.Forall₂ (fun m i => ∀ o ∈ os,
          OccurInOrder ((strings m).map (replace o.inlineText)) (i.substitute o).text)
        (members template.toList) is ∧
      OccurInOrder ((strings template.toList).map (replace (verbatimText parent)))
        (resolveVerbatim parent template).toList ∧
      (occurs template.toList = true ↔ '&' ∈ exposed template.toList ∨
        ∃ q ∈ strings template.toList, occurs q = true) ∧
      ∀ q r, replace r q = q ↔ occurs q = false ∨ r = ['&'] := by
  have hresolve : resolve parent template = String.ofList (productText os is) := by
    rw [resolve, hp, ht]
  have hcompose : ∀ t, compose parent template = some t → t = String.ofList (productText os is) := by
    intro t h
    rw [compose, hp, ht] at h
    split at h
    · exact (Option.some.inj h).symm
    · cases h
  have hmembers : List.Forall₂ (fun m i => ∀ o ∈ os,
      OccurInOrder ((strings m).map (replace o.inlineText)) (i.substitute o).text)
      (members template.toList) is := by
    refine (forall₂_of_parseList ht).imp fun m i hread o ho => ?_
    obtain ⟨n, -, hn⟩ := (mem_of_parseList hp).2 o ho
    have hne : o.parts ≠ [] := parts_ne_nil_of_parse (parse_of_read hn)
    rw [strings_of_read hread]
    exact (occurAmong_substitute hne).text
  exact ⟨hresolve, hcompose, strings_eq_flatMap_members _, hmembers,
    occurInOrder_resolveVerbatim parent template, occurs_iff_exposed, fun _ _ => replace_eq_self_iff⟩

/-- A string with a comma is kept below a list; a string with an ampersand takes the text in. -/
theorem strings_resolve_comma :
    ∃ os is, parseList ".a, .b > .c" = .ok os ∧
      parseList "&[title='x, y'] i, :is(&)[alt=\"&\\\"\"]" = .ok is ∧
      strings "&[title='x, y'] i, :is(&)[alt=\"&\\\"\"]".toList =
        ["'x, y'".toList, "\"&\\\"\"".toList] ∧
      OccurInOrder ["'x, y'".toList, "\":is(.a, .b > .c)\\\"\"".toList]
        (resolveVerbatim ".a, .b > .c" "&[title='x, y'] i, :is(&)[alt=\"&\\\"\"]").toList ∧
      OccurInOrder ["'x, y'".toList] ((⟨[⟨none, "&[title='x, y']".toList⟩,
        ⟨some .descendant, ['i']⟩]⟩ : Selector).substitute
          ⟨[⟨none, ".b".toList⟩, ⟨some .child, ".c".toList⟩]⟩).text := by
  let os : List Selector := [⟨[⟨none, ".a".toList⟩]⟩, ⟨[⟨none, ".b".toList⟩, ⟨some .child, ".c".toList⟩]⟩]
  let is : List Selector := [⟨[⟨none, "&[title='x, y']".toList⟩, ⟨some .descendant, ['i']⟩]⟩,
    ⟨[⟨none, ":is(&)[alt=\"&\\\"\"]".toList⟩]⟩]
  have hp : parseList ".a, .b > .c" = .ok os := by decide
  have ht : parseList "&[title='x, y'] i, :is(&)[alt=\"&\\\"\"]" = .ok is := by decide
  have hstrings : (strings "&[title='x, y'] i, :is(&)[alt=\"&\\\"\"]".toList).map
      (replace (verbatimText ".a, .b > .c")) =
        ["'x, y'".toList, "\":is(.a, .b > .c)\\\"\"".toList] := by decide
  have hmembers : members "&[title='x, y'] i, :is(&)[alt=\"&\\\"\"]".toList =
      ["&[title='x, y'] i".toList, " :is(&)[alt=\"&\\\"\"]".toList] := by decide
  obtain ⟨-, -, -, hresolved, hverbatim, -⟩ := strings_resolve hp ht
  rw [hstrings] at hverbatim
  rw [hmembers] at hresolved
  have hfirst := (List.forall₂_cons.mp hresolved).1
  exact ⟨os, is, hp, ht, by decide, hverbatim, hfirst os[1] (by decide)⟩

/-- The ampersand in a string is taken for an anchor: the string is changed, and the template, which has no
other one, is not put behind the selector around it. -/
theorem strings_resolve_ampersand :
    (parseList ".c").isOk = true ∧ (parseList "[title=\"a&b\"]").isOk = true ∧
      strings "[title=\"a&b\"]".toList = ["\"a&b\"".toList] ∧ '&' ∉ exposed "[title=\"a&b\"]".toList ∧
      occurs "[title=\"a&b\"]".toList = true ∧
      resolve ".c" "[title=\"a&b\"]" = "[title=\"a.cb\"]" ∧
      resolveVerbatim ".c" "[title=\"a&b\"]" = "[title=\"a.cb\"]" ∧
      ¬ OccurInOrder ["\"a&b\"".toList] "[title=\"a.cb\"]".toList := by
  refine ⟨by decide, by decide, by decide, by decide, by decide, by decide, by decide, ?_⟩
  rintro ⟨u, v, h, -⟩
  have hmem : '&' ∈ "[title=\"a.cb\"]".toList := by
    rw [h]
    exact List.mem_append_right _ (List.mem_append_left _ (by decide))
  revert hmem
  decide

end Selector
end UtilityCss
