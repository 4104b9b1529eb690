import Mathlib.Data.List.Forall2
import UtilityCss.Proofs.Selector.RoundTrip

/-!
# Descendants of a list

A template without an anchor picks descendants of the selector around it. Resolved selector by selector,
it goes behind every member of a list; kept as it is, it goes behind the text of the list, and so behind
the last member alone. Both texts are read back here: they agree if and only if the list has one member
(`parseList_resolveVerbatim_eq_iff`).

A text behind a selector and a space is read as it is from the start, with the parts of the selector
before its own (`Reader.Follows`). That holds as long as the selector does not end in an open escape,
which would take the space.
-/

namespace UtilityCss

open Anchor ListState

namespace Selector

theorem withLead_concat (k : Combinator) (ps : List Part) (p : Part) :
    withLead k (ps ++ [p]) = withLead k ps ++
      [{ p with combinator := if ps = [] then p.combinator.or (some k) else p.combinator }] := by
  cases ps <;> simp [withLead]

end Selector

namespace Reader

open Selector

/-! ## Reading behind other parts -/

/-- A reader `r'` in the state that `r` is in, but for parts `ps` before all others. The first part of `r`
is a descendant there, unless it has a combinator. -/
structure Follows (ps : List Part) (r r' : Reader) : Prop where
  parts : r'.parts = ps ++ withLead .descendant r.parts
  compound : r'.compound = r.compound
  lead : r.compound ≠ [] →
    r'.lead = if r.parts = [] then r.lead.or (some .descendant) else r.lead
  pending : r'.pending = if r.flushed = [] then r.pending.or (some .descendant) else r.pending
  depth : r'.depth = r.depth
  quote : r'.quote = r.quote
  escape : r'.escape = r.escape

namespace Follows

variable {ps : List Part} {r r' : Reader}

theorem flushed (h : Follows ps r r') : r'.flushed = ps ++ withLead .descendant r.flushed := by
  by_cases hc : r.compound = []
  · rw [flushed_of_eq hc, flushed_of_eq (h.compound.trans hc), h.parts]
  · have hc' : r'.compound ≠ [] := h.compound ▸ hc
    rw [flushed_of_ne hc, flushed_of_ne hc', h.parts, h.compound, h.lead hc, withLead_concat,
      List.append_assoc]

theorem atTop (h : Follows ps r r') : r'.atTop = r.atTop := by
  rw [Reader.atTop, Reader.atTop, h.depth, h.quote]

theorem withState (h : Follows ps r r') (depth : Int) (quote : Option Char) (escape : Escape) :
    Follows ps { r with depth := depth, quote := quote, escape := escape }
      { r' with depth := depth, quote := quote, escape := escape } :=
  ⟨h.parts, h.compound, h.lead, h.pending, rfl, rfl, rfl⟩

theorem withEscape (h : Follows ps r r') (escape : Escape) :
    Follows ps { r with escape := escape } { r' with escape := escape } :=
  ⟨h.parts, h.compound, h.lead, h.pending, h.depth, h.quote, rfl⟩

theorem put (h : Follows ps r r') (c : Char) : Follows ps (r.put c) (r'.put c) := by
  by_cases hc : r.compound = []
  · have hc' : r'.compound = [] := h.compound.trans hc
    have hput : r.put c = { r with compound := [c], lead := r.pending, pending := none } := by
      simp [Reader.put, hc]
    have hput' : r'.put c = { r' with compound := [c], lead := r'.pending, pending := none } := by
      simp [Reader.put, hc']
    have hpending := h.pending
    rw [flushed_of_eq hc] at hpending
    rw [hput, hput']
    exact ⟨h.parts, rfl, fun _ => hpending, by simp [Reader.flushed], h.depth, h.quote, h.escape⟩
  · have hc' : r'.compound ≠ [] := h.compound ▸ hc
    have hput : r.put c = { r with compound := r.compound ++ [c] } := by simp [Reader.put, hc]
    have hput' : r'.put c = { r' with compound := r'.compound ++ [c] } := by simp [Reader.put, hc']
    have hpending : r'.pending = r.pending := by
      rw [h.pending, if_neg (by simp [flushed_of_ne hc])]
    rw [hput, hput']
    refine ⟨h.parts, by rw [h.compound], fun _ => h.lead hc, ?_, h.depth, h.quote, h.escape⟩
    simp [Reader.flushed, hpending]

theorem separate (h : Follows ps r r') (hps : ps ≠ []) (c : Char) :
    Follows ps (r.separate c) (r'.separate c) := by
  have hflushed' : r'.flushed ≠ [] := by simp [h.flushed, hps]
  refine ⟨h.flushed, rfl, fun hne => absurd rfl hne, ?_, h.depth, h.quote, h.escape⟩
  have hflushed : (r.separate c).flushed = r.flushed := rfl
  rw [hflushed]
  cases hk : Combinator.ofChar? c with
  | some k => simp [Reader.separate, hk]
  | none =>
    by_cases hnil : r.flushed = []
    · have hpending := h.pending
      rw [if_pos hnil] at hpending
      simp [Reader.separate, hk, hnil, hflushed', hpending]
    · have hpending := h.pending
      rw [if_neg hnil] at hpending
      simp [Reader.separate, hk, hnil, hflushed', hpending]

theorem track (h : Follows ps r r') (c : Char) : Follows ps (r.track c) (r'.track c) := by
  unfold Reader.track
  rw [h.quote, h.depth, h.escape]
  split
  · split
    · exact h.withState _ _ _
    · exact h
  · split_ifs
    · exact h.withState _ _ _
    · exact h.withState _ _ _
    · exact h.withState _ _ _
    · exact h

theorem plain (h : Follows ps r r') (hps : ps ≠ []) {c : Char} {r₁ : Reader}
    (hr : r.plain c = .ok r₁) : ∃ r₁', r'.plain c = .ok r₁' ∧ Follows ps r₁ r₁' := by
  unfold Reader.plain at hr ⊢
  rw [h.atTop]
  split_ifs at hr ⊢
  · obtain rfl := Except.ok.inj hr
    exact ⟨_, rfl, h.separate hps c⟩
  · obtain rfl := Except.ok.inj hr
    exact ⟨_, rfl, (h.put c).withEscape .opened⟩
  · obtain rfl := Except.ok.inj hr
    exact ⟨_, rfl, (h.put c).track c⟩

theorem step (h : Follows ps r r') (hps : ps ≠ []) {c : Char} {r₁ : Reader}
    (hr : r.step c = .ok r₁) : ∃ r₁', r'.step c = .ok r₁' ∧ Follows ps r₁ r₁' := by
  unfold Reader.step at hr ⊢
  rw [h.escape]
  split at hr
  · exact h.plain hps hr
  · obtain rfl := Except.ok.inj hr
    exact ⟨_, rfl, (h.put c).withEscape _⟩
  · split_ifs at hr ⊢
    · obtain rfl := Except.ok.inj hr
      exact ⟨_, rfl, (h.put c).withEscape _⟩
    · obtain rfl := Except.ok.inj hr
      exact ⟨_, rfl, (h.put c).withEscape _⟩
    · exact (h.withEscape .outside).plain hps hr

theorem run (h : Follows ps r r') (hps : ps ≠ []) {s : List Char} {r₁ : Reader}
    (hr : s.foldlM Reader.step r = .ok r₁) :
    ∃ r₁', s.foldlM Reader.step r' = .ok r₁' ∧ Follows ps r₁ r₁' := by
  induction s generalizing r r' with
  | nil =>
    obtain rfl := Except.ok.inj hr
    exact ⟨r', rfl, h⟩
  | cons c s ih =>
    rw [List.foldlM_cons] at hr ⊢
    cases hc : r.step c with
    | error e =>
      rw [hc] at hr
      cases hr
    | ok r₂ =>
      rw [hc] at hr
      obtain ⟨r₂', hc', hnext⟩ := h.step hps hc
      obtain ⟨r₁', hrun, hlast⟩ := ih hnext hr
      exact ⟨r₁', by rw [hc']; exact hrun, hlast⟩

theorem finish (h : Follows ps r r') {sel : Selector} (hr : r.finish = .ok sel) :
    r'.finish = .ok ⟨ps ++ withLead .descendant sel.parts⟩ := by
  unfold Reader.finish at hr ⊢
  rw [h.depth, h.quote, h.compound]
  split_ifs at hr ⊢
  obtain rfl := Except.ok.inj hr
  rw [h.flushed]

end Follows

theorem follows_start (ps : List Part) (p : Part) :
    Follows (ps ++ [p]) start (waiting (ps ++ [p]) p.combinator (some .descendant)) :=
  ⟨by simp [waiting, start, withLead], rfl, fun hne => absurd rfl hne, rfl, rfl, rfl, rfl⟩

end Reader

namespace Selector

open Reader

/-! ## Texts that others are put behind -/

/-- A text that reads as a selector, with neither a blank at its ends nor a lone backslash behind it. -/
structure Reads (t : List Char) (s : Selector) : Prop where
  read : read t = .ok s
  trimmed : Text.Trimmed t
  neutral : Neutral t

theorem Reads.exists_reader {t : List Char} {s : Selector} (h : Reads t s) :
    ∃ r, t.foldlM step Reader.start = .ok r ∧ r.finish = .ok s ∧ Regular r ∧
      r.listState = ListState.start ∧ r.compound ≠ [] ∧ s.parts = r.parts ++ [⟨r.lead, r.compound⟩] := by
  obtain ⟨r, hrun, hfinish⟩ := read_eq_ok h.read
  rw [Text.trim_of_trimmed h.trimmed] at hrun
  obtain ⟨hsel, hdepth, hquote, hne⟩ := finish_eq_ok hfinish
  have hescaped : r.listState.escaped = false := by
    rw [← (progress_of_any_run hrun).state, escaped_after]
    exact h.neutral
  have hst : r.listState = ListState.start := by
    simp only [listState] at hescaped ⊢
    rw [hescaped, hdepth, hquote]
    rfl
  exact ⟨r, hrun, hfinish, (retraced_of_run hrun).1, hst, hne, by rw [hsel]⟩

theorem Reads.after {t : List Char} {s : Selector} (h : Reads t s) :
    ListState.start.after t = ListState.start := by
  obtain ⟨r, hrun, -, -, hst, -, -⟩ := h.exists_reader
  rw [(progress_of_any_run hrun).state, hst]

theorem Reads.ne_nil {t : List Char} {s : Selector} (h : Reads t s) : t ≠ [] := by
  obtain ⟨r, hrun, -, -, -, hne, -⟩ := h.exists_reader
  rintro rfl
  obtain rfl := Except.ok.inj hrun
  exact hne rfl

theorem Reads.neutral_compounds {t : List Char} {s : Selector} (h : Reads t s) :
    ∀ p ∈ s.parts, Neutral p.compound := by
  obtain ⟨r, -, -, hreg, hst, -, hparts⟩ := h.exists_reader
  have hopened : r.escape ≠ .opened := by
    have := congrArg ListState.escaped hst
    simpa [listState, ListState.start] using this
  intro p hp
  rw [hparts] at hp
  by_contra hneutral
  have hafter := Escape.after_eq_opened_iff.mpr hneutral
  rcases List.mem_append.mp hp with hp | hp
  · exact (hreg.parts p hp).2 hafter
  · obtain rfl := List.mem_singleton.mp hp
    exact hopened (hreg.escape.trans hafter)

theorem Reads.descendant {p t : List Char} {s i : Selector} (hp : Reads p s) (ht : Reads t i)
    (hopen : ∀ q ∈ s.parts, ¬ EndsInHexEscape q.compound) :
    Reads (p ++ ' ' :: t) ⟨s.parts ++ withLead .descendant i.parts⟩ := by
  obtain ⟨r, hrun, -, hreg, hst, hne, hparts⟩ := hp.exists_reader
  obtain ⟨r₁, hrun₁, hfinish₁, -, -, -, -⟩ := ht.exists_reader
  have htrimmed : Text.Trimmed (p ++ ' ' :: t) := by
    refine ⟨fun c hc => ?_, fun c hc => ?_⟩
    · rw [List.head?_append_of_ne_nil _ hp.ne_nil] at hc
      exact hp.trimmed.head c hc
    · rw [List.getLast?_append_of_ne_nil _ (by simp), List.getLast?_cons_of_ne_nil ht.ne_nil] at hc
      exact ht.trimmed.last c hc
  -- the space ends the last compound of the selector
  have hbehind : r = behind r.parts ⟨r.lead, r.compound⟩ := by
    have hhex : ∀ n, r.escape ≠ .hex n := by
      intro n hn
      refine hopen ⟨r.lead, r.compound⟩ (by simp [hparts]) (endsInHexEscape_iff.mpr ⟨n, ?_⟩)
      exact hreg.escape.symm.trans hn
    obtain ⟨hdepth, hquote, hescape⟩ := eq_of_listState_eq_start hst hhex
    have hpending := hreg.pending hne
    obtain ⟨parts, compound, lead, pending, depth, quote, escape⟩ := r
    simp only at hdepth hquote hescape hpending
    subst hdepth hquote hescape hpending
    rfl
  have hspace := step_space_behind r.parts (p := ⟨r.lead, r.compound⟩) hne
  rw [← hbehind, ← hparts] at hspace
  -- from there on the text is read as from the start
  have hfollows := follows_start r.parts ⟨r.lead, r.compound⟩
  rw [← hparts] at hfollows
  obtain ⟨r₂, hrun₂, hfollows₂⟩ := hfollows.run (by simp [hparts]) hrun₁
  refine ⟨?_, htrimmed, neutral_append hp.neutral (neutral_append (s := [' ']) rfl ht.neutral)⟩
  rw [Selector.read, Text.trim_of_trimmed htrimmed, foldlM_append_ok hrun, List.foldlM_cons, hspace]
  show (t.foldlM step _).bind _ = _
  rw [hrun₂]
  exact hfollows₂.finish hfinish₁

theorem Reads.text {t : List Char} {s : Selector} (h : Reads t s)
    (hopen : ∀ q ∈ s.parts.dropLast, ¬ EndsInHexEscape q.compound) : Reads s.text s :=
  ⟨read_text_of_read h.read hopen, trimmed_text_of_read h.read, neutral_text h.neutral_compounds⟩

/-! ## Lists of such texts -/

theorem parseList_of_reads {ts : List (List Char)} {ss : List Selector} (hne : ts ≠ [])
    (h : List.Forall₂ Reads ts ss) :
    parseList (String.ofList ([',', ' '].intercalate ts)) = .ok ss := by
  have huncut : ∀ t ∈ ts, Text.Uncut next separates ListState.start t ∧
      ListState.start.after t = ListState.start := by
    clear hne
    induction h with
    | nil => simp
    | cons ht _ ih => exact List.forall_mem_cons.mpr ⟨⟨uncut_of_read ht.read, ht.after⟩, ih⟩
  rw [parseList_eq, String.toList_ofList, members_intercalate_of_uncut hne huncut]
  clear hne huncut
  induction h with
  | nil => rfl
  | @cons t s ts ss ht _ ih =>
    have hparse : parse (String.ofList (Text.trim t)) = .ok s :=
      parse_of_read ((read_trim t).trans ht.read)
    rw [List.map_cons, List.mapM_cons, hparse, ih]
    rfl

/-! ## Both ways of resolving -/

theorem Reads.hasAnchor_eq_false {t : List Char} {s : Selector} (h : Reads t s)
    (hnone : occurs t = false) : s.hasAnchor = false := by
  have halong : Along (fun st c => st.escaped = false → c ≠ '&') ListState.start (Text.trim t) := by
    rw [Text.trim_of_trimmed h.trimmed]
    exact along_of_not_occurs (occurs_eq_occursFrom t ▸ hnone)
  have hesc : (ListState.start.after (Text.trim t)).escaped = false := by
    rw [Text.trim_of_trimmed h.trimmed, h.after]
    rfl
  have hfinished := (isReadFrom_of_read h.read halong hesc).finished
  rw [hasAnchor, List.any_eq_false]
  intro p hp
  have hcompound : Along (fun st c => st.escaped = false → c ≠ '&') ListState.start p.compound :=
    (hfinished p hp).holds.imp fun _ _ hc => hc.1
  have hfrom := not_occurs_of_along hcompound
  rw [Part.hasAnchor, occurs_eq_occursFrom, Bool.not_eq_true]
  exact hfrom

theorem intercalate_concat_append (sep : List Char) (ts : List (List Char)) (t u : List Char) :
    sep.intercalate (ts ++ [t]) ++ u = sep.intercalate (ts ++ [t ++ u]) := by
  induction ts with
  | nil => simp
  | cons x ts ih =>
    rw [List.cons_append, List.cons_append, List.intercalate_cons_of_ne_nil (by simp),
      List.intercalate_cons_of_ne_nil (by simp), List.append_assoc, ih]

/-- A text that is parsed as a selector, without blanks at its ends, and with the backslashes at its end in
pairs. -/
structure Spells (p : String) (s : Selector) : Prop where
  parse : parse p = .ok s
  trimmed : Text.trim p.toList = p.toList
  paired : Even (trailingBackslashes p.toList)

theorem Spells.reads {p : String} {s : Selector} (h : Spells p s) : Reads p.toList s := by
  refine ⟨read_of_parse (by rw [String.ofList_toList]; exact h.parse), ?_, neutral_iff.mpr h.paired⟩
  rw [← h.trimmed]
  exact Text.trimmed_trim _

variable {ps : List String} {p t : String} {ss : List Selector} {s i : Selector}

theorem intercalate_eq_ofList (ps : List String) :
    ", ".intercalate ps = String.ofList ([',', ' '].intercalate (ps.map String.toList)) := by
  simp [← String.toList_inj, String.toList_intercalate]

theorem reads_toList (hps : List.Forall₂ Spells ps ss) :
    List.Forall₂ Reads (ps.map String.toList) ss :=
  List.forall₂_map_left_iff.mpr (hps.imp fun _ _ h => h.reads)

theorem parseList_intercalate (hps : List.Forall₂ Spells ps ss) (hne : ps ≠ []) :
    parseList (", ".intercalate ps) = .ok ss := by
  rw [intercalate_eq_ofList]
  exact parseList_of_reads (by simpa using hne) (reads_toList hps)

theorem exists_spells (hps : List.Forall₂ Spells ps ss) : ∀ x ∈ ss, ∃ q, Spells q x := by
  induction hps with
  | nil => simp
  | @cons q x ps ss hq _ ih =>
    intro y hy
    rcases List.mem_cons.mp hy with rfl | hy
    · exact ⟨q, hq⟩
    · exact ih y hy

theorem Spells.substitute_eq (ht : Spells t i) (hnone : occurs t.toList = false) (x : Selector) :
    i.substitute x = ⟨x.parts ++ withLead .descendant i.parts⟩ := by
  rw [substitute, if_neg (by simp [ht.reads.hasAnchor_eq_false hnone])]

theorem Spells.parts_ne_nil (ht : Spells t i) : i.parts ≠ [] := by
  obtain ⟨r, -, -, -, -, -, hparts⟩ := ht.reads.exists_reader
  simp [hparts]

theorem withLead_ne_nil {k : Combinator} {ps : List Part} (h : ps ≠ []) : withLead k ps ≠ [] := by
  cases ps with
  | nil => exact absurd rfl h
  | cons p ps => simp [withLead]

theorem Spells.substitute_ne (ht : Spells t i) (hnone : occurs t.toList = false) (x : Selector) :
    i.substitute x ≠ x := by
  rw [ht.substitute_eq hnone]
  intro heq
  have hparts : x.parts ++ withLead .descendant i.parts = x.parts := congrArg Selector.parts heq
  exact withLead_ne_nil ht.parts_ne_nil (List.append_right_eq_self.mp hparts)

theorem Spells.reads_substitute {x : Selector} {q : String} (hq : Spells q x) (ht : Spells t i)
    (hnone : occurs t.toList = false) (hopen : ∀ o ∈ x.parts, ¬ EndsInHexEscape o.compound)
    (hinner : ∀ o ∈ i.parts.dropLast, ¬ EndsInHexEscape o.compound) :
    Reads (i.substitute x).text (i.substitute x) := by
  have hread := hq.reads.descendant ht.reads hopen
  rw [← ht.substitute_eq hnone x] at hread
  refine hread.text ?_
  have hne : withLead .descendant i.parts ≠ [] := withLead_ne_nil ht.parts_ne_nil
  have hmap : (withLead .descendant i.parts).dropLast.map Part.compound =
      i.parts.dropLast.map Part.compound := by
    rw [List.map_dropLast, List.map_dropLast, map_compound_withLead]
  rw [ht.substitute_eq hnone]
  intro o ho
  rw [List.dropLast_append_of_ne_nil hne] at ho
  rcases List.mem_append.mp ho with ho | ho
  · exact hopen o ho
  · exact forall_compound (P := fun w => ¬ EndsInHexEscape w) hmap hinner o ho

/-- **Descendants of a list.** Let a template without an anchor be resolved against a list, none of the
compounds of which ends in an open escape; the template may have such a compound at its end. Selector by
selector, it picks descendants of every member of the list. Kept as it is, it picks descendants of the last
member, beside all other members themselves. So both mean the same if and only if there are no others. -/
theorem parseList_resolveVerbatim_eq_iff (hps : List.Forall₂ Spells ps ss) (hp : Spells p s)
    (ht : Spells t i) (hnone : occurs t.toList = false)
    (hopen : ∀ x ∈ ss ++ [s], ∀ q ∈ x.parts, ¬ EndsInHexEscape q.compound)
    (hinner : ∀ q ∈ i.parts.dropLast, ¬ EndsInHexEscape q.compound) :
    parseList (resolve (", ".intercalate (ps ++ [p])) t) = .ok ((ss ++ [s]).map i.substitute) ∧
      parseList (resolveVerbatim (", ".intercalate (ps ++ [p])) t) = .ok (ss ++ [i.substitute s]) ∧
      (parseList (resolveVerbatim (", ".intercalate (ps ++ [p])) t) =
        parseList (resolve (", ".intercalate (ps ++ [p])) t) ↔ ps = []) := by
  have hlist : List.Forall₂ Spells (ps ++ [p]) (ss ++ [s]) := List.rel_append hps (.cons hp .nil)
  have hresolve : parseList (resolve (", ".intercalate (ps ++ [p])) t) =
      .ok ((ss ++ [s]).map i.substitute) := by
    have hproduct : productText (ss ++ [s]) [i] =
        [',', ' '].intercalate ((ss ++ [s]).map fun x => (i.substitute x).text) := by
      simp [productText, ← List.map_eq_flatMap]
    rw [resolve, parseList_intercalate hlist (by simp), parseList_of_parse ht.parse]
    show parseList (String.ofList (productText (ss ++ [s]) [i])) = _
    rw [hproduct]
    refine parseList_of_reads (by simp) ?_
    rw [List.forall₂_map_left_iff, List.forall₂_map_right_iff, List.forall₂_same]
    intro x hx
    obtain ⟨q, hq⟩ := exists_spells hlist x hx
    exact hq.reads_substitute ht hnone (hopen x hx) hinner
  have hverbatim : parseList (resolveVerbatim (", ".intercalate (ps ++ [p])) t) =
      .ok (ss ++ [i.substitute s]) := by
    have htext : ", ".intercalate (ps ++ [p]) ++ " " ++ t = String.ofList
        ([',', ' '].intercalate (ps.map String.toList ++ [p.toList ++ ' ' :: t.toList])) := by
      rw [← intercalate_concat_append, intercalate_eq_ofList]
      simp [← String.toList_inj]
    rw [resolveVerbatim, if_neg (by simp [hnone]), htext]
    refine parseList_of_reads (by simp) (List.rel_append (reads_toList hps) (.cons ?_ .nil))
    rw [ht.substitute_eq hnone]
    exact hp.reads.descendant ht.reads (hopen s (by simp))
  refine ⟨hresolve, hverbatim, ?_⟩
  rw [hresolve, hverbatim, Except.ok.injEq, List.map_append]
  cases hps with
  | nil => simp
  | cons _ _ =>
    refine iff_of_false (fun heq => ?_) (by simp)
    rw [List.map_cons, List.cons_append, List.cons_append] at heq
    exact ht.substitute_ne hnone _ (List.cons.inj heq).1.symm

/-- Two members with a comma in brackets and an escape, and a template that begins with a combinator. -/
theorem parseList_resolveVerbatim_eq_iff_child :
    ∃ x s i, List.Forall₂ Spells [".a:is(b, c)"] [x] ∧ Spells ".d\\:e > .f" s ∧ Spells "> p+b" i ∧
      occurs "> p+b".toList = false ∧
      (∀ y ∈ [x] ++ [s], ∀ q ∈ y.parts, ¬ EndsInHexEscape q.compound) ∧
      (∀ q ∈ i.parts.dropLast, ¬ EndsInHexEscape q.compound) ∧
      parseList (resolve ".a:is(b, c), .d\\:e > .f" "> p+b") =
        .ok [i.substitute x, i.substitute s] ∧
      parseList (resolveVerbatim ".a:is(b, c), .d\\:e > .f" "> p+b") = .ok [x, i.substitute s] := by
  let x : Selector := ⟨[⟨none, ".a:is(b, c)".toList⟩]⟩
  let s : Selector := ⟨[⟨none, ".d\\:e".toList⟩, ⟨some .child, ".f".toList⟩]⟩
  let i : Selector := ⟨[⟨some .child, "p".toList⟩, ⟨some .nextSibling, "b".toList⟩]⟩
  have hx : List.Forall₂ Spells [".a:is(b, c)"] [x] := .cons ⟨by decide, by decide, by decide⟩ .nil
  have hs : Spells ".d\\:e > .f" s := ⟨by decide, by decide, by decide⟩
  have hi : Spells "> p+b" i := ⟨by decide, by decide, by decide⟩
  have hnone : occurs "> p+b".toList = false := by decide
  have hopen : ∀ y ∈ [x] ++ [s], ∀ q ∈ y.parts, ¬ EndsInHexEscape q.compound := by decide
  have hinner : ∀ q ∈ i.parts.dropLast, ¬ EndsInHexEscape q.compound := by decide
  obtain ⟨hresolve, hverbatim, -⟩ := parseList_resolveVerbatim_eq_iff hx hs hi hnone hopen hinner
  exact ⟨x, s, i, hx, hs, hi, hnone, hopen, hinner, hresolve, hverbatim⟩

/-- Below a list the first member is picked itself, where its descendants are meant. -/
theorem parseList_resolveVerbatim_ne :
    (parse ".a").isOk = true ∧ (parse ".b").isOk = true ∧ (parse "p").isOk = true ∧
      occurs "p".toList = false ∧ resolve ".a, .b" "p" = ".a p, .b p" ∧
      resolveVerbatim ".a, .b" "p" = ".a, .b p" ∧
      parseList (resolveVerbatim ".a, .b" "p") ≠ parseList (resolve ".a, .b" "p") := by
  decide +kernel

end Selector
end UtilityCss
