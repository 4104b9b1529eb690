import UtilityCss.Proofs.Selector.NameRuns
import UtilityCss.Proofs.Selector.Associativity
import UtilityCss.Proofs.Selector.RoundTrip

/-!
# The identifiers of a substituted template

Where an outer selector is put in place of an anchor, its identifiers ought to come between those of the
template before and behind the anchor. They do so if it is put in as parts or in `:is(...)`. One compound is
put in as it is written, and joins the identifier before it if it begins with one itself: that of the
template (`div&`), or its own end, where two anchors stand together (`&&`). Then there are fewer identifiers
than there ought to be, and what comes behind cannot make up for that (`names_intercalate`,
`names_substitute`).
-/

namespace UtilityCss

open Anchor ListState NameState

/-! ## A text between pieces -/

/-- Whether a text between pieces joins identifiers: it begins with one, and comes behind a piece that ends
in one, or behind itself where it ends in one. -/
def Glues (r : List Char) (ps : List (List Char)) : Prop :=
  continuesName r = true ∧ ((∃ p ∈ ps.dropLast, endsName (lexemes p) = true) ∨
    endsName (lexemes r) = true ∧ [] ∈ ps.dropLast.tail)

instance (r : List Char) (ps : List (List Char)) : Decidable (Glues r ps) :=
  inferInstanceAs (Decidable (_ ∧ (_ ∨ _)))

/-- The pieces of a compound, as far as it matters what is put between them. -/
structure Joinable (ps : List (List Char)) : Prop where
  before : ∀ p ∈ ps.dropLast, (Begun.nothing.after p).escaped = false ∧ (Begun.nothing.after p).quote = none
  behind : ∀ p ∈ ps.tail, continuesName p = false

/-- A text that can be put between pieces: it leaves nothing open but the digits of an escape, and none
where a piece begins with the space that would belong to it. -/
structure Insertable (r : List Char) (ps : List (List Char)) : Prop where
  escaped : (Begun.nothing.after r).escaped = false
  quote : (Begun.nothing.after r).quote = none
  space : Begun.nothing.after r = .nothing ∨ ∀ q ∈ ps.tail, q.head? ≠ some ' '
  ne_nil : r ≠ []
  head : r.head? ≠ some ' '

variable {r : List Char} {p q : List Char} {ps : List (List Char)}

theorem joins_intercalate_iff (hr : r ≠ []) (hq : continuesName q = false) :
    Joins r (r.intercalate (q :: ps)) ↔
      endsName (lexemes r) = true ∧ continuesName r = true ∧ q = [] ∧ ps ≠ [] := by
  rw [Joins, and_congr_right_iff]
  intro _
  by_cases hnil : q = []
  · subst hnil
    cases ps with
    | nil => simp [continuesName]
    | cons p ps =>
      rw [List.intercalate_cons_cons, List.append_assoc, List.nil_append, continuesName_append hr]
      simp
  · have hhead : continuesName (r.intercalate (q :: ps)) = continuesName q := by
      cases ps with
      | nil => simp
      | cons p ps => rw [List.intercalate_cons_cons, List.append_assoc, continuesName_append hnil]
    rw [hhead, hq]
    simp [hnil]

theorem head?_intercalate_ne {c : Char} (hne : r ≠ []) (hr : r.head? ≠ some c) (hq : q.head? ≠ some c) :
    (r.intercalate (q :: ps)).head? ≠ some c := by
  cases ps with
  | nil => simpa using hq
  | cons p ps =>
    rw [List.intercalate_cons_cons, List.append_assoc]
    by_cases hnil : q = []
    · rw [hnil, List.nil_append, List.head?_append_of_ne_nil _ hne]
      exact hr
    · rw [List.head?_append_of_ne_nil _ hnil]
      exact hq

theorem glues_cons_cons : Glues r (p :: q :: ps) ↔
    (endsName (lexemes p) = true ∧ continuesName r = true) ∨
      (endsName (lexemes r) = true ∧ continuesName r = true ∧ q = [] ∧ ps ≠ []) ∨ Glues r (q :: ps) := by
  have hempty : [] ∈ (q :: ps).dropLast ↔ q = [] ∧ ps ≠ [] ∨ [] ∈ (q :: ps).dropLast.tail := by
    cases ps with
    | nil => simp
    | cons p ps => simp [eq_comm]
  rw [Glues, Glues, List.dropLast_cons_of_ne_nil (by simp), List.tail_cons, hempty]
  by_cases hr : continuesName r = true
  · simp [hr, and_or_left, or_assoc, or_left_comm]
  · simp [hr]

theorem Insertable.tail (h : Insertable r (p :: ps)) : Insertable r ps :=
  { h with space := h.space.imp_right fun hspace q hq => hspace q (List.mem_of_mem_tail hq) }

theorem Joinable.tail (h : Joinable (p :: q :: ps)) : Joinable (q :: ps) :=
  ⟨fun x hx => h.before x (by simp [hx]), fun x hx => h.behind x (List.mem_of_mem_tail hx)⟩

/-- **Between pieces a text keeps its identifiers apart, or there are fewer.** -/
theorem names_intercalate (hr : Insertable r ps) (hps : Joinable ps) :
    (names (r.intercalate ps)).length ≤ ((names r).intercalate (ps.map names)).length ∧
      (names (r.intercalate ps) = (names r).intercalate (ps.map names) ↔ ¬ Glues r ps) := by
  induction ps with
  | nil => exact ⟨Nat.le_refl _, iff_of_true rfl (by simp [Glues])⟩
  | cons p ps ih =>
    cases ps with
    | nil => simp [Glues]
    | cons q ps =>
      obtain ⟨hle, hiff⟩ := ih hr.tail hps.tail
      obtain ⟨hesc, hquote⟩ := hps.before p (by simp)
      have hq : continuesName q = false := hps.behind q (by simp)
      rw [List.map_cons, List.map_cons, List.intercalate_cons_cons, List.append_assoc,
        List.intercalate_cons_cons, List.append_assoc, glues_cons_cons,
        ← joins_intercalate_iff hr.ne_nil hq, ← List.map_cons]
      have hcont : continuesName (r ++ r.intercalate (q :: ps)) = continuesName r :=
        continuesName_append hr.ne_nil _
      have hbehind : Precedes r (r.intercalate (q :: ps)) := by
        refine ⟨hr.escaped, hr.quote, hr.space.imp_right fun h => ?_⟩
        exact head?_intercalate_ne hr.ne_nil hr.head (h q (by simp))
      have hbefore : Precedes p (r ++ r.intercalate (q :: ps)) := by
        refine ⟨hesc, hquote, .inr ?_⟩
        rw [List.head?_append_of_ne_nil _ hr.ne_nil]
        exact hr.head
      have hjoins : Joins p (r ++ r.intercalate (q :: ps)) ↔
          endsName (lexemes p) = true ∧ continuesName r = true := by rw [Joins, hcont]
      rw [← hjoins]
      -- fewer identifiers at either end of the text that is put in cannot be made up for behind it
      have hfirst := names_append_le hbefore
      have hsecond := names_append_le hbehind
      rw [List.length_append, List.length_append]
      refine ⟨by omega, fun heq => ?_, fun hnone => ?_⟩
      · have hlength := congrArg List.length heq
        rw [List.length_append, List.length_append] at hlength
        have hp : ¬ Joins p (r ++ r.intercalate (q :: ps)) := fun hjoin => by
          have := length_names_append_lt hbefore hjoin
          omega
        have hr' : ¬ Joins r (r.intercalate (q :: ps)) := fun hjoin => by
          have := length_names_append_lt hbehind hjoin
          omega
        rw [names_append hbefore hp, names_append hbehind hr', List.append_cancel_left_eq,
          List.append_cancel_left_eq] at heq
        exact not_or.mpr ⟨hp, not_or.mpr ⟨hr', hiff.mp heq⟩⟩
      · obtain ⟨hp, hrest⟩ := not_or.mp hnone
        obtain ⟨hr', hglues⟩ := not_or.mp hrest
        rw [names_append hbefore hp, names_append hbehind hr', hiff.mpr hglues]

/-! ## The pieces of a compound -/

theorem joinable_pieces {w : List Char} (hout : Along AnchorOutside start w)
    (hbehind : ∀ q ∈ (pieces w).tail, continuesName q = false) : Joinable (pieces w) := by
  refine ⟨fun p hp => ?_, hbehind⟩
  have hne : pieces w ≠ [] := Text.splitBy_ne_nil _ _
  obtain ⟨ps, qs, hps⟩ := List.append_of_mem hp
  have hpieces : pieces w = ps ++ p :: (qs ++ [(pieces w).getLast hne]) := by
    conv_lhs => rw [← List.dropLast_append_getLast hne, hps]
    simp
  obtain ⟨u, v, hw, hu, -, hv⟩ := Text.splitBy_eq_append_cons_iff.mp hpieces
  -- outside strings and escapes an anchor changes nothing
  have hanchor : ∀ {t v : List Char} {c : Char}, w = t ++ c :: v →
      (!protectedAfter false t && c == '&') = true →
        (start.after t).escaped = false ∧ (start.after t).quote = none ∧ c = '&' := by
    intro t v c hw hc
    obtain ⟨hprotected, rfl⟩ : protectedAfter false t = false ∧ c = '&' := by simpa using hc
    have hesc : (start.after t).escaped = false := (escaped_after start t).trans hprotected
    rw [hw, along_append] at hout
    exact ⟨hesc, hout.2.1 rfl hesc, rfl⟩
  have hbefore : (start.after u).escaped = false ∧ (start.after u).quote = none := by
    rcases hu with ⟨rfl, -⟩ | ⟨t, c, rfl, hc, -⟩
    · exact ⟨rfl, rfl⟩
    · obtain ⟨hesc, hquote, rfl⟩ := hanchor (t := t) (v := p ++ v) (by rw [hw]; simp) hc
      rw [after_append]
      show ((start.after t).next '&').escaped = false ∧ ((start.after t).next '&').quote = none
      rw [next_anchor hesc hquote]
      exact ⟨hesc, hquote⟩
  have hafter : (start.after (u ++ p)).escaped = false ∧ (start.after (u ++ p)).quote = none := by
    rcases hv with ⟨-, hnil⟩ | ⟨c, t, rfl, hc, -⟩
    · simp at hnil
    · have hprotected : protectedAfter false (u ++ p) =
          p.foldl protectsNext (u.foldl protectsNext false) := by simp [protectedAfter]
      obtain ⟨hesc, hquote, -⟩ := hanchor (t := u ++ p) hw (by rwa [hprotected])
      exact ⟨hesc, hquote⟩
  rw [after_append, eq_deeper_start hbefore.1 hbefore.2, after_deeper] at hafter
  have hagrees := Begun.agrees_after p
  exact ⟨hagrees.escaped.symm.trans hafter.1, hagrees.quote.symm.trans hafter.2⟩

/-! ## The text of a selector -/

/-- The identifiers of the compounds. -/
def Selector.names (s : Selector) : List (List Char) := s.parts.flatMap fun p => UtilityCss.names p.compound

theorem Selector.names_eq_flatMap (s : Selector) :
    s.names = (s.parts.map Part.compound).flatMap UtilityCss.names := by
  rw [Selector.names, List.flatMap_map]

theorem names_between (k : Combinator) (w : List Char) : names (k.between ++ w) = names w ∧
    Begun.nothing.after (k.between ++ w) = Begun.nothing.after w ∧
      continuesName (k.between ++ w) = false := by
  have hfacts : Begun.nothing.after k.between = .nothing ∧ endsName (lexemes k.between) = false ∧
      names k.between = [] ∧ k.between ≠ [] ∧ continuesName k.between = false := by
    cases k <;> decide
  obtain ⟨hafter, hends, hnames, hne, hcont⟩ := hfacts
  refine ⟨?_, by rw [Begun.after_append, hafter], by rw [continuesName_append hne, hcont]⟩
  rw [names_append (precedes_of_after hafter w) (by simp [Joins, hends]), hnames, List.nil_append]

theorem names_leadingText (p : Part) : names p.leadingText = names p.compound ∧
    Begun.nothing.after p.leadingText = Begun.nothing.after p.compound := by
  unfold Part.leadingText
  cases p.combinator with
  | none => exact ⟨rfl, rfl⟩
  | some k =>
    have hfacts : Begun.nothing.after (k.mark ++ [' ']) = .nothing ∧
        endsName (lexemes (k.mark ++ [' '])) = false ∧ names (k.mark ++ [' ']) = [] := by
      cases k <;> decide
    obtain ⟨hafter, hends, hnames⟩ := hfacts
    have hsplit : k.mark ++ ' ' :: p.compound = k.mark ++ [' '] ++ p.compound := by simp
    dsimp only
    rw [hsplit, names_append (precedes_of_after hafter _) (by simp [Joins, hends]), hnames,
      Begun.after_append, hafter]
    exact ⟨rfl, rfl⟩

theorem names_text_concat {ps : List Part} (p : Part)
    (h : ∀ q ∈ ps, Begun.nothing.after q.compound = .nothing) :
    names (Selector.text ⟨ps ++ [p]⟩) = Selector.names ⟨ps ++ [p]⟩ ∧
      Begun.nothing.after (Selector.text ⟨ps ++ [p]⟩) = Begun.nothing.after p.compound := by
  induction ps using List.reverseRecOn generalizing p with
  | nil =>
    obtain ⟨hnames, hafter⟩ := names_leadingText p
    simp [Selector.text, Selector.names, hnames, hafter]
  | append_singleton ps q ih =>
    obtain ⟨hnames, hafter⟩ := ih q fun x hx => h x (by simp [hx])
    obtain ⟨hp, hpafter, hpcont⟩ := names_between (p.combinator.getD .descendant) p.compound
    rw [h q (by simp)] at hafter
    rw [Selector.text_concat, Part.followingText, Begun.after_append, hafter, hpafter,
      names_append (precedes_of_after hafter _) (by simp [Joins, hpcont]), hnames, hp]
    exact ⟨by simp [Selector.names], rfl⟩

namespace Selector

theorem inlineText_of_concat {o : Selector} {ps : List Part} {p : Part} (hps : o.parts = ps ++ [p])
    (hc : o.isCompound = true) : ps = [] ∧ o.inlineText = p.compound := by
  obtain ⟨w, hw⟩ := isCompound_iff.mp hc
  obtain ⟨rfl, hp⟩ := List.append_inj' (hps.symm.trans hw : ps ++ [p] = [] ++ [⟨none, w⟩]) rfl
  exact ⟨rfl, by rw [inlineText_of_isCompound hw, (List.cons.inj hp).1]⟩

theorem names_inlineText {o : Selector} {ps : List Part} {p : Part} (hps : o.parts = ps ++ [p])
    (h : ∀ q ∈ ps, Begun.nothing.after q.compound = .nothing)
    (hesc : (Begun.nothing.after p.compound).escaped = false)
    (hquote : (Begun.nothing.after p.compound).quote = none) :
    UtilityCss.names o.inlineText = (if o.isCompound then o.names else ['i', 's'] :: o.names) ∧
      Begun.nothing.after o.inlineText =
        if o.isCompound then Begun.nothing.after p.compound else .nothing := by
  by_cases hc : o.isCompound = true
  · obtain ⟨rfl, hinline⟩ := inlineText_of_concat hps hc
    rw [if_pos hc, if_pos hc, hinline, names, hps]
    exact ⟨by simp, rfl⟩
  · obtain ⟨htext, hafter⟩ := names_text_concat p h
    rw [← hps] at htext hafter
    have hends : endsName (lexemes [':', 'i', 's', '(']) = false := by decide
    have hcont : continuesName [')'] = false := by decide
    have hbracket : UtilityCss.names [')'] = [] := by decide
    have his : UtilityCss.names [':', 'i', 's', '('] = [['i', 's']] := by decide
    have hopen : Begun.nothing.after ([':', 'i', 's', '('] ++ o.text) = Begun.nothing.after p.compound := by
      rw [Begun.after_append]
      exact hafter
    -- the bracket ends an escape that is still open
    have hclose : Begun.nothing.after ([':', 'i', 's', '('] ++ o.text ++ [')']) = .nothing := by
      have hnext := Begun.next_eq_of_closed hesc hquote
        (show isHexDigit ')' = false ∧ ')' ≠ ' ' by decide)
      rw [Begun.after_append, hopen, Begun.after_cons, hnext]
      rfl
    have hprecedes : Precedes ([':', 'i', 's', '('] ++ o.text) [')'] :=
      ⟨by rw [hopen, hesc], by rw [hopen, hquote], .inr (by decide)⟩
    rw [inlineText, if_neg hc, if_neg hc, if_neg hc, names_append hprecedes (by simp [Joins, hcont]),
      names_append (precedes_of_after rfl _) (by simp [Joins, hends]), his, hbracket, htext]
    exact ⟨by simp [names], hclose⟩

end Selector

/-! ## What is put in -/

namespace Reader

/-- Whether a compound begins with a character that ends none. -/
def Begins (w : List Char) : Prop := ∃ c t, w = c :: t ∧ ¬ IsBreak c

/-- All compounds have begun with a character that ends none, or not yet. -/
structure Headed (r : Reader) : Prop where
  parts : ∀ p ∈ r.parts, Begins p.compound
  compound : Begins r.compound ∨ r.compound = [] ∧ r.escape = .outside ∧ r.listState = ListState.start

theorem headed_start : Headed start := ⟨by simp [start], .inr ⟨rfl, rfl, rfl⟩⟩

theorem Headed.flushed {r : Reader} (h : Headed r) : ∀ p ∈ r.flushed, Begins p.compound := by
  intro p hp
  by_cases hc : r.compound = []
  · exact h.parts p (flushed_of_eq hc ▸ hp)
  · rw [flushed_of_ne hc] at hp
    rcases List.mem_append.mp hp with hp | hp
    · exact h.parts p hp
    · obtain rfl := List.mem_singleton.mp hp
      exact h.compound.resolve_right fun hnil => hc hnil.1

theorem Headed.step {r r' : Reader} {c : Char} (hquote : ∀ q, r.quote = some q → isQuote q = true)
    (h : Headed r) (hr : r.step c = .ok r') : Headed r' := by
  rcases step_cases hquote hr with ⟨hst, -, rfl⟩ | hp
  · exact ⟨h.flushed, .inr ⟨rfl, rfl, listState_separate hst c⟩⟩
  · refine ⟨hp.parts ▸ h.parts, .inl ?_⟩
    rcases h.compound with ⟨d, t, hd, hbreak⟩ | ⟨hnil, he, hst⟩
    · exact ⟨d, t ++ [c], by rw [hp.compound, hd]; rfl, hbreak⟩
    · exact ⟨c, [], by rw [hp.compound, hnil]; rfl, hp.not_break he hst⟩

end Reader

namespace Selector

theorem begins_of_read {s : List Char} {sel : Selector} (h : read s = .ok sel) {p : Part}
    (hp : p ∈ sel.parts) :
    Reader.Begins p.compound ∧ (Begun.nothing.after p.compound).quote = none := by
  obtain ⟨r, hrun, hfinish⟩ := read_eq_ok h
  obtain ⟨rfl, -, hquote, hne⟩ := Reader.finish_eq_ok hfinish
  have hprogress := Reader.progress_of_any_run hrun
  have hheaded : Reader.Headed r :=
    Reader.kept_of_run (fun _ _ _ => Reader.Headed.step) (s := []) rfl Reader.headed_start hrun
  refine ⟨hheaded.flushed p (Reader.flushed_of_ne hne ▸ hp), ?_⟩
  rw [← (Begun.agrees_after _).quote]
  rcases List.mem_append.mp hp with hp | hp
  · rw [(hprogress.parts p hp).ends]
    rfl
  · obtain rfl := List.mem_singleton.mp hp
    rw [hprogress.compoundState]
    exact hquote

theorem neutral_iff_escaped {w : List Char} : Neutral w ↔ (Begun.nothing.after w).escaped = false := by
  rw [← (Begun.agrees_after w).escaped, escaped_after]
  rfl

theorem escape_after {w t : List Char} {n : Nat} (h : Begun.nothing.after w = .escape n t) :
    Escape.after w = if n = 0 then .opened else .hex n := by
  induction w using List.reverseRecOn generalizing n t with
  | nil => cases h
  | append_singleton w c ih =>
    have hfresh : (Begun.nothing.after w).escaped = false → (Begun.fresh c).2 = .escape n t →
        (Escape.after w).next c = if n = 0 then .opened else .hex n := by
      intro hesc hnext
      unfold Begun.fresh at hnext
      split_ifs at hnext with hc
      obtain ⟨rfl, -⟩ := Begun.escape.inj hnext
      have hopened : Escape.after w ≠ .opened := fun hopened =>
        Escape.after_eq_opened_iff.mp hopened (neutral_iff_escaped.mpr hesc)
      exact Escape.next_eq_opened_iff.mpr ⟨hopened, hc⟩
    rw [Begun.after_append, Begun.after_cons, Begun.after_nil] at h
    rw [Escape.after_concat]
    cases hb : Begun.nothing.after w with
    | nothing =>
      rw [hb] at h hfresh
      exact hfresh rfl h
    | escape m v =>
      rw [hb] at h hfresh
      rw [ih hb] at hfresh ⊢
      cases m with
      | zero =>
        rw [Begun.next] at h
        split_ifs at h with hc
        obtain ⟨rfl, -⟩ := Begun.escape.inj h
        simp [Escape.next, hc]
      | succ m =>
        rw [Begun.next] at h
        split_ifs at h with hc hspace
        · obtain ⟨rfl, -⟩ := Begun.escape.inj h
          simp [Escape.next, hc]
        · exact hfresh rfl h
    | quoted q e v =>
      rw [hb] at h
      cases e with
      | true => cases h
      | false =>
        rw [Begun.next] at h
        split_ifs at h

theorem after_eq_nothing {w : List Char} (hneutral : Neutral w)
    (hquote : (Begun.nothing.after w).quote = none) (hopen : ¬ EndsInHexEscape w) :
    Begun.nothing.after w = .nothing := by
  rw [neutral_iff_escaped] at hneutral
  cases hb : Begun.nothing.after w with
  | nothing => rfl
  | escape n t =>
    rw [hb] at hneutral
    have hpos : n ≠ 0 := by simpa [Begun.escaped] using hneutral
    exact absurd (endsInHexEscape_iff.mpr ⟨n, (escape_after hb).trans (if_neg hpos)⟩) hopen
  | quoted q e t =>
    rw [hb] at hquote
    cases hquote

/-- Whether an outer selector can be put into a template without an escape of its own that runs on: no
compound of it ends in a lone backslash, and no compound ends in the digits of an escape before a space, be
it one in its own text or one of the template. -/
structure EndsIn (i o : Selector) : Prop where
  neutral : ∀ p ∈ o.parts, Neutral p.compound
  inner : ∀ p ∈ o.parts.dropLast, ¬ EndsInHexEscape p.compound
  last : (∀ p ∈ o.parts, ¬ EndsInHexEscape p.compound) ∨
    ∀ p ∈ i.parts, ∀ q ∈ (pieces p.compound).tail, q.head? ≠ some ' '

/-- What is known of an outer selector that can be put into pieces of the template. -/
structure Outer (o : Selector) (ps : List Part) (p : Part) (qs : List (List Char)) : Prop where
  parts : o.parts = ps ++ [p]
  begins : Reader.Begins p.compound
  inner : ∀ q ∈ ps, Begun.nothing.after q.compound = .nothing
  escaped : (Begun.nothing.after p.compound).escaped = false
  quote : (Begun.nothing.after p.compound).quote = none
  space : Begun.nothing.after p.compound = .nothing ∨ ∀ q ∈ qs.tail, q.head? ≠ some ' '

theorem EndsIn.outer {s : List Char} {i o : Selector} (h : read s = .ok o) (hends : EndsIn i o) {p : Part}
    (hp : p ∈ i.parts) : ∃ ps q, Outer o ps q (pieces p.compound) := by
  have hne : o.parts ≠ [] := parts_ne_nil_of_parse (parse_of_read h)
  obtain ⟨ps, q, hparts⟩ := (List.eq_nil_or_concat' o.parts).resolve_left hne
  have hq : q ∈ o.parts := by simp [hparts]
  obtain ⟨hbegins, hquote⟩ := begins_of_read h hq
  have hinner : ∀ x ∈ ps, Begun.nothing.after x.compound = .nothing := by
    intro x hx
    have hmem : x ∈ o.parts := by simp [hparts, hx]
    exact after_eq_nothing (hends.neutral x hmem) (begins_of_read h hmem).2
      (hends.inner x (by simp [hparts, hx]))
  refine ⟨ps, q, hparts, hbegins, hinner, neutral_iff_escaped.mp (hends.neutral q hq), hquote, ?_⟩
  exact hends.last.imp (fun hopen => after_eq_nothing (hends.neutral q hq) hquote (hopen q hq))
    fun hspace => hspace p hp

variable {o : Selector} {ps : List Part} {p : Part} {qs : List (List Char)}

theorem Outer.insertable (h : Outer o ps p qs) : Insertable o.inlineText qs := by
  have hafter := (names_inlineText h.parts h.inner h.escaped h.quote).2
  by_cases hc : o.isCompound = true
  · obtain ⟨-, hinline⟩ := inlineText_of_concat h.parts hc
    obtain ⟨c, t, hw, hbreak⟩ := h.begins
    rw [hinline]
    refine ⟨h.escaped, h.quote, h.space, by simp [hw], ?_⟩
    rw [hw]
    rintro ⟨⟩
    exact hbreak (.inl rfl)
  · rw [if_neg hc] at hafter
    refine ⟨by rw [hafter]; rfl, by rw [hafter]; rfl, .inl hafter, ?_, ?_⟩
    · simp [inlineText, if_neg hc]
    · simp [inlineText, if_neg hc]

/-- The identifiers of the outer selector where it takes the place of an anchor of a compound: with `is`
before them, unless it is put in as parts or as one compound. -/
def namesPutIn (o : Selector) (w : List Char) : List (List Char) :=
  if o.isCompound || (suffix? w).isSome then o.names else ['i', 's'] :: o.names

/-- The identifiers of a compound, with those of the outer selector at each anchor. -/
def namesWith (o : Selector) (w : List Char) : List (List Char) :=
  (o.namesPutIn w).intercalate ((pieces w).map UtilityCss.names)

theorem Outer.names_opened {t : List Char} (h : Outer o ps p [[], t]) (lead : Option Combinator)
    (ht : continuesName t = false) :
    names ⟨appendToLast t (replaceLead lead o.parts)⟩ = o.names ++ UtilityCss.names t := by
  have hprecedes : Precedes p.compound t :=
    ⟨h.escaped, h.quote, h.space.imp_right fun hspace => hspace t (by simp)⟩
  have hwith : UtilityCss.names (p.compound ++ t) = UtilityCss.names p.compound ++ UtilityCss.names t :=
    names_append hprecedes (by simp [Joins, ht])
  rw [names_eq_flatMap, names_eq_flatMap, h.parts, map_compound_opened]
  simp [hwith]

theorem names_expandPart {x : Part} (h : ∃ ps p, Outer o ps p (pieces x.compound))
    (hout : Along AnchorOutside start x.compound)
    (hnext : ∀ q ∈ (pieces x.compound).tail, continuesName q = false) :
    (names ⟨expandPart o x⟩).length ≤ (o.namesWith x.compound).length ∧
      (names ⟨expandPart o x⟩ = o.namesWith x.compound ↔ ¬ Glues o.inlineText (pieces x.compound)) := by
  obtain ⟨ps, p, houter⟩ := h
  by_cases hocc : occurs x.compound = true
  · cases hsuffix : suffix? x.compound with
    | some t =>
      have hpieces := pieces_of_suffix? hsuffix
      rw [hpieces] at hnext houter
      have hopened := houter.names_opened x.combinator (hnext t (by simp))
      have hwith : o.namesWith x.compound = o.names ++ UtilityCss.names t := by
        have hnil : UtilityCss.names [] = [] := rfl
        rw [namesWith, namesPutIn, hpieces, hsuffix]
        simp [hnil]
      have hglues : ¬ Glues o.inlineText (pieces x.compound) := by
        rw [hpieces]
        rintro ⟨-, ⟨q, hq, hends⟩ | ⟨-, hq⟩⟩
        · obtain rfl := List.mem_singleton.mp hq
          cases hends
        · cases hq
      rw [expandPart_of_suffix? hsuffix, hopened, hwith]
      exact ⟨Nat.le_refl _, iff_of_true rfl hglues⟩
    | none =>
      have hnames : names ⟨expandPart o x⟩ =
          UtilityCss.names (o.inlineText.intercalate (pieces x.compound)) := by
        rw [expandPart_of_suffix?_eq_none hocc hsuffix, names]
        simp [replace]
      have hwith : o.namesWith x.compound =
          (UtilityCss.names o.inlineText).intercalate ((pieces x.compound).map UtilityCss.names) := by
        rw [namesWith, namesPutIn, hsuffix,
          (names_inlineText houter.parts houter.inner houter.escaped houter.quote).1]
        simp
      rw [hnames, hwith]
      exact names_intercalate houter.insertable (joinable_pieces hout hnext)
  · have hpieces := pieces_of_not_occurs (Bool.eq_false_iff.mpr hocc)
    have hnames : names ⟨expandPart o x⟩ = o.namesWith x.compound := by
      rw [expandPart_of_not_occurs hocc, names, namesWith, hpieces]
      simp
    rw [hnames, hpieces]
    exact ⟨Nat.le_refl _, iff_of_true rfl (by simp [Glues])⟩

theorem flatMap_eq_flatMap_iff {α β : Type} {f g : α → List β} {xs : List α}
    (h : ∀ x ∈ xs, (f x).length ≤ (g x).length) :
    xs.flatMap f = xs.flatMap g ↔ ∀ x ∈ xs, f x = g x := by
  have hle : ∀ ys : List α, (∀ x ∈ ys, (f x).length ≤ (g x).length) →
      (ys.flatMap f).length ≤ (ys.flatMap g).length := by
    intro ys hys
    induction ys with
    | nil => exact Nat.le_refl _
    | cons y ys ih =>
      rw [List.flatMap_cons, List.flatMap_cons, List.length_append, List.length_append]
      have hy := hys y (by simp)
      have hrest := ih fun x hx => hys x (by simp [hx])
      omega
  induction xs with
  | nil => simp
  | cons x xs ih =>
    have hx := h x (by simp)
    have hxs := hle xs fun y hy => h y (by simp [hy])
    have hrest := ih fun y hy => h y (by simp [hy])
    rw [List.forall_mem_cons, List.flatMap_cons, List.flatMap_cons]
    constructor
    · intro heq
      have hlength := congrArg List.length heq
      rw [List.length_append, List.length_append] at hlength
      obtain ⟨hfirst, hlast⟩ := List.append_inj heq (by omega)
      exact ⟨hfirst, hrest.mp hlast⟩
    · rintro ⟨hfirst, hlast⟩
      rw [hfirst, hrest.mpr hlast]

/-- **Identifiers are kept apart, unless one compound is put in behind an identifier that it goes on.** The
anchors of the template stand outside strings, what stands behind them goes on with no identifier, and the
outer selector leaves no escape open that would take more in. -/
theorem names_substitute {s : String} {o i : Selector} (ho : parse s = .ok o) (hends : EndsIn i o)
    (hi : i.hasAnchor = true) (hout : ∀ p ∈ i.parts, Along AnchorOutside start p.compound)
    (hnext : ∀ p ∈ i.parts, ∀ q ∈ (pieces p.compound).tail, continuesName q = false) :
    (i.substitute o).names = i.parts.flatMap (fun p => o.namesWith p.compound) ↔
      ∀ p ∈ i.parts, ¬ Glues o.inlineText (pieces p.compound) := by
  have hread : read s.toList = .ok o := read_of_parse (by rwa [String.ofList_toList])
  have hparts := fun p hp => names_expandPart (hends.outer hread hp) (hout p hp) (hnext p hp)
  have hnames : (i.substitute o).names = i.parts.flatMap fun p => names ⟨expandPart o p⟩ := by
    rw [substitute, if_pos hi, names, List.flatMap_assoc]
    rfl
  rw [hnames, flatMap_eq_flatMap_iff fun p hp => (hparts p hp).1]
  exact forall₂_congr fun p hp => (hparts p hp).2

/-- A class name that begins with a digit, behind a type name, in brackets, and opened up. -/
theorem names_substitute_digit :
    ∃ o i, parse ".\\31" = .ok o ∧ parse "li& > :not(&:hover)[x='b c'] &.d" = .ok i ∧
      (i.substitute o).names = ["li".toList, "\\31".toList, "not".toList, "\\31".toList, "hover".toList,
        ['x'], "\\31".toList, ['d']] := by
  let o : Selector := ⟨[⟨none, ".\\31".toList⟩]⟩
  let i : Selector := ⟨[⟨none, "li&".toList⟩, ⟨some .child, ":not(&:hover)[x='b c']".toList⟩,
    ⟨some .descendant, "&.d".toList⟩]⟩
  have ho : parse ".\\31" = .ok o := by decide
  have hi : parse "li& > :not(&:hover)[x='b c'] &.d" = .ok i := by decide
  have hneutral : ∀ p ∈ o.parts, Neutral p.compound := by
    intro p hp
    obtain rfl := List.mem_singleton.mp hp
    rfl
  have hends : EndsIn i o := ⟨hneutral, by decide, .inr (by decide)⟩
  have hglues : ∀ p ∈ i.parts, ¬ Glues o.inlineText (pieces p.compound) := by decide
  have hnames := (names_substitute ho hends (by decide) (by decide) (by decide)).mpr hglues
  exact ⟨o, i, ho, hi, hnames.trans (by decide)⟩

/-- A type name put in behind a type name, or twice without anything between, becomes part of another
name; a selector that is not one compound is put in apart. -/
theorem names_substitute_typeName :
    ∃ a b c x, parse "a" = .ok a ∧ parse "div&" = .ok b ∧ parse ":not(&&)" = .ok c ∧
      parse "a b" = .ok x ∧ b.hasAnchor = true ∧ c.hasAnchor = true ∧
      (∀ p ∈ b.parts ++ c.parts, Along AnchorOutside start p.compound ∧
        ∀ q ∈ (pieces p.compound).tail, continuesName q = false) ∧
      (b.substitute a).text = "diva".toList ∧ (b.substitute a).names = ["diva".toList] ∧
      b.parts.flatMap (fun p => a.namesWith p.compound) = ["div".toList, ['a']] ∧
      (c.substitute a).names = ["not".toList, "aa".toList] ∧
      c.parts.flatMap (fun p => a.namesWith p.compound) = ["not".toList, ['a'], ['a']] ∧
      (b.substitute x).text = "div:is(a b)".toList := by
  refine ⟨⟨[⟨none, ['a']⟩]⟩, ⟨[⟨none, "div&".toList⟩]⟩, ⟨[⟨none, ":not(&&)".toList⟩]⟩,
    ⟨[⟨none, ['a']⟩, ⟨some .descendant, ['b']⟩]⟩, ?_⟩
  decide

end Selector
end UtilityCss
