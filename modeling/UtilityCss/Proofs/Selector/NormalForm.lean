import UtilityCss.Proofs.Selector.Reading
import UtilityCss.Proofs.Selector.Substitution

/-!
# Selectors in normal form

A selector is in normal form if it is sound, nothing in its compounds could end a compound, and the
combinators stand where the reader puts them: never a descendant combinator before the first compound,
and one before every other compound. The text of such a selector reads as the selector (`read_text`),
part by part: behind a part the reader is in a state that holds nothing but the parts (`behind`).

Selectors that are read are in normal form if nothing they escape is a hexadecimal digit
(`isNormal_of_read`).
-/

namespace UtilityCss

open ListState

/-- The escapes that reader and splitter see alike. -/
def Escapable (c : Char) : Prop := isHexDigit c = false

/-- What may not stand in a compound in the open. -/
def EndsCompound (c : Char) : Prop := c = ',' ∨ IsBreak c

instance (c : Char) : Decidable (EndsCompound c) := inferInstanceAs (Decidable (c = ',' ∨ IsBreak c))

/-- The combinators as the reader puts them, with `c` the first character of the first compound if no
combinator stands before it. -/
def Leads (c : Option Char) : List Part → Prop
  | [] => True
  | p :: ps => p.combinator ≠ some .descendant ∧
      (p.combinator = none → p.compound.head? = c) ∧ ∀ q ∈ ps, q.combinator.isSome = true

namespace Selector

/-- A selector that its text reads as. -/
structure IsNormal (s : Selector) : Prop extends s.Sound Escapable EndsCompound where
  leads : ∃ c, Text.isBlank c = false ∧ Leads (some c) s.parts

end Selector

namespace Reader

/-- The reader behind the last part of a selector. -/
def behind (ps : List Part) (p : Part) : Reader :=
  ⟨ps, p.compound, p.combinator, none, 0, none, .outside⟩

theorem eq_of_listState_eq_start {r : Reader} (h : r.listState = ListState.start)
    (hhex : ∀ n, r.escape ≠ .hex n) : r.depth = 0 ∧ r.quote = none ∧ r.escape = .outside := by
  have hescaped := congrArg ListState.escaped h
  have hquote := congrArg ListState.quote h
  have hdepth := congrArg ListState.depth h
  refine ⟨hdepth, hquote, ?_⟩
  cases he : r.escape with
  | outside => rfl
  | opened => simp [listState, he, ListState.start] at hescaped
  | hex n => exact absurd he (hhex n)

theorem solid_of_fits {st : ListState} {c : Char} (h : Fits Escapable EndsCompound st c) :
    Solid st c := by
  intro hst
  have hopen := h.2.2 hst
  exact ⟨fun hc => hopen (.inl hc), fun hb => hopen (.inr hb)⟩

theorem read_compound {r : Reader} (hempty : r.compound = []) (hst : r.listState = ListState.start)
    (hhex : ∀ n, r.escape ≠ .hex n) {w : List Char} (hne : w ≠ [])
    (hw : Closed Escapable EndsCompound w) :
    w.foldlM step r = .ok (behind r.parts ⟨r.pending, w⟩) := by
  have hquote : ∀ q, r.quote = some q → isQuote q = true := by
    intro q hq
    rw [(eq_of_listState_eq_start hst hhex).2.1] at hq
    cases hq
  have hsolid : Along Solid r.listState w := hst ▸ hw.fits.imp fun _ _ => solid_of_fits
  have hspared : Along (fun st c => st.escaped = true → isHexDigit c = false) r.listState w :=
    hst ▸ hw.fits.imp fun _ _ h => h.2.1
  obtain ⟨r', hr', hall⟩ := exists_putsAll hquote hsolid
  have hst' : r'.listState = ListState.start := by rw [hall.state, hst, hw.ends]
  obtain ⟨hdepth, hquote', hescape⟩ := eq_of_listState_eq_start hst' (hall.spared hhex hspared)
  rw [hr']
  congr 1
  obtain ⟨parts, compound, lead, pending, depth, quote, escape⟩ := r'
  have hcompound := hall.compound
  have hlead := hall.lead
  have hpending := hall.pending
  rw [hempty, List.nil_append] at hcompound
  rw [if_pos ⟨hempty, hne⟩] at hlead hpending
  simp only [behind, Reader.mk.injEq]
  exact ⟨hall.parts, hcompound, hlead, hpending, hdepth, hquote', hescape⟩

/-- The reader between two compounds. -/
def waiting (ps : List Part) (lead pending : Option Combinator) : Reader :=
  ⟨ps, [], lead, pending, 0, none, .outside⟩

theorem step_space_behind (ps : List Part) {p : Part} (hp : p.compound ≠ []) :
    (behind ps p).step ' ' = .ok (waiting (ps ++ [p]) p.combinator (some .descendant)) := by
  have hstep : (behind ps p).step ' ' = .ok ((behind ps p).separate ' ') := rfl
  have hflushed : (behind ps p).flushed = ps ++ [p] := by simp [flushed, behind, hp]
  have hchar : Combinator.ofChar? ' ' = none := rfl
  rw [hstep, separate, hflushed, hchar]
  simp [behind, waiting]

theorem step_mark (ps : List Part) (lead pending : Option Combinator) {d : Char} {c : Combinator}
    (hd : c.mark = [d]) : (waiting ps lead pending).step d = .ok (waiting ps lead (some c)) := by
  cases c with
  | descendant => cases hd
  | child => obtain rfl := (List.cons.inj hd).1; rfl
  | nextSibling => obtain rfl := (List.cons.inj hd).1; rfl
  | subsequentSibling => obtain rfl := (List.cons.inj hd).1; rfl

theorem step_space_waiting (ps : List Part) (lead : Option Combinator) (c : Combinator) :
    (waiting ps lead (some c)).step ' ' = .ok (waiting ps lead (some c)) := by
  have hstep : (waiting ps lead (some c)).step ' ' =
      .ok ((waiting ps lead (some c)).separate ' ') := rfl
  have hflushed : (waiting ps lead (some c)).flushed = ps := rfl
  have hchar : Combinator.ofChar? ' ' = none := rfl
  rw [hstep, separate, hflushed, hchar]
  simp [waiting]

theorem read_mark (ps : List Part) (lead pending : Option Combinator) {c : Combinator}
    (hc : c ≠ .descendant) :
    (c.mark ++ [' ']).foldlM step (waiting ps lead pending) = .ok (waiting ps lead (some c)) := by
  have hmark : ∃ d, c.mark = [d] := by
    cases c with
    | descendant => exact absurd rfl hc
    | child => exact ⟨_, rfl⟩
    | nextSibling => exact ⟨_, rfl⟩
    | subsequentSibling => exact ⟨_, rfl⟩
  obtain ⟨d, hd⟩ := hmark
  rw [hd, List.singleton_append, List.foldlM_cons, step_mark ps lead pending hd]
  show [' '].foldlM step (waiting ps lead (some c)) = _
  rw [List.foldlM_cons, step_space_waiting]
  rfl

theorem read_between (ps : List Part) {p : Part} (hp : p.compound ≠ []) (c : Combinator) :
    c.between.foldlM step (behind ps p) = .ok (waiting (ps ++ [p]) p.combinator (some c)) := by
  by_cases hc : c = .descendant
  · subst hc
    show [' '].foldlM step (behind ps p) = _
    rw [List.foldlM_cons, step_space_behind ps hp]
    rfl
  · have hbetween : c.between = ' ' :: (c.mark ++ [' ']) := by
      cases c with
      | descendant => exact absurd rfl hc
      | child => rfl
      | nextSibling => rfl
      | subsequentSibling => rfl
    rw [hbetween, List.foldlM_cons, step_space_behind ps hp]
    exact read_mark _ _ _ hc

theorem foldlM_append_ok {s t : List Char} {r r₁ : Reader} (h : s.foldlM step r = .ok r₁) :
    (s ++ t).foldlM step r = t.foldlM step r₁ := by
  rw [List.foldlM_append, h]
  rfl

theorem read_followingText (ps : List Part) {p q : Part} (hp : p.compound ≠ [])
    (hq : q.compound ≠ [] ∧ Closed Escapable EndsCompound q.compound)
    (hlead : q.combinator.isSome = true) :
    q.followingText.foldlM step (behind ps p) = .ok (behind (ps ++ [p]) q) := by
  obtain ⟨c, w⟩ := q
  obtain ⟨c, rfl⟩ := Option.isSome_iff_exists.mp hlead
  show (c.between ++ w).foldlM step (behind ps p) = _
  rw [foldlM_append_ok (read_between ps hp c)]
  exact read_compound rfl rfl (fun n hn => by cases hn) hq.1 hq.2

theorem read_leadingText {p : Part} (hp : p.compound ≠ [] ∧ Closed Escapable EndsCompound p.compound)
    (hlead : p.combinator ≠ some .descendant) :
    p.leadingText.foldlM step start = .ok (behind [] p) := by
  obtain ⟨_ | c, w⟩ := p
  · exact read_compound rfl rfl (fun n hn => by cases hn) hp.1 hp.2
  · have hc : c ≠ .descendant := fun h => hlead (congrArg some h)
    have hsplit : Part.leadingText ⟨some c, w⟩ = c.mark ++ [' '] ++ w := by simp [Part.leadingText]
    rw [hsplit]
    show (c.mark ++ [' '] ++ w).foldlM step (waiting [] none none) = _
    rw [foldlM_append_ok (read_mark [] none none hc)]
    exact read_compound rfl rfl (fun n hn => by cases hn) hp.1 hp.2

theorem read_parts (ps : List Part) {p : Part} {qs : List Part} (hp : p.compound ≠ [])
    (hqs : ∀ q ∈ qs, q.compound ≠ [] ∧ Closed Escapable EndsCompound q.compound)
    (hlead : ∀ q ∈ qs, q.combinator.isSome = true) :
    ∃ ps' p', (qs.flatMap Part.followingText).foldlM step (behind ps p) = .ok (behind ps' p') ∧
      ps' ++ [p'] = ps ++ p :: qs ∧ p'.compound ≠ [] := by
  induction qs generalizing ps p with
  | nil => exact ⟨ps, p, rfl, rfl, hp⟩
  | cons q qs ih =>
    have hq := hqs q (by simp)
    obtain ⟨ps', p', hrun, heq, hne⟩ := ih (ps ++ [p]) hq.1 (fun x hx => hqs x (by simp [hx]))
      (fun x hx => hlead x (by simp [hx]))
    refine ⟨ps', p', ?_, by simpa using heq, hne⟩
    rw [List.flatMap_cons, foldlM_append_ok (read_followingText ps hp hq (hlead q (by simp)))]
    exact hrun

end Reader

namespace Selector

open Reader

theorem text_eq_append {s : Selector} {ps : List Part} {p : Part} (h : s.parts = ps ++ [p]) :
    ∃ u, s.text = u ++ p.compound := by
  have hlead : ∃ u, p.leadingText = u ++ p.compound := by
    obtain ⟨_ | c, w⟩ := p
    · exact ⟨[], rfl⟩
    · exact ⟨c.mark ++ [' '], by simp [Part.leadingText]⟩
  unfold text
  rw [h]
  cases ps with
  | nil =>
    obtain ⟨u, hu⟩ := hlead
    exact ⟨u, by simp [hu]⟩
  | cons q ps =>
    refine ⟨q.leadingText ++ (ps.flatMap Part.followingText ++
      (p.combinator.getD .descendant).between), ?_⟩
    simp [Part.followingText]

theorem Sound.last_text {esc stop : Char → Prop} {s : Selector} (h : s.Sound esc stop) :
    s.text ≠ [] ∧ ∀ c, s.text.getLast? = some c → Text.isBlank c = false := by
  obtain ⟨ps, p, hps, hlast⟩ := h.last
  have hne := (h.compounds p (by simp [hps])).1
  obtain ⟨u, hu⟩ := text_eq_append hps
  rw [hu, List.getLast?_append_of_ne_nil _ hne]
  exact ⟨by simp [hne], hlast⟩

theorem head?_text_of_leads {s : Selector} {c₀ : Char} (hblank : Text.isBlank c₀ = false)
    (hleads : Leads (some c₀) s.parts) (hne : ∀ p ∈ s.parts, p.compound ≠ []) {c : Char}
    (hc : s.text.head? = some c) : Text.isBlank c = false := by
  unfold text at hc
  split at hc
  · cases hc
  · next p ps hp =>
    rw [hp] at hleads
    have hne := hne p (by simp [hp])
    obtain ⟨_ | k, w⟩ := p
    · -- without a combinator the text begins with the compound
      have hhead := hleads.2.1 rfl
      obtain ⟨d, w, rfl⟩ := List.exists_cons_of_ne_nil hne
      obtain rfl := Option.some.inj hhead
      obtain rfl := Option.some.inj hc
      exact hblank
    · cases k with
      | descendant => exact absurd rfl hleads.1
      | child => obtain rfl := Option.some.inj hc; decide
      | nextSibling => obtain rfl := Option.some.inj hc; decide
      | subsequentSibling => obtain rfl := Option.some.inj hc; decide

theorem IsNormal.trimmed_text {s : Selector} (h : s.IsNormal) : Text.Trimmed s.text := by
  obtain ⟨c, hblank, hleads⟩ := h.leads
  exact ⟨fun _ => head?_text_of_leads hblank hleads fun p hp => (h.compounds p hp).1,
    h.last_text.2⟩

/-- The text of a selector in normal form reads as the selector. -/
theorem read_text {s : Selector} (h : s.IsNormal) : read s.text = .ok s := by
  have htrim := Text.trim_of_trimmed h.trimmed_text
  obtain ⟨parts⟩ := s
  cases parts with
  | nil =>
    obtain ⟨ps, p, hps, -⟩ := h.last
    simp at hps
  | cons p ps =>
    obtain ⟨c, -, hdesc, -, hleads⟩ := h.leads
    have hp := h.compounds p (by simp)
    obtain ⟨ps', p', hrun, heq, hne⟩ := read_parts [] hp.1
      (fun q hq => h.compounds q (by simp [hq])) hleads
    have hread : (text ⟨p :: ps⟩).foldlM Reader.step Reader.start = .ok (behind ps' p') := by
      show (p.leadingText ++ ps.flatMap Part.followingText).foldlM _ _ = _
      rw [foldlM_append_ok (read_leadingText hp hdesc)]
      exact hrun
    have hfinish : (behind ps' p').finish = .ok ⟨ps' ++ [p']⟩ := by
      simp [finish, behind, flushed, hne]
    rw [read, htrim, hread]
    show (behind ps' p').finish = _
    rw [hfinish, heq]
    rfl

end Selector

/-! ## Selectors that are read -/

theorem isBlank_of_isSelectorSpace {c : Char} (h : isSelectorSpace c = true) :
    Text.isBlank c = true := by
  simp only [isSelectorSpace, Bool.or_eq_true, beq_iff_eq] at h
  rcases h with (((rfl | rfl) | rfl) | rfl) | rfl <;> decide

theorem ofChar?_ne_descendant (c : Char) : Combinator.ofChar? c ≠ some .descendant := by
  unfold Combinator.ofChar?
  split_ifs <;> simp

theorem leads_concat {c : Option Char} {ps : List Part} {p : Part} (h : Leads c ps)
    (hfirst : ps = [] → p.combinator ≠ some .descendant ∧
      (p.combinator = none → p.compound.head? = c))
    (hnext : ps ≠ [] → p.combinator.isSome = true) : Leads c (ps ++ [p]) := by
  cases ps with
  | nil =>
    obtain ⟨hdesc, hhead⟩ := hfirst rfl
    exact ⟨hdesc, hhead, by simp⟩
  | cons q ps =>
    obtain ⟨hdesc, hhead, hrest⟩ := h
    refine ⟨hdesc, hhead, ?_⟩
    intro x hx
    rcases List.mem_append.mp hx with hx | hx
    · exact hrest x hx
    · obtain rfl := List.mem_singleton.mp hx
      exact hnext (by simp)

theorem Leads.of_concat {c : Option Char} {ps : List Part} {p q : Part} (h : Leads c (ps ++ [p]))
    (hcomb : q.combinator = p.combinator) (hhead : q.compound.head? = p.compound.head?) :
    Leads c (ps ++ [q]) := by
  cases ps with
  | nil =>
    refine ⟨hcomb ▸ h.1, fun hnone => ?_, by simp⟩
    rw [hhead]
    exact h.2.1 (hcomb ▸ hnone)
  | cons r ps =>
    obtain ⟨hdesc, hfirst, hrest⟩ := h
    refine ⟨hdesc, hfirst, ?_⟩
    intro x hx
    rcases List.mem_append.mp hx with hx | hx
    · exact hrest x (by simp [hx])
    · obtain rfl := List.mem_singleton.mp hx
      rw [hcomb]
      exact hrest p (by simp)

namespace Reader

/-- What is known of the combinators behind the text `u`, the first character of which is `c`. -/
structure Led (c : Char) (u : List Char) (r : Reader) : Prop where
  flushed : Leads (some c) r.flushed
  fresh : r.flushed = [] → r.pending ≠ some .descendant ∧ (r.pending = none → u = [])
  between : r.compound = [] → r.parts ≠ [] → r.pending.isSome = true

theorem led_start (c : Char) : Led c [] start :=
  ⟨trivial, fun _ => ⟨by simp [start], fun _ => rfl⟩, fun _ h => absurd rfl h⟩

theorem flushed_of_ne {r : Reader} (h : r.compound ≠ []) :
    r.flushed = r.parts ++ [⟨r.lead, r.compound⟩] := by
  rw [flushed, if_neg (by simpa using h)]

theorem flushed_of_eq {r : Reader} (h : r.compound = []) : r.flushed = r.parts := by
  rw [flushed, if_pos (by simpa using h)]

theorem Led.separate {c d : Char} {u : List Char} {r : Reader} (h : Led c u r)
    (hc : Text.isBlank c = false) (hd : u = [] → d = c) (hb : IsBreak d) :
    Led c (u ++ [d]) (r.separate d) := by
  have hflushed : (r.separate d).flushed = r.flushed := rfl
  cases hk : Combinator.ofChar? d with
  | some k =>
    have hpending : (r.separate d).pending = some k := by simp [Reader.separate, hk]
    refine ⟨hflushed ▸ h.flushed, fun _ => ?_, fun _ _ => by rw [hpending]; rfl⟩
    rw [hpending]
    exact ⟨fun hdesc => ofChar?_ne_descendant d (hk.trans hdesc), by simp⟩
  | none =>
    have hspace : isSelectorSpace d = true := by simpa [IsBreak, hk] using hb
    have hpending : (r.separate d).pending =
        if r.flushed.isEmpty then r.pending else r.pending.or (some .descendant) := by
      simp [Reader.separate, hk]
    refine ⟨hflushed ▸ h.flushed, fun hnil => ?_, fun _ hparts => ?_⟩
    · -- a space is not the first character of the text
      rw [hflushed] at hnil
      obtain ⟨hdesc, hnone⟩ := h.fresh hnil
      rw [hpending, if_pos (by simp [hnil])]
      refine ⟨hdesc, fun hpend => ?_⟩
      have hblank := isBlank_of_isSelectorSpace hspace
      rw [hd (hnone hpend), hc] at hblank
      cases hblank
    · have hne : r.flushed ≠ [] := hparts
      rw [hpending, if_neg (by simpa using hne)]
      cases r.pending <;> rfl

theorem Led.puts {c d : Char} {u : List Char} {r r' : Reader} (h : Led c u r)
    (hd : u = [] → d = c) (hp : Puts r d r') : Led c (u ++ [d]) r' := by
  have hne : r'.compound ≠ [] := by simp [hp.compound]
  have hflushed := flushed_of_ne hne
  refine ⟨?_, fun hnil => ?_, fun hnil => absurd hnil hne⟩
  · rw [hflushed, hp.parts, hp.lead, hp.compound]
    by_cases hempty : r.compound = []
    · rw [if_pos hempty]
      have hparts := flushed_of_eq hempty
      refine leads_concat (hparts ▸ h.flushed) (fun hnil => ?_) (h.between hempty)
      obtain ⟨hdesc, hnone⟩ := h.fresh (hparts.trans hnil)
      refine ⟨hdesc, fun hpend => ?_⟩
      rw [hempty, hd (hnone hpend)]
      rfl
    · rw [if_neg hempty]
      have hleads := h.flushed
      rw [flushed_of_ne hempty] at hleads
      exact hleads.of_concat rfl (List.head?_append_of_ne_nil _ hempty)
  · rw [hflushed] at hnil
    simp at hnil

theorem Led.step {c d : Char} {u : List Char} {r r' : Reader} (h : Led c u r)
    (hc : Text.isBlank c = false) (hd : u = [] → d = c)
    (hquote : ∀ q, r.quote = some q → isQuote q = true) (hr : r.step d = .ok r') :
    Led c (u ++ [d]) r' := by
  rcases step_cases hquote hr with ⟨-, hb, rfl⟩ | hp
  · -- whether the reader is in an escape does not count for the combinators
    have hout : Led c u { r with escape := .outside } := ⟨h.flushed, h.fresh, h.between⟩
    exact hout.separate hc hd hb
  · exact h.puts hd hp

end Reader

namespace Selector

open Reader

/-- What a text may hold for its selectors to be in normal form: brackets are not closed before they
are opened, no hexadecimal digit is escaped, and no anchor stands in a string. -/
def Tame (st : ListState) (c : Char) : Prop :=
  Fits Escapable (fun _ => False) st c ∧ AnchorOutside st c

theorem spares_tame : Spares Tame := fun _ _ h hesc => h.1.2.1 hesc

theorem closed_of_finished {w : List Char} (h : Finished Tame w) :
    Closed Escapable EndsCompound w ∧ Along AnchorOutside ListState.start w := by
  refine ⟨⟨h.ends, h.holds.imp ?_⟩, h.holds.imp fun _ _ hc => hc.1.2⟩
  intro st c hc
  refine ⟨hc.1.1.1, hc.1.1.2.1, fun hst hends => ?_⟩
  obtain ⟨hcomma, hbreak⟩ := hc.2 hst
  rcases hends with hends | hends
  · exact hcomma hends
  · exact hbreak spares_tame hends

theorem leads_of_read {s : List Char} {sel : Selector} (h : read s = .ok sel) :
    ∃ c, Text.isBlank c = false ∧ Leads (some c) sel.parts := by
  obtain ⟨r, hrun, hfinish⟩ := read_eq_ok h
  obtain ⟨rfl, -, -, hne⟩ := finish_eq_ok hfinish
  -- the text is not empty, since a compound has been read from it
  have htext : Text.trim s ≠ [] := by
    intro hnil
    rw [hnil] at hrun
    obtain rfl := Except.ok.inj hrun
    exact hne rfl
  obtain ⟨c, t, ht⟩ := List.exists_cons_of_ne_nil htext
  have hblank : Text.isBlank c = false := (Text.trimmed_trim s).head c (by simp [ht])
  have hled : Led c (Text.trim s) r := by
    have hkeep := invariant (I := fun u r => ∀ v, Text.trim s = u ++ v →
      Progress (fun _ _ => True) u r ∧ Led c u r) ?_ (fun _ _ => ⟨progress_start, led_start c⟩) hrun
    · exact (hkeep [] (by simp)).2
    intro u r d r' ih hr v hv
    obtain ⟨hprog, hled⟩ := ih (d :: v) (by simpa using hv)
    refine ⟨hprog.step trivial hr, hled.step hblank ?_ hprog.isQuote hr⟩
    rintro rfl
    rw [hv] at ht
    exact (List.cons.inj ht).1
  have := hled.flushed
  rw [flushed_of_ne hne] at this
  exact ⟨c, hblank, this⟩

theorem isNormal_of_read {s : List Char} {sel : Selector} (h : read s = .ok sel)
    (hs : Along Tame ListState.start (Text.trim s))
    (hesc : (ListState.start.after (Text.trim s)).escaped = false) :
    sel.IsNormal ∧ ∀ p ∈ sel.parts, Along AnchorOutside ListState.start p.compound := by
  have hread := isReadFrom_of_read h hs hesc
  have hfinished := fun p hp => closed_of_finished (hread.finished p hp)
  refine ⟨⟨⟨fun p hp => ⟨(hread.finished p hp).ne_nil, (hfinished p hp).1⟩, ?_⟩, leads_of_read h⟩,
    fun p hp => (hfinished p hp).2⟩
  obtain ⟨ps, p, hps, hlast⟩ := hread.last
  exact ⟨ps, p, hps, fun d hd => (Text.trimmed_trim s).last d (hlast ▸ hd)⟩

end Selector
end UtilityCss
