import UtilityCss.Proofs.Selector.Composition
import UtilityCss.Proofs.Selector.Product

/-!
# Reading the text of a selector again

The text of a selector has a space behind each compound but the last. A hexadecimal escape takes one
space with it, so behind a compound that ends in such an escape, without a space of its own, that space
does not end the compound. This is the only way in which the text of a selector that was read can fail
to read as the selector (`Selector.parse_text_iff`).

While a text is read, the state of the reader can be found again from the parts alone: reading their text
leads to the same state (`Reader.Retraced`), as long as no finished compound ends in an open escape.
Where one does, the space behind it is put to the compound, and stays there (`Reader.Extends`).
-/

namespace UtilityCss

open Anchor ListState

/-! ## The escape at the end of a compound -/

/-- Whether a text ends in a hexadecimal escape without its space: a backslash that is not escaped
itself, and one to six hexadecimal digits. -/
def EndsInHexEscape (w : List Char) : Prop :=
  ∃ u ds, w = u ++ '\\' :: ds ∧ Even (trailingBackslashes u) ∧ 0 < ds.length ∧ ds.length ≤ 6 ∧
    ∀ d ∈ ds, isHexDigit d = true

namespace Escape

/-- Where a reader stands behind one more character that it puts to a compound. -/
def next : Escape → Char → Escape
  | outside, c => if c = '\\' then opened else outside
  | opened, c => if isHexDigit c then hex 1 else outside
  | hex n, c =>
    if n < 6 && isHexDigit c then hex (n + 1) else if c = '\\' then opened else outside

/-- Where a reader stands behind a compound. -/
def after (w : List Char) : Escape := w.foldl next outside

def isHex : Escape → Bool
  | hex _ => true
  | _ => false

variable {e : Escape} {c : Char} {w : List Char} {n : Nat}

theorem after_concat (w : List Char) (c : Char) : after (w ++ [c]) = (after w).next c := by
  simp [after]

theorem next_eq_opened_iff : e.next c = opened ↔ e ≠ opened ∧ c = '\\' := by
  have hbackslash : isHexDigit '\\' = false := by decide
  cases e with
  | outside => by_cases hc : c = '\\' <;> simp [next, hc]
  | opened => by_cases hc : isHexDigit c = true <;> simp [next, hc]
  | hex n =>
    by_cases hc : c = '\\'
    · simp [next, hc, hbackslash]
    · by_cases hd : (n < 6 && isHexDigit c) = true <;> simp [next, hc, hd]

theorem next_eq_hex_iff : e.next c = hex n ↔
    isHexDigit c = true ∧ (e = opened ∧ n = 1 ∨ ∃ m < 6, e = hex m ∧ n = m + 1) := by
  cases e with
  | outside => by_cases hc : c = '\\' <;> simp [next, hc]
  | opened => by_cases hc : isHexDigit c = true <;> simp [next, hc, eq_comm]
  | hex m =>
    by_cases hd : (m < 6 && isHexDigit c) = true
    · rw [next, if_pos hd]
      simp only [Bool.and_eq_true, decide_eq_true_eq] at hd
      simp [hd, eq_comm]
    · rw [next, if_neg hd]
      simp only [Bool.and_eq_true, decide_eq_true_eq, not_and] at hd
      refine iff_of_false (by split_ifs <;> simp) ?_
      rintro ⟨hc, ⟨hopened, -⟩ | ⟨k, hk, hm, -⟩⟩
      · cases hopened
      · obtain rfl := hex.inj hm
        exact hd hk hc

theorem after_eq_opened_iff : after w = opened ↔ ¬ Neutral w := by
  induction w using List.reverseRecOn with
  | nil => exact iff_of_false (by simp [after]) (by simp [Neutral, protectedAfter])
  | append_singleton w c ih =>
    have hafter : protectedAfter false (w ++ [c]) = protectsNext (protectedAfter false w) c := by
      simp [protectedAfter]
    rw [after_concat, next_eq_opened_iff, Ne, ih, Neutral, Neutral, hafter]
    simp [protectsNext]

theorem exists_of_after_eq_opened (h : after w = opened) : ∃ u, w = u ++ ['\\'] ∧ Neutral u :=
  exists_of_not_neutral (after_eq_opened_iff.mp h)

theorem exists_of_after_eq_hex (h : after w = hex n) : ∃ u ds, w = u ++ '\\' :: ds ∧ Neutral u ∧
    ds.length = n ∧ 0 < n ∧ n ≤ 6 ∧ ∀ d ∈ ds, isHexDigit d = true := by
  induction w using List.reverseRecOn generalizing n with
  | nil => cases h
  | append_singleton w c ih =>
    rw [after_concat, next_eq_hex_iff] at h
    obtain ⟨hc, ⟨hopened, rfl⟩ | ⟨m, hm, hhex, rfl⟩⟩ := h
    · obtain ⟨u, rfl, hu⟩ := exists_of_after_eq_opened hopened
      exact ⟨u, [c], by simp, hu, rfl, by decide, by decide, by simpa using hc⟩
    · obtain ⟨u, ds, rfl, hu, rfl, -, -, hds⟩ := ih hhex
      refine ⟨u, ds ++ [c], by simp, hu, by simp, by omega, by omega, ?_⟩
      simpa [or_imp, forall_and] using ⟨hds, hc⟩

theorem after_digits {u ds : List Char} (hu : Neutral u) (hne : ds ≠ []) (hle : ds.length ≤ 6)
    (hds : ∀ d ∈ ds, isHexDigit d = true) : after (u ++ '\\' :: ds) = hex ds.length := by
  induction ds using List.reverseRecOn with
  | nil => exact absurd rfl hne
  | append_singleton ds d ih =>
    have hsplit : u ++ '\\' :: (ds ++ [d]) = u ++ '\\' :: ds ++ [d] := by simp
    rw [List.length_append, List.length_singleton] at hle ⊢
    rw [hsplit, after_concat, next_eq_hex_iff]
    refine ⟨hds d (by simp), ?_⟩
    by_cases hnil : ds = []
    · subst hnil
      refine .inl ⟨?_, rfl⟩
      rw [after_concat, next_eq_opened_iff]
      exact ⟨fun hopened => after_eq_opened_iff.mp hopened hu, rfl⟩
    · exact .inr ⟨ds.length, hle, ih hnil (by omega) fun x hx => hds x (by simp [hx]), rfl⟩

end Escape

theorem endsInHexEscape_iff {w : List Char} : EndsInHexEscape w ↔ ∃ n, Escape.after w = .hex n := by
  constructor
  · rintro ⟨u, ds, rfl, hu, hpos, hle, hds⟩
    exact ⟨ds.length, Escape.after_digits (neutral_iff.mpr hu) (List.length_pos_iff.mp hpos) hle hds⟩
  · rintro ⟨_, h⟩
    obtain ⟨u, ds, hw, hu, rfl, hpos, hle, hds⟩ := Escape.exists_of_after_eq_hex h
    exact ⟨u, ds, hw, neutral_iff.mp hu, hpos, hle, hds⟩

instance (w : List Char) : Decidable (EndsInHexEscape w) :=
  decidable_of_iff ((Escape.after w).isHex = true) (by
    rw [endsInHexEscape_iff]
    cases Escape.after w <;> simp [Escape.isHex])

/-! ## The text of parts -/

theorem Part.exists_followingText_eq (p : Part) : ∃ t, p.followingText = ' ' :: t := by
  unfold Part.followingText
  cases p.combinator.getD .descendant with
  | descendant => exact ⟨_, rfl⟩
  | child => exact ⟨_, rfl⟩
  | nextSibling => exact ⟨_, rfl⟩
  | subsequentSibling => exact ⟨_, rfl⟩

namespace Selector

theorem text_append (ps : List Part) (p : Part) (qs : List Part) :
    text ⟨ps ++ p :: qs⟩ = text ⟨ps ++ [p]⟩ ++ qs.flatMap Part.followingText := by
  cases ps with
  | nil => simp [text]
  | cons o ps => simp [text]

theorem text_concat (ps : List Part) (p q : Part) :
    text ⟨ps ++ [p] ++ [q]⟩ = text ⟨ps ++ [p]⟩ ++ q.followingText := by
  rw [List.append_assoc, List.singleton_append, text_append]
  simp

theorem text_append_compound (ps : List Part) (k : Option Combinator) (w t : List Char) :
    text ⟨ps ++ [⟨k, w ++ t⟩]⟩ = text ⟨ps ++ [⟨k, w⟩]⟩ ++ t := by
  cases ps with
  | nil => cases k <;> simp [text, Part.leadingText]
  | cons o ps => simp [text, Part.followingText]

theorem exists_text_eq_append (ps : List Part) (p : Part) {qs : List Part} (hqs : qs ≠ []) :
    ∃ t, text ⟨ps ++ p :: qs⟩ = text ⟨ps ++ [p]⟩ ++ ' ' :: t := by
  obtain ⟨q, qs, rfl⟩ := List.exists_cons_of_ne_nil hqs
  obtain ⟨t, ht⟩ := q.exists_followingText_eq
  refine ⟨t ++ qs.flatMap Part.followingText, ?_⟩
  rw [text_append, List.flatMap_cons, ht]
  rfl

end Selector

theorem eq_or_exists_of_concat {ps qs parts : List Part} {p last : Part}
    (h : parts ++ [last] = ps ++ p :: qs) :
    (parts = ps ∧ last = p) ∨ ∃ rest, parts = ps ++ p :: rest := by
  rcases List.eq_nil_or_concat qs with rfl | ⟨rest, q, rfl⟩
  · obtain ⟨hparts, hlast⟩ := List.append_inj' h rfl
    exact .inl ⟨hparts, List.singleton_inj.mp hlast⟩
  · have hsplit : parts ++ [last] = (ps ++ p :: rest) ++ [q] := by simpa using h
    exact .inr ⟨rest, (List.append_inj' hsplit rfl).1⟩

theorem exists_first_open {parts : List Part} {p : Part} (hp : p ∈ parts)
    (hopen : EndsInHexEscape p.compound) :
    ∃ ps q qs, parts = ps ++ q :: qs ∧ EndsInHexEscape q.compound ∧
      ∀ x ∈ ps, ¬ EndsInHexEscape x.compound := by
  have hsome : (parts.find? fun q => EndsInHexEscape q.compound).isSome = true :=
    List.find?_isSome.mpr ⟨p, hp, decide_eq_true hopen⟩
  obtain ⟨q, hfind⟩ := Option.isSome_iff_exists.mp hsome
  obtain ⟨hq, ps, qs, hsplit, hps⟩ := List.find?_eq_some_iff_append.mp hfind
  exact ⟨ps, q, qs, hsplit, of_decide_eq_true hq, fun x hx => by simpa using hps x hx⟩

/-! ## Where a reader stands -/

namespace Reader

open Selector

theorem escape_track (r : Reader) (c : Char) : (r.track c).escape = r.escape := by
  unfold track
  split
  · split <;> rfl
  · split_ifs <;> rfl

theorem escape_plain {r r' : Reader} {c : Char} (he : r.escape = .outside)
    (h : r.plain c = .ok r') (hne : r'.compound ≠ []) : r'.escape = r.escape.next c := by
  rw [he, Escape.next]
  unfold plain at h
  split_ifs at h with h1 h2 h3
  · obtain rfl := Except.ok.inj h
    exact absurd rfl hne
  · obtain rfl := Except.ok.inj h
    rw [if_pos h3]
  · obtain rfl := Except.ok.inj h
    rw [escape_track, escape_put, he, if_neg h3]

theorem escape_step {r r' : Reader} {c : Char} (h : r.step c = .ok r') (hne : r'.compound ≠ []) :
    r'.escape = r.escape.next c := by
  unfold step at h
  split at h
  · next he => exact escape_plain he h hne
  · next he =>
    obtain rfl := Except.ok.inj h
    rw [he]
    rfl
  · next n he =>
    rw [he, Escape.next]
    split_ifs at h with h1 h2
    · obtain rfl := Except.ok.inj h
      rw [if_pos h1]
    · obtain rfl := Except.ok.inj h
      subst h2
      rw [if_neg h1, if_neg (by decide)]
    · rw [if_neg h1, escape_plain rfl h hne]
      rfl

/-- The states between two compounds. -/
inductive Rests : Reader → Prop
  | first {pending : Option Combinator} (h : pending ≠ some .descendant) :
      Rests (waiting [] none pending)
  | next (ps : List Part) (p : Part) (k : Combinator) :
      Rests (waiting (ps ++ [p]) p.combinator (some k))

/-- What is known of the state of a reader that started at the start. -/
structure Regular (r : Reader) : Prop where
  escape : r.escape = Escape.after r.compound
  pending : r.compound ≠ [] → r.pending = none
  rests : r.compound = [] → Rests r
  parts : ∀ p ∈ r.parts, p.compound ≠ [] ∧ Escape.after p.compound ≠ .opened

theorem regular_start : Regular start :=
  ⟨rfl, fun h => absurd rfl h, fun _ => .first (by simp), by simp [start]⟩

theorem Rests.separate {r : Reader} (h : Rests r) (c : Char) : Rests (r.separate c) := by
  cases h with
  | first h =>
    cases hk : Combinator.ofChar? c with
    | some k =>
      have : Rests (waiting [] none (some k)) := .first (hk ▸ ofChar?_ne_descendant c)
      simpa [Reader.separate, waiting, flushed, hk] using this
    | none => simpa [Reader.separate, waiting, flushed, hk] using Rests.first h
  | next ps p k =>
    cases hk : Combinator.ofChar? c with
    | some k' => simpa [Reader.separate, waiting, flushed, hk] using Rests.next ps p k'
    | none => simpa [Reader.separate, waiting, flushed, hk] using Rests.next ps p k

theorem Regular.separate {r : Reader} (h : Regular r) (hst : r.listState = ListState.start)
    (c : Char) : Regular ({ r with escape := .outside }.separate c) := by
  obtain ⟨parts, compound, lead, pending, depth, quote, escape⟩ := r
  obtain rfl : quote = none := congrArg ListState.quote hst
  obtain rfl : depth = 0 := congrArg ListState.depth hst
  have hopened : escape ≠ .opened := by
    have := congrArg ListState.escaped hst
    simpa [listState, ListState.start] using this
  by_cases hc : compound = []
  · subst hc
    obtain rfl : escape = .outside := h.escape
    exact ⟨rfl, fun hne => absurd rfl hne, fun _ => (h.rests rfl).separate c, h.parts⟩
  · have hflushed : flushed ⟨parts, compound, lead, pending, 0, none, .outside⟩ =
        parts ++ [⟨lead, compound⟩] := flushed_of_ne hc
    obtain rfl : pending = none := h.pending hc
    refine ⟨rfl, fun hne => absurd rfl hne, fun _ => ?_, fun p hp => ?_⟩
    · cases hk : Combinator.ofChar? c with
      | some k =>
        simpa [Reader.separate, waiting, hflushed, hk] using Rests.next parts ⟨lead, compound⟩ k
      | none =>
        simpa [Reader.separate, waiting, hflushed, hk] using
          Rests.next parts ⟨lead, compound⟩ .descendant
    · have hp : p ∈ parts ++ [⟨lead, compound⟩] := hflushed ▸ hp
      rcases List.mem_append.mp hp with hp | hp
      · exact h.parts p hp
      · obtain rfl := List.mem_singleton.mp hp
        exact ⟨hc, fun hafter => hopened (h.escape.trans hafter)⟩

theorem Regular.puts {r r' : Reader} {c : Char} (h : Regular r) (hr : r.step c = .ok r')
    (hp : Puts r c r') : Regular r' := by
  have hne : r'.compound ≠ [] := by simp [hp.compound]
  refine ⟨?_, fun _ => ?_, fun hnil => absurd hnil hne, hp.parts ▸ h.parts⟩
  · rw [escape_step hr hne, hp.compound, Escape.after_concat, h.escape]
  · rw [hp.pending]
    split_ifs with hc
    · rfl
    · exact h.pending hc

/-! ## Finding the state again -/

/-- The reader behind a compound that may end in an open escape. -/
def ended (ps : List Part) (p : Part) : Reader :=
  { behind ps p with escape := Escape.after p.compound }

theorem ended_eq_behind {ps : List Part} {p : Part} (hopened : Escape.after p.compound ≠ .opened)
    (hhex : ¬ EndsInHexEscape p.compound) : ended ps p = behind ps p := by
  have houtside : Escape.after p.compound = .outside := by
    cases he : Escape.after p.compound with
    | outside => rfl
    | opened => exact absurd he hopened
    | hex n => exact absurd (endsInHexEscape_iff.mpr ⟨n, he⟩) hhex
  rw [ended, houtside]
  rfl

/-- The text of the parts leads to the state behind them, as far as no compound before the last one
ends in an open escape. -/
structure Retraced (r : Reader) : Prop where
  finished : ∀ ps p qs, r.parts = ps ++ p :: qs → (∀ x ∈ ps, ¬ EndsInHexEscape x.compound) →
    (text ⟨ps ++ [p]⟩).foldlM step start = .ok (ended ps p)
  begun : r.compound ≠ [] → (∀ x ∈ r.parts, ¬ EndsInHexEscape x.compound) →
    (text ⟨r.flushed⟩).foldlM step start = .ok r

theorem retraced_start : Retraced start :=
  ⟨fun ps p qs h => absurd h.symm (by simp [start]), fun h => absurd rfl h⟩

theorem Retraced.read_rest {r : Reader} (h : Retraced r) (hreg : Regular r) (hc : r.compound = [])
    (hparts : ∀ x ∈ r.parts, ¬ EndsInHexEscape x.compound) :
    ∃ t, t.foldlM step start = .ok r ∧ ∀ w, text ⟨r.parts ++ [⟨r.pending, w⟩]⟩ = t ++ w := by
  cases hreg.rests hc with
  | @first pending hdesc =>
    cases pending with
    | none => exact ⟨[], rfl, fun w => by simp [waiting, text, Part.leadingText]⟩
    | some k =>
      refine ⟨k.mark ++ [' '], read_mark [] none none fun hk => hdesc (congrArg some hk), fun w => ?_⟩
      simp [waiting, text, Part.leadingText]
  | next ps p k =>
    have hp : p ∈ ps ++ [p] := by simp
    obtain ⟨hne, hopened⟩ := hreg.parts p hp
    have hread := h.finished ps p [] rfl fun x hx => hparts x (List.mem_append_left _ hx)
    rw [ended_eq_behind hopened (hparts p hp)] at hread
    refine ⟨text ⟨ps ++ [p]⟩ ++ k.between, ?_, fun w => ?_⟩
    · rw [foldlM_append_ok hread, read_between ps hne]
    · show text ⟨ps ++ [p] ++ [⟨some k, w⟩]⟩ = _
      rw [text_concat, List.append_assoc]
      rfl

theorem foldlM_concat {t : List Char} {r₁ r r' : Reader} {c : Char} (ht : t.foldlM step r₁ = .ok r)
    (hr : r.step c = .ok r') : (t ++ [c]).foldlM step r₁ = .ok r' := by
  rw [foldlM_append_ok ht, List.foldlM_cons, hr]
  rfl

theorem Retraced.puts {r r' : Reader} {c : Char} (h : Retraced r) (hreg : Regular r)
    (hr : r.step c = .ok r') (hp : Puts r c r') : Retraced r' := by
  refine ⟨hp.parts ▸ h.finished, fun hne hparts => ?_⟩
  rw [hp.parts] at hparts
  rw [flushed_of_ne hne, hp.parts, hp.lead, hp.compound]
  by_cases hc : r.compound = []
  · obtain ⟨t, hread, htext⟩ := h.read_rest hreg hc hparts
    rw [if_pos hc, hc, List.nil_append, htext]
    exact foldlM_concat hread hr
  · have hread := h.begun hc hparts
    rw [flushed_of_ne hc] at hread
    rw [if_neg hc, text_append_compound]
    exact foldlM_concat hread hr

theorem Retraced.separate {r : Reader} (h : Retraced r) (hreg : Regular r)
    (hst : r.listState = ListState.start) (c : Char) :
    Retraced ({ r with escape := .outside }.separate c) := by
  refine ⟨fun ps p qs hsplit hps => ?_, fun hne => absurd rfl hne⟩
  have hsplit : r.flushed = ps ++ p :: qs := hsplit
  by_cases hc : r.compound = []
  · rw [flushed_of_eq hc] at hsplit
    exact h.finished ps p qs hsplit hps
  rw [flushed_of_ne hc] at hsplit
  obtain ⟨rfl, rfl⟩ | ⟨rest, hrest⟩ := eq_or_exists_of_concat hsplit
  · -- the compound that was being read has become the last part
    have hread := h.begun hc hps
    rw [flushed_of_ne hc] at hread
    rw [hread]
    obtain ⟨parts, compound, lead, pending, depth, quote, escape⟩ := r
    obtain rfl : quote = none := congrArg ListState.quote hst
    obtain rfl : depth = 0 := congrArg ListState.depth hst
    obtain rfl : pending = none := hreg.pending hc
    obtain rfl : escape = Escape.after compound := hreg.escape
    rfl
  · exact h.finished ps p rest hrest hps

theorem retraced_of_run {s : List Char} {r : Reader} (h : s.foldlM step start = .ok r) :
    Regular r ∧ Retraced r := by
  refine kept_of_run (I := fun r => Regular r ∧ Retraced r) (s := []) ?_ rfl
    ⟨regular_start, retraced_start⟩ h
  rintro r c r' hquote ⟨hreg, hret⟩ hr
  rcases step_cases hquote hr with ⟨hst, -, rfl⟩ | hp
  · exact ⟨hreg.separate hst c, hret.separate hreg hst c⟩
  · exact ⟨hreg.puts hr hp, hret.puts hreg hr hp⟩

/-! ## The space behind an open escape -/

/-- Whether the part behind the parts `ps` starts with the text `k`. -/
def Extends (ps : List Part) (k : List Char) (r : Reader) : Prop :=
  ∃ p qs, r.flushed = ps ++ p :: qs ∧ k <+: p.compound

theorem Extends.step {ps : List Part} {k : List Char} {r r' : Reader} {c : Char}
    (hquote : ∀ q, r.quote = some q → isQuote q = true) (h : Extends ps k r)
    (hr : r.step c = .ok r') : Extends ps k r' := by
  obtain ⟨p, qs, hsplit, hk⟩ := h
  rcases step_cases hquote hr with ⟨-, -, rfl⟩ | hp
  · exact ⟨p, qs, hsplit, hk⟩
  have hne : r'.compound ≠ [] := by simp [hp.compound]
  by_cases hc : r.compound = []
  · rw [flushed_of_eq hc] at hsplit
    refine ⟨p, qs ++ [⟨r'.lead, r'.compound⟩], ?_, hk⟩
    rw [flushed_of_ne hne, hp.parts, hsplit]
    simp
  · rw [flushed_of_ne hc] at hsplit
    have hflushed : r'.flushed = r.parts ++ [⟨r.lead, r.compound ++ [c]⟩] := by
      rw [flushed_of_ne hne, hp.parts, hp.lead, if_neg hc, hp.compound]
    obtain ⟨hparts, rfl⟩ | ⟨rest, hrest⟩ := eq_or_exists_of_concat hsplit
    · exact ⟨_, [], hparts ▸ hflushed, hk.trans (List.prefix_append _ _)⟩
    · refine ⟨p, rest ++ [⟨r.lead, r.compound ++ [c]⟩], ?_, hk⟩
      rw [hflushed, hrest]
      simp

theorem step_space_ended (ps : List Part) {p : Part} (h : EndsInHexEscape p.compound)
    (hne : p.compound ≠ []) :
    ∃ r, (ended ps p).step ' ' = .ok r ∧ Extends ps (p.compound ++ [' ']) r := by
  obtain ⟨n, hn⟩ := endsInHexEscape_iff.mp h
  have hdigit : isHexDigit ' ' = false := by decide
  have hstep : (ended ps p).step ' ' = .ok { (ended ps p).put ' ' with escape := .outside } := by
    simp [step, ended, hn, hdigit]
  refine ⟨_, hstep, ⟨p.combinator, p.compound ++ [' ']⟩, [], ?_, List.prefix_rfl⟩
  simp [ended, behind, put, flushed, hne]

theorem extends_of_run {ps : List Part} {p : Part} (hopen : EndsInHexEscape p.compound)
    (hne : p.compound ≠ []) (hread : (text ⟨ps ++ [p]⟩).foldlM step start = .ok (ended ps p))
    {t : List Char} {r : Reader}
    (hrun : (text ⟨ps ++ [p]⟩ ++ ' ' :: t).foldlM step start = .ok r) :
    Extends ps (p.compound ++ [' ']) r := by
  obtain ⟨r₁, hspace, hextends⟩ := step_space_ended ps hopen hne
  have hread₁ := foldlM_concat hread hspace
  rw [List.append_cons, foldlM_append_ok hread₁] at hrun
  exact kept_of_run (fun _ _ _ hquote h hr => h.step hquote hr) hread₁ hextends hrun

end Reader

namespace Selector

open Reader

theorem trimmed_text_of_read {s : List Char} {sel : Selector} (h : read s = .ok sel) :
    Text.Trimmed sel.text := by
  obtain ⟨c, hblank, hleads⟩ := leads_of_read h
  obtain ⟨r, hrun, hfinish⟩ := read_eq_ok h
  obtain ⟨rfl, -, -, hne⟩ := finish_eq_ok hfinish
  have hparts := (retraced_of_run hrun).1.parts
  refine ⟨fun _ => head?_text_of_leads hblank hleads fun p hp => ?_, fun d hd => ?_⟩
  · rcases List.mem_append.mp hp with hp | hp
    · exact (hparts p hp).1
    · obtain rfl := List.mem_singleton.mp hp
      exact hne
  · -- the text of the selector ends as the text that was read
    have hlast := (progress_of_any_run hrun).last hne
    obtain ⟨u, hu⟩ := @text_eq_append ⟨r.parts ++ [⟨r.lead, r.compound⟩]⟩ _ _ rfl
    rw [hu, List.getLast?_append_of_ne_nil _ hne, hlast] at hd
    exact (Text.trimmed_trim s).last d hd

theorem read_text_of_read {s : List Char} {sel : Selector} (h : read s = .ok sel)
    (hparts : ∀ p ∈ sel.parts.dropLast, ¬ EndsInHexEscape p.compound) : read sel.text = .ok sel := by
  have htrim := Text.trim_of_trimmed (trimmed_text_of_read h)
  obtain ⟨r, hrun, hfinish⟩ := read_eq_ok h
  obtain ⟨rfl, -, -, hne⟩ := finish_eq_ok hfinish
  rw [List.dropLast_concat] at hparts
  have hread := (retraced_of_run hrun).2.begun hne hparts
  rw [flushed_of_ne hne] at hread
  rw [read, htrim, hread]
  exact hfinish

theorem read_text_ne_of_read {s : List Char} {sel : Selector} (h : read s = .ok sel) {p : Part}
    (hp : p ∈ sel.parts.dropLast) (hopen : EndsInHexEscape p.compound) :
    read sel.text ≠ .ok sel := by
  intro hagain
  have htrim := Text.trim_of_trimmed (trimmed_text_of_read h)
  obtain ⟨r, hrun, hfinish⟩ := read_eq_ok h
  obtain ⟨rfl, -, -, -⟩ := finish_eq_ok hfinish
  rw [List.dropLast_concat] at hp
  obtain ⟨ps, q, qs, hsplit, hopen, hps⟩ := exists_first_open hp hopen
  obtain ⟨hreg, hret⟩ := retraced_of_run hrun
  have hne : q.compound ≠ [] := (hreg.parts q (by simp [hsplit])).1
  -- the space behind the first such compound is put to it
  have hlast : qs ++ [⟨r.lead, r.compound⟩] ≠ [] := by simp
  obtain ⟨t, ht⟩ := exists_text_eq_append ps q hlast
  have hparts : r.parts ++ [⟨r.lead, r.compound⟩] = ps ++ q :: (qs ++ [⟨r.lead, r.compound⟩]) := by
    simp [hsplit]
  obtain ⟨r', hrun', hfinish'⟩ := read_eq_ok hagain
  rw [htrim, hparts, ht] at hrun'
  obtain ⟨x, xs, hx, hprefix⟩ := extends_of_run hopen hne (hret.finished ps q qs hsplit hps) hrun'
  -- but in the selector it stands behind it
  obtain ⟨hsel, -, -, hne'⟩ := finish_eq_ok hfinish'
  rw [flushed_of_ne hne', ← (Selector.mk.inj hsel), hparts, List.append_cancel_left_eq] at hx
  obtain rfl := (List.cons.inj hx).1
  have hlength := hprefix.length_le
  rw [List.length_append, List.length_singleton] at hlength
  omega

/-- **Printing and reading.** The text of a selector that was read reads as the selector again, with the
same parts, combinators and compounds, if and only if no compound but the last ends in a hexadecimal escape
without its space. Behind such a compound the space of the combinator is taken by the escape. -/
theorem parse_text_iff {s : String} {sel : Selector} (h : parse s = .ok sel) :
    parse (String.ofList sel.text) = .ok sel ↔
      ∀ p ∈ sel.parts.dropLast, ¬ EndsInHexEscape p.compound := by
  have hread : read s.toList = .ok sel := read_of_parse (by rwa [String.ofList_toList])
  constructor
  · intro hagain p hp hopen
    exact read_text_ne_of_read hread hp hopen (read_of_parse hagain)
  · intro hparts
    exact parse_of_read (read_text_of_read hread hparts)

theorem parse_text_iff_spacedNumber :
    ∃ sel, parse "> .a:not(b > c)  +  \\\\31 .d\\>e ~\\31  .\\&" = .ok sel ∧
      String.ofList sel.text = "> .a:not(b > c) + \\\\31 .d\\>e ~ \\31  .\\&" ∧
      parse (String.ofList sel.text) = .ok sel := by
  have hparse : parse "> .a:not(b > c)  +  \\\\31 .d\\>e ~\\31  .\\&" =
      .ok ⟨[⟨some .child, ".a:not(b > c)".toList⟩, ⟨some .nextSibling, "\\\\31".toList⟩,
        ⟨some .descendant, ".d\\>e".toList⟩, ⟨some .subsequentSibling, "\\31 ".toList⟩,
        ⟨some .descendant, ".\\&".toList⟩]⟩ := by decide
  exact ⟨_, hparse, by decide, (parse_text_iff hparse).mpr (by decide)⟩

/-- What a tab separates is written with a space, and the escape takes the space: a selector of two
compounds is one compound when it is read again, and is composed as one. -/
theorem parse_text_tabBehindNumber :
    ∃ sel, parse "&\\31\tb" = .ok sel ∧ String.ofList sel.text = "&\\31 b" ∧
      parse "&\\31 b" = .ok ⟨[⟨none, "&\\31 b".toList⟩]⟩ ∧ parse "&\\31 b" ≠ .ok sel ∧
      compose "&\\31\tb" "li&" = some "li:is(&\\31 b)" ∧
      compose "&\\31 b" "li&" = some "li&\\31 b" := by
  refine ⟨⟨[⟨none, "&\\31".toList⟩, ⟨some .descendant, ['b']⟩]⟩, ?_⟩
  refine ⟨by decide, by decide, by decide, by decide, by decide, by decide⟩

end Selector
end UtilityCss
