import UtilityCss.Proofs.Selector.Chains
import UtilityCss.Proofs.Selector.NormalForm

/-!
# Products of selector lists

Every selector of one list in the anchors of every selector of another one gives a list text. If all
selectors are in normal form the results are too (`IsNormal.substitute`), and the text reads as the list
of them (`parseList_texts`): the members of a list text made of closed texts are these texts, but
for the space behind the comma (`members_intercalate`).
-/

namespace UtilityCss

open ListState

/-! ## The combinators of a substitution -/

theorem leads_appendToLast {c : Option Char} {t : List Char} {ps : List Part} (h : Leads c ps)
    (hne : ∀ p ∈ ps, p.compound ≠ []) : Leads c (Selector.appendToLast t ps) := by
  rcases List.eq_nil_or_concat ps with rfl | ⟨ps, p, rfl⟩
  · exact h
  · rw [List.concat_eq_append] at h hne ⊢
    rw [Selector.appendToLast_concat]
    exact h.of_concat rfl (List.head?_append_of_ne_nil _ (hne p (by simp)))

theorem leads_replaceLead {c : Option Char} {lead : Option Combinator} {ps : List Part}
    (h : Leads c ps) (hlead : lead ≠ some .descendant) :
    Leads c (Selector.replaceLead lead ps) := by
  cases ps with
  | nil => trivial
  | cons p ps =>
    obtain ⟨hdesc, hfirst, hrest⟩ := h
    cases lead with
    | none => exact ⟨hdesc, hfirst, hrest⟩
    | some k => exact ⟨hlead, fun hnone => (by cases hnone), hrest⟩

theorem leads_append {c : Option Char} {ps qs : List Part} (h : Leads c ps) (hne : ps ≠ [])
    (hqs : ∀ q ∈ qs, q.combinator.isSome = true) : Leads c (ps ++ qs) := by
  cases ps with
  | nil => exact absurd rfl hne
  | cons p ps =>
    obtain ⟨hdesc, hfirst, hrest⟩ := h
    refine ⟨hdesc, hfirst, ?_⟩
    intro q hq
    rcases List.mem_append.mp hq with hq | hq
    · exact hrest q hq
    · exact hqs q hq

theorem head?_replace {r s : List Char} (hr : r ≠ []) {c : Char}
    (h : (Anchor.replace r s).head? = some c) : r.head? = some c ∨ s.head? = some c := by
  rw [Anchor.replace_eq_replaceFrom] at h
  cases s with
  | nil => simp [Anchor.replaceFrom] at h
  | cons d s =>
    rw [Anchor.replaceFrom] at h
    split at h
    · rw [List.head?_append_of_ne_nil _ hr] at h
      exact .inl h
    · exact .inr (by simpa using h)

theorem not_endsCompound_is : ∀ c ∈ [':', 'i', 's', '('], ¬ EndsCompound c := by
  simp only [List.forall_mem_cons]
  exact ⟨by decide, by decide, by decide, by decide, by simp⟩

namespace Selector

theorem IsNormal.head?_inlineText {s : Selector} (h : s.IsNormal) {c : Char}
    (hc : s.inlineText.head? = some c) : Text.isBlank c = false := by
  by_cases hcomp : s.isCompound = true
  · obtain ⟨w, hw⟩ := isCompound_iff.mp hcomp
    obtain ⟨d, hblank, hleads⟩ := h.leads
    rw [inlineText_of_isCompound hw] at hc
    rw [hw] at hleads
    have hhead := hleads.2.1 rfl
    obtain rfl := Option.some.inj (hhead.symm.trans hc)
    exact hblank
  · rw [inlineText, if_neg hcomp] at hc
    obtain rfl := Option.some.inj hc
    decide

theorem IsNormal.isChain {s : Selector} (h : s.IsNormal) : s.IsChain where
  ne_nil := by
    obtain ⟨ps, p, hps, -⟩ := h.last
    simp [hps]
  compounds p hp := (h.compounds p hp).1
  first p hp := by
    obtain ⟨c, -, hleads⟩ := h.leads
    obtain ⟨ps, hps⟩ := List.head?_eq_some_iff.mp hp
    rw [hps] at hleads
    exact hleads.1
  later p hp := by
    obtain ⟨c, -, hleads⟩ := h.leads
    cases hparts : s.parts with
    | nil =>
      rw [hparts] at hp
      cases hp
    | cons q qs =>
      rw [hparts] at hp hleads
      exact hleads.2.2 p hp

theorem exists_leads_expandPart {outer : Selector} (ho : outer.IsNormal) {p : Part} {c : Char}
    (hblank : Text.isBlank c = false) (hp : Leads (some c) [p]) (hne : p.compound ≠ []) :
    ∃ d, Text.isBlank d = false ∧ Leads (some d) (expandPart outer p) := by
  unfold expandPart
  split
  · split
    · obtain ⟨d, hd, hleads⟩ := ho.leads
      refine ⟨d, hd, leads_appendToLast (leads_replaceLead hleads hp.1) ?_⟩
      exact forall_compound (P := fun w => w ≠ []) (map_compound_replaceLead _ _)
        fun q hq => (ho.compounds q hq).1
    · obtain ⟨k, w⟩ := p
      obtain ⟨-, hinline, -⟩ := ho.inlineText (.inl rfl) not_endsCompound_is
      cases k with
      | some k => exact ⟨c, hblank, hp.1, fun hnone => (by cases hnone), by simp⟩
      | none =>
        obtain ⟨d, v, hv⟩ := List.exists_cons_of_ne_nil (replace_ne_nil hinline hne)
        refine ⟨d, ?_, hp.1, fun _ => by rw [hv]; rfl, by simp⟩
        have hhead := congrArg List.head? hv
        rcases head?_replace hinline hhead with hd | hd
        · exact ho.head?_inlineText hd
        · obtain rfl := Option.some.inj ((hp.2.1 rfl).symm.trans hd)
          exact hblank
  · exact ⟨c, hblank, hp⟩

/-- A selector in normal form in the anchors of another one gives one in normal form. -/
theorem IsNormal.substitute {inner outer : Selector} (hi : inner.IsNormal) (ho : outer.IsNormal)
    (hanchor : inner.hasAnchor = true)
    (hout : ∀ p ∈ inner.parts, Along AnchorOutside start p.compound) :
    (inner.substitute outer).IsNormal := by
  refine ⟨hi.toSound.substitute (.inl rfl) not_endsCompound_is ho.toSound hout, ?_⟩
  obtain ⟨c, hblank, hleads⟩ := hi.leads
  rw [Selector.substitute, if_pos hanchor]
  cases hparts : inner.parts with
  | nil => exact ⟨c, hblank, trivial⟩
  | cons p ps =>
    rw [hparts] at hleads
    have hp := hi.compounds p (by simp [hparts])
    obtain ⟨d, hd, hfirst⟩ := exists_leads_expandPart ho hblank ⟨hleads.1, hleads.2.1, by simp⟩ hp.1
    obtain ⟨qs, q, hexpand, -⟩ := (ho.toSound.expandPart (.inl rfl) not_endsCompound_is hp
      (hout p (by simp [hparts]))).2
    refine ⟨d, hd, leads_append hfirst (by simp [hexpand]) ?_⟩
    intro q hq
    obtain ⟨x, hx, hq⟩ := List.mem_flatMap.mp hq
    exact ho.isChain.isSome_combinator_expandPart (hi.compounds x (by simp [hparts, hx])).1
      (hleads.2.2 x hx) q hq

/-! ## List texts -/

theorem members_cons_space (s : List Char) :
    (members (' ' :: s)).map Text.trim = (members s).map Text.trim := by
  have hnext : ListState.start.next ' ' = ListState.start := by decide
  have hsep : ListState.start.separates ' ' = false := by decide
  have hne : members s ≠ [] := Text.splitBy_ne_nil _ _
  have hcons : members (' ' :: s) = Text.consHead ' ' (members s) := by
    rw [members, Text.splitBy, hsep, hnext]
    rfl
  rw [hcons]
  cases hms : members s with
  | nil => exact absurd hms hne
  | cons m ms =>
    show Text.trim ([' '] ++ m) :: _ = _
    rw [Text.trim_append_left (List.forall_mem_singleton.mpr (by decide))]
    rfl

theorem members_intercalate_of_uncut {ts : List (List Char)} (hne : ts ≠ [])
    (h : ∀ t ∈ ts, Text.Uncut next separates start t ∧ start.after t = start) :
    (members ([',', ' '].intercalate ts)).map Text.trim = ts.map Text.trim := by
  induction ts with
  | nil => exact absurd rfl hne
  | cons t ts ih =>
    obtain ⟨huncut, hback⟩ := h t (by simp)
    cases ts with
    | nil =>
      have hmembers : members t = [t] := Text.splitBy_of_uncut huncut
      simp [hmembers]
    | cons u us =>
      have hsplit : [',', ' '].intercalate (t :: u :: us) =
          t ++ ',' :: ' ' :: [',', ' '].intercalate (u :: us) := by simp [List.intercalate]
      have hih := ih (by simp) fun x hx => h x (by simp [hx])
      rw [hsplit, members_append_comma huncut hback, List.map_cons, members_cons_space, hih]
      rfl

theorem members_intercalate {esc stop : Char → Prop} (hstop : stop ',') {ts : List (List Char)}
    (hne : ts ≠ []) (h : ∀ t ∈ ts, Closed esc stop t) :
    (members ([',', ' '].intercalate ts)).map Text.trim = ts.map Text.trim :=
  members_intercalate_of_uncut hne fun t ht => ⟨uncut_of_fits hstop (h t ht).fits, (h t ht).ends⟩

theorem parseList_eq (s : String) :
    parseList s = ((members s.toList).map Text.trim).mapM fun t => parse (String.ofList t) := by
  rw [parseList, List.mapM_map]
  rfl

theorem parse_of_read {t : List Char} {sel : Selector} (h : read t = .ok sel) :
    parse (String.ofList t) = .ok sel := by
  rw [parse, String.toList_ofList, h]

/-- The text of a list of selectors in normal form reads as the list. -/
theorem parseList_texts {ss : List Selector} (hne : ss ≠ []) (h : ∀ s ∈ ss, s.IsNormal) :
    parseList (String.ofList ([',', ' '].intercalate (ss.map text))) = .ok ss := by
  have hclosed : ∀ t ∈ ss.map text, Closed Escapable (· = ',') t := by
    intro t ht
    obtain ⟨s, hs, rfl⟩ := List.mem_map.mp ht
    exact (h s hs).closed_text (.inl rfl)
  have hmembers := @members_intercalate Escapable (· = ',') rfl _ (by simpa using hne) hclosed
  rw [parseList_eq, String.toList_ofList, hmembers, List.map_map, List.mapM_map]
  clear hclosed hmembers hne
  induction ss with
  | nil => rfl
  | cons s ss ih =>
    have hs := h s (by simp)
    have hparse : parse (String.ofList (Text.trim s.text)) = .ok s := by
      rw [Text.trim_of_trimmed hs.trimmed_text]
      exact parse_of_read (read_text hs)
    rw [List.mapM_cons]
    simp only [Function.comp_apply, hparse]
    have hih := ih fun x hx => h x (by simp [hx])
    simp only [Function.comp_def] at hih ⊢
    rw [hih]
    rfl

theorem mapM_cons_eq_ok {α β ε : Type} {f : α → Except ε β} {x : α} {xs : List α} {ys : List β}
    (h : (x :: xs).mapM f = .ok ys) :
    ∃ z zs, f x = .ok z ∧ xs.mapM f = .ok zs ∧ ys = z :: zs := by
  rw [List.mapM_cons] at h
  cases hx : f x with
  | error e => rw [hx] at h; cases h
  | ok z =>
    cases hxs : xs.mapM f with
    | error e => rw [hx, hxs] at h; cases h
    | ok zs =>
      rw [hx, hxs] at h
      exact ⟨z, zs, rfl, rfl, (Except.ok.inj h).symm⟩

theorem read_of_parse {t : List Char} {sel : Selector} (h : parse (String.ofList t) = .ok sel) :
    read t = .ok sel := by
  rw [parse, String.toList_ofList] at h
  cases hr : read t with
  | error e => rw [hr] at h; cases h
  | ok x =>
    rw [hr] at h
    rw [Except.ok.inj h]

theorem uncut_of_read {s : List Char} {sel : Selector} (h : read s = .ok sel) :
    Text.Uncut next separates start s := by
  obtain ⟨r, hrun, -⟩ := read_eq_ok h
  have htext : Along (fun st c => st = start → c ≠ ',') start (Text.trim s) :=
    (Reader.progress_of_any_run hrun).text.imp fun _ _ hc => hc.2
  obtain ⟨l, r, hl, hr, hs⟩ := Text.exists_eq_append_trim s
  have hblanks {b : List Char} (hb : ∀ c ∈ b, Text.isBlank c = true) (st : ListState) :
      Along (fun st c => st = start → c ≠ ',') st b := by
    refine along_of_forall (fun _ c hc _ => ?_) st
    rintro rfl
    have hcomma := hb ',' hc
    revert hcomma
    decide
  have hall : Along (fun st c => st = start → c ≠ ',') start s := by
    rw [hs, along_append, along_append, after_blanks hl]
    exact ⟨hblanks hl _, htext, hblanks hr _⟩
  exact uncut_of_along hall

theorem members_of_read {s : List Char} {sel : Selector} (h : read s = .ok sel) : members s = [s] :=
  Text.splitBy_of_uncut (uncut_of_read h)

theorem parseList_of_parse {s : String} {sel : Selector} (h : parse s = .ok sel) :
    parseList s = .ok [sel] := by
  have hread : read s.toList = .ok sel := read_of_parse (by rwa [String.ofList_toList])
  have htrim : parse (String.ofList (Text.trim s.toList)) = .ok sel :=
    parse_of_read ((read_trim _).trans hread)
  rw [parseList, members_of_read hread, List.mapM_cons, htrim]
  rfl

theorem mem_of_parseList {s : String} {ss : List Selector} (h : parseList s = .ok ss) :
    ss ≠ [] ∧ ∀ x ∈ ss, ∃ m ∈ members s.toList, read m = .ok x := by
  have hne : members s.toList ≠ [] := Text.splitBy_ne_nil _ _
  rw [parseList] at h
  generalize members s.toList = ms at h hne
  refine ⟨?_, ?_⟩
  · obtain ⟨m, ms, rfl⟩ := List.exists_cons_of_ne_nil hne
    obtain ⟨z, zs, -, -, rfl⟩ := mapM_cons_eq_ok h
    simp
  · clear hne
    induction ms generalizing ss with
    | nil =>
      obtain rfl := Except.ok.inj h
      simp
    | cons m ms ih =>
      obtain ⟨z, zs, hz, hzs, rfl⟩ := mapM_cons_eq_ok h
      intro x hx
      rcases List.mem_cons.mp hx with rfl | hx
      · exact ⟨m, by simp, read_trim m ▸ read_of_parse hz⟩
      · obtain ⟨n, hn, hnx⟩ := ih hzs x hx
        exact ⟨n, by simp [hn], hnx⟩

end Selector
end UtilityCss
