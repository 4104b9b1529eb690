import UtilityCss.Proofs.Selector.Ending
import UtilityCss.Proofs.Selector.Product
import UtilityCss.Proofs.Sheet.ClassName

/-!
# What resolving keeps in every member

A selector text is `Scoped` if it closes what it opens, member by member, and holds the text of a class in
each member. Both ways of resolving a template keep that, for orderly templates (`IsOrderly`).

* Where outer selector and template are read, each selector of the outer list has the class in one of its
  compounds, since nothing in the text of a class ends a compound, and a substitution keeps what stands in
  a compound (`scoped_productText`).
* Where the template is kept as it is, the members of the result are those of the template, with the outer
  selector as a text in place of their anchors (`scoped_replace`). Without an anchor the template goes
  behind the last member of the outer selector, so it must be a single selector (`scoped_descendant`).
-/

namespace UtilityCss

open ListState

/-- Every character may be escaped. -/
abbrev AnyChar : Char → Prop := fun _ => True

/-- No character must be kept out of the open. -/
abbrev NoChar : Char → Prop := fun _ => False

/-- No bracket is closed that has not been opened. -/
def Nested (st : ListState) (c : Char) : Prop := 0 ≤ (st.next c).depth

instance (st : ListState) (c : Char) : Decidable (Nested st c) :=
  inferInstanceAs (Decidable (0 ≤ (st.next c).depth))

namespace Selector

/-- A template whose brackets are not closed before they are opened, which has no anchor in a string, and
each member of which ends what it opens. -/
structure IsOrderly (t : String) : Prop where
  nested : Along Nested start t.toList
  anchors : Along AnchorOutside start t.toList
  ends : ∀ m ∈ members t.toList, start.after (Text.trim m) = start

instance (t : String) : Decidable (IsOrderly t) :=
  decidable_of_iff (Along Nested start t.toList ∧ Along AnchorOutside start t.toList ∧
      ∀ m ∈ members t.toList, start.after (Text.trim m) = start)
    ⟨fun ⟨hnested, hanchors, hends⟩ => ⟨hnested, hanchors, hends⟩,
      fun h => ⟨h.nested, h.anchors, h.ends⟩⟩

/-- A selector text with `k` in every member. -/
structure Scoped (k : List Char) (s : String) : Prop where
  nested : Along Nested start s.toList
  ends : ∀ m ∈ members s.toList, start.after (Text.trim m) = start
  mem : ∀ m ∈ members s.toList, k <:+: m

theorem fits_of_nested {st : ListState} {c : Char} (h : Nested st c) : Fits AnyChar NoChar st c :=
  ⟨h, fun _ => trivial, fun _ => id⟩

variable {k : List Char}

theorem Scoped.closed {s : String} (h : Scoped k s) : Closed AnyChar NoChar s.toList := by
  refine ⟨after_of_members fun m hm => ?_, h.nested.imp fun _ _ => fits_of_nested⟩
  have hbare : EndsBare m := (after_trim m).symm.trans (h.ends m hm)
  exact hbare.after

/-! ## Selectors that are read -/

theorem sound_of_parseList {s : String} {P : ListState → Char → Prop} {ss : List Selector}
    (hread : parseList s = .ok ss) (hs : Along P start s.toList)
    (hP : ∀ st c, P st c → Nested st c)
    (hends : ∀ m ∈ members s.toList, start.after (Text.trim m) = start) :
    ∀ x ∈ ss, x.Sound AnyChar (· = ',') ∧ (∀ p ∈ x.parts, Along P start p.compound) ∧
      ∃ m ∈ members s.toList, read m = .ok x := by
  intro x hx
  obtain ⟨m, hm, hxm⟩ := (mem_of_parseList hread).2 x hx
  have hesc : (start.after (Text.trim m)).escaped = false := by
    rw [hends m hm]
    rfl
  have hfrom := isReadFrom_of_read hxm (along_trim (along_member hs hm).1) hesc
  refine ⟨⟨fun p hp => ?_, ?_⟩, fun p hp => (hfrom.finished p hp).holds.imp fun _ _ h => h.1, m, hm, hxm⟩
  · have hfinished := hfrom.finished p hp
    refine ⟨hfinished.ne_nil, hfinished.ends, hfinished.holds.imp fun st c h => ?_⟩
    exact ⟨hP st c h.1, fun _ => trivial, fun hst => (h.2 hst).1⟩
  · obtain ⟨ps, p, hps, hlast⟩ := hfrom.last
    exact ⟨ps, p, hps, fun c hc => (Text.trimmed_trim m).last c (hlast ▸ hc)⟩

theorem not_comma_is : ∀ c ∈ [':', 'i', 's', '('], ¬ c = ',' := by simp

theorem closed_intercalate {ts : List (List Char)} (h : ∀ t ∈ ts, Closed AnyChar (· = ',') t) :
    Closed AnyChar NoChar ([',', ' '].intercalate ts) := by
  have hcomma : Closed AnyChar NoChar [',', ' '] :=
    (closed_singleton rfl id : Closed AnyChar NoChar [',']).append (closed_singleton rfl id)
  have himp : ∀ t ∈ ts, Closed AnyChar NoChar t := fun t ht => (h t ht).imp fun _ hc => hc.elim
  exact intercalate_of_append closed_nil (fun _ _ => Closed.append) hcomma himp

theorem scoped_intercalate (hk : Text.Trimmed k) {ts : List (List Char)} (hne : ts ≠ [])
    (h : ∀ t ∈ ts, Closed AnyChar (· = ',') t ∧ EndsBare t ∧ k <:+: t) :
    Scoped k (String.ofList ([',', ' '].intercalate ts)) := by
  have hclosed : ∀ t ∈ ts, Closed AnyChar (· = ',') t := fun t ht => (h t ht).1
  have hmembers := @members_intercalate AnyChar (· = ',') rfl ts hne hclosed
  have hmem : ∀ m ∈ members ([',', ' '].intercalate ts), ∃ t ∈ ts, Text.trim m = Text.trim t := by
    intro m hm
    have hm' : Text.trim m ∈ ts.map Text.trim := hmembers ▸ List.mem_map_of_mem hm
    obtain ⟨t, ht, htm⟩ := List.mem_map.mp hm'
    exact ⟨t, ht, htm.symm⟩
  refine ⟨?_, fun m hm => ?_, fun m hm => ?_⟩
  · rw [String.toList_ofList]
    exact (closed_intercalate hclosed).fits.imp fun _ _ hc => hc.1
  · rw [String.toList_ofList] at hm
    obtain ⟨t, ht, htm⟩ := hmem m hm
    rw [htm, after_trim]
    exact (h t ht).2.1
  · rw [String.toList_ofList] at hm
    obtain ⟨t, ht, htm⟩ := hmem m hm
    have htrim : k <:+: Text.trim m := htm ▸ Text.isInfix_trim hk (h t ht).2.2
    obtain ⟨l, r, -, -, hm'⟩ := Text.exists_eq_append_trim m
    rw [hm']
    exact List.infix_append_of_infix_right (List.infix_append_of_infix_left htrim)

theorem scoped_productText (hk : ClassText k) {s t : String} {os is : List Selector}
    (hs : Scoped k s) (ht : IsOrderly t) (hos : parseList s = .ok os) (his : parseList t = .ok is) :
    Scoped k (String.ofList (productText os is)) := by
  have houters := sound_of_parseList hos hs.nested (fun _ _ => id) hs.ends
  have halong : Along (fun st c => Nested st c ∧ AnchorOutside st c) start t.toList :=
    along_and.mpr ⟨ht.nested, ht.anchors⟩
  have hinners := sound_of_parseList his halong (fun _ _ h => h.1) ht.ends
  have hne : (os.flatMap fun o => is.map fun i => (i.substitute o).text) ≠ [] := by
    obtain ⟨o, os', rfl⟩ := List.exists_cons_of_ne_nil (mem_of_parseList hos).1
    obtain ⟨i, is', rfl⟩ := List.exists_cons_of_ne_nil (mem_of_parseList his).1
    simp
  apply scoped_intercalate hk.trimmed hne
  intro x hx
  obtain ⟨o, ho, hx⟩ := List.mem_flatMap.mp hx
  obtain ⟨i, hi, rfl⟩ := List.mem_map.mp hx
  obtain ⟨hosound, -, m, hm, hread⟩ := houters o ho
  obtain ⟨hisound, hout, -⟩ := hinners i hi
  have hsound : (i.substitute o).Sound AnyChar (· = ',') :=
    hisound.substitute (by rfl) not_comma_is hosound fun p hp => (hout p hp).imp fun _ _ h => h.2
  have hclosed : Closed AnyChar (· = ',') (i.substitute o).text := hsound.closed_text (by rfl)
  -- the class stands in a compound of the outer selector
  have hkm : k <:+: Text.trim m := Text.isInfix_trim hk.trimmed (hs.mem m hm)
  obtain ⟨p, hp, hkp⟩ := isInfix_compound_of_read hread hk.ne_nil hk.solid hkm
  exact ⟨hclosed, endsBare_of_last hclosed.ends hsound.last_text.2, isInfix_substitute hp hkp⟩

/-! ## Templates that are kept as they are -/

theorem along_of_trim {s : List Char}
    (h : Along (fun st c => st = start → c ≠ ',') start (Text.trim s)) :
    Along (fun st c => st = start → c ≠ ',') start s := by
  obtain ⟨l, r, hl, hr, heq⟩ := Text.exists_eq_append_trim s
  have hblank : ∀ b : List Char, (∀ c ∈ b, Text.isBlank c = true) → ∀ st,
      Along (fun st c => st = start → c ≠ ',') st b := by
    intro b hb st
    apply along_of_forall
    rintro st c hc - rfl
    have := hb _ hc
    revert this
    decide
  rw [heq, along_append, after_blanks hl, along_append]
  exact ⟨hblank l hl _, h, hblank r hr _⟩

theorem closed_of_isCompoundText {s : String} (hs : Scoped k s) (h : isCompoundText s = true) :
    Closed AnyChar (· = ',') s.toList ∧ EndsBare s.toList := by
  have hread : ∃ sel, read s.toList = .ok sel := by
    unfold isCompoundText at h
    cases hr : read s.toList with
    | error e => rw [hr] at h; cases h
    | ok sel => exact ⟨sel, rfl⟩
  obtain ⟨sel, hsel⟩ := hread
  obtain ⟨r, hrun, -⟩ := read_eq_ok hsel
  have hprog := Reader.progress_of_run (along_trim hs.nested) hrun
  have hopen := along_of_trim (hprog.text.imp fun _ _ hc => hc.2)
  have hfits : Along (Fits AnyChar (· = ',')) start s.toList :=
    (along_and.mpr ⟨hs.nested, hopen⟩).imp fun st c hc => ⟨hc.1, fun _ => trivial, hc.2⟩
  have hmembers : members s.toList = [s.toList] := @members_of_along AnyChar (· = ',') rfl _ hfits
  have hends := hs.ends s.toList (by simp [hmembers])
  rw [after_trim] at hends
  exact ⟨⟨EndsBare.after hends, hfits⟩, hends⟩

theorem isInfix_intercalate {sep m : List Char} {ms : List (List Char)} (hm : m ∈ ms) :
    m <:+: sep.intercalate ms := by
  induction ms with
  | nil => cases hm
  | cons n ns ih =>
    cases ns with
    | nil =>
      obtain rfl := List.mem_singleton.mp hm
      simp
    | cons x xs =>
      have hsplit : sep.intercalate (n :: x :: xs) = n ++ (sep ++ sep.intercalate (x :: xs)) := by
        simp [List.intercalate]
      rw [hsplit]
      rcases List.mem_cons.mp hm with rfl | hm
      · exact List.infix_append_left
      · exact List.infix_append_of_infix_right (List.infix_append_of_infix_right (ih hm))

theorem intercalate_members (s : List Char) : [','].intercalate (members s) = s :=
  Text.intercalate_splitBy (fun _ _ h => (separates_iff.mp h).1) _ _

theorem exists_inline {s : String} (hk : k ≠ []) (htrim : Text.Trimmed k) (hs : Scoped k s) :
    ∃ r, (if isCompoundText s then s else ":is(" ++ s ++ ")").toList = r ∧
      Closed AnyChar (· = ',') r ∧ EndsBare r ∧ Text.trimEnd r ≠ [] ∧ k <:+: r := by
  have hne : members s.toList ≠ [] := Text.splitBy_ne_nil _ _
  obtain ⟨m, hm⟩ := List.exists_mem_of_ne_nil _ hne
  have hvisible : ∀ {r : List Char}, k <:+: r → Text.trimEnd r ≠ [] := by
    intro r hkr hnil
    obtain ⟨c, k', hk'⟩ := List.exists_cons_of_ne_nil hk
    have hall : ∀ d ∈ r, Text.isBlank d = true := List.rdropWhile_eq_nil_iff.mp hnil
    have hblank := hall c (hkr.subset (by simp [hk']))
    rw [htrim.head c (by simp [hk'])] at hblank
    cases hblank
  by_cases hcomp : isCompoundText s = true
  · obtain ⟨hclosed, hbare⟩ := closed_of_isCompoundText hs hcomp
    have hmembers : members s.toList = [s.toList] := @members_of_along AnyChar (· = ',') rfl _ hclosed.fits
    have hks : k <:+: s.toList := hs.mem _ (by simp [hmembers])
    rw [if_pos hcomp]
    exact ⟨_, rfl, hclosed, hbare, hvisible hks, hks⟩
  · have htext : (":is(" ++ s ++ ")").toList = [':', 'i', 's', '('] ++ s.toList ++ [')'] := by simp
    have hclosed := hs.closed.inIs not_comma_is
    have hlast : ∀ c, ([':', 'i', 's', '('] ++ s.toList ++ [')']).getLast? = some c →
        Text.isBlank c = false := by
      intro c hc
      rw [List.getLast?_concat] at hc
      obtain rfl := Option.some.inj hc
      decide
    have hks : k <:+: [':', 'i', 's', '('] ++ s.toList ++ [')'] := by
      have hms : m <:+: s.toList := intercalate_members s.toList ▸ isInfix_intercalate hm
      have hks : k <:+: s.toList := (hs.mem m hm).trans hms
      exact List.infix_append_of_infix_left (List.infix_append_of_infix_right hks)
    rw [if_neg hcomp, htext]
    exact ⟨_, rfl, hclosed, endsBare_of_last hclosed.ends hlast, hvisible hks, hks⟩

theorem not_occurs_member {t m : List Char} (h : Anchor.occurs t = false) (hm : m ∈ members t) :
    Anchor.occurs m = false := by
  rw [Anchor.occurs_eq_occursFrom] at h ⊢
  have hstart : Anchor.occursFrom start.escaped t = false := h
  exact not_occurs_of_along (along_member (along_of_not_occurs hstart) hm).1

/-- A template that is one selector, or has an anchor in each of them. -/
def IsUniform (t : String) : Prop :=
  (members t.toList).length = 1 ∨ ∀ m ∈ members t.toList, Anchor.occurs m = true

instance (t : String) : Decidable (IsUniform t) :=
  inferInstanceAs (Decidable ((members t.toList).length = 1 ∨
    ∀ m ∈ members t.toList, Anchor.occurs m = true))

theorem members_eq_of_length {t : List Char} (h : (members t).length = 1) : members t = [t] := by
  obtain ⟨m, hm⟩ := List.length_eq_one_iff.mp h
  have hjoin := intercalate_members t
  rw [hm] at hjoin ⊢
  simpa using hjoin

theorem IsUniform.occurs {t : String} (h : IsUniform t) (hocc : Anchor.occurs t.toList = true) :
    ∀ m ∈ members t.toList, Anchor.occurs m = true := by
  rcases h with h | h
  · rw [members_eq_of_length h]
    intro m hm
    obtain rfl := List.mem_singleton.mp hm
    exact hocc
  · exact h

theorem IsUniform.members_eq {t : String} (h : IsUniform t) (hocc : Anchor.occurs t.toList = false) :
    members t.toList = [t.toList] := by
  rcases h with h | h
  · exact members_eq_of_length h
  · have hne : members t.toList ≠ [] := Text.splitBy_ne_nil _ _
    obtain ⟨m, hm⟩ := List.exists_mem_of_ne_nil _ hne
    have hnone := not_occurs_member hocc hm
    rw [h m hm] at hnone
    cases hnone

/-- The outer selector in place of the anchors of every member. -/
theorem scoped_replace {r : List Char} {t : String} (hclosed : Closed AnyChar (· = ',') r)
    (hbare : EndsBare r) (hvisible : Text.trimEnd r ≠ []) (hkr : k <:+: r) (ht : IsOrderly t)
    (hocc : ∀ m ∈ members t.toList, Anchor.occurs m = true) :
    Scoped k (String.ofList (Anchor.replace r t.toList)) := by
  have hfits : Along (Fits AnyChar NoChar) start t.toList := ht.nested.imp fun _ _ => fits_of_nested
  have hr : Closed AnyChar NoChar r := hclosed.imp fun _ hc => hc.elim
  have hmembers : members (Anchor.replace r t.toList) = (members t.toList).map (Anchor.replace r) :=
    members_replace (by rfl) hclosed hfits ht.anchors
  refine ⟨?_, fun m hm => ?_, fun m hm => ?_⟩
  · rw [String.toList_ofList, Anchor.replace_eq_replaceFrom]
    have hput := along_replaceFrom hr (show 0 ≤ start.depth from Int.le_refl _) hfits ht.anchors
    exact hput.1.imp fun _ _ hc => hc.1
  · rw [String.toList_ofList, hmembers] at hm
    obtain ⟨n, hn, rfl⟩ := List.mem_map.mp hm
    have hend := ht.ends n hn
    rw [after_trim] at hend ⊢
    exact EndsBare.replace hr hbare hvisible (along_member hfits hn).1 (along_member ht.anchors hn).1
      hend
  · rw [String.toList_ofList, hmembers] at hm
    obtain ⟨n, hn, rfl⟩ := List.mem_map.mp hm
    have hn' := hocc n hn
    rw [Anchor.occurs_eq_occursFrom] at hn'
    rw [Anchor.replace_eq_replaceFrom]
    exact hkr.trans (Anchor.isInfix_replaceFrom hn')

/-- A template without an anchor goes behind the last member. -/
theorem scoped_descendant {s t : String} (hs : Scoped k s) (ht : IsOrderly t)
    (hsingle : members t.toList = [t.toList]) : Scoped k (s ++ " " ++ t) := by
  have hne : members s.toList ≠ [] := Text.splitBy_ne_nil _ _
  obtain ⟨ps, p, hp⟩ := (List.eq_nil_or_concat _).resolve_left hne
  rw [List.concat_eq_append] at hp
  have htext : (s ++ " " ++ t).toList = s.toList ++ ' ' :: t.toList := by simp
  have hnext : start.next ' ' = start := by decide
  have hsep : start.separates ' ' = false := by decide
  have hspace : Text.splitBy next separates (start.after s.toList) (' ' :: t.toList) =
      [' ' :: t.toList] := by
    have hone : Text.splitBy next separates start t.toList = [t.toList] := hsingle
    rw [hs.closed.ends, Text.splitBy, hsep, hnext, hone]
    rfl
  have hmembers : members (s.toList ++ ' ' :: t.toList) = ps ++ [p ++ ' ' :: t.toList] :=
    splitBy_append hp hspace
  have hpbare : EndsBare p := (after_trim p).symm.trans (hs.ends p (by simp [hp]))
  have htbare : EndsBare t.toList :=
    (after_trim t.toList).symm.trans (ht.ends t.toList (by simp [hsingle]))
  have hspacebare : EndsBare [' '] := rfl
  refine ⟨?_, fun m hm => ?_, fun m hm => ?_⟩
  · rw [htext, along_append, hs.closed.ends]
    refine ⟨hs.nested, ?_, ?_⟩
    · show 0 ≤ (start.next ' ').depth
      decide
    · rw [hnext]
      exact ht.nested
  · rw [htext, hmembers] at hm
    rcases List.mem_append.mp hm with hm | hm
    · exact hs.ends m (by simp [hp, hm])
    · obtain rfl := List.mem_singleton.mp hm
      rw [after_trim]
      exact hpbare.append (hspacebare.append htbare)
  · rw [htext, hmembers] at hm
    rcases List.mem_append.mp hm with hm | hm
    · exact hs.mem m (by simp [hp, hm])
    · obtain rfl := List.mem_singleton.mp hm
      exact List.infix_append_of_infix_left (hs.mem p (by simp [hp]))

theorem scoped_resolveVerbatim (hk : ClassText k) {s t : String} (hs : Scoped k s) (ht : IsOrderly t)
    (huniform : IsUniform t) : Scoped k (resolveVerbatim s t) := by
  cases hocc : Anchor.occurs t.toList with
  | true =>
    obtain ⟨r, hr, hclosed, hbare, hvisible, hkr⟩ := exists_inline hk.ne_nil hk.trimmed hs
    have hverbatim : resolveVerbatim s t = String.ofList (Anchor.replace r t.toList) := by
      rw [resolveVerbatim, if_pos hocc]
      show String.ofList (Anchor.replace (if isCompoundText s then s else ":is(" ++ s ++ ")").toList
        t.toList) = _
      rw [hr]
    rw [hverbatim]
    exact scoped_replace hclosed hbare hvisible hkr ht (huniform.occurs hocc)
  | false =>
    have hverbatim : resolveVerbatim s t = s ++ " " ++ t := by
      rw [resolveVerbatim, hocc]
      rfl
    rw [hverbatim]
    exact scoped_descendant hs ht (huniform.members_eq hocc)

/-- Whether a selector list can be read. -/
def IsReadable (s : String) : Prop := (parseList s).isOk = true

instance (s : String) : Decidable (IsReadable s) :=
  inferInstanceAs (Decidable ((parseList s).isOk = true))

theorem IsReadable.exists_ok {s : String} (h : IsReadable s) : ∃ ss, parseList s = .ok ss := by
  unfold IsReadable at h
  cases hs : parseList s with
  | error e => rw [hs] at h; cases h
  | ok ss => exact ⟨ss, rfl⟩

theorem scoped_resolve (hk : ClassText k) {s t : String} (hs : Scoped k s) (ht : IsOrderly t)
    (h : IsUniform t ∨ IsReadable s ∧ IsReadable t) : Scoped k (resolve s t) := by
  unfold resolve
  split
  · next os is hos his => exact scoped_productText hk hs ht hos his
  · next hunread =>
    rcases h with h | ⟨hs', ht'⟩
    · exact scoped_resolveVerbatim hk hs ht h
    · obtain ⟨os, hos⟩ := hs'.exists_ok
      obtain ⟨is, his⟩ := ht'.exists_ok
      exact absurd his (hunread os is hos)

end Selector
end UtilityCss
