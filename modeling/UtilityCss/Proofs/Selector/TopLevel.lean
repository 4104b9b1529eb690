import Mathlib.Data.List.Forall2
import UtilityCss.Proofs.Selector.Lexemes
import UtilityCss.Proofs.Selector.Product

/-!
# What stands in the open

The splitter of selector lists and the reader of selectors take a comma for one in the open under the same
condition: it stands outside strings and escapes, with as many openers as closers before it. The splitter
cuts at each of these commas (`length_members`). The reader fails at the first of them and gets to the end
of every other text (`Reader.exists_run_iff`), so it meets none in a member of a list
(`parseList_topLevel`). The two look at escapes in different ways, and the reader starts anew on each
trimmed member; what they have in common is the state that the lexemes of the text give.
-/

namespace UtilityCss

open ListState

/-- The number of commas of a text that have as many openers as closers before them. -/
def openCommas (e : List Char) : Nat :=
  (List.range e.length).countP fun n => e[n]? = some ',' ∧ balance (e.take n) = 0

@[simp] theorem openCommas_nil : openCommas [] = 0 := rfl

theorem openCommas_concat (e : List Char) (c : Char) :
    openCommas (e ++ [c]) = openCommas e + if c = ',' ∧ balance e = 0 then 1 else 0 := by
  have hbefore : (List.range e.length).countP (fun n =>
      decide ((e ++ [c])[n]? = some ',' ∧ balance ((e ++ [c]).take n) = 0)) = openCommas e := by
    refine List.countP_congr fun n hn => ?_
    have hlt : n < e.length := List.mem_range.mp hn
    rw [List.getElem?_append_left hlt, List.take_append_of_le_length hlt.le]
  rw [openCommas, List.length_append, List.length_singleton, List.range_succ, List.countP_append,
    hbefore]
  simp [List.countP_cons]

theorem openCommas_exposed_concat (s : List Char) (c : Char) : openCommas (exposed (s ++ [c])) =
    openCommas (exposed s) + if (start.after s).separates c then 1 else 0 := by
  have hagrees := Begun.agrees_after s
  rw [exposed_concat]
  by_cases hsep : (start.after s).separates c = true
  · obtain ⟨rfl, hst⟩ := separates_iff.mp hsep
    have hbalance : balance (exposed s) = 0 := by
      rw [← depth_after_start, hst]
      rfl
    have hnext := Begun.next_of_agrees hagrees (by rw [hst]; rfl) (by rw [hst]; rfl)
      (show isHexDigit ',' = false ∧ ',' ≠ ' ' by decide)
    have hadds : ((Begun.nothing.after s).next ',').1.filterMap Lexeme.plain? = [','] := by
      rw [hnext, List.filterMap_append, Begun.filterMap_plain?_flush]
      rfl
    rw [hadds, openCommas_concat, if_pos hsep, if_pos ⟨rfl, hbalance⟩]
  · rw [if_neg hsep, Nat.add_zero]
    rcases Begun.exposes_cases (Begun.nothing.after s) c with hadds | ⟨hadds, hesc, hquote⟩
    · rw [hadds, List.append_nil]
    · rw [hadds, openCommas_concat, if_neg, Nat.add_zero]
      rintro ⟨rfl, hbalance⟩
      refine hsep (separates_iff.mpr ⟨rfl, ?_⟩)
      rw [← hagrees.escaped] at hesc
      rw [← hagrees.quote] at hquote
      have hdepth : (start.after s).depth = 0 := by rw [depth_after_start, hbalance]
      rw [eq_deeper_start hesc hquote, hdepth]
      rfl

namespace Selector

/-- A list has one member more than commas in the open. -/
theorem length_members (s : List Char) : (members s).length = 1 + openCommas (exposed s) := by
  induction s using List.reverseRecOn with
  | nil => rfl
  | append_singleton s c ih =>
    rw [members] at ih ⊢
    rw [Text.length_splitBy_concat, ih, openCommas_exposed_concat, Nat.add_assoc]
    rfl

theorem uncut_iff {s : List Char} :
    Text.Uncut next separates start s ↔ openCommas (exposed s) = 0 := by
  have hlength := length_members s
  constructor
  · intro h
    rw [members, Text.splitBy_of_uncut h, List.length_singleton] at hlength
    omega
  · intro h
    obtain ⟨m, hm⟩ := List.length_eq_one_iff.mp (hlength.trans (by rw [h]))
    obtain ⟨huncut, ⟨rfl, -⟩ | ⟨c, t, -, -, hrest⟩⟩ := Text.splitBy_eq_cons hm
    · exact huncut
    · exact absurd hrest (Text.splitBy_ne_nil _ _)

theorem along_of_uncut {st : ListState} {s : List Char} (h : Text.Uncut next separates st s) :
    Along (fun st c => st = start → c ≠ ',') st s := by
  induction s generalizing st with
  | nil => trivial
  | cons c s ih =>
    refine ⟨fun hst hc => ?_, ih h.2⟩
    have hnot := h.1
    rw [separates_iff.mpr ⟨hc, hst⟩] at hnot
    cases hnot

theorem uncut_trim_of_mem {s m : List Char} (hm : m ∈ members s) :
    Text.Uncut next separates start (Text.trim m) := by
  obtain ⟨ps, qs, hsplit⟩ := List.append_of_mem hm
  obtain ⟨u, w, -, hu, huncut, -⟩ := Text.splitBy_eq_append_cons_iff.mp hsplit
  have hback : u.foldl next start = start := by
    rcases hu with ⟨rfl, -⟩ | ⟨t, c, rfl, hc, -⟩
    · rfl
    · obtain ⟨rfl, hst⟩ := separates_iff.mp hc
      rw [List.foldl_append, hst]
      rfl
  rw [hback] at huncut
  exact uncut_of_along (along_trim (along_of_uncut huncut))

end Selector

namespace Reader

open Selector

/-- The reader gets to the end of the texts without a comma in the open. -/
theorem exists_run_iff {s : List Char} :
    (∃ r, s.foldlM step start = .ok r) ↔ Text.Uncut next separates ListState.start s := by
  constructor
  · rintro ⟨r, hrun⟩
    exact uncut_of_along ((progress_of_any_run hrun).text.imp fun _ _ hc => hc.2)
  · intro h
    induction s using List.reverseRecOn with
    | nil => exact ⟨start, rfl⟩
    | append_singleton s c ih =>
      obtain ⟨hs, hc⟩ := Text.uncut_append.mp h
      obtain ⟨r, hrun⟩ := ih hs
      have hsolid : r.listState = ListState.start → c ≠ ',' := by
        rw [← (progress_of_any_run hrun).state]
        exact (along_of_uncut hc).1
      obtain ⟨r', hstep⟩ := exists_step_eq_ok hsolid
      refine ⟨r', ?_⟩
      rw [List.foldlM_append, hrun]
      show [c].foldlM step r = .ok r'
      rw [List.foldlM_cons, hstep]
      rfl

end Reader

namespace Selector

theorem read_eq_finish {s : List Char} (h : Text.Uncut next separates start (Text.trim s)) :
    ∃ r, (Text.trim s).foldlM Reader.step Reader.start = .ok r ∧ read s = r.finish := by
  obtain ⟨r, hrun⟩ := Reader.exists_run_iff.mpr h
  refine ⟨r, hrun, ?_⟩
  rw [read, hrun]
  rfl

theorem read_ne_topLevelComma {s : List Char} (h : Text.Uncut next separates start (Text.trim s)) :
    read s ≠ .error .topLevelComma := by
  obtain ⟨r, -, hread⟩ := read_eq_finish h
  rw [hread, Reader.finish]
  split_ifs <;> simp

theorem fault_of_parse {s : String} {e : Rejection} (h : parse s = .error e) :
    read s.toList = .error e.fault := by
  rw [parse] at h
  cases hread : read s.toList with
  | error f =>
    rw [hread] at h
    rw [← Except.error.inj h]
  | ok sel =>
    rw [hread] at h
    cases h

theorem exists_of_mapM_eq_error {α β ε : Type} {f : α → Except ε β} {xs : List α} {e : ε}
    (h : xs.mapM f = .error e) : ∃ x ∈ xs, f x = .error e := by
  induction xs with
  | nil => cases h
  | cons x xs ih =>
    rw [List.mapM_cons] at h
    cases hx : f x with
    | error e' =>
      rw [hx] at h
      exact ⟨x, by simp, by rw [hx, ← Except.error.inj h]⟩
    | ok y =>
      rw [hx] at h
      cases hxs : xs.mapM f with
      | error e' =>
        rw [hxs] at h
        obtain ⟨z, hz, hfz⟩ := ih (hxs.trans (by rw [← Except.error.inj h]))
        exact ⟨z, by simp [hz], hfz⟩
      | ok ys =>
        rw [hxs] at h
        cases h

theorem forall₂_of_parseList {s : String} {sels : List Selector} (h : parseList s = .ok sels) :
    List.Forall₂ (fun m x => read m = .ok x) (members s.toList) sels := by
  rw [parseList] at h
  generalize members s.toList = ms at h
  induction ms generalizing sels with
  | nil =>
    obtain rfl := Except.ok.inj h
    exact .nil
  | cons m ms ih =>
    obtain ⟨x, xs, hx, hxs, rfl⟩ := mapM_cons_eq_ok h
    exact .cons (read_trim m ▸ read_of_parse hx) (ih hxs)

/-- **The splitter of lists and the reader agree on what stands in the open.** -/
theorem parseList_topLevel (s : String) :
    (∀ m ∈ members s.toList, ∀ e, parse (String.ofList (Text.trim m)) = .error e →
        e.fault.reason ≠ "unexpected top-level comma") ∧
      (∀ e, parseList s = .error e → e.fault.reason ≠ "unexpected top-level comma") ∧
      (∀ sel, parse s = .ok sel → parseList s = .ok [sel]) ∧
      ∀ sels, parseList s = .ok sels → sels.length = 1 + openCommas (exposed s.toList) := by
  have hmember : ∀ m ∈ members s.toList, ∀ e, parse (String.ofList (Text.trim m)) = .error e →
      e.fault.reason ≠ "unexpected top-level comma" := by
    intro m hm e he
    have hfault := fault_of_parse he
    rw [String.toList_ofList, read_trim] at hfault
    have hne := read_ne_topLevelComma (uncut_trim_of_mem hm)
    rw [hfault] at hne
    cases hcases : e.fault with
    | topLevelComma => exact absurd (by rw [hcases]) hne
    | unbalancedBrackets => decide
    | unterminatedString => decide
    | missingCompound => decide
  refine ⟨hmember, fun e he => ?_, fun sel => parseList_of_parse, fun sels h => ?_⟩
  · obtain ⟨m, hm, hme⟩ := exists_of_mapM_eq_error he
    exact hmember m hm e hme
  · rw [← length_members, (forall₂_of_parseList h).length_eq]

/-- Commas in a string, behind a backslash and in brackets, and commas in the open behind an escaped
backslash and behind the space of an escape. -/
theorem parseList_topLevel_escaped :
    ∃ sels, parseList "a[b='x,y'] > c\\,d:is(e, f) \\\\, \\2c ,g" = .ok sels ∧
      sels.map text = ["a[b='x,y'] > c\\,d:is(e, f) \\\\".toList, "\\2c".toList, "g".toList] ∧
      openCommas (exposed "a[b='x,y'] > c\\,d:is(e, f) \\\\, \\2c ,g".toList) = 2 ∧
      sels.length = 1 + 2 := by
  let sels : List Selector :=
    [⟨[⟨none, "a[b='x,y']".toList⟩, ⟨some .child, "c\\,d:is(e, f)".toList⟩,
      ⟨some .descendant, "\\\\".toList⟩]⟩, ⟨[⟨none, "\\2c".toList⟩]⟩, ⟨[⟨none, ['g']⟩]⟩]
  have hlist : parseList "a[b='x,y'] > c\\,d:is(e, f) \\\\, \\2c ,g" = .ok sels := by decide
  have hcommas : openCommas (exposed "a[b='x,y'] > c\\,d:is(e, f) \\\\, \\2c ,g".toList) = 2 := by
    decide
  exact ⟨sels, hlist, by decide, hcommas, hcommas ▸ (parseList_topLevel _).2.2.2 sels hlist⟩

end Selector
end UtilityCss
