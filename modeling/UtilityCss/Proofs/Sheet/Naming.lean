import UtilityCss.Proofs.Selector.Product
import UtilityCss.Proofs.Sheet.Identifier

/-!
# The class that a resolved template names

A class selector is put in place of the anchor that a template starts with. The identifier behind its
dot is the class name again, but not in every case (`Selector.readName_resolve`). A selector is trimmed
before it is read, so a blank that ends the class name is lost, and so is the space of an escape that
ends it. Without that space the digits still stand for their character. But then the escape takes
the next white space of the template, and what follows may go into the identifier.
-/

namespace UtilityCss

open ClassSelector NameState

/-! ## The class selector as it is read -/

namespace ClassSelector

theorem trimmed_dot {s : List Char} (h : ∀ c, s.getLast? = some c → Text.isBlank c = false) :
    Text.Trimmed ('.' :: s) := by
  refine ⟨fun c hc => ?_, fun c hc => ?_⟩
  · obtain rfl := Option.some.inj hc
    decide
  · cases s with
    | nil =>
      obtain rfl := Option.some.inj hc
      decide
    | cons d s =>
      rw [List.getLast?_cons_cons] at hc
      exact h c hc

/-- Of a text that spells a name, `s` is left behind the dot of a trimmed selector. It is read as the name,
if it ends where the text does, and else an escape is open at its end. -/
structure Trims (name text s : List Char) (read : List Char) (st : NameState) : Prop where
  trim_eq : Text.trim ('.' :: text) = '.' :: s
  mem : ∀ c ∈ s, c ∈ text
  run : NameState.run? .outside s = some (read, st)
  name_eq : read ++ st.pending = name
  state : st = .outside ∧ text.getLast? ≠ some ' ' ∨
    ∃ n value, st = .hex n value ∧ text.getLast? = some ' '

variable {name text : List Char}

theorem Spells.trims (h : Spells name text)
    (hlast : ∀ c, text.getLast? = some c → Text.isBlank c = false) :
    Trims name text text name .outside where
  trim_eq := Text.trim_of_trimmed (trimmed_dot hlast)
  mem := fun _ => id
  run := h.run?
  name_eq := List.append_nil _
  state := by
    refine .inl ⟨rfl, fun hspace => ?_⟩
    have hblank := hlast ' ' hspace
    revert hblank
    decide

theorem Spells.trims_number (h : Spells name text) {c : Char} (hpos : 0 < c.toNat)
    (hsmall : c.toNat < 128) :
    Trims (name ++ [c]) (text ++ hexEscape c) (text ++ '\\' :: Nat.toDigits 16 c.toNat) name
      (.hex (Nat.toDigits 16 c.toNat).length c.toNat) := by
  have hdigits := (run?_digits _ hsmall hpos).1
  have hsplit : text ++ hexEscape c = (text ++ '\\' :: Nat.toDigits 16 c.toNat) ++ [' '] := by
    simp [hexEscape]
  have htrimmed : Text.Trimmed ('.' :: (text ++ '\\' :: Nat.toDigits 16 c.toNat)) := by
    refine trimmed_dot fun d hd => isBlank_of_mem_digits hpos hsmall d ?_
    rw [List.getLast?_append_of_ne_nil _ (by simp)] at hd
    exact List.mem_of_getLast? hd
  rw [hsplit]
  refine ⟨?_, fun x hx => List.mem_append_left _ hx, ?_, ?_, .inr ⟨_, _, rfl, List.getLast?_concat⟩⟩
  · rw [← List.cons_append]
    exact Text.trim_append_right htrimmed (by simp) (List.forall_mem_singleton.mpr (by decide))
  · simpa using run?_append h.run? hdigits
  · simp [pending, ofCode_toNat hpos]

theorem Spells.exists_trims (h : Spells name text)
    (hlast : ∀ c, name.getLast? = some c → Text.isBlank c = true → isControl c = true) :
    ∃ s read st, Trims name text s read st := by
  have hspells := h
  cases h with
  | nil => exact ⟨_, _, _, hspells.trims (by simp)⟩
  | @concat name text t c h hchar =>
    have hvisible (hctrl : isControl c = false) : Text.isBlank c = false := by
      rw [Bool.eq_false_iff]
      intro hblank
      rw [hlast c (by simp) hblank] at hctrl
      cases hctrl
    cases hchar with
    | bare hname hctrl =>
      refine ⟨_, _, _, hspells.trims fun d hd => ?_⟩
      obtain rfl : c = d := by simpa using hd
      exact hvisible hctrl
    | escaped hhex hctrl =>
      refine ⟨_, _, _, hspells.trims fun d hd => ?_⟩
      obtain rfl : c = d := by simpa using hd
      exact hvisible hctrl
    | number hpos hsmall => exact ⟨_, _, _, h.trims_number hpos hsmall⟩

end ClassSelector

theorem exists_parseList_classSelector {name : String} (h : '\x00' ∉ name.toList)
    (hlast : ∀ c, name.toList.getLast? = some c → Text.isBlank c = true → isControl c = true) :
    ∃ s read st, Selector.parseList (classSelector name) = .ok [.ofCompound ('.' :: s)] ∧
      Trims name.toList (ClassSelector.escape name.toList) s read st := by
  have hspells := spells_escape h
  obtain ⟨s, read, st, htrims⟩ := hspells.exists_trims hlast
  have htrimmed := Text.trimmed_trim ('.' :: ClassSelector.escape name.toList)
  rw [htrims.trim_eq] at htrimmed
  have htext : (classSelector name).toList = '.' :: ClassSelector.escape name.toList := by
    simp [classSelector, escapeClassName]
  have hread : Selector.read (classSelector name).toList = .ok (.ofCompound ('.' :: s)) := by
    rw [← Selector.read_trim, htext, htrims.trim_eq]
    exact read_of_run? htrims.run (fun c hc => hspells.eq_space c (htrims.mem c hc)) htrimmed
  have hparse : Selector.parse (classSelector name) = .ok (.ofCompound ('.' :: s)) := by
    rw [Selector.parse, hread]
  exact ⟨s, read, st, Selector.parseList_of_parse hparse, htrims⟩

/-! ## The template behind the class -/

theorem continuesName_followingText (ps : List Part) :
    continuesName (ps.flatMap Part.followingText) = false := by
  cases ps with
  | nil => rfl
  | cons p ps =>
    obtain ⟨c, w⟩ := p
    cases c with
    | none => rfl
    | some c => cases c <;> rfl

theorem continuesName_replace {k s t u : List Char} (hs : s ≠ []) (hk : k.head? = some '.') :
    continuesName (Anchor.replace k s ++ t) = continuesName (s ++ u) := by
  obtain ⟨c, s, rfl⟩ := List.exists_cons_of_ne_nil hs
  obtain ⟨k, rfl⟩ := List.head?_eq_some_iff.mp hk
  rw [Anchor.replace_eq_replaceFrom, Anchor.replaceFrom]
  by_cases hc : c = '&'
  · subst hc
    rfl
  · simp [hc, continuesName]

theorem continuesName_mapCompound (k v : List Char) (ps : List Part) :
    continuesName (v ++ (ps.map (Part.mapCompound (Anchor.replace k))).flatMap Part.followingText) =
      continuesName (v ++ ps.flatMap Part.followingText) := by
  by_cases hv : v = []
  · rw [hv, List.nil_append, List.nil_append, continuesName_followingText,
      continuesName_followingText]
  · rw [continuesName_append hv, continuesName_append hv]

theorem endsNumber_mapCompound {k : List Char} (hk : k.head? = some '.') (w : List Char)
    (ps : List Part) :
    endsNumber (w ++ (ps.map (Part.mapCompound (Anchor.replace k))).flatMap Part.followingText) =
      endsNumber (w ++ ps.flatMap Part.followingText) := by
  cases w with
  | cons c w =>
    rw [List.cons_append, List.cons_append, endsNumber, endsNumber, continuesName_mapCompound]
  | nil =>
    cases ps with
    | nil => rfl
    | cons p ps =>
      obtain ⟨lead, v⟩ := p
      obtain ⟨b, hb⟩ : ∃ b, (lead.getD .descendant).between = ' ' :: b := by
        cases lead.getD .descendant <;> exact ⟨_, rfl⟩
      have hbehind : continuesName (b ++ (Anchor.replace k v ++
          (ps.map (Part.mapCompound (Anchor.replace k))).flatMap Part.followingText)) =
            continuesName (b ++ (v ++ ps.flatMap Part.followingText)) := by
        by_cases hmark : b = []
        · by_cases hv : v = []
          · subst hmark hv
            exact continuesName_mapCompound k [] ps
          · rw [hmark]
            exact continuesName_replace hv hk
        · rw [continuesName_append hmark, continuesName_append hmark]
      simp only [List.nil_append, List.map_cons, List.flatMap_cons, Part.mapCompound,
        Part.followingText, hb, List.cons_append, List.append_assoc, endsNumber, hbehind]

namespace Part

theorem leadingText_append (lead : Option Combinator) (w t : List Char) :
    leadingText ⟨lead, w⟩ ++ t = leadingText ⟨lead, w ++ t⟩ := by
  cases lead with
  | none => rfl
  | some c => simp [leadingText]

end Part

/-! ## The class that is named -/

/-- **Which class a resolved template names.** Let a template read as one selector, and let the first
compound begin with its only anchor, with nothing behind it that continues an identifier. In the place of
this anchor stands a dot and an identifier. If the class name does not end in a blank, other than a
control character, that identifier is the class name, unless the class selector ends in an escape and
the template goes on with white space and something that continues an identifier. Then it is another one. -/
theorem Selector.readName_resolve {name template : String} {sel : Selector} {p : Part}
    {ps : List Part} {w : List Char} (h : '\x00' ∉ name.toList)
    (hlast : ∀ c, name.toList.getLast? = some c → Text.isBlank c = true → isControl c = true)
    (hparse : parse template = .ok sel) (hparts : sel.parts = p :: ps)
    (hanchor : Anchor.suffix? p.compound = some w) (hw : continuesName w = false) :
    ∃ rest, (resolve (classSelector name) template).toList =
        Part.leadingText ⟨p.combinator, '.' :: rest⟩ ∧
      ((readName .outside rest).1 = name.toList ↔
        ((ClassSelector.escape name.toList).getLast? = some ' ' →
          endsNumber (w ++ ps.flatMap Part.followingText) = true)) := by
  obtain ⟨s, read, st, hclass, htrims⟩ := exists_parseList_classSelector h hlast
  have hreplace : Anchor.replace ('.' :: s) p.compound = '.' :: s ++ w :=
    Anchor.replace_of_suffix? hanchor _
  have hocc : sel.hasAnchor = true := by
    refine hasAnchor_iff.mpr ⟨p, by simp [hparts], ?_⟩
    rw [Part.hasAnchor, Anchor.eq_cons_of_suffix? hanchor, Anchor.occurs_eq_occursFrom]
    rfl
  let tail := w ++ (ps.map (Part.mapCompound (Anchor.replace ('.' :: s)))).flatMap Part.followingText
  have htext : (resolve (classSelector name) template).toList =
      Part.leadingText ⟨p.combinator, '.' :: (s ++ tail)⟩ := by
    have hproduct : resolve (classSelector name) template =
        String.ofList (sel.substitute (ofCompound ('.' :: s))).text := by
      rw [resolve, hclass, parseList_of_parse hparse]
      simp [productText]
    rw [hproduct, String.toList_ofList, substitute_ofCompound hocc, text, mapCompounds, hparts]
    show Part.leadingText ⟨p.combinator, Anchor.replace ('.' :: s) p.compound⟩ ++ _ = _
    rw [hreplace, Part.leadingText_append]
    simp [tail]
  have htail : continuesName tail = false := by
    rw [continuesName_mapCompound]
    by_cases hempty : w = []
    · rw [hempty, List.nil_append, continuesName_followingText]
    · exact (continuesName_append hempty _).trans hw
  have hread : (readName .outside (s ++ tail)).1 = name.toList ↔
      (readName st tail).1 = st.pending := by
    rw [readName_append htrims.run, ← htrims.name_eq, List.append_right_inj]
  refine ⟨s ++ tail, htext, hread.trans ?_⟩
  rcases htrims.state with ⟨rfl, hend⟩ | ⟨n, value, rfl, hend⟩
  · have hnothing : (readName .outside tail).1 = [] := readName_outside_eq_nil_iff.mpr htail
    exact iff_of_true hnothing fun hspace => absurd hspace hend
  · rw [readName_hex_eq_pending_iff htail, endsNumber_mapCompound rfl]
    simp [hend]

/-- The space before a mark is taken by the escape, and the name ends there. -/
theorem Selector.readName_resolve_child :
    '\x00' ∉ "1".toList ∧
      (∀ c, "1".toList.getLast? = some c → Text.isBlank c = true → isControl c = true) ∧
      parse "& > li" = .ok ⟨[⟨none, ['&']⟩, ⟨some .child, ['l', 'i']⟩]⟩ ∧
      Anchor.suffix? ['&'] = some [] ∧ continuesName [] = false ∧
      ∃ rest, (resolve (classSelector "1") "& > li").toList = '.' :: rest ∧
        (readName .outside rest).1 = "1".toList := by
  have hnul : '\x00' ∉ "1".toList := by decide
  have hlast : ∀ c, "1".toList.getLast? = some c → Text.isBlank c = true → isControl c = true := by
    intro c hc hblank
    obtain rfl := Option.some.inj hc
    revert hblank
    decide
  have hparse : parse "& > li" = .ok ⟨[⟨none, ['&']⟩, ⟨some .child, ['l', 'i']⟩]⟩ := by decide
  have hanchor : Anchor.suffix? ['&'] = some [] := by decide
  obtain ⟨rest, htext, hread⟩ := readName_resolve hnul hlast hparse rfl hanchor rfl
  exact ⟨hnul, hlast, hparse, hanchor, rfl, rest, htext, hread.mpr (by decide)⟩

/-- The space before a descendant is taken by the escape, and the descendant goes into the name. -/
theorem Selector.readName_resolve_descendant :
    '\x00' ∉ "1".toList ∧ parse "& b" = .ok ⟨[⟨none, ['&']⟩, ⟨some .descendant, ['b']⟩]⟩ ∧
      Anchor.suffix? ['&'] = some [] ∧ resolve (classSelector "1") "& b" = ".\\31 b" ∧
      (readName .outside "\\31 b".toList).1 = "1b".toList ∧ "1b" ≠ "1" := by
  refine ⟨by decide, by decide, by decide, by decide, by decide, by decide⟩

/-- A blank at the end of a class name is lost. -/
example : Selector.resolve (classSelector "a\u00a0") "&" = ".a" := by decide

end UtilityCss
