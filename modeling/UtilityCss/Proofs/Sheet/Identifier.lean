import UtilityCss.Json.Reader
import UtilityCss.Proofs.Selector.Composition
import UtilityCss.Proofs.Sheet.ClassName

/-!
# Identifiers

How a style sheet reads an identifier. Name characters stand for themselves. A backslash before one to
six hexadecimal digits stands for the character of that number, and takes one white space behind the
digits with it; before any other character it stands for that character. The identifier ends before
the first character that is none of these (`readName`).

The text of an escaped class name is read as the class name (`Spells.run?`), and the reader stops where it
ends (`readName_escapeClassName`). The reader of selectors keeps all of it in one compound, the white space
of its escapes included (`NameState.step_of_next?`).
-/

namespace UtilityCss

open ClassSelector

/-- Where the reader of an identifier stands. -/
inductive NameState where
  | outside
  /-- Right behind a backslash. -/
  | opened
  /-- Behind so many hexadecimal digits of this value. -/
  | hex (digits value : Nat)
  deriving DecidableEq, Repr

namespace NameState

def hexValue (c : Char) : Nat := (Json.hexValue? c).getD 0

/-- The character that a number stands for in an escape. -/
def ofCode (n : Nat) : Char := if n ≠ 0 ∧ n.isValidChar then Char.ofNat n else '\ufffd'

/-- What is read if the identifier ends here. -/
def pending : NameState → List Char
  | outside => []
  | opened => ['\ufffd']
  | hex _ value => [ofCode value]

/-- What a character outside escapes is read as, if it belongs to an identifier. -/
def bare? (c : Char) : Option (List Char × NameState) :=
  if c = '\\' then some ([], opened)
  else if isNameChar c then some ([c], outside)
  else none

/-- What one more character is read as, if it belongs to the identifier. -/
def next? : NameState → Char → Option (List Char × NameState)
  | outside, c => bare? c
  | opened, c => if isHexDigit c then some ([], hex 1 (hexValue c)) else some ([c], outside)
  | hex n value, c =>
    if n < 6 && isHexDigit c then some ([], hex (n + 1) (16 * value + hexValue c))
    else if isSelectorSpace c then some ([ofCode value], outside)
    else (bare? c).map fun (name, st) => (ofCode value :: name, st)

/-- What a text is read as that belongs to the identifier as a whole, and the state behind it. -/
def run? : NameState → List Char → Option (List Char × NameState)
  | st, [] => some ([], st)
  | st, c :: s => do
    let (name, st) ← st.next? c
    let (more, st) ← run? st s
    return (name ++ more, st)

/-- The identifier at the start of a text, and the text behind it. -/
def readName : NameState → List Char → List Char × List Char
  | st, [] => (st.pending, [])
  | st, c :: s =>
    match st.next? c with
    | none => (st.pending, c :: s)
    | some (name, st) =>
      let (more, rest) := readName st s
      (name ++ more, rest)

theorem run?_cons {st st₁ st₂ : NameState} {c : Char} {s name more : List Char}
    (hc : st.next? c = some (name, st₁)) (hs : run? st₁ s = some (more, st₂)) :
    run? st (c :: s) = some (name ++ more, st₂) := by
  rw [run?, hc]
  show (run? st₁ s).bind _ = _
  rw [hs]
  rfl

theorem exists_of_run?_cons {st st₂ : NameState} {c : Char} {s name : List Char}
    (h : run? st (c :: s) = some (name, st₂)) :
    ∃ first more st₁, st.next? c = some (first, st₁) ∧ run? st₁ s = some (more, st₂) ∧
      name = first ++ more := by
  rw [run?] at h
  obtain ⟨⟨first, st₁⟩, hc, h⟩ := Option.bind_eq_some_iff.mp h
  obtain ⟨⟨more, st₂'⟩, hs, h⟩ := Option.bind_eq_some_iff.mp h
  obtain ⟨rfl, rfl⟩ := Prod.mk.inj (Option.some.inj h)
  exact ⟨first, more, st₁, hc, hs, rfl⟩

theorem run?_append {st st₁ st₂ : NameState} {s t name more : List Char}
    (hs : run? st s = some (name, st₁)) (ht : run? st₁ t = some (more, st₂)) :
    run? st (s ++ t) = some (name ++ more, st₂) := by
  induction s generalizing st name with
  | nil =>
    obtain ⟨rfl, rfl⟩ := Prod.mk.inj (Option.some.inj hs)
    exact ht
  | cons c s ih =>
    obtain ⟨first, rest, st', hc, hrest, rfl⟩ := exists_of_run?_cons hs
    rw [List.append_assoc]
    exact run?_cons hc (ih hrest)

theorem readName_append {st st₁ : NameState} {s name : List Char}
    (hs : run? st s = some (name, st₁)) (t : List Char) :
    readName st (s ++ t) = (name ++ (readName st₁ t).1, (readName st₁ t).2) := by
  induction s generalizing st name with
  | nil =>
    obtain ⟨rfl, rfl⟩ := Prod.mk.inj (Option.some.inj hs)
    rfl
  | cons c s ih =>
    obtain ⟨first, rest, st', hc, hrest, rfl⟩ := exists_of_run?_cons hs
    rw [List.cons_append, readName, hc]
    simp only [ih hrest, List.append_assoc]

theorem readName_ne_nil {st : NameState} (h : st ≠ outside) (s : List Char) :
    (readName st s).1 ≠ [] := by
  induction s generalizing st with
  | nil =>
    cases st with
    | outside => exact absurd rfl h
    | opened => simp [readName, pending]
    | hex n value => simp [readName, pending]
  | cons c s ih =>
    cases st with
    | outside => exact absurd rfl h
    | opened =>
      by_cases hc : isHexDigit c = true
      · simpa [readName, next?, hc] using ih (by simp)
      · simp [readName, next?, hc]
    | hex n value =>
      rw [readName]
      by_cases hdigit : (n < 6 && isHexDigit c) = true
      · have hnext : (hex n value).next? c = some ([], hex (n + 1) (16 * value + hexValue c)) :=
          if_pos hdigit
        simpa [hnext] using ih (by simp)
      · by_cases hspace : isSelectorSpace c = true
        · simp [next?, hdigit, hspace]
        · cases hbare : bare? c <;> simp [next?, hdigit, hspace, hbare, pending]

/-! ## Where an identifier ends -/

/-- Whether an identifier before the text goes on in it. -/
def continuesName (s : List Char) : Bool := s.head?.any fun c => isNameChar c || c == '\\'

theorem continuesName_append {s : List Char} (h : s ≠ []) (t : List Char) :
    continuesName (s ++ t) = continuesName s := by
  obtain ⟨c, s, rfl⟩ := List.exists_cons_of_ne_nil h
  rfl

theorem bare?_eq_none_iff {c : Char} : bare? c = none ↔ isNameChar c = false ∧ c ≠ '\\' := by
  unfold bare?
  split_ifs with h1 h2
  · simp [h1]
  · simp [h2]
  · simp [h1, h2]

theorem readName_outside_eq_nil_iff {s : List Char} :
    (readName outside s).1 = [] ↔ continuesName s = false := by
  cases s with
  | nil => simp [readName, pending, continuesName]
  | cons c s =>
    have hcont : continuesName (c :: s) = false ↔ bare? c = none := by
      rw [bare?_eq_none_iff]
      simp [continuesName]
    rw [hcont, readName, next?]
    unfold bare?
    split_ifs with h1 h2
    · simpa using readName_ne_nil (by simp) s
    · simp
    · simp [pending]

theorem readName_of_not_continuesName {s : List Char} (h : continuesName s = false) :
    readName outside s = ([], s) := by
  cases s with
  | nil => rfl
  | cons c s =>
    have hbare : bare? c = none := bare?_eq_none_iff.mpr (by simpa [continuesName] using h)
    simp [readName, next?, hbare, pending]

/-- Whether an escape of hexadecimal digits before the text ends the identifier: either the text does
not begin with white space, or no identifier goes on behind the white space that the escape takes. -/
def endsNumber : List Char → Bool
  | [] => true
  | c :: s => !(isSelectorSpace c && continuesName s)

theorem readName_hex_eq_pending_iff {n value : Nat} {s : List Char} (hs : continuesName s = false) :
    (readName (hex n value) s).1 = pending (hex n value) ↔ endsNumber s = true := by
  cases s with
  | nil => simp [readName, endsNumber]
  | cons c s =>
    obtain ⟨hname, hbackslash⟩ : isNameChar c = false ∧ c ≠ '\\' := by
      simpa [continuesName] using hs
    have hbare : bare? c = none := bare?_eq_none_iff.mpr ⟨hname, hbackslash⟩
    have hhex : isHexDigit c = false := by
      rw [Bool.eq_false_iff]
      intro h
      rw [isNameChar_of_isHexDigit h] at hname
      cases hname
    by_cases hspace : isSelectorSpace c = true
    · have hnext : (hex n value).next? c = some ([ofCode value], outside) := by
        simp [next?, hhex, hspace]
      rw [readName, hnext, endsNumber, hspace, Bool.true_and, Bool.not_eq_true',
        ← readName_outside_eq_nil_iff]
      simp [pending]
    · have hnext : (hex n value).next? c = none := by simp [next?, hhex, hspace, hbare]
      rw [readName, hnext]
      simp [endsNumber, hspace]

end NameState

/-! ## The reader of selectors -/

namespace Reader

/-- The reader in its first compound. -/
def within (w : List Char) (e : Escape) : Reader := ⟨[], w, none, none, 0, none, e⟩

theorem put_within (w : List Char) (e : Escape) (c : Char) :
    (within w e).put c = within (w ++ [c]) e := by
  cases w <;> rfl

theorem plain_within_of_isNameChar {c : Char} (hc : isNameChar c = true) (w : List Char) :
    (within w .outside).plain c = .ok (within (w ++ [c]) .outside) := by
  obtain ⟨hnext, hends⟩ := next_of_isNameChar hc
  have hcomma : c ≠ ',' := fun h => hends (.inl h)
  have hbreak : ¬ (isSelectorSpace c || (Combinator.ofChar? c).isSome) = true := by
    intro h
    exact hends (.inr ((Bool.or_eq_true _ _).mp h))
  have hbackslash : c ≠ '\\' := ne_of_isNameChar hc (by decide)
  have htrack : (within (w ++ [c]) .outside).track c = within (w ++ [c]) .outside := by
    rw [(track_eq rfl hbackslash).1]
    have hstart : (within (w ++ [c]) .outside).listState = ListState.start := rfl
    rw [hstart, hnext]
    rfl
  unfold plain
  rw [if_neg (by simp [hcomma]), if_neg (by simp [hbreak]), if_neg hbackslash, put_within, htrack]

end Reader

namespace NameState

/-- Where the reader of selectors stands in an escape. -/
def escape : NameState → Escape
  | outside => .outside
  | opened => .opened
  | hex n _ => .hex n

theorem plain_of_bare? {c : Char} {name : List Char} {st : NameState}
    (h : bare? c = some (name, st)) (w : List Char) :
    (Reader.within w .outside).plain c = .ok (Reader.within (w ++ [c]) st.escape) := by
  unfold bare? at h
  split_ifs at h with hbackslash hname
  · obtain ⟨-, rfl⟩ := Prod.mk.inj (Option.some.inj h)
    subst hbackslash
    have hplain : (Reader.within w .outside).plain '\\' =
        .ok { (Reader.within w .outside).put '\\' with escape := .opened } := rfl
    rw [hplain, Reader.put_within]
    rfl
  · obtain ⟨-, rfl⟩ := Prod.mk.inj (Option.some.inj h)
    exact Reader.plain_within_of_isNameChar hname w

/-- What belongs to an identifier is put to the compound. Of the white space behind an escape the reader
of selectors knows the space alone. -/
theorem step_of_next? {st st' : NameState} {c : Char} {name : List Char}
    (h : st.next? c = some (name, st')) (hc : isSelectorSpace c = true → c = ' ') (w : List Char) :
    (Reader.within w st.escape).step c = .ok (Reader.within (w ++ [c]) st'.escape) := by
  cases st with
  | outside => exact plain_of_bare? h w
  | opened =>
    have hstep : (Reader.within w .opened).step c =
        .ok { (Reader.within w .opened).put c with
          escape := if isHexDigit c then .hex 1 else .outside } := rfl
    rw [escape, hstep, Reader.put_within]
    simp only [next?] at h
    split_ifs at h with hhex
    · obtain ⟨-, rfl⟩ := Prod.mk.inj (Option.some.inj h)
      rw [if_pos hhex]
      rfl
    · obtain ⟨-, rfl⟩ := Prod.mk.inj (Option.some.inj h)
      rw [if_neg hhex]
      rfl
  | hex n value =>
    have hstep : (Reader.within w (.hex n)).step c =
        if n < 6 && isHexDigit c then
          .ok { (Reader.within w (.hex n)).put c with escape := .hex (n + 1) }
        else if c = ' ' then .ok { (Reader.within w (.hex n)).put c with escape := .outside }
        else (Reader.within w .outside).plain c := rfl
    rw [escape, hstep, Reader.put_within]
    simp only [next?] at h
    split_ifs at h with hdigit hspace
    · obtain ⟨-, rfl⟩ := Prod.mk.inj (Option.some.inj h)
      rw [if_pos hdigit]
      rfl
    · obtain ⟨-, rfl⟩ := Prod.mk.inj (Option.some.inj h)
      rw [if_neg hdigit, if_pos (hc hspace)]
      rfl
    · obtain ⟨⟨first, st₁⟩, hbare, hpair⟩ := Option.map_eq_some_iff.mp h
      obtain ⟨-, rfl⟩ := Prod.mk.inj hpair
      rw [if_neg hdigit, if_neg (by rintro rfl; exact hspace (by decide))]
      exact plain_of_bare? hbare w

theorem foldlM_of_run? {st st' : NameState} {s name : List Char}
    (h : run? st s = some (name, st')) (hs : ∀ c ∈ s, isSelectorSpace c = true → c = ' ')
    (w : List Char) :
    s.foldlM Reader.step (Reader.within w st.escape) =
      .ok (Reader.within (w ++ s) st'.escape) := by
  induction s generalizing st name w with
  | nil =>
    obtain ⟨-, rfl⟩ := Prod.mk.inj (Option.some.inj h)
    rw [List.append_nil]
    rfl
  | cons c s ih =>
    obtain ⟨first, rest, st₁, hc, hrest, -⟩ := exists_of_run?_cons h
    have htail := ih hrest (fun d hd => hs d (by simp [hd])) (w ++ [c])
    rw [List.append_assoc] at htail
    rw [List.foldlM_cons, step_of_next? hc (hs c (by simp))]
    exact htail

theorem read_of_run? {s name : List Char} {st : NameState} (h : run? outside s = some (name, st))
    (hs : ∀ c ∈ s, isSelectorSpace c = true → c = ' ') (htrimmed : Text.Trimmed ('.' :: s)) :
    Selector.read ('.' :: s) = .ok (Selector.ofCompound ('.' :: s)) := by
  have hrun : ('.' :: s).foldlM Reader.step Reader.start =
      .ok (Reader.within ('.' :: s) st.escape) := foldlM_of_run? h hs ['.']
  rw [Selector.read, Text.trim_of_trimmed htrimmed, hrun]
  rfl

end NameState

/-! ## Escaped class names -/

namespace ClassSelector

open NameState

/-- A character as it is written in an identifier. -/
inductive SpellsChar (c : Char) : List Char → Prop where
  | bare (hname : isNameChar c = true) (hctrl : isControl c = false) : SpellsChar c [c]
  | escaped (hhex : isHexDigit c = false) (hctrl : isControl c = false) : SpellsChar c ['\\', c]
  | number (hpos : 0 < c.toNat) (hsmall : c.toNat < 128) : SpellsChar c (hexEscape c)

/-- A text as it is written in an identifier, character by character. -/
inductive Spells : List Char → List Char → Prop where
  | nil : Spells [] []
  | concat {name text t : List Char} {c : Char} (h : Spells name text) (ht : SpellsChar c t) :
    Spells (name ++ [c]) (text ++ t)

theorem Spells.append {name text more t : List Char} (h : Spells name text) (ht : Spells more t) :
    Spells (name ++ more) (text ++ t) := by
  induction ht with
  | nil => simpa using h
  | concat _ hchar ih =>
    rw [← List.append_assoc, ← List.append_assoc]
    exact ih.concat hchar

theorem SpellsChar.append {c : Char} {t name text : List Char} (h : SpellsChar c t)
    (ht : Spells name text) : Spells (c :: name) (t ++ text) :=
  (Spells.nil.concat h).append ht

/-! ### What the escaper writes -/

theorem bounds_of_isControl {c : Char} (h : isControl c = true) : 0 < c.toNat ∧ c.toNat < 128 := by
  simp only [isControl, Bool.or_eq_true, Bool.and_eq_true, decide_eq_true_eq, beq_iff_eq] at h
  omega

theorem bounds_of_isDigit {c : Char} (h : c.isDigit = true) : 0 < c.toNat ∧ c.toNat < 128 := by
  simp only [Char.isDigit, Bool.and_eq_true, decide_eq_true_eq, ge_iff_le,
    UInt32.le_iff_toNat_le] at h
  have hlow : 48 ≤ c.toNat := h.1
  have hhigh : c.toNat ≤ 57 := h.2
  omega

theorem spellsChar_escapeChar {c : Char} (h : c ≠ '\x00') : SpellsChar c (escapeChar c) := by
  unfold escapeChar
  rw [if_neg h]
  split_ifs with hctrl hname
  · obtain ⟨hpos, hsmall⟩ := bounds_of_isControl hctrl
    exact .number hpos hsmall
  · exact .bare hname (by simpa using hctrl)
  · refine .escaped ?_ (by simpa using hctrl)
    rw [Bool.eq_false_iff]
    exact fun hhex => hname (isNameChar_of_isHexDigit hhex)

theorem spellsChar_escapeLead {c : Char} (h : c ≠ '\x00') : SpellsChar c (escapeLead c) := by
  unfold escapeLead
  split_ifs with hdigit
  · obtain ⟨hpos, hsmall⟩ := bounds_of_isDigit hdigit
    exact .number hpos hsmall
  · exact spellsChar_escapeChar h

theorem spells_flatMap {s : List Char} (h : '\x00' ∉ s) : Spells s (s.flatMap escapeChar) := by
  induction s with
  | nil => exact .nil
  | cons c s ih =>
    rw [List.mem_cons, not_or] at h
    exact (spellsChar_escapeChar (Ne.symm h.1)).append (ih h.2)

theorem spells_escape {s : List Char} (h : '\x00' ∉ s) : Spells s (escape s) := by
  unfold escape
  split
  · exact .nil
  · exact Spells.nil.concat (.escaped (by decide) (by decide))
  · next c s =>
    simp only [List.mem_cons, not_or] at h
    have hdash : SpellsChar '-' ['-'] := .bare (by decide) (by decide)
    exact hdash.append ((spellsChar_escapeLead (Ne.symm h.2.1)).append (spells_flatMap h.2.2))
  · next c s _ _ =>
    rw [List.mem_cons, not_or] at h
    exact (spellsChar_escapeLead (Ne.symm h.1)).append (spells_flatMap h.2)

/-! ### How it is read -/

theorem ofCode_toNat {c : Char} (h : 0 < c.toNat) : ofCode c.toNat = c := by
  have hvalid : c.toNat ≠ 0 ∧ c.toNat.isValidChar := ⟨by omega, c.valid⟩
  rw [ofCode, if_pos hvalid, Char.ofNat_toNat]

theorem run?_digits : ∀ n < 128, 0 < n →
    run? outside ('\\' :: Nat.toDigits 16 n) = some ([], hex (Nat.toDigits 16 n).length n) ∧
      (('\\' :: Nat.toDigits 16 n).all fun c => !Text.isBlank c) = true := by
  decide

theorem isBlank_of_mem_digits {n : Nat} (hpos : 0 < n) (hsmall : n < 128) :
    ∀ c ∈ '\\' :: Nat.toDigits 16 n, Text.isBlank c = false := by
  intro c hc
  simpa using List.all_eq_true.mp (run?_digits n hsmall hpos).2 c hc

theorem SpellsChar.run? {c : Char} {t : List Char} (h : SpellsChar c t) :
    run? outside t = some ([c], outside) := by
  cases h with
  | bare hname _ =>
    have hbackslash : c ≠ '\\' := ne_of_isNameChar hname (by decide)
    simp [NameState.run?, next?, bare?, hname, hbackslash]
  | escaped hhex _ => simp [NameState.run?, next?, bare?, hhex]
  | number hpos hsmall =>
    have hdigits := (run?_digits _ hsmall hpos).1
    have hspace : NameState.run? (hex (Nat.toDigits 16 c.toNat).length c.toNat) [' '] =
        some ([c], outside) := by
      simp [NameState.run?, next?, ofCode_toNat hpos, show isHexDigit ' ' = false by decide,
        show isSelectorSpace ' ' = true by decide]
    exact run?_append hdigits hspace

/-- An escaped class name is read as the class name. -/
theorem Spells.run? {name text : List Char} (h : Spells name text) :
    run? outside text = some (name, outside) := by
  induction h with
  | nil => rfl
  | concat _ hchar ih => exact run?_append ih hchar.run?

theorem eq_space_of_not_isControl {c : Char} (hctrl : isControl c = false)
    (hc : isSelectorSpace c = true) : c = ' ' := by
  simp only [isSelectorSpace, Bool.or_eq_true, beq_iff_eq] at hc
  rcases hc with (((rfl | rfl) | rfl) | rfl) | rfl
  · revert hctrl; decide
  · revert hctrl; decide
  · revert hctrl; decide
  · revert hctrl; decide
  · rfl

theorem SpellsChar.eq_space {c : Char} {t : List Char} (h : SpellsChar c t) :
    ∀ x ∈ t, isSelectorSpace x = true → x = ' ' := by
  intro x hx hspace
  cases h with
  | bare _ hctrl =>
    obtain rfl := List.mem_singleton.mp hx
    exact eq_space_of_not_isControl hctrl hspace
  | escaped _ hctrl =>
    rcases List.mem_pair.mp hx with rfl | rfl
    · revert hspace; decide
    · exact eq_space_of_not_isControl hctrl hspace
  | number hpos hsmall =>
    rcases List.mem_append.mp hx with hx | hx
    · have hblank := isBlank_of_mem_digits hpos hsmall x hx
      rw [isBlank_of_isSelectorSpace hspace] at hblank
      cases hblank
    · exact List.mem_singleton.mp hx

theorem Spells.eq_space {name text : List Char} (h : Spells name text) :
    ∀ x ∈ text, isSelectorSpace x = true → x = ' ' := by
  induction h with
  | nil => simp
  | concat _ hchar ih =>
    intro x hx
    rcases List.mem_append.mp hx with hx | hx
    · exact ih x hx
    · exact hchar.eq_space x hx

end ClassSelector

open NameState ClassSelector

/-- **Escaped class names are read back.** An identifier that is read from an escaped class name before
any text that continues no identifier is the class name, and the reader stops at that text. So no two
class names are written the same. -/
theorem readName_escapeClassName {name : String} (h : '\x00' ∉ name.toList) :
    (∀ rest : List Char, continuesName rest = false →
      readName outside ((escapeClassName name).toList ++ rest) = (name.toList, rest)) ∧
      ∀ other : String, '\x00' ∉ other.toList →
        escapeClassName other = escapeClassName name → other = name := by
  have hread : ∀ x : String, '\x00' ∉ x.toList → ∀ rest : List Char, continuesName rest = false →
      readName outside ((escapeClassName x).toList ++ rest) = (x.toList, rest) := by
    intro x hx rest hrest
    rw [escapeClassName, String.toList_ofList, readName_append (spells_escape hx).run? rest,
      readName_of_not_continuesName hrest, List.append_nil]
  refine ⟨hread name h, fun other hother heq => ?_⟩
  have hname := hread name h [] rfl
  rw [← heq, hread other hother [] rfl] at hname
  exact String.toList_injective (congrArg Prod.fst hname)

/-- A digit behind a dash, a control character before a digit, and white space before another digit. -/
theorem readName_escapeClassName_digits :
    '\x00' ∉ "-4é\t1\n".toList ∧ continuesName " 2".toList = false ∧
      readName outside ((escapeClassName "-4é\t1\n").toList ++ " 2".toList) =
        ("-4é\t1\n".toList, " 2".toList) := by
  have hnul : '\x00' ∉ "-4é\t1\n".toList := by decide
  have hrest : continuesName " 2".toList = false := by decide
  exact ⟨hnul, hrest, (readName_escapeClassName hnul).1 _ hrest⟩

end UtilityCss
