import UtilityCss.Proofs.Selector.Lexemes
import UtilityCss.Proofs.Sheet.Identifier

/-!
# The identifiers of a text

The identifiers of a text are its maximal runs of name characters and escapes, outside strings. Two texts
behind each other have the identifiers of both (`names_append`), unless the first one ends in an identifier
that the second one goes on with (`Joins`); then there are fewer (`length_names_append_lt`). That holds also
where an escape goes on from one text into the other: what it takes in are characters of the identifier, or
the space behind it.
-/

namespace UtilityCss

open ListState ClassSelector NameState

namespace Lexeme

/-- Whether a lexeme can stand in an identifier. -/
def isName : Lexeme → Bool
  | plain c => isNameChar c
  | escape _ => true
  | quoted _ => false

end Lexeme

/-! ## Runs of lexemes -/

def beginsName (ls : List Lexeme) : Bool := ls.head?.any Lexeme.isName

def endsName (ls : List Lexeme) : Bool := ls.getLast?.any Lexeme.isName

/-- The texts of the maximal runs of lexemes that can stand in an identifier. -/
def nameRuns : List Lexeme → List (List Char)
  | [] => []
  | l :: ls =>
    if l.isName then
      if beginsName ls then Text.appendHead l.text (nameRuns ls) else l.text :: nameRuns ls
    else nameRuns ls

/-- The identifiers of a text. -/
def names (s : List Char) : List (List Char) := nameRuns (lexemes s)

theorem nameRuns_cons_of_not {l : Lexeme} (h : l.isName = false) (ls : List Lexeme) :
    nameRuns (l :: ls) = nameRuns ls := by
  simp [nameRuns, h]

theorem nameRuns_ne_nil {ls : List Lexeme} (h : beginsName ls = true) : nameRuns ls ≠ [] := by
  cases ls with
  | nil => cases h
  | cons l ls =>
    have hl : l.isName = true := h
    rw [nameRuns, if_pos hl]
    split_ifs with hls
    · cases hruns : nameRuns ls with
      | nil => exact absurd hruns (nameRuns_ne_nil hls)
      | cons w ws => simp [Text.appendHead_cons_head]
    · simp

theorem beginsName_append {ls : List Lexeme} (h : ls ≠ []) (ms : List Lexeme) :
    beginsName (ls ++ ms) = beginsName ls := by
  rw [beginsName, List.head?_append_of_ne_nil _ h, beginsName]

theorem endsName_cons {l : Lexeme} {ls : List Lexeme} (h : ls ≠ []) :
    endsName (l :: ls) = endsName ls := by
  rw [endsName, List.getLast?_cons_of_ne_nil h, endsName]

theorem length_appendHead {s : List Char} {ws : List (List Char)} (h : ws ≠ []) :
    (Text.appendHead s ws).length = ws.length := by
  obtain ⟨w, ws, rfl⟩ := List.exists_cons_of_ne_nil h
  rw [Text.appendHead_cons_head]
  rfl

theorem appendHead_append {s : List Char} {ws : List (List Char)} (h : ws ≠ []) (vs : List (List Char)) :
    Text.appendHead s (ws ++ vs) = Text.appendHead s ws ++ vs := by
  obtain ⟨w, ws, rfl⟩ := List.exists_cons_of_ne_nil h
  rw [List.cons_append, Text.appendHead_cons_head, Text.appendHead_cons_head]
  rfl

theorem nameRuns_append {ls ms : List Lexeme} (h : ¬ (endsName ls = true ∧ beginsName ms = true)) :
    nameRuns (ls ++ ms) = nameRuns ls ++ nameRuns ms := by
  induction ls with
  | nil => rfl
  | cons l ls ih =>
    by_cases hnil : ls = []
    · subst hnil
      by_cases hl : l.isName = true
      · have hms : beginsName ms = false := by simpa [endsName, hl] using h
        rw [List.singleton_append, nameRuns, if_pos hl, hms, nameRuns, if_pos hl]
        rfl
      · simp [nameRuns, hl]
    · rw [endsName_cons hnil] at h
      rw [List.cons_append, nameRuns, nameRuns, beginsName_append hnil, ih h]
      split_ifs with hl hls
      · exact appendHead_append (nameRuns_ne_nil hls) _
      · rfl
      · rfl

theorem length_nameRuns_append {ls ms : List Lexeme} (hls : endsName ls = true)
    (hms : beginsName ms = true) :
    (nameRuns (ls ++ ms)).length + 1 = (nameRuns ls).length + (nameRuns ms).length := by
  induction ls with
  | nil => cases hls
  | cons l ls ih =>
    by_cases hnil : ls = []
    · subst hnil
      have hl : l.isName = true := hls
      have hne := nameRuns_ne_nil hms
      simp only [List.singleton_append, nameRuns, hl, hms, if_true, length_appendHead hne]
      simp [beginsName]
      omega
    · rw [endsName_cons hnil] at hls
      have hrest := ih hls
      rw [List.cons_append, nameRuns, nameRuns, beginsName_append hnil]
      split_ifs with hl hb
      · have hne : nameRuns (ls ++ ms) ≠ [] := nameRuns_ne_nil ((beginsName_append hnil ms).trans hb)
        rw [length_appendHead hne, length_appendHead (nameRuns_ne_nil hb)]
        exact hrest
      · simp only [List.length_cons]
        omega
      · exact hrest

theorem length_nameRuns_cons_le {l : Lexeme} (hl : l.isName = true) (ls : List Lexeme) :
    (nameRuns (l :: ls)).length ≤ 1 + (nameRuns ls).length := by
  rw [nameRuns, if_pos hl]
  split_ifs with hls
  · rw [length_appendHead (nameRuns_ne_nil hls)]
    omega
  · rw [List.length_cons]
    omega

/-! ## The identifiers of two texts behind each other -/

namespace Begun

theorem exists_lexemesFrom_escape (n : Nat) (t s : List Char) :
    ∃ w ls, (escape n t).lexemesFrom s = .escape w :: ls := by
  induction s generalizing n t with
  | nil => exact ⟨t, [], rfl⟩
  | cons c s ih =>
    rw [lexemesFrom_cons]
    cases n with
    | zero =>
      simp only [next]
      split_ifs
      · exact ih 1 (t ++ [c])
      · exact ⟨_, _, rfl⟩
    | succ n =>
      simp only [next]
      split_ifs
      · exact ih (n + 2) (t ++ [c])
      · exact ⟨_, _, rfl⟩
      · exact ⟨_, _, rfl⟩

theorem exists_lexemesFrom_quoted (q : Char) (e : Bool) (t s : List Char) :
    ∃ w ls, (quoted q e t).lexemesFrom s = .quoted w :: ls := by
  induction s generalizing e t with
  | nil => exact ⟨t, [], rfl⟩
  | cons c s ih =>
    rw [lexemesFrom_cons]
    cases e with
    | true => exact ih false (t ++ [c])
    | false =>
      simp only [next]
      split_ifs
      · exact ih true (t ++ [c])
      · exact ⟨_, _, rfl⟩
      · exact ih false (t ++ [c])

end Begun

theorem beginsName_lexemes (s : List Char) : beginsName (lexemes s) = continuesName s := by
  cases s with
  | nil => rfl
  | cons c s =>
    have hcont : continuesName (c :: s) = (isNameChar c || c == '\\') := rfl
    rw [lexemes, Begun.lexemesFrom_cons, Begun.next, hcont]
    unfold Begun.fresh
    split_ifs with h1 h2
    · obtain ⟨w, ls, hw⟩ := Begun.exists_lexemesFrom_escape 0 [c] s
      dsimp only
      rw [List.nil_append, hw]
      simp [beginsName, Lexeme.isName, h1]
    · obtain ⟨w, ls, hw⟩ := Begun.exists_lexemesFrom_quoted c false [c] s
      dsimp only
      rw [List.nil_append, hw]
      have hnot : isNameChar c = false := by
        rcases isQuote_iff.mp h2 with rfl | rfl <;> decide
      simp [beginsName, Lexeme.isName, h1, hnot]
    · simp [beginsName, Lexeme.isName, h1]

theorem length_nameRuns_cons_congr {l m : Lexeme} (h : l.isName = m.isName) (ls : List Lexeme) :
    (nameRuns (l :: ls)).length = (nameRuns (m :: ls)).length := by
  rw [nameRuns, nameRuns, h]
  split_ifs with hm hls
  · rw [length_appendHead (nameRuns_ne_nil hls), length_appendHead (nameRuns_ne_nil hls)]
  · rfl
  · rfl

theorem lexemes_cons_plain {c : Char} (h1 : c ≠ '\\') (h2 : isQuote c = false) (s : List Char) :
    lexemes (c :: s) = .plain c :: lexemes s := by
  rw [lexemes, Begun.lexemesFrom_cons, Begun.next, Begun.fresh_eq_plain h1 h2]
  rfl

theorem length_nameRuns_escape_le (n : Nat) (t s : List Char) :
    (nameRuns ((Begun.escape (n + 1) t).lexemesFrom s)).length ≤
      (nameRuns (.escape t :: lexemes s)).length := by
  induction s generalizing n t with
  | nil => exact Nat.le_refl _
  | cons c s ih =>
    rw [Begun.lexemesFrom_cons, Begun.next]
    by_cases h1 : (n + 1 < 6 && isHexDigit c) = true
    · have hhex := (Bool.and_eq_true_iff.mp h1).2
      have hname : (Lexeme.plain c).isName = true := isNameChar_of_isHexDigit hhex
      have hplain : lexemes (c :: s) = .plain c :: lexemes s := by
        refine lexemes_cons_plain ?_ (isQuote_of_escapes (.inl hhex)) s
        rintro rfl
        cases hhex
      have hruns : (nameRuns (.escape t :: lexemes (c :: s))).length =
          (nameRuns (.plain c :: lexemes s)).length := by
        have hescape : (Lexeme.escape t).isName = true := rfl
        have hbegins : beginsName (.plain c :: lexemes s) = true := hname
        rw [hplain, nameRuns, if_pos hescape, if_pos hbegins, length_appendHead (nameRuns_ne_nil hbegins)]
      rw [if_pos h1, hruns, length_nameRuns_cons_congr (m := .escape (t ++ [c])) hname]
      exact ih (n + 1) (t ++ [c])
    · rw [if_neg h1]
      by_cases h2 : c = ' '
      · subst h2
        have hruns : (nameRuns (.escape t :: lexemes (' ' :: s))).length =
            1 + (nameRuns (lexemes s)).length := by
          have hescape : (Lexeme.escape t).isName = true := rfl
          have hspace : (Lexeme.plain ' ').isName = false := by decide
          have hbegins : ¬ beginsName (.plain ' ' :: lexemes s) = true := by simp [beginsName, hspace]
          rw [lexemes_cons_plain (by decide) (by decide), nameRuns, if_pos hescape, if_neg hbegins,
            nameRuns_cons_of_not hspace, List.length_cons, Nat.add_comm]
        rw [if_pos rfl, hruns]
        exact length_nameRuns_cons_le rfl _
      · rw [if_neg h2, lexemes, Begun.lexemesFrom_cons]
        exact Nat.le_refl _

/-- Whether an identifier at the end of a text goes on in the text behind it. -/
def Joins (p x : List Char) : Prop := endsName (lexemes p) = true ∧ continuesName x = true

instance (p x : List Char) : Decidable (Joins p x) :=
  inferInstanceAs (Decidable (endsName (lexemes p) = true ∧ continuesName x = true))

/-- A text behind which another one can be put: it leaves no string open, and no escape, unless by the digits
of a number; then the other text must not begin with the space that would belong to the escape. -/
structure Precedes (p x : List Char) : Prop where
  escaped : (Begun.nothing.after p).escaped = false
  quote : (Begun.nothing.after p).quote = none
  space : Begun.nothing.after p = .nothing ∨ x.head? ≠ some ' '

theorem precedes_of_after {p : List Char} (h : Begun.nothing.after p = .nothing) (x : List Char) :
    Precedes p x := ⟨by rw [h]; rfl, by rw [h]; rfl, .inl h⟩

theorem Precedes.cases {p x : List Char} (h : Precedes p x) : Begun.nothing.after p = .nothing ∨
    ∃ n t, Begun.nothing.after p = .escape (n + 1) t ∧
      lexemes p = Begun.nothing.emitted p ++ [.escape t] := by
  obtain ⟨hesc, hquote, -⟩ := h
  cases hb : Begun.nothing.after p with
  | nothing => exact .inl rfl
  | escape n t =>
    rw [hb] at hesc
    cases n with
    | zero => cases hesc
    | succ n => exact .inr ⟨n, t, rfl, by rw [lexemes, Begun.lexemesFrom, hb]; rfl⟩
  | quoted q e t =>
    rw [hb] at hquote
    cases hquote

/-- Two texts have the identifiers of both, if none goes on from the first one into the second one. -/
theorem names_append {p x : List Char} (h : Precedes p x) (hjoin : ¬ Joins p x) :
    names (p ++ x) = names p ++ names x := by
  have hlexemes : lexemes (p ++ x) = lexemes p ++ lexemes x := by
    rcases h.cases with hnothing | ⟨n, t, hescape, hp⟩
    · exact lexemes_append hnothing x
    · have hcont : continuesName x = false := by simpa [Joins, hp, endsName, Lexeme.isName] using hjoin
      rw [hp, lexemes, Begun.lexemesFrom_append, hescape]
      cases x with
      | nil => simp [lexemes, Begun.lexemesFrom, Begun.flush]
      | cons c x =>
        have hname : isNameChar c = false ∧ c ≠ '\\' := by simpa [continuesName] using hcont
        have hhex : isHexDigit c = false := by
          rw [Bool.eq_false_iff]
          intro hhex
          rw [isNameChar_of_isHexDigit hhex] at hname
          cases hname.1
        have hspace : c ≠ ' ' := by simpa [hescape] using h.space
        have hnext := Begun.next_eq_of_closed (b := .escape (n + 1) t) rfl rfl ⟨hhex, hspace⟩
        rw [Begun.lexemesFrom_cons, hnext, lexemes, Begun.lexemesFrom_cons]
        simp [Begun.flush, Begun.next]
  rw [names, hlexemes, nameRuns_append]
  · rfl
  · rwa [beginsName_lexemes]

theorem length_nameRuns_append_le {ls ms ns : List Lexeme} (hms : beginsName ms = true)
    (hns : beginsName ns = true) (h : (nameRuns ms).length ≤ (nameRuns ns).length) :
    (nameRuns (ls ++ ms)).length ≤ (nameRuns (ls ++ ns)).length := by
  by_cases hls : endsName ls = true
  · have h1 := length_nameRuns_append hls hms
    have h2 := length_nameRuns_append hls hns
    omega
  · rw [nameRuns_append fun hboth => hls hboth.1, nameRuns_append fun hboth => hls hboth.1,
      List.length_append, List.length_append]
    omega

/-- Where an identifier goes on, there are fewer. -/
theorem length_names_append_lt {p x : List Char} (h : Precedes p x) (hjoin : Joins p x) :
    (names (p ++ x)).length < (names p).length + (names x).length := by
  obtain ⟨hends, hcont⟩ := hjoin
  rw [← beginsName_lexemes] at hcont
  have hboth := length_nameRuns_append hends hcont
  have hle : (names (p ++ x)).length ≤ (nameRuns (lexemes p ++ lexemes x)).length := by
    rcases h.cases with hnothing | ⟨n, t, hescape, hp⟩
    · rw [names, lexemes_append hnothing]
    · obtain ⟨w, ls, hw⟩ := Begun.exists_lexemesFrom_escape (n + 1) t x
      have hbegins : beginsName ((Begun.escape (n + 1) t).lexemesFrom x) = true := by rw [hw]; rfl
      rw [names, lexemes, Begun.lexemesFrom_append, hescape, hp, List.append_assoc]
      exact length_nameRuns_append_le hbegins rfl (length_nameRuns_escape_le n t x)
  simp only [names] at hle ⊢
  omega

theorem names_append_le {p x : List Char} (h : Precedes p x) :
    (names (p ++ x)).length ≤ (names p).length + (names x).length := by
  by_cases hjoin : Joins p x
  · exact (length_names_append_lt h hjoin).le
  · rw [names_append h hjoin, List.length_append]

end UtilityCss
