import UtilityCss.Proofs.Selector.Reading

/-!
# The lexemes of a selector text

A selector text is a sequence of strings, escapes and characters that stand for themselves. A string goes
from a quote to the next one of its kind that no backslash stands before. An escape is a backslash and one
character, or a backslash, one to six hexadecimal digits and at most one space. What is still open where
the text ends is a lexeme too, so the lexemes make up the text (`flatMap_text_lexemes`).

None of the scanners of selectors knows lexemes: they keep a flag for the next character, the quote that
ends the string, and a number of brackets. The flag and the quote can be read off the lexeme that has been
begun (`Begun.Agrees`), and the number is the balance of the brackets that stand for themselves
(`Begun.depth_after`). So what the scanners do can be said about lexemes.
-/

namespace UtilityCss

inductive Lexeme where
  /-- A character that stands for itself. -/
  | plain (c : Char)
  /-- A backslash with what belongs to it. -/
  | escape (text : List Char)
  /-- A string with its quotes. -/
  | quoted (text : List Char)
  deriving DecidableEq, Repr

namespace Lexeme

def text : Lexeme → List Char
  | plain c => [c]
  | escape t => t
  | quoted t => t

def plain? : Lexeme → Option Char
  | plain c => some c
  | _ => none

def quoted? : Lexeme → Option (List Char)
  | quoted t => some t
  | _ => none

variable (c : Char) (t : List Char) (ls : List Lexeme)

@[simp] theorem filterMap_plain?_plain :
    (plain c :: ls).filterMap plain? = c :: ls.filterMap plain? := rfl

@[simp] theorem filterMap_plain?_escape : (escape t :: ls).filterMap plain? = ls.filterMap plain? := rfl

@[simp] theorem filterMap_plain?_quoted : (quoted t :: ls).filterMap plain? = ls.filterMap plain? := rfl

@[simp] theorem filterMap_quoted?_plain : (plain c :: ls).filterMap quoted? = ls.filterMap quoted? := rfl

@[simp] theorem filterMap_quoted?_escape :
    (escape t :: ls).filterMap quoted? = ls.filterMap quoted? := rfl

@[simp] theorem filterMap_quoted?_quoted :
    (quoted t :: ls).filterMap quoted? = t :: ls.filterMap quoted? := rfl

end Lexeme

/-- The lexeme that has been begun behind some characters. -/
inductive Begun where
  | nothing
  /-- An escape, with so many hexadecimal digits. -/
  | escape (digits : Nat) (text : List Char)
  /-- A string that `quote` ends, and whether its next character stands behind a backslash. -/
  | quoted (quote : Char) (escaped : Bool) (text : List Char)
  deriving DecidableEq, Repr

namespace Begun

def text : Begun → List Char
  | nothing => []
  | escape _ t => t
  | quoted _ _ t => t

/-- What has been begun, as the lexeme that it is at the end of the text. -/
def flush : Begun → List Lexeme
  | nothing => []
  | escape _ t => [.escape t]
  | quoted _ _ t => [.quoted t]

/-- What a character ends and begins where nothing has been begun. -/
def fresh (c : Char) : List Lexeme × Begun :=
  if c = '\\' then ([], .escape 0 [c])
  else if isQuote c then ([], .quoted c false [c])
  else ([.plain c], .nothing)

/-- The lexemes that a character ends, and what has been begun behind it. -/
def next : Begun → Char → List Lexeme × Begun
  | nothing, c => fresh c
  | escape 0 t, c =>
    if isHexDigit c then ([], .escape 1 (t ++ [c])) else ([.escape (t ++ [c])], .nothing)
  | escape (n + 1) t, c =>
    if n + 1 < 6 && isHexDigit c then ([], .escape (n + 2) (t ++ [c]))
    else if c = ' ' then ([.escape (t ++ [c])], .nothing)
    else (.escape t :: (fresh c).1, (fresh c).2)
  | quoted q true t, c => ([], .quoted q false (t ++ [c]))
  | quoted q false t, c =>
    if c = '\\' then ([], .quoted q true (t ++ [c]))
    else if c = q then ([.quoted (t ++ [c])], .nothing)
    else ([], .quoted q false (t ++ [c]))

/-- The lexemes that end in a text. -/
def emitted : Begun → List Char → List Lexeme
  | _, [] => []
  | b, c :: s => (b.next c).1 ++ emitted (b.next c).2 s

/-- What has been begun behind a text. -/
def after : Begun → List Char → Begun
  | b, [] => b
  | b, c :: s => (b.next c).2.after s

/-- All lexemes of a text, the first of which has been begun before it. -/
def lexemesFrom (b : Begun) (s : List Char) : List Lexeme := b.emitted s ++ (b.after s).flush

end Begun

/-- The lexemes of a text. -/
def lexemes (s : List Char) : List Lexeme := Begun.nothing.lexemesFrom s

/-- The characters of a text that stand for themselves: outside strings and escapes. -/
def exposed (s : List Char) : List Char := (lexemes s).filterMap Lexeme.plain?

/-- The strings of a text, with their quotes. -/
def strings (s : List Char) : List (List Char) := (lexemes s).filterMap Lexeme.quoted?

namespace Begun

variable {b : Begun} {c : Char} {s t : List Char}

@[simp] theorem after_nil (b : Begun) : b.after [] = b := rfl

@[simp] theorem after_cons (b : Begun) (c : Char) (s : List Char) :
    b.after (c :: s) = (b.next c).2.after s := rfl

@[simp] theorem emitted_nil (b : Begun) : b.emitted [] = [] := rfl

@[simp] theorem emitted_cons (b : Begun) (c : Char) (s : List Char) :
    b.emitted (c :: s) = (b.next c).1 ++ (b.next c).2.emitted s := rfl

@[simp] theorem after_append (b : Begun) (s t : List Char) :
    b.after (s ++ t) = (b.after s).after t := by
  induction s generalizing b with
  | nil => rfl
  | cons c s ih => exact ih _

@[simp] theorem emitted_append (b : Begun) (s t : List Char) :
    b.emitted (s ++ t) = b.emitted s ++ (b.after s).emitted t := by
  induction s generalizing b with
  | nil => rfl
  | cons c s ih => simp [ih]

theorem lexemesFrom_cons (b : Begun) (c : Char) (s : List Char) :
    b.lexemesFrom (c :: s) = (b.next c).1 ++ (b.next c).2.lexemesFrom s := by
  simp [lexemesFrom]

theorem lexemesFrom_append (b : Begun) (s t : List Char) :
    b.lexemesFrom (s ++ t) = b.emitted s ++ (b.after s).lexemesFrom t := by
  simp [lexemesFrom]

/-! ## The lexemes make up the text -/

theorem flatMap_text_fresh (c : Char) :
    (fresh c).1.flatMap Lexeme.text ++ (fresh c).2.text = [c] := by
  unfold fresh
  split_ifs <;> rfl

theorem flatMap_text_next (b : Begun) (c : Char) :
    (b.next c).1.flatMap Lexeme.text ++ (b.next c).2.text = b.text ++ [c] := by
  match b with
  | nothing => exact flatMap_text_fresh c
  | escape 0 t =>
    simp only [next]
    split_ifs <;> simp [text, Lexeme.text]
  | escape (n + 1) t =>
    simp only [next]
    split_ifs
    · simp [text]
    · simp [text, Lexeme.text]
    · rw [List.flatMap_cons, List.append_assoc, flatMap_text_fresh]
      rfl
  | quoted q true t => simp [next, text]
  | quoted q false t =>
    simp only [next]
    split_ifs <;> simp [text, Lexeme.text]

theorem flatMap_text_emitted (b : Begun) (s : List Char) :
    (b.emitted s).flatMap Lexeme.text ++ (b.after s).text = b.text ++ s := by
  induction s generalizing b with
  | nil => simp
  | cons c s ih =>
    rw [emitted_cons, after_cons, List.flatMap_append, List.append_assoc, ih, ← List.append_assoc,
      flatMap_text_next, List.append_assoc, List.singleton_append]

theorem flatMap_text_flush (b : Begun) : b.flush.flatMap Lexeme.text = b.text := by
  cases b <;> simp [flush, text, Lexeme.text]

end Begun

open Begun

theorem flatMap_text_lexemes (s : List Char) : (lexemes s).flatMap Lexeme.text = s := by
  rw [lexemes, lexemesFrom, List.flatMap_append, flatMap_text_flush, flatMap_text_emitted]
  rfl

theorem lexemes_append {s : List Char} (h : nothing.after s = nothing) (t : List Char) :
    lexemes (s ++ t) = lexemes s ++ lexemes t := by
  have hs : lexemes s = nothing.emitted s := by simp [lexemes, lexemesFrom, h, flush]
  rw [hs, lexemes, lexemesFrom_append, h]
  rfl

theorem isQuote_iff {c : Char} : isQuote c = true ↔ c = '"' ∨ c = '\'' := by
  simp [isQuote]

theorem isQuote_of_isBlank {c : Char} (h : Text.isBlank c = true) : isQuote c = false := by
  rw [Bool.eq_false_iff]
  intro hq
  rcases isQuote_iff.mp hq with rfl | rfl <;> cases h

theorem isQuote_of_escapes {c : Char} (h : isHexDigit c = true ∨ c = ' ') : isQuote c = false := by
  rw [Bool.eq_false_iff]
  intro hq
  rcases isQuote_iff.mp hq with rfl | rfl <;> revert h <;> decide

/-! ## What the scanners know of the lexeme that has been begun -/

/-- The openers of a text less its closers, of both kinds together. -/
def balance (e : List Char) : Int := (e.countP isOpener : Int) - e.countP isCloser

@[simp] theorem balance_nil : balance [] = 0 := rfl

theorem balance_append (e f : List Char) : balance (e ++ f) = balance e + balance f := by
  simp only [balance, List.countP_append]
  omega

theorem isCloser_of_isOpener {c : Char} (h : isOpener c = true) : isCloser c = false := by
  simp only [isOpener, Bool.or_eq_true, beq_iff_eq] at h
  rcases h with rfl | rfl <;> rfl

theorem balance_singleton (c : Char) :
    balance [c] = if isOpener c then 1 else if isCloser c then -1 else 0 := by
  by_cases ho : isOpener c = true
  · simp [balance, ho, isCloser_of_isOpener ho]
  · by_cases hl : isCloser c = true <;> simp [balance, ho, hl]

namespace Begun

/-- Whether the next character stands behind a backslash. -/
def escaped : Begun → Bool
  | nothing => false
  | escape n _ => n == 0
  | quoted _ e _ => e

/-- The quote that ends the string that has been begun. -/
def quote : Begun → Option Char
  | quoted q _ _ => some q
  | _ => none

/-- A state of the list splitter behind the same text. -/
structure Agrees (b : Begun) (st : ListState) : Prop where
  escaped : st.escaped = b.escaped
  quote : st.quote = b.quote

theorem agrees_start : Agrees nothing ListState.start := ⟨rfl, rfl⟩

/-- Behind one more character a state agrees again, and the brackets among the lexemes that the character
ends have been counted. -/
structure Follows (st st' : ListState) (x : List Lexeme × Begun) : Prop where
  agrees : x.2.Agrees st'
  depth : st'.depth = st.depth + balance (x.1.filterMap Lexeme.plain?)

theorem follows_fresh {st : ListState} (hesc : st.escaped = false) (hquote : st.quote = none)
    (c : Char) : Follows st (st.next c) (fresh c) := by
  obtain ⟨escaped, quote, depth⟩ := st
  dsimp only at hesc hquote
  subst hesc hquote
  unfold fresh
  split_ifs with h1 h2
  · subst h1
    exact ⟨⟨rfl, rfl⟩, by simp [ListState.next]⟩
  · exact ⟨⟨by simp [ListState.next, h1, h2, Begun.escaped],
      by simp [ListState.next, h1, h2, Begun.quote]⟩, by simp [ListState.next, h1, h2]⟩
  · have hnext : ListState.next ⟨false, none, depth⟩ c = ⟨false, none, depth + balance [c]⟩ := by
      rw [balance_singleton]
      by_cases ho : isOpener c = true
      · simp [ListState.next, h1, h2, ho]
      · by_cases hl : isCloser c = true
        · simp [ListState.next, h1, h2, ho, hl]
          omega
        · simp [ListState.next, h1, h2, ho, hl]
    rw [hnext]
    exact ⟨⟨rfl, rfl⟩, by simp [Lexeme.plain?]⟩

theorem Agrees.next {b : Begun} {st : ListState} (h : b.Agrees st) (c : Char) :
    Follows st (st.next c) (b.next c) := by
  obtain ⟨hesc, hquote⟩ := h
  match b with
  | nothing => exact follows_fresh hesc hquote c
  | escape 0 t =>
    obtain ⟨escaped, quote, depth⟩ := st
    dsimp only at hesc hquote
    subst hesc hquote
    simp only [Begun.next]
    split_ifs
    · exact ⟨⟨rfl, rfl⟩, by simp [ListState.next, Begun.escaped]⟩
    · exact ⟨⟨rfl, rfl⟩, by simp [ListState.next, Begun.escaped]⟩
  | escape (n + 1) t =>
    -- a digit or the space of an escape means nothing to the splitter
    have hself : isHexDigit c = true ∨ c = ' ' → st.next c = st :=
      Reader.next_eq_self hesc (by simp [hquote, Begun.quote])
    simp only [Begun.next]
    split_ifs with h1 h2
    · rw [hself (.inl (Bool.and_eq_true_iff.mp h1).2)]
      exact ⟨⟨hesc, hquote⟩, by simp⟩
    · rw [hself (.inr h2)]
      exact ⟨⟨hesc, hquote⟩, by simp [Lexeme.plain?]⟩
    · obtain ⟨hagrees, hdepth⟩ := follows_fresh hesc hquote c
      exact ⟨hagrees, by simpa [Lexeme.plain?] using hdepth⟩
  | quoted q true t =>
    obtain ⟨escaped, quote, depth⟩ := st
    dsimp only at hesc hquote
    subst hesc hquote
    exact ⟨⟨rfl, rfl⟩, by simp [ListState.next, Begun.next, Begun.escaped]⟩
  | quoted q false t =>
    obtain ⟨escaped, quote, depth⟩ := st
    dsimp only at hesc hquote
    subst hesc hquote
    simp only [Begun.next]
    split_ifs with h1 h2
    · subst h1
      exact ⟨⟨rfl, rfl⟩, by simp [ListState.next, Begun.escaped]⟩
    · subst h2
      exact ⟨⟨by simp [ListState.next, h1, Begun.escaped, Begun.quote],
        by simp [ListState.next, h1, Begun.escaped, Begun.quote]⟩,
        by simp [ListState.next, h1, Begun.escaped, Begun.quote]⟩
    · exact ⟨⟨by simp [ListState.next, h1, h2, Begun.escaped, Begun.quote],
        by simp [ListState.next, h1, h2, Begun.escaped, Begun.quote]⟩,
        by simp [ListState.next, h1, h2, Begun.escaped, Begun.quote]⟩

theorem Agrees.after {b : Begun} {st : ListState} (h : b.Agrees st) (s : List Char) :
    (b.after s).Agrees (st.after s) := by
  induction s generalizing b st with
  | nil => exact h
  | cons c s ih => exact ih (h.next c).agrees

theorem Agrees.depth_after {b : Begun} {st : ListState} (h : b.Agrees st) (s : List Char) :
    (st.after s).depth = st.depth + balance ((b.emitted s).filterMap Lexeme.plain?) := by
  induction s generalizing b st with
  | nil => simp
  | cons c s ih =>
    rw [ListState.after_cons, ih (h.next c).agrees, (h.next c).depth, emitted_cons,
      List.filterMap_append, balance_append]
    omega

theorem agrees_after (s : List Char) : (nothing.after s).Agrees (ListState.start.after s) :=
  agrees_start.after s

theorem filterMap_plain?_flush (b : Begun) : b.flush.filterMap Lexeme.plain? = [] := by
  cases b <;> rfl

theorem exposes_cases (b : Begun) (c : Char) :
    (b.next c).1.filterMap Lexeme.plain? = [] ∨
      (b.next c).1.filterMap Lexeme.plain? = [c] ∧ b.escaped = false ∧ b.quote = none := by
  have hfresh : (fresh c).1.filterMap Lexeme.plain? = [] ∨
      (fresh c).1.filterMap Lexeme.plain? = [c] := by
    unfold fresh
    split_ifs <;> simp
  match b with
  | nothing => exact hfresh.imp_right fun h => ⟨h, rfl, rfl⟩
  | escape 0 t =>
    left
    simp only [next]
    split_ifs <;> rfl
  | escape (n + 1) t =>
    simp only [next]
    split_ifs
    · exact .inl rfl
    · exact .inl rfl
    · exact hfresh.imp_right fun h => ⟨h, rfl, rfl⟩
  | quoted q true t => exact .inl rfl
  | quoted q false t =>
    left
    simp only [next]
    split_ifs <;> rfl

theorem next_eq_of_closed {b : Begun} (hesc : b.escaped = false) (hquote : b.quote = none) {c : Char}
    (hc : isHexDigit c = false ∧ c ≠ ' ') : b.next c = (b.flush ++ (fresh c).1, (fresh c).2) := by
  match b with
  | nothing => rfl
  | escape 0 t => cases hesc
  | escape (n + 1) t => simp [next, flush, hc]
  | quoted q e t => cases hquote

theorem next_of_agrees {b : Begun} {st : ListState} (h : b.Agrees st) (hesc : st.escaped = false)
    (hquote : st.quote = none) {c : Char} (hc : isHexDigit c = false ∧ c ≠ ' ') :
    b.next c = (b.flush ++ (fresh c).1, (fresh c).2) :=
  next_eq_of_closed (h.escaped ▸ hesc) (h.quote ▸ hquote) hc

theorem fresh_eq_plain {c : Char} (hc : c ≠ '\\') (hq : isQuote c = false) :
    fresh c = ([.plain c], .nothing) := by
  rw [fresh, if_neg hc, if_neg (by simp [hq])]

theorem after_blanks {l : List Char} (hl : ∀ c ∈ l, Text.isBlank c = true) :
    nothing.after l = nothing := by
  induction l with
  | nil => rfl
  | cons c l ih =>
    have hblank := hl c (by simp)
    have hbackslash : c ≠ '\\' := by
      rintro rfl
      cases hblank
    rw [after_cons, next, fresh_eq_plain hbackslash (isQuote_of_isBlank hblank)]
    exact ih fun d hd => hl d (by simp [hd])

end Begun

theorem exposed_eq (s : List Char) : exposed s = (nothing.emitted s).filterMap Lexeme.plain? := by
  rw [exposed, lexemes, lexemesFrom, List.filterMap_append, filterMap_plain?_flush, List.append_nil]

theorem depth_after_start (s : List Char) : (ListState.start.after s).depth = balance (exposed s) := by
  rw [agrees_start.depth_after, exposed_eq]
  simp [ListState.start]

theorem exposed_concat (s : List Char) (c : Char) :
    exposed (s ++ [c]) = exposed s ++ ((Begun.nothing.after s).next c).1.filterMap Lexeme.plain? := by
  rw [exposed_eq, exposed_eq, Begun.emitted_append, List.filterMap_append, Begun.emitted_cons,
    Begun.emitted_nil, List.append_nil]

theorem mem_of_mem_emitted {b : Begun} {c : Char} {s : List Char}
    (h : c ∈ (b.emitted s).filterMap Lexeme.plain?) : c ∈ s := by
  induction s generalizing b with
  | nil => cases h
  | cons d s ih =>
    rw [Begun.emitted_cons, List.filterMap_append, List.mem_append] at h
    rcases h with h | h
    · rcases b.exposes_cases d with hadds | ⟨hadds, -⟩
      · rw [hadds] at h
        cases h
      · rw [hadds, List.mem_singleton] at h
        exact h ▸ List.mem_cons_self
    · exact List.mem_cons_of_mem _ (ih h)

end UtilityCss
