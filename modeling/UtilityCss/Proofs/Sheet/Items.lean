import UtilityCss.Proofs.Text.Trim
import UtilityCss.Text.Split

/-!
# Reading a style sheet

A style sheet is read as a tree of items: declarations, and blocks with what stands in them. Text is
gathered up to the next brace or semicolon. Before an opening brace it is the head of a block. Before a
semicolon or a closing brace, and at the end, it is a declaration, cut at its first colon, or nothing if it
is blank. Blanks around heads, properties and values do not count (`readItems?`).

`Reads p s items q` describes the reader on a part of a text: with the text `p` gathered before it, `s` is
read as `items`, and `q` is gathered behind it. Such readings go on in each other (`Reads.append`), and one
between braces is a reading of a block (`Reads.block`).
-/

namespace UtilityCss

/-- What a style sheet is read as. -/
inductive Item where
  | declaration (property value : String)
  | block (head : String) (items : List Item)
  deriving Repr

/-- Whether a character ends the text that is gathered. -/
def isSheetMark (c : Char) : Bool := c == '{' || c == '}' || c == ';'

namespace Item

mutual
/-- Whether two items are equal. -/
def decEq (a b : Item) : Decidable (a = b) :=
  match a, b with
  | .declaration p v, .declaration q w => decidable_of_iff (p = q ∧ v = w) (by simp)
  | .block h xs, .block k ys =>
    haveI := decEqAll xs ys
    decidable_of_iff (h = k ∧ xs = ys) (by simp)
  | .declaration _ _, .block _ _ => isFalse (by simp)
  | .block _ _, .declaration _ _ => isFalse (by simp)
/-- Whether two lists of items are equal. -/
def decEqAll (xs ys : List Item) : Decidable (xs = ys) :=
  match xs, ys with
  | [], [] => isTrue rfl
  | x :: xs, y :: ys =>
    haveI := decEq x y
    haveI := decEqAll xs ys
    decidable_of_iff (x = y ∧ xs = ys) (by simp)
  | [], _ :: _ => isFalse (by simp)
  | _ :: _, [] => isFalse (by simp)
end

instance : DecidableEq Item := decEq

/-- A text without the blanks around it. -/
def bare (s : List Char) : String := String.ofList (Text.trim s)

/-- What a text that is no head is read as: nothing, or a declaration. -/
def ofText? (s : List Char) : Option (List Item) :=
  if Text.trim s = [] then some []
  else (Text.cutFirst? [':'] s).map fun (property, value) => [declaration (bare property) (bare value)]

end Item

/-- The state of a reader behind some characters. -/
structure SheetReader where
  /-- The blocks around the text, innermost first: the head of each, and what was read before it. -/
  around : List (String × List Item)
  items : List Item
  /-- The text since the last mark. -/
  gathered : List Char

namespace SheetReader

def start : SheetReader := ⟨[], [], []⟩

/-- What was read, with the gathered text. -/
def settled? (r : SheetReader) : Option (List Item) :=
  (Item.ofText? r.gathered).map (r.items ++ ·)

/-- Read a character. -/
def step? (r : SheetReader) (c : Char) : Option SheetReader :=
  if c = '{' then some ⟨(Item.bare r.gathered, r.items) :: r.around, [], []⟩
  else if c = '}' then
    match r.around with
    | [] => none
    | (head, before) :: around =>
      r.settled?.map fun items => ⟨around, before ++ [.block head items], []⟩
  else if c = ';' then r.settled?.map fun items => { r with items := items, gathered := [] }
  else some { r with gathered := r.gathered ++ [c] }

/-- What was read, if the text may end here. -/
def finish? (r : SheetReader) : Option (List Item) := if r.around.isEmpty then r.settled? else none

end SheetReader

/-- The items of a style sheet, if its braces match and it holds nothing but blocks and declarations. -/
def readItems? (s : String) : Option (List Item) :=
  (s.toList.foldlM SheetReader.step? SheetReader.start).bind SheetReader.finish?

namespace Item

/-! ## Texts between marks -/

theorem bare_append_blanks (s : List Char) {r : List Char} (hr : ∀ c ∈ r, Text.isBlank c = true) :
    bare (s ++ r) = bare s := by
  rw [bare, Text.trim_append_blanks s hr, bare]

theorem bare_blanks_append {l : List Char} (hl : ∀ c ∈ l, Text.isBlank c = true) (s : List Char) :
    bare (l ++ s) = bare s := by
  rw [bare, Text.trim_append_left hl, bare]

theorem ofText?_blanks {s : List Char} (h : ∀ c ∈ s, Text.isBlank c = true) : ofText? s = some [] := by
  rw [ofText?, if_pos (Text.trim_eq_nil_of_blanks h)]

theorem cutFirst?_colon {s : List Char} (h : ':' ∉ s) (t : List Char) :
    Text.cutFirst? [':'] (s ++ ':' :: t) = some (s, t) := by
  induction s with
  | nil => rfl
  | cons c s ih =>
    rw [List.mem_cons, not_or] at h
    have hnone : [':'].isPrefixOf? (c :: (s ++ ':' :: t)) = none := by
      simp [List.isPrefixOf?, h.1]
    rw [List.cons_append, Text.cutFirst?, hnone, ih h.2]
    rfl

theorem ofText?_colon {property : List Char} (h : ':' ∉ property) (value : List Char) :
    ofText? (property ++ ':' :: value) = some [.declaration (bare property) (bare value)] := by
  have hcolon : ':' ∈ property ++ ':' :: value := by simp
  have hne : Text.trim (property ++ ':' :: value) ≠ [] := by
    intro hnil
    obtain ⟨l, r, hl, hr, hs⟩ := Text.exists_eq_append_trim (property ++ ':' :: value)
    rw [hs, hnil, List.nil_append] at hcolon
    have hblank : Text.isBlank ':' = true := (List.mem_append.mp hcolon).elim (hl _) (hr _)
    revert hblank
    decide
  rw [ofText?, if_neg hne, cutFirst?_colon h]
  rfl

end Item

/-! ## Reading a part of a text -/

/-- Whether `s` is read as `items`, if `p` is gathered before it, and `q` is gathered behind it. -/
def Reads (p s : List Char) (items : List Item) (q : List Char) : Prop :=
  ∀ around before, s.foldlM SheetReader.step? ⟨around, before, p⟩ =
    some ⟨around, before ++ items, q⟩

namespace Reads

open SheetReader

variable {p q q' s t head body : List Char} {xs ys last : List Item}

theorem nil : Reads p [] [] p := fun around before => by simp

theorem append (hs : Reads p s xs q) (ht : Reads q t ys q') : Reads p (s ++ t) (xs ++ ys) q' := by
  intro around before
  have hrest := ht around (before ++ xs)
  rw [List.foldlM_append, hs, ← List.append_assoc]
  exact hrest

theorem unmarked (hs : ∀ c ∈ s, isSheetMark c = false) : Reads p s [] (p ++ s) := by
  induction s generalizing p with
  | nil => simpa using nil
  | cons c s ih =>
    intro around before
    have hrest := ih (p := p ++ [c]) (fun d hd => hs d (by simp [hd])) around before
    have hstep : step? ⟨around, before, p⟩ c = some ⟨around, before, p ++ [c]⟩ := by
      have hc := hs c (by simp)
      simp only [isSheetMark, Bool.or_eq_false_iff, beq_eq_false_iff_ne] at hc
      simp [step?, hc.1.1, hc.1.2, hc.2]
    rw [List.foldlM_cons, hstep]
    simpa using hrest

theorem semicolon (hp : Item.ofText? p = some xs) : Reads p [';'] xs [] := by
  intro around before
  have hstep : step? ⟨around, before, p⟩ ';' = some ⟨around, before ++ xs, []⟩ := by
    simp [step?, settled?, hp]
  rw [List.foldlM_cons, hstep]
  rfl

/-- Behind the closing brace nothing is gathered. -/
theorem block (hbody : Reads [] body xs q) (hq : Item.ofText? q = some last) :
    Reads p ('{' :: body ++ ['}']) [.block (Item.bare p) (xs ++ last)] [] := by
  intro around before
  have hopen : step? ⟨around, before, p⟩ '{' = some ⟨(Item.bare p, before) :: around, [], []⟩ := rfl
  have hclose : step? ⟨(Item.bare p, before) :: around, xs, q⟩ '}' =
      some ⟨around, before ++ [.block (Item.bare p) (xs ++ last)], []⟩ := by
    simp [step?, settled?, hq]
  have hinner := hbody ((Item.bare p, before) :: around) []
  rw [List.nil_append] at hinner
  rw [List.cons_append, List.foldlM_cons, hopen]
  show (body ++ ['}']).foldlM step? _ = _
  rw [List.foldlM_append, hinner]
  show (['}']).foldlM step? _ = _
  rw [List.foldlM_cons, hclose]
  rfl

theorem readItems? {s : String} (hs : Reads [] s.toList xs q) (hq : Item.ofText? q = some last) :
    UtilityCss.readItems? s = some (xs ++ last) := by
  have hrun := hs [] []
  rw [UtilityCss.readItems?, start, hrun]
  simp [finish?, settled?, hq]

end Reads
end UtilityCss
