/-!
# Cutting texts

What is left of a text behind a given beginning, before a given end, and on both sides of the first or
last occurrence of a separator. Each function is pinned by the equation that puts the text together again.

`splitBy` runs an automaton over a text and cuts it at the characters that are separators in the state
they are met in. Putting the separator back between the pieces gives the text again
(`intercalate_splitBy`).
-/

namespace UtilityCss.Text

/-! ## Beginnings and ends -/

theorem isPrefixOf?_eq_some_iff {p s r : List Char} : p.isPrefixOf? s = some r ↔ s = p ++ r := by
  induction p generalizing s with
  | nil =>
    show some s = some r ↔ s = r
    simp
  | cons c p ih =>
    cases s with
    | nil =>
      show none = some r ↔ [] = c :: (p ++ r)
      simp
    | cons d s =>
      show (if c == d then p.isPrefixOf? s else none) = some r ↔ d :: s = c :: (p ++ r)
      by_cases h : c = d
      · simp [h, ih]
      · simp [h, Ne.symm h]

/-- The rest of `s` behind `p`, if `s` begins with `p`. -/
def after? (p s : String) : Option String :=
  (p.toList.isPrefixOf? s.toList).map String.ofList

/-- The part of `s` before `t`, if `s` ends with `t`. -/
def before? (t s : String) : Option String :=
  (t.toList.reverse.isPrefixOf? s.toList.reverse).map fun r => String.ofList r.reverse

/-- Whether `s` begins with `p`. -/
def beginsWith (p s : String) : Bool := (after? p s).isSome

/-- Whether `s` ends with `t`. -/
def endsIn (t s : String) : Bool := (before? t s).isSome

theorem after?_eq_some_iff {p s r : String} : after? p s = some r ↔ s = p ++ r := by
  rw [after?, Option.map_eq_some_iff]
  constructor
  · rintro ⟨l, h, rfl⟩
    rw [isPrefixOf?_eq_some_iff] at h
    apply String.toList_injective
    simp [h]
  · rintro rfl
    exact ⟨r.toList, isPrefixOf?_eq_some_iff.mpr (by simp), by simp⟩

theorem before?_eq_some_iff {t s r : String} : before? t s = some r ↔ s = r ++ t := by
  rw [before?, Option.map_eq_some_iff]
  constructor
  · rintro ⟨l, h, rfl⟩
    rw [isPrefixOf?_eq_some_iff] at h
    apply String.toList_injective
    simpa using congrArg List.reverse h
  · rintro rfl
    exact ⟨r.toList.reverse, isPrefixOf?_eq_some_iff.mpr (by simp), by simp⟩

theorem beginsWith_iff {p s : String} : beginsWith p s = true ↔ ∃ r, s = p ++ r := by
  simp [beginsWith, Option.isSome_iff_exists, after?_eq_some_iff]

theorem endsIn_iff {t s : String} : endsIn t s = true ↔ ∃ r, s = r ++ t := by
  simp [endsIn, Option.isSome_iff_exists, before?_eq_some_iff]

/-- The text on both sides of the first occurrence of `sep`. -/
def cutFirst? (sep : List Char) : List Char → Option (List Char × List Char)
  | [] => (sep.isPrefixOf? []).map ([], ·)
  | c :: s =>
    match sep.isPrefixOf? (c :: s) with
    | some rest => some ([], rest)
    | none => (cutFirst? sep s).map fun (a, b) => (c :: a, b)

/-- The text on both sides of the last occurrence of `c`. -/
def cutLast? (c : Char) (s : List Char) : Option (List Char × List Char) :=
  (cutFirst? [c] s.reverse).map fun (a, b) => (b.reverse, a.reverse)

theorem eq_of_cutFirst? {sep s a b : List Char} (h : cutFirst? sep s = some (a, b)) :
    s = a ++ sep ++ b := by
  induction s generalizing a b with
  | nil =>
    simp only [cutFirst?, Option.map_eq_some_iff] at h
    obtain ⟨r, hr, h⟩ := h
    obtain ⟨rfl, rfl⟩ := Prod.mk.inj h
    simpa using isPrefixOf?_eq_some_iff.mp hr
  | cons c s ih =>
    rw [cutFirst?] at h
    split at h
    · next rest hr =>
      obtain ⟨rfl, rfl⟩ := Prod.mk.inj (Option.some.inj h)
      simpa using isPrefixOf?_eq_some_iff.mp hr
    · obtain ⟨⟨a', b'⟩, hs, h⟩ := Option.map_eq_some_iff.mp h
      obtain ⟨rfl, rfl⟩ := Prod.mk.inj h
      simp [ih hs]

theorem eq_of_cutLast? {c : Char} {s a b : List Char} (h : cutLast? c s = some (a, b)) :
    s = a ++ c :: b := by
  obtain ⟨⟨x, y⟩, hs, h⟩ := Option.map_eq_some_iff.mp h
  obtain ⟨rfl, rfl⟩ := Prod.mk.inj h
  simpa using congrArg List.reverse (eq_of_cutFirst? hs)

/-! ## Pieces between separators -/

/-- Put a character at the front of the first piece. -/
def consHead (c : Char) : List (List Char) → List (List Char)
  | [] => [[c]]
  | p :: ps => (c :: p) :: ps

/-- Put a text at the front of the first piece. -/
def appendHead (s : List Char) (ps : List (List Char)) : List (List Char) :=
  s.foldr consHead ps

/-- The pieces of a text between its separators. The automaton goes from state to state by `next`,
separators included; a character is a separator if `cuts` says so in the state before it. -/
def splitBy {σ : Type} (next : σ → Char → σ) (cuts : σ → Char → Bool) :
    σ → List Char → List (List Char)
  | _, [] => [[]]
  | st, c :: s =>
    let rest := splitBy next cuts (next st c) s
    if cuts st c then [] :: rest else consHead c rest

@[simp] theorem consHead_ne_nil (c : Char) (ps : List (List Char)) : consHead c ps ≠ [] := by
  cases ps <;> simp [consHead]

@[simp] theorem appendHead_nil (ps : List (List Char)) : appendHead [] ps = ps := rfl

@[simp] theorem appendHead_cons (c : Char) (s : List Char) (ps : List (List Char)) :
    appendHead (c :: s) ps = consHead c (appendHead s ps) := rfl

theorem appendHead_cons_head (s p : List Char) (ps : List (List Char)) :
    appendHead s (p :: ps) = (s ++ p) :: ps := by
  induction s with
  | nil => rfl
  | cons c s ih => simp [ih, consHead]

variable {σ : Type} {next : σ → Char → σ} {cuts : σ → Char → Bool}

@[simp] theorem splitBy_ne_nil (st : σ) (s : List Char) : splitBy next cuts st s ≠ [] := by
  cases s with
  | nil => simp [splitBy]
  | cons c s => by_cases h : cuts st c = true <;> simp [splitBy, h]

theorem intercalate_consHead (sep : List Char) (c : Char) {ps : List (List Char)} (h : ps ≠ []) :
    sep.intercalate (consHead c ps) = c :: sep.intercalate ps := by
  match ps, h with
  | [p], _ => simp [consHead]
  | p :: q :: ps, _ => simp [consHead]

theorem intercalate_nil_cons (sep : List Char) {ps : List (List Char)} (h : ps ≠ []) :
    sep.intercalate ([] :: ps) = sep ++ sep.intercalate ps := by
  match ps, h with
  | p :: ps, _ => simp

/-- If only `c` separates, putting `c` back between the pieces gives the text. -/
theorem intercalate_splitBy {c : Char} (hc : ∀ st d, cuts st d = true → d = c) (st : σ)
    (s : List Char) : [c].intercalate (splitBy next cuts st s) = s := by
  induction s generalizing st with
  | nil => simp [splitBy]
  | cons d s ih =>
    by_cases h : cuts st d = true
    · obtain rfl := hc _ _ h
      simp only [splitBy, h, if_true]
      rw [intercalate_nil_cons _ (splitBy_ne_nil _ _), ih]
      rfl
    · simp only [splitBy, h]
      rw [if_neg (by simp), intercalate_consHead _ _ (splitBy_ne_nil _ _), ih]

end UtilityCss.Text
