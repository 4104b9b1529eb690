import Mathlib.Data.List.DropRight
import UtilityCss.Text.Character

/-!
# Trimmed texts

A text is `Trimmed` if it has no blank at its ends. Trimming gives such a text and takes nothing but
blanks away, so what begins and ends without a blank stays in (`isInfix_trim`).
-/

namespace UtilityCss.Text

/-- Whether a text has no blank at its ends. -/
structure Trimmed (s : List Char) : Prop where
  head : ∀ c, s.head? = some c → isBlank c = false
  last : ∀ c, s.getLast? = some c → isBlank c = false

theorem trim_eq_rdropWhile (s : List Char) :
    trim s = (s.dropWhile isBlank).rdropWhile isBlank := rfl

theorem head_dropWhile {s : List Char} {c : Char} (h : (s.dropWhile isBlank).head? = some c) :
    isBlank c = false := by
  have := List.head?_dropWhile_not isBlank s
  rw [h] at this
  simpa using this

theorem last_rdropWhile {s : List Char} {c : Char} (h : (s.rdropWhile isBlank).getLast? = some c) :
    isBlank c = false := by
  rw [List.rdropWhile, List.getLast?_reverse] at h
  exact head_dropWhile h

theorem trimmed_trim (s : List Char) : Trimmed (trim s) := by
  refine ⟨fun c hc => ?_, fun c hc => last_rdropWhile hc⟩
  obtain ⟨t, ht⟩ := List.rdropWhile_prefix isBlank (s.dropWhile isBlank)
  refine head_dropWhile (s := s) ?_
  rw [trim_eq_rdropWhile] at hc
  rw [← ht, List.head?_append, hc]
  rfl

theorem dropWhile_of_head {s : List Char} (h : ∀ c, s.head? = some c → isBlank c = false) :
    s.dropWhile isBlank = s := by
  cases s with
  | nil => rfl
  | cons c s => rw [List.dropWhile_cons_of_neg (by simp [h c rfl])]

theorem rdropWhile_of_last {s : List Char} (h : ∀ c, s.getLast? = some c → isBlank c = false) :
    s.rdropWhile isBlank = s := by
  rw [List.rdropWhile, dropWhile_of_head (by simpa using h), List.reverse_reverse]

theorem trim_of_trimmed {s : List Char} (h : Trimmed s) : trim s = s := by
  rw [trim_eq_rdropWhile, dropWhile_of_head h.head, rdropWhile_of_last h.last]

theorem trim_append_left {l : List Char} (hl : ∀ c ∈ l, isBlank c = true) (s : List Char) :
    trim (l ++ s) = trim s := by
  rw [trim, List.dropWhile_append_of_pos hl, trim]

theorem trim_append_right {s r : List Char} (hs : Trimmed s) (hne : s ≠ [])
    (hr : ∀ c ∈ r, isBlank c = true) : trim (s ++ r) = s := by
  have hhead : ∀ c, (s ++ r).head? = some c → isBlank c = false := by
    rw [List.head?_append_of_ne_nil _ hne]
    exact hs.head
  rw [trim_eq_rdropWhile, dropWhile_of_head hhead, List.rdropWhile, List.reverse_append,
    List.dropWhile_append_of_pos (by simpa using hr)]
  exact rdropWhile_of_last hs.last

theorem exists_eq_append_trim (s : List Char) :
    ∃ l r, (∀ c ∈ l, isBlank c = true) ∧ (∀ c ∈ r, isBlank c = true) ∧ s = l ++ (trim s ++ r) := by
  refine ⟨s.takeWhile isBlank, (s.dropWhile isBlank).rtakeWhile isBlank,
    fun c hc => List.mem_takeWhile_imp hc, fun c hc => List.mem_rtakeWhile_imp hc, ?_⟩
  rw [trim_eq_rdropWhile, List.rdropWhile_append_rtakeWhile, List.takeWhile_append_dropWhile]

theorem trim_append_blanks (s : List Char) {r : List Char} (hr : ∀ c ∈ r, isBlank c = true) :
    trim (s ++ r) = trim s := by
  obtain ⟨l, r', hl, hr', hs⟩ := exists_eq_append_trim s
  have hblanks : ∀ c ∈ r' ++ r, isBlank c = true := by
    intro c hc
    exact (List.mem_append.mp hc).elim (hr' c) (hr c)
  have happend : s ++ r = l ++ (trim s ++ (r' ++ r)) := by
    conv_lhs => rw [hs]
    simp only [List.append_assoc]
  rw [happend, trim_append_left hl]
  by_cases hnil : trim s = []
  · have hall := trim_append_left hblanks []
    rw [List.append_nil] at hall
    rw [hnil, List.nil_append, hall, trim_nil]
  · exact trim_append_right (trimmed_trim s) hnil hblanks

theorem trim_eq_nil_of_blanks {s : List Char} (h : ∀ c ∈ s, isBlank c = true) : trim s = [] :=
  trim_append_blanks [] h

theorem isInfix_dropWhile {k s : List Char} (hk : ∀ c, k.head? = some c → isBlank c = false)
    (h : k <:+: s) : k <:+: s.dropWhile isBlank := by
  induction s with
  | nil => simpa using h
  | cons c s ih =>
    by_cases hc : isBlank c = true
    · rw [List.dropWhile_cons_of_pos hc]
      rcases List.infix_cons_iff.mp h with hp | hi
      · rcases List.prefix_cons_iff.mp hp with rfl | ⟨t, rfl, -⟩
        · exact List.nil_infix
        · rw [hk c rfl] at hc
          cases hc
      · exact ih hi
    · rwa [List.dropWhile_cons_of_neg hc]

/-- What begins and ends without a blank stays when a text is trimmed. -/
theorem isInfix_trim {k s : List Char} (hk : Trimmed k) (h : k <:+: s) : k <:+: trim s := by
  have hrev : k.reverse <:+: (s.dropWhile isBlank).reverse :=
    List.reverse_infix.mpr (isInfix_dropWhile hk.head h)
  have := isInfix_dropWhile (by simpa using hk.last) hrev
  rw [trim]
  exact List.reverse_infix.mp (by simpa using this)

end UtilityCss.Text
