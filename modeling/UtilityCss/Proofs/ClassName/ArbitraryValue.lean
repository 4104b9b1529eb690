import Mathlib.Data.List.Infix
import UtilityCss.Proofs.ClassName.Direction

/-!
# Arbitrary values are read back

A value is written between square brackets with `encodeUnderscores`. If its own square brackets
balance and no backslash stands before a space in it, the class name is read as a utility with that
value again, with or without an opacity (`parse_arbitraryValue`).

Balance is what all the readers on the way need. `Closes n s` says it along the text, with `n`
brackets open before it; writing a value keeps it, the search for the closing bracket goes through
it (`Closes.closeBracket?`), and every colon in it is hidden (`Depths.uncut_of_closes`). The other characters
may stand in any order, round brackets included.
-/

namespace UtilityCss

/-! ## Underscores -/

/-- A value as it is written in a class name. -/
def encodeUnderscores (v : List Char) : List Char :=
  v.flatMap fun c => if c = '_' then ['\\', '_'] else if c = ' ' then ['_'] else [c]

theorem encodeUnderscores_cons (c : Char) (v : List Char) :
    encodeUnderscores (c :: v) =
      (if c = '_' then ['\\', '_'] else if c = ' ' then ['_'] else [c]) ++ encodeUnderscores v :=
  List.flatMap_cons

theorem decodeUnderscores_cons {c : Char} {s : List Char}
    (h : c = '\\' → s.head? ≠ some '_') :
    decodeUnderscores (c :: s) = (if c = '_' then ' ' else c) :: decodeUnderscores s := by
  rw [decodeUnderscores]
  rintro s' rfl rfl
  exact h rfl rfl

theorem head?_encodeUnderscores {v : List Char} (h : (encodeUnderscores v).head? = some '_') :
    v.head? = some ' ' := by
  cases v with
  | nil => simp [encodeUnderscores] at h
  | cons c v =>
    rw [encodeUnderscores_cons] at h
    by_cases hc : c = '_'
    · simp [hc] at h
    · by_cases hspace : c = ' '
      · simp [hspace]
      · simp [hc, hspace] at h

theorem decodeUnderscores_encodeUnderscores {v : List Char} (h : ¬ ['\\', ' '] <:+: v) :
    decodeUnderscores (encodeUnderscores v) = v := by
  induction v with
  | nil => rfl
  | cons c v ih =>
    have hrest := ih fun hv => h (List.infix_cons hv)
    rw [encodeUnderscores_cons]
    by_cases hc : c = '_'
    · simp [hc, decodeUnderscores, hrest]
    · by_cases hspace : c = ' '
      · rw [hspace, if_neg (by decide), if_pos rfl, List.singleton_append,
          decodeUnderscores_cons (by simp), hrest]
        rfl
      · rw [if_neg hc, if_neg hspace, List.singleton_append, decodeUnderscores_cons, hrest,
          if_neg hc]
        rintro rfl hhead
        obtain ⟨w, rfl⟩ := List.head?_eq_some_iff.mp (head?_encodeUnderscores hhead)
        exact h ⟨[], w, rfl⟩

/-! ## Brackets -/

/-- Whether the square brackets of a text balance. -/
structure Balanced (v : List Char) : Prop where
  sane : ∀ p, p <+: v → p.count ']' ≤ p.count '['
  settled : v.count '[' = v.count ']'

theorem balanced_iff {v : List Char} :
    Balanced v ↔ (∀ p ∈ v.inits, p.count ']' ≤ p.count '[') ∧ v.count '[' = v.count ']' := by
  simp only [List.mem_inits]
  exact ⟨fun h => ⟨h.sane, h.settled⟩, fun h => ⟨h.1, h.2⟩⟩

instance (v : List Char) : Decidable (Balanced v) := decidable_of_iff _ balanced_iff.symm

/-- Whether a text closes `n` square brackets and those that it opens, and no more at any place. -/
inductive Closes : Nat → List Char → Prop where
  | nil : Closes 0 []
  | opening {n : Nat} {s : List Char} (h : Closes (n + 1) s) : Closes n ('[' :: s)
  | closing {n : Nat} {s : List Char} (h : Closes n s) : Closes (n + 1) (']' :: s)
  | other {n : Nat} {s : List Char} {c : Char} (hopen : c ≠ '[') (hclose : c ≠ ']')
      (h : Closes n s) : Closes n (c :: s)

theorem closes_of_counts {n : Nat} {s : List Char}
    (hsane : ∀ p, p <+: s → p.count ']' ≤ n + p.count '[')
    (hsettled : s.count ']' = n + s.count '[') : Closes n s := by
  induction s generalizing n with
  | nil =>
    obtain rfl : n = 0 := by simpa using hsettled.symm
    exact .nil
  | cons c s ih =>
    have hprefix (p : List Char) (hp : p <+: s) :=
      hsane (c :: p) (List.cons_prefix_cons.mpr ⟨rfl, hp⟩)
    by_cases hopen : c = '['
    · subst hopen
      have hcount (p : List Char) : ('[' :: p).count '[' = p.count '[' + 1 := List.count_cons_self
      have hother (p : List Char) : ('[' :: p).count ']' = p.count ']' :=
        List.count_cons_of_ne (by decide)
      simp only [hcount, hother] at hprefix hsettled
      refine .opening (ih (fun p hp => ?_) (by omega))
      have := hprefix p hp
      omega
    · by_cases hclose : c = ']'
      · subst hclose
        have hcount (p : List Char) : (']' :: p).count ']' = p.count ']' + 1 := List.count_cons_self
        have hother (p : List Char) : (']' :: p).count '[' = p.count '[' :=
          List.count_cons_of_ne (by decide)
        simp only [hcount, hother] at hprefix hsettled
        -- The first character closes a bracket, so one is open.
        have hone : 0 + 1 ≤ n + 0 := hprefix [] List.nil_prefix
        obtain ⟨n, rfl⟩ : ∃ m, n = m + 1 := ⟨n - 1, by omega⟩
        refine .closing (ih (fun p hp => ?_) (by omega))
        have := hprefix p hp
        omega
      · simp only [List.count_cons_of_ne hopen, List.count_cons_of_ne hclose] at hprefix hsettled
        exact .other hopen hclose (ih hprefix hsettled)

theorem Balanced.closes {v : List Char} (h : Balanced v) : Closes 0 v :=
  closes_of_counts (by simpa using h.sane) (by simpa using h.settled.symm)

/-- The closing bracket is found behind a text that closes what it opens. -/
theorem Closes.closeBracket? {n : Nat} {s : List Char} (h : Closes n s) (t : List Char) :
    closeBracket? '[' ']' n (s ++ ']' :: t) = some (s, t) := by
  induction h with
  | nil => rfl
  | opening _ ih =>
    rw [List.cons_append]
    unfold UtilityCss.closeBracket?
    rw [if_neg (by decide), if_pos rfl]
    simp only [ih]
    rfl
  | closing _ ih =>
    rw [List.cons_append]
    unfold UtilityCss.closeBracket?
    rw [if_pos rfl]
    simp only [ih]
    rfl
  | other hopen hclose _ ih =>
    rw [List.cons_append]
    unfold UtilityCss.closeBracket?
    rw [if_neg hclose, if_neg hopen]
    simp only [ih]
    rfl

/-- Writing a value touches no bracket. -/
theorem Closes.encodeUnderscores {n : Nat} {s : List Char} (h : Closes n s) :
    Closes n (encodeUnderscores s) := by
  induction h with
  | nil => exact .nil
  | opening _ ih => exact .opening ih
  | closing _ ih => exact .closing ih
  | @other n s c hopen hclose _ ih =>
    rw [encodeUnderscores_cons]
    split
    · exact .other (by decide) (by decide) (.other (by decide) (by decide) ih)
    · split
      · exact .other (by decide) (by decide) ih
      · exact .other hopen hclose ih

/-! ## One token -/

namespace Depths

theorem uncut_of_not_mem {s : List Char} (h : ':' ∉ s) (d : Depths) :
    Text.Uncut next separates d s := by
  rw [Text.uncut_iff]
  rintro u c v rfl
  rw [Bool.eq_false_iff]
  intro hcut
  obtain ⟨rfl, -⟩ := separates_iff.mp hcut
  exact h (by simp)

theorem next_square_of_ne {d : Depths} {c : Char} (hopen : c ≠ '[') (hclose : c ≠ ']') :
    (d.next c).square = d.square := by
  rw [next, if_neg hopen, if_neg hclose]
  split
  · rfl
  · split <;> rfl

/-- Inside a square bracket no colon separates, whatever the round ones do. -/
theorem uncut_of_closes {n : Nat} {s : List Char} (h : Closes n s) {d : Depths}
    (hd : d.square = n + 1) : Text.Uncut next separates d s := by
  have hinside {d : Depths} {n : Nat} (hd : d.square = n + 1) (c : Char) :
      d.separates c = false := by
    rw [Bool.eq_false_iff]
    intro hcut
    obtain ⟨-, rfl⟩ := separates_iff.mp hcut
    simp only [zero] at hd
    omega
  induction h generalizing d with
  | nil => trivial
  | opening _ ih =>
    refine ⟨hinside hd _, ih ?_⟩
    simp only [next, if_true, hd]
    omega
  | closing _ ih =>
    refine ⟨hinside hd _, ih ?_⟩
    simp [next, hd]
  | other hopen hclose _ ih =>
    exact ⟨hinside hd _, ih ((next_square_of_ne hopen hclose).trans hd)⟩

end Depths

/-! ## The class name -/

theorem Text.cutFirst?_append {a b : Char} (hab : a ≠ b) {s : List Char} (h : b ∉ s)
    (t : List Char) : cutFirst? [a, b] (s ++ a :: b :: t) = some (s, t) := by
  induction s with
  | nil =>
    have hsome : [a, b].isPrefixOf? (a :: b :: t) = some t := isPrefixOf?_eq_some_iff.mpr rfl
    rw [List.nil_append, cutFirst?, hsome]
  | cons c s ih =>
    have hnone : [a, b].isPrefixOf? (c :: (s ++ a :: b :: t)) = none := by
      rw [Option.eq_none_iff_forall_ne_some]
      intro r hr
      obtain ⟨-, htail⟩ := List.cons.inj (isPrefixOf?_eq_some_iff.mp hr)
      -- The second character is in the name, or it is the first separator again.
      cases s with
      | nil => exact hab (List.cons.inj htail).1
      | cons d s => exact h (by simp [(List.cons.inj htail).1])
    rw [List.cons_append, cutFirst?, hnone, ih fun hb => h (List.mem_cons_of_mem _ hb)]
    rfl

/-- Whether a utility can be named so in front of a bracket. -/
structure IsPlainName (name : String) : Prop where
  ne_empty : name ≠ ""
  plain : ∀ c ∈ name.toList, c ≠ ':' ∧ isBracket c = false
  no_dash : Text.beginsWith "-" name = false
  no_mark : Text.beginsWith "!" name = false

theorem isPlainName_iff {name : String} :
    IsPlainName name ↔ name ≠ "" ∧ (name.toList.all fun c => c != ':' && !isBracket c) = true ∧
      Text.beginsWith "-" name = false ∧ Text.beginsWith "!" name = false := by
  simp only [List.all_eq_true, Bool.and_eq_true, bne_iff_ne, Bool.not_eq_true']
  exact ⟨fun h => ⟨h.1, h.2, h.3, h.4⟩, fun ⟨h₁, h₂, h₃, h₄⟩ => ⟨h₁, h₂, h₃, h₄⟩⟩

instance (name : String) : Decidable (IsPlainName name) := decidable_of_iff _ isPlainName_iff.symm

namespace IsPlainName

variable {name : String}

theorem not_mem (h : IsPlainName name) {c : Char} (hc : isBracket c = true) : c ∉ name.toList := by
  intro hmem
  rw [(h.plain c hmem).2] at hc
  cases hc

theorem beginsWith_append (h : IsPlainName name) {c : Char} {p : String} (hp : p.toList = [c])
    (hname : Text.beginsWith p name = false) (r : String) :
    Text.beginsWith p (name ++ r) = false := by
  rw [Bool.eq_false_iff] at hname ⊢
  exact fun hr => hname (Text.beginsWith_of_append hp h.ne_empty hr)

theorem beginsWith_bracket (h : IsPlainName name) {c : Char} {p : String} (hp : p.toList = [c])
    (hc : isBracket c = true) : Text.beginsWith p name = false := by
  rw [Bool.eq_false_iff]
  intro hname
  obtain ⟨r, rfl⟩ := Text.beginsWith_iff.mp hname
  exact h.not_mem hc (by simp [hp])

theorem beginsWith_bracket_append (h : IsPlainName name) {c : Char} {p : String} (hp : p.toList = [c])
    (hc : isBracket c = true) (r : String) : Text.beginsWith p (name ++ r) = false :=
  h.beginsWith_append hp (h.beginsWith_bracket hp hc) r

theorem parseUtility?_append (h : IsPlainName name) (reg : Registry) (rest : String) :
    reg.parseUtility? (name ++ rest) = reg.readUtility? false (name ++ rest) := by
  have hdash : Text.after? "-" (name ++ rest) = none := by
    simpa [Text.beginsWith] using h.beginsWith_append rfl h.no_dash rest
  rw [Registry.parseUtility?, hdash]

theorem parseUtility? (h : IsPlainName name) (reg : Registry) {rest value opacity : String}
    (hsplit : splitBracketed '[' ']' rest.toList = (value.toList, opacity.toList)) :
    reg.parseUtility? (name ++ "-[" ++ rest) = some (reg.withRegistration
      { name := name, value := value, arbitrary := true, opacity := opacity }) := by
  have hcut : Text.cutFirst? ['-', '['] (name ++ ("-[" ++ rest)).toList =
      some (name.toList, rest.toList) := by
    rw [String.toList_append, String.toList_append]
    exact Text.cutFirst?_append (by decide) (h.not_mem rfl) _
  rw [String.append_assoc, h.parseUtility?_append]
  unfold Registry.readUtility?
  rw [if_neg (by simp [h.ne_empty, h.beginsWith_bracket_append (c := '[') (p := "[") rfl rfl,
    h.beginsWith_bracket_append (c := '(') (p := "(") rfl rfl])]
  simp only [hcut, hsplit, String.ofList_toList]

theorem hidesColons (h : IsPlainName name) {e : List Char} (he : Closes 0 e) {tail : List Char}
    (htail : ':' ∉ tail) :
    Token.HidesColons (name ++ "-[" ++ String.ofList (e ++ ']' :: tail)) := by
  have hname : ':' ∉ name.toList := fun hmem => (h.plain ':' hmem).1 rfl
  have hzero : name.toList.foldl Depths.next Depths.zero = Depths.zero :=
    Depths.after_of_forall (fun c hc => (h.plain c hc).2) _
  have hopen : Text.Uncut Depths.next Depths.separates .zero ['-', '['] := by decide
  have hvalue : Text.Uncut Depths.next Depths.separates (Depths.zero.after ['-', '[']) e :=
    Depths.uncut_of_closes he (by decide)
  have htext : (name ++ "-[" ++ String.ofList (e ++ ']' :: tail)).toList =
      name.toList ++ (['-', '['] ++ (e ++ ']' :: tail)) := by simp
  rw [Token.hidesColons_iff, htext, Text.uncut_append, hzero, Text.uncut_append, Text.uncut_append]
  exact ⟨Depths.uncut_of_not_mem hname _, hopen, hvalue,
    Depths.uncut_of_not_mem (by simpa using htail) _⟩

end IsPlainName

namespace ClassName

theorem parse_of_hidesColons (reg : Registry) (θ : Theme) {raw : String} (hne : raw ≠ "")
    (hraw : isImportant raw = false) (h : Token.HidesColons raw) :
    parse reg θ raw = ⟨[], reg.parseUtility? raw⟩ := by
  have hscan : (Token.scan (":".intercalate ([] ++ [raw]))).map Token.text = [] ++ [raw] :=
    Token.map_text_scan_intercalate (by simp) hne h
  rw [List.nil_append, String.intercalate_singleton] at hscan
  rw [(parse_of_tokens reg θ hscan hraw).1]
  exact (assemble_utilityLast reg raw []).1

end ClassName

/-- Whether a utility was written with an arbitrary value, and with no mark and no dash. -/
structure Utility.IsArbitrary (u : Utility) (name value opacity : String) : Prop where
  name_eq : u.name = name
  arbitrary : u.arbitrary = true
  not_customProperty : u.customProperty = false
  not_negative : u.negative = false
  not_important : u.important = false
  opacity_eq : u.opacity = opacity
  resolvedValue_eq : u.resolvedValue = value

theorem Registry.isArbitrary_withRegistration (reg : Registry) {u : Utility}
    {name value opacity : String} (h : u.IsArbitrary name value opacity) :
    (reg.withRegistration u).IsArbitrary name value opacity := by
  unfold withRegistration
  split
  · exact ⟨h.name_eq, h.arbitrary, h.not_customProperty, h.not_negative, h.not_important,
      h.opacity_eq, h.resolvedValue_eq⟩
  · exact h

theorem IsPlainName.parse_bracket {name : String} (h : IsPlainName name) (reg : Registry) (θ : Theme)
    {e tail : List Char} {opacity : String} (he : Closes 0 e) (htail : ':' ∉ tail)
    (hsplit : splitBracketed '[' ']' (e ++ ']' :: tail) = (e, opacity.toList)) :
    ClassName.parse reg θ (name ++ "-[" ++ String.ofList (e ++ ']' :: tail)) =
      ⟨[], some (reg.withRegistration
        { name := name, value := String.ofList e, arbitrary := true, opacity := opacity })⟩ := by
  have hne : name ++ "-[" ++ String.ofList (e ++ ']' :: tail) ≠ "" := by
    rw [String.append_assoc]
    simp
  have hmark : ClassName.isImportant (name ++ "-[" ++ String.ofList (e ++ ']' :: tail)) = false := by
    rw [String.append_assoc]
    exact h.beginsWith_append rfl h.no_mark _
  have hrest : splitBracketed '[' ']' (String.ofList (e ++ ']' :: tail)).toList =
      ((String.ofList e).toList, opacity.toList) := by simpa using hsplit
  rw [ClassName.parse_of_hidesColons reg θ hne hmark (h.hidesColons he htail),
    h.parseUtility? reg hrest]

/-- **Arbitrary values are read back.** Write a value between square brackets behind a plain name. If
its own square brackets balance and no backslash stands before a space in it, the class name has no
modifiers, and its utility has that name, that value and nothing else; and with a slash and an opacity
behind the bracket it has that opacity, too. This holds under any rules and with any coherent caches. -/
theorem Registry.parse_arbitraryValue {reg : Registry} {θ : Theme} {caches : Caches}
    (hcaches : caches.Coherent reg θ) {name value opacity : String} (hname : IsPlainName name)
    (hbalanced : Balanced value.toList) (hspace : ¬ ['\\', ' '] <:+: value.toList)
    (hopacity : ':' ∉ opacity.toList) :
    let written := name ++ "-[" ++ String.ofList (encodeUnderscores value.toList)
    (∃ u, (reg.parseCached θ caches (written ++ "]")).1 = ⟨[], some u⟩ ∧
      u.IsArbitrary name value "") ∧
    (∃ u, (reg.parseCached θ caches (written ++ "]/" ++ opacity)).1 = ⟨[], some u⟩ ∧
      u.IsArbitrary name value opacity) := by
  intro written
  have hcloses := hbalanced.closes.encodeUnderscores
  have hclosed (tail : List Char) := hcloses.closeBracket? tail
  have hdecode := decodeUnderscores_encodeUnderscores hspace
  have hvalue (opacity : String) : Utility.IsArbitrary
      { name := name, value := String.ofList (encodeUnderscores value.toList), arbitrary := true
        opacity := opacity } name value opacity :=
    ⟨rfl, rfl, rfl, rfl, rfl, rfl, by simp [Utility.resolvedValue, hdecode]⟩
  have hplain : written ++ "]" =
      name ++ "-[" ++ String.ofList (encodeUnderscores value.toList ++ ']' :: []) :=
    String.toList_injective (by simp [written])
  have hslash : written ++ "]/" ++ opacity = name ++ "-[" ++
      String.ofList (encodeUnderscores value.toList ++ ']' :: '/' :: opacity.toList) :=
    String.toList_injective (by simp [written])
  refine ⟨⟨_, ?_, reg.isArbitrary_withRegistration (hvalue "")⟩,
    ⟨_, ?_, reg.isArbitrary_withRegistration (hvalue opacity)⟩⟩
  · rw [(parseCached_spec hcaches _).1, hplain]
    exact hname.parse_bracket reg θ hcloses (by simp) (by simp [splitBracketed, hclosed])
  · rw [(parseCached_spec hcaches _).1, hslash]
    exact hname.parse_bracket reg θ hcloses (by simpa using hopacity)
      (by simp [splitBracketed, hclosed])

/-- A bracket inside the brackets, a colon, and a round bracket that nothing closes. -/
theorem Registry.parse_arbitraryValue_nested :
    (Caches.ofConfig {}).Coherent .empty .null ∧ IsPlainName "bg" ∧
      Balanced "a_b [c:d( e]".toList ∧ ¬ ['\\', ' '] <:+: "a_b [c:d( e]".toList ∧
      (∃ u, (Registry.empty.parseCached .null (.ofConfig {}) "bg-[a\\_b_[c:d(_e]]").1 = ⟨[], some u⟩ ∧
        u.IsArbitrary "bg" "a_b [c:d( e]" "") ∧
      (∃ u, (Registry.empty.parseCached .null (.ofConfig {}) "bg-[a\\_b_[c:d(_e]]/50").1 =
        ⟨[], some u⟩ ∧ u.IsArbitrary "bg" "a_b [c:d( e]" "50") := by
  have hcaches : (Caches.ofConfig {}).Coherent .empty .null := Caches.coherent_ofConfig _ _ _
  have hplain : ∀ c ∈ "bg".toList, c ≠ ':' ∧ isBracket c = false := by
    simp only [show "bg".toList = ['b', 'g'] by rfl, List.forall_mem_cons]
    exact ⟨by decide, by decide, by simp⟩
  have hname : IsPlainName "bg" := ⟨by decide, hplain, by decide, by decide⟩
  have hbalanced : Balanced "a_b [c:d( e]".toList := by decide
  have hspace : ¬ ['\\', ' '] <:+: "a_b [c:d( e]".toList := by decide
  have hread := parse_arbitraryValue hcaches hname hbalanced hspace (by decide : ':' ∉ "50".toList)
  have hbare : "bg" ++ "-[" ++ String.ofList (encodeUnderscores "a_b [c:d( e]".toList) ++ "]" =
      "bg-[a\\_b_[c:d(_e]]" := by decide
  have hslash : "bg" ++ "-[" ++ String.ofList (encodeUnderscores "a_b [c:d( e]".toList) ++ "]/" ++
      "50" = "bg-[a\\_b_[c:d(_e]]/50" := by decide
  refine ⟨hcaches, hname, hbalanced, hspace, ?_, ?_⟩
  · rw [← hbare]
    exact hread.1
  · rw [← hslash]
    exact hread.2

end UtilityCss
