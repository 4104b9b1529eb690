import UtilityCss.ClassName.Parser
import UtilityCss.Proofs.Rule.Order
import UtilityCss.Rule.Registry

/-!
# The rule of a utility

A token is read by one look-up and expanded by another: the longest name of the token when it is taken
apart, and the name of the utility when its rule is asked for declarations. Both find the same rule
(`Registry.parseUtility?_registration`): what was found as the longest name is the first rule of that
name, and the name that is cut off at the first dash of a token without a rule has no rule itself, since
the token would be a use of it.

`Registry.Reads` lists the ways in which a token is read, and `Registry.underModifiers` is what becomes of
the nodes that the rule gives.
-/

namespace UtilityCss

theorem Text.isInfix_of_cutFirst? {sep s a b : List Char} (h : cutFirst? sep s = some (a, b)) :
    sep <:+: s :=
  ⟨a, b, (eq_of_cutFirst? h).symm⟩

namespace Registry

variable {reg : Registry} {token bare : String} {u : Utility}

/-! ## Readings of a token -/

/-- Whether a text, behind a dash or not, can be read as a utility. -/
def OpensUtility (bare : String) : Prop :=
  bare ≠ "" ∧ Text.beginsWith "[" bare = false ∧ Text.beginsWith "(" bare = false

instance (bare : String) : Decidable (OpensUtility bare) :=
  inferInstanceAs (Decidable (bare ≠ "" ∧ _ ∧ _))

/-- The ways in which a text without its leading dash is read as a utility: with a value in square
brackets, with one in round brackets, by the longest registered name, and without any rule. -/
inductive Reads (reg : Registry) (negative : Bool) (bare : String) : Utility → Prop where
  | arbitrary {name rest : List Char}
      (hcut : Text.cutFirst? ['-', '['] bare.toList = some (name, rest)) :
      Reads reg negative bare (reg.withRegistration
        { name := .ofList name, value := .ofList (splitBracketed '[' ']' rest).1, arbitrary := true
          negative := negative, opacity := .ofList (splitBracketed '[' ']' rest).2 })
  | customProperty {name rest : List Char}
      (hsquare : Text.cutFirst? ['-', '['] bare.toList = none)
      (hcut : Text.cutFirst? ['-', '('] bare.toList = some (name, rest)) :
      Reads reg negative bare (reg.withRegistration
        { name := .ofList name, value := .ofList (splitBracketed '(' ')' rest).1
          customProperty := true
          negative := negative, opacity := .ofList (splitBracketed '(' ')' rest).2 })
  | registered {r : UtilityRule} {value : String}
      (hsquare : Text.cutFirst? ['-', '['] bare.toList = none)
      (hround : Text.cutFirst? ['-', '('] bare.toList = none)
      (hlongest : reg.longestUtility? bare = some (r, value)) :
      Reads reg negative bare
        { name := r.name, value := value, negative := negative
          category := r.category, priority := r.priority }
  | unregistered {name value : List Char}
      (hsquare : Text.cutFirst? ['-', '['] bare.toList = none)
      (hround : Text.cutFirst? ['-', '('] bare.toList = none)
      (hlongest : reg.longestUtility? bare = none)
      (hname : (Text.cutFirst? ['-'] bare.toList).getD (bare.toList, []) = (name, value)) :
      Reads reg negative bare
        { name := .ofList name, value := .ofList value, negative := negative }

theorem exists_reads (reg : Registry) (hopens : OpensUtility bare) (negative : Bool) :
    ∃ u, reg.readUtility? negative bare = some u ∧ reg.Reads negative bare u := by
  obtain ⟨hne, hsquare, hround⟩ := hopens
  unfold readUtility?
  rw [if_neg (by simp [hne, hsquare, hround])]
  cases hcut : Text.cutFirst? ['-', '['] bare.toList with
  | some cut => exact ⟨_, rfl, .arbitrary hcut⟩
  | none =>
    cases hcut' : Text.cutFirst? ['-', '('] bare.toList with
    | some cut => exact ⟨_, rfl, .customProperty hcut hcut'⟩
    | none =>
      cases hlongest : reg.longestUtility? bare with
      | some found => exact ⟨_, rfl, .registered hcut hcut' hlongest⟩
      | none => exact ⟨_, rfl, .unregistered hcut hcut' hlongest rfl⟩

theorem readUtility?_eq_none_iff {negative : Bool} :
    reg.readUtility? negative bare = none ↔ ¬ OpensUtility bare := by
  constructor
  · intro hnone hopens
    obtain ⟨u, hu, -⟩ := exists_reads reg hopens negative
    rw [hnone] at hu
    cases hu
  · intro hclosed
    unfold readUtility?
    rw [if_pos]
    simp only [OpensUtility, ne_eq, not_and, Bool.not_eq_false] at hclosed
    by_cases hne : bare = ""
    · simp [hne]
    · by_cases hsquare : Text.beginsWith "[" bare = true
      · simp [hsquare]
      · simp [hclosed hne (by simpa using hsquare)]

theorem reads_of_readUtility? {negative : Bool} (h : reg.readUtility? negative bare = some u) :
    reg.Reads negative bare u := by
  have hopens : OpensUtility bare := by
    by_contra hclosed
    rw [readUtility?_eq_none_iff.mpr hclosed] at h
    cases h
  obtain ⟨u', hu', hreads⟩ := exists_reads reg hopens negative
  obtain rfl := Option.some.inj (hu'.symm.trans h)
  exact hreads

theorem isSuffix_withoutDash (token : String) : (withoutDash token).toList <:+ token.toList := by
  unfold withoutDash
  cases h : Text.after? "-" token with
  | none => exact List.suffix_rfl
  | some bare =>
    rw [Text.after?_eq_some_iff.mp h]
    exact ⟨"-".toList, by simp⟩

theorem parseUtility?_eq (reg : Registry) (token : String) :
    reg.parseUtility? token = reg.readUtility? (Text.beginsWith "-" token) (withoutDash token) := by
  unfold parseUtility? Text.beginsWith withoutDash
  cases Text.after? "-" token <;> rfl

theorem parseUtility?_eq_none_iff :
    reg.parseUtility? token = none ↔ ¬ OpensUtility (withoutDash token) := by
  rw [parseUtility?_eq, readUtility?_eq_none_iff]

theorem reads_of_parseUtility? (h : reg.parseUtility? token = some u) :
    reg.Reads (Text.beginsWith "-" token) (withoutDash token) u :=
  reads_of_readUtility? ((parseUtility?_eq reg token).symm.trans h)

/-! ## Expanding -/

/-- The style tree of the nodes that a rule gave, under a chain of modifiers. -/
def underModifiers (reg : Registry) (θ : Theme) (modifiers : List Modifier) (important : Bool)
    (rule : UtilityRule) (given : List Node) : Except CompileError (List Node) := do
  if given = [] then return []
  match ← reg.scopePath? θ [] modifiers with
  | none => return []
  | some path =>
    let decls ← declarationsOf rule given
    return Path.nodes (path ++ decls.map fun d =>
      .decl { d with value := markedValue important d.value })

theorem expand_of_findUtility? {r : UtilityRule} (h : reg.findUtility? u.name = some r) (θ : Theme)
    (modifiers : List Modifier) :
    reg.expand θ ⟨modifiers, some u⟩ =
      r.handle u θ >>= reg.underModifiers θ modifiers u.important r := by
  show reg.expandUtility θ modifiers u = _
  unfold expandUtility
  rw [h]
  rfl

theorem expand_of_findUtility?_eq_none (h : reg.findUtility? u.name = none) (θ : Theme)
    (modifiers : List Modifier) : reg.expand θ ⟨modifiers, some u⟩ = .ok [] := by
  show reg.expandUtility θ modifiers u = _
  unfold expandUtility
  rw [h]
  rfl

/-! ## Registration -/

/-- Whether a utility has the data of a rule, and every utility of its name is expanded by that rule. -/
structure IsRegisteredAs (reg : Registry) (u : Utility) (r : UtilityRule) : Prop where
  found : reg.findUtility? u.name = some r
  category_eq : u.category = r.category
  priority_eq : u.priority = r.priority
  expand_eq : ∀ θ modifiers (u' : Utility), u'.name = u.name →
    reg.expand θ ⟨modifiers, some u'⟩ =
      r.handle u' θ >>= reg.underModifiers θ modifiers u'.important r

/-- Whether a utility has the data of no rule, and no utility of its name has a style. -/
structure IsUnregistered (reg : Registry) (u : Utility) : Prop where
  not_found : reg.findUtility? u.name = none
  category_eq : u.category = ""
  priority_eq : u.priority = 0
  expand_eq : ∀ θ modifiers (u' : Utility), u'.name = u.name →
    reg.expand θ ⟨modifiers, some u'⟩ = .ok []

theorem isRegisteredAs_of_found {r : UtilityRule} (h : reg.findUtility? u.name = some r)
    (hcategory : u.category = r.category) (hpriority : u.priority = r.priority) :
    reg.IsRegisteredAs u r :=
  ⟨h, hcategory, hpriority, fun θ modifiers _ hname =>
    expand_of_findUtility? (hname ▸ h) θ modifiers⟩

theorem isUnregistered_of_not_found (h : reg.findUtility? u.name = none) (hcategory : u.category = "")
    (hpriority : u.priority = 0) : reg.IsUnregistered u :=
  ⟨h, hcategory, hpriority, fun θ modifiers _ hname =>
    expand_of_findUtility?_eq_none (hname ▸ h) θ modifiers⟩

theorem withRegistration_eq : ∃ category priority,
    reg.withRegistration u = { u with category := category, priority := priority } := by
  unfold withRegistration
  split
  · exact ⟨_, _, rfl⟩
  · exact ⟨u.category, u.priority, rfl⟩

@[simp] theorem name_withRegistration : (reg.withRegistration u).name = u.name := by
  obtain ⟨category, priority, h⟩ := @withRegistration_eq reg u
  rw [h]

@[simp] theorem value_withRegistration : (reg.withRegistration u).value = u.value := by
  obtain ⟨category, priority, h⟩ := @withRegistration_eq reg u
  rw [h]

@[simp] theorem negative_withRegistration : (reg.withRegistration u).negative = u.negative := by
  obtain ⟨category, priority, h⟩ := @withRegistration_eq reg u
  rw [h]

@[simp] theorem important_withRegistration : (reg.withRegistration u).important = u.important := by
  obtain ⟨category, priority, h⟩ := @withRegistration_eq reg u
  rw [h]

theorem Reads.negative_eq {negative : Bool} (h : reg.Reads negative bare u) : u.negative = negative := by
  cases h <;> simp

theorem Reads.important_eq {negative : Bool} (h : reg.Reads negative bare u) : u.important = false := by
  cases h <;> simp

theorem withRegistration_cases (hcategory : u.category = "") (hpriority : u.priority = 0) :
    (∃ r, reg.IsRegisteredAs (reg.withRegistration u) r) ∨
      reg.IsUnregistered (reg.withRegistration u) := by
  cases hfind : reg.findUtility? u.name with
  | some r =>
    have heq : reg.withRegistration u = { u with category := r.category, priority := r.priority } := by
      simp only [withRegistration, hfind]
    rw [heq]
    exact .inl ⟨r, isRegisteredAs_of_found hfind rfl rfl⟩
  | none =>
    have heq : reg.withRegistration u = u := by simp only [withRegistration, hfind]
    rw [heq]
    exact .inr (isUnregistered_of_not_found hfind hcategory hpriority)

theorem findUtility?_of_longestUtility?_eq_none {name value : List Char}
    (hlongest : reg.longestUtility? bare = none)
    (hname : (Text.cutFirst? ['-'] bare.toList).getD (bare.toList, []) = (name, value)) :
    reg.findUtility? (.ofList name) = none := by
  have huse : ∃ v, IsUseOf (.ofList name) bare v := by
    cases hcut : Text.cutFirst? ['-'] bare.toList with
    | none =>
      rw [hcut] at hname
      obtain ⟨rfl, -⟩ := Prod.mk.inj hname
      exact ⟨"", .inl ⟨String.ofList_toList.symm, rfl⟩⟩
    | some cut =>
      rw [hcut] at hname
      obtain rfl : cut = (name, value) := hname
      refine ⟨.ofList value, .inr (String.toList_injective ?_)⟩
      simpa using Text.eq_of_cutFirst? hcut
  obtain ⟨v, huse⟩ := huse
  rw [Option.eq_none_iff_forall_ne_some]
  intro r hr
  rw [← findUtility?_name hr] at huse
  exact longestUtility?_eq_none_iff.mp hlongest r (List.mem_of_find?_eq_some hr) v huse

/-- **One rule for a utility, or none.** A token that is read as a utility has the data of the rule that
expands it, which is the first rule of its name; or its name has no rule, and then it has no data of one
and no class name with it has a style. A token without brackets behind a dash is such a utility whenever
no registered name fits it, and none at all if it is empty or a bracket comes first. -/
theorem parseUtility?_registration (reg : Registry) (token : String) :
    (∀ u, reg.parseUtility? token = some u →
      (∃ r, reg.IsRegisteredAs u r) ∨ reg.IsUnregistered u) ∧
    (¬ ['-', '['] <:+: token.toList → ¬ ['-', '('] <:+: token.toList →
      reg.longestUtility? (withoutDash token) = none →
      if OpensUtility (withoutDash token) then
        ∃ u, reg.parseUtility? token = some u ∧ reg.IsUnregistered u
      else reg.parseUtility? token = none) := by
  refine ⟨fun u hu => ?_, fun hsquare hround hlongest => ?_⟩
  · cases reads_of_parseUtility? hu with
    | arbitrary => exact withRegistration_cases rfl rfl
    | customProperty => exact withRegistration_cases rfl rfl
    | registered _ _ hlongest =>
      exact .inl ⟨_, isRegisteredAs_of_found (longestUtility?_spec hlongest).2.1 rfl rfl⟩
    | unregistered _ _ hlongest hname =>
      exact .inr (isUnregistered_of_not_found
        (findUtility?_of_longestUtility?_eq_none hlongest hname) rfl rfl)
  · split
    · next hopens =>
      obtain ⟨u, hu, hreads⟩ := exists_reads reg hopens (Text.beginsWith "-" token)
      refine ⟨u, (parseUtility?_eq reg token).trans hu, ?_⟩
      have hbare := (isSuffix_withoutDash token).isInfix
      cases hreads with
      | arbitrary hcut => exact absurd ((Text.isInfix_of_cutFirst? hcut).trans hbare) hsquare
      | customProperty _ hcut => exact absurd ((Text.isInfix_of_cutFirst? hcut).trans hbare) hround
      | registered _ _ hfound =>
        rw [hlongest] at hfound
        cases hfound
      | unregistered _ _ _ hname =>
        exact isUnregistered_of_not_found
          (findUtility?_of_longestUtility?_eq_none hlongest hname) rfl rfl
    · next hcloses => exact parseUtility?_eq_none_iff.mpr hcloses

/-- Two paddings; the name of one is the beginning of the name of the other. -/
def twoPaddings : Registry :=
  ofUtilities [{ name := "p", category := "box", handle := fun _ _ => .ok [] },
    { name := "p-x", category := "axis", priority := 3, handle := fun _ _ => .ok [] }]

theorem parseUtility?_registration_twoPaddings :
    (∃ r, twoPaddings.IsRegisteredAs
      { name := "p-x", value := "2", negative := true, category := "axis", priority := 3 } r) ∧
    ∃ u, twoPaddings.parseUtility? "-gap-x-2" = some u ∧ twoPaddings.IsUnregistered u := by
  have hread : twoPaddings.parseUtility? "-p-x-2" = some
      { name := "p-x", value := "2", negative := true, category := "axis", priority := 3 } := by decide
  have hopens : OpensUtility (withoutDash "-gap-x-2") := by decide
  have hnone := (parseUtility?_registration twoPaddings "-gap-x-2").2 (by decide) (by decide) (by decide)
  rw [if_pos hopens] at hnone
  refine ⟨((parseUtility?_registration twoPaddings "-p-x-2").1 _ hread).resolve_right fun h => ?_, hnone⟩
  exact absurd h.category_eq (by decide)

end Registry
end UtilityCss
