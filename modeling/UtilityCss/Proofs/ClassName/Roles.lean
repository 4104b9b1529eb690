import UtilityCss.Proofs.ClassName.Direction

/-!
# The roles of the tokens

One token of a class name is its utility, the first or the last one, and the others are its modifiers
(`ClassName.parse_eq`). The first of several tokens is a modifier if a modifier rule applies to it. But it
is asked for with the dash that it may begin with, while it is later expanded without the dash: behind a
dash a modifier can lose to a utility (`Registry.isUtilityToken_iff_overlooksModifier`).
-/

namespace UtilityCss

/-- A utility with the mark of its class name. -/
def Utility.markedIf (important : Bool) (u : Utility) : Utility :=
  if important then { u with important := true } else u

theorem Utility.markedIf_eq (important : Bool) (u : Utility) :
    u.markedIf important = { u with important := important || u.important } := by
  cases important <;> rfl

namespace ClassName

/-- The token of the utility. -/
def utilityToken? (reg : Registry) (θ : Theme) (raw : String) : Option String :=
  if reg.direction θ (tokens raw) then (tokens raw).head? else (tokens raw).getLast?

/-- The tokens of the modifiers. -/
def modifierTokens (reg : Registry) (θ : Theme) (raw : String) : List String :=
  if reg.direction θ (tokens raw) then (tokens raw).tail else (tokens raw).dropLast

/-- A class name is taken apart token by token. -/
theorem parse_eq (reg : Registry) (θ : Theme) (raw : String) :
    parse reg θ raw = ⟨(modifierTokens reg θ raw).map Modifier.ofToken,
      ((utilityToken? reg θ raw).bind reg.parseUtility?).map (Utility.markedIf (isImportant raw))⟩ := by
  rw [Registry.parse_eq_assemble, utilityToken?, modifierTokens]
  cases htokens : tokens raw with
  | nil => rfl
  | cons first rest =>
    unfold assemble
    cases reg.direction θ (first :: rest) with
    | true => rfl
    | false =>
      have hlast : (first :: rest).getLast? = some ((first :: rest).getLast (by simp)) :=
        List.getLast?_eq_some_getLast (by simp)
      simp only [hlast]
      rfl

end ClassName

theorem Modifier.kind_ofToken (token : String) :
    (ofToken token).kind = Registry.withoutDash token := rfl

namespace Registry

variable {reg : Registry} {θ : Theme} {token : String}

theorem isUtilityToken_iff :
    reg.isUtilityToken θ token = true ↔
      (∃ r ∈ reg.utilityCandidates (withoutDash token), r.accepts (withoutDash token) = true) ∧
        reg.findModifier? θ token = none := by
  simp [isUtilityToken, findModifier?]

theorem withoutDash_of_not_beginsWith (h : Text.beginsWith "-" token = false) :
    withoutDash token = token := by
  have hnone : Text.after? "-" token = none := by simpa [Text.beginsWith] using h
  rw [withoutDash, hnone, Option.getD_none]

/-- Whether a modifier is overlooked in a token: the token begins with a dash, a utility rule applies to
what is behind the dash, and no modifier rule applies to the token with its dash. -/
structure OverlooksModifier (reg : Registry) (θ : Theme) (token : String) : Prop where
  negative : (Modifier.ofToken token).negative = true
  utility : ∃ r ∈ reg.utilityCandidates (Modifier.ofToken token).kind,
    r.accepts (Modifier.ofToken token).kind = true
  unmatched : reg.findModifier? θ token = none

theorem findModifier?_of_negative
    (hnames : ∀ m ∈ reg.modifiers, m.name ≠ "" ∧ Text.beginsWith "-" m.name = false)
    (haccepts : ∀ m ∈ reg.modifiers, ∀ s, m.accepts s θ = true → Text.beginsWith m.name s = true)
    (hnegative : Text.beginsWith "-" token = true) : reg.findModifier? θ token = none := by
  refine List.find?_eq_none.mpr fun m hm haccept => ?_
  have hmem : m ∈ reg.modifiers := (List.mem_filter.mp hm).1
  obtain ⟨hne, hdash⟩ := hnames m hmem
  obtain ⟨rest, rfl⟩ := Text.beginsWith_iff.mp (haccepts m hmem token haccept)
  rw [Text.beginsWith_of_append rfl hne hnegative] at hdash
  cases hdash

theorem isUtilityToken_iff_of_findModifier? {m : ModifierRule}
    (hm : reg.findModifier? θ (Modifier.ofToken token).kind = some m) :
    reg.isUtilityToken θ token = true ↔ reg.OverlooksModifier θ token := by
  rw [isUtilityToken_iff]
  constructor
  · rintro ⟨hutility, hnone⟩
    refine ⟨?_, hutility, hnone⟩
    cases hdash : (Modifier.ofToken token).negative with
    | true => rfl
    | false =>
      -- Without a dash the token is what the modifier was found for.
      rw [Modifier.kind_ofToken, withoutDash_of_not_beginsWith hdash, hnone] at hm
      cases hm
  · exact fun h => ⟨h.utility, h.unmatched⟩

theorem direction_cons_concat (token last : String) (between : List String) :
    reg.direction θ (token :: (between ++ [last])) = reg.isUtilityToken θ token := by
  cases between <;> rfl

end Registry

namespace ClassName

variable {reg : Registry} {θ : Theme} {raw token last : String} {between : List String}

theorem parse_of_isUtilityToken (htokens : tokens raw = token :: (between ++ [last]))
    (h : reg.isUtilityToken θ token = true) :
    parse reg θ raw = ⟨(between ++ [last]).map Modifier.ofToken,
      (reg.parseUtility? token).map (Utility.markedIf (isImportant raw))⟩ := by
  rw [parse_eq, utilityToken?, modifierTokens, htokens, Registry.direction_cons_concat, h]
  rfl

theorem parse_of_not_isUtilityToken (htokens : tokens raw = token :: (between ++ [last]))
    (h : reg.isUtilityToken θ token = false) :
    parse reg θ raw = ⟨(token :: between).map Modifier.ofToken,
      (reg.parseUtility? last).map (Utility.markedIf (isImportant raw))⟩ := by
  have hlast : (token :: (between ++ [last])).getLast? = some last := by
    rw [← List.cons_append, List.getLast?_concat]
  have hinit : (token :: (between ++ [last])).dropLast = token :: between := by
    rw [← List.cons_append, List.dropLast_concat]
  rw [parse_eq, utilityToken?, modifierTokens, htokens, Registry.direction_cons_concat, h, hlast, hinit]
  rfl

end ClassName

namespace Registry

variable {reg : Registry} {θ : Theme} {token : String}

/-- **A modifier wins a tie, unless a dash hides it.** Let a modifier rule be found for a token read as a
modifier. Then the token is taken for a utility exactly if the modifier is overlooked: the token has a
dash, a utility rule applies behind it, and no modifier rule applies to the token with the dash, as none
does that applies only to texts beginning with its name. A class name that begins with the token and has
others has it as its utility in that case, and as its first modifier in every other. -/
theorem isUtilityToken_iff_overlooksModifier {m : ModifierRule}
    (hm : reg.findModifier? θ (Modifier.ofToken token).kind = some m) :
    (reg.isUtilityToken θ token = true ↔ reg.OverlooksModifier θ token) ∧
    ((∀ m' ∈ reg.modifiers, m'.name ≠ "" ∧ Text.beginsWith "-" m'.name = false) →
      (∀ m' ∈ reg.modifiers, ∀ s, m'.accepts s θ = true → Text.beginsWith m'.name s = true) →
      (Modifier.ofToken token).negative = true → reg.findModifier? θ token = none) ∧
    ∀ caches : Caches, caches.Coherent reg θ → ∀ raw between last,
      ClassName.tokens raw = token :: (between ++ [last]) →
      (reg.OverlooksModifier θ token → (reg.parseCached θ caches raw).1 =
        ⟨(between ++ [last]).map Modifier.ofToken,
          (reg.parseUtility? token).map (Utility.markedIf (ClassName.isImportant raw))⟩) ∧
      (¬ reg.OverlooksModifier θ token → (reg.parseCached θ caches raw).1 =
        ⟨(token :: between).map Modifier.ofToken,
          (reg.parseUtility? last).map (Utility.markedIf (ClassName.isImportant raw))⟩) := by
  have hiff := isUtilityToken_iff_of_findModifier? hm
  refine ⟨hiff, findModifier?_of_negative, fun caches hcaches raw between last htokens => ?_⟩
  rw [(parseCached_spec hcaches raw).1]
  constructor
  · intro h
    exact ClassName.parse_of_isUtilityToken htokens (hiff.mpr h)
  · intro h
    exact ClassName.parse_of_not_isUtilityToken htokens (Bool.eq_false_iff.mpr (mt hiff.mp h))

/-- A utility `peer`, and a modifier whose name begins with it. -/
def peers : Registry :=
  (empty.addUtility { name := "peer", handle := fun _ _ => .ok [] }).addModifier
    (.selector "peer-focus" ".peer:focus ~ &")

theorem isUtilityToken_iff_overlooksModifier_peers :
    (∃ m, peers.findModifier? .null (Modifier.ofToken "peer-focus").kind = some m) ∧
      peers.isUtilityToken .null "peer-focus" = false ∧
      (peers.parseCached .null (.ofConfig {}) "!peer-focus:[&>a]:peer-1").1 =
        ⟨[.named "peer-focus", ⟨"[&>a]", false, true⟩],
          some { name := "peer", value := "1", important := true }⟩ ∧
      (∃ m, peers.findModifier? .null (Modifier.ofToken "-peer-focus").kind = some m) ∧
      peers.OverlooksModifier .null "-peer-focus" ∧
      (peers.parseCached .null (.ofConfig {}) "-peer-focus:peer-1").1 =
        ⟨[.named "peer-1"], some { name := "peer", value := "focus", negative := true }⟩ := by
  obtain ⟨m, hm⟩ : ∃ m, peers.findModifier? .null (Modifier.ofToken "peer-focus").kind = some m :=
    Option.isSome_iff_exists.mp (by decide)
  obtain ⟨m', hm'⟩ : ∃ m, peers.findModifier? .null (Modifier.ofToken "-peer-focus").kind = some m :=
    Option.isSome_iff_exists.mp (by decide)
  obtain ⟨hiff, -, hparse⟩ := isUtilityToken_iff_overlooksModifier hm
  obtain ⟨hiff', -, hparse'⟩ := isUtilityToken_iff_overlooksModifier hm'
  have hcaches : (Caches.ofConfig {}).Coherent peers .null := Caches.coherent_ofConfig _ _ _
  have hnot : ¬ peers.OverlooksModifier .null "peer-focus" := fun h => absurd h.negative (by decide)
  have hoverlooks : peers.OverlooksModifier .null "-peer-focus" := hiff'.mp (by decide)
  refine ⟨⟨m, hm⟩, Bool.eq_false_iff.mpr (mt hiff.mp hnot), ?_, ⟨m', hm'⟩, hoverlooks, ?_⟩
  · rw [(hparse _ hcaches "!peer-focus:[&>a]:peer-1" ["[&>a]"] "peer-1" (by decide)).2 hnot]
    decide
  · rw [(hparse' _ hcaches "-peer-focus:peer-1" [] "peer-1" (by decide)).1 hoverlooks]
    decide

/-- Behind a dash the utility wins: the modifier's name with a dash is not a use of the modifier. -/
theorem isUtilityToken_negativeModifier :
    ¬ ∀ (reg : Registry) (θ : Theme) (token : String),
      (reg.findModifier? θ (Modifier.ofToken token).kind).isSome = true →
        reg.isUtilityToken θ token = false := by
  intro h
  exact absurd (h peers .null "-peer-focus" (by decide)) (by decide)

end Registry
end UtilityCss
