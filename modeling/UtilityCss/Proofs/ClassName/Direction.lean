import UtilityCss.Proofs.ClassName.Tokens
import UtilityCss.Proofs.Engine.Transparency

/-!
# Both directions of a class name

A class name may be written with its modifiers before the utility or behind it. Where the first
token tells the directions apart, both spellings are taken apart alike, in every state a compiler
can be in and with or without the mark (`Compiler.parse_either_direction`).

The tokens are the parts that were joined, whatever brackets hide in them; the first of them decides
the direction; and either way of assembling them picks the same utility and leaves the same modifiers
in the same order.
-/

namespace UtilityCss

/-! ## The mark -/

theorem Text.beginsWith_of_append {c : Char} {p t r : String} (hp : p.toList = [c]) (ht : t ≠ "")
    (h : beginsWith p (t ++ r) = true) : beginsWith p t = true := by
  obtain ⟨x, hx⟩ := beginsWith_iff.mp h
  obtain ⟨d, s, hs⟩ := List.exists_cons_of_ne_nil (mt String.toList_eq_nil_iff.mp ht)
  have hlist := congrArg String.toList hx
  rw [String.toList_append, String.toList_append, hp, hs, List.cons_append] at hlist
  refine beginsWith_iff.mpr ⟨String.ofList s, String.toList_injective ?_⟩
  rw [hs, (List.cons.inj hlist).1, String.toList_append, hp, String.toList_ofList]
  rfl

namespace ClassName

theorem tokens_of_not_isImportant {raw : String} (h : isImportant raw = false) :
    tokens raw = (Token.scan raw).map Token.text := by
  have hnone : Text.after? "!" raw = none := by
    simpa [isImportant, Text.beginsWith] using h
  rw [tokens, hnone, Option.getD_none]

theorem tokens_mark (raw : String) : tokens ("!" ++ raw) = (Token.scan raw).map Token.text := by
  have hsome : Text.after? "!" ("!" ++ raw) = some raw := Text.after?_eq_some_iff.mpr rfl
  rw [tokens, hsome, Option.getD_some]

theorem isImportant_mark (raw : String) : isImportant ("!" ++ raw) = true :=
  Text.beginsWith_iff.mpr ⟨raw, rfl⟩

theorem isImportant_intercalate {t : String} (ht : t ≠ "") (hplain : isImportant t = false)
    (ts : List String) : isImportant (":".intercalate (t :: ts)) = false := by
  cases ts with
  | nil => simpa using hplain
  | cons t' ts =>
    rw [Bool.eq_false_iff] at hplain ⊢
    intro h
    rw [isImportant, String.intercalate_cons_cons, String.append_assoc] at h
    exact hplain (Text.beginsWith_of_append rfl ht h)

/-! ## Assembling -/

/-- A class name with its utility marked. -/
def marked (c : ClassName) : ClassName :=
  { c with utility := c.utility.map fun u => { u with important := true } }

theorem assemble_utilityFirst (reg : Registry) (u : String) (ts : List String) :
    assemble reg false true (u :: ts) = ⟨ts.map Modifier.ofToken, reg.parseUtility? u⟩ ∧
      assemble reg true true (u :: ts) =
        marked ⟨ts.map Modifier.ofToken, reg.parseUtility? u⟩ := by
  simp [assemble, marked]

theorem assemble_utilityLast (reg : Registry) (u : String) (ts : List String) :
    assemble reg false false (ts ++ [u]) = ⟨ts.map Modifier.ofToken, reg.parseUtility? u⟩ ∧
      assemble reg true false (ts ++ [u]) =
        marked ⟨ts.map Modifier.ofToken, reg.parseUtility? u⟩ := by
  cases ts with
  | nil => simp [assemble, marked]
  | cons t ts =>
    have hinit : (t :: (ts ++ [u])).dropLast = t :: ts := by
      rw [List.dropLast_cons_of_ne_nil (by simp), List.dropLast_concat]
    have hlast : (t :: (ts ++ [u])).getLast (by simp) = u := by
      rw [List.getLast_cons (by simp), List.getLast_concat]
    simp only [assemble, List.cons_append, hinit, hlast]
    exact ⟨by simp, by simp [marked]⟩

theorem parse_of_tokens (reg : Registry) (θ : Theme) {raw : String} {ts : List String}
    (hscan : (Token.scan raw).map Token.text = ts) (hraw : isImportant raw = false) :
    parse reg θ raw = assemble reg false (reg.direction θ ts) ts ∧
      parse reg θ ("!" ++ raw) = assemble reg true (reg.direction θ ts) ts := by
  constructor
  · rw [Registry.parse_eq_assemble, tokens_of_not_isImportant hraw, hscan, hraw]
  · rw [Registry.parse_eq_assemble, tokens_mark, hscan, isImportant_mark]

theorem parse_intercalate (reg : Registry) (θ : Theme) {t : String} {ts : List String}
    (hself : ∀ x ∈ t :: ts, Token.SelfContained x) (hplain : isImportant t = false) :
    parse reg θ (":".intercalate (t :: ts)) =
        assemble reg false (reg.direction θ (t :: ts)) (t :: ts) ∧
      parse reg θ ("!" ++ ":".intercalate (t :: ts)) =
        assemble reg true (reg.direction θ (t :: ts)) (t :: ts) :=
  parse_of_tokens reg θ (Token.map_text_scan_intercalate_of_forall (by simp) hself)
    (isImportant_intercalate (hself t (by simp)).ne_empty hplain ts)

end ClassName

namespace Compiler

/-- **A class name means the same in both directions.** If one token is a utility and the first of
some others is not, the utility before the others and the utility behind them are taken apart alike,
into the others as modifiers, in order, and the utility. With the mark the utility is important, and
nothing else changes. -/
theorem parse_either_direction {c : Compiler} (hc : c.Reachable) {u m : String} {ms : List String}
    (hself : ∀ t ∈ u :: m :: ms, Token.SelfContained t)
    (hplain : ∀ t ∈ u :: m :: ms, Text.beginsWith "!" t = false)
    (hu : c.registry.isUtilityToken c.theme u = true)
    (hm : c.registry.isUtilityToken c.theme m = false) :
    let parsed : ClassName := ⟨(m :: ms).map Modifier.ofToken, c.registry.parseUtility? u⟩
    (c.parse (":".intercalate (m :: ms ++ [u]))).1 = parsed ∧
    (c.parse (":".intercalate (u :: m :: ms))).1 = parsed ∧
    (c.parse ("!" ++ ":".intercalate (m :: ms ++ [u]))).1 = parsed.marked ∧
    (c.parse ("!" ++ ":".intercalate (u :: m :: ms))).1 = parsed.marked := by
  have hfirst : c.registry.direction c.theme (u :: m :: ms) = true := hu
  have hlast : c.registry.direction c.theme (m :: (ms ++ [u])) = false := by
    cases ms <;> exact hm
  have hperm : (m :: (ms ++ [u])).Perm (u :: m :: ms) := List.perm_append_singleton u (m :: ms)
  obtain ⟨hbehind, hbehindMarked⟩ := ClassName.parse_intercalate c.registry c.theme
    (fun t ht => hself t (hperm.mem_iff.mp ht)) (hplain m (by simp))
  obtain ⟨hbefore, hbeforeMarked⟩ := ClassName.parse_intercalate c.registry c.theme
    hself (hplain u (by simp))
  rw [hlast, ← List.cons_append] at hbehind hbehindMarked
  rw [hfirst] at hbefore hbeforeMarked
  intro parsed
  simp only [hc.parse_eq]
  exact ⟨hbehind.trans (ClassName.assemble_utilityLast _ _ _).1,
    hbefore.trans (ClassName.assemble_utilityFirst _ _ _).1,
    hbehindMarked.trans (ClassName.assemble_utilityLast _ _ _).2,
    hbeforeMarked.trans (ClassName.assemble_utilityFirst _ _ _).2⟩

/-- A compiler that knows `bg` alone. -/
def backgrounds : Compiler :=
  (serve Compiler.perform (Compiler.new {}) [.addUtility { name := "bg", handle := fun _ _ => .ok [] }]).2

theorem parse_either_direction_backgrounds :
    backgrounds.Reachable ∧
      (∀ t ∈ ["bg-[url(a:b)]", "[&:hover]", "dark"],
        Token.SelfContained t ∧ Text.beginsWith "!" t = false) ∧
      backgrounds.registry.isUtilityToken backgrounds.theme "bg-[url(a:b)]" = true ∧
      backgrounds.registry.isUtilityToken backgrounds.theme "[&:hover]" = false ∧
      (backgrounds.parse "[&:hover]:dark:bg-[url(a:b)]").1 =
        ⟨[⟨"[&:hover]", false, true⟩, .named "dark"],
          some { name := "bg", value := "url(a:b)", arbitrary := true }⟩ ∧
      (backgrounds.parse "!bg-[url(a:b)]:[&:hover]:dark").1 =
        ⟨[⟨"[&:hover]", false, true⟩, .named "dark"],
          some { name := "bg", value := "url(a:b)", arbitrary := true, important := true }⟩ := by
  have hreachable : backgrounds.Reachable := ⟨_, _, rfl⟩
  have htokens : ∀ t ∈ ["bg-[url(a:b)]", "[&:hover]", "dark"],
      Token.SelfContained t ∧ Text.beginsWith "!" t = false := by decide
  have hutility : backgrounds.registry.isUtilityToken backgrounds.theme "bg-[url(a:b)]" = true := by
    decide
  have hmodifier : backgrounds.registry.isUtilityToken backgrounds.theme "[&:hover]" = false := by
    decide
  have hread : backgrounds.registry.parseUtility? "bg-[url(a:b)]" =
      some { name := "bg", value := "url(a:b)", arbitrary := true } := by decide
  have hbehind : ":".intercalate (["[&:hover]", "dark"] ++ ["bg-[url(a:b)]"]) =
      "[&:hover]:dark:bg-[url(a:b)]" := by decide
  have hbefore : "!" ++ ":".intercalate ["bg-[url(a:b)]", "[&:hover]", "dark"] =
      "!bg-[url(a:b)]:[&:hover]:dark" := by decide
  have hparse := parse_either_direction hreachable (fun t ht => (htokens t ht).1)
    (fun t ht => (htokens t ht).2) hutility hmodifier
  simp only [hread, hbehind, hbefore] at hparse
  exact ⟨hreachable, htokens, hutility, hmodifier, hparse.1.trans (by decide),
    hparse.2.2.2.trans (by decide)⟩

end Compiler
end UtilityCss
