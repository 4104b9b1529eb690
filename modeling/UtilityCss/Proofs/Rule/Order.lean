import Mathlib.Data.List.Infix
import UtilityCss.Catalogue.Basic

/-!
# The order of the rules

However utility rules are registered, they are kept as the stable sort by falling length of their
names, and a look-up finds the longest name that is the token or stands before a dash in it
(`Registry.longestUtility?_ofUtilities`).

Two facts pin the kept list down: it is `Falling`, and for every length it has the rules with a name of
that length in their order of registration. Each registration keeps both, and no two lists share them
(`eq_of_ofLength_eq`). A look-up stops at the first name that fits. What stands behind it is no longer,
and what stands before it could only have fitted as the whole token, which is asked for first.

No two utilities of the basic catalogue share a name, so in a registry that holds nothing but the catalogue
each of them is found under its name.
-/

namespace UtilityCss

/-! ## Names in a token -/

/-- Whether a token is a use of a name with a value: the name alone, which has the empty value, or the
name and the value with a dash between them. -/
def IsUseOf (name token value : String) : Prop :=
  token = name ∧ value = "" ∨ token = name ++ "-" ++ value

theorem exists_isUseOf_iff {name token : String} :
    (∃ value, IsUseOf name token value) ↔
      token = name ∨ Text.beginsWith (name ++ "-") token = true := by
  rw [Text.beginsWith_iff]
  constructor
  · rintro ⟨value, ⟨h, -⟩ | h⟩
    · exact .inl h
    · exact .inr ⟨value, h⟩
  · rintro (h | ⟨value, h⟩)
    · exact ⟨"", .inl ⟨h, rfl⟩⟩
    · exact ⟨value, .inr h⟩

namespace IsUseOf

variable {name name' token value value' : String}

theorem exists_eq_append (h : IsUseOf name token value) : ∃ rest, token = name ++ rest := by
  obtain ⟨rfl, -⟩ | rfl := h
  · exact ⟨"", String.append_empty.symm⟩
  · exact ⟨"-" ++ value, String.append_assoc⟩

theorem name_length_le (h : IsUseOf name token value) : name.utf8ByteSize ≤ token.utf8ByteSize := by
  obtain ⟨rest, rfl⟩ := h.exists_eq_append
  rw [String.utf8ByteSize_append]
  omega

theorem name_ne_valued (name value : String) : name ≠ name ++ "-" ++ value := by
  intro h
  have hlength := congrArg String.utf8ByteSize h
  have hdash : "-".utf8ByteSize = 1 := rfl
  rw [String.utf8ByteSize_append, String.utf8ByteSize_append] at hlength
  omega

theorem value_unique (h : IsUseOf name token value) (h' : IsUseOf name token value') :
    value = value' := by
  obtain ⟨rfl, rfl⟩ | rfl := h
  · obtain ⟨-, rfl⟩ | h' := h'
    · rfl
    · exact absurd h' (name_ne_valued _ _)
  · obtain ⟨h', -⟩ | h' := h'
    · exact absurd h'.symm (name_ne_valued _ _)
    · exact (String.append_right_inj _).mp h'

theorem name_unique (h : IsUseOf name token value) (h' : IsUseOf name' token value')
    (hlength : name.utf8ByteSize = name'.utf8ByteSize) : name = name' := by
  -- One name is a beginning of the other, and nothing is left behind it.
  have hwhole {a b : String} (hab : a.toList <+: b.toList)
      (hlen : a.utf8ByteSize = b.utf8ByteSize) : a = b := by
    obtain ⟨r, hr⟩ := hab
    obtain rfl : b = a ++ String.ofList r := String.toList_injective (by simpa using hr.symm)
    rw [String.utf8ByteSize_append] at hlen
    obtain hempty : String.ofList r = "" := String.utf8ByteSize_eq_zero_iff.mp (by omega)
    rw [hempty, String.append_empty]
  have hbegins {n v : String} (hn : IsUseOf n token v) : n.toList <+: token.toList := by
    obtain ⟨rest, rfl⟩ := hn.exists_eq_append
    exact ⟨rest.toList, by simp⟩
  rcases List.prefix_or_prefix_of_prefix (hbegins h) (hbegins h') with hab | hba
  · exact hwhole hab hlength
  · exact (hwhole hba hlength.symm).symm

end IsUseOf

/-! ## Sorted rules -/

/-- Whether the lengths of the names never rise. -/
def Falling (rules : List UtilityRule) : Prop :=
  rules.Pairwise fun r s => s.name.utf8ByteSize ≤ r.name.utf8ByteSize

/-- The rules with a name of a length, in their order. -/
def ofLength (n : Nat) (rules : List UtilityRule) : List UtilityRule :=
  rules.filter fun r => r.name.utf8ByteSize == n

theorem ofLength_cons (n : Nat) (r : UtilityRule) (rules : List UtilityRule) :
    ofLength n (r :: rules) =
      if r.name.utf8ByteSize = n then r :: ofLength n rules else ofLength n rules := by
  simp [ofLength, List.filter_cons]

theorem mem_ofLength {n : Nat} {r : UtilityRule} {rules : List UtilityRule} :
    r ∈ ofLength n rules ↔ r ∈ rules ∧ r.name.utf8ByteSize = n := by
  simp [ofLength]

theorem mem_iff_of_ofLength_eq {rules rules' : List UtilityRule}
    (h : ∀ n, ofLength n rules = ofLength n rules') (r : UtilityRule) : r ∈ rules ↔ r ∈ rules' := by
  have hmem : r ∈ ofLength r.name.utf8ByteSize rules ↔ r ∈ ofLength r.name.utf8ByteSize rules' := by
    rw [h]
  simpa [mem_ofLength] using hmem

theorem find?_name_of_ofLength_eq {rules rules' : List UtilityRule}
    (h : ∀ n, ofLength n rules = ofLength n rules') (name : String) :
    rules.find? (fun r => r.name == name) = rules'.find? (fun r => r.name == name) := by
  -- rules of one name have one length, so their order is that among the rules of this length
  have hfind (rs : List UtilityRule) : rs.find? (fun r => r.name == name) =
      (ofLength name.utf8ByteSize rs).find? fun r => r.name == name := by
    rw [ofLength, List.find?_filter]
    congr 1
    funext r
    by_cases hr : r.name = name <;> simp [hr]
  rw [hfind rules, hfind rules', h]

/-- Falling lists are told apart by their rules of some length. -/
theorem Falling.eq_of_ofLength_eq {rules rules' : List UtilityRule} (hfall : Falling rules)
    (hfall' : Falling rules') (h : ∀ n, ofLength n rules = ofLength n rules') : rules = rules' := by
  induction rules generalizing rules' with
  | nil =>
    refine (List.eq_nil_iff_forall_not_mem.mpr fun r hr => ?_).symm
    simpa using (mem_iff_of_ofLength_eq h r).mpr hr
  | cons r rules ih =>
    cases rules' with
    | nil => simpa using (mem_iff_of_ofLength_eq h r).mp (by simp)
    | cons s rules' =>
      have hle {a b : UtilityRule} {rs : List UtilityRule} (hrs : Falling (a :: rs))
          (hb : b ∈ a :: rs) : b.name.utf8ByteSize ≤ a.name.utf8ByteSize := by
        rcases List.mem_cons.mp hb with rfl | hb
        · exact le_rfl
        · exact (List.pairwise_cons.mp hrs).1 b hb
      -- Both lists begin with a longest name.
      have hlength : s.name.utf8ByteSize = r.name.utf8ByteSize :=
        le_antisymm (hle hfall ((mem_iff_of_ofLength_eq h s).mpr (by simp)))
          (hle hfall' ((mem_iff_of_ofLength_eq h r).mp (by simp)))
      have hhead := h r.name.utf8ByteSize
      rw [ofLength_cons, if_pos rfl, ofLength_cons, if_pos hlength] at hhead
      obtain ⟨rfl, htail⟩ := List.cons.inj hhead
      rw [ih hfall.of_cons hfall'.of_cons fun n => ?_]
      have hn := h n
      rw [ofLength_cons, ofLength_cons] at hn
      split at hn
      · exact (List.cons.inj hn).2
      · exact hn

/-! ## Registering -/

namespace Registry

theorem mem_insertByLength {rule r : UtilityRule} {rules : List UtilityRule} :
    r ∈ insertByLength rule rules ↔ r = rule ∨ r ∈ rules := by
  induction rules with
  | nil => simp [insertByLength]
  | cons s rules ih =>
    rw [insertByLength]
    split
    · simp
    · rw [List.mem_cons, ih, List.mem_cons]
      tauto

theorem falling_insertByLength (rule : UtilityRule) {rules : List UtilityRule}
    (h : Falling rules) : Falling (insertByLength rule rules) := by
  induction rules with
  | nil => exact List.pairwise_singleton _ _
  | cons s rules ih =>
    obtain ⟨hs, htail⟩ := List.pairwise_cons.mp h
    rw [insertByLength]
    split
    · next hshort =>
      refine List.pairwise_cons.mpr ⟨fun r hr => ?_, h⟩
      rcases List.mem_cons.mp hr with rfl | hr
      · exact hshort.le
      · exact (hs r hr).trans hshort.le
    · next hlong =>
      refine List.pairwise_cons.mpr ⟨fun r hr => ?_, ih htail⟩
      rcases mem_insertByLength.mp hr with rfl | hr
      · exact not_lt.mp hlong
      · exact hs r hr

theorem ofLength_insertByLength (rule : UtilityRule) {rules : List UtilityRule} (h : Falling rules)
    (n : Nat) : ofLength n (insertByLength rule rules) = ofLength n (rules ++ [rule]) := by
  induction rules with
  | nil => rfl
  | cons s rules ih =>
    obtain ⟨hs, htail⟩ := List.pairwise_cons.mp h
    rw [insertByLength, List.cons_append]
    split
    · next hshort =>
      -- All further names are shorter than that of the rule, so at its length there are none.
      have hnone (hn : rule.name.utf8ByteSize = n) : ofLength n (s :: rules) = [] := by
        refine List.eq_nil_iff_forall_not_mem.mpr fun r hr => ?_
        obtain ⟨hr, hlength⟩ := mem_ofLength.mp hr
        rcases List.mem_cons.mp hr with rfl | hr
        · omega
        · have := hs r hr
          omega
      have happend : ofLength n (s :: (rules ++ [rule])) =
          ofLength n (s :: rules) ++ ofLength n [rule] := by
        rw [← List.cons_append]
        exact List.filter_append ..
      rw [happend, ofLength_cons, ofLength_cons n rule []]
      split
      · next hn => rw [hnone hn]; rfl
      · exact (List.append_nil _).symm
    · rw [ofLength_cons, ofLength_cons, ih htail]

/-- The registry after utility rules were registered one after the other. -/
def ofUtilities (rules : List UtilityRule) : Registry := rules.foldl addUtility empty

theorem ofUtilities_concat (rules : List UtilityRule) (rule : UtilityRule) :
    ofUtilities (rules ++ [rule]) = (ofUtilities rules).addUtility rule := by
  rw [ofUtilities, List.foldl_append]
  rfl

theorem utilities_ofUtilities (rules : List UtilityRule) :
    Falling (ofUtilities rules).utilities ∧
      ∀ n, ofLength n (ofUtilities rules).utilities = ofLength n rules := by
  induction rules using List.reverseRecOn with
  | nil => exact ⟨List.Pairwise.nil, fun n => rfl⟩
  | append_singleton rules rule ih =>
    obtain ⟨hfall, hlength⟩ := ih
    rw [ofUtilities_concat]
    refine ⟨falling_insertByLength rule hfall, fun n => ?_⟩
    calc ofLength n (insertByLength rule (ofUtilities rules).utilities)
        = ofLength n (ofUtilities rules).utilities ++ ofLength n [rule] := by
          rw [ofLength_insertByLength rule hfall, ofLength, List.filter_append]
          rfl
      _ = ofLength n (rules ++ [rule]) := by
          rw [hlength, ofLength, ofLength, ofLength, List.filter_append]

end Registry

/-! ## Sorting -/

/-- Whether the first name is at least as long as the second. -/
def noShorter (r s : UtilityRule) : Bool := decide (s.name.utf8ByteSize ≤ r.name.utf8ByteSize)

/-- The rules sorted by falling length of their names; equally long ones keep their order. -/
def byLength (rules : List UtilityRule) : List UtilityRule := rules.mergeSort noShorter

theorem noShorter_iff {r s : UtilityRule} :
    noShorter r s = true ↔ s.name.utf8ByteSize ≤ r.name.utf8ByteSize := decide_eq_true_iff

theorem noShorter_trans (a b c : UtilityRule) (hab : noShorter a b = true)
    (hbc : noShorter b c = true) : noShorter a c = true :=
  noShorter_iff.mpr ((noShorter_iff.mp hbc).trans (noShorter_iff.mp hab))

theorem noShorter_total (a b : UtilityRule) : (noShorter a b || noShorter b a) = true := by
  simpa [noShorter_iff] using le_total b.name.utf8ByteSize a.name.utf8ByteSize

theorem falling_byLength (rules : List UtilityRule) : Falling (byLength rules) :=
  (List.pairwise_mergeSort noShorter_trans noShorter_total rules).imp noShorter_iff.mp

theorem ofLength_byLength (rules : List UtilityRule) (n : Nat) :
    ofLength n (byLength rules) = ofLength n rules := by
  have hsorted : (ofLength n rules).Pairwise fun r s => noShorter r s = true :=
    List.pairwise_of_forall_mem_list fun r hr s hs => by
      rw [noShorter_iff, (mem_ofLength.mp hr).2, (mem_ofLength.mp hs).2]
  -- A part that is in order already is left as it is, and there are no other rules of this length.
  have hkept : (ofLength n rules).Sublist (byLength rules) :=
    List.sublist_mergeSort noShorter_trans noShorter_total hsorted List.filter_sublist
  have hsub : (ofLength n (ofLength n rules)).Sublist (ofLength n (byLength rules)) :=
    hkept.filter _
  have hidem : ofLength n (ofLength n rules) = ofLength n rules := by
    simp [ofLength, List.filter_filter]
  rw [hidem] at hsub
  exact (hsub.eq_of_length ((List.mergeSort_perm rules _).filter _).length_eq.symm).symm

/-! ## Looking up -/

namespace Registry

variable {reg : Registry} {token value : String} {r : UtilityRule}

theorem bind_after?_eq_some_iff {name : String} :
    (Text.after? name token >>= Text.after? "-") = some value ↔ token = name ++ "-" ++ value := by
  simp only [Option.bind_eq_bind, Option.bind_eq_some_iff, Text.after?_eq_some_iff]
  constructor
  · rintro ⟨rest, rfl, rfl⟩
    exact String.append_assoc.symm
  · rintro rfl
    exact ⟨"-" ++ value, String.append_assoc, rfl⟩

theorem findUtility?_name (h : reg.findUtility? token = some r) : r.name = token := by
  simpa using List.find?_some h

theorem name_ne_of_findUtility?_eq_none (h : reg.findUtility? token = none) :
    ∀ r ∈ reg.utilities, r.name ≠ token := by
  simpa [findUtility?] using h

theorem longestUtility?_eq_none_iff :
    reg.longestUtility? token = none ↔ ∀ r ∈ reg.utilities, ∀ value, ¬ IsUseOf r.name token value := by
  have hvalue (name : String) : (Text.after? name token >>= Text.after? "-") = none ↔
      ∀ value, ¬ token = name ++ "-" ++ value := by
    simp only [Option.eq_none_iff_forall_ne_some, ne_eq, bind_after?_eq_some_iff]
  unfold longestUtility?
  cases hfind : reg.findUtility? token with
  | some s =>
    refine iff_of_false (by simp) fun h => ?_
    exact h s (List.mem_of_find?_eq_some hfind) "" (.inl ⟨(findUtility?_name hfind).symm, rfl⟩)
  | none =>
    have hexact := name_ne_of_findUtility?_eq_none hfind
    simp only [List.findSome?_eq_none_iff, Option.map_eq_none_iff, hvalue]
    constructor
    · rintro h r hr value (⟨htoken, -⟩ | htoken)
      · exact hexact r hr htoken.symm
      · exact h r hr value htoken
    · exact fun h r hr value htoken => h r hr value (.inr htoken)

theorem longestUtility?_spec (h : reg.longestUtility? token = some (r, value)) :
    IsUseOf r.name token value ∧ reg.findUtility? r.name = some r ∧
      (Falling reg.utilities → ∀ s ∈ reg.utilities, ∀ v, IsUseOf s.name token v →
        s.name.utf8ByteSize ≤ r.name.utf8ByteSize) := by
  unfold longestUtility? at h
  cases hfind : reg.findUtility? token with
  | some s =>
    rw [hfind] at h
    obtain ⟨rfl, rfl⟩ := Prod.mk.inj (Option.some.inj h)
    have hname := findUtility?_name hfind
    refine ⟨.inl ⟨hname.symm, rfl⟩, by rw [hname, hfind], fun _ s _ v hs => ?_⟩
    rw [hname]
    exact hs.name_length_le
  | none =>
    rw [hfind] at h
    have hexact := name_ne_of_findUtility?_eq_none hfind
    obtain ⟨before, s, behind, hsplit, hs, hbefore⟩ := List.findSome?_eq_some_iff.mp h
    obtain ⟨v, hv, heq⟩ := Option.map_eq_some_iff.mp hs
    obtain ⟨rfl, rfl⟩ := Prod.mk.inj heq
    have htoken := bind_after?_eq_some_iff.mp hv
    -- A rule before the one that was found has a name that does not fit.
    have hmiss : ∀ r ∈ before, ∀ w, ¬ IsUseOf r.name token w := by
      rintro r hr w (⟨hr', -⟩ | hr')
      · exact hexact r (by simp [hsplit, hr]) hr'.symm
      · have hnone := Option.map_eq_none_iff.mp (hbefore r hr)
        rw [bind_after?_eq_some_iff.mpr hr'] at hnone
        cases hnone
    refine ⟨.inr htoken, ?_, fun hfall r hr w hw => ?_⟩
    · rw [findUtility?, List.find?_eq_some_iff_append]
      refine ⟨by simp, before, behind, hsplit, fun r hr => ?_⟩
      have hne : r.name ≠ s.name := fun hname => hmiss r hr v (.inr (by rw [hname, htoken]))
      simpa using hne
    · rw [hsplit] at hr hfall
      rcases List.mem_append.mp hr with hr | hr
      · exact absurd hw (hmiss r hr w)
      · rcases List.mem_cons.mp hr with rfl | hr
        · exact le_rfl
        · exact (List.pairwise_cons.mp (List.pairwise_append.mp hfall).2.1).1 r hr

/-- **The longest name wins, whatever the order of registration.** The rules of a registry are the
registered ones, sorted stably by falling length of their names. A look-up finds a rule exactly if some
registered name is the token or stands before a dash in it; and it finds the rule that was registered first
under the longest such name, with what stands behind that dash as the value. -/
theorem longestUtility?_ofUtilities (rules : List UtilityRule) (token : String) :
    (ofUtilities rules).utilities = byLength rules ∧
    (((ofUtilities rules).longestUtility? token).isSome = true ↔
      ∃ r ∈ rules, token = r.name ∨ Text.beginsWith (r.name ++ "-") token = true) ∧
    ∀ r value, (ofUtilities rules).longestUtility? token = some (r, value) ↔
      IsUseOf r.name token value ∧ rules.find? (fun s => s.name == r.name) = some r ∧
        ∀ s ∈ rules, token = s.name ∨ Text.beginsWith (s.name ++ "-") token = true →
          s.name.utf8ByteSize ≤ r.name.utf8ByteSize := by
  obtain ⟨hfall, hlength⟩ := utilities_ofUtilities rules
  have hmem := mem_iff_of_ofLength_eq hlength
  have hfind := find?_name_of_ofLength_eq hlength
  have hspec {r : UtilityRule} {value : String}
      (h : (ofUtilities rules).longestUtility? token = some (r, value)) :
      IsUseOf r.name token value ∧ rules.find? (fun s => s.name == r.name) = some r ∧
        ∀ s ∈ rules, token = s.name ∨ Text.beginsWith (s.name ++ "-") token = true →
          s.name.utf8ByteSize ≤ r.name.utf8ByteSize := by
    obtain ⟨huse, hfirst, hlongest⟩ := longestUtility?_spec h
    refine ⟨huse, (hfind r.name).symm.trans hfirst, fun s hs hfits => ?_⟩
    obtain ⟨v, hv⟩ := exists_isUseOf_iff.mpr hfits
    exact hlongest hfall s ((hmem s).mpr hs) v hv
  have hsome : ((ofUtilities rules).longestUtility? token).isSome = true ↔
      ∃ r ∈ rules, ∃ value, IsUseOf r.name token value := by
    rw [Option.isSome_iff_ne_none, ne_eq, longestUtility?_eq_none_iff]
    simp [hmem]
  refine ⟨hfall.eq_of_ofLength_eq (falling_byLength rules) fun n => ?_, ?_, fun r value => ⟨hspec, ?_⟩⟩
  · rw [hlength, ofLength_byLength]
  · simp only [hsome, exists_isUseOf_iff]
  · rintro ⟨huse, hfirst, hlongest⟩
    have hr : r ∈ rules := List.mem_of_find?_eq_some hfirst
    obtain ⟨⟨s, v⟩, hs⟩ := Option.isSome_iff_exists.mp (hsome.mpr ⟨r, hr, value, huse⟩)
    obtain ⟨huse', hfirst', hlongest'⟩ := hspec hs
    -- Both names are longest, so they are the same.
    have hname : r.name = s.name := huse.name_unique huse' <| le_antisymm
      (hlongest' r hr (exists_isUseOf_iff.mp ⟨value, huse⟩))
      (hlongest s (List.mem_of_find?_eq_some hfirst') (exists_isUseOf_iff.mp ⟨v, huse'⟩))
    rw [hname, hfirst'] at hfirst
    obtain rfl := Option.some.inj hfirst
    rw [hs, huse.value_unique huse']

end Registry

/-! ## The basic catalogue -/

theorem find?_name_of_mem {rules : List UtilityRule} (hnodup : (rules.map (·.name)).Nodup)
    {r : UtilityRule} (hr : r ∈ rules) : rules.find? (fun s => s.name == r.name) = some r := by
  induction rules with
  | nil => cases hr
  | cons s rules ih =>
    obtain ⟨hs, hrest⟩ := List.nodup_cons.mp hnodup
    rcases List.mem_cons.mp hr with rfl | hr
    · simp
    · have hmem : r.name ∈ rules.map (·.name) := List.mem_map_of_mem hr
      have hne : s.name ≠ r.name := fun hname => hs (by simpa [hname] using hmem)
      rw [List.find?_cons_of_neg (by simpa using hne)]
      exact ih hrest hr

theorem Registry.foldl_addModifier (reg : Registry) (rules : List ModifierRule) :
    rules.foldl addModifier reg = { reg with modifiers := reg.modifiers ++ rules } := by
  induction rules generalizing reg with
  | nil => rw [List.foldl_nil, List.append_nil]
  | cons rule rules ih =>
    rw [List.foldl_cons, ih]
    simp [addModifier]

namespace Catalogue

/-- The registry with the catalogue alone. -/
def rules : Registry := basic.register .empty

theorem rules_eq : rules = ⟨(Registry.ofUtilities utilities).utilities, variants⟩ := by
  have hmodifiers : (Registry.ofUtilities utilities).modifiers = [] := by decide
  show variants.foldl Registry.addModifier (Registry.ofUtilities utilities) = _
  rw [Registry.foldl_addModifier, hmodifiers, List.nil_append]

theorem mem_utilities_rules {r : UtilityRule} : r ∈ rules.utilities ↔ r ∈ utilities := by
  rw [rules_eq]
  exact mem_iff_of_ofLength_eq (Registry.utilities_ofUtilities utilities).2 r

theorem findUtility?_rules {r : UtilityRule} (h : r ∈ utilities) : rules.findUtility? r.name = some r := by
  have hnodup : (utilities.map (·.name)).Nodup := by decide
  rw [rules_eq]
  exact (find?_name_of_ofLength_eq (Registry.utilities_ofUtilities utilities).2 r.name).trans
    (find?_name_of_mem hnodup h)

end Catalogue
end UtilityCss
