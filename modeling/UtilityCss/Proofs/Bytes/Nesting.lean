import UtilityCss.Proofs.Bytes.ClassName
import UtilityCss.Proofs.Bytes.Selector

/-!
# Nesting by bytes

Selector lists are read, put into each other and resolved by the scanners that go over bytes. Nothing is
sliced but where these scanners do it, and a trap in one of them would be a trap of the whole. There is none,
whatever the texts are: every function gives what the one on characters gives (`scanners_not_trapped`).
-/

namespace UtilityCss.Bytes

open Token (byteLength)
open Selector (appendToLast replaceLead withLead)

/-! ## Reading -/

/-- A text read as one selector, or the refused text with its fault. -/
def parse (s : String) : Except Trap (Except Rejection Selector) := do
  match ← read s.toList with
  | .ok sel => .ok (.ok sel)
  | .error fault => .ok (.error ⟨s, fault⟩)

/-- Texts read as selectors; the first one that is no selector is refused. -/
def parseAll : List (List Char) → Except Trap (Except Rejection (List Selector))
  | [] => .ok (.ok [])
  | m :: ms => do
    match ← parse (String.ofList (Text.trim m)) with
    | .error rejection => .ok (.error rejection)
    | .ok sel => do
      let rest ← parseAll ms
      .ok (rest.map (sel :: ·))

/-- A text read as a selector list. -/
def parseList (s : String) : Except Trap (Except Rejection (List Selector)) := do
  parseAll (← members s.toList)

theorem parse_eq_ok (s : String) : parse s = .ok (Selector.parse s) := by
  rw [parse, read_eq_ok, ok_bind, Selector.parse]
  cases Selector.read s.toList <;> rfl

theorem parseAll_eq_ok (ms : List (List Char)) :
    parseAll ms = .ok (ms.mapM fun m => Selector.parse (String.ofList (Text.trim m))) := by
  induction ms with
  | nil => rfl
  | cons m ms ih =>
    rw [parseAll, parse_eq_ok, ok_bind, List.mapM_cons]
    cases Selector.parse (String.ofList (Text.trim m)) with
    | error rejection => rfl
    | ok sel =>
      dsimp only
      rw [ih, ok_bind]
      rfl

theorem parseList_eq_ok (s : String) : parseList s = .ok (Selector.parseList s) := by
  rw [parseList, members_eq_ok, ok_bind, parseAll_eq_ok]
  rfl

/-! ## Nesting -/

/-- Whether some compound has an anchor. -/
def hasAnchor (sel : Selector) : Except Trap Bool := sel.parts.anyM fun p => containsAnchor p.compound

/-- The parts that a part of the template becomes. -/
def expandPart (outer : Selector) (p : Part) : Except Trap (List Part) := do
  if ← containsAnchor p.compound then
    match ← anchorSuffix? p.compound with
    | some t => .ok (appendToLast t (replaceLead p.combinator outer.parts))
    | none => do
      let compound ← replaceAnchors outer.inlineText p.compound
      .ok [{ p with compound := compound }]
  else .ok [p]

/-- The template `inner` with `outer` in place of its anchors. -/
def substitute (inner outer : Selector) : Except Trap Selector := do
  if ← hasAnchor inner then do
    let parts ← inner.parts.mapM (expandPart outer)
    .ok ⟨parts.flatten⟩
  else .ok ⟨outer.parts ++ withLead .descendant inner.parts⟩

/-- Every outer selector with every template, as one list. -/
def productText (outers inners : List Selector) : Except Trap (List Char) := do
  let texts ← outers.mapM fun o => inners.mapM fun i => do
    let sel ← substitute i o
    .ok sel.text
  .ok ([',', ' '].intercalate texts.flatten)

theorem hasAnchor_eq_ok (sel : Selector) : hasAnchor sel = .ok sel.hasAnchor := by
  have hparts : (fun p : Part => containsAnchor p.compound) = fun p => pure p.hasAnchor :=
    funext fun p => containsAnchor_eq_ok p.compound
  rw [hasAnchor, hparts]
  exact List.anyM_pure

theorem expandPart_eq_ok (outer : Selector) (p : Part) :
    expandPart outer p = .ok (Selector.expandPart outer p) := by
  rw [expandPart, Selector.expandPart, containsAnchor_eq_ok, ok_bind]
  show (if p.hasAnchor = true then _ else _) = _
  split
  · rw [anchorSuffix?_eq_ok, ok_bind]
    cases Anchor.suffix? p.compound with
    | some t => rfl
    | none => rw [replaceAnchors_eq_ok]; rfl
  · rfl

theorem substitute_eq_ok (inner outer : Selector) :
    substitute inner outer = .ok (inner.substitute outer) := by
  have hparts : expandPart outer = fun p => pure (Selector.expandPart outer p) :=
    funext fun p => expandPart_eq_ok outer p
  rw [substitute, Selector.substitute, hasAnchor_eq_ok, ok_bind, hparts, List.mapM_pure]
  split
  · rfl
  · rfl

theorem productText_eq_ok (outers inners : List Selector) :
    productText outers inners = .ok (Selector.productText outers inners) := by
  have hsel : ∀ o : Selector, (fun i : Selector => do
      let sel ← substitute i o
      .ok sel.text) = fun i => (pure (i.substitute o).text : Except Trap (List Char)) := by
    intro o
    funext i
    rw [substitute_eq_ok]
    rfl
  simp only [productText, hsel, List.mapM_pure]
  rw [Selector.productText, List.flatMap_def]
  rfl

/-! ## Resolution -/

/-- Two templates as one, if both have an anchor and can be read. -/
def compose (outer inner : String) : Except Trap (Option String) := do
  if !(← containsAnchor outer.toList) then .ok none
  else if !(← containsAnchor inner.toList) then .ok none
  else
    match ← parseList outer with
    | .error _ => .ok none
    | .ok outers =>
      match ← parseList inner with
      | .error _ => .ok none
      | .ok inners => do
        let text ← productText outers inners
        .ok (some (String.ofList text))

/-- Whether a text is one compound without a combinator. -/
def isCompoundText (s : String) : Except Trap Bool := do
  match ← parse s with
  | .ok sel => .ok sel.isCompound
  | .error _ => .ok false

/-- A template resolved against a parent as a text. -/
def resolveVerbatim (parent template : String) : Except Trap String := do
  if ← containsAnchor template.toList then do
    let simple ← isCompoundText parent
    let r := if simple then parent else ":is(" ++ parent ++ ")"
    let text ← replaceAnchors r.toList template.toList
    .ok (String.ofList text)
  else .ok (parent ++ " " ++ template)

/-- A template resolved against a parent. -/
def resolve (parent template : String) : Except Trap String := do
  match ← parseList parent, ← parseList template with
  | .ok outers, .ok inners => do
    let text ← productText outers inners
    .ok (String.ofList text)
  | _, _ => resolveVerbatim parent template

theorem compose_eq_ok (outer inner : String) : compose outer inner = .ok (Selector.compose outer inner) := by
  rw [compose, Selector.compose, containsAnchor_eq_ok, containsAnchor_eq_ok, parseList_eq_ok,
    parseList_eq_ok, ok_bind, ok_bind, ok_bind]
  cases Anchor.occurs outer.toList
  · rfl
  cases Anchor.occurs inner.toList
  · rfl
  cases Selector.parseList outer with
  | error _ => rfl
  | ok outers =>
    cases Selector.parseList inner with
    | error _ => rfl
    | ok inners =>
      simp [productText_eq_ok]

theorem isCompoundText_eq_ok (s : String) : isCompoundText s = .ok (Selector.isCompoundText s) := by
  rw [isCompoundText, parse_eq_ok, ok_bind, Selector.parse, Selector.isCompoundText]
  cases Selector.read s.toList <;> rfl

theorem resolveVerbatim_eq_ok (parent template : String) :
    resolveVerbatim parent template = .ok (Selector.resolveVerbatim parent template) := by
  rw [resolveVerbatim, Selector.resolveVerbatim, containsAnchor_eq_ok, isCompoundText_eq_ok, ok_bind, ok_bind]
  dsimp only
  rw [replaceAnchors_eq_ok]
  split <;> rfl

theorem resolve_eq_ok (parent template : String) :
    resolve parent template = .ok (Selector.resolve parent template) := by
  rw [resolve, Selector.resolve, parseList_eq_ok, parseList_eq_ok, ok_bind, ok_bind]
  cases Selector.parseList parent with
  | error _ => exact resolveVerbatim_eq_ok parent template
  | ok outers =>
    cases Selector.parseList template with
    | error _ => exact resolveVerbatim_eq_ok parent template
    | ok inners =>
      dsimp only
      rw [productText_eq_ok, ok_bind]

/-- **Scanning by bytes is never trapped.** Whatever the texts are, no slice is asked for but from one
boundary of characters up to the same or a later one, and every loop is done after as many steps as its text
has bytes; for each scanner then gives a result, which is the one on characters. -/
theorem scanners_not_trapped (reg : Registry) (s t : String) :
    (∀ u i j, (∃ w, slice u i j = .ok w) ↔
      i ≤ j ∧ j ≤ byteLength u ∧ IsBoundary u i ∧ IsBoundary u j) ∧
    tokenize s = .ok (Token.scan s) ∧
      parseUtility? reg s = .ok (reg.parseUtility? s) ∧
      parse s = .ok (Selector.parse s) ∧
      parseList s = .ok (Selector.parseList s) ∧
      containsAnchor s.toList = .ok (Anchor.occurs s.toList) ∧
      compose s t = .ok (Selector.compose s t) ∧
      resolve s t = .ok (Selector.resolve s t) ∧
      resolveVerbatim s t = .ok (Selector.resolveVerbatim s t) :=
  ⟨fun _ _ _ => exists_slice_eq_ok_iff, tokenize_eq_ok s, parseUtility?_eq_ok reg s, parse_eq_ok s,
    parseList_eq_ok s, containsAnchor_eq_ok s.toList, compose_eq_ok s t, resolve_eq_ok s t,
    resolveVerbatim_eq_ok s t⟩

end UtilityCss.Bytes
