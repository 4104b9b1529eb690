import UtilityCss.Catalogue.Value
import UtilityCss.Rule.Registry

/-!
# The basic catalogue

A plugin with colours, spacing, widths, a few fixed utilities and the usual variants: modifiers for states
and for widths of the screen, for queries of support and for selectors written out in the class name. No
variant has a negative use.
-/

namespace UtilityCss
namespace Catalogue

/-! ## Variants -/

/-- The states, with their templates. -/
def states : List (String × String) :=
  [("hover", "&:hover"), ("focus", "&:focus"), ("active", "&:active"),
    ("group-hover", ".group:hover &"), ("dark", ".dark &")]

/-- The screens, with their least widths where the theme has none. -/
def screens : List (String × String) :=
  [("sm", "640px"), ("md", "768px"), ("lg", "1024px"), ("xl", "1280px")]

/-- A text with spaces for underscores. -/
def spaced (s : String) : String :=
  String.ofList (s.toList.map fun c => if c = '_' then ' ' else c)

/-- The path with one more scope, unless there is none or the use is negative. -/
def addScope (m : Modifier) (path : Path) (scope : Option Scope) : Option Path :=
  if m.negative then none else scope.map fun s => path ++ [.scope s]

/-- A modifier for screens of a least width. -/
def screenModifier (name defaultWidth : String) : ModifierRule where
  name := name
  transform := fun m path θ =>
    let width := (θ.lookupText ["screens", name]).getD defaultWidth
    .ok (addScope m path (some (.atRule "media" ("(min-width: " ++ width ++ ")"))))

/-- The scope of a query of support; a bare condition is put into round brackets. -/
def supportsScope? (query : String) : Option Scope :=
  if query = "" then none
  else if Text.beginsWith "(" query || Text.beginsWith "not " query then
    some (.atRule "supports" query)
  else some (.atRule "supports" ("(" ++ query ++ ")"))

/-- The modifier for queries of support. -/
def supportsModifier : ModifierRule where
  name := "supports"
  accepts := fun s _ => Text.beginsWith "supports-[" s && Text.endsIn "]" s
  transform := fun m path _ =>
    .ok (addScope m path (m.argument? "supports" >>= fun arg => supportsScope? (spaced arg)))

/-- The scope of a selector that is written out, which must have an anchor. -/
def literalScope? (literal : String) : Option Scope :=
  let selector := spaced literal
  if Anchor.occurs selector.toList then some (.verbatim selector) else none

/-- The modifier for selectors that are written out. -/
def literalModifier : ModifierRule where
  name := "["
  accepts := fun s _ => 2 < s.utf8ByteSize && Text.beginsWith "[" s && Text.endsIn "]" s
  transform := fun m path _ => .ok (addScope m path (m.literal? >>= literalScope?))

/-- All variants, in order of registration. -/
def variants : List ModifierRule :=
  states.map (fun (name, template) => ModifierRule.selector name template) ++
    screens.map (fun (name, width) => screenModifier name width) ++
    [supportsModifier, literalModifier]

/-! ## Utilities -/

def paddings : List (String × String) :=
  [("p", "padding"), ("px", "padding-inline"), ("py", "padding-block"), ("pt", "padding-top"),
    ("pr", "padding-right"), ("pb", "padding-bottom"), ("pl", "padding-left")]

def margins : List (String × String) :=
  [("m", "margin"), ("mx", "margin-inline"), ("my", "margin-block"), ("mt", "margin-top"),
    ("mr", "margin-right"), ("mb", "margin-bottom"), ("ml", "margin-left")]

/-- The utilities without a value, with their declarations. -/
def fixedUtilities : List (String × Declaration) :=
  [("underline", ⟨"text-decoration-line", "underline"⟩), ("flex", ⟨"display", "flex"⟩),
    ("block", ⟨"display", "block"⟩), ("hidden", ⟨"display", "none"⟩)]

/-- All utilities, in order of registration. -/
def utilities : List UtilityRule :=
  [colorUtility "bg" "background-color", colorUtility "text" "color"] ++
    paddings.map (fun (name, property) => spacingUtility false name property) ++
    margins.map (fun (name, property) => spacingUtility true name property) ++
    [widthUtility] ++
    fixedUtilities.map fun (name, d) => { UtilityRule.fixed name [d] with category := "static" }

/-- The catalogue as a plugin. -/
def basic : Plugin where
  name := "basic"
  version := "0.1.0"
  description := "colours, spacing, sizing and common variants"
  register := fun reg => variants.foldl Registry.addModifier (utilities.foldl Registry.addUtility reg)

end Catalogue
end UtilityCss
