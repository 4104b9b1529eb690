import UtilityCss.Number.Double
import UtilityCss.Rule.Basic
import UtilityCss.Text.Split
import UtilityCss.Text.Character

/-!
# Values of the basic catalogue

The forms of values that the catalogue tells apart are numbers, lengths and fractions, in the decimal
digits of any script, and the percentage that a number stands for.

A colour is an arbitrary value or a custom property, or else a colour of the theme, by its name or
by its base and shade, or one of a few names. An opacity mixes it with transparency. A space is an
arbitrary value or a custom property, or else a space of the theme, a keyword, or a number of spacing
units. A margin may be negative. A width is a keyword, a fraction or a space.
-/

namespace UtilityCss

/-! ## Measures -/

namespace Measure

/-- Whether a text is made of digits, and of at least one. -/
def isDigits (s : List Char) : Bool := !s.isEmpty && s.all Text.isDecimalDigit

/-- Whether a text is a number: digits, with a point before further digits or not, or a point and
digits. -/
def isNumber (s : List Char) : Bool :=
  match s.dropWhile Text.isDecimalDigit with
  | [] => !s.isEmpty
  | '.' :: decimals => isDigits decimals
  | _ => false

/-- The units of length, and the percent sign. -/
def units : List String :=
  ["px", "rem", "em", "ch", "ex", "vh", "vw", "vmin", "vmax", "dvh", "svh", "lvh", "cm", "mm", "in",
    "pt", "pc", "%"]

/-- Whether a character can stand in a number. -/
def isNumeric (c : Char) : Bool := Text.isDecimalDigit c || c == '.'

/-- Whether a text is a number with a unit. -/
def isLength (s : List Char) : Bool :=
  isNumber (s.takeWhile isNumeric) && String.ofList (s.dropWhile isNumeric) ∈ units

/-- Whether a text is a fraction of two integers. -/
def isFraction (s : List Char) : Bool :=
  match Text.cutFirst? ['/'] s with
  | some (a, b) => isDigits a && isDigits b
  | none => false

/-- The value of a number as a fraction, if its digits are the ASCII ones. -/
def ratio? (s : List Char) : Option (Nat × Nat) :=
  let (whole, decimals) := (Text.cutFirst? ['.'] s).getD (s, [])
  if (whole ++ decimals).all Char.isDigit then
    let value := (whole ++ decimals).foldl (fun n c => 10 * n + (c.toNat - '0'.toNat)) 0
    some (value, Nat.pow 10 decimals.length)
  else none

/-- A hundred times a number, to four places. -/
def percent? (s : List Char) : Option (List Char) :=
  (ratio? s).map fun (num, den) => ((Double.nearest num den).mul (.ofNat 100)).shortFixedText 4

end Measure

/-! ## Colours -/

namespace Catalogue

/-- The colours known without a theme. -/
def namedColors : List (String × String) :=
  [("transparent", "transparent"), ("current", "currentColor"), ("inherit", "inherit"),
    ("black", "#000"), ("white", "#fff"), ("red", "#ef4444"), ("green", "#22c55e"),
    ("blue", "#3b82f6"), ("yellow", "#eab308"), ("gray", "#6b7280")]

/-- Whether a value is taken as it is written. -/
def isLiteral (u : Utility) : Bool := u.arbitrary || u.customProperty

/-- The value and the opacity of a utility; a named value has its opacity behind a slash. -/
def splitOpacity (u : Utility) : String × String :=
  if isLiteral u then (u.value, u.opacity)
  else
    match Text.cutFirst? ['/'] u.value.toList with
    | some (value, opacity) => (String.ofList value, String.ofList opacity)
    | none => (u.value, "")

/-- A shade of a colour of the theme, written behind the last dash. -/
def shade? (θ : Theme) (value : String) : Option String := do
  let (base, shade) ← Text.cutLast? '-' value.toList
  θ.lookupText ["colors", String.ofList base, String.ofList shade]

/-- The colour that a value names. -/
def color? (θ : Theme) (u : Utility) (value : String) : Option String :=
  if isLiteral u then some u.resolvedValue
  else if value = "" then none
  else θ.lookupText ["colors", value] <|> shade? θ value <|> namedColors.lookup value

/-- The percentage of an opacity: a number of percents, or in square brackets a percentage or a
share of one. -/
def opacityPercent? (opacity : String) : Option String :=
  if Measure.isNumber opacity.toList then some (opacity ++ "%")
  else do
    let inner ← Text.after? "[" opacity >>= Text.before? "]"
    if (Text.before? "%" inner).any fun s => Measure.isNumber s.toList then some inner
    else if Measure.isNumber inner.toList then
      (Measure.percent? inner.toList).map fun p => String.ofList p ++ "%"
    else none

/-- The colour with its opacity. -/
def colorValue? (θ : Theme) (u : Utility) : Option String := do
  let (value, opacity) := splitOpacity u
  let color ← color? θ u value
  if opacity = "" then some color
  else
    let percent ← opacityPercent? opacity
    some ("color-mix(in oklab, " ++ color ++ " " ++ percent ++ ", transparent)")

/-- A utility that sets a property to a colour. -/
def colorUtility (name property : String) : UtilityRule where
  name := name
  category := "color"
  priority := 10
  handle := fun u θ =>
    .ok (if u.negative then [] else ((colorValue? θ u).map fun v => .decl ⟨property, v⟩).toList)

/-! ## Spaces and widths -/

/-- The space that a utility names. -/
def spacing? (θ : Theme) (u : Utility) : Option String :=
  if isLiteral u then some u.resolvedValue
  else
    match θ.lookupText ["spacing", u.value] with
    | some v => some v
    | none =>
      if u.value = "0" then some "0"
      else if u.value = "px" then some "1px"
      else if u.value = "auto" then some "auto"
      else if Measure.isNumber u.value.toList then
        some ("calc(var(--spacing) * " ++ u.value ++ ")")
      else none

/-- The opposite of a space. -/
def negate (value : String) : String :=
  if value = "0" then value
  else if Measure.isLength value.toList then "-" ++ value
  else "calc(" ++ value ++ " * -1)"

/-- A utility that sets a property to a space. -/
def spacingUtility (allowNegative : Bool) (name property : String) : UtilityRule where
  name := name
  category := "spacing"
  handle := fun u θ =>
    .ok (if u.negative && !allowNegative then []
      else ((spacing? θ u).map fun v =>
        .decl ⟨property, if u.negative then negate v else v⟩).toList)

/-- The width that a utility names. -/
def width? (θ : Theme) (u : Utility) : Option String :=
  if u.negative then none
  else if u.value = "full" then some "100%"
  else if u.value = "screen" then some "100vw"
  else if Measure.isFraction u.value.toList && !u.arbitrary then
    some ("calc(" ++ u.value ++ " * 100%)")
  else (spacing? θ u).filter fun v => v != "auto" || u.value == "auto"

/-- The utility that sets a width. -/
def widthUtility : UtilityRule where
  name := "w"
  category := "sizing"
  handle := fun u θ => .ok ((width? θ u).map fun v => .decl ⟨"width", v⟩).toList

end Catalogue
end UtilityCss
