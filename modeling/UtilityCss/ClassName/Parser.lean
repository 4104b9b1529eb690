import UtilityCss.ClassName.Basic
import UtilityCss.Rule.Registry

/-!
# Taking a class name apart

A class name is written in either direction: modifiers before the utility, or the utility before its
modifiers. The first of several tokens decides: if it is a utility, it is the utility of the class
name, and else the last token is. A leading `!` marks the declarations as important.

A utility is read by its registration where there is one: the longest registered name counts. A
token that nothing is registered for is cut at its first dash.
-/

namespace UtilityCss

/-- The text between an opening bracket, which has been read, and the one that closes it, and the
text behind that one; `depth` brackets are open inside. -/
def closeBracket? (opener closer : Char) (depth : Nat) : List Char → Option (List Char × List Char)
  | [] => none
  | c :: s =>
    if c = closer then
      match depth with
      | 0 => some ([], s)
      | d + 1 => (closeBracket? opener closer d s).map fun (a, b) => (c :: a, b)
    else
      let inside := if c = opener then depth + 1 else depth
      (closeBracket? opener closer inside s).map fun (a, b) => (c :: a, b)

/-- The value and the opacity in a text behind an opening bracket: the opacity follows a slash right
behind the closing bracket. Without a closing bracket the whole text is the value. -/
def splitBracketed (opener closer : Char) (s : List Char) : List Char × List Char :=
  match closeBracket? opener closer 0 s with
  | some (value, '/' :: opacity) => (value, opacity)
  | some (value, _) => (value, [])
  | none => (s, [])

namespace Registry

/-- The utility with the category and the priority of the rule of its name. -/
def withRegistration (reg : Registry) (u : Utility) : Utility :=
  match reg.findUtility? u.name with
  | some r => { u with category := r.category, priority := r.priority }
  | none => u

/-- A token without its leading dash read as a utility. -/
def readUtility? (reg : Registry) (negative : Bool) (bare : String) : Option Utility :=
  if bare = "" || Text.beginsWith "[" bare || Text.beginsWith "(" bare then none
  else
    match Text.cutFirst? ['-', '['] bare.toList, Text.cutFirst? ['-', '('] bare.toList with
    | some (name, rest), _ =>
      let (value, opacity) := splitBracketed '[' ']' rest
      some (reg.withRegistration
        { name := String.ofList name, value := String.ofList value, arbitrary := true
          negative := negative, opacity := String.ofList opacity })
    | none, some (name, rest) =>
      let (value, opacity) := splitBracketed '(' ')' rest
      some (reg.withRegistration
        { name := String.ofList name, value := String.ofList value, customProperty := true
          negative := negative, opacity := String.ofList opacity })
    | none, none =>
      match reg.longestUtility? bare with
      | some (r, value) =>
        some { name := r.name, value := value, negative := negative
               category := r.category, priority := r.priority }
      | none =>
        let (name, value) := (Text.cutFirst? ['-'] bare.toList).getD (bare.toList, [])
        some { name := String.ofList name, value := String.ofList value, negative := negative }

/-- A token read as a utility. -/
def parseUtility? (reg : Registry) (token : String) : Option Utility :=
  match Text.after? "-" token with
  | some bare => reg.readUtility? true bare
  | none => reg.readUtility? false token

end Registry

namespace ClassName

/-- Whether a class name is marked as important. -/
def isImportant (raw : String) : Bool := Text.beginsWith "!" raw

/-- The tokens of a class name, without its mark. -/
def tokens (raw : String) : List String :=
  (Token.scan ((Text.after? "!" raw).getD raw)).map (·.text)

/-- The token that decides the direction of a class name. -/
def leader? : List String → Option String
  | first :: _ :: _ => some first
  | _ => none

/-- The class name of some tokens, the first of which is the utility if `utilityFirst`. -/
def assemble (reg : Registry) (important utilityFirst : Bool) (tokens : List String) : ClassName :=
  let mark (u : Utility) : Utility := if important then { u with important := true } else u
  let utilityOf (token : String) : Option Utility := (reg.parseUtility? token).map mark
  match tokens with
  | [] => ⟨[], none⟩
  | first :: rest =>
    if utilityFirst then ⟨rest.map Modifier.ofToken, utilityOf first⟩
    else ⟨(first :: rest).dropLast.map Modifier.ofToken,
      utilityOf ((first :: rest).getLast (by simp))⟩

/-- A class name taken apart under the rules of a registry. -/
def parse (reg : Registry) (θ : Theme) (raw : String) : ClassName :=
  let utilityFirst :=
    match leader? (tokens raw) with
    | some first => reg.isUtilityToken θ first
    | none => false
  assemble reg (isImportant raw) utilityFirst (tokens raw)

end ClassName
end UtilityCss
