import UtilityCss.Json.Reader
import UtilityCss.Style.Node

/-!
# Style trees from JSON

A node is an object with its kind under the key `type`, or a list with the kind first and the fields
behind it in their order. Unknown keys are passed over; the kind and the fields of it come once, and
all but the source must be there. Inside another node the kind may also be given by its number.

The whole text must be sound: finite numerals, texts made of characters, and less than 128
containers around each other.
-/

namespace UtilityCss

/-- The kinds of nodes, in the order of their numbers. -/
inductive NodeKind where
  | declaration
  | rule
  | atRule
  | verbatim
  deriving DecidableEq, Repr

namespace NodeKind

def ofWord? (s : String) : Option NodeKind :=
  if s = "declaration" then some declaration
  else if s = "rule" then some rule
  else if s = "at-rule" then some atRule
  else if s = "style-rule" then some verbatim
  else none

def ofNumber? : Nat → Option NodeKind
  | 0 => some declaration
  | 1 => some rule
  | 2 => some atRule
  | 3 => some verbatim
  | _ => none

/-- The kind that a value stands for, which may be a number inside another node. -/
def ofJson? (nested : Bool) : Json → Option NodeKind
  | .text s => s >>= ofWord?
  | .number n => if nested then n.word? >>= ofNumber? else none
  | _ => none

/-- The fields of a kind, in their order. -/
def fields : NodeKind → List String
  | declaration => ["prop", "value"]
  | rule => ["selector", "nodes", "source"]
  | atRule => ["name", "params", "nodes", "source"]
  | verbatim => ["selector", "nodes"]

end NodeKind

/-- A field of a node: its value, and the nodes that it stands for if it is a list of nodes. -/
structure NodeField where
  value : Json
  nodes : Option (List Node)

namespace NodeField

def text? (f : NodeField) : Option String := f.value.text?

/-- The source in a field, which may be missing or null. -/
def source? : Option NodeField → Option (Option String)
  | none => some none
  | some f =>
    match f.value with
    | .null => some none
    | v => v.text?.map some

end NodeField

namespace Node

/-- A node of a kind from its fields. -/
def ofFields? (kind : NodeKind) (get? : String → Option NodeField) : Option Node := do
  match kind with
  | .declaration =>
    let property ← get? "prop" >>= NodeField.text?
    let value ← get? "value" >>= NodeField.text?
    return .decl ⟨property, value⟩
  | .rule =>
    let selector ← get? "selector" >>= NodeField.text?
    let nodes ← get? "nodes" >>= NodeField.nodes
    return .block (.rule selector) (← NodeField.source? (get? "source")) nodes
  | .atRule =>
    let name ← get? "name" >>= NodeField.text?
    let params ← get? "params" >>= NodeField.text?
    let nodes ← get? "nodes" >>= NodeField.nodes
    return .block (.atRule name params) (← NodeField.source? (get? "source")) nodes
  | .verbatim =>
    let selector ← get? "selector" >>= NodeField.text?
    let nodes ← get? "nodes" >>= NodeField.nodes
    return .block (.verbatim selector) none nodes

/-- A node from the fields of an object. -/
def ofObject? (nested : Bool) (fields : List (String × NodeField)) : Option Node := do
  let tag ← fields.lookup "type"
  let kind ← NodeKind.ofJson? nested tag.value
  let known := (fields.map Prod.fst).filter fun k => k == "type" || k ∈ kind.fields
  if known.Nodup then ofFields? kind fun k => fields.lookup k else none

/-- A node from the items of a list. -/
def ofItems? (nested : Bool) (items : List NodeField) : Option Node :=
  match items with
  | [] => none
  | tag :: rest => do
    let kind ← NodeKind.ofJson? nested tag.value
    if kind.fields.length < rest.length then none
    else ofFields? kind fun k => (kind.fields.zip rest).lookup k

mutual
/-- A JSON value read as a node, inside another node or at the top. -/
def ofValue? (nested : Bool) : Json → Option Node
  | .object fields => ofObject? nested (fieldsOf fields)
  | .list items => ofItems? nested (itemsOf items)
  | _ => none
/-- A JSON value read as a list of nodes. -/
def listOf? : Json → Option (List Node)
  | .list items => allOf? items
  | _ => none
def allOf? : List Json → Option (List Node)
  | [] => some []
  | v :: vs => do
    let n ← ofValue? true v
    let ns ← allOf? vs
    return n :: ns
def itemsOf : List Json → List NodeField
  | [] => []
  | v :: vs => ⟨v, listOf? v⟩ :: itemsOf vs
def fieldsOf : List (Option String × Json) → List (String × NodeField)
  | [] => []
  | (none, _) :: fs => fieldsOf fs
  | (some k, v) :: fs => (k, ⟨v, listOf? v⟩) :: fieldsOf fs
end

/-- The number of containers around each other that a text may not reach. -/
def jsonDepthBound : Nat := 128

/-- A JSON text read as a node. -/
def ofJson? (s : String) : Option Node := do
  let v ← Json.read? s
  if v.depth < jsonDepthBound && v.isSound then ofValue? false v else none

end Node
end UtilityCss
