import FlatTree.Attribute.Json
import FlatTree.External
import FlatTree.Json.Reader

/-!
# Forests as JSON

A forest is an array of objects. Identity and parent are always written, counts only where they are
there. A reader also takes a node as an array of its fields, and passes over members it does not
know, but refuses a known member that repeats.
-/

namespace FlatTree

open Json

def attributesToJson (attributes : Attributes) : Document :=
  .object (attributes.entries.map fun (name, a) => (escape name, a.toJson))

/-- Attributes of an object; the last member of a name counts. -/
def attributesOfJson? : Document → Option Attributes
  | .object members => members.foldlM (fun d (key, v) => do
      let name ← textOf? key
      let a ← Attribute.ofJson? v
      pure (d.put name a)) Dict.empty
  | _ => none

namespace ExternalNode

def numberToJson : Option Nat → Document
  | some n => .number (Numeral.ofNat n)
  | none => .null

def numberOfJson? : Document → Option (Option Nat)
  | .null => some none
  | .number n => n.toNat64?.map some
  | _ => none

def countMember (name : String) (count : Option Nat) : List (List Char × Document) :=
  match count with
  | some n => [(escape name, .number (Numeral.ofNat n))]
  | none => []

def toJson (n : ExternalNode) : Document :=
  .object ([(escape "id", numberToJson n.id), (escape "parent", numberToJson n.parent),
    (escape "attrs", attributesToJson n.attributes)] ++
    countMember "direct_children_count" n.directChildren ++
    countMember "children_count" n.descendants)

/-- The only value under a name, none if there is none; a name that repeats is refused. -/
def field? (members : List (String × Document)) (name : String) : Option (Option Document) :=
  match members.filter (·.1 = name) with
  | [] => some none
  | [(_, d)] => some (some d)
  | _ => none

/-- What the value of a field stands for; a field that is left out has a default. -/
def fieldOr? {α : Type} (default : α) (decode : Document → Option α) :
    Option Document → Option α
  | none => some default
  | some d => decode d

def ofFields? (id parent attributes directChildren descendants : Option Document) :
    Option ExternalNode := do
  let id ← fieldOr? none numberOfJson? id
  let parent ← fieldOr? none numberOfJson? parent
  let attributes ← fieldOr? Dict.empty attributesOfJson? attributes
  let directChildren ← fieldOr? none numberOfJson? directChildren
  let descendants ← fieldOr? none numberOfJson? descendants
  pure ⟨id, parent, attributes, directChildren, descendants⟩

def ofJson? : Document → Option ExternalNode
  | .object members => do
    let members ← members.mapM fun (key, d) => (textOf? key).map (·, d)
    let id ← field? members "id"
    let parent ← field? members "parent"
    let attributes ← field? members "attrs"
    let directChildren ← field? members "direct_children_count"
    let descendants ← field? members "children_count"
    ofFields? id parent attributes directChildren descendants
  | .array items =>
    if items.length ≤ 5 then ofFields? items[0]? items[1]? items[2]? items[3]? items[4]?
    else none
  | _ => none

end ExternalNode

namespace Forest

def toJson (f : Forest) : Document :=
  .array (f.map ExternalNode.toJson)

def ofJson? : Document → Option Forest
  | .array items => items.mapM ExternalNode.ofJson?
  | _ => none

def emitJson (f : Forest) : String :=
  (toJson f).text

def parseJson? (text : String) : Option Forest := do
  let d ← Document.read? text
  ofJson? d

end Forest

namespace Row

def intervalToJson (i : Interval) : Document :=
  .object [(escape "left", .number (Numeral.ofInt i.left)),
    (escape "right", .number (Numeral.ofInt i.right)),
    (escape "depth", .number (Numeral.ofNat i.depth))]

def toJson (r : Row) : Document :=
  .object [(escape "id", .number (Numeral.ofNat r.id.val)),
    (escape "interval", intervalToJson r.interval),
    (escape "attrs", attributesToJson r.attributes)]

def emitJson (rows : List Row) : String :=
  (Document.array (rows.map toJson)).text

end Row

end FlatTree
