import FlatTree.Attribute.Edn
import FlatTree.Edn.Reader
import FlatTree.External

/-!
# Forests in the data notation

A forest is a vector of maps. A node has five entries, all optional; a number that is absent has no
entry, and the attributes always have one. Attribute names are keywords.
-/

namespace FlatTree

open Edn

inductive ForestError where
  | unreadable (error : ReadError)
  | decoding (error : DecodingError)
deriving Repr

namespace ExternalNode

def key (name : String) : Value :=
  .keyword (Name.plain name)

def knownKeys : List String :=
  ["id", "parent", "attrs", "direct-children-count", "children-count"]

def numbers (n : ExternalNode) : List (String × Option Nat) :=
  [("id", n.id), ("parent", n.parent), ("direct-children-count", n.directChildren),
    ("children-count", n.descendants)]

/-- A number of a node, which must fit an integer of 64 bits. -/
def numberToEdn (name : String) (n : Nat) : Except EncodingError Value :=
  if n < 0x8000000000000000 then .ok (.integer (Int64.ofNat n))
  else .error (.integerOutOfRange name n)

def numberEntries (numbers : List (String × Option Nat)) :
    Except EncodingError (List (Value × Value)) :=
  numbers.foldlM (fun es (name, number) =>
    match number with
    | none => .ok es
    | some n => (numberToEdn name n).map fun v => Entries.put (key name) v es) []

def attributesToEdn (attributes : Attributes) : Except EncodingError Value := do
  let entries ← attributes.entries.foldlM (fun es (name, a) =>
    a.toEdn.map fun v => Entries.put (.keyword (Name.ofQualified name)) v es) []
  pure (.map entries)

def toEdn (n : ExternalNode) : Except EncodingError Value := do
  let entries ← numberEntries n.numbers
  let attributes ← attributesToEdn n.attributes
  pure (.map (Entries.put (key "attrs") attributes entries))

/-- A number that may be left out or nothing. -/
def numberOfEdn (entries : Dict String Value) (name : String) :
    Except DecodingError (Option Nat) :=
  match entries.get? name with
  | some v => v.asNilable Value.asNonNegative
  | none => .ok none

def attributesOfEdn (v : Value) : Except DecodingError Attributes := do
  let entries ← v.asKeywordMap
  entries.entries.foldlM (fun d (name, v) => (Attribute.ofEdn v).map (d.put name)) Dict.empty

/-- Refuses the first key, by name, that no node has. -/
def refuseUnknown (entries : Dict String Value) : Except DecodingError Unit :=
  match entries.keys.find? (· ∉ knownKeys) with
  | some name => .error (.unknownNodeKey name)
  | none => .ok ()

def ofEdn (v : Value) : Except DecodingError ExternalNode := do
  let entries ← v.asKeywordMap
  refuseUnknown entries
  let attributes ← match entries.get? "attrs" with
    | some v => attributesOfEdn v
    | none => pure Dict.empty
  let id ← numberOfEdn entries "id"
  let parent ← numberOfEdn entries "parent"
  let directChildren ← numberOfEdn entries "direct-children-count"
  let descendants ← numberOfEdn entries "children-count"
  pure ⟨id, parent, attributes, directChildren, descendants⟩

end ExternalNode

namespace Forest

def toEdn (f : Forest) : Except EncodingError Value :=
  (f.mapM ExternalNode.toEdn).map .vector

def ofEdn (v : Value) : Except DecodingError Forest :=
  v.asVector ExternalNode.ofEdn

def emit (f : Forest) : Except EncodingError String :=
  (toEdn f).map Value.text

def parse (text : String) : Except ForestError Forest :=
  match Value.read text with
  | .error e => .error (.unreadable e)
  | .ok v =>
    match ofEdn v with
    | .error e => .error (.decoding e)
    | .ok f => .ok f

end Forest

end FlatTree
