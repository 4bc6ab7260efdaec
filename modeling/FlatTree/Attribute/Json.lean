import FlatTree.Attribute
import FlatTree.Instant.Lenient
import FlatTree.Json.Document

/-!
# Attributes as JSON

An attribute is an object with one member, whose key names the kind. Floats that are not finite
have no form and become null. Instants are read leniently, identifiers in any of their forms.
-/

namespace FlatTree.Attribute

open Json

def member (kind : String) (d : Document) : Document :=
  .object [(escape kind, d)]

def floatToJson (x : Binary64) : Document :=
  if x.isNaN || x.isInfinite then .null else .number (Numeral.ofFloat x)

def toJson : Attribute → Document
  | .boolean b => member "Boolean" (.boolean b)
  | .long n => member "Long" (.number (Numeral.ofInt n.toInt))
  | .double x => member "Double" (floatToJson x)
  | .string s => member "String" (Document.ofText s)
  | .keyword name => member "Keyword" (Document.ofText name)
  | .instant t => member "Instant" (Document.ofText (String.ofList t.textZulu))
  | .uuid u => member "Uuid" (Document.ofText (String.ofList u.text))
  | .ref id => member "Ref" (.number (Numeral.ofNat id.val))

def ofMember? (kind : String) (d : Document) : Option Attribute :=
  match kind, d with
  | "Boolean", .boolean b => some (.boolean b)
  | "Long", .number n => n.toInt64?.map .long
  | "Double", .number n => n.toFloat?.map .double
  | "String", .string s => (textOf? s).map .string
  | "Keyword", .string s => (textOf? s).map .keyword
  | "Instant", .string s => do
    let cs ← unescape? s
    (Instant.readLenient? cs).map .instant
  | "Uuid", .string s => do
    let cs ← unescape? s
    (Uuid.read? cs).map .uuid
  | "Ref", .number n => n.toNat64?.map fun m => .ref ⟨m⟩
  | _, _ => none

def ofJson? : Document → Option Attribute
  | .object [(key, d)] => do
    let kind ← textOf? key
    ofMember? kind d
  | _ => none

end FlatTree.Attribute
