import FlatTree.Dict
import FlatTree.Edn.Printer

/-!
# Decoding values

A decoder takes a value of the expected form apart, or says what it expected and what it got.
-/

namespace FlatTree.Edn

inductive Form where
  | keyword
  | string
  | integer
  | nonNegativeInteger
  | map
  | vector
  | attributeValue
  | nodeId
  | sortKeys
deriving DecidableEq, Repr

def Form.phrase : Form → String
  | .keyword => "a keyword"
  | .string => "a string"
  | .integer => "an integer"
  | .nonNegativeInteger => "a non-negative integer"
  | .map => "a map"
  | .vector => "a vector"
  | .attributeValue => "an attribute value"
  | .nodeId => "a non-negative node id"
  | .sortKeys => "a string, keyword or vector of sort keys"

inductive DecodingError where
  | expected (form : Form) (got : Value)
  | unknownNodeKey (name : String)
deriving Repr

namespace DecodingError

def reason : DecodingError → String
  | .expected form got => s!"expected {form.phrase}, got {got.text}"
  | .unknownNodeKey name => s!"unknown node key :{name}"

def message (e : DecodingError) : String :=
  s!"Could not decode EDN value: {e.reason}"

end DecodingError

namespace Value

variable {α : Type}

def asKeyword : Value → Except DecodingError Name
  | .keyword n => .ok n
  | v => .error (.expected .keyword v)

def asString : Value → Except DecodingError String
  | .string s => .ok s
  | v => .error (.expected .string v)

def asInteger : Value → Except DecodingError Int64
  | .integer i => .ok i
  | v => .error (.expected .integer v)

def asNonNegative (v : Value) : Except DecodingError Nat :=
  match v.asInteger with
  | .ok i => if i < 0 then .error (.expected .nonNegativeInteger v) else .ok i.toInt.toNat
  | .error e => .error e

def asNilable (decode : Value → Except DecodingError α) : Value → Except DecodingError (Option α)
  | .nil => .ok none
  | v => (decode v).map some

/-- The entries of a map by the qualified names of its keys, which are all keywords. -/
def asKeywordMap : Value → Except DecodingError (Dict String Value)
  | .map entries => entries.foldlM (fun d (k, v) => do
      let n ← k.asKeyword
      pure (d.put n.qualified v)) Dict.empty
  | v => .error (.expected .map v)

def asVector (decode : Value → Except DecodingError α) : Value → Except DecodingError (List α)
  | .vector items => items.mapM decode
  | .list items => items.mapM decode
  | v => .error (.expected .vector v)

/-- What the first decoder takes, else what the second one takes or says. -/
def asOneOf (first second : Value → Except DecodingError α) (v : Value) :
    Except DecodingError α :=
  match first v with
  | .ok a => .ok a
  | .error _ => second v

end Value

end FlatTree.Edn
