import FlatTree.Row
import FlatTree.Text.WhiteSpace

/-!
# Sort keys

A query is ordered by a list of keys, each a column and a direction; the left bound decides last.
Keys are written as words, `name` or `name desc`, with commas between them.
-/

namespace FlatTree

inductive Column where
  | left
  | right
  | depth
  | id
  | attribute (name : String)
deriving DecidableEq, Repr

structure SortKey where
  column : Column
  descending : Bool
deriving DecidableEq, Repr

inductive SortKeyError where
  | empty (spec : String)
  | direction (word : String)
  | extra (word name : String)
deriving DecidableEq, Repr

def SortKeyError.reason : SortKeyError → String
  | .empty spec => s!"empty sort key in {Quoted.quote spec}"
  | .direction word => s!"unknown sort direction {Quoted.quote word}"
  | .extra word name =>
    s!"unexpected {Quoted.quote word} after sort key {Quoted.quote name}"

/-- The pieces between the characters of a class; there is always one piece more than characters. -/
def splitChars (p : Char → Bool) : List Char → List (List Char)
  | [] => [[]]
  | c :: cs =>
    if p c then [] :: splitChars p cs
    else
      match splitChars p cs with
      | [] => [[c]]
      | piece :: pieces => (c :: piece) :: pieces

def wordsOf (cs : List Char) : List (List Char) :=
  (splitChars CharSet.whiteSpace.has cs).filter (· ≠ [])

/-- Four names stand for what every row has. Any other is the name of an attribute, and a colon in
front makes it one in any case. -/
def Column.ofName (name : List Char) : Column :=
  if name = "left".toList then .left
  else if name = "right".toList then .right
  else if name = "depth".toList then .depth
  else if name = "id".toList then .id
  else .attribute (String.ofList (name.dropWhile (· = ':')))

namespace SortKey

def direction? (word : List Char) : Option Bool :=
  if word = "asc".toList then some false
  else if word = "desc".toList then some true
  else none

def ofWords (spec : String) : List (List Char) → Except SortKeyError SortKey
  | [] => .error (.empty spec)
  | [name] => .ok ⟨Column.ofName name, false⟩
  | name :: word :: rest =>
    let word := word.map Char.toLower
    match direction? word, rest with
    | none, _ => .error (.direction (String.ofList word))
    | some _, extra :: _ => .error (.extra (String.ofList extra) (String.ofList name))
    | some descending, [] => .ok ⟨Column.ofName name, descending⟩

/-- The keys of a text, in order. The first fault from the left is reported. -/
def parse (spec : String) : Except SortKeyError (List SortKey) :=
  ((splitChars (· = ',') spec.toList).map wordsOf).mapM (ofWords spec)

/-- A missing attribute is less than every other. -/
def compareColumn (column : Column) (a b : Row) : Ordering :=
  match column with
  | .left => compare a.interval.left b.interval.left
  | .right => compare a.interval.right b.interval.right
  | .depth => compare a.interval.depth b.interval.depth
  | .id => compare a.id b.id
  | .attribute name => compare (a.attributes.get? name) (b.attributes.get? name)

def order (key : SortKey) (a b : Row) : Ordering :=
  if key.descending then (compareColumn key.column a b).swap else compareColumn key.column a b

def orderBy (keys : List SortKey) (a b : Row) : Ordering :=
  keys.foldr (fun key later => (key.order a b).then later)
    (compare a.interval.left b.interval.left)

/-- Sorted by the keys; rows that no key tells apart stay in their order. -/
def sort (keys : List SortKey) (rows : List Row) : List Row :=
  rows.mergeSort fun a b => (orderBy keys a b).isLE

end SortKey

end FlatTree
