import FlatTree.Dict
import FlatTree.Edn.Value

/-!
# The order of values

Values are ordered by kind and then by content: numbers by size within their kind, texts by code
point, names outside a namespace before all others, collections from the front. The order decides
which keys and elements repeat, and the order in which maps and sets are kept and written.
-/

namespace FlatTree.Edn

instance : Ord Name := ⟨fun a b => (compare a.space b.space).then (compare a.base b.base)⟩

def orderDecimals (c e c' e' : Int) : Ordering :=
  let least := min e e'
  compare (c * tenTo (e - least).toNat) (c' * tenTo (e' - least).toNat)

def Value.rank : Value → Nat
  | .nil => 0
  | .boolean _ => 1
  | .character _ => 2
  | .string _ => 3
  | .symbol _ => 4
  | .keyword _ => 5
  | .integer _ => 6
  | .float _ => 7
  | .bigInteger _ => 8
  | .bigDecimal _ _ => 9
  | .list _ => 10
  | .vector _ => 11
  | .map _ => 12
  | .set _ => 13
  | .instant _ => 14
  | .uuid _ => 15
  | .tagged _ _ => 16

mutual

def Value.order : Value → Value → Ordering
  | .boolean a, .boolean b => compare a b
  | .character a, .character b => compare a b
  | .string a, .string b => compare a b
  | .symbol a, .symbol b => compare a b
  | .keyword a, .keyword b => compare a b
  | .integer a, .integer b => compare a b
  | .float a, .float b => compare a b
  | .bigInteger a, .bigInteger b => compare a b
  | .bigDecimal a e, .bigDecimal b f => orderDecimals a e b f
  | .list xs, .list ys => orderItems xs ys
  | .vector xs, .vector ys => orderItems xs ys
  | .map xs, .map ys => orderEntries xs ys
  | .set xs, .set ys => orderItems xs ys
  | .instant a, .instant b => compare a b
  | .uuid a, .uuid b => compare a b
  | .tagged s v, .tagged t w => (compare s t).then (v.order w)
  | v, w => compare v.rank w.rank

def orderItems : List Value → List Value → Ordering
  | [], [] => .eq
  | [], _ :: _ => .lt
  | _ :: _, [] => .gt
  | x :: xs, y :: ys => (x.order y).then (orderItems xs ys)

def orderEntries : List (Value × Value) → List (Value × Value) → Ordering
  | [], [] => .eq
  | [], _ :: _ => .lt
  | _ :: _, [] => .gt
  | (k, v) :: xs, (l, w) :: ys => (k.order l).then ((v.order w).then (orderEntries xs ys))

end

instance : Ord Value := ⟨Value.order⟩

/-- Adds an element to a set, unless one that compares equal is there. -/
def putItem (v : Value) : List Value → List Value
  | [] => [v]
  | w :: ws =>
    match compare v w with
    | .lt => v :: w :: ws
    | .eq => w :: ws
    | .gt => w :: putItem v ws

end FlatTree.Edn
