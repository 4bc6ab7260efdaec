/-!
# Identities of stored nodes
-/

namespace FlatTree

/-- The number a node gets when it is stored and keeps as long as it is stored. -/
structure NodeId where
  val : Nat
deriving DecidableEq, Repr

namespace NodeId

instance : Ord NodeId := ⟨fun a b => compare a.val b.val⟩

instance : Std.TransOrd NodeId where
  eq_swap {a b} := Std.OrientedOrd.eq_swap (a := a.val) (b := b.val)
  isLE_trans {a b c} := Std.TransOrd.isLE_trans (a := a.val) (b := b.val) (c := c.val)

instance : Std.LawfulEqOrd NodeId where
  eq_of_compare {a b} h := by
    cases a; cases b
    exact congrArg NodeId.mk (Std.LawfulEqOrd.eq_of_compare h)

def text (id : NodeId) : String :=
  s!"#{id.val}"

end NodeId

end FlatTree
