import FlatTree.Row

/-!
# Well numbered rows

Rows are well numbered when their intervals are those of one tree: the count runs from 1 through
all bounds without a gap, and depths grow by one from parent to child. The check sorts the rows by
their left bounds and goes through them once, keeping the rows that are still open, and stops at
the first thing that is wrong.
-/

namespace FlatTree

inductive Violation where
  | missingRoot
  | duplicateRoot (count : Nat)
  | rootDepth (id : NodeId) (depth : Nat)
  | inverted (id : NodeId) (left right : Int)
  | outside (id : NodeId)
  | overlap (outer inner : NodeId)
  | depth (id : NodeId) (expected found : Nat)
  | width (id : NodeId) (width : Int) (descendants : Nat)
deriving DecidableEq, Repr

def Violation.message : Violation → String
  | .missingRoot => "no node has left bound 1"
  | .duplicateRoot n => s!"{n} nodes have left bound 1"
  | .rootDepth id d => s!"root {id.text} has depth {d}"
  | .inverted id l r => s!"{id.text} has right bound {r} not greater than left bound {l}"
  | .outside id => s!"{id.text} lies outside the root interval"
  | .overlap outer inner => s!"{inner.text} partially overlaps {outer.text}"
  | .depth id expected found => s!"{id.text} has depth {found}, expected {expected}"
  | .width id w n => s!"{id.text} has width {w} but {n} descendant(s)"

structure Summary where
  nodes : Nat
  leaves : Nat
  maxDepth : Nat
deriving DecidableEq, Repr

namespace Numbering

/-- What the check knows after some of the rows: those whose intervals may still be open, innermost
first, and the summary of all. -/
structure Sweep where
  enclosing : List Row
  summary : Summary

def start : Sweep :=
  ⟨[], ⟨0, 0, 0⟩⟩

def sorted (rows : List Row) : List Row :=
  rows.mergeSort fun a b =>
    ((compare a.interval.left b.interval.left).then
      (compare a.interval.right b.interval.right)).isLE

def stillOpen (enclosing : List Row) (left : Int) : List Row :=
  enclosing.dropWhile fun r => decide (r.interval.right < left)

/-- Whether a row stands right under the innermost open one. Only the first row has none. -/
def checkParent (first : Bool) (enclosing : List Row) (r : Row) : Except Violation Unit :=
  match enclosing with
  | [] => if first then .ok () else .error (.outside r.id)
  | parent :: _ =>
    if parent.interval.contains r.interval = false then .error (.overlap parent.id r.id)
    else if r.interval.depth ≠ parent.interval.depth + 1 then
      .error (.depth r.id (parent.interval.depth + 1) r.interval.depth)
    else .ok ()

/-- How many rows after the next one begin before it ends, when `passed` rows begin before it. -/
def descendants (rows : List Row) (passed : Nat) (r : Row) : Nat :=
  (rows.countP fun o => o.interval.left ≤ r.interval.right) - passed - 1

def Sweep.push (s : Sweep) (enclosing : List Row) (r : Row) (descendants : Nat) : Sweep :=
  ⟨r :: enclosing,
    ⟨s.summary.nodes + 1,
      if descendants = 0 then s.summary.leaves + 1 else s.summary.leaves,
      max s.summary.maxDepth r.interval.depth⟩⟩

def step (rows : List Row) (s : Sweep) (r : Row) : Except Violation Sweep :=
  let i := r.interval
  if i.right ≤ i.left then .error (.inverted r.id i.left i.right)
  else
    let enclosing := stillOpen s.enclosing i.left
    match checkParent (s.summary.nodes == 0) enclosing r with
    | .error v => .error v
    | .ok () =>
      let n := descendants rows s.summary.nodes r
      if i.right - i.left ≠ 1 + 2 * (n : Int) then .error (.width r.id (i.right - i.left) n)
      else .ok (s.push enclosing r n)

/-- Whether exactly one row begins with 1, and it is the first one and has depth 0. -/
def checkRoot (rows : List Row) (first : Row) : Except Violation Unit :=
  match rows.countP fun r => r.interval.left = 1 with
  | 0 => .error .missingRoot
  | 1 =>
    if first.interval.left ≠ 1 then .error (.outside first.id)
    else if first.interval.depth ≠ 0 then .error (.rootDepth first.id first.interval.depth)
    else .ok ()
  | n => .error (.duplicateRoot n)

def check (rows : List Row) : Except Violation Summary :=
  let rows := sorted rows
  match rows with
  | [] => .ok ⟨0, 0, 0⟩
  | first :: _ =>
    match checkRoot rows first with
    | .error v => .error v
    | .ok () => (rows.foldlM (step rows) start).map Sweep.summary

end Numbering

end FlatTree
