/-!
# Universally unique identifiers

An identifier is a number of 128 bits, ordered as a number, which is the order of its bytes. It is
written as 32 hexadecimal digits in groups of 8, 4, 4, 4 and 12. Reading also takes the digits
without hyphens, the written form behind `urn:uuid:`, and capital digits.
-/

namespace FlatTree

structure Uuid where
  value : Fin 0x100000000000000000000000000000000
deriving DecidableEq, Repr

def hexValue? (c : Char) : Option Nat :=
  if '0' ≤ c ∧ c ≤ '9' then some (c.toNat - '0'.toNat)
  else if 'a' ≤ c ∧ c ≤ 'f' then some (c.toNat - 'a'.toNat + 10)
  else if 'A' ≤ c ∧ c ≤ 'F' then some (c.toNat - 'A'.toNat + 10)
  else none

def natOfHex? (cs : List Char) : Option Nat :=
  cs.foldlM (fun n c => (hexValue? c).map (16 * n + ·)) 0

namespace Uuid

instance : Ord Uuid := ⟨fun a b => compare a.value.val b.value.val⟩

def groups (ds : List Char) : List (List Char) :=
  [ds.take 8, (ds.drop 8).take 4, (ds.drop 12).take 4, (ds.drop 16).take 4, ds.drop 20]

def digits (u : Uuid) : List Char :=
  let ds := Nat.toDigits 16 u.value.val
  List.replicate (32 - ds.length) '0' ++ ds

def text (u : Uuid) : List Char :=
  ['-'].intercalate (groups u.digits)

def ofDigits? (ds : List Char) : Option Uuid :=
  if ds.length = 32 then
    (natOfHex? ds).bind fun n =>
      if h : n < 0x100000000000000000000000000000000 then some ⟨⟨n, h⟩⟩ else none
  else none

/-- The digits of a text with hyphens at their four places. -/
def dropHyphens? (cs : List Char) : Option (List Char) :=
  let ds := cs.filter (· ≠ '-')
  if ['-'].intercalate (groups ds) = cs then some ds else none

def read? (cs : List Char) : Option Uuid :=
  let urn := "urn:uuid:".toList
  if cs.length = 32 then ofDigits? cs
  else if urn.isPrefixOf cs then (dropHyphens? (cs.drop urn.length)).bind ofDigits?
  else (dropHyphens? cs).bind ofDigits?

end Uuid

end FlatTree
