import Std.Data.ExtTreeMap
import Std.Data.ExtTreeSet

/-!
# Atom addresses

An address is absent or names the position of an atom.  The absent address
comes before every position.
-/

namespace ShaderForge

/-- The address of an atom in its buffer, or the absent operand. -/
inductive Index where
  | null
  | ref (pos : Nat)
deriving DecidableEq, Repr, Inhabited

namespace Index

def rank : Index → Nat
  | null => 0
  | ref n => n + 1

theorem rank_inj {i j : Index} : i.rank = j.rank ↔ i = j := by
  cases i <;> cases j <;> simp [rank]

instance : Ord Index := ⟨compareOn rank⟩

instance : LT Index := ⟨fun i j => i.rank < j.rank⟩

instance : LE Index := ⟨fun i j => i.rank ≤ j.rank⟩

instance (i j : Index) : Decidable (i < j) := inferInstanceAs (Decidable (i.rank < j.rank))

instance (i j : Index) : Decidable (i ≤ j) := inferInstanceAs (Decidable (i.rank ≤ j.rank))

instance : Std.TransOrd Index := inferInstanceAs (Std.TransCmp (compareOn rank))

instance : Std.LawfulEqOrd Index where
  eq_of_compare h := rank_inj.1 (Nat.compare_eq_eq.1 h)

/-- The position of an address that is not absent. -/
def pos? : Index → Option Nat
  | null => none
  | ref n => some n

def isNull : Index → Bool
  | null => true
  | ref _ => false

/-- The signed number of an address: minus one when absent. -/
def toInt : Index → Int
  | null => -1
  | ref n => n

/-- The address with a signed number; every negative number is the absent address. -/
def ofInt (n : Int) : Index :=
  if n < 0 then null else ref n.toNat

def text : Index → String
  | null => "null"
  | ref n => s!"%{n}"

def nodeText : Index → String
  | null => "null"
  | ref n => s!"@{n}"

end Index

abbrev IndexSet := Std.ExtTreeSet Index

abbrev IndexMap (β : Type) := Std.ExtTreeMap Index β

/-- A change of addresses.  An address sent to `null` has been removed; an
address without an entry stays where it is. -/
structure Renumbering where
  entries : IndexMap Index := ∅

namespace Renumbering

def set (m : Renumbering) (i j : Index) : Renumbering :=
  ⟨m.entries.insert i j⟩

def remove (m : Renumbering) (i : Index) : Renumbering :=
  m.set i .null

/-- The new address of `i`, or `none` if `i` was removed. -/
def image? (m : Renumbering) (i : Index) : Option Index :=
  if i.isNull then some i
  else match m.entries[i]? with
    | some .null => none
    | some j => some j
    | none => some i

end Renumbering

end ShaderForge
