/-!
# Coded families

A coded family is a finite type whose members have a printed name and a dense
number, their place in a fixed listing.  Both are used by the textual listing
and by the binary stream.
-/

namespace ShaderForge

/-- A finite type listed in a fixed order, each member with a printed name. -/
class Coded (α : Type) where
  /-- Every member, in numbering order. -/
  all : List α
  name : α → String

namespace Coded

variable {α : Type} [Coded α]

def code [DecidableEq α] (a : α) : Nat :=
  (all : List α).idxOf a

def ofCode? (n : Nat) : Option α :=
  (all : List α)[n]?

def ofName? (s : String) : Option α :=
  (all : List α).find? fun a => name a == s

theorem ofCode?_code [DecidableEq α] {a : α} (h : a ∈ (all : List α)) :
    ofCode? (code a) = some a := by
  simp only [ofCode?, code]
  have lt : (all : List α).idxOf a < (all : List α).length := List.idxOf_lt_length_of_mem h
  rw [List.getElem?_eq_getElem lt, List.getElem_idxOf lt]

end Coded

end ShaderForge
