import ShaderForge.Index
import ShaderForge.Prim

/-!
# Types of atoms

A value type is a primitive or a struct named by the head of its field chain.
Other types wrap a value type: a field link, an array, a device reference, an
image or sampler, or a parameter direction.
-/

namespace ShaderForge

/-- A value type: a primitive, or a struct whose field chain starts at `head`. -/
inductive Data where
  | prim (p : Prim)
  | struct (head : Index)
deriving DecidableEq, Repr, Inhabited

def Data.text : Data → String
  | prim p => p.name
  | struct head => s!"struct@{head.toInt}"

inductive Ty where
  | nil
  | data (base : Data)
  /-- One link of a field chain, with the link after it. -/
  | field (base : Data) (next : Index)
  /-- An array; a negative size is unbounded. -/
  | array (base : Data) (size : Int32)
  | image (texel : Prim) (dim : Nat)
  | sampler (texel : Prim) (dim : Nat)
  /-- A device address; `id` keeps equal references apart. -/
  | reference (base : Data) (id : Int32)
  | inArg (inner : Ty)
  | outArg (inner : Ty)
  | inOutArg (inner : Ty)
deriving DecidableEq, Repr, Inhabited

inductive Direction where
  | value
  | input
  | output
  | both
deriving DecidableEq, Repr, Inhabited

namespace Direction

def name : Direction → String
  | value => "Value"
  | input => "In"
  | output => "Out"
  | both => "InOut"

def writes : Direction → Bool
  | output | both => true
  | _ => false

end Direction

namespace Ty

abbrev prim (p : Prim) : Ty := .data (.prim p)

def isNil : Ty → Bool
  | nil | data (.prim .nil) => true
  | _ => false

def bare : Ty → Ty
  | inArg t | outArg t | inOutArg t => t.bare
  | field base _ => data base
  | t => t

def data? (t : Ty) : Option Data :=
  match t.bare with
  | data d => some d
  | _ => none

def prim? (t : Ty) : Option Prim :=
  match t.data? with
  | some (.prim p) => some p
  | _ => none

def struct? (t : Ty) : Option Index :=
  match t.bare with
  | data (.struct i) | array (.struct i) _ | reference (.struct i) _ => some i
  | _ => none

def isArgument : Ty → Bool
  | inArg _ | outArg _ | inOutArg _ => true
  | _ => false

def direction : Ty → Direction
  | inArg _ => .input
  | outArg _ => .output
  | inOutArg _ => .both
  | _ => .value

def text : Ty → String
  | nil => "nil"
  | data d => d.text
  | field base _ => s!"field<{base.text}>"
  | array base size => if size < 0 then s!"{base.text}[]" else s!"{base.text}[{size.toInt}]"
  | image texel dim => s!"image{dim}d<{texel.name}>"
  | sampler texel dim => s!"sampler{dim}d<{texel.name}>"
  | reference base id => s!"ref#{id.toInt}<{base.text}>"
  | inArg t => s!"in {t.text}"
  | outArg t => s!"out {t.text}"
  | inOutArg t => s!"inout {t.text}"

end Ty

end ShaderForge
