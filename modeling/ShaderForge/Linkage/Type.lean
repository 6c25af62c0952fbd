import ShaderForge.Ty

/-!
# Linked types

Types in which structs are named by the aggregate of the unit instead of an
address in one function, so that types of different functions compare.
-/

namespace ShaderForge

inductive LinkedData where
  | prim (p : Prim)
  | aggregate (n : Nat)
deriving DecidableEq, Repr, Inhabited

def LinkedData.text : LinkedData → String
  | prim p => p.name
  | aggregate n => s!"aggregate#{n}"

inductive LinkedTy where
  | nil
  | data (base : LinkedData)
  /-- An array; a negative size is unbounded. -/
  | array (element : LinkedData) (size : Int32)
  | image (texel : Prim) (dim : Nat)
  | sampler (texel : Prim) (dim : Nat)
  | reference (base : LinkedData) (id : Int32)
deriving DecidableEq, Repr, Inhabited

namespace LinkedTy

/-- The type of a primitive; the nil primitive is the nil type. -/
def prim (p : Prim) : LinkedTy :=
  if p = .nil then .nil else .data (.prim p)

def data? : LinkedTy → Option LinkedData
  | data d => some d
  | _ => none

def text : LinkedTy → String
  | nil => "nil"
  | data d => d.text
  | array element size =>
    if size < 0 then s!"{element.text}[]" else s!"{element.text}[{size.toInt}]"
  | image texel dim => s!"image{dim}d<{texel.name}>"
  | sampler texel dim => s!"sampler{dim}d<{texel.name}>"
  | reference base id => s!"ref#{id.toInt}<{base.text}>"

end LinkedTy

end ShaderForge
