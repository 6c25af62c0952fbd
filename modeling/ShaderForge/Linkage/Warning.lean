import ShaderForge.Atom

/-!
# Warnings

What linking notes without failing, in the order it was noted: warnings, and
its progress for those who follow it.
-/

namespace ShaderForge

structure LocalSize where
  x : Nat
  y : Nat
  z : Nat
deriving DecidableEq, Repr

def LocalSize.text (s : LocalSize) : String := s!"[{s.x}, {s.y}, {s.z}]"

structure MeshSize where
  vertices : Nat
  primitives : Nat
deriving DecidableEq, Repr

def MeshSize.text (s : MeshSize) : String :=
  s!"MeshShaderSize \x7b max_vertices: {s.vertices}, max_primitives: {s.primitives} \x7d"

/-- Something noted without failing. -/
inductive Warning where
  | localSize (previous size : LocalSize)
  | meshSize (previous size : MeshSize)
  | fieldNames (head : Index) (function : String) (named count : Nat)
  | redefined (category key : String)
  | pushConstant
  | noEffect (modifier target : Qualifier)
  | resized (target : Qualifier) (binding previous count : Int)
  | noImage (format : Qualifier) (i : Index)
deriving DecidableEq, Repr

def Warning.message : Warning → String
  | localSize previous size => s!"local size {previous.text} replaced by {size.text}"
  | meshSize previous size => s!"mesh output sizes {previous.text} replaced by {size.text}"
  | fieldNames head function named count =>
    s!"struct {head.text} of `{function}` names {named} fields but has {count}; "
      ++ "ignoring field names"
  | redefined category key =>
    s!"{category} {key} redefined with a different type; last definition wins"
  | pushConstant => "push constant block redefined; last definition wins"
  | noEffect modifier target => s!"{modifier.name} has no effect on {target.name}"
  | resized target binding previous count =>
    s!"{target.name} array at binding {binding} resized from {previous} to {count}"
  | noImage format i => s!"{format.name} at {i.text} does not wrap an image"

/-- A warning, or a step that linking has done. -/
inductive Note where
  | warning (w : Warning)
  | registered (aggregate function : String)
  | linked (function : String) (id : FunctionId) (callees : Nat)
deriving DecidableEq, Repr

namespace Note

def warning? : Note → Option Warning
  | warning w => some w
  | _ => none

def message : Note → String
  | warning w => w.message
  | registered aggregate function => s!"aggregate {aggregate} registered from `{function}`"
  | linked function id callees =>
    s!"linked `{function}` (${id.toNat}) with {callees} callee(s)"

end Note

end ShaderForge
