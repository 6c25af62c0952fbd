import ShaderForge.Target

/-!
# Functions of a unit

What every generator asks about one function of a unit.
-/

namespace ShaderForge

structure Member where
  unit : Linkage
  function : Function

namespace Member

def buffer (m : Member) : Buffer := m.function.buffer

def defect {α : Type} (m : Member) (d : Defect) : Except TargetFault α :=
  TargetFault.structural m.buffer d

def atom (m : Member) (i : Index) : Except TargetFault Atom :=
  TargetFault.ofFault (m.buffer.atom i)

def typeOf (m : Member) (i : Index) : Except TargetFault Ty :=
  TargetFault.ofFault (m.buffer.typeOf i)

def items (m : Member) (head : Index) : Except TargetFault (List Index) :=
  TargetFault.ofFault (m.buffer.expandList head)

def resolve (m : Member) (ty : Ty) : Except TargetFault LinkedTy :=
  TargetFault.ofLink (m.unit.resolve m.function.id ty)

def aggregate (m : Member) (head : Index) : Except TargetFault Nat :=
  TargetFault.ofLink (m.unit.aggregateIndex m.function.id head)

/-- Whether a construction only stands for a qualifier. -/
def isPlaceholder (m : Member) (ty : Index) (mode : Mode) : Bool :=
  mode == .transient && match m.buffer.get? ty with
    | some (.qualifier ..) => true
    | _ => false

end Member

end ShaderForge
