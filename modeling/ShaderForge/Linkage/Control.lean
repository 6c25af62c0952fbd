import ShaderForge.Buffer.Chain
import ShaderForge.Linkage.Warning

/-!
# Execution layout

Work group and mesh output sizes, read from the literal arguments of layout
intrinsics.  A later setting replaces an earlier one with a warning.
-/

namespace ShaderForge

/-- The execution layout of a unit. -/
structure Control where
  localSize : Option LocalSize := none
  meshSize : Option MeshSize := none
deriving DecidableEq, Repr

namespace Control

def size (b : Buffer) (site : Index) (code : Intrinsic) (arg : Index) : Except Fault Nat := do
  match (← b.atom arg).literal?.bind Literal.integer? with
  | some (.ofNat n) =>
    if n < 0x100000000 then return n else .error (b.fault (.notSizeLiteral arg code site))
  | _ => .error (b.fault (.notSizeLiteral arg code site))

def changes {α : Type} [DecidableEq α] (note : α → α → Warning) (old : Option α) (new : α) :
    List Warning :=
  match old with
  | some previous => if previous = new then [] else [note previous new]
  | none => []

/-- The layout after a layout intrinsic, with what is noted. -/
def apply (c : Control) (b : Buffer) (i : Index) (code : Intrinsic) (args : Index) :
    Except Fault (Control × List Warning) := do
  let sizes ← (← b.expandList args).mapM (size b i code)
  match code with
  | .layoutLocalSize =>
    let sized (s : LocalSize) : Except Fault (Control × List Warning) :=
      return ({ c with localSize := some s }, changes .localSize c.localSize s)
    match sizes with
    | [x] => sized ⟨x, 1, 1⟩
    | [x, y] => sized ⟨x, y, 1⟩
    | [x, y, z] => sized ⟨x, y, z⟩
    | _ => .error (b.fault (.localSizes i sizes.length))
  | .layoutMeshShaderSizes =>
    match sizes with
    | [vertices, primitives] =>
      let s : MeshSize := ⟨vertices, primitives⟩
      return ({ c with meshSize := some s }, changes .meshSize c.meshSize s)
    | _ => .error (b.fault (.meshSizes i sizes.length))
  | _ => .error (b.fault (.notLayout code i))

end Control

end ShaderForge
