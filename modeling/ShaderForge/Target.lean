import ShaderForge.Linkage.Unit
import ShaderForge.Optimizer.Pipeline

/-!
# Targets

Target languages, pipeline stages, the options of a generation request and
the ways it fails.
-/

namespace ShaderForge

inductive Target where
  | glsl
  | cpp
  | spirv
  | native
  | assembly
deriving DecidableEq, Repr, Inhabited

inductive Stage where
  | vertex
  | fragment
  | compute
  | task
  | mesh
  | rayGeneration
  | closestHit
  | anyHit
  | miss
  | intersection
deriving DecidableEq, Repr, Inhabited

namespace Stage

def all : List Stage :=
  [vertex, fragment, compute, task, mesh, rayGeneration, closestHit, anyHit, miss, intersection]

def name : Stage → String
  | vertex => "vert"
  | fragment => "frag"
  | compute => "comp"
  | task => "task"
  | mesh => "mesh"
  | rayGeneration => "rgen"
  | closestHit => "rchit"
  | anyHit => "rahit"
  | miss => "rmiss"
  | intersection => "rint"

def isRayTracing : Stage → Bool
  | rayGeneration | closestHit | anyHit | miss | intersection => true
  | _ => false

def isRaster : Stage → Bool
  | vertex | fragment | compute => true
  | _ => false

end Stage

/-- Requests and features that a target does not serve. -/
inductive Unsupported where
  | target (name : String)
  | stage (name : String)
  | spirvStage (stage : Stage)
  -- the C++ target
  | cppImage (dim : Nat)
  | cppSampler (dim : Nat)
  | cppIntrinsic (code : Intrinsic)
  | cppGlobal (name : String)
  -- native code
  | outParameter (function : String) (position : Nat)
  | abiType (ty : LinkedTy)
  | nativeAcceleration
  | operandType (ty : Ty)
  | nativeQualifier (kind : Qualifier) (i : Index)
  | dynamicAccess (i : Index)
  | nativeStore (found : Atom) (i : Index)
  | fieldLoad (ty : Ty)
  | matrixProduct
  | floatModulus
  | nativeIntrinsic (code : Intrinsic)
deriving DecidableEq, Repr

def Unsupported.message : Unsupported → String
  | target name => s!"unknown target '{name}'"
  | stage name => s!"unknown stage '{name}'"
  | spirvStage s => s!"SPIR-V for {s.name} shaders"
  | cppImage dim => s!"{dim}D images have no C++ equivalent"
  | cppSampler dim => s!"{dim}D samplers have no C++ equivalent"
  | cppIntrinsic code => s!"intrinsic `{code.name}` has no C++ equivalent"
  | cppGlobal name => s!"{name} has no C++ equivalent"
  | outParameter function position => s!"`{function}` writes through parameter {position}"
  | abiType ty => s!"values of type {ty.text} cannot cross the native ABI"
  | nativeAcceleration => "acceleration structures have no native representation"
  | operandType ty => s!"operands of type {ty.text} in native code"
  | nativeQualifier kind i => s!"{kind.name} qualifier at {i.text} has no native counterpart"
  | dynamicAccess i => s!"dynamic array access at {i.text} in native code"
  | nativeStore found i => s!"stores to {found.kindName} at {i.text} in native code"
  | fieldLoad ty => s!"field loads from {ty.text} in native code"
  | matrixProduct => "matrix products in native code"
  | floatModulus => "floating point `%` in native code"
  | nativeIntrinsic code => s!"intrinsic `{code.name}` has no native counterpart"

/-- Inconsistencies that a generator meets. -/
inductive Inconsistency where
  | aggregate (n : Nat)
  | aggregateField (name : String) (field : Nat)
  | undeclared (g : Global)
  | layoutExpression (code : Intrinsic)
  | oneOperand (code : Operator)
  | twoOperands (code : Operator)
  /-- A function of the unit has the symbol of a library function that takes some
  single precision numbers. -/
  | librarySymbol (symbol : String) (arity : Nat)
deriving DecidableEq, Repr

def signatureText (params returns : List String) : String :=
  let spelled (types : List String) : String :=
    "[" ++ ", ".intercalate (types.map fun ty =>
      s!"AbiParam \x7b value_type: types::{ty}, purpose: Normal, extension: None \x7d") ++ "]"
  s!"Signature \x7b params: {spelled params}, returns: {spelled returns}, call_conv: SystemV \x7d"

def Inconsistency.message : Inconsistency → String
  | aggregate n => s!"aggregate {n} is not registered"
  | aggregateField name field => s!"aggregate `{name}` has no field {field}"
  | undeclared g => s!"{g.keyText} is used but not declared"
  | layoutExpression code => s!"{code.name} configures the unit and has no expression"
  | oneOperand code => s!"operator `{code.name}` applied to one operand"
  | twoOperands code => s!"operator `{code.name}` applied to two operands"
  | librarySymbol symbol arity =>
    s!"native module: Function {symbol} signature "
      ++ signatureText (List.replicate arity "F32") ["F32"]
      ++ " is incompatible with previous declaration " ++ signatureText ["I64", "I64"] []

/-- Why lowered code is not assembled. -/
inductive MachineFault where
  /-- An operation is given a register that it does not take. -/
  | operand
  | duplicate (symbol : String)
  /-- A slot is given a register of another kind. -/
  | slot (i : Index)
  /-- Components are combined where there are none. -/
  | nothing (i : Index)
  /-- A layout is larger than a word can tell. -/
  | extent
deriving DecidableEq, Repr

namespace MachineFault

/-- Whether the fault is found while code is lowered, and so ends the program. -/
def isAbrupt : MachineFault → Bool
  | slot _ | nothing _ | extent => true
  | operand | duplicate _ => false

def message : MachineFault → String
  | operand => "an operation is given a register that it does not take"
  | duplicate symbol => s!"symbol {symbol} is defined twice"
  | slot i => s!"the slot of {i.text} is given a register of another kind"
  | nothing i => s!"{i.text} combines no components"
  | extent => "a layout is too large"

end MachineFault

/-- Why a target cannot be generated. -/
inductive TargetFault where
  | unsupported (what : Unsupported)
  /-- An external compiler refused the source. -/
  | compiler (log generated : String)
  | machine (fault : MachineFault)
  | link (fault : LinkFault)
  | other (what : Inconsistency)

namespace TargetFault

def message : TargetFault → String
  | unsupported what => "unsupported: " ++ what.message
  | compiler log generated =>
    "external compiler failed:\n" ++ log ++ "\n--- generated source ---\n" ++ generated
  | machine fault => "native code: " ++ fault.message
  | link fault => fault.message
  | other what => what.message

def ofLink {α : Type} : Except LinkFault α → Except TargetFault α
  | .ok a => .ok a
  | .error e => .error (.link e)

theorem ofLink_ok_iff {α : Type} {x : Except LinkFault α} {a : α} : ofLink x = .ok a ↔ x = .ok a := by
  cases x <;> simp [ofLink]

def ofFault {α : Type} (answer : Except Fault α) : Except TargetFault α :=
  ofLink (LinkFault.lift answer)

theorem ofFault_ok_iff {α : Type} {x : Except Fault α} {a : α} : ofFault x = .ok a ↔ x = .ok a := by
  cases x <;> simp [ofFault, ofLink, LinkFault.lift]

def structural {α : Type} (b : Buffer) (d : Defect) : Except TargetFault α :=
  .error (.link (.ir (b.fault d)))

end TargetFault

namespace Target

def name : Target → String
  | glsl => "glsl"
  | cpp => "cpp"
  | spirv => "spirv"
  | native => "jit"
  | assembly => "asm"

def ofName (s : String) : Except TargetFault Target :=
  match [glsl, cpp, spirv, native, assembly].find? (·.name == s) with
  | some t => .ok t
  | none => .error (.unsupported (.target s))

def served : List Target := [assembly, glsl, cpp, spirv, native]

def title : Target → String
  | glsl => "GLSL"
  | cpp => "C++"
  | spirv => "SPIR-V"
  | native => "JIT"
  | assembly => "Assembly"

def aliases : Target → List String
  | glsl => ["glsl"]
  | cpp => ["cpp", "c++"]
  | spirv => ["spirv", "spv"]
  | native => ["jit"]
  | assembly => ["asm"]

def find? (word : String) : Option Target :=
  served.find? (·.aliases.contains word)

def words : List String := served.flatMap aliases

end Target

def Stage.ofName (s : String) : Except TargetFault Stage :=
  match s with
  | "vertex" => .ok vertex
  | "fragment" => .ok fragment
  | "compute" => .ok compute
  | _ =>
    match all.find? (·.name == s) with
    | some stage => .ok stage
    | none => .error (.unsupported (.stage s))

structure Options where
  stage : Stage := .vertex
  glslVersion : Nat := 460
  spirvVersion : Nat × Nat := (1, 0)
  level : OptLevel := .basic
deriving DecidableEq, Repr

def Options.text (o : Options) : String :=
  s!"BackendOptions \x7b stage: {o.stage.name}, glsl: {o.glslVersion}, "
    ++ s!"spirv: {o.spirvVersion.1}.{o.spirvVersion.2}, opt_level: {o.level.toNat} \x7d"

end ShaderForge
