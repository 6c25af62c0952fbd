import ShaderForge.Target

/-!
# GLSL extensions

The extensions that the globals, atoms and stage of a unit call for.
-/

namespace ShaderForge

/-- GLSL extensions that a unit may require. -/
inductive Extension where
  | bufferReference
  | scalarBlockLayout
  | int64
  | meshShader
  | rayTracing
  | subgroupBasic
  | subgroupArithmetic
  | subgroupBallot
deriving DecidableEq, Repr

namespace Extension

def all : List Extension :=
  [bufferReference, scalarBlockLayout, int64, meshShader, rayTracing, subgroupBasic,
    subgroupArithmetic, subgroupBallot]

def name : Extension → String
  | bufferReference => "GL_EXT_buffer_reference"
  | scalarBlockLayout => "GL_EXT_scalar_block_layout"
  | int64 => "GL_EXT_shader_explicit_arithmetic_types_int64"
  | meshShader => "GL_EXT_mesh_shader"
  | rayTracing => "GL_EXT_ray_tracing"
  | subgroupBasic => "GL_KHR_shader_subgroup_basic"
  | subgroupArithmetic => "GL_KHR_shader_subgroup_arithmetic"
  | subgroupBallot => "GL_KHR_shader_subgroup_ballot"

def ofIntrinsic? : Intrinsic → Option Extension
  | .emitMeshTasks | .setMeshOutputs | .layoutMeshShaderSizes => some meshShader
  | .traceRay | .terminateRay | .ignoreIntersection => some rayTracing
  | .subgroupBarrier | .subgroupElect => some subgroupBasic
  | .subgroupAdd => some subgroupArithmetic
  | .subgroupBroadcastFirst => some subgroupBallot
  | _ => none

/-- Whether a type is `u64` or an array of it. -/
def isWide (ty : Ty) : Bool :=
  ty.prim? == some .u64 || match ty.bare with
    | .array (.prim .u64) _ => true
    | _ => false

/-- Whether a type of the unit is `u64` or an array of it. -/
def isWideLinked : LinkedTy → Bool
  | .data (.prim .u64) | .array (.prim .u64) _ => true
  | _ => false

def ofGlobals (g : Globals) : List Extension :=
  let blocks := g.uniforms.values ++ g.buffers.values
  (if g.references.isEmpty then [] else [bufferReference, int64])
    ++ (if g.references.values.any (·.scalar) || blocks.any (·.scalar) then [scalarBlockLayout]
      else [])
    ++ (if blocks.any fun b => isWideLinked b.ty then [int64] else [])
    ++ g.special.keys.map fun key => match key with
      | .special .taskPayload _ => meshShader
      | _ => rayTracing

def ofStage (stage : Stage) (control : Control) : List Extension :=
  (if stage == .task || stage == .mesh || control.meshSize.isSome then [meshShader] else [])
    ++ if stage.isRayTracing then [rayTracing] else []

def ofAggregates (as : List Aggregate) : List Extension :=
  if as.any fun a => a.key.types.any (· == .prim .u64) then [int64] else []

def ofBuffer (b : Buffer) : List Extension :=
  b.indexed.flatMap fun (i, a) =>
    (match a with
      | .intrinsic code _ => (ofIntrinsic? code).toList
      | _ => [])
    ++ match b.typeOf i with
      | .ok ty => if b.isMarked i && isWide ty then [int64] else []
      | .error _ => []

def required (u : Linkage) (stage : Stage) : List Extension :=
  let needed := ofGlobals u.globals ++ ofStage stage u.control ++ ofAggregates u.aggregates.toList
    ++ u.functions.flatMap fun f => ofBuffer f.buffer
  all.filter needed.contains

end Extension

end ShaderForge
