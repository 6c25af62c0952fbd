import ShaderForge.Coded

/-!
# Intrinsics

Built-in functions, statements and layout directives.
-/

namespace ShaderForge

inductive Intrinsic where
  | abs
  | sign
  | floor
  | ceil
  | fract
  | sqrt
  | inverseSqrt
  | exp
  | log
  | exp2
  | log2
  | sin
  | cos
  | tan
  | asin
  | acos
  | atan
  | pow
  | min
  | max
  | clamp
  | mix
  | step
  | smoothstep
  | mod
  | dot
  | cross
  | length
  | distance
  | normalize
  | reflect
  | transpose
  | inverse
  | determinant
  | dfdx
  | dfdy
  | fwidth
  | texture
  | textureLod
  | texelFetch
  | textureSize
  | imageLoad
  | imageStore
  | imageSize
  | discard
  | barrier
  | memoryBarrier
  | emitMeshTasks
  | setMeshOutputs
  | subgroupBarrier
  | subgroupElect
  | subgroupAdd
  | subgroupBroadcastFirst
  | atomicAdd
  | traceRay
  | terminateRay
  | ignoreIntersection
  | layoutLocalSize
  | layoutMeshShaderSizes
deriving DecidableEq, Repr, Inhabited

namespace Intrinsic

instance : Coded Intrinsic where
  all := [abs, sign, floor, ceil, fract, sqrt, inverseSqrt, exp, log, exp2, log2, sin, cos, tan,
    asin, acos, atan, pow, min, max, clamp, mix, step, smoothstep, mod, dot, cross, length,
    distance, normalize, reflect, transpose, inverse, determinant, dfdx, dfdy, fwidth,
    texture, textureLod, texelFetch, textureSize, imageLoad, imageStore, imageSize, discard,
    barrier, memoryBarrier, emitMeshTasks, setMeshOutputs, subgroupBarrier, subgroupElect,
    subgroupAdd, subgroupBroadcastFirst, atomicAdd, traceRay, terminateRay,
    ignoreIntersection, layoutLocalSize, layoutMeshShaderSizes]
  name
    | abs => "abs"
    | sign => "sign"
    | floor => "floor"
    | ceil => "ceil"
    | fract => "fract"
    | sqrt => "sqrt"
    | inverseSqrt => "inversesqrt"
    | exp => "exp"
    | log => "log"
    | exp2 => "exp2"
    | log2 => "log2"
    | sin => "sin"
    | cos => "cos"
    | tan => "tan"
    | asin => "asin"
    | acos => "acos"
    | atan => "atan"
    | pow => "pow"
    | min => "min"
    | max => "max"
    | clamp => "clamp"
    | mix => "mix"
    | step => "step"
    | smoothstep => "smoothstep"
    | mod => "mod"
    | dot => "dot"
    | cross => "cross"
    | length => "length"
    | distance => "distance"
    | normalize => "normalize"
    | reflect => "reflect"
    | transpose => "transpose"
    | inverse => "inverse"
    | determinant => "determinant"
    | dfdx => "dfdx"
    | dfdy => "dfdy"
    | fwidth => "fwidth"
    | texture => "texture"
    | textureLod => "texture_lod"
    | texelFetch => "texel_fetch"
    | textureSize => "texture_size"
    | imageLoad => "image_load"
    | imageStore => "image_store"
    | imageSize => "image_size"
    | discard => "discard"
    | barrier => "barrier"
    | memoryBarrier => "memory_barrier"
    | emitMeshTasks => "emit_mesh_tasks"
    | setMeshOutputs => "set_mesh_outputs"
    | subgroupBarrier => "subgroup_barrier"
    | subgroupElect => "subgroup_elect"
    | subgroupAdd => "subgroup_add"
    | subgroupBroadcastFirst => "subgroup_broadcast_first"
    | atomicAdd => "atomic_add"
    | traceRay => "trace_ray"
    | terminateRay => "terminate_ray"
    | ignoreIntersection => "ignore_intersection"
    | layoutLocalSize => "layout_local_size"
    | layoutMeshShaderSizes => "layout_mesh_shader_sizes"

abbrev name (i : Intrinsic) : String := Coded.name i

def glsl : Intrinsic → String
  | dfdx => "dFdx"
  | dfdy => "dFdy"
  | textureLod => "textureLod"
  | texelFetch => "texelFetch"
  | textureSize => "textureSize"
  | imageLoad => "imageLoad"
  | imageStore => "imageStore"
  | imageSize => "imageSize"
  | memoryBarrier => "memoryBarrier"
  | emitMeshTasks => "EmitMeshTasksEXT"
  | setMeshOutputs => "SetMeshOutputsEXT"
  | subgroupBarrier => "subgroupBarrier"
  | subgroupElect => "subgroupElect"
  | subgroupAdd => "subgroupAdd"
  | subgroupBroadcastFirst => "subgroupBroadcastFirst"
  | atomicAdd => "atomicAdd"
  | traceRay => "traceRayEXT"
  | terminateRay => "terminateRayEXT"
  | ignoreIntersection => "ignoreIntersectionEXT"
  | i => i.name

/-- Intrinsics that run even when their result is unused. -/
def isSideEffect : Intrinsic → Bool
  | discard | barrier | memoryBarrier | emitMeshTasks | setMeshOutputs | subgroupBarrier
  | subgroupElect | subgroupAdd | subgroupBroadcastFirst | atomicAdd | imageStore | traceRay
  | terminateRay | ignoreIntersection => true
  | _ => false

/-- Intrinsics that configure the unit and print no statement. -/
def isLayout : Intrinsic → Bool
  | layoutLocalSize | layoutMeshShaderSizes => true
  | _ => false

def isKeyword : Intrinsic → Bool
  | discard | terminateRay | ignoreIntersection => true
  | _ => false

/-- Intrinsics on an image, sampler or acceleration structure, resolved by dimension. -/
def isResourceAccess : Intrinsic → Bool
  | texture | textureLod | texelFetch | textureSize | imageLoad | imageStore | imageSize
  | traceRay => true
  | _ => false

end Intrinsic

end ShaderForge
