import ShaderForge.Fault

/-!
# Overloads

The signatures of every operator and intrinsic.  A signature fits when the
argument types, without directions, are exactly its own; broadcasting is
spelled out.
-/

namespace ShaderForge

namespace Signature

def fits (s : Signature) (args : List Ty) : Bool :=
  s.args == args.map Ty.bare

def ofPrims (result : Prim) (args : List Prim) : Signature :=
  ⟨args.map Ty.prim, Ty.prim result⟩

end Signature

namespace Overload

open Signature (ofPrims)
open Prim

structure Family where
  scalar : Prim
  vectors : List Prim

def Family.all (f : Family) : List Prim := f.scalar :: f.vectors

def floats : Family := ⟨f32, [vec2, vec3, vec4]⟩

def ints : Family := ⟨i32, [ivec2, ivec3, ivec4]⟩

def uints : Family := ⟨u32, [uvec2, uvec3, uvec4]⟩

def matrices : List Prim := [mat2, mat3, mat4]

def numericScalars : List Prim := [i32, u32, f32, f64, u64]

def integerScalars : List Prim := [i32, u32, u64]

def same (types : List Prim) : List Signature :=
  types.map fun t => ofPrims t [t]

/-- Both operands alike, or a vector with a scalar on the right, or on either side. -/
def broadcast (f : Family) (scalarFirst : Bool) : List Signature :=
  ofPrims f.scalar [f.scalar, f.scalar] :: f.vectors.flatMap fun v =>
    [ofPrims v [v, v], ofPrims v [v, f.scalar]]
      ++ if scalarFirst then [ofPrims v [f.scalar, v]] else []

def arithmetic : List Signature :=
  [f64, u64].map (fun s => ofPrims s [s, s])
    ++ [floats, ints, uints].flatMap (broadcast · true)
    ++ matrices.flatMap fun m => [ofPrims m [m, m], ofPrims m [m, f32], ofPrims m [f32, m]]

def matrixVector : List Signature :=
  matrices.flatMap fun m =>
    let column := m.column?.getD m
    [ofPrims column [m, column], ofPrims column [column, m]]

def integral : List Signature :=
  ofPrims u64 [u64, u64] :: broadcast ints false ++ broadcast uints false

def equality : List Signature :=
  (numericScalars ++ [boolean] ++ floats.vectors ++ ints.vectors ++ uints.vectors ++ matrices).map
    fun t => ofPrims boolean [t, t]

def ordering : List Signature :=
  numericScalars.map fun s => ofPrims boolean [s, s]

def ofOperator : Operator → List Signature
  | .addition | .subtraction | .division => arithmetic
  | .multiplication => arithmetic ++ matrixVector
  | .modulus | .bitAnd | .bitOr | .bitXor | .shiftLeft | .shiftRight => integral
  | .logicalAnd | .logicalOr => [ofPrims boolean [boolean, boolean]]
  | .equals | .notEquals => equality
  | .less | .lessEqual | .greater | .greaterEqual => ordering
  | .negation => same (numericScalars ++ floats.vectors ++ ints.vectors ++ matrices)
  | .logicalNot => same [boolean]
  | .bitNot => same (integerScalars ++ ints.vectors ++ uints.vectors)

/-- Every list of `n` sizes, each signed or unsigned; the first varies fastest. -/
def sizes : Nat → List (List Prim)
  | 0 => [[]]
  | n + 1 => (sizes n).flatMap fun rest => [i32 :: rest, u32 :: rest]

def clamping (f : Family) : List Signature :=
  ofPrims f.scalar [f.scalar, f.scalar, f.scalar] :: f.vectors.flatMap fun v =>
    [ofPrims v [v, v, v], ofPrims v [v, f.scalar, f.scalar]]

/-- The signatures of an intrinsic, in the order they are tried.  Resource
intrinsics have none here. -/
def ofIntrinsic : Intrinsic → List Signature
  | .floor | .ceil | .fract | .sqrt | .inverseSqrt | .exp | .log | .exp2 | .log2 | .sin | .cos
  | .tan | .asin | .acos | .atan | .normalize | .dfdx | .dfdy | .fwidth => same floats.all
  | .abs | .sign => same (floats.all ++ ints.all)
  | .length => floats.all.map fun g => ofPrims f32 [g]
  | .distance | .dot => floats.all.map fun g => ofPrims f32 [g, g]
  | .reflect | .pow => floats.all.map fun g => ofPrims g [g, g]
  | .step =>
    floats.all.map (fun g => ofPrims g [g, g]) ++ floats.vectors.map fun v => ofPrims v [f32, v]
  | .smoothstep =>
    floats.all.map (fun g => ofPrims g [g, g, g])
      ++ floats.vectors.map fun v => ofPrims v [f32, f32, v]
  | .mix =>
    floats.all.map (fun g => ofPrims g [g, g, g])
      ++ floats.vectors.map fun v => ofPrims v [v, v, f32]
  | .cross => [ofPrims vec3 [vec3, vec3]]
  | .min | .max => [floats, ints, uints].flatMap (broadcast · false)
  | .clamp => [floats, ints, uints].flatMap clamping
  | .mod => broadcast floats false
  | .transpose | .inverse => same matrices
  | .determinant => matrices.map fun m => ofPrims f32 [m]
  | .discard | .barrier | .memoryBarrier | .subgroupBarrier | .terminateRay
  | .ignoreIntersection => [ofPrims nil []]
  | .subgroupElect => [ofPrims boolean []]
  | .subgroupAdd | .subgroupBroadcastFirst => same (floats.all ++ ints.all ++ uints.all)
  | .atomicAdd => [i32, u32].map fun s => ofPrims s [s, s]
  | .emitMeshTasks => [i32, u32].map fun s => ofPrims nil [s, s, s]
  | .setMeshOutputs => [i32, u32].map fun s => ofPrims nil [s, s]
  | .layoutLocalSize => (sizes 1 ++ sizes 2 ++ sizes 3).map (ofPrims nil)
  | .layoutMeshShaderSizes => (sizes 2).map (ofPrims nil)
  | .texture | .textureLod | .texelFetch | .textureSize | .imageLoad | .imageStore | .imageSize
  | .traceRay => []

/-- The result of the first signature that fits. -/
def select (target : String) (candidates : List Signature) (args : List Ty) : Except Fault Ty :=
  match candidates.find? (·.fits args) with
  | some s => .ok s.result
  | none => .error (.overload target args candidates)

def floatCoordinate (dim : Nat) : Prim := (Prim.vector? f32 dim).getD f32

def intCoordinate (dim : Nat) : Prim := (Prim.vector? i32 dim).getD i32

def ofResource (code : Intrinsic) (resource : Ty) : List Signature :=
  let on (result : Prim) (args : List Prim) : Signature :=
    ⟨resource :: args.map Ty.prim, Ty.prim result⟩
  match code, resource with
  | .texture, .sampler texel dim => [on texel [floatCoordinate dim]]
  | .textureLod, .sampler texel dim => [on texel [floatCoordinate dim, f32]]
  | .texelFetch, .sampler texel dim => [on texel [intCoordinate dim, i32]]
  | .textureSize, .sampler _ dim => [on (intCoordinate dim) [i32]]
  | .imageLoad, .image texel dim => [on texel [intCoordinate dim]]
  | .imageStore, .image texel dim => [on nil [intCoordinate dim, texel]]
  | .imageSize, .image _ dim => [on (intCoordinate dim) []]
  | .traceRay, _ =>
    [⟨[accelerationStructure, u32, u32, u32, u32, u32, vec3, f32, vec3, f32, i32].map Ty.prim,
      .nil⟩]
  | _, _ => []

def operator (code : Operator) (args : List Ty) : Except Fault Ty :=
  select code.name (ofOperator code) args

/-- The result type of a resource intrinsic, by the dimension of its first argument. -/
def resource (code : Intrinsic) (args : List Ty) : Except Fault Ty :=
  let candidates := ofResource code ((args.head?.map Ty.bare).getD .nil)
  if candidates.isEmpty then .error (.resource code args)
  else select code.name candidates args

def intrinsic (code : Intrinsic) (args : List Ty) : Except Fault Ty :=
  if code.isResourceAccess then resource code args
  else select code.name (ofIntrinsic code) args

end Overload

end ShaderForge
