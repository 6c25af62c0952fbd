import ShaderForge.Source.Glsl
import ShaderForge.Source.Preamble

/-!
# C++

The C++ spelling, and the source of a whole unit: the vector library, one
struct per aggregate, the functions.  There are no global declarations; a
function takes the resources that it and its callees use as further
parameters.
-/

namespace ShaderForge.Cpp

def floatSpelling (suffix : String) : FloatSpelling where
  nan := "NAN"
  infinity negative := if negative then "-INFINITY" else "INFINITY"
  suffix := suffix

def literal : Literal → String
  | .bool b => if b then "true" else "false"
  | .i32 v => toString v.toInt
  | .u32 v => toString v.toNat ++ "u"
  | .f32 bits => (floatSpelling "f").render .single bits.toNat
  | .f64 bits => (floatSpelling "").render .double bits.toNat
  | .u64 v => toString v.toNat ++ "ull"

def primitive : Prim → String
  | .nil => "void"
  | .boolean => "bool"
  | .i32 => "int32_t"
  | .u32 => "uint32_t"
  | .f32 => "float"
  | .f64 => "double"
  | .u64 | .accelerationStructure => "uint64_t"
  | p => "tsl::" ++ p.glsl

def array (element : String) (size : Int) : String :=
  if size < 0 then element ++ " *" else s!"std::array<{element}, {size}>"

/-- Braces initialise aggregates and arrays, calls all else. -/
def construct (ty : LinkedTy) (name : String) (args : List String) : String :=
  let args := ", ".intercalate args
  match ty with
  | .data (.aggregate _) | .array .. => name ++ "\x7b" ++ args ++ "\x7d"
  | _ => name ++ "(" ++ args ++ ")"

/-- A selection of components; several of them go through a library function. -/
def select (function src : String) (code : Swizzle) : String :=
  match code.components with
  | [single] => s!"{src}[{single}]"
  | many =>
    s!"tsl::{function}<{many.length}>({src}, " ++ ", ".intercalate (many.map toString) ++ ")"

def isLibrary : Intrinsic → Bool
  | .dfdx | .dfdy | .fwidth | .texture | .textureLod | .texelFetch | .textureSize | .imageLoad
  | .imageStore | .imageSize | .discard | .barrier | .memoryBarrier | .emitMeshTasks
  | .setMeshOutputs | .subgroupBarrier | .subgroupElect | .subgroupAdd
  | .subgroupBroadcastFirst | .atomicAdd | .traceRay | .terminateRay | .ignoreIntersection
  | .layoutLocalSize | .layoutMeshShaderSizes => false
  | _ => true

def intrinsic (code : Intrinsic) (args : List String) : Except TargetFault String :=
  if isLibrary code then return "tsl::" ++ code.glsl ++ "(" ++ ", ".intercalate args ++ ")"
  else .error (.unsupported (.cppIntrinsic code))

/-- The spelling without resources: what types and constants look like. -/
def plain : Dialect where
  primitive := primitive
  array := array
  image _ dim := .error (.unsupported (.cppImage dim))
  sampler _ dim := .error (.unsupported (.cppSampler dim))
  reference base _ := base ++ " *"
  literal := literal
  construct := construct
  addressCast name address := s!"reinterpret_cast<{name}>({address})"
  swizzle := select "swizzle"
  swizzleTarget := select "select"
  intrinsic := intrinsic
  blockMember name _ := name
  dereference name _ := "(*" ++ name ++ ")"
  parameter ty name d := ty ++ (if d.writes then " &" else " ") ++ name

def declared {α : Type} (g : Global) (ty : α → LinkedTy) (entry : Option α) :
    Except TargetFault LinkedTy :=
  match entry with
  | some a => return ty a
  | none => .error (.other (.undeclared g))

def globalType (u : Linkage) (g : Global) : Except TargetFault LinkedTy :=
  match g with
  | .input n => declared g LayoutVariable.ty u.globals.inputs[n]?
  | .output n => declared g LayoutVariable.ty u.globals.outputs[n]?
  | .pushConstant => declared g PushConstant.ty u.globals.pushConstant
  | .uniform n => declared g BufferBinding.ty u.globals.uniforms[n]?
  | .buffer n => declared g BufferBinding.ty u.globals.buffers[n]?
  | .shared n => declared g SharedVariable.ty u.globals.shared[n]?
  | .special .accelerationStructure _ => return .prim .accelerationStructure
  | .special .. => declared g SpecialGlobal.ty u.globals.special[g]?
  | .builtin b => return .prim b.ty
  | .sampler _ | .image _ => .error (.unsupported (.cppGlobal g.name))

def resourceParameter (u : Linkage) (g : Global) (name : String) : Except TargetFault String := do
  match ← globalType u g with
  | .array element size =>
    if size < 0 then return (← plain.dataName u element) ++ " *" ++ name
    else return (← plain.typeName u (.array element size)) ++ " &" ++ name
  | ty => return (← plain.typeName u ty) ++ " &" ++ name

def resources (u : Linkage) (id : FunctionId) : List Global := (u.globalsUsed id).toList

def spelled (names : Global → String) : Dialect :=
  { plain with
    global := names
    call := fun u callee symbol args =>
      symbol ++ "(" ++ ", ".intercalate (args ++ (resources u callee).map names) ++ ")"
    extraParameters := fun u id => (resources u id).mapM fun g => resourceParameter u g (names g) }

def dialect : Dialect := spelled Global.name

def header (u : Linkage) : Except TargetFault String := do
  let structs ← Glsl.structs dialect u u.aggregates.toList
  return preamble ++ "\n" ++ structs ++ "namespace unit \x7b\n"

def generate (u : Linkage) : Except TargetFault String := do
  return (← header u) ++ (← Glsl.definitions dialect u) ++ "\n\x7d // namespace unit\n"

end ShaderForge.Cpp
