import ShaderForge.Prim

/-!
# Qualifiers

What a qualifier atom names: a parameter, a stage input or output, a buffer,
an image or sampler, a modifier of one of these, or a built-in variable.
-/

namespace ShaderForge

/-- How a stage input or output is interpolated. -/
inductive Interpolation where
  | flat
  | smooth
  | noPerspective
deriving DecidableEq, Repr, Inhabited

namespace Interpolation

def name : Interpolation → String
  | flat => "Flat"
  | smooth => "Smooth"
  | noPerspective => "NoPerspective"

def glsl : Interpolation → String
  | flat => "flat "
  | smooth => ""
  | noPerspective => "noperspective "

end Interpolation

/-- The number family of an image or sampler. -/
inductive Channel where
  | float
  | signed
  | unsigned
deriving DecidableEq, Repr, Inhabited

def Channel.texel : Channel → Prim
  | float => .vec4
  | signed => .ivec4
  | unsigned => .uvec4

/-- The number of coordinates of an image or sampler. -/
inductive Dimension where
  | one
  | two
  | three
deriving DecidableEq, Repr, Inhabited

def Dimension.toNat : Dimension → Nat
  | one => 1
  | two => 2
  | three => 3

/-- Texel formats of storage images. -/
inductive ImageFormat where
  | rgba32f
  | rgba16f
  | rg32f
  | r32f
  | rgba8
  | r32i
  | r32ui
deriving DecidableEq, Repr, Inhabited

def ImageFormat.name : ImageFormat → String
  | rgba32f => "rgba32f"
  | rgba16f => "rgba16f"
  | rg32f => "rg32f"
  | r32f => "r32f"
  | rgba8 => "rgba8"
  | r32i => "r32i"
  | r32ui => "r32ui"

inductive Builtin where
  | position
  | vertexIndex
  | instanceIndex
  | fragCoord
  | fragDepth
  | globalInvocation
  | localInvocation
  | localInvocationIndex
  | workGroup
  | launchId
  | launchSize
deriving DecidableEq, Repr, Inhabited

namespace Builtin

def name : Builtin → String
  | position => "gl_Position"
  | vertexIndex => "gl_VertexIndex"
  | instanceIndex => "gl_InstanceIndex"
  | fragCoord => "gl_FragCoord"
  | fragDepth => "gl_FragDepth"
  | globalInvocation => "gl_GlobalInvocationID"
  | localInvocation => "gl_LocalInvocationID"
  | localInvocationIndex => "gl_LocalInvocationIndex"
  | workGroup => "gl_WorkGroupID"
  | launchId => "gl_LaunchIDEXT"
  | launchSize => "gl_LaunchSizeEXT"

def ty : Builtin → Prim
  | position | fragCoord => .vec4
  | vertexIndex | instanceIndex => .i32
  | fragDepth => .f32
  | localInvocationIndex => .u32
  | globalInvocation | localInvocation | workGroup | launchId | launchSize => .uvec3

end Builtin

inductive Qualifier where
  | parameter
  | input (interpolation : Interpolation)
  | output (interpolation : Interpolation)
  | pushConstant
  | uniformBuffer
  | storageBuffer
  | readOnly
  | writeOnly
  | scalarLayout
  | bufferReference
  | shared
  | arrays
  | inArg
  | outArg
  | inOutArg
  | image (channel : Channel) (dim : Dimension)
  | sampler (channel : Channel) (dim : Dimension)
  | format (texel : ImageFormat)
  | taskPayload
  | hitAttribute
  | accelerationStructure
  | rayPayload
  | rayPayloadIn
  | builtin (which : Builtin)
deriving DecidableEq, Repr, Inhabited

namespace Qualifier

instance : Coded Qualifier where
  all := [parameter, input .flat, input .smooth, input .noPerspective, output .flat,
    output .smooth, output .noPerspective, pushConstant, uniformBuffer, storageBuffer,
    readOnly, writeOnly, scalarLayout, bufferReference, shared, arrays, inArg, outArg, inOutArg,
    image .float .one, image .float .two, image .float .three,
    image .signed .one, image .signed .two, image .signed .three,
    image .unsigned .one, image .unsigned .two, image .unsigned .three,
    sampler .float .one, sampler .float .two, sampler .float .three,
    sampler .signed .one, sampler .signed .two, sampler .signed .three,
    sampler .unsigned .one, sampler .unsigned .two, sampler .unsigned .three,
    format .rgba32f, format .rgba16f, format .rg32f, format .r32f, format .rgba8,
    format .r32i, format .r32ui, taskPayload, hitAttribute, accelerationStructure, rayPayload,
    rayPayloadIn, builtin .position, builtin .vertexIndex, builtin .instanceIndex,
    builtin .fragCoord, builtin .fragDepth, builtin .globalInvocation,
    builtin .localInvocation, builtin .localInvocationIndex, builtin .workGroup,
    builtin .launchId, builtin .launchSize]
  name
    | parameter => "parameter"
    | input .flat => "layout_in_flat"
    | input .smooth => "layout_in_smooth"
    | input .noPerspective => "layout_in_noperspective"
    | output .flat => "layout_out_flat"
    | output .smooth => "layout_out_smooth"
    | output .noPerspective => "layout_out_noperspective"
    | pushConstant => "push_constant"
    | uniformBuffer => "uniform_buffer"
    | storageBuffer => "storage_buffer"
    | readOnly => "read_only"
    | writeOnly => "write_only"
    | scalarLayout => "scalar_layout"
    | bufferReference => "buffer_reference"
    | shared => "shared"
    | arrays => "arrays"
    | inArg => "in_arg"
    | outArg => "out_arg"
    | inOutArg => "inout_arg"
    | image .float .one => "image1d"
    | image .float .two => "image2d"
    | image .float .three => "image3d"
    | image .signed .one => "iimage1d"
    | image .signed .two => "iimage2d"
    | image .signed .three => "iimage3d"
    | image .unsigned .one => "uimage1d"
    | image .unsigned .two => "uimage2d"
    | image .unsigned .three => "uimage3d"
    | sampler .float .one => "sampler1d"
    | sampler .float .two => "sampler2d"
    | sampler .float .three => "sampler3d"
    | sampler .signed .one => "isampler1d"
    | sampler .signed .two => "isampler2d"
    | sampler .signed .three => "isampler3d"
    | sampler .unsigned .one => "usampler1d"
    | sampler .unsigned .two => "usampler2d"
    | sampler .unsigned .three => "usampler3d"
    | format f => "format_" ++ f.name
    | taskPayload => "task_payload"
    | hitAttribute => "hit_attribute"
    | accelerationStructure => "acceleration_structure"
    | rayPayload => "ray_payload"
    | rayPayloadIn => "ray_payload_in"
    | builtin b => b.name

abbrev name (q : Qualifier) : String := Coded.name q

def image? : Qualifier → Option (Prim × Nat)
  | image c d => some (c.texel, d.toNat)
  | _ => none

def sampler? : Qualifier → Option (Prim × Nat)
  | sampler c d => some (c.texel, d.toNat)
  | _ => none

def builtin? : Qualifier → Option (String × Prim)
  | builtin b => some (b.name, b.ty)
  | _ => none

def input? : Qualifier → Option Interpolation
  | input i => some i
  | _ => none

def output? : Qualifier → Option Interpolation
  | output i => some i
  | _ => none

def format? : Qualifier → Option String
  | format f => some f.name
  | _ => none

/-- Access and layout modifiers that wrap another resource. -/
def isModifier : Qualifier → Bool
  | readOnly | writeOnly | scalarLayout => true
  | _ => false

def isArgument : Qualifier → Bool
  | inArg | outArg | inOutArg => true
  | _ => false

end Qualifier

end ShaderForge
