import ShaderForge.Coded

/-!
# Primitive types

Scalars, vectors and square matrices, with their component structure.
-/

namespace ShaderForge

/-- The built-in scalar, vector and matrix types. -/
inductive Prim where
  | nil
  | boolean
  | i32
  | u32
  | f32
  | f64
  | u64
  | vec2
  | vec3
  | vec4
  | ivec2
  | ivec3
  | ivec4
  | uvec2
  | uvec3
  | uvec4
  | mat2
  | mat3
  | mat4
  | accelerationStructure
deriving DecidableEq, Repr, Inhabited

namespace Prim

instance : Coded Prim where
  all := [nil, boolean, i32, u32, f32, f64, u64, vec2, vec3, vec4, ivec2, ivec3, ivec4,
    uvec2, uvec3, uvec4, mat2, mat3, mat4, accelerationStructure]
  name
    | nil => "nil"
    | boolean => "boolean"
    | i32 => "i32"
    | u32 => "u32"
    | f32 => "f32"
    | f64 => "f64"
    | u64 => "u64"
    | vec2 => "vec2"
    | vec3 => "vec3"
    | vec4 => "vec4"
    | ivec2 => "ivec2"
    | ivec3 => "ivec3"
    | ivec4 => "ivec4"
    | uvec2 => "uvec2"
    | uvec3 => "uvec3"
    | uvec4 => "uvec4"
    | mat2 => "mat2"
    | mat3 => "mat3"
    | mat4 => "mat4"
    | accelerationStructure => "acceleration_structure"

abbrev name (p : Prim) : String := Coded.name p

/-- The number of scalar components; a matrix counts columns times rows. -/
def components : Prim → Nat
  | nil | accelerationStructure => 0
  | boolean | i32 | u32 | f32 | f64 | u64 => 1
  | vec2 | ivec2 | uvec2 => 2
  | vec3 | ivec3 | uvec3 => 3
  | vec4 | ivec4 | uvec4 | mat2 => 4
  | mat3 => 9
  | mat4 => 16

/-- The type of one component; a scalar is its own component. -/
def scalar : Prim → Prim
  | vec2 | vec3 | vec4 | mat2 | mat3 | mat4 => f32
  | ivec2 | ivec3 | ivec4 => i32
  | uvec2 | uvec3 | uvec4 => u32
  | p => p

def column? : Prim → Option Prim
  | mat2 => some vec2
  | mat3 => some vec3
  | mat4 => some vec4
  | _ => none

def rows (p : Prim) : Nat :=
  match p with
  | mat2 => 2
  | mat3 => 3
  | mat4 => 4
  | _ => p.components

def isScalar (p : Prim) : Bool := p.components == 1

def isMatrix (p : Prim) : Bool := p.column?.isSome

def isVector (p : Prim) : Bool :=
  !p.isMatrix && decide (2 ≤ p.components) && decide (p.components ≤ 4)

def isFloat (p : Prim) : Bool := p.scalar == f32 || p.scalar == f64

def isInteger (p : Prim) : Bool := p.scalar == i32 || p.scalar == u32 || p.scalar == u64

/-- The vector of `size` components of a scalar; size one is the scalar itself. -/
def vector? (s : Prim) (size : Nat) : Option Prim :=
  if size = 1 then (if s.isScalar then some s else none)
  else match s, size with
    | f32, 2 => some vec2
    | f32, 3 => some vec3
    | f32, 4 => some vec4
    | i32, 2 => some ivec2
    | i32, 3 => some ivec3
    | i32, 4 => some ivec4
    | u32, 2 => some uvec2
    | u32, 3 => some uvec3
    | u32, 4 => some uvec4
    | _, _ => none

def scalarSize (p : Prim) : Nat :=
  match p.scalar with
  | f64 | u64 | accelerationStructure => 8
  | nil => 0
  | _ => 4

def glsl : Prim → String
  | nil => "void"
  | boolean => "bool"
  | i32 => "int"
  | u32 => "uint"
  | f32 => "float"
  | f64 => "double"
  | u64 => "uint64_t"
  | accelerationStructure => "accelerationStructureEXT"
  | p => p.name

end Prim

end ShaderForge
