import ShaderForge.Source.Glsl

/-!
# SPIR-V

GLSL handed to a shader compiler, with an entry point added when the unit has
none.
-/

namespace ShaderForge.Spirv

/-- A shader compiler: source, stage and version to words, or a log. -/
abbrev ShaderCompiler := String → Stage → Nat × Nat → Except String (List UInt32)

def noCompiler : ShaderCompiler := fun _ _ _ => .error "no shader compiler is available"

def entryPoint : String := "main"

/-- An entry point that does nothing visible; a vertex shader must still write a
position. -/
def placeholder : Stage → String
  | .vertex => s!"void {entryPoint}() \x7b\n    gl_Position = vec4(0.0);\n\x7d\n"
  | _ => s!"void {entryPoint}() \x7b\x7d\n"

def source (u : Linkage) (o : Options) : Except TargetFault String := do
  let text ← Glsl.generate u o
  if u.functions.any (·.name == entryPoint) then return text
  else return text ++ "\n" ++ placeholder o.stage

def compile (compiler : ShaderCompiler) (u : Linkage) (o : Options) :
    Except TargetFault (List UInt32) := do
  if !o.stage.isRaster then .error (.unsupported (.spirvStage o.stage))
  else
    let generated ← source u o
    match compiler generated o.stage o.spirvVersion with
    | .ok words => return words
    | .error log => .error (.compiler log generated)

end ShaderForge.Spirv
