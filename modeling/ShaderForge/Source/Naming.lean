import ShaderForge.Buffer.Basic
import ShaderForge.Linkage.Global

/-!
# Names

The names of locals, parameters and globals in generated source.  Every text
target uses the same names.
-/

namespace ShaderForge

namespace Naming

def localName (n : Nat) : String := s!"s{n}"

def argument (position : Nat) : String := s!"_arg{position}"

def reference (id : Int) : String := s!"_Ref{id}"

end Naming

namespace Global

def name : Global → String
  | input location => s!"_lin{location}"
  | output location => s!"_lout{location}"
  | pushConstant => "_pc"
  | uniform binding => s!"_uniform{binding}"
  | buffer binding => s!"_buffer{binding}"
  | shared id => s!"_shared{id}"
  | sampler binding => s!"_sampler{binding}"
  | image binding => s!"_image{binding}"
  | special .taskPayload _ => "_task_payload"
  | special .hitAttribute _ => "_hit_attribute"
  | special .accelerationStructure binding => s!"_accel{binding}"
  | special .rayPayload binding => s!"_payload{binding}"
  | special .rayPayloadIn binding => s!"_payload_in{binding}"
  | builtin b => b.name

def block : Global → String
  | uniform binding => s!"_Uniform{binding}"
  | buffer binding => s!"_Buffer{binding}"
  | pushConstant => "_PushConstant"
  | g => "_Block" ++ g.name

/-- Follows modifiers, formats and arrays to the global that a qualifier names. -/
def resolveFrom (b : Buffer) : Nat → Index → Option Global
  | 0, _ => none
  | fuel + 1, i =>
    match b.get? i with
    | some (.qualifier underlying kind number) =>
      if kind.isModifier || kind.format?.isSome || kind == .arrays then
        resolveFrom b fuel underlying
      else ofQualifier? kind number.toInt
    | _ => none

/-- The global that the qualifier at an address names, through its wrappers. -/
def resolve? (b : Buffer) (i : Index) : Option Global := resolveFrom b (b.size + 1) i

end Global

end ShaderForge
