import ShaderForge.Native.Module
import ShaderForge.Source.Cpp
import ShaderForge.Source.Spirv

/-!
# Generation

A unit generated for a target: named artifacts with notes about them.
-/

namespace ShaderForge

inductive Content where
  | text (s : String)
  | spirv (stage : Stage) (words : List UInt32)
  /-- Code in memory, which cannot be written out. -/
  | native (code : Native.Module)

namespace Content

def bytes? : Content → Option (List UInt8)
  | text s => some s.toUTF8.toList
  | spirv _ words => some (words.flatMap fun w => LittleEndian.encode 4 w.toNat)
  | native _ => none

def summary : Content → String
  | text s => s!"Text({s.utf8ByteSize} chars)"
  | spirv stage words => s!"Spirv({stage.name}, {words.length} words)"
  | native code => s!"Native({code.symbols.length} functions)"

end Content

structure Artifact where
  name : String
  content : Content

/-- What a generation request gives: artifacts, and notes for the reader. -/
structure Output where
  artifacts : List Artifact
  notes : List String := []

namespace Output

def summary (o : Output) : String :=
  s!"{o.artifacts.length} file(s), {o.notes.length} diagnostic(s)"

def severity : String := "Info"

def diagnostics (o : Output) : List String := o.notes.map fun note => s!"[{severity}] {note}"

end Output

namespace Linkage

/-- Generates a unit for a target, with a shader compiler for the targets that
need one. -/
def generate (compiler : Spirv.ShaderCompiler) (u : Linkage) (target : Target) (o : Options) :
    Except TargetFault Output :=
  match target with
  | .glsl => do
    let source ← Glsl.generate u o
    return {
      artifacts := [⟨"unit.glsl", .text source⟩]
      notes := [s!"{u.functions.length} function(s), {u.aggregates.size} aggregate(s) "
        ++ s!"for stage {o.stage.name}"] }
  | .cpp => return { artifacts := [⟨"unit.cpp", .text (← Cpp.generate u)⟩] }
  | .spirv => do
    let words ← Spirv.compile compiler u o
    return { artifacts := [⟨s!"unit.{o.stage.name}.spv", .spirv o.stage words⟩] }
  | .native => do
    let code ← Native.Module.compile u
    return {
      artifacts := [⟨"unit.jit", .native code⟩]
      notes := ["native entry points: " ++ ", ".intercalate code.symbols] }
  | .assembly => return { artifacts := [⟨"unit.asm", .text u.listing⟩] }

/-- The functions that are printed when a unit is generated for a text target,
each with the number of its locals. -/
def printed (u : Linkage) (target : Target) (o : Options) : List (String × Nat) :=
  match target with
  | .glsl =>
    if (Glsl.header u o).toOption.isSome then Glsl.printed Glsl.dialect u u.functions else []
  | .cpp => if (Cpp.header u).toOption.isSome then Glsl.printed Cpp.dialect u u.functions else []
  | .spirv | .native | .assembly => []

end Linkage

end ShaderForge
