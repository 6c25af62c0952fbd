import ShaderForge.Command.Plan

/-!
# The program

Carries out the plan of a command.  No shader compiler is at hand, so binary
shaders are refused.
-/

namespace ShaderForge.Command

def perform : Action → IO Unit
  | .print text => do (← IO.getStdout).putStr text
  | .report text => IO.eprintln text
  | .log level text => IO.eprintln (level.name ++ " " ++ shown text)
  | .makeDirectory path => IO.FS.createDirAll path
  | .write path content =>
    IO.FS.writeBinFile path (ByteArray.mk (content.bytes?.getD []).toArray)

def inputOf (invocation : Invocation) : IO (Option Stream.Bytes) := do
  match invocation with
  | .generate request =>
    try return some (← IO.FS.readBinFile request.input).toList
    catch _ => return none
  | _ => return none

end ShaderForge.Command

open ShaderForge ShaderForge.Command in
def main (args : List String) : IO UInt32 := do
  let invocation := Invocation.ofArguments args
  let p := plan Spirv.noCompiler invocation (← inputOf invocation)
  try
    p.actions.forM perform
    if let some failure := p.failure then IO.eprintln ("Error: " ++ failure.message)
    return p.exit
  catch e =>
    IO.eprintln ("Error: " ++ toString e)
    return 1
