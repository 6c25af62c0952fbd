import ShaderForge.Command.Arguments
import ShaderForge.Command.Log
import ShaderForge.Generation
import ShaderForge.Stream.Decode

/-!
# The command

What a run of the command does, as a list of actions and an exit code.  A
failed action ends the run.
-/

namespace ShaderForge.Command

/-- Something that a run does outside. -/
inductive Action where
  | print (text : String)
  | report (text : String)
  | log (level : Level) (text : String)
  | makeDirectory (path : String)
  | write (path : String) (content : Content)

/-- Whether an action is to be seen at a verbosity; only log entries may not be. -/
def Action.isShown (verbosity : Nat) : Action → Bool
  | log level _ => level.verbosity ≤ verbosity
  | _ => true

inductive Failure where
  | unreadable (path : String)
  | malformed (path : String) (refusal : Refusal)
  | optimization (fault : Fault)
  | unknownEntry (name : String) (known : List String)
  | linking (fault : LinkFault)
  | unknownTarget (name : String)
  | generation (fault : TargetFault)
  /-- A binary artifact has nowhere to go. -/
  | noOutputPath

def Failure.message : Failure → String
  | unreadable path => s!"failed to read {path}"
  | malformed path refusal => s!"failed to read {path}: {refusal.message}"
  | optimization fault => s!"optimization failed: {fault.message}"
  | unknownEntry name known =>
    s!"no function named '{name}' (available: " ++ ", ".intercalate known ++ ")"
  | linking fault => s!"linking failed: {fault.message}"
  | unknownTarget name =>
    s!"unknown target '{name}' (available: " ++ ", ".intercalate Target.words ++ ")"
  | generation fault => s!"backend compilation failed: {fault.message}"
  | noOutputPath => "backend produced binary output but no --output path was specified"

/-- The exit code of a failure; one that ends the program has its own. -/
def Failure.exit : Failure → UInt32
  | generation (.machine fault) => if fault.isAbrupt then 101 else 1
  | malformed _ .overflow => 101
  | _ => 1

/-- A run in the making; a failed one keeps the actions before the failure. -/
abbrev Planning := ExceptT Failure (StateM (List Action))

namespace Planning

def act (a : Action) : Planning PUnit := modify (· ++ [a])

def take {ε α : Type} (failure : ε → Failure) : Except ε α → Planning α
  | .ok a => return a
  | .error e => throw (failure e)

/-- Links functions and logs what linking notes, also when it fails. -/
def link (r : Registry) (entries : List FunctionId) : Planning (Except LinkFault Linkage) := do
  let (answer, u) := (entries.forM (Linkage.add r)).apply {}
  u.notes.forM fun n =>
    act (.log (if n.warning?.isSome then .warning else .debug) n.message)
  return answer.map fun _ => u

def logPrinted (u : Linkage) (target : Target) (o : Options) : Planning PUnit :=
  (u.printed target o).forM fun (name, count) =>
    act (.log .debug s!"generated `{name}` with {count} local(s)")

end Planning

open Planning

def entries (request : Request) (r : Registry) : Planning (List FunctionId) :=
  if request.entries.isEmpty then return r.functions.map Function.id
  else request.entries.mapM fun name =>
    match r.find? name with
    | some f => return f.id
    | none => throw (.unknownEntry name (r.functions.map Function.name))

/-- The path of a name in a directory; a name that starts at the root stays there. -/
def inside (directory name : String) : String :=
  if name.startsWith "/" then name else directory ++ "/" ++ name

/-- Writes the listing, the graph and the GLSL of every function; where there is
no GLSL, the log says why. -/
def dump (r : Registry) (u : Linkage) (directory : String) (o : Options) : Planning PUnit := do
  act (.makeDirectory directory)
  u.functions.forM fun f => do
    let file (suffix : String) : String := inside directory (f.name ++ suffix)
    act (.write (file ".asm") (.text f.listing))
    act (.write (file ".dot") (.text (f.buffer.graph f.name)))
    let single ← link r [f.id]
    single.toOption.forM fun single => logPrinted single .glsl o
    match TargetFault.ofLink single >>= fun single => Glsl.generate single o with
    | .ok source => act (.write (file ".glsl") (.text source))
    | .error e => act (.log .warning s!"no GLSL dump for `{f.name}`: {e.message}")
  act (.log .info s!"wrote dumps of {u.functions.length} function(s) to {directory}")

/-- Delivers an artifact: text to the output path or to standard output, the
symbols of native code to standard output. -/
def deliver (output : Option String) (content : Content) : Planning PUnit :=
  match output, content with
  | none, .text text => act (.print text)
  | _, .native code => code.symbols.forM fun symbol => act (.print (symbol ++ "\n"))
  | some path, content => act (.write path content)
  | none, _ => throw .noOutputPath

/-- Generates what is requested from the bytes of the input, if it can be read. -/
def generate (compiler : Spirv.ShaderCompiler) (request : Request)
    (input : Option Stream.Bytes) : Planning PUnit := do
  let bytes ← take id (input.elim (.error (.unreadable request.input)) .ok)
  let r ← take (.malformed request.input) (Stream.readRegistry bytes)
  let (optimized, improved) := r.optimize request.level
  take .optimization optimized
  (r.functions.zip improved.functions).forM fun (f, g) =>
    act (.log .debug s!"optimized `{f.name}`: {f.buffer.size} -> {g.buffer.size} atoms")
  let r := improved
  let entries ← entries request r
  let u ← take .linking (← link r entries)
  let o : Options :=
    { stage := request.stage, glslVersion := request.glslVersion, level := request.level }
  if request.emitAssembly then act (.report u.listing)
  request.dumpDirectory.forM fun directory => dump r u directory o
  match Target.find? request.target with
  | none => throw (.unknownTarget request.target)
  | some target =>
    logPrinted u target o
    let output ← take .generation (u.generate compiler target o)
    act (.log .info (s!"{u.functions.length} function(s), {u.aggregates.size} aggregate(s) -> "
      ++ s!"{request.target} via {target.title} ({output.summary})"))
    output.notes.forM fun note => act (.report s!"{Output.severity}: {note}")
    output.artifacts.forM fun artifact => deliver request.output artifact.content

def name : String := "thunder"

def version : String := "0.1.0"

def usage : String :=
  String.join ([
    "Command-line driver for the Thunder shader compiler",
    "",
    s!"Usage: {name} [OPTIONS] <INPUT>",
    "",
    "Arguments:",
    "  <INPUT>  Input function stream",
    "",
    "Options:",
    "  -t, --target <TARGET>              Target backend: glsl, cpp, spirv, jit or asm [default: glsl]",
    "  -s, --stage <STAGE>                Pipeline stage (vertex, fragment, compute, task, mesh, rgen, rchit, rahit, rmiss, rint) [default: vertex]",
    "  -e, --entry <ENTRY>                Function to link; repeat for several entries (default: every function)",
    "  -o, --output <OUTPUT>              Output path (default: stdout)",
    "      --opt-level <OPT_LEVEL>        Optimization level: 0, 1, or 2 [default: 1]",
    "      --glsl-version <GLSL_VERSION>  GLSL `#version` to generate [default: 460]",
    "      --emit-asm                     Dump the linked unit's assembly to stderr before generation",
    "      --dump-dir <DUMP_DIR>          Write assembly, GLSL and Graphviz dumps of every function here",
    "  -v, --verbose...                   More logging (-v info, -vv debug)",
    "  -h, --help                         Print help",
    "  -V, --version                      Print version"].map (· ++ "\n"))

/-- The actions of a run, and its exit code if all of them succeed. -/
structure Plan where
  actions : List Action
  exit : UInt32
  failure : Option Failure := none

/-- What the arguments make the command do, given how to read files. -/
def plan (compiler : Spirv.ShaderCompiler) (invocation : Invocation)
    (input : Option Stream.Bytes) : Plan :=
  match invocation with
  | .help => { actions := [.print usage], exit := 0 }
  | .version => { actions := [.print s!"{name} {version}\n"], exit := 0 }
  | .misuse => { actions := [.report s!"Usage: {name} [OPTIONS] <INPUT>"], exit := 2 }
  | .generate request =>
    let shown := List.filter fun (a : Action) => a.isShown request.verbosity
    match (generate compiler request input).run.run [] with
    | (.ok _, actions) => { actions := shown actions, exit := 0 }
    | (.error failure, actions) =>
      { actions := shown actions, exit := failure.exit, failure := some failure }

end ShaderForge.Command
