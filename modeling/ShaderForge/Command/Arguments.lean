import ShaderForge.Target

/-!
# Command line arguments

Flags are read from left to right; a value follows its flag, in the same word
or in the next one.  The first word that does not fit ends the reading.
-/

namespace ShaderForge.Command

/-- What to generate, and where to. -/
structure Request where
  input : String
  target : String := "glsl"
  stage : Stage := .vertex
  /-- The functions to link; none for all. -/
  entries : List String := []
  output : Option String := none
  level : OptLevel := .basic
  glslVersion : Nat := 460
  emitAssembly : Bool := false
  dumpDirectory : Option String := none
  verbosity : Nat := 0
deriving DecidableEq, Repr

inductive Invocation where
  | generate (request : Request)
  | help
  | version
  /-- The arguments do not fit together. -/
  | misuse
deriving DecidableEq, Repr

inductive Flag where
  | target
  | stage
  | entry
  | output
  | optLevel
  | glslVersion
  | emitAssembly
  | dumpDirectory
  | verbose
  | help
  | version
deriving DecidableEq, Repr

namespace Flag

def all : List Flag :=
  [target, stage, entry, output, optLevel, glslVersion, emitAssembly, dumpDirectory, verbose,
    help, version]

def long : Flag → String
  | target => "target"
  | stage => "stage"
  | entry => "entry"
  | output => "output"
  | optLevel => "opt-level"
  | glslVersion => "glsl-version"
  | emitAssembly => "emit-asm"
  | dumpDirectory => "dump-dir"
  | verbose => "verbose"
  | help => "help"
  | version => "version"

def short? : Flag → Option Char
  | target => some 't'
  | stage => some 's'
  | entry => some 'e'
  | output => some 'o'
  | verbose => some 'v'
  | help => some 'h'
  | version => some 'V'
  | optLevel | glslVersion | emitAssembly | dumpDirectory => none

def takesValue : Flag → Bool
  | emitAssembly | verbose | help | version => false
  | _ => true

/-- Whether a flag may be given more than once. -/
def repeats : Flag → Bool
  | entry | verbose => true
  | _ => false

end Flag

structure Draft where
  input : Option String := none
  seen : List Flag := []
  request : Request := { input := "" }

abbrev Reading := Except Invocation Draft

def integer? (s : String) : Option Int :=
  let digits (cs : List Char) : Option Nat :=
    if cs.isEmpty || !cs.all Char.isDigit then none
    else some (cs.foldl (fun n c => 10 * n + (c.toNat - '0'.toNat)) 0)
  match s.toList with
  | '+' :: cs => (digits cs).map Int.ofNat
  | '-' :: cs => (digits cs).map fun n => -Int.ofNat n
  | cs => (digits cs).map Int.ofNat

def path (s : String) : Except Invocation String :=
  if s.isEmpty then .error .misuse else .ok s

/-- Notes that a flag was given; most flags may be given once. -/
def Draft.note (d : Draft) (f : Flag) : Reading :=
  if d.seen.contains f && !f.repeats then .error .misuse
  else .ok { d with seen := f :: d.seen }

def Draft.set (d : Draft) (f : Flag) : Reading :=
  match f with
  | .help => .error .help
  | .version => .error .version
  | f => do
    let d ← d.note f
    let r := d.request
    return { d with request := match f with
      | .emitAssembly => { r with emitAssembly := true }
      | .verbose => { r with verbosity := r.verbosity + 1 }
      | _ => r }

def assign (r : Request) (f : Flag) (value : String) : Except Invocation Request :=
  match f with
  | .target => return { r with target := value }
  | .stage =>
    match Stage.ofName value with
    | .ok stage => return { r with stage }
    | .error _ => .error .misuse
  | .entry => return { r with entries := r.entries ++ [value] }
  | .output => return { r with output := some (← path value) }
  | .optLevel =>
    match value with
    | "0" => return { r with level := .none }
    | "1" => return { r with level := .basic }
    | "2" => return { r with level := .full }
    | _ => .error .misuse
  | .glslVersion =>
    match integer? value with
    | some n =>
      if 0 ≤ n && n < 0x100000000 then return { r with glslVersion := n.toNat } else .error .misuse
    | none => .error .misuse
  | .dumpDirectory => return { r with dumpDirectory := some (← path value) }
  | _ => return r

def Draft.give (d : Draft) (f : Flag) (value : String) : Reading := do
  let request ← assign d.request f value
  ({ d with request }).note f

def Draft.place (d : Draft) (word : String) : Reading := do
  if d.input.isSome then .error .misuse
  else return { d with input := some (← path word) }

def isFlag (word : String) : Bool := word.startsWith "-" && word != "-"

/-- A reading with the flag that still waits for its value in the next word. -/
abbrev Waiting := Except Invocation (Draft × Option Flag)

/-- Reads a flag by its long name, with a value after an equals sign. -/
def Draft.longFlag (d : Draft) (text : String) : Waiting :=
  let cs := text.toList
  let name := String.ofList (cs.takeWhile (· != '='))
  match Flag.all.find? (·.long == name), cs.dropWhile (· != '=') with
  | none, _ => .error .misuse
  | some f, _ :: value =>
    if f.takesValue then return (← d.give f (String.ofList value), none) else .error .misuse
  | some f, [] => if f.takesValue then return (d, some f) else return (← d.set f, none)

/-- Reads flags by their letters; what follows a letter that takes a value is
the value. -/
def Draft.letters (d : Draft) : List Char → Waiting
  | [] => return (d, none)
  | c :: rest =>
    match Flag.all.find? (·.short? == some c) with
    | none => .error .misuse
    | some f =>
      if f.takesValue then
        match rest with
        | [] => return (d, some f)
        | '=' :: value | value => return (← d.give f (String.ofList value), none)
      else do
        (← d.set f).letters rest

def Draft.words (d : Draft) (waiting : Option Flag) : List String → Reading
  | [] => if waiting.isSome then .error .misuse else .ok d
  | word :: rest => do
    match waiting with
    | some f =>
      if isFlag word then .error .misuse
      else (← d.give f word).words none rest
    | none =>
      if word == "--" then rest.foldlM Draft.place d
      else
        match word.toList with
        | '-' :: '-' :: name =>
          let (d, waiting) ← d.longFlag (String.ofList name)
          d.words waiting rest
        | '-' :: c :: cs =>
          let (d, waiting) ← d.letters (c :: cs)
          d.words waiting rest
        | _ => (← d.place word).words none rest

def Invocation.ofArguments (args : List String) : Invocation :=
  match ({} : Draft).words none args with
  | .error asked => asked
  | .ok d =>
    match d.input with
    | some input => .generate { d.request with input }
    | none => .misuse

end ShaderForge.Command
