import ShaderForge.Command.Plan

/-!
# Folders

Directories and files in memory, on which a plan can be played: what it prints
and the files it leaves.  A path is walked step by step, so every directory on
its way has to be there, also those that it leaves again.
-/

namespace ShaderForge.Command

/-! ### Paths -/

structure Path where
  /-- Whether the path starts at the root. -/
  absolute : Bool
  /-- The names on the way, with `.` and `..` among them. -/
  steps : List String
  /-- Whether a slash follows, so that the path names a directory. -/
  closed : Bool
deriving DecidableEq, Repr

def pathLimit : Nat := 4095

def nameLimit : Nat := 255

namespace Path

/-- The path that a text denotes; not every text denotes one. -/
def ofText? (text : String) : Option Path :=
  if text.isEmpty || text.toList.contains (Char.ofNat 0) || pathLimit < text.utf8ByteSize then none
  else some {
    absolute := text.startsWith "/"
    steps := (text.splitOn "/").filter (· != "")
    closed := text.endsWith "/" }

/-- The steps that count when a path is taken apart: a dot does only at the
beginning. -/
def parts (p : Path) : List String :=
  match p.absolute, p.steps with
  | false, "." :: rest => "." :: rest.filter (· != ".")
  | _, steps => steps.filter (· != ".")

/-- The path and those of the directories around it, from the inside out. -/
def outwards (p : Path) : List Path :=
  let around := (List.range p.parts.length).reverse.filter (· != 0)
  p :: around.map fun n => { absolute := p.absolute, steps := p.parts.take n, closed := false }

end Path

/-! ### Directories and files -/

abbrev Place := List String

structure Folder where
  /-- The directory where paths start that do not start at the root. -/
  here : Place := []
  directories : List Place := [[]]
  files : List (Place × Content) := []

inductive Obstacle where
  | missing
  /-- Something is there that the walk cannot pass, or cannot be there. -/
  | blocked
deriving DecidableEq, Repr

namespace Folder

def isDirectory (d : Folder) (p : Place) : Bool := d.directories.contains p

def isFile (d : Folder) (p : Place) : Bool := d.files.any (·.1 == p)

def enter (d : Folder) (p : Place) (step : String) : Except Obstacle Place :=
  if step == "." then return p
  else if step == ".." then return p.dropLast
  else if nameLimit < step.utf8ByteSize then .error .blocked
  else if d.isDirectory (p ++ [step]) then return p ++ [step]
  else .error (if d.isFile (p ++ [step]) then .blocked else .missing)

def walk (d : Folder) (p : Path) (steps : List String) : Except Obstacle Place :=
  steps.foldlM d.enter (if p.absolute then [] else d.here)

/-- The place that the last step of a path names inside the directory around it. -/
def locate (d : Folder) (p : Path) : Except Obstacle Place := do
  match p.steps.getLast? with
  | none => .error .blocked
  | some name =>
    let around ← d.walk p p.steps.dropLast
    if name == "." || name == ".." || decide (nameLimit < name.utf8ByteSize) then .error .blocked
    else return around ++ [name]

def fileAt? (d : Folder) (text : String) : Option Place := do
  let p ← Path.ofText? text
  let place ← (d.locate p).toOption
  if p.closed || d.isDirectory place then none else return place

def get? (d : Folder) (text : String) : Option Content := do
  let place ← d.fileAt? text
  (d.files.find? (·.1 == place)).map (·.2)

def write? (d : Folder) (text : String) (content : Content) : Option Folder := do
  let place ← d.fileAt? text
  return { d with files := d.files.filter (·.1 != place) ++ [(place, content)] }

def leads (d : Folder) (p : Path) : Bool := (d.walk p p.steps).toOption.isSome

def makeOne (d : Folder) (p : Path) : Except Obstacle Folder := do
  let place ← d.locate p
  if d.isDirectory place || d.isFile place then .error .blocked
  else return { d with directories := d.directories ++ [place] }

/-- Makes the first directory of a list, where it is missing after those that
follow in the list. -/
def makeAll? (d : Folder) : List Path → Option Folder
  | [] => some d
  | p :: around =>
    let made (d : Folder) : Option Folder :=
      match d.makeOne p with
      | .ok d => some d
      | .error _ => if d.leads p then some d else none
    match d.makeOne p with
    | .error .missing => do made (← d.makeAll? around)
    | _ => made d

def makeDirectory? (d : Folder) (text : String) : Option Folder := do
  d.makeAll? (← Path.ofText? text).outwards

end Folder

/-! ### Runs -/

structure Trace where
  folder : Folder
  output : String := ""
  /-- The lines for the reader; of a log entry, those after its first. -/
  lines : List String := []

def Trace.step? (t : Trace) : Action → Option Trace
  | .print text => some { t with output := t.output ++ text }
  | .report text => some { t with lines := t.lines ++ text.splitOn "\n" }
  | .log _ text => some { t with lines := t.lines ++ ((shown text).splitOn "\n").drop 1 }
  | .makeDirectory path => return { t with folder := ← t.folder.makeDirectory? path }
  | .write path content => return { t with folder := ← t.folder.write? path content }

/-- Plays actions up to the first that fails; says whether all succeeded. -/
def Trace.play (t : Trace) : List Action → Bool × Trace
  | [] => (true, t)
  | a :: rest =>
    match t.step? a with
    | some t => t.play rest
    | none => (false, t)

def Plan.play (p : Plan) (d : Folder) : UInt32 × Trace :=
  match ({ folder := d } : Trace).play p.actions with
  | (true, t) => (p.exit, t)
  | (false, t) => (1, t)

end ShaderForge.Command
