import ShaderForge.Liveness

/-!
# Functions

A buffer with the signature derived from it.
-/

namespace ShaderForge

/-- A function: a validated, analyzed and marked buffer with its signature. -/
structure Function where
  name : String
  id : FunctionId
  buffer : Buffer
  /-- The type of the returned value; nil for procedures. -/
  returns : Ty := .nil
  /-- The types of the parameters, by position. -/
  args : List Ty := []

namespace Function

instance : Inhabited Function := ⟨{ name := "", id := 0, buffer := {} }⟩

/-- The parameters of a buffer with their positions, in order of position. -/
def parametersOf (b : Buffer) : List (Index × Nat) :=
  let found := b.indexed.filterMap fun (i, a) =>
    match a with
    | .qualifier _ .parameter number => some (i, number.toInt.toNat)
    | _ => none
  found.mergeSort fun p q => p.2 ≤ q.2

def parameters (f : Function) : List (Index × Nat) := parametersOf f.buffer

/-- The parameter types; positions count up from `expected`. -/
def argumentTypes (name : String) (b : Buffer) : Nat → List (Index × Nat) → Except Fault (List Ty)
  | _, [] => return []
  | expected, (i, position) :: rest =>
    if position ≠ expected then .error (b.fault (.parameterPosition i name position expected))
    else do
      let ty ← b.typeOf i
      let types ← argumentTypes name b (expected + 1) rest
      return ty :: types

/-- The type that all returns agree on, given what earlier ones yield. -/
def returnType (name : String) (b : Buffer) : Option Ty → List (Index × Atom) →
    Except Fault (Option Ty)
  | known, [] => return known
  | known, (i, a) :: rest =>
    match a with
    | .ret value => do
      let ty := (← b.typeOf value).bare
      match known with
      | some previous =>
        if previous ≠ ty then .error (b.fault (.returnMismatch i name ty previous))
        else returnType name b known rest
      | none => returnType name b (some ty) rest
    | _ => returnType name b known rest

/-- Changes of a function that may fail; a failed change keeps what it has done. -/
abbrev Revision := ExceptT Fault (StateM Function)

def Revision.apply {α : Type} (r : Revision α) (f : Function) : Except Fault α × Function :=
  (ExceptT.run r).run f

def onBuffer {α : Type} (e : Edit α) : Revision α := ExceptT.mk do
  let f ← get
  let (answer, buffer) := e.apply f.buffer
  set { f with buffer }
  return answer

/-- Validates, analyzes and marks the buffer and derives the signature. -/
def prepare : Revision Unit := do
  onBuffer (Edit.query Buffer.validate)
  if (← get).buffer.isEmpty then
    modify ({ · with returns := .nil, args := [] })
  else
    onBuffer Buffer.analyze
    onBuffer Buffer.mark
    let name := (← get).name
    let args ← onBuffer (Edit.query fun b => argumentTypes name b 0 (parametersOf b))
    modify ({ · with args })
    let returns ← onBuffer (Edit.query fun b => returnType name b none b.indexed)
    modify ({ · with returns := returns.getD .nil })

def build (name : String) (id : FunctionId) (buffer : Buffer) : Except Fault Function :=
  match prepare.apply { name, id, buffer } with
  | (.ok _, f) => .ok f
  | (.error e, _) => .error e

def listing (f : Function) : String :=
  f.name ++ "." ++ toString f.id.toNat ++ ":\n" ++ f.buffer.listing

end Function

end ShaderForge
