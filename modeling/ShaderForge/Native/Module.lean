import ShaderForge.Native.Lowering

/-!
# Native modules

The lowered functions of a unit.  A run packs its arguments, starts a function
by its symbol and unpacks the result; calls between functions do the same.
-/

namespace ShaderForge.Native

/-- The slots of the parameters, given the components of all arguments. -/
def bindParameters : List (Index × List Prim) → List Word → Env → Env
  | [], _, env => env
  | (i, scalars) :: rest, ws, env =>
    bindParameters rest (ws.drop scalars.length) (env.insert i (ws.take scalars.length))

namespace Procedure

/-- Runs a function on packed arguments; a result not returned is zero. -/
def run (p : Procedure) (callees : Callees) (rounds : Nat) (args : Memory) :
    Except Halt Memory := do
  let env := bindParameters p.parameters (p.args.load args) ∅
  match ← p.body.exec callees rounds env with
  | .returned values => return p.returns.store (blank p.returns.size) values
  | _ => return blank p.returns.size

def invoke (p : Procedure) (callees : Callees) (rounds : Nat) (args : List Word) :
    Except Halt (List Word) := do
  return p.returns.load (← p.run callees rounds (p.args.store (blank p.args.size) args))

end Procedure

/-- What functions compute, given them latest first; each calls only earlier ones. -/
def calleesOf (rounds : Nat) : List Procedure → Callees
  | [] => fun _ _ => .error .trap
  | p :: earlier => fun id args =>
    if id = p.id then p.invoke (calleesOf rounds earlier) rounds args
    else calleesOf rounds earlier id args

structure Module where
  procedures : List Procedure := []

namespace Module

def add (u : Linkage) (m : Module) (f : Function) : Except TargetFault Module :=
  match u.symbol? f.id with
  | none => .error (.link (.unknownCallable f.id))
  | some symbol => do
    let p ← procedure u f symbol
    if m.procedures.any (·.symbol == symbol) then .error (.machine (.duplicate symbol))
    else if !p.body.accepted then .error (.machine .operand)
    else return { procedures := m.procedures ++ [p] }

/-- The native code of every function of a unit; the first failure is the answer. -/
def compile (u : Linkage) : Except TargetFault Module := u.functions.foldlM (add u) {}

def symbols (m : Module) : List String :=
  (m.procedures.map (·.symbol)).mergeSort fun a b => !(b < a)

def callees (m : Module) (rounds : Nat) : Callees := calleesOf rounds m.procedures.reverse

/-- Runs the function with a symbol, if there is one, on the bits of its arguments,
with a bound on the rounds of each loop; the answer is the bits that it stored. -/
def run? (m : Module) (rounds : Nat) (symbol : String) (args : List UInt64) :
    Option (Except Halt (List UInt64)) :=
  (m.procedures.find? (·.symbol == symbol)).map fun p => do
    let packed := p.args.store (blank p.args.size) (p.args.scalars.zipWith .ofScalar args)
    return p.returns.bits (← p.run (m.callees rounds) rounds packed)

end Module

end ShaderForge.Native
