import ShaderForge.Native.Expr

/-!
# Native code

Structured code over slots.  Loops end by their condition or by leaving them;
a run is given the number of rounds that each loop may take.
-/

namespace ShaderForge.Native

inductive Code where
  | skip
  | seq (first second : Code)
  /-- Gives a slot its components, the first `width` of a value. -/
  | assign (owner : Index) (width : Nat) (value : Expr)
  /-- Replaces the components at some positions of a slot. -/
  | update (owner : Index) (scalars : List Prim) (positions : List Nat) (value : Expr)
  | discard (value : Expr)
  | branch (condition : Expr) (yes no : Code)
  | loop (condition : Expr) (body : Code)
  | leave
  | next
  /-- Returns the components of a value, stored as scalars. -/
  | ret (scalars : List Prim) (value : Expr)
deriving DecidableEq, Repr

/-- Whether a condition can be tested for zero: only integers can. -/
def tests (condition : Expr) : Bool := condition.registers.all fun r => !r.isFloat

/-- Whether every operation, test and return is given registers that it takes,
also where no run comes. -/
def Code.accepted : Code → Bool
  | skip | leave | next => true
  | seq first second => first.accepted && second.accepted
  | assign _ _ value | update _ _ _ value | discard value => value.accepted
  | branch condition yes no =>
    condition.accepted && tests condition && yes.accepted && no.accepted
  | loop condition body => condition.accepted && tests condition && body.accepted
  | ret scalars value =>
    value.accepted && (scalars.zip value.registers).all fun (s, r) => r.storesAs s

inductive Flow where
  | running (env : Env)
  | leaving (env : Env)
  | continuing (env : Env)
  | returned (values : List Word)

def replaceAt : List Word → List Nat → List Word → List Word
  | old, k :: positions, w :: ws => replaceAt (old.set k w) positions ws
  | old, _, _ => old

/-- Whether a condition holds: its component is not zero. -/
def holds (ws : List Word) : Bool := ws.head?.any (·.bits != 0)

/-- Repeats a body while a test holds, at most the given number of times. -/
def iterate (test : Env → Except Halt Bool) (body : Env → Except Halt Flow) :
    Nat → Env → Except Halt Flow
  | 0, _ => .error .unfinished
  | rounds + 1, env => do
    if ← test env then
      match ← body env with
      | .running env | .continuing env => iterate test body rounds env
      | .leaving env => return .running env
      | .returned values => return .returned values
    else return .running env

def Code.exec (callees : Callees) (rounds : Nat) : Code → Env → Except Halt Flow
  | skip, env => return .running env
  | seq first second, env => do
    match ← first.exec callees rounds env with
    | .running env => second.exec callees rounds env
    | flow => return flow
  | assign owner width value, env => do
    return .running (env.insert owner ((← value.eval callees env).take width))
  | update owner scalars positions value, env => do
    let ws ← value.eval callees env
    return .running (env.insert owner (replaceAt (env.slot owner scalars) positions ws))
  | discard value, env => do
    let _ ← value.eval callees env
    return .running env
  | branch condition yes no, env => do
    if holds (← condition.eval callees env) then yes.exec callees rounds env
    else no.exec callees rounds env
  | loop condition body, env =>
    iterate (fun env => return holds (← condition.eval callees env))
      (fun env => body.exec callees rounds env) rounds env
  | leave, env => return .leaving env
  | next, env => return .continuing env
  | ret _ value, env => return .returned (← value.eval callees env)

end ShaderForge.Native
