import ShaderForge.Native.Operand

/-!
# Native expressions

Expressions over lists of components.  A single component stands for as many
as the other operand has.
-/

namespace ShaderForge.Native

inductive Expr where
  | literal (value : Literal)
  | zeros (scalars : List Prim)
  /-- The components that a value or parameter holds. -/
  | slot (owner : Index) (scalars : List Prim)
  | pick (e : Expr) (positions : List Nat)
  | join (a b : Expr)
  | unary (op : UnaryOp) (scalar : Prim) (e : Expr)
  | binary (op : BinaryOp) (scalar : Prim) (a b : Expr)
  /-- All components combined, left to right. -/
  | fold (op : BinaryOp) (scalar : Prim) (e : Expr)
  /-- Componentwise conversion, up to the shorter of the two lists. -/
  | convert (source target : List Prim) (e : Expr)
  /-- A call, with the scalars that the callee takes and gives. -/
  | call (callee : FunctionId) (params returns : List Prim) (args : Expr)
deriving DecidableEq, Repr

/-- As many components as the other operand has; a single one serves for all. -/
def broadcast {α : Type} (width : Nat) : List α → List α
  | [x] => List.replicate width x
  | xs => xs

namespace Expr

def registers : Expr → List Register
  | literal value => [.ofPrim value.ty]
  | zeros scalars | slot _ scalars | call _ _ scalars _ => scalars.map .ofPrim
  | pick e positions => positions.filterMap (e.registers[·]?)
  | join a b => a.registers ++ b.registers
  | unary op _ e => e.registers.map op.register
  | binary op _ a b =>
    (broadcast b.registers.length a.registers).map op.register
  | fold op _ e => (e.registers.take 1).map op.register
  | convert source target e =>
    (source.zip target).zipWith (fun (s, t) r => convertRegister s t r) e.registers

def width (e : Expr) : Nat := e.registers.length

def accepted : Expr → Bool
  | literal _ | zeros _ | slot .. => true
  | pick e _ => e.accepted
  | join a b => a.accepted && b.accepted
  | unary op s e => e.accepted && e.registers.all (op.takes s)
  | binary op s a b =>
    a.accepted && b.accepted
      && ((broadcast b.width a.registers).zip (broadcast a.width b.registers)).all
        fun (x, y) => op.takes s x y
  | fold op s e =>
    e.accepted && (e.registers.zip (e.registers.drop 1)).all fun (x, y) => op.takes s x y
  | convert source target e =>
    e.accepted && ((source.zip target).zip e.registers).all fun ((s, t), r) => convertTakes s t r
  | call _ params _ args =>
    args.accepted && (params.zip args.registers).all fun (s, r) => r.storesAs s

def concat : List Expr → Expr
  | [] => zeros []
  | [e] => e
  | e :: rest => join e (concat rest)

def nothing (es : List Expr) : Expr := pick (concat es) []

end Expr

inductive Halt where
  /-- The machine stopped at a quotient. -/
  | trap
  | unfinished
deriving DecidableEq, Repr

abbrev Env := IndexMap (List Word)

abbrev Callees := FunctionId → List Word → Except Halt (List Word)

/-- The components of a slot; those never written are zero. -/
def Env.slot (env : Env) (owner : Index) (scalars : List Prim) : List Word :=
  (env[owner]?).getD (scalars.map fun s => .ofScalar s 0)

/-- The result of an operation, or the trap it stops at. -/
def orTrap : Option Word → Except Halt Word
  | some w => .ok w
  | none => .error .trap

namespace Expr

def eval (callees : Callees) (env : Env) : Expr → Except Halt (List Word)
  | literal value => return [.ofLiteral value]
  | zeros scalars => return scalars.map fun s => .ofScalar s 0
  | slot owner scalars => return env.slot owner scalars
  | pick e positions => do
    let ws ← e.eval callees env
    return positions.filterMap (ws[·]?)
  | join a b => do
    let left ← a.eval callees env
    return left ++ (← b.eval callees env)
  | unary op scalar e => do
    return (← e.eval callees env).map (op.apply scalar)
  | binary op scalar a b => do
    let left ← a.eval callees env
    let right ← b.eval callees env
    ((broadcast right.length left).zip (broadcast left.length right)).mapM fun (x, y) =>
      orTrap (op.apply scalar x y)
  | fold op scalar e => do
    match ← e.eval callees env with
    | [] => return []
    | w :: rest => return [← rest.foldlM (fun acc x => orTrap (op.apply scalar acc x)) w]
  | convert source target e => do
    let ws ← e.eval callees env
    return (source.zip target).zipWith (fun (s, t) w => Native.convert s t w) ws
  | call callee _ _ args => do callees callee (← args.eval callees env)

end Expr

end ShaderForge.Native
