import ShaderForge.Member
import ShaderForge.Native.Code

/-!
# Lowering to native code

Marked values and parameters own slots; stores change them.  Unmarked
expressions are computed again at each use.  Every atom is checked whether or
not a run reaches it.
-/

namespace ShaderForge.Native

/-- The function being lowered and the slots it has so far. -/
structure Scope extends Member where
  slots : IndexMap (List Prim) := ∅

/-- What an atom is lowered to, or why it is not. -/
abbrev Lowered := Except TargetFault

/-- Whether operands agree in width, where single components serve any. -/
def agree (widths : List Nat) : Bool :=
  let width := widths.foldl max 0
  widths.all fun w => w == 1 || w == width

def Expr.truncate (e : Expr) (width : Nat) : Expr :=
  if e.width ≤ width then e else .pick e (List.range width)

namespace Scope

/-! ### Types -/

def linkedType (s : Scope) (i : Index) : Lowered LinkedTy := do
  s.resolve (← s.typeOf i)

def scalars (s : Scope) (i : Index) : Lowered (List Prim) := do
  scalarsOf s.unit (← s.linkedType i)

def prim (s : Scope) (i : Index) : Lowered Prim := do
  let ty ← s.typeOf i
  match ty.prim? with
  | some p => return p
  | none => .error (.unsupported (.operandType ty))

def fieldRange (s : Scope) (src : Index) (field : Int32) : Lowered (Nat × Nat) := do
  match (← s.typeOf src).bare with
  | .data (.struct head) =>
    Native.fieldRange s.unit (← s.aggregate head) field.toInt.toNat
  | ty => .error (.unsupported (.fieldLoad ty))

/-! ### Expressions -/

def load (s : Scope) (value : Index → Lowered Expr) (src : Index) (field : Int32) :
    Lowered Expr := do
  let base ← value src
  if field < 0 then return base
  else
    let (start, stop) ← s.fieldRange src field
    if base.width < stop then s.defect (.valueFieldBeyond field)
    else return .pick base (List.range' start (stop - start))

def access (s : Scope) (value : Index → Lowered Expr) (i src loc : Index) : Lowered Expr := do
  let base ← value src
  let p ← s.prim src
  let rows := if p.isMatrix then p.rows else 1
  let picked (place : Nat) : Lowered Expr :=
    if base.width < (place + 1) * rows then s.defect (.accessBeyond i)
    else return .pick base (List.range' (place * rows) rows)
  match s.buffer.get? loc with
  | some (.literal (.i32 v)) => picked v.toInt.toNat
  | some (.literal (.u32 v)) => picked v.toNat
  | some (.literal other) => s.defect (.accessBy i other)
  | _ => .error (.unsupported (.dynamicAccess i))

def operation (s : Scope) (value : Index → Lowered Expr) (i : Index) (code : Operator)
    (a b : Index) : Lowered Expr := do
  let x ← value a
  let left ← s.prim a
  if b.isNull then
    if x.width = 0 then return .nothing [x]
    else match UnaryOp.ofOperator? code with
      | some op => return .unary op left.scalar x
      | none => .error (.other (.oneOperand code))
  else
    let y ← value b
    let right ← s.prim b
    if code == .multiplication && (left.isMatrix || right.isMatrix) && !left.isScalar
        && !right.isScalar then
      .error (.unsupported .matrixProduct)
    else if !agree [x.width, y.width] then s.defect (.operationWidths i x.width y.width)
    else if x.width = 0 then
      if code == .equals || code == .notEquals then .error (.machine (.nothing i))
      else return .nothing [x, y]
    else if code == .modulus && left.isFloat then .error (.unsupported .floatModulus)
    else
      match BinaryOp.ofOperator? code with
      | none => .error (.other (.twoOperands code))
      | some op =>
        let each := Expr.binary op left.scalar x y
        match code with
        | .equals => return .fold .and .boolean each
        | .notEquals => return .fold .or .boolean each
        | _ => return each

/-- The sum of the products of two values; no components have no sum. -/
def innerProduct (i : Index) (scalar : Prim) (a b : Expr) : Lowered Expr :=
  if a.width = 0 then .error (.machine (.nothing i))
  else return .fold .add scalar (.binary .mul scalar a b)

/-- A library function, unless the unit has a function of its symbol. -/
def library (s : Scope) (symbol : String) (arity : Nat) (e : Expr) : Lowered Expr :=
  if s.unit.functions.any fun f => s.unit.symbol? f.id == some symbol then
    .error (.other (.librarySymbol symbol arity))
  else return e

/-- The expression of an intrinsic on arguments of a scalar type that have
components. -/
def applied (s : Scope) (code : Intrinsic) (scalar : Prim) (args : List Expr) : Lowered Expr :=
  let unsupported : Lowered Expr := .error (.unsupported (.nativeIntrinsic code))
  match code, args with
  | .clamp, [x, low, high] => return .binary .min scalar (.binary .max scalar x low) high
  | code, [x] =>
    match UnaryOp.ofIntrinsic? code scalar with
    | some op =>
      if op.isLibrary then s.library (librarySymbol code) 1 (.unary op scalar x)
      else return .unary op scalar x
    | none => unsupported
  | code, [x, y] =>
    match BinaryOp.ofIntrinsic? code scalar with
    | some op =>
      if op.isLibrary then s.library (librarySymbol code) 2 (.binary op scalar x y)
      else return .binary op scalar x y
    | none => unsupported
  | _, _ => unsupported

def intrinsic (s : Scope) (value : Index → Lowered Expr) (i : Index) (code : Intrinsic)
    (args : Index) : Lowered Expr := do
  let items ← s.items args
  match items.head? with
  | none => .error (.unsupported (.nativeIntrinsic code))
  | some first =>
    let scalar := (← s.prim first).scalar
    let args ← items.mapM value
    let widths := args.map Expr.width
    if !agree widths then s.defect (.intrinsicWidths code i widths)
    else
      match code, scalar.isFloat, args with
      | .dot, true, a :: b :: _ => innerProduct i scalar a b
      | .length, true, a :: _ => return .unary .sqrt scalar (← innerProduct i scalar a a)
      | .dot, _, _ | .length, _, _ => .error (.unsupported (.nativeIntrinsic code))
      | code, _, args =>
        if widths.all (· == 0) then return .nothing args else s.applied code scalar args

/-- One component for all of a type: on the diagonal of a matrix, else everywhere. -/
def spread (ty : LinkedTy) (scalar : Prim) (width : Nat) (part : Expr) : Expr :=
  let everywhere := Expr.pick part (List.replicate width 0)
  match ty with
  | .data (.prim p) =>
    if p.isMatrix then
      .pick (.join part (.zeros [scalar]))
        ((List.range width).map fun k => if k % (p.rows + 1) = 0 then 0 else 1)
    else everywhere
  | _ => everywhere

/-- A construction: arguments converted in a row, or one of them spread. -/
def construct (s : Scope) (value : Index → Lowered Expr) (i ty args : Index) (mode : Mode) :
    Lowered Expr := do
  if s.isPlaceholder ty mode then value ty
  else
    let target ← s.scalars i
    let parts ← (← s.items args).mapM fun item => do
      let e ← value item
      let scalars ← s.scalars item
      return (scalars.take e.width, e.truncate scalars.length)
    let source := parts.flatMap Prod.fst
    let given := Expr.concat (parts.map Prod.snd)
    match source, target with
    | [one], first :: _ :: _ =>
      return spread (← s.linkedType i) first target.length (.convert [one] [first] given)
    | _, _ =>
      if source.length < target.length then
        s.defect (.constructWidth i source.length target.length)
      else return .convert source target given

end Scope

def argumentLayout (u : Linkage) (f : Function) : Lowered Layout := do
  Layout.concat u (← f.args.mapM fun ty => TargetFault.ofLink (u.resolve f.id ty))

def resultLayout (u : Linkage) (f : Function) : Lowered Layout := do
  Layout.of u (← TargetFault.ofLink (u.resolve f.id f.returns))

namespace Scope

def call (s : Scope) (value : Index → Lowered Expr) (i : Index) (id : FunctionId)
    (args : Index) : Lowered Expr := do
  match s.unit.function? id with
  | none => .error (.link (.unknownCallable id))
  | some callee =>
    let packed ← argumentLayout s.unit callee
    let returns ← resultLayout s.unit callee
    let given := Expr.concat (← (← s.items args).mapM value)
    if given.width ≠ packed.scalars.length then
      s.defect (.callWidth i given.width callee.name packed.scalars.length)
    else return .call id packed.scalars returns.scalars given

/-- The expression that an atom computes, given those of its operands. -/
def expression (s : Scope) (value : Index → Lowered Expr) (i : Index) : Lowered Expr := do
  match ← s.atom i with
  | .qualifier _ kind _ => .error (.unsupported (.nativeQualifier kind i))
  | .literal v => return .literal v
  | .swizzle src code =>
    let base ← value src
    if code.components.all (· < base.width) then return .pick base code.components
    else s.defect (.swizzleBeyond code i)
  | .operation code a b => s.operation value i code a b
  | .intrinsic code args => s.intrinsic value i code args
  | .construct ty args mode => s.construct value i ty args mode
  | .call id _ args => s.call value i id args
  | .load src field => s.load value src field
  | .access src loc => s.access value i src loc
  | found => s.defect (.notValue found i)

/-- An atom as a value, for expressions nested at most `depth` deep: its slot, or
its expression. -/
def valueAt (s : Scope) : Nat → Index → Lowered Expr
  | 0, i => s.defect (.endless i)
  | depth + 1, i =>
    match s.slots[i]? with
    | some scalars => return .slot i scalars
    | none => s.expression (s.valueAt depth) i

/-- An atom as a value.  Operands come before their uses, so the number of atoms
bounds the nesting. -/
def value (s : Scope) (i : Index) : Lowered Expr := s.valueAt (s.buffer.size + 1) i

/-- The expression of an atom, whatever slot it has. -/
def fresh (s : Scope) (i : Index) : Lowered Expr := s.expression (s.valueAt s.buffer.size) i

/-- The components of a slot that a store writes. -/
structure Place where
  owner : Index
  scalars : List Prim
  positions : List Nat

def Place.registers (p : Place) : List (Option Register) :=
  p.positions.map fun k => (p.scalars[k]?).map Register.ofPrim

def ownSlot (s : Scope) (i : Index) (found : Atom) : Lowered Place :=
  match s.slots[i]? with
  | some scalars => return ⟨i, scalars, List.range scalars.length⟩
  | none => .error (.unsupported (.nativeStore found i))

/-- The place that an atom denotes, at most `depth` reads deep. -/
def placeAt (s : Scope) : Nat → Index → Lowered Place
  | 0, i => s.defect (.endless i)
  | depth + 1, i => do
    match ← s.atom i with
    | .swizzle src code =>
      let place ← s.placeAt depth src
      match code.components.mapM (place.positions[·]?) with
      | some positions => return { place with positions }
      | none => s.defect (.swizzleBeyond code i)
    | .load src field =>
      let place ← s.placeAt depth src
      if field < 0 then return place
      else
        let (start, stop) ← s.fieldRange src field
        if place.positions.length < stop then s.defect (.targetFieldBeyond field i)
        else return { place with positions := (place.positions.take stop).drop start }
    | .construct ty args mode =>
      if s.isPlaceholder ty mode then s.placeAt depth ty else s.ownSlot i (.construct ty args mode)
    | found => s.ownSlot i found

def place (s : Scope) (i : Index) : Lowered Place := s.placeAt (s.buffer.size + 1) i

def condition (s : Scope) (i : Index) : Lowered Expr := do
  let e ← s.value i
  if e.width = 1 then return e else s.defect (.conditionWidth i e.width)

end Scope

/-! ### Statements -/

/-- A block that is still open, with the code before it. -/
inductive Frame where
  /-- The finished arms, and the condition of the arm at hand; none for the last
  alternative. -/
  | conditional (outer : Code) (arms : List (Expr × Code)) (pending : Option Expr)
  | loop (outer : Code) (condition : Expr)

/-- The code so far: its slots, the innermost block and the blocks around it. -/
structure State where
  slots : IndexMap (List Prim) := ∅
  code : Code := .skip
  frames : List Frame := []

namespace State

def append (st : State) (c : Code) : State := { st with code := .seq st.code c }

/-- Gives an atom a slot with the first components of a value. -/
def bind (st : State) (s : Scope) (i : Index) (value : Expr) : Lowered State := do
  let scalars := (← s.scalars i).take value.width
  if (scalars.zip value.registers).any fun (s, r) => Register.ofPrim s != r then
    .error (.machine (.slot i))
  else
    return { st.append (.assign i scalars.length value) with slots := st.slots.insert i scalars }

def inLoop (st : State) : Bool :=
  st.frames.any fun
    | .loop .. => true
    | .conditional .. => false

end State

/-- The code of a conditional with its arms and what happens otherwise. -/
def arms (finished : List (Expr × Code)) (otherwise : Code) : Code :=
  finished.foldr (fun (condition, code) rest => .branch condition code rest) otherwise

def close (s : Scope) (st : State) (i : Index) : Lowered State :=
  match st.frames with
  | .conditional outer finished pending :: frames =>
    let code := match pending with
      | some condition => arms (finished ++ [(condition, st.code)]) .skip
      | none => arms finished st.code
    return { st with code := .seq outer code, frames }
  | .loop outer condition :: frames =>
    return { st with code := .seq outer (.loop condition st.code), frames }
  | [] => s.defect (.closesNothing .close i)

def alternative (s : Scope) (st : State) (i : Index) (kind : BranchKind)
    (condition : Lowered (Option Expr)) : Lowered State :=
  match st.frames with
  | .conditional outer finished (some pending) :: frames => do
    let finished := finished ++ [(pending, st.code)]
    return { st with code := .skip, frames := .conditional outer finished (← condition) :: frames }
  | _ => s.defect (.noConditional kind i)

def branch (s : Scope) (st : State) (i : Index) (kind : BranchKind) (cond : Index) :
    Lowered State := do
  match kind with
  | .ifThen =>
    let condition ← s.condition cond
    let frame := Frame.conditional st.code [] (some condition)
    return { st with code := .skip, frames := frame :: st.frames }
  | .elseIf => alternative s st i kind (return some (← s.condition cond))
  | .otherwise => alternative s st i kind (return none)
  | .whileLoop | .forLoop =>
    let condition ← s.condition cond
    return { st with code := .skip, frames := .loop st.code condition :: st.frames }
  | .next => if st.inLoop then return st.append .next else s.defect (.outsideLoop kind i)
  | .leave => if st.inLoop then return st.append .leave else s.defect (.outsideLoop kind i)
  | .close => close s st i

/-- Lowers a call or intrinsic; its value is bound unless it has none. -/
def effect (s : Scope) (st : State) (i : Index) : Lowered State := do
  if (← s.typeOf i).isNil then return st.append (.discard (← s.fresh i))
  else st.bind s i (← s.fresh i)

def statement (s : Scope) (st : State) (i : Index) : Lowered State := do
  let s := { s with slots := st.slots }
  match ← s.atom i with
  | .qualifier .. | .type .. | .list .. | .construct _ _ .transient => return st
  | .store dst src =>
    let place ← s.place dst
    let value ← s.value src
    if value.width ≠ place.positions.length then
      s.defect (.storeWidth i value.width place.positions.length)
    else if place.registers != value.registers.map some then .error (.machine (.slot place.owner))
    else return st.append (.update place.owner place.scalars place.positions value)
  | .ret .null => return st.append (.ret [] (.zeros []))
  | .ret result =>
    let value ← s.value result
    let returns ← resultLayout s.unit s.function
    return st.append (.ret returns.scalars value)
  | .branch kind cond _ => branch s st i kind cond
  | .intrinsic code _ => if code.isLayout then return st else effect s st i
  | .call .. => effect s st i
  | .construct _ .null _ => st.bind s i (.zeros (← s.scalars i))
  | _ => st.bind s i (← s.fresh i)

/-- The parameters with their types in the unit; none may be written through. -/
def parameters (s : Scope) : Lowered (List (Index × LinkedTy)) :=
  s.function.parameters.mapM fun (i, position) => do
    match ← s.typeOf i with
    | .outArg _ | .inOutArg _ => .error (.unsupported (.outParameter s.function.name position))
    | ty => return (i, ← s.resolve ty)

structure Procedure where
  id : FunctionId
  symbol : String
  args : Layout
  returns : Layout
  /-- The parameters with the scalars of each. -/
  parameters : List (Index × List Prim)
  body : Code

/-- Lowers the statements of a function after its parameters. -/
def body (s : Scope) : Lowered Code := do
  let st ← s.buffer.marked.toList.foldlM (statement s) { slots := s.slots }
  if st.frames.isEmpty then return st.code
  else s.defect (.blockLeftOpen s.function.name)

def procedure (u : Linkage) (f : Function) (symbol : String) : Lowered Procedure := do
  let s : Scope := { unit := u, function := f }
  let typed ← parameters s
  let args ← Layout.concat u (typed.map Prod.snd)
  let parameters ← typed.mapM fun (i, ty) => return (i, ← scalarsOf u ty)
  let slots := parameters.foldl (fun slots (i, scalars) => slots.insert i scalars) s.slots
  let body ← body { s with slots }
  let returns ← resultLayout u f
  return { id := f.id, symbol, args, returns, parameters, body }

end ShaderForge.Native
