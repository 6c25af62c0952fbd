import ShaderForge.Linkage.Aggregate
import ShaderForge.Linkage.Control
import ShaderForge.Linkage.Global
import ShaderForge.Linkage.Order
import ShaderForge.Registry
import ShaderForge.Stream.Decode

/-!
# Linkage units

A unit is the closure of some functions under calls, with merged tables of
their aggregates, globals and execution layout.  Adding a function that fails
halfway keeps what was added before the failure.
-/

namespace ShaderForge

/-- Why functions cannot be linked. -/
inductive LinkFault where
  /-- The call graph has a cycle through these functions. -/
  | cycle (functions : List String)
  /-- A struct of a function was never registered. -/
  | missingAggregate (function : FunctionId) (i : Index)
  | unknownCallable (id : FunctionId)
  | ir (fault : Fault)

def LinkFault.message : LinkFault → String
  | cycle functions => "call graph cycle through " ++ ", ".intercalate functions
  | missingAggregate function i =>
    s!"function {function.toNat} uses struct at {i.text} with no registered aggregate"
  | unknownCallable id => s!"call to unknown callable ${id.toNat}"
  | ir fault => fault.message

def LinkFault.lift {α : Type} : Except Fault α → Except LinkFault α
  | .ok a => .ok a
  | .error e => .error (.ir e)

/-- Functions closed under calls, with merged tables. -/
structure Linkage where
  /-- Callees come before callers, once an addition has succeeded. -/
  functions : List Function := []
  aggregates : Array Aggregate := #[]
  typeMaps : Std.ExtTreeMap FunctionId TypeMap := ∅
  dependencies : CallGraph := ∅
  /-- The globals that each function names itself. -/
  uses : Std.ExtTreeMap FunctionId GlobalSet := ∅
  globals : Globals := {}
  control : Control := {}
  notes : List Note := []

namespace Linkage

/-! ### Questions about a unit -/

def warnings (u : Linkage) : List Warning := u.notes.filterMap Note.warning?

def contains (u : Linkage) (id : FunctionId) : Bool := u.dependencies.contains id

def function? (u : Linkage) (id : FunctionId) : Option Function :=
  u.functions.find? (·.id == id)

def aggregateIndex (u : Linkage) (function : FunctionId) (i : Index) : Except LinkFault Nat :=
  match (u.typeMaps[function]?).bind fun map => map[i]? with
  | some n => .ok n
  | none => .error (.missingAggregate function i)

def resolveData (u : Linkage) (function : FunctionId) : Data → Except LinkFault LinkedData
  | .prim p => return .prim p
  | .struct head => return .aggregate (← u.aggregateIndex function head)

def resolve (u : Linkage) (function : FunctionId) (ty : Ty) : Except LinkFault LinkedTy :=
  match ty.bare with
  | .data (.prim p) => return .prim p
  | .data base | .field base _ => return .data (← u.resolveData function base)
  | .array base size => return .array (← u.resolveData function base) size
  | .image texel dim => return .image texel dim
  | .sampler texel dim => return .sampler texel dim
  | .reference base id => return .reference (← u.resolveData function base) id
  | .nil | .inArg _ | .outArg _ | .inOutArg _ => return .nil

/-- The name a function is printed under; functions of one name are told apart
by their numbers. -/
def symbol? (u : Linkage) (id : FunctionId) : Option String := do
  let f ← u.function? id
  return if 1 < u.functions.countP (·.name == f.name) then s!"{f.name}_{id.toNat}" else f.name

def globalsUsed (u : Linkage) (id : FunctionId) : GlobalSet :=
  (u.dependencies.reach id).toList.foldl
    (fun used id => ((u.uses[id]?).map (·.toList)).getD [] |>.foldl (·.insert ·) used) ∅

def listing (u : Linkage) : String :=
  "\n".intercalate (u.functions.map Function.listing)

def stream (u : Linkage) : Stream.Bytes := Stream.write u.functions

/-! ### Adding functions -/

/-- Changes of a unit that may fail; a failed change keeps what it has done. -/
abbrev Linking := ExceptT LinkFault (StateM Linkage)

def Linking.apply {α : Type} (l : Linking α) (u : Linkage) : Except LinkFault α × Linkage :=
  (ExceptT.run l).run u

def ask {α : Type} (answer : Except Fault α) : Linking α :=
  ExceptT.mk (pure (LinkFault.lift answer))

def note (ns : List Note) : Linking PUnit :=
  modify fun u => { u with notes := u.notes ++ ns }

def warn (ws : List Warning) : Linking PUnit := note (ws.map .warning)

def onGlobals (f : Globals → Globals × List Warning) : Linking PUnit := do
  let (globals, ws) := f (← get).globals
  modify ({ · with globals })
  warn ws

/-- The atoms that a generator may print: the marked ones and all they use.  One
sweep from the end suffices, since operands come before their uses. -/
def visibleAtoms (b : Buffer) : IndexSet :=
  b.indexed.foldr
    (fun (i, a) visible => if visible.contains i then visible.insertMany a.operands else visible)
    b.marked

/-- Follows modifiers, formats and arrays to the resource that they wrap. -/
def resourceFrom (b : Buffer) : Nat → Index → Except Fault (Qualifier × Int)
  | 0, i => .error (b.fault (.endless i))
  | fuel + 1, i => do
    match ← b.atom i with
    | .qualifier underlying kind number =>
      if kind.isModifier || kind.format?.isSome || kind == .arrays then
        resourceFrom b fuel underlying
      else return (kind, number.toInt)
    | found => .error (b.fault (.modifierWraps found i))

/-- The resource that a modifier, format or array wraps. -/
def resourceOf (b : Buffer) (i : Index) : Except Fault (Qualifier × Int) :=
  resourceFrom b (b.size + 1) i

def resolving (f : Function) (i : Index) : Linking LinkedTy := do
  let ty ← ask (f.buffer.typeOf i)
  ExceptT.mk (pure ((← get).resolve f.id ty))

/-- Registers a struct, given the function's map so far. -/
def registering (f : Function) (head : Index) (map : TypeMap) : Linking (Nat × TypeMap) :=
  ExceptT.mk do
    let u ← get
    let (answer, scope) := (Aggregates.registerIn f head).run.run
      { entries := u.aggregates, map, notes := u.notes }
    set { u with aggregates := scope.entries, notes := scope.notes }
    return LinkFault.lift (answer.map (·, scope.map))

/-- Records the global that a qualifier declares or refines, and gives the one
that it names. -/
def declare (f : Function) (i underlying : Index) (kind : Qualifier) (number : Int) :
    Linking (Option Global) := do
  let origin : Origin := ⟨f.id, i⟩
  let named := Global.ofQualifier? kind number
  match kind with
  | .builtin b =>
    onGlobals fun g => ({ g with builtins := g.builtins.insert (.builtin b) }, [])
    return named
  | .input interpolation =>
    let ty ← resolving f i
    onGlobals fun g =>
      let (inputs, ws) := g.inputs.define "layout input" number { ty, interpolation, origin }
      ({ g with inputs }, ws)
    return named
  | .output interpolation =>
    let ty ← resolving f i
    onGlobals fun g =>
      let (outputs, ws) := g.outputs.define "layout output" number { ty, interpolation, origin }
      ({ g with outputs }, ws)
    return named
  | .taskPayload | .hitAttribute | .accelerationStructure | .rayPayload | .rayPayloadIn =>
    let ty ← resolving f i
    match SpecialKind.ofQualifier? kind with
    | some special => onGlobals (·.defineSpecial special number { ty, origin })
    | none => pure ()
    return named
  | .sampler c d =>
    onGlobals fun g =>
      let (samplers, ws) :=
        g.samplers.define "sampler" number { texel := c.texel, dim := d.toNat, origin }
      ({ g with samplers }, ws)
    return named
  | .image c d =>
    onGlobals fun g =>
      let (images, ws) :=
        g.images.define "image" number { texel := c.texel, dim := d.toNat, origin }
      ({ g with images }, ws)
    return named
  | .readOnly | .writeOnly | .scalarLayout =>
    let (target, binding) ← ask (resourceOf f.buffer underlying)
    onGlobals (·.applyModifier kind target binding)
    return none
  | .format texel =>
    let (target, binding) ← ask (resourceOf f.buffer underlying)
    onGlobals fun g =>
      let (g, found) := g.setFormat texel.name target binding
      (g, if found then [] else [.noImage kind i])
    return none
  | .pushConstant =>
    let ty ← resolving f underlying
    onGlobals (·.setPushConstant { ty, offset := number, origin })
    return named
  | .uniformBuffer =>
    let ty ← resolving f underlying
    onGlobals fun g =>
      let (uniforms, ws) := g.uniforms.define "uniform buffer" number { ty, origin }
      ({ g with uniforms }, ws)
    return named
  | .storageBuffer =>
    let ty ← resolving f underlying
    onGlobals fun g =>
      let (buffers, ws) := g.buffers.define "storage buffer" number { ty, origin }
      ({ g with buffers }, ws)
    return named
  | .bufferReference =>
    match (← resolving f underlying).data? with
    | none => throw (.ir (f.buffer.fault (.referenceBase i)))
    | some base =>
      onGlobals fun g =>
        let (references, ws) := g.references.define "buffer reference" number { base, origin }
        ({ g with references }, ws)
      return none
  | .shared =>
    let ty ← resolving f underlying
    onGlobals fun g =>
      let (shared, ws) := g.shared.define "shared variable" number { ty, origin }
      ({ g with shared }, ws)
    return named
  | .arrays =>
    match f.buffer.get? underlying with
    | some (.qualifier _ inner binding) =>
      if inner.sampler?.isSome || inner.image?.isSome then
        onGlobals (·.resize inner binding.toInt number)
    | _ => pure ()
    return none
  | .parameter | .inArg | .outArg | .inOutArg => return none

/-- What one visible atom adds besides globals: its aggregate, its call, its
layout setting. -/
def scanAtom (f : Function) (map : TypeMap) (callees : FunctionSet) (i : Index) :
    Linking (TypeMap × FunctionSet) := do
  let ty ← ask (f.buffer.typeOf i)
  let map ← match ty.struct? with
    | some head => do
      let (n, map) ← registering f head map
      pure (map.insert i n)
    | none => pure map
  match ← ask (f.buffer.atom i) with
  | .call callee _ _ => return (map, callees.insert callee)
  | .intrinsic code args =>
    if code.isLayout then
      let (control, ws) ← ask ((← get).control.apply f.buffer i code args)
      modify ({ · with control })
      warn ws
    return (map, callees)
  | _ => return (map, callees)

/-- Records the aggregates, globals and layout of a function; gives its callees. -/
def scan (f : Function) : Linking FunctionSet := do
  let visible := (visibleAtoms f.buffer).toList
  let (map, callees) ← visible.foldlM
    (fun (map, callees) i => scanAtom f map callees i) ((∅ : TypeMap), (∅ : FunctionSet))
  modify fun u => { u with typeMaps := u.typeMaps.insert f.id map }
  let uses ← visible.foldlM
    (fun (uses : GlobalSet) i => do
      match ← ask (f.buffer.atom i) with
      | .qualifier underlying kind number =>
        match ← declare f i underlying kind number.toInt with
        | some g => return uses.insert g
        | none => return uses
      | _ => return uses) (∅ : GlobalSet)
  modify fun u => { u with uses := u.uses.insert f.id uses }
  return callees

/-- The functions of a registry that are called and not linked yet. -/
def missing (r : Registry) (callees : List FunctionId) : Linking (List Function) := do
  let u ← get
  (callees.filter fun id => !u.contains id).mapM fun id =>
    match r.get? id with
    | some f => pure f
    | none => throw (.unknownCallable id)

/-- Adds one function; gives the functions it still needs. -/
def addOne (r : Registry) (f : Function) : Linking (List Function) := do
  let (answer, f) := Function.prepare.apply f
  ask answer
  let callees ← scan f
  let needed ← missing r callees.toList
  note [.linked f.name f.id callees.size]
  modify fun u =>
    { u with dependencies := u.dependencies.insert f.id callees, functions := u.functions ++ [f] }
  return needed

/-- Adds pending functions and all they call, first come first added; says
whether one was new.  Every function is added once, so the number of calls
bounds the work. -/
def addPending (r : Registry) : Nat → List Function → Linking Bool
  | _, [] => return false
  | 0, _ => return false
  | fuel + 1, f :: rest => do
    if (← get).contains f.id then addPending r fuel rest
    else
      let needed ← addOne r f
      let _ ← addPending r fuel (rest ++ needed)
      return true

def sort : Linking PUnit := do
  let u ← get
  match u.dependencies.calleeFirst with
  | .ok order => set { u with functions := order.filterMap u.function? }
  | .error stuck => throw (.cycle (stuck.filterMap fun id => (u.function? id).map (·.name)))

def addBound (r : Registry) : Nat := 1 + r.functions.foldr (fun f n => f.buffer.size + n) 0

def add (r : Registry) (id : FunctionId) : Linking PUnit := do
  match r.get? id with
  | none => throw (.unknownCallable id)
  | some f => if ← addPending r (addBound r) [f] then sort

def link (r : Registry) (entries : List FunctionId) : Except LinkFault Linkage :=
  match (entries.forM (add r)).apply {} with
  | (.ok _, u) => .ok u
  | (.error e, _) => .error e

end Linkage

end ShaderForge
