import ShaderForge.Linkage.Type
import ShaderForge.Linkage.Warning

/-!
# Global resources

The tables of everything that the functions of a unit bind from outside.  A
binding declared twice in the same shape keeps the first declaration and its
modifiers; in another shape the later one replaces it with a warning.
-/

namespace ShaderForge

/-- The qualifier that declared a global. -/
structure Origin where
  function : FunctionId
  atom : Index
deriving DecidableEq, Repr

def Origin.text (o : Origin) : String := s!"${o.function.toNat}{o.atom.text}"

/-- Globals of special pipeline stages. -/
inductive SpecialKind where
  | taskPayload
  | hitAttribute
  | accelerationStructure
  | rayPayload
  | rayPayloadIn
deriving DecidableEq, Repr, Inhabited

namespace SpecialKind

def rank : SpecialKind → Nat
  | taskPayload => 0
  | hitAttribute => 1
  | accelerationStructure => 2
  | rayPayload => 3
  | rayPayloadIn => 4

theorem rank_inj {a b : SpecialKind} : a.rank = b.rank ↔ a = b := by
  cases a <;> cases b <;> simp [rank]

def text : SpecialKind → String
  | taskPayload => "task payload"
  | hitAttribute => "hit attribute"
  | accelerationStructure => "acceleration structure"
  | rayPayload => "ray payload"
  | rayPayloadIn => "incoming ray payload"

def keyName : SpecialKind → String
  | taskPayload => "TaskPayload"
  | hitAttribute => "HitAttribute"
  | accelerationStructure => "AccelerationStructure"
  | rayPayload => "RayPayload"
  | rayPayloadIn => "RayPayloadIn"

def ofQualifier? : Qualifier → Option SpecialKind
  | .taskPayload => some taskPayload
  | .hitAttribute => some hitAttribute
  | .accelerationStructure => some accelerationStructure
  | .rayPayload => some rayPayload
  | .rayPayloadIn => some rayPayloadIn
  | _ => none

end SpecialKind

/-- A global of a unit: its table and its key there. -/
inductive Global where
  | input (location : Int)
  | output (location : Int)
  | pushConstant
  | uniform (binding : Int)
  | buffer (binding : Int)
  | shared (id : Int)
  | sampler (binding : Int)
  | image (binding : Int)
  | special (kind : SpecialKind) (number : Int)
  | builtin (which : Builtin)
deriving DecidableEq, Repr, Inhabited

namespace Global

def table : Global → Nat
  | input _ => 0
  | output _ => 1
  | pushConstant => 2
  | uniform _ => 3
  | buffer _ => 4
  | shared _ => 5
  | sampler _ => 6
  | image _ => 7
  | special kind _ => 8 + kind.rank
  | builtin b => 13 + Coded.code (Qualifier.builtin b)

def number : Global → Int
  | input n | output n | uniform n | buffer n | shared n | sampler n | image n | special _ n => n
  | pushConstant | builtin _ => 0

instance : Ord Global := ⟨compareLex (compareOn table) (compareOn number)⟩

instance : Std.TransOrd Global :=
  inferInstanceAs (Std.TransCmp (compareLex (compareOn table) (compareOn number)))

def ofQualifier? (kind : Qualifier) (number : Int) : Option Global :=
  match kind with
  | .builtin b => some (builtin b)
  | .input _ => some (input number)
  | .output _ => some (output number)
  | .sampler .. => some (sampler number)
  | .image .. => some (image number)
  | .pushConstant => some pushConstant
  | .uniformBuffer => some (uniform number)
  | .storageBuffer => some (buffer number)
  | .shared => some (shared number)
  | kind => (SpecialKind.ofQualifier? kind).map (special · number)

def keyText : Global → String
  | input n => s!"Input({n})"
  | output n => s!"Output({n})"
  | pushConstant => "PushConstant"
  | uniform n => s!"Uniform({n})"
  | buffer n => s!"Buffer({n})"
  | shared n => s!"Shared({n})"
  | sampler n => s!"Sampler({n})"
  | image n => s!"Image({n})"
  | special kind n => s!"Special({kind.keyName}, {n})"
  | builtin b => s!"Builtin({b.name})"

end Global

abbrev GlobalSet := Std.ExtTreeSet Global

abbrev Table (α : Type) := Std.ExtTreeMap Int α

/-! ### Declarations -/

structure LayoutVariable where
  ty : LinkedTy
  interpolation : Interpolation
  origin : Origin
deriving DecidableEq, Repr

structure PushConstant where
  ty : LinkedTy
  offset : Int
  origin : Origin
deriving DecidableEq, Repr

structure BufferBinding where
  ty : LinkedTy
  readOnly : Bool := false
  writeOnly : Bool := false
  scalar : Bool := false
  origin : Origin
deriving DecidableEq, Repr

structure ReferenceDecl where
  base : LinkedData
  scalar : Bool := false
  origin : Origin
deriving DecidableEq, Repr

structure SharedVariable where
  ty : LinkedTy
  origin : Origin
deriving DecidableEq, Repr

structure SamplerBinding where
  texel : Prim
  dim : Nat
  /-- The length of an array of samplers. -/
  count : Option Int := none
  origin : Origin
deriving DecidableEq, Repr

structure ImageBinding where
  texel : Prim
  dim : Nat
  format : Option String := none
  readOnly : Bool := false
  writeOnly : Bool := false
  count : Option Int := none
  origin : Origin
deriving DecidableEq, Repr

structure SpecialGlobal where
  ty : LinkedTy
  origin : Origin
deriving DecidableEq, Repr

/-- Declarations whose shapes can be compared whatever their origin. -/
class Declaration (α : Type) where
  sameShape : α → α → Bool

instance : Declaration LayoutVariable :=
  ⟨fun a b => a.ty == b.ty && a.interpolation == b.interpolation⟩

instance : Declaration PushConstant := ⟨fun a b => a.ty == b.ty && a.offset == b.offset⟩

instance : Declaration BufferBinding := ⟨fun a b => a.ty == b.ty⟩

instance : Declaration ReferenceDecl := ⟨fun a b => a.base == b.base⟩

instance : Declaration SharedVariable := ⟨fun a b => a.ty == b.ty⟩

instance : Declaration SamplerBinding := ⟨fun a b => a.texel == b.texel && a.dim == b.dim⟩

instance : Declaration ImageBinding := ⟨fun a b => a.texel == b.texel && a.dim == b.dim⟩

instance : Declaration SpecialGlobal := ⟨fun a b => a.ty == b.ty⟩

/-- What a declaration over an existing one leaves, noting a change of shape. -/
def redeclare {α : Type} [Declaration α] (note : Warning) (old : Option α) (new : α) :
    α × List Warning :=
  match old with
  | some existing => if Declaration.sameShape existing new then (existing, []) else (new, [note])
  | none => (new, [])

def Table.define {α : Type} [Declaration α] (t : Table α) (category : String) (key : Int)
    (value : α) : Table α × List Warning :=
  let (value, notes) := redeclare (.redefined category (toString key)) t[key]? value
  (t.insert key value, notes)

/-! ### The tables of a unit -/

/-- Every global that the functions of a unit declare. -/
structure Globals where
  inputs : Table LayoutVariable := ∅
  outputs : Table LayoutVariable := ∅
  pushConstant : Option PushConstant := none
  uniforms : Table BufferBinding := ∅
  buffers : Table BufferBinding := ∅
  references : Table ReferenceDecl := ∅
  shared : Table SharedVariable := ∅
  samplers : Table SamplerBinding := ∅
  images : Table ImageBinding := ∅
  special : Std.ExtTreeMap Global SpecialGlobal := ∅
  /-- Built-in variables that are used. -/
  builtins : GlobalSet := ∅

namespace Globals

def defineSpecial (g : Globals) (kind : SpecialKind) (number : Int) (value : SpecialGlobal) :
    Globals × List Warning :=
  let key := Global.special kind number
  let note := Warning.redefined "special global" s!"({kind.keyName}, {number})"
  let (value, notes) := redeclare note g.special[key]? value
  ({ g with special := g.special.insert key value }, notes)

def setPushConstant (g : Globals) (value : PushConstant) : Globals × List Warning :=
  let (value, notes) := redeclare .pushConstant g.pushConstant value
  ({ g with pushConstant := some value }, notes)

def modifyBlock (modifier : Qualifier) (b : BufferBinding) : BufferBinding :=
  match modifier with
  | .readOnly => { b with readOnly := true }
  | .writeOnly => { b with writeOnly := true }
  | .scalarLayout => { b with scalar := true }
  | _ => b

def modifyImage (modifier : Qualifier) (i : ImageBinding) : ImageBinding :=
  match modifier with
  | .readOnly => { i with readOnly := true }
  | .writeOnly => { i with writeOnly := true }
  | _ => i

def adjust {α : Type} (t : Table α) (key : Int) (f : α → α) : Table α :=
  match t[key]? with
  | some v => t.insert key (f v)
  | none => t

/-- Applies an access or layout modifier to the resource that `target` declares. -/
def applyModifier (g : Globals) (modifier target : Qualifier) (binding : Int) :
    Globals × List Warning :=
  match target with
  | .storageBuffer => ({ g with buffers := adjust g.buffers binding (modifyBlock modifier) }, [])
  | .uniformBuffer => ({ g with uniforms := adjust g.uniforms binding (modifyBlock modifier) }, [])
  | .bufferReference =>
    if modifier = .scalarLayout then
      ({ g with references := adjust g.references binding ({ · with scalar := true }) }, [])
    else (g, [])
  | .image .. => ({ g with images := adjust g.images binding (modifyImage modifier) }, [])
  | _ => (g, [.noEffect modifier target])

def resizeNote (target : Qualifier) (binding : Int) (old : Option Int) (count : Int) :
    List Warning :=
  match old with
  | some previous =>
    if previous = count then [] else [.resized target binding previous count]
  | none => []

def resize (g : Globals) (target : Qualifier) (binding count : Int) : Globals × List Warning :=
  if target.sampler?.isSome then
    match g.samplers[binding]? with
    | some s =>
      ({ g with samplers := g.samplers.insert binding { s with count := some count } },
        resizeNote target binding s.count count)
    | none => (g, [])
  else
    match g.images[binding]? with
    | some i =>
      ({ g with images := g.images.insert binding { i with count := some count } },
        resizeNote target binding i.count count)
    | none => (g, [])

/-- Sets the texel format of the image at a binding; false when `target` is no
image of the unit. -/
def setFormat (g : Globals) (format : String) (target : Qualifier) (binding : Int) :
    Globals × Bool :=
  match target.image?, g.images[binding]? with
  | some _, some i =>
    ({ g with images := g.images.insert binding { i with format := some format } }, true)
  | _, _ => (g, false)

/-- Whether no resource is declared; built-in variables do not count. -/
def isEmpty (g : Globals) : Bool :=
  g.inputs.isEmpty && g.outputs.isEmpty && g.pushConstant.isNone && g.uniforms.isEmpty
    && g.buffers.isEmpty && g.references.isEmpty && g.shared.isEmpty && g.samplers.isEmpty
    && g.images.isEmpty && g.special.isEmpty

end Globals

end ShaderForge
