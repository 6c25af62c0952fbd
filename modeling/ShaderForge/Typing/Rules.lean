import ShaderForge.Buffer.Chain
import ShaderForge.Overload
import ShaderForge.Typing.Inquiry

/-!
# Typing rules

The type of each kind of atom in terms of the types of the atoms it uses.
-/

namespace ShaderForge.Typing

def refuse {α : Type} (b : Buffer) (d : Defect) : Inquiry α := .fail (b.fault d)

def fieldValue : Ty → Ty
  | .field base _ => .data base
  | ty => ty

def base (b : Buffer) (site : Index) (ty : Ty) : Inquiry Data :=
  match ty.data? with
  | some d => return d
  | none => refuse b (.wraps site ty)

/-- A type node is a primitive or, with a nil item, a nested struct; linked to a
next node it is a field. -/
def typeNode (b : Buffer) (i : Index) (item : Prim) (down next : Index) : Inquiry Ty := do
  let base ← show Inquiry Data from
    if down.isNull then return .prim item
    else if item = .nil then do
      let _ ← Inquiry.ofExcept (b.fieldChain down)
      return .struct down
    else refuse b (.mixedNode i item)
  if next.isNull then return .data base
  match ← Inquiry.ofExcept (b.atom next) with
  | .type .. =>
    let _ ← Inquiry.typeOf next
    return .field base next
  | found => refuse b (.nodeLink i found)

def refined (b : Buffer) (i : Index) (kind : Qualifier) (number : Int32) (underlying : Ty) :
    Inquiry Ty :=
  match kind, underlying with
  | .storageBuffer, .array .. => return underlying
  | .storageBuffer, _ | .bufferReference, _ => return .reference (← base b i underlying) number
  | .arrays, .sampler .. | .arrays, .image .. => return underlying
  | .arrays, _ => return .array (← base b i underlying) number
  | .inArg, _ => return .inArg underlying
  | .outArg, _ => return .outArg underlying
  | .inOutArg, _ => return .inOutArg underlying
  | .accelerationStructure, _ => return .prim .accelerationStructure
  | _, _ => return fieldValue underlying

/-- Images, samplers and built-in variables have fixed types; other qualifiers
refine another atom. -/
def qualifier (b : Buffer) (i underlying : Index) (kind : Qualifier) (number : Int32) :
    Inquiry Ty :=
  match kind with
  | .image c d => return .image c.texel d.toNat
  | .sampler c d => return .sampler c.texel d.toNat
  | .builtin v => return .prim v.ty
  | kind => do refined b i kind number (← Inquiry.typeOf underlying)

def swizzle (b : Buffer) (i : Index) (code : Swizzle) (source : Ty) : Inquiry Ty :=
  match source.prim? with
  | some p =>
    if p.isVector && decide (code.maxComponent < p.components) then
      return .prim ((Prim.vector? p.scalar code.components.length).getD p)
    else refuse b (.swizzleOf code i source)
  | none => refuse b (.swizzleOf code i source)

/-- What a reference points to; other types are themselves. -/
def target : Ty → Ty
  | .reference base _ => .data base
  | ty => ty

def load (b : Buffer) (i : Index) (field : Int32) (source : Ty) : Inquiry Ty := do
  if field < 0 then return source
  match source with
  | .data (.struct head) =>
    let fields ← Inquiry.ofExcept (b.fieldChain head)
    match fields[field.toInt.toNat]? with
    | some node => return (← Inquiry.typeOf node).bare
    | none => refuse b (.fieldBeyond field i fields.length)
  | _ => refuse b (.fieldOfNonStruct field i source)

/-- An element of an array, a column of a matrix, a component of a vector; an
array of images or samplers has its element's type already. -/
def element (b : Buffer) (i : Index) (source : Ty) : Inquiry Ty :=
  match source with
  | .array base _ => return .data base
  | .sampler .. | .image .. => return source
  | .data (.prim p) =>
    match p.column? with
    | some column => return .prim column
    | none => if p.isVector then return .prim p.scalar else refuse b (.accessInto i source)
  | _ => refuse b (.accessInto i source)

def rule (b : Buffer) (i : Index) (a : Atom) : Inquiry Ty :=
  match a with
  | .type item down next => typeNode b i item down next
  | .qualifier underlying kind number => qualifier b i underlying kind number
  | .literal value => return .prim value.ty
  | .swizzle src code => do swizzle b i code (← Inquiry.typeOf src).bare
  | .operation code x y => do
    let args ← Inquiry.typesOf ([x, y].filter fun o => !o.isNull)
    Inquiry.ofExcept (Overload.operator code (args.map Ty.bare))
  | .intrinsic code args => do
    let items ← Inquiry.ofExcept (b.expandList args)
    let types ← Inquiry.typesOf items
    Inquiry.ofExcept (Overload.intrinsic code (types.map Ty.bare))
  | .construct ty _ .transient => return (← Inquiry.typeOf ty).bare
  | .construct ty _ .normal => return fieldValue (← Inquiry.typeOf ty)
  | .call _ ty _ => return (← Inquiry.typeOf ty).bare
  | .load src field => do load b i field (target (← Inquiry.typeOf src).bare)
  | .access src _ => do element b i (target (← Inquiry.typeOf src).bare)
  | .list .. | .store .. | .branch .. | .ret _ => return .nil

end ShaderForge.Typing
