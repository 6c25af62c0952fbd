import ShaderForge.Source.Extension
import ShaderForge.Source.Statement

/-!
# GLSL

The GLSL spelling, and the source of a whole unit: version, extensions,
execution layout, structs, references, globals, functions.
-/

namespace ShaderForge.Glsl

/-- The letter before an image or sampler type. -/
def channelLetter (texel : Prim) : String :=
  match texel.scalar with
  | .i32 => "i"
  | .u32 => "u"
  | _ => ""

/-- Floating point constants; those without a literal are quotients. -/
def floatSpelling (suffix : String) : FloatSpelling where
  nan := "(0.0 / 0.0)"
  infinity negative := if negative then "(-1.0 / 0.0)" else "(1.0 / 0.0)"
  suffix := suffix

def literal : Literal → String
  | .bool b => if b then "true" else "false"
  | .i32 v => toString v.toInt
  | .u32 v => toString v.toNat ++ "u"
  | .f32 bits => (floatSpelling "").render .single bits.toNat
  | .f64 bits => (floatSpelling "lf").render .double bits.toNat
  | .u64 v => toString v.toNat ++ "ul"

/-- An array suffix; a negative size is unbounded. -/
def brackets (size : Int) : String :=
  if size < 0 then "[]" else s!"[{size}]"

def intrinsic (code : Intrinsic) (args : List String) : Except TargetFault String :=
  if code.isKeyword then return code.glsl
  else if code.isLayout then .error (.other (.layoutExpression code))
  else return code.glsl ++ "(" ++ ", ".intercalate args ++ ")"

def blockMember (block : String) (phantom : Bool) : String :=
  if phantom then block else block ++ ".data"

def direction : Direction → String
  | .value => ""
  | .input => "in "
  | .output => "out "
  | .both => "inout "

def dialect : Dialect where
  primitive := Prim.glsl
  array element size := element ++ brackets size
  image texel dim := return s!"{channelLetter texel}image{dim}D"
  sampler texel dim := return s!"{channelLetter texel}sampler{dim}D"
  reference _ id := Naming.reference id
  literal := literal
  intrinsic := intrinsic
  blockMember := blockMember
  dereference := blockMember
  parameter ty name d := direction d ++ ty ++ " " ++ name

/-! ### Declarations -/

/-- A type before a name, an array suffix after it. -/
def declarator (u : Linkage) (ty : LinkedTy) (name : String) : Except TargetFault String := do
  match ty with
  | .array element size =>
    return (← dialect.dataName u element) ++ " " ++ name ++ brackets size.toInt
  | ty => return (← dialect.typeName u ty) ++ " " ++ name

/-- The layout of the first member of a block at an offset. -/
def offsetLayout : Option Int → String
  | some offset => s!"layout(offset = {offset}) "
  | none => ""

/-- The members of a block: the fields of a phantom struct, or one `data` member. -/
def blockMembers (u : Linkage) (ty : LinkedTy) (offset : Option Int) :
    Except TargetFault String := do
  let phantom? := match ty with
    | .data (.aggregate n) => (u.aggregates[n]?).filter Aggregate.phantom
    | _ => none
  match phantom? with
  | some a =>
    let members ← a.fields.zipIdx.mapM fun (f, k) => do
      let layout := if k = 0 then offsetLayout offset else ""
      return " " ++ layout ++ (← dialect.dataName u f.ty) ++ " " ++ f.name ++ ";"
    return String.join members
  | none => return " " ++ offsetLayout offset ++ (← declarator u ty "data") ++ ";"

def packing (scalar : Bool) (default : String) : String :=
  if scalar then "scalar" else default

def access (readOnly writeOnly : Bool) : String :=
  (if readOnly then "readonly " else "") ++ (if writeOnly then "writeonly " else "")

def countSuffix : Option Int → String
  | some n => brackets n
  | none => ""

def block (head name members tail : String) : String :=
  head ++ " " ++ name ++ " \x7b" ++ members ++ " \x7d" ++ tail ++ ";\n"

def each {α : Type} (t : Table α) (line : Int → α → Except TargetFault String) :
    Except TargetFault String := do
  return String.join (← t.toList.mapM fun (n, v) => line n v)

/-- The struct declarations; phantom structs have none. -/
def structs (d : Dialect) (u : Linkage) (as : List Aggregate) : Except TargetFault String := do
  let texts ← as.mapM fun a => do
    let fields ← a.fields.mapM fun f => do
      return "    " ++ (← d.dataName u f.ty) ++ " " ++ f.name ++ ";\n"
    return "struct " ++ a.name ++ " \x7b\n" ++ String.join fields ++ "\x7d;\n\n"
  return String.join texts

def references (u : Linkage) : Except TargetFault String := do
  let lines ← each u.globals.references fun id r => do
    let members ← blockMembers u (.data r.base) none
    return block ("layout(buffer_reference, " ++ packing r.scalar "std430" ++ ") buffer")
      (Naming.reference id) members ""
  return if u.globals.references.isEmpty then lines else lines ++ "\n"

def layoutVariables (u : Linkage) : Except TargetFault String := do
  let inputs ← each u.globals.inputs fun n v => do
    return s!"layout(location = {n}) {v.interpolation.glsl}in "
      ++ (← declarator u v.ty (Global.input n).name) ++ ";\n"
  let outputs ← each u.globals.outputs fun n v => do
    return s!"layout(location = {n}) {v.interpolation.glsl}out "
      ++ (← declarator u v.ty (Global.output n).name) ++ ";\n"
  return inputs ++ outputs

def pushConstant (u : Linkage) : Except TargetFault String :=
  match u.globals.pushConstant with
  | none => return ""
  | some p => do
    let members ← blockMembers u p.ty (some p.offset)
    let g := Global.pushConstant
    return block "layout(push_constant) uniform" g.block members (" " ++ g.name)

def blocks (u : Linkage) : Except TargetFault String := do
  let uniforms ← each u.globals.uniforms fun n v => do
    let members ← blockMembers u v.ty none
    let g := Global.uniform n
    return block (s!"layout(binding = {n}, " ++ packing v.scalar "std140" ++ ") uniform")
      g.block members (" " ++ g.name)
  let buffers ← each u.globals.buffers fun n v => do
    let members ← blockMembers u v.ty none
    let g := Global.buffer n
    return block
      (s!"layout(binding = {n}, " ++ packing v.scalar "std430" ++ ") "
        ++ access v.readOnly v.writeOnly ++ "buffer") g.block members (" " ++ g.name)
  return uniforms ++ buffers

def resources (u : Linkage) : Except TargetFault String := do
  let shared ← each u.globals.shared fun n v => do
    return "shared " ++ (← declarator u v.ty (Global.shared n).name) ++ ";\n"
  let samplers ← each u.globals.samplers fun n v => do
    return s!"layout(binding = {n}) uniform " ++ (← dialect.sampler v.texel v.dim) ++ " "
      ++ (Global.sampler n).name ++ countSuffix v.count ++ ";\n"
  let images ← each u.globals.images fun n v => do
    let format := (v.format.map fun f => ", " ++ f).getD ""
    return s!"layout(binding = {n}{format}) uniform " ++ access v.readOnly v.writeOnly
      ++ (← dialect.image v.texel v.dim) ++ " " ++ (Global.image n).name ++ countSuffix v.count
      ++ ";\n"
  return shared ++ samplers ++ images

def special (u : Linkage) (g : Global) (v : SpecialGlobal) : Except TargetFault String := do
  let declared ← declarator u v.ty g.name
  match g with
  | .special .accelerationStructure n =>
    return s!"layout(binding = {n}) uniform accelerationStructureEXT {g.name};\n"
  | .special .rayPayload n => return s!"layout(location = {n}) rayPayloadEXT {declared};\n"
  | .special .rayPayloadIn n => return s!"layout(location = {n}) rayPayloadInEXT {declared};\n"
  | .special .hitAttribute _ => return s!"hitAttributeEXT {declared};\n"
  | _ => return s!"taskPayloadSharedEXT {declared};\n"

def globals (u : Linkage) : Except TargetFault String := do
  let layout ← layoutVariables u
  let push ← pushConstant u
  let blocks ← blocks u
  let resources ← resources u
  let specials ← u.globals.special.toList.mapM fun (g, v) => special u g v
  return layout ++ push ++ blocks ++ resources ++ String.join specials

def control (c : Control) : String :=
  let size := match c.localSize with
    | some s =>
      s!"layout(local_size_x = {s.x}, local_size_y = {s.y}, local_size_z = {s.z}) in;\n"
    | none => ""
  let mesh := match c.meshSize with
    | some m =>
      s!"layout(max_vertices = {m.vertices}, max_primitives = {m.primitives}) out;\n"
        ++ "layout(triangles) out;\n"
    | none => ""
  size ++ mesh

/-- The definitions of all functions, each after an empty line. -/
def definitions (d : Dialect) (u : Linkage) : Except TargetFault String := do
  let texts ← u.functions.mapM fun f => do
    return "\n" ++ (← Statement.definition { unit := u, function := f, dialect := d })
  return String.join texts

/-- The functions that can be printed, up to the first that cannot, each with the
number of its locals. -/
def printed (d : Dialect) (u : Linkage) : List Function → List (String × Nat)
  | [] => []
  | f :: rest =>
    match Statement.localCount? { unit := u, function := f, dialect := d } with
    | some count => (f.name, count) :: printed d u rest
    | none => []

def header (u : Linkage) (o : Options) : Except TargetFault String := do
  let extensions := (Extension.required u o.stage).map fun e =>
    "#extension " ++ e.name ++ " : require\n"
  let structs ← structs dialect u (u.aggregates.toList.filter fun a => !a.phantom)
  let references ← references u
  let globals ← globals u
  return s!"#version {o.glslVersion}\n" ++ String.join extensions ++ "\n" ++ control u.control
    ++ structs ++ references ++ globals

def generate (u : Linkage) (o : Options) : Except TargetFault String := do
  return (← header u o) ++ (← definitions dialect u)

end ShaderForge.Glsl
