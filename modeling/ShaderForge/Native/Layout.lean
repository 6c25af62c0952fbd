import ShaderForge.LittleEndian
import ShaderForge.Native.Register
import ShaderForge.Target

/-!
# Packed layouts

Values cross the boundary of native code as a flat run of scalars: vectors and
matrices give one per component, aggregates those of their fields in order.
Every scalar stands at the next multiple of its own size; booleans take four
bytes.
-/

namespace ShaderForge.Native

abbrev Memory := Array UInt8

/-! ### Packing -/

def memorySize : Prim → UInt32
  | .f64 | .u64 => 8
  | _ => 4

def sum? (a b : UInt32) : Option UInt32 := if a ≤ a + b then some (a + b) else none

/-- The least multiple of `unit` that is not below `n`, if a word holds it. -/
def roundUp? (n unit : UInt32) : Option UInt32 :=
  if n % unit = 0 then some n else sum? n (unit - n % unit)

/-- The offsets of scalars, the first byte after them, given the first free byte. -/
def place (free : UInt32) : List Prim → Option (List UInt32 × UInt32)
  | [] => some ([], free)
  | s :: rest => do
    let start ← roundUp? free (memorySize s)
    let (offsets, stop) ← place (← sum? start (memorySize s)) rest
    return (start :: offsets, stop)

def widest (scalars : List Prim) : UInt32 :=
  scalars.foldl (fun n s => max n (memorySize s)) 1

/-- Scalars with their byte offsets. -/
structure Layout where
  scalars : List Prim
  offsets : List UInt32
  /-- The bytes in all, padded to the widest scalar. -/
  size : UInt32
deriving DecidableEq, Repr

namespace Layout

def pack (scalars : List Prim) : Option Layout := do
  let (offsets, stop) ← place 0 scalars
  return { scalars, offsets, size := ← roundUp? stop (widest scalars) }

def isEmpty (l : Layout) : Bool := l.scalars.isEmpty

end Layout

/-! ### Memory -/

/-- Writes a byte; nothing is kept before or after the memory. -/
def poke (m : Memory) (position : Int) (b : UInt8) : Memory :=
  if position < 0 then m else m.setIfInBounds position.toNat b

/-- Reads a byte; before and after the memory there are zeros. -/
def peek (m : Memory) (position : Int) : UInt8 :=
  if position < 0 then 0 else (m[position.toNat]?).getD 0

def write (m : Memory) (start : Int) : List UInt8 → Memory
  | [] => m
  | b :: rest => write (poke m start b) (start + 1) rest

def read (m : Memory) (start : Int) : Nat → List UInt8
  | 0 => []
  | size + 1 => peek m start :: read m (start + 1) size

/-- The bytes of a word stored as a scalar: a boolean is extended to four of them,
any other word keeps its own, whatever room the scalar has. -/
def stored (s : Prim) (w : Word) : List UInt8 :=
  LittleEndian.encode (if s = .boolean then 4 else w.register.bytes) w.bits.toNat

/-- A stored scalar as a register holds it; every stored boolean but zero is true. -/
def loaded (s : Prim) (bits : UInt64) : Word :=
  if s = .boolean then .ofBool (bits != 0) else .ofScalar s bits

def blank (size : UInt32) : Memory := Array.replicate size.toNat 0

namespace Layout

/-- Where an offset leads from the start of the memory: instructions take it as a
signed displacement. -/
def position (offset : UInt32) : Int := offset.toInt32.toInt

/-- Stores words at the offsets of some scalars, one after the other. -/
def storeAt (m : Memory) : List Prim → List UInt32 → List Word → Memory
  | s :: scalars, offset :: offsets, w :: ws =>
    storeAt (write m (position offset) (stored s w)) scalars offsets ws
  | _, _, _ => m

/-- Stores words; scalars without one keep their bytes. -/
def store (l : Layout) (m : Memory) (ws : List Word) : Memory :=
  storeAt m l.scalars l.offsets ws

def bitsAt (m : Memory) (s : Prim) (offset : UInt32) : UInt64 :=
  UInt64.ofNat (LittleEndian.decode (read m (position offset) (memorySize s).toNat))

def bits (l : Layout) (m : Memory) : List UInt64 := l.scalars.zipWith (bitsAt m) l.offsets

def load (l : Layout) (m : Memory) : List Word := l.scalars.zipWith loaded (l.bits m)

end Layout

/-! ### Types of a unit -/

/-- The scalars of a value type.  Nested aggregates come earlier in the unit, so
the number of aggregates bounds the depth. -/
def dataScalars (u : Linkage) : Nat → LinkedData → Except TargetFault (List Prim)
  | _, .prim .accelerationStructure => .error (.unsupported .nativeAcceleration)
  | _, .prim p => return List.replicate p.components p.scalar
  | 0, .aggregate n => .error (.other (.aggregate n))
  | depth + 1, .aggregate n =>
    match u.aggregates[n]? with
    | none => .error (.other (.aggregate n))
    | some a => return (← a.key.types.mapM (dataScalars u depth)).flatten

def scalarsOfData (u : Linkage) (d : LinkedData) : Except TargetFault (List Prim) :=
  dataScalars u (u.aggregates.size + 1) d

def scalarsOf (u : Linkage) : LinkedTy → Except TargetFault (List Prim)
  | .nil => return []
  | .data d => scalarsOfData u d
  | ty => .error (.unsupported (.abiType ty))

/-- The layout of scalars; without one, lowering ends. -/
def Layout.ofScalars (scalars : List Prim) : Except TargetFault Layout :=
  match pack scalars with
  | some l => .ok l
  | none => .error (.machine .extent)

def Layout.of (u : Linkage) (ty : LinkedTy) : Except TargetFault Layout := do
  ofScalars (← scalarsOf u ty)

def Layout.concat (u : Linkage) (types : List LinkedTy) : Except TargetFault Layout := do
  ofScalars (← types.mapM (scalarsOf u)).flatten

/-- The scalars before a field and up to its end, given those before the list. -/
def fieldSpan (u : Linkage) (start : Nat) : List LinkedData → Nat →
    Except TargetFault (Option (Nat × Nat))
  | [], _ => return none
  | ty :: rest, field => do
    let stop := start + (← scalarsOfData u ty).length
    match field with
    | 0 => return some (start, stop)
    | field + 1 => fieldSpan u stop rest field

def fieldRange (u : Linkage) (aggregate field : Nat) : Except TargetFault (Nat × Nat) :=
  match u.aggregates[aggregate]? with
  | none => .error (.other (.aggregate aggregate))
  | some a => do
    match ← fieldSpan u 0 a.key.types field with
    | some range => return range
    | none => .error (.other (.aggregateField a.name field))

end ShaderForge.Native
