import ShaderForge.Function
import ShaderForge.Linkage.Type
import ShaderForge.Linkage.Warning

/-!
# Aggregates

The struct types of a unit.  Two structs are one aggregate when their field
types, field names and phantom flags agree; their own names play no part, and
the first of them names the aggregate.
-/

namespace ShaderForge

structure Field where
  ty : LinkedData
  name : String
deriving DecidableEq, Repr

structure AggregateKey where
  types : List LinkedData
  /-- The declared field names; empty when there are none. -/
  names : List String
  phantom : Bool
deriving DecidableEq, Repr

structure Aggregate where
  name : String
  /-- The function whose chain first gave this aggregate. -/
  origin : FunctionId
  head : Index
  key : AggregateKey
deriving DecidableEq, Repr

namespace Aggregate

def phantom (a : Aggregate) : Bool := a.key.phantom

/-- The fields; without declared names they are `f0`, `f1` and so on. -/
def fields (a : Aggregate) : List Field :=
  a.key.types.zipIdx.map fun (ty, k) => ⟨ty, (a.key.names[k]?).getD s!"f{k}"⟩

end Aggregate

/-- The aggregates that the structs of one function have become, by address. -/
abbrev TypeMap := IndexMap Nat

namespace Aggregates

/-- The name of the next aggregate: the hint, or a number; a taken name gets the
number appended. -/
def freshName (entries : Array Aggregate) (hint : Option String) : String :=
  let base := match hint with
    | some name => if name.isEmpty then s!"Aggregate{entries.size}" else name
    | none => s!"Aggregate{entries.size}"
  if entries.any (·.name == base) then s!"{base}_{entries.size}" else base

/-- Registration so far: the aggregates, the map of the function at hand, and
what was noted. -/
structure Scope where
  entries : Array Aggregate := #[]
  map : TypeMap := ∅
  notes : List Note := []

/-- Registration; a failed one keeps the aggregates it has made. -/
abbrev Registering := ExceptT Fault (StateM Scope)

/-- The declared field names of a struct; a wrong number of them is noted and
ignored. -/
def fieldNames (f : Function) (head : Index) (count : Nat) : Registering (List String) := do
  let names := ((f.buffer.decoration? head).map Decoration.fields).getD []
  if names.isEmpty || names.length == count then return names
  let warning := Warning.fieldNames head f.name names.length count
  modify fun s => { s with notes := s.notes ++ [.warning warning] }
  return []

def intern (f : Function) (head : Index) (key : AggregateKey) : Registering Nat := do
  let s ← get
  match s.entries.findIdx? (·.key == key) with
  | some n => return n
  | none =>
    let name := freshName s.entries ((f.buffer.decoration? head).map Decoration.name)
    set { s with
      entries := s.entries.push { name, origin := f.id, head, key }
      notes := s.notes ++ [Note.registered name f.name] }
    return s.entries.size

/-- Registers the struct whose chain starts at `head`, nested structs first.
Nested chains start earlier, so the number of atoms bounds the depth. -/
def register (f : Function) : Nat → Index → Registering Nat
  | 0, head => throw (f.buffer.fault (.endless head))
  | fuel + 1, head => do
    match (← get).map[head]? with
    | some n => return n
    | none =>
      let nodes ← ExceptT.mk (pure (f.buffer.fieldChain head))
      let types ← nodes.mapM fun node => do
        let ty ← ExceptT.mk (pure (f.buffer.typeOf node))
        match ty.data? with
        | some (.prim p) => return LinkedData.prim p
        | some (.struct nested) => return LinkedData.aggregate (← register f fuel nested)
        | none => throw (f.buffer.fault (.fieldNotData node head))
      let names ← fieldNames f head types.length
      let phantom := ((f.buffer.decoration? head).map Decoration.phantom).getD false
      let n ← intern f head { types, names, phantom }
      modify fun s => { s with map := s.map.insert head n }
      return n

def registerIn (f : Function) (head : Index) : Registering Nat :=
  register f (f.buffer.size + 1) head

end Aggregates

end ShaderForge
