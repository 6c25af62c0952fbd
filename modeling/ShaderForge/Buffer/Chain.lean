import ShaderForge.Fault

/-!
# Chains

Argument lists and struct fields are chains of atoms that lead strictly
backwards, so every walk ends.  The storage that an assignable expression
names is found by the same kind of walk.
-/

namespace ShaderForge.Buffer

/-- The atom at an address; a dangling address is a fault. -/
def atom (b : Buffer) (i : Index) : Except Fault Atom :=
  match b.get? i with
  | some a => .ok a
  | none => .error (b.fault (.unresolved i))

/-- The items of the argument list whose first cell is `i`. -/
def expandList (b : Buffer) (i : Index) : Except Fault (List Index) :=
  match i with
  | .null => .ok []
  | .ref n =>
    match b.get? (.ref n) with
    | some (.list item next) =>
      match next with
      | .null => .ok [item]
      | .ref k =>
        if k < n then do
          let rest ← b.expandList (.ref k)
          return item :: rest
        else .error (b.fault (.listForward (.ref n) (.ref k)))
    | some found => .error (b.fault (.notList (.ref n) found))
    | none => .error (b.fault (.unresolved (.ref n)))
termination_by i.rank
decreasing_by simp [Index.rank]; omega

/-- The fields of a chain from one of its links on, without the closing marker.
`head` is where the chain starts. -/
def fieldsFrom (b : Buffer) (head i : Index) : Except Fault (List Index) :=
  match i with
  | .null => .error (b.fault (.unresolved .null))
  | .ref n =>
    match b.get? (.ref n) with
    | some (.type item down .null) =>
      if item = .nil ∧ down = .null then .ok []
      else .error (b.fault (.chainUnclosed head))
    | some (.type _ _ (.ref k)) =>
      if k < n then do
        let rest ← b.fieldsFrom head (.ref k)
        return .ref n :: rest
      else .error (b.fault (.fieldForward (.ref n) (.ref k)))
    | some found => .error (b.fault (.chainReaches found (.ref n)))
    | none => .error (b.fault (.unresolved (.ref n)))
termination_by i.rank
decreasing_by simp [Index.rank]; omega

/-- The fields of the struct whose chain starts at `head`, in order. -/
def fieldChain (b : Buffer) (head : Index) : Except Fault (List Index) := do
  let fields ← b.fieldsFrom head head
  if fields.isEmpty then .error (b.fault (.fieldless head))
  else return fields

/-- Follows swizzles, field reads and array accesses to the storage they name. -/
def storageFrom (b : Buffer) (start : Index) : Nat → Index → Except Fault Index
  | 0, _ => .error (b.fault (.endless start))
  | fuel + 1, i => do
    match ← b.atom i with
    | .swizzle src _ | .load src _ | .access src _ => b.storageFrom start fuel src
    | _ => return i

def storage (b : Buffer) (i : Index) : Except Fault Index :=
  b.storageFrom i (b.size + 1) i

end ShaderForge.Buffer
