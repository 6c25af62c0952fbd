import ShaderForge.Buffer.Chain

/-!
# Edits

Renumbering, rebuilding and validating a buffer.  A renumbering that meets a
removed atom stops there and keeps what it has changed.
-/

namespace ShaderForge

/-- Changes of a buffer that may fail; a failed change keeps what it has done. -/
abbrev Edit := ExceptT Fault (StateM Buffer)

def Edit.apply {α : Type} (e : Edit α) (b : Buffer) : Except Fault α × Buffer :=
  (ExceptT.run e).run b

def Edit.exec {α : Type} (e : Edit α) (b : Buffer) : Except Fault Buffer :=
  match e.apply b with
  | (.ok _, c) => .ok c
  | (.error f, _) => .error f

def Edit.query {α : Type} (f : Buffer → Except Fault α) : Edit α := do
  match f (← get) with
  | .ok a => return a
  | .error e => throw e

namespace Renumbering

/-- Renumbers the addresses of an atom, leaving removed ones as they are. -/
def atom (m : Renumbering) (a : Atom) : Atom :=
  a.mapAddresses fun i => (m.image? i).getD i

/-- The last address of an atom that was removed. -/
def removed? (m : Renumbering) (a : Atom) : Option Index :=
  [a.addresses.2, a.addresses.1].find? fun i => (m.image? i).isNone

/-- Renumbers atoms up to the first that uses a removed one, which is reported
with its position. -/
def atoms (m : Renumbering) : Nat → List Atom → List Atom × Option (Nat × Index)
  | _, [] => ([], none)
  | n, a :: rest =>
    match m.removed? a with
    | some i => (m.atom a :: rest, some (n, i))
    | none =>
      let (rest, failure) := m.atoms (n + 1) rest
      (m.atom a :: rest, failure)

def indexSet (m : Renumbering) (s : IndexSet) : IndexSet :=
  Std.ExtTreeSet.ofList (s.toList.filterMap m.image?)

/-- The entries that remain of a map; a later one wins. -/
def indexMap {β : Type} (m : Renumbering) (t : IndexMap β) : IndexMap β :=
  Std.ExtTreeMap.ofList (t.toList.filterMap fun (i, v) => (m.image? i).map (·, v))

end Renumbering

namespace Buffer

/-- Renumbers every address and annotation.  A use of a removed atom is a fault. -/
def renumber (m : Renumbering) : Edit Unit := do
  let b ← get
  let (atoms, failure) := m.atoms 0 b.atoms.toList
  match failure with
  | some (n, i) =>
    set { b with atoms := atoms.toArray }
    throw ((← get).fault (.removedOperand n i))
  | none =>
    set ({ b with
      atoms := atoms.toArray
      synthesized := m.indexSet b.synthesized
      decorations := m.indexMap b.decorations } : Buffer).invalidate

def rebuild (b : Buffer) (kept : List Index) (m : Renumbering) : Except Fault Buffer := do
  let atoms ← kept.mapM b.atom
  let fresh : Buffer :=
    { atoms := atoms.toArray, synthesized := b.synthesized, decorations := b.decorations }
  (renumber m).exec fresh

def replace (i : Index) (a : Atom) : Edit Unit := do
  let b ← get
  match i with
  | .ref n => if n < b.size then set (b.setAtom n a) else throw (b.fault (.unresolved i))
  | .null => throw (b.fault (.unresolved i))

/-- The first defect of one atom's addresses: a branch tests an earlier atom and
leads to a later branch, any other atom uses earlier atoms only. -/
def addressDefect? (b : Buffer) (i : Index) (a : Atom) : Option Defect :=
  match a with
  | .branch _ cond failto =>
    if !cond.isNull && decide (i ≤ cond) then some (.conditionLate i cond)
    else if failto.isNull then none
    else match b.get? failto with
      | some (.branch ..) => if i < failto then none else some (.targetNotLater i failto)
      | _ => some (.targetNotLater i failto)
  | _ =>
    [a.addresses.1, a.addresses.2].findSome? fun address =>
      if !address.isNull && decide (i ≤ address) then some (.operandLate i address) else none

/-- The first defect of the addresses and annotations of a buffer. -/
def defect? (b : Buffer) : Option Defect :=
  (b.indexed.findSome? fun (i, a) => b.addressDefect? i a) <|>
    (b.synthesized.toList ++ b.decorations.keys).findSome? fun i =>
      if (b.get? i).isNone then some (.strayNote i) else none

def validate (b : Buffer) : Except Fault Unit :=
  match b.defect? with
  | some d => .error (b.fault d)
  | none => .ok ()

end Buffer

end ShaderForge
