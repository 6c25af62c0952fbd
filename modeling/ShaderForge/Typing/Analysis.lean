import ShaderForge.Buffer.Edit
import ShaderForge.Typing.Rules

/-!
# Type analysis

Answers the questions of the typing rules, each atom once.  A question about
an atom that is being typed already is a fault.  On the way, the name of a
binding is passed on to the struct that it holds.
-/

namespace ShaderForge

namespace Typing

/-- What is known in the middle of an analysis. -/
structure Memo where
  types : Array (Option Ty)
  active : Array Bool
  /-- Names to copy onto struct heads. -/
  hints : IndexMap Decoration := ∅

namespace Memo

def empty (b : Buffer) : Memo :=
  { types := .replicate b.size none, active := .replicate b.size false }

def setActive (m : Memo) (n : Nat) (v : Bool) : Memo :=
  { m with active := m.active.setIfInBounds n v }

/-- The name that atom `i` of type `ty` passes on to a struct without one. -/
def hint? (b : Buffer) (i : Index) (ty : Ty) : Option (Index × Decoration) := do
  let d ← b.decoration? i
  let head ← ty.struct?
  if head ≠ i ∧ (b.decoration? head).isNone then some (head, d) else none

def record (m : Memo) (b : Buffer) (n : Nat) (ty : Ty) : Memo :=
  { m with
    types := m.types.setIfInBounds n (some ty)
    hints := match hint? b (.ref n) ty with
      | some (head, d) => m.hints.insertIfNew head d
      | none => m.hints }

end Memo

/-- The type of an atom, from what is known or by its rule.  `fuel` bounds the
depth; a rule in progress is never entered again, so the number of atoms suffices. -/
def typeOf (b : Buffer) : Nat → Index → ExceptT Fault (StateM Memo) Ty
  | _, .null => return .nil
  | 0, i => throw (b.fault (.selfTyped i))
  | fuel + 1, .ref n => do
    let memo ← get
    match b.atoms[n]? with
    | none => throw (b.fault (.unresolved (.ref n)))
    | some a =>
      match memo.types[n]? with
      | some (some ty) => return ty
      | _ =>
        if memo.active[n]?.getD false then throw (b.fault (.selfTyped (.ref n)))
        modify (·.setActive n true)
        let inquiry : ExceptT Fault (StateM Memo) Ty := (rule b (.ref n) a).answer (typeOf b fuel)
        let answer ← ExceptT.lift inquiry.run
        modify (·.setActive n false)
        match answer with
        | .error e => throw e
        | .ok ty =>
          modify (·.record b n ty)
          return ty

def depth (b : Buffer) : Nat := b.size + 1

/-- The type of one atom, starting from nothing. -/
def infer (b : Buffer) (i : Index) : Except Fault Ty :=
  ((typeOf b (depth b) i).run.run (Memo.empty b)).1

def analyze (b : Buffer) : Except Fault (List Ty × IndexMap Decoration) :=
  let all : ExceptT Fault (StateM Memo) (List Ty) :=
    b.indexed.mapM fun (i, _) => typeOf b (depth b) i
  match all.run.run (Memo.empty b) with
  | (.ok types, memo) => .ok (types, memo.hints)
  | (.error e, _) => .error e

end Typing

namespace Buffer

/-- Types every atom and remembers the result, passing names on to structs. -/
def analyze : Edit Unit := do
  let b ← get
  let (types, hints) ← Edit.query Typing.analyze
  set { b with
    types := types.toArray
    decorations := hints.toList.foldl (fun t (i, d) => t.insertIfNew i d) b.decorations }

def typeOf (b : Buffer) (i : Index) : Except Fault Ty :=
  match if b.isAnalyzed then b.cachedType? i else none with
  | some ty => .ok ty
  | none => Typing.infer b i

end Buffer

end ShaderForge
