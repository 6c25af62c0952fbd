import ShaderForge.Typing.Analysis

/-!
# Liveness

The marked atoms are what a generator prints as statements or declarations.
Marking starts at the roots and follows uses: a statement or declaration that
is used is forced, a pure expression is only walked and stays unmarked, so
that it is inlined where it is used.
-/

namespace ShaderForge

namespace Liveness

/-- Whether an atom has an effect or a binding of its own: a statement, a
parameter, an acceleration structure, a device reference made from an address. -/
def isAnchored (b : Buffer) (i : Index) (a : Atom) : Except Fault Bool :=
  match a with
  | .qualifier _ .parameter _ | .qualifier _ .accelerationStructure _ => return true
  | .construct .. => do
    match ← b.typeOf i with
    | .reference .. => return true
    | _ => return false
  | a => return a.isSideEffect

def isRoot (b : Buffer) (i : Index) (a : Atom) : Except Fault Bool :=
  if b.isSynthesized i then return true else isAnchored b i a

inductive Task where
  /-- Mark an atom and what its statement needs. -/
  | force (i : Index)
  /-- Mark the storage that an assignable expression names. -/
  | forceStorage (i : Index)
  | visit (i : Index)
deriving DecidableEq, Repr

structure Reached where
  marked : IndexSet := ∅
  visited : IndexSet := ∅

def needs (a : Atom) : List Task :=
  match a with
  | .store dst src => [.forceStorage dst, .visit dst, .visit src]
  | .qualifier underlying _ _ => [.force underlying]
  | .type _ down next => [.force down, .force next]
  | .construct ty args _ | .call _ ty args => [.force ty, .visit args]
  | .access src loc => [.forceStorage src, .visit src, .visit loc]
  | a => a.operands.map .visit

/-- What a use of an atom leads to: the atom itself when it is printed on its
own, the operands otherwise. -/
def leads (b : Buffer) (i : Index) (a : Atom) : List Task :=
  if b.isSynthesized i then [.force i]
  else match a with
    | .qualifier .. | .type .. | .call .. | .store .. | .ret _ | .branch .. => [.force i]
    | .construct _ _ .normal => [.force i]
    | .construct ty args .transient => [.force ty, .visit args]
    | a => if a.isSideEffect then [.force i] else a.operands.map .visit

/-- Does the first task; the work it leads to comes before the rest. -/
def step (b : Buffer) (r : Reached) : Task → Except Fault (Reached × List Task)
  | .force i =>
    if i.isNull || r.marked.contains i then return (r, [])
    else do
      let a ← b.atom i
      return (⟨r.marked.insert i, r.visited.insert i⟩, needs a)
  | .forceStorage i => return (r, [.force (← b.storage i)])
  | .visit i =>
    if i.isNull || r.visited.contains i then return (r, [])
    else do
      let a ← b.atom i
      return ({ r with visited := r.visited.insert i }, leads b i a)

/-- Works until nothing is left.  An atom is marked once and visited once, so
`fuel` need only cover the tasks that arise. -/
def run (b : Buffer) : Nat → Reached → List Task → Except Fault Reached
  | _, r, [] => return r
  | 0, r, _ => return r
  | fuel + 1, r, t :: rest => do
    let (r, more) ← step b r t
    run b fuel r (more ++ rest)

/-- More steps than marking from one root can take: an atom is marked and visited
at most once, each time leading to at most three tasks, one of them in two steps. -/
def fuel (b : Buffer) : Nat := 8 * b.size + 8

def root (b : Buffer) (r : Reached) (i : Index) : Except Fault Reached :=
  run b (fuel b) r [.force i]

def mark (b : Buffer) : Except Fault IndexSet := do
  let reached ← b.indexed.foldlM
    (fun r (i, a) => do if ← isRoot b i a then root b r i else return r) {}
  return reached.marked

end Liveness

/-- Marks the live atoms, analyzing first when needed. -/
def Buffer.mark : Edit Unit := do
  let b ← get
  if !b.isAnalyzed && !b.isEmpty then Buffer.analyze
  let marked ← Edit.query Liveness.mark
  modify ({ · with marked })

end ShaderForge
