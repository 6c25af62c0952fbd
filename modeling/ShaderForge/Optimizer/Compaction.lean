import ShaderForge.Optimizer.Storage

/-!
# Compaction

Merges equal atoms into the first of them.  Operands are replaced by their
first occurrence before atoms are compared, so nested expressions merge too.
-/

namespace ShaderForge.Optimizer

/-- Whether an atom may be merged with an equal one: it has no effect, no
identity of its own, and reads nothing that is written. -/
def isMergeable (b : Buffer) (written : IndexSet) (i : Index) (a : Atom) : Except Fault Bool :=
  if b.isSynthesized i then return false
  else match a with
    | .store .. | .ret _ | .branch .. | .call .. => return false
    | .intrinsic code _ => return !(code.isSideEffect || code.isLayout)
    | .construct _ _ mode => return mode == .transient
    | .qualifier _ kind _ => return kind != .parameter
    | .load .. | .access .. | .swizzle .. => return !written.contains (← b.storage i)
    | _ => return true

/-- What has been seen: the first occurrence of each atom so far, and the
mergeable atoms to compare with. -/
structure Seen where
  first : Array Index := #[]
  keys : List ((Atom × Option Decoration) × Index) := []

namespace Seen

/-- The first occurrence of an address; later ones stand for themselves. -/
def canonical (s : Seen) (i : Index) : Index :=
  (i.pos?.bind fun n => s.first[n]?).getD i

/-- Adds an atom, merged into an equal one if `mergeable`. -/
def add (s : Seen) (b : Buffer) (i : Index) (a : Atom) (mergeable : Bool) : Seen :=
  if mergeable then
    let key := (a.mapAddresses s.canonical, b.decoration? i)
    match s.keys.find? (·.1 == key) with
    | some (_, first) => { s with first := s.first.push first }
    | none => { first := s.first.push i, keys := (key, i) :: s.keys }
  else { s with first := s.first.push i }

end Seen

def firstOccurrences (b : Buffer) : Except Fault (List Index) := do
  let written ← writtenStorage b
  let seen ← b.indexed.foldlM
    (fun (s : Seen) (i, a) => return s.add b i a (← isMergeable b written i a)) {}
  return seen.first.toList

/-- Sends every atom to the new place of its first occurrence, given the atoms
that are their own. -/
def mergeMap (kept first : List Index) : Renumbering :=
  first.zipIdx.foldl
    (fun m (f, n) => m.set (.ref n) (((kept.idxOf? f).map Index.ref).getD .null)) {}

/-- Merges equal atoms; says whether there were any. -/
def compact : Edit Bool := do
  let first ← Edit.query firstOccurrences
  let kept := first.zipIdx.filterMap fun (f, n) => if f = .ref n then some f else none
  if kept.length = first.length then return false
  set (← Edit.query (·.rebuild kept (mergeMap kept first)))
  return true

end ShaderForge.Optimizer
