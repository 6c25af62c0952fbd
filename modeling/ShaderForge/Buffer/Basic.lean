import ShaderForge.Atom
import ShaderForge.Ty

/-!
# Buffers

The ordered atoms of one function, what the front end noted about them, and
the results of analysis.  Every edit of an atom drops the results.
-/

namespace ShaderForge

/-- A name for a struct or binding, with its field names. -/
structure Decoration where
  name : String
  fields : List String := []
  /-- A phantom struct is never declared; its fields are members of a block. -/
  phantom : Bool := false
deriving DecidableEq, Repr, Inhabited

/-- The atoms of one function with their annotations and analysis results. -/
structure Buffer where
  atoms : Array Atom := #[]
  /-- The type of each atom, once analyzed. -/
  types : Array Ty := #[]
  /-- Atoms whose value is captured where they stand. -/
  synthesized : IndexSet := ∅
  /-- Atoms that are printed as statements or declarations, once marked. -/
  marked : IndexSet := ∅
  decorations : IndexMap Decoration := ∅

namespace Buffer

instance : Inhabited Buffer := ⟨{}⟩

def size (b : Buffer) : Nat := b.atoms.size

def isEmpty (b : Buffer) : Bool := b.atoms.isEmpty

def get? (b : Buffer) : Index → Option Atom
  | .null => none
  | .ref n => b.atoms[n]?

def indexed (b : Buffer) : List (Index × Atom) :=
  b.atoms.toList.zipIdx.map fun (a, n) => (.ref n, a)

def invalidate (b : Buffer) : Buffer :=
  { b with types := #[], marked := ∅ }

def emit (b : Buffer) (a : Atom) : Buffer :=
  { b.invalidate with atoms := b.atoms.push a }

def emitAt (b : Buffer) (a : Atom) : Index × Buffer :=
  (.ref b.size, b.emit a)

def emitUnique (b : Buffer) (a : Atom) : Index × Buffer :=
  match b.atoms.toList.findIdx? (· == a) with
  | some n => (.ref n, b)
  | none => b.emitAt a

def setAtom (b : Buffer) (n : Nat) (a : Atom) : Buffer :=
  { b.invalidate with atoms := b.atoms.setIfInBounds n a }

def synthesize (b : Buffer) (i : Index) : Buffer :=
  { b with synthesized := b.synthesized.insert i, marked := ∅ }

def isSynthesized (b : Buffer) (i : Index) : Bool := b.synthesized.contains i

def decorate (b : Buffer) (i : Index) (d : Decoration) : Buffer :=
  { b with decorations := b.decorations.insert i d }

def decoration? (b : Buffer) (i : Index) : Option Decoration := b.decorations[i]?

def isMarked (b : Buffer) (i : Index) : Bool := b.marked.contains i

def isAnalyzed (b : Buffer) : Bool :=
  !b.isEmpty && b.types.size == b.atoms.size

def cachedType? (b : Buffer) (i : Index) : Option Ty :=
  i.pos?.bind fun n => b.types[n]?

def content (b : Buffer) : List Atom × List Index × List (Index × Decoration) :=
  (b.atoms.toList, b.synthesized.toList, b.decorations.toList)

def agrees (b c : Buffer) : Bool := b.content == c.content

def ofContent (atoms : List Atom) (synthesized : List Index)
    (decorations : List (Index × Decoration)) : Buffer :=
  let bare := atoms.foldl emit {}
  let captured := synthesized.foldl synthesize bare
  decorations.foldl (fun b (i, d) => b.decorate i d) captured

end Buffer

end ShaderForge
