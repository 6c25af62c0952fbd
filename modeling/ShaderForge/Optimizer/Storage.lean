import ShaderForge.Function

/-!
# Written storage

The storage that some atom of a buffer may write.  No pass may move a
read of it.
-/

namespace ShaderForge.Optimizer

/-- The expressions through which an atom may write: a store's destination, every
argument of a call, the target of a writing intrinsic. -/
def writtenThrough (b : Buffer) : Atom → Except Fault (List Index)
  | .store dst _ => return [dst]
  | .call _ _ args => b.expandList args
  | .intrinsic .atomicAdd args | .intrinsic .imageStore args => do
    return (← b.expandList args).take 1
  | _ => return []

def writtenStorage (b : Buffer) : Except Fault IndexSet :=
  b.atoms.toList.foldlM
    (fun written a => do
      let targets ← writtenThrough b a
      targets.foldlM (fun written i => return written.insert (← b.storage i)) written) ∅

end ShaderForge.Optimizer
