import ShaderForge.Registry
import ShaderForge.Optimizer.Compaction
import ShaderForge.Optimizer.DeadCode
import ShaderForge.Optimizer.Elision

/-!
# Optimization levels

Passes are run in turn until none of them changes the buffer.
-/

namespace ShaderForge

/-- How much to optimize.  The two upper levels run the same passes. -/
inductive OptLevel where
  | none
  | basic
  | full
deriving DecidableEq, Repr, Inhabited

namespace OptLevel

def name : OptLevel → String
  | none => "O0"
  | basic => "O1"
  | full => "O2"

def toNat : OptLevel → Nat
  | none => 0
  | basic => 1
  | full => 2

def ofNat? : Nat → Option OptLevel
  | 0 => some none
  | 1 => some basic
  | 2 => some full
  | _ => Option.none

end OptLevel

namespace Optimizer

inductive Pass where
  | compaction
  | elision
  | deadCode
deriving DecidableEq, Repr

namespace Pass

def name : Pass → String
  | compaction => "compaction"
  | elision => "constructor-elision"
  | deadCode => "dce"

def ofName? (s : String) : Option Pass :=
  [compaction, elision, deadCode].find? (·.name == s)

/-- Runs a pass; says whether it changed the buffer. -/
def run : Pass → Edit Bool
  | compaction => compact
  | elision => elide
  | deadCode => eliminate

end Pass

def passes : OptLevel → List Pass
  | .none => []
  | .basic | .full => [.compaction, .elision, .deadCode]

/-- Runs passes in order; says whether one changed the buffer. -/
def sweep : List Pass → Edit Bool
  | [] => return false
  | p :: rest => do
    let changed ← p.run
    let later ← sweep rest
    return changed || later

/-- Sweeps until nothing changes; says whether anything did. -/
def settle (ps : List Pass) : Nat → Edit Bool
  | 0 => do throw ((← get).fault .unsettled)
  | fuel + 1 => do
    if ← sweep ps then
      let _ ← settle ps fuel
      return true
    else return false

/-- A bound on the sweeps: one that changes the buffer removes an atom, or moves
an address of the same atoms to an earlier one. -/
def sweepBound (n : Nat) : Nat := (n + 1) * (2 * n * (n + 1) + 2) + 1

/-- Optimizes a buffer; says whether it changed. -/
def optimize (level : OptLevel) : Edit Bool := do
  settle (passes level) (sweepBound (← get).size)

end Optimizer

namespace Function

/-- Optimizes the buffer and derives the signature again; says whether the
buffer changed. -/
def optimize (level : OptLevel) : Revision Bool := do
  let changed ← onBuffer (Optimizer.optimize level)
  prepare
  return changed

end Function

namespace Registry

/-- Optimizes functions in order, up to the first that fails. -/
def optimizeAll (level : OptLevel) (r : Registry) : List Function → Except Fault Unit × Registry
  | [] => (.ok (), r)
  | f :: rest =>
    let (answer, f') := (Function.optimize level).apply f
    let r := r.put f'
    match answer with
    | .ok _ => optimizeAll level r rest
    | .error e => (.error e, r)

/-- Optimizes every function, by ascending number; a failure keeps what was done. -/
def optimize (level : OptLevel) (r : Registry) : Except Fault Unit × Registry :=
  optimizeAll level r r.functions

end Registry

end ShaderForge
