import ShaderForge.Atom

/-!
# Call order

Functions are placed one by one, each after all it calls, the lowest number
first among those that can be placed.  A function counts the callees it waits
for; placing one lowers the counts of its callers.
-/

namespace ShaderForge

abbrev FunctionSet := Std.ExtTreeSet FunctionId

abbrev CallGraph := Std.ExtTreeMap FunctionId FunctionSet

namespace CallGraph

def callers (g : CallGraph) (id : FunctionId) : List FunctionId :=
  (g.toList.filter fun (_, callees) => callees.contains id).map Prod.fst

/-- Placing in progress: how many callees every function still waits for, the
functions that wait for none and are not placed yet, and those placed, in order. -/
structure Placement where
  pending : Std.ExtTreeMap FunctionId Nat
  ready : FunctionSet
  order : List FunctionId := []

namespace Placement

def release (p : Placement) (caller : FunctionId) : Placement :=
  match p.pending[caller]? with
  | none => p
  | some count =>
    let left := count - 1
    { p with
      pending := p.pending.insert caller left
      ready := if left = 0 then p.ready.insert caller else p.ready }

def next? (p : Placement) : Option FunctionId := p.ready.toList.head?

def put (p : Placement) (id : FunctionId) : Placement :=
  { p with ready := p.ready.erase id, order := p.order ++ [id] }

/-- Places ready functions, the lowest number first, at most `rounds` of them. -/
def run (g : CallGraph) : Nat → Placement → Placement
  | 0, p => p
  | rounds + 1, p =>
    match p.next? with
    | some id => run g rounds ((g.callers id).foldl release (p.put id))
    | none => p

end Placement

def start (g : CallGraph) : Placement :=
  let pending := g.map fun _ callees => callees.size
  { pending, ready := .ofList ((pending.toList.filter (·.2 == 0)).map Prod.fst) }

/-- Every function after its callees; with a cycle, the functions that cannot be
placed.  A function is placed once, so their number bounds the rounds. -/
def calleeFirst (g : CallGraph) : Except (List FunctionId) (List FunctionId) :=
  let done := g.start.run g g.size
  if done.order.length = done.pending.size then .ok done.order
  else .error (done.pending.keys.filter fun id => !done.order.contains id)

/-- The functions reached from pending ones along calls.  Every function is
expanded once, so the number of calls bounds the work. -/
def reachFrom (g : CallGraph) : Nat → FunctionSet → List FunctionId → FunctionSet
  | _, seen, [] => seen
  | 0, seen, _ => seen
  | fuel + 1, seen, id :: rest =>
    if seen.contains id then g.reachFrom fuel seen rest
    else g.reachFrom fuel (seen.insert id) (((g[id]?).map (·.toList)).getD [] ++ rest)

def edges (g : CallGraph) : Nat := g.toList.foldr (fun (_, callees) n => callees.size + n) 0

/-- A function with all that it calls, directly or not. -/
def reach (g : CallGraph) (id : FunctionId) : FunctionSet :=
  g.reachFrom (g.edges + 1) ∅ [id]

end CallGraph

end ShaderForge
