import ShaderForge.Optimizer.Storage

/-!
# Constructor elision

A field read of a constructed value is forwarded to the constructor's
argument, and so is a component of a vector built from one scalar per
component.  The bypassed reads are left for dead code elimination.
-/

namespace ShaderForge.Optimizer

def slot? : Atom → Option (Index × Nat)
  | .load src field => if field < 0 then none else some (src, field.toInt.toNat)
  | .swizzle src code =>
    match code.components with
    | [c] => some (src, c)
    | _ => none
  | _ => none

/-- The argument list of a construction that is never written afterwards. -/
def constructed? (b : Buffer) (written : IndexSet) (src : Index) : Option Index :=
  match b.get? src with
  | some (.construct _ args _) =>
    if !args.isNull && !written.contains src then some args else none
  | _ => none

/-- Whether every item has the primitive type `p`. -/
def allOf (b : Buffer) (p : Prim) : List Index → Except Fault Bool
  | [] => return true
  | i :: rest => do
    if (← b.typeOf i).prim? = some p then allOf b p rest else return false

/-- Whether a vector is built from exactly one scalar per component. -/
def isScalarSplit (b : Buffer) (src : Index) (items : List Index) : Except Fault Bool := do
  match (← b.typeOf src).prim? with
  | none => return false
  | some vector =>
    if !vector.isVector || items.length != vector.components then return false
    else allOf b vector.scalar items

/-- The operands that an expression may read written storage through. -/
def followed : Atom → List Index
  | .qualifier .. | .type .. | .literal _ => []
  | a => a.operands

def unseen (b : Buffer) (seen : IndexSet) : List (Index × Atom) := b.indexed.filter fun e => !seen.contains e.1

theorem length_followed (a : Atom) : (followed a).length ≤ 2 := by
  unfold followed
  split
  iterate 3 exact Nat.zero_le 2
  exact List.length_filter_le _ _

theorem unseen_insert (b : Buffer) (seen : IndexSet) (i : Index) :
    unseen b (seen.insert i) = (unseen b seen).filter fun e => !(compare i e.1 == .eq) := by
  unfold unseen
  rw [List.filter_filter]
  simp only [Std.ExtTreeSet.contains_insert, Bool.not_or]

theorem unseen_insert_lt {b : Buffer} {seen : IndexSet} {i : Index} {a : Atom} (found : b.atom i = .ok a)
    (fresh : ¬ (i.isNull || seen.contains i) = true) : (unseen b (seen.insert i)).length < (unseen b seen).length := by
  have listed : (i, a) ∈ b.indexed := by
    unfold Buffer.atom at found
    split at found
    · rename_i a' there
      cases found
      cases i with
      | null => cases there
      | ref n =>
        have there : b.atoms[n]? = some a := there
        exact List.mem_map.2 ⟨(a, n), List.mk_mem_zipIdx_iff_getElem?.2 (by simpa using there), rfl⟩
    · cases found
  rw [unseen_insert, List.length_filter_lt_length_iff_exists]
  refine ⟨(i, a), List.mem_filter.2 ⟨listed, ?_⟩, ?_⟩
  · simp only [Bool.or_eq_true, not_or, Bool.not_eq_true] at fresh
    rw [fresh.2]
    rfl
  · simp

/-- Whether some pending expression depends on written storage.  Each atom is
looked at once. -/
def readsWrittenFrom (b : Buffer) (written seen : IndexSet) : List Index → Except Fault Bool
  | [] => return false
  | i :: rest =>
    if i.isNull || seen.contains i then readsWrittenFrom b written seen rest
    else if written.contains i then return true
    else if b.isSynthesized i then readsWrittenFrom b written (seen.insert i) rest
    else match _ : b.atom i with
      | .ok a => readsWrittenFrom b written (seen.insert i) (followed a ++ rest)
      | .error e => .error e
termination_by pending => 2 * (unseen b seen).length + pending.length
decreasing_by
  · exact Nat.lt_succ_self _
  · have fewer : (unseen b (seen.insert i)).length ≤ (unseen b seen).length := by
      rw [unseen_insert]
      exact List.length_filter_le _ _
    simp only [List.length_cons]
    omega
  · have fewer := unseen_insert_lt ‹_› ‹_›
    have few := length_followed a
    simp only [List.length_append, List.length_cons]
    omega

/-- Whether an expression depends on storage that is written somewhere. -/
def readsWritten (b : Buffer) (written : IndexSet) (i : Index) : Except Fault Bool :=
  readsWrittenFrom b written ∅ [i]

def forwarded? (b : Buffer) (written : IndexSet) (i : Index) (a : Atom) :
    Except Fault (Option Index) := do
  if b.isSynthesized i then return none
  let some (src, slot) := slot? a | return none
  let some args := constructed? b written src | return none
  let items ← b.expandList args
  let some item := items[slot]? | return none
  let fits ← show Except Fault Bool from match a with
    | .swizzle .. => isScalarSplit b src items
    | _ => return true
  if !fits then return none
  if ← readsWritten b written item then return none
  return some item

def forwards (b : Buffer) : Except Fault (IndexMap Index) := do
  let written ← writtenStorage b
  b.indexed.foldlM
    (fun (forward : IndexMap Index) (i, a) => do
      match ← forwarded? b written i a with
      | some item => return forward.insert i (forward.getD item item)
      | none => return forward) ∅

/-- Forwards field reads of constructed values; says whether any use changed. -/
def elide : Edit Bool := do
  if (← get).isEmpty then return false
  if !(← get).isAnalyzed then Buffer.analyze
  let forward ← Edit.query forwards
  let b ← get
  let atoms := b.atoms.map fun a => a.mapAddresses fun i => forward.getD i i
  let changed := b.atoms.any fun a =>
    [a.addresses.1, a.addresses.2].any fun i => forward.contains i
  if changed then set ({ b with atoms } : Buffer).invalidate
  return changed

end ShaderForge.Optimizer
