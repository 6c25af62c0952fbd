import Mathlib.Data.List.Lex
import ShaderForge.Proofs.Linkage.CallOrder

/-!
What sorting answers. The order it gives is the least of all orders that list callees first; where
there is none, it names the functions from which calls lead out of the graph or into a loop.
-/

namespace ShaderForge.CallGraph

variable {g : CallGraph} {placed : FunctionSet} {id other : FunctionId}

/-! ### The least order -/

/-- Functions that can be placed in the order of a list, after those already placed. -/
def Follows (g : CallGraph) : FunctionSet → List FunctionId → Prop
  | _, [] => True
  | placed, id :: rest => g.Ready placed id ∧ g.Follows (placed.insert id) rest

theorem follows_of_calleesFirst {order before rest : List FunctionId} (first : CalleesFirst g.Calls order)
    (once : order.Nodup) (known : ∀ id ∈ order, id ∈ g) (split : order = before ++ rest)
    (same : ∀ id, id ∈ placed ↔ id ∈ before) : g.Follows placed rest := by
  induction rest generalizing before placed with
  | nil => trivial
  | cons id rest ih =>
    have fresh : id ∉ before := by
      rw [split] at once
      exact fun again => (List.nodup_append.1 once).2.2 id again id List.mem_cons_self rfl
    refine ⟨⟨known id (by simp [split]), fun old => fresh ((same id).1 old), fun callee call => ?_⟩, ?_⟩
    · exact (same callee).2 (first before id rest split callee call)
    · have split' : order = (before ++ [id]) ++ rest := by simp [split]
      refine ih split' fun other => ?_
      rw [mem_insert_id, same, List.mem_append, List.mem_singleton, or_comm]

/-- No order of all functions comes before the one that always takes the lowest. -/
theorem placeFrom_le {order : List FunctionId} (follows : g.Follows placed order)
    (all : ∀ id ∈ g, id ∉ placed → id ∈ order) (fuel : Nat) : g.placeFrom fuel placed ≤ order := by
  induction fuel generalizing placed order with
  | zero => exact List.nil_le _
  | succ fuel ih =>
    rw [placeFrom]
    split
    · rename_i id found
      obtain ⟨known, new, _⟩ := ready?_some found
      cases order with
      | nil => exact absurd (all id known new) List.not_mem_nil
      | cons head rest =>
        obtain ⟨ready, follows⟩ := follows
        rw [List.cons_le_cons_iff]
        -- The head is ready as well, so it is not below the lowest.
        rcases UInt32.lt_or_eq_of_le (ready?_le found ready) with below | rfl
        · exact Or.inl below
        · refine Or.inr ⟨rfl, ih follows fun other known waits => ?_⟩
          rw [mem_insert_id, not_or] at waits
          exact (List.mem_cons.1 (all other known waits.2)).resolve_left waits.1
    · exact List.nil_le _

theorem place_le {order : List FunctionId} (whole : order.Perm g.keys) (first : CalleesFirst g.Calls order) :
    g.place ≤ order := by
  have known : ∀ id, id ∈ order ↔ id ∈ g := fun id => by rw [whole.mem_iff, Std.ExtTreeMap.mem_keys]
  have once : order.Nodup := whole.nodup_iff.2 Std.ExtTreeMap.nodup_keys
  have follows : g.Follows ∅ order :=
    follows_of_calleesFirst first once (fun id => (known id).1) (List.nil_append order).symm (by simp)
  exact placeFrom_le follows (fun id member _ => (known id).2 member) g.size

/-! ### What cannot be placed -/

def Stuck (g : CallGraph) (id : FunctionId) : Prop :=
  ∃ other, Relation.ReflTransGen g.Calls id other ∧ (other ∉ g ∨ Relation.TransGen g.Calls other other)

theorem mem_place_of_reaches (member : id ∈ g.place) (path : Relation.ReflTransGen g.Calls id other) :
    other ∈ g.place := by
  induction path with
  | refl => exact member
  | tail _ call ih =>
    obtain ⟨before, after, split⟩ := List.append_of_mem ih
    have early := place_calleesFirst g before _ after split _ call
    rw [split]
    exact List.mem_append_left _ early

theorem not_loop_of_mem_place (member : id ∈ g.place) : ¬ Relation.TransGen g.Calls id id := by
  intro loop
  let Placed (caller callee : FunctionId) : Prop := caller ∈ g.place ∧ g.Calls caller callee
  have first : CalleesFirst Placed g.place := fun before caller after split callee call =>
    place_calleesFirst g before caller after split callee call.2
  have inside : ∀ other, Relation.TransGen g.Calls id other → Relation.TransGen Placed id other := by
    intro other path
    induction path with
    | single call => exact .single ⟨member, call⟩
    | tail path call ih => exact ih.tail ⟨mem_place_of_reaches member path.to_reflTransGen, call⟩
  exact first.acyclic (fun _ _ call => call.1) id (inside id loop)

theorem mem_place_of_not_stuck (free : ¬ g.Stuck id) : id ∈ g.place := by
  unfold Stuck at free
  push Not at free
  -- From here on there are no loops, so what calls lead to is well-founded.
  let Below (callee caller : FunctionId) : Prop :=
    Relation.ReflTransGen g.Calls id caller ∧ Relation.TransGen g.Calls caller callee
  have : IsTrans FunctionId Below := ⟨fun _ _ _ first second => ⟨second.1, second.2.trans first.2⟩⟩
  have : Std.Irrefl Below := ⟨fun other loop => (free other loop.1).2 loop.2⟩
  have founded : WellFounded Below := Finite.wellFounded_of_trans_of_irrefl Below
  have reached : ∀ other, Relation.ReflTransGen g.Calls id other → other ∈ g.place := by
    intro other
    induction other using founded.induction with
    | _ other ih =>
      intro path
      by_contra absent
      have known := (free other path).1
      have short : g.place.length < g.size := by
        have bound := (place_subperm_keys g).length_le
        rw [Std.ExtTreeMap.length_keys] at bound
        have missing := mt (place_length_eq_iff g).1 fun all => absent (all other known)
        omega
      obtain ⟨callee, call, _, stuck⟩ := placeFrom_stuck short known (by simp) absent
      exact stuck (ih callee ⟨path, .single call⟩ (path.tail call))
  exact reached id .refl

theorem mem_place_iff : id ∈ g.place ↔ ¬ g.Stuck id := by
  refine ⟨?_, mem_place_of_not_stuck⟩
  rintro member ⟨other, path, outside | loop⟩
  · exact outside (mem_of_mem_place (mem_place_of_reaches member path))
  · exact not_loop_of_mem_place (mem_place_of_reaches member path) loop

theorem calleeFirst_error {stuck : List FunctionId} (h : g.calleeFirst = .error stuck) :
    stuck = g.keys.filter fun id => !g.place.contains id := by
  rw [calleeFirst_eq] at h
  split at h
  · cases h
  · exact (Except.error.inj h).symm

/-- Sorting succeeds just where no call leads out of the graph or round in a loop, and then gives the
least order by number of those that list every function once and callees first. Otherwise it names,
by ascending number, the functions from which such a call can be reached. The counts that it lowers
are never zero. -/
theorem calleeFirst_least_or_stuck (g : CallGraph) :
    ((∃ order, g.calleeFirst = .ok order) ↔ g.Closed ∧ g.Acyclic) ∧
    (∀ order, g.calleeFirst = .ok order → order.Perm g.keys ∧ CalleesFirst g.Calls order ∧
      ∀ other : List FunctionId, other.Perm g.keys → CalleesFirst g.Calls other → order ≤ other) ∧
    (∀ stuck, g.calleeFirst = .error stuck →
      stuck.Pairwise (· < ·) ∧ ∀ id, id ∈ stuck ↔ id ∈ g ∧ g.Stuck id) ∧
    ∀ rounds id, (g.start.run g rounds).next? = some id →
      ∀ count ∈ ((g.start.run g rounds).put id).counts (g.callers id), ∃ n, count = some (n + 1) := by
  refine ⟨?_, ?_, ?_, Placement.counts_positive g⟩
  · simp only [calleeFirst_ok_iff, exists_and_right, exists_eq, true_and]
  · intro order sorted
    obtain ⟨rfl, closed, acyclic⟩ := calleeFirst_ok_iff.1 sorted
    have whole : g.place.Perm g.keys := by
      refine (place_subperm_keys g).perm_of_length_le ?_
      rw [Std.ExtTreeMap.length_keys]
      exact ((place_length_eq_iff g).2 (place_complete closed acyclic)).ge
    exact ⟨whole, place_calleesFirst g, fun _ => place_le⟩
  · intro stuck failed
    rw [calleeFirst_error failed]
    refine ⟨?_, fun id => ?_⟩
    · have ascending := Std.ExtTreeMap.ordered_keys (t := g)
      exact (ascending.imp fun below => Std.compare_eq_lt.1 below).filter _
    · simp only [List.mem_filter, Std.ExtTreeMap.mem_keys, Bool.not_eq_true', List.contains_eq_mem,
        decide_eq_false_iff_not, mem_place_iff, not_not]

end ShaderForge.CallGraph
