import Mathlib.Algebra.GroupWithZero.Nat
import Mathlib.Algebra.Order.BigOperators.Group.List
import Mathlib.Algebra.Order.Group.Nat
import Mathlib.Data.FinEnum
import Mathlib.Data.Fintype.EquivFin
import Mathlib.Logic.Relation
import ShaderForge.Proofs.Linkage.Placing

/-!
Placing the functions of a call graph. A function is placed when all it calls is, so the order
lists callees first; placing gets stuck just where a call leads out of the graph or back to where
it came from. What is reached from a function is what chains of calls lead to.
-/

namespace ShaderForge

/-- Orders in which whatever a function calls stands before it. -/
def CalleesFirst (calls : FunctionId → FunctionId → Prop) (order : List FunctionId) : Prop :=
  ∀ (before : List FunctionId) (id : FunctionId) (after : List FunctionId),
    order = before ++ id :: after → ∀ callee, calls id callee → callee ∈ before

theorem CalleesFirst.acyclic {calls : FunctionId → FunctionId → Prop} {order : List FunctionId}
    (first : CalleesFirst calls order) (listed : ∀ id callee, calls id callee → id ∈ order)
    (id : FunctionId) : ¬ Relation.TransGen calls id id := by
  -- Calls lead to the front of the order, so they never come back.
  have earlier : ∀ caller callee, calls caller callee → order.idxOf callee < order.idxOf caller := by
    intro caller callee call
    obtain ⟨before, after, split, absent⟩ := List.eq_append_cons_of_mem (listed caller callee call)
    have inside := first before caller after split callee call
    rw [split, List.idxOf_append_of_notMem absent, List.idxOf_cons_self, List.idxOf_append_of_mem inside]
    exact List.idxOf_lt_length_of_mem inside
  intro cycle
  have descends : ∀ other, Relation.TransGen calls id other → order.idxOf other < order.idxOf id := by
    intro other path
    induction path with
    | single call => exact earlier _ _ call
    | tail _ call ih => exact (earlier _ _ call).trans ih
  exact Nat.lt_irrefl _ (descends id cycle)

theorem sum_filter_add_le {α : Type} (cost : α → Nat) {items : List α} {P Q : α → Bool} {x : α}
    (member : x ∈ items) (weaker : ∀ y, Q y = true → P y = true) (before : P x = true)
    (after : Q x = false) :
    ((items.filter Q).map cost).sum + cost x ≤ ((items.filter P).map cost).sum := by
  induction items with
  | nil => cases member
  | cons y rest ih =>
    have monotone : ((rest.filter Q).map cost).sum ≤ ((rest.filter P).map cost).sum :=
      ((List.monotone_filter_right rest weaker).map _).sum_le_sum (by simp)
    rcases List.mem_cons.1 member with rfl | later
    · rw [List.filter_cons_of_pos before, List.filter_cons_of_neg (by simp [after]), List.map_cons,
        List.sum_cons]
      omega
    · have := ih later
      by_cases kept : Q y = true
      · rw [List.filter_cons_of_pos kept, List.filter_cons_of_pos (weaker y kept), List.map_cons,
          List.map_cons, List.sum_cons, List.sum_cons]
        omega
      · rw [List.filter_cons_of_neg kept]
        by_cases held : P y = true
        · rw [List.filter_cons_of_pos held, List.map_cons, List.sum_cons]
          omega
        · rw [List.filter_cons_of_neg held]
          exact this

namespace CallGraph

variable {g : CallGraph} {placed seen : FunctionSet} {id callee : FunctionId}

def Closed (g : CallGraph) : Prop := ∀ caller callee, g.Calls caller callee → callee ∈ g

def Acyclic (g : CallGraph) : Prop := ∀ id, ¬ Relation.TransGen g.Calls id id

theorem ext_calls {h : CallGraph} (members : ∀ id, id ∈ g ↔ id ∈ h)
    (calls : ∀ caller callee, g.Calls caller callee ↔ h.Calls caller callee) : g = h := by
  refine Std.ExtTreeMap.ext_getElem? fun id => ?_
  have members := members id
  rw [Std.ExtTreeMap.mem_iff_isSome_getElem?, Std.ExtTreeMap.mem_iff_isSome_getElem?] at members
  cases found : g[id]? with
  | none =>
    cases found' : h[id]? with
    | none => rfl
    | some callees =>
      rw [found, found'] at members
      simp at members
  | some callees =>
    cases found' : h[id]? with
    | none =>
      rw [found, found'] at members
      simp at members
    | some others =>
      refine congrArg some (Std.ExtTreeSet.ext_mem fun callee => ?_)
      have same := calls id callee
      simp only [Calls, found, found', Option.some.injEq, exists_eq_left'] at same
      exact same

theorem calls_insert {callees : FunctionSet} {caller : FunctionId} :
    CallGraph.Calls (g.insert id callees) caller callee ↔
      caller = id ∧ callee ∈ callees ∨ caller ≠ id ∧ g.Calls caller callee := by
  unfold Calls
  by_cases here : caller = id
  · simp [here]
  · have other : ¬ compare id caller = .eq := fun same => here (Std.LawfulEqCmp.eq_of_compare same).symm
    rw [Std.ExtTreeMap.getElem?_insert, if_neg other]
    simp [here]

theorem placeFrom_split {fuel : Nat} {before after : List FunctionId}
    (h : g.placeFrom fuel placed = before ++ id :: after) :
    id ∈ g ∧ id ∉ placed ∧ id ∉ before ∧
      ∀ callee, g.Calls id callee → callee ∈ placed ∨ callee ∈ before := by
  induction fuel generalizing placed before with
  | zero => simp [placeFrom] at h
  | succ fuel ih =>
    rw [placeFrom] at h
    split at h
    · rename_i next found
      obtain ⟨known, fresh, ready⟩ := ready?_some found
      cases before with
      | nil =>
        obtain ⟨rfl, _⟩ := List.cons_eq_cons.1 h
        exact ⟨known, fresh, List.not_mem_nil, fun callee call => Or.inl (ready callee call)⟩
      | cons first before =>
        -- What is placed for the rest is what was placed, or `first`, which now stands before.
        obtain ⟨rfl, later⟩ := List.cons_eq_cons.1 h
        obtain ⟨known, fresh, absent, ready⟩ := ih later
        rw [mem_insert_id, not_or] at fresh
        refine ⟨known, fresh.2, by simp [fresh.1, absent], fun callee call => ?_⟩
        rcases ready callee call with placed | member
        · rcases mem_insert_id.1 placed with rfl | placed
          · exact Or.inr List.mem_cons_self
          · exact Or.inl placed
        · exact Or.inr (List.mem_cons_of_mem _ member)
    · simp at h

/-- With steps to spare, what is not placed in the end waits for something else that is not. -/
theorem placeFrom_stuck {fuel : Nat} (spare : (g.placeFrom fuel placed).length < fuel) (known : id ∈ g)
    (waiting : id ∉ placed) (absent : id ∉ g.placeFrom fuel placed) :
    ∃ callee, g.Calls id callee ∧ callee ∉ placed ∧ callee ∉ g.placeFrom fuel placed := by
  induction fuel generalizing placed with
  | zero => exact absurd spare (Nat.not_lt_zero _)
  | succ fuel ih =>
    rw [placeFrom] at spare absent ⊢
    split at spare
    · rename_i next found
      simp only [found, List.mem_cons, not_or] at absent ⊢
      rw [List.length_cons] at spare
      have waiting : id ∉ placed.insert next := by
        rw [mem_insert_id, not_or]
        exact ⟨absent.1, waiting⟩
      obtain ⟨callee, call, fresh, later⟩ := ih (by omega) waiting absent.2
      rw [mem_insert_id, not_or] at fresh
      exact ⟨callee, call, fresh.2, fresh.1, later⟩
    · rename_i found
      obtain ⟨callee, call, fresh⟩ := ready?_none found known waiting
      exact ⟨callee, call, fresh, by simp⟩

theorem place_calleesFirst (g : CallGraph) : CalleesFirst g.Calls g.place := by
  intro before id after split callee call
  obtain ⟨_, _, _, ready⟩ := placeFrom_split split
  exact (ready callee call).resolve_left (by simp)

theorem placeFrom_nodup (g : CallGraph) (fuel : Nat) (placed : FunctionSet) :
    (g.placeFrom fuel placed).Nodup := by
  induction fuel generalizing placed with
  | zero => exact List.nodup_nil
  | succ fuel ih =>
    rw [placeFrom]
    split
    · rename_i next _
      refine List.nodup_cons.2 ⟨fun again => ?_, ih _⟩
      obtain ⟨before, after, split⟩ := List.append_of_mem again
      exact (placeFrom_split split).2.1 (mem_insert_id.2 (Or.inl rfl))
    · exact List.nodup_nil

theorem mem_of_mem_place (member : id ∈ g.place) : id ∈ g := by
  obtain ⟨before, after, split⟩ := List.append_of_mem member
  exact (placeFrom_split split).1

theorem place_subperm_keys (g : CallGraph) : g.place.Subperm g.keys :=
  (placeFrom_nodup g g.size ∅).subperm fun _ member => Std.ExtTreeMap.mem_keys.2 (mem_of_mem_place member)

theorem place_length_eq_iff (g : CallGraph) : g.place.length = g.size ↔ ∀ id ∈ g, id ∈ g.place := by
  rw [← Std.ExtTreeMap.length_keys]
  constructor
  · intro long id known
    exact ((place_subperm_keys g).perm_of_length_le long.ge).mem_iff.2 (Std.ExtTreeMap.mem_keys.2 known)
  · intro all
    have covered := (Std.ExtTreeMap.nodup_keys (t := g)).subperm
      fun id member => all id (Std.ExtTreeMap.mem_keys.1 member)
    exact Nat.le_antisymm (place_subperm_keys g).length_le covered.length_le

theorem Acyclic.wellFounded (acyclic : g.Acyclic) :
    WellFounded fun callee caller => g.Calls caller callee := by
  -- Numbers are finitely many, so a transitive relation without loops is well-founded.
  let Below (callee caller : FunctionId) : Prop := Relation.TransGen g.Calls caller callee
  have : IsTrans FunctionId Below := ⟨fun _ _ _ first second => second.trans first⟩
  have : Std.Irrefl Below := ⟨acyclic⟩
  exact Subrelation.wf .single (Finite.wellFounded_of_trans_of_irrefl Below)

/-- Where calls stay in the graph and never come back, everything is placed. -/
theorem place_complete (closed : g.Closed) (acyclic : g.Acyclic) : ∀ id ∈ g, id ∈ g.place := by
  intro id
  induction id using acyclic.wellFounded.induction with
  | _ id ih =>
    intro known
    by_cases long : g.place.length = g.size
    · exact (place_length_eq_iff g).1 long id known
    · have spare : g.place.length < g.size := by
        have := (place_subperm_keys g).length_le
        rw [Std.ExtTreeMap.length_keys] at this
        omega
      by_contra absent
      obtain ⟨callee, call, _, stuck⟩ := placeFrom_stuck spare known (by simp) absent
      -- It waits for something that it calls, and that is placed by induction along the calls.
      exact stuck (ih callee call (closed id callee call))

/-- Sorting succeeds just where calls stay in the graph and never come back. -/
theorem calleeFirst_ok_iff {order : List FunctionId} :
    g.calleeFirst = .ok order ↔ order = g.place ∧ g.Closed ∧ g.Acyclic := by
  have opened : g.calleeFirst = .ok order ↔ g.place.length = g.size ∧ g.place = order := by
    rw [calleeFirst_eq]
    split
    · rename_i long
      simp [long]
    · rename_i short
      simp [short]
  rw [opened, place_length_eq_iff, and_comm, eq_comm (a := order)]
  refine and_congr_right fun _ =>
    ⟨fun all => ⟨?_, ?_⟩, fun ⟨closed, acyclic⟩ => place_complete closed acyclic⟩
  · intro caller callee call
    obtain ⟨before, after, split⟩ := List.append_of_mem (all caller call.mem)
    have member := place_calleesFirst g before caller after split callee call
    exact mem_of_mem_place (split ▸ List.mem_append_left _ member)
  · exact (place_calleesFirst g).acyclic fun caller _ call => all caller call.mem

theorem calleeFirst_cases (g : CallGraph) :
    g.calleeFirst = .ok g.place ∧ g.Closed ∧ g.Acyclic ∨
      (∃ stuck, g.calleeFirst = .error stuck) ∧ ¬ (g.Closed ∧ g.Acyclic) := by
  cases sorted : g.calleeFirst with
  | ok order =>
    obtain ⟨rfl, good⟩ := calleeFirst_ok_iff.1 sorted
    exact Or.inl ⟨rfl, good⟩
  | error stuck =>
    refine Or.inr ⟨⟨stuck, rfl⟩, fun good => ?_⟩
    rw [calleeFirst_ok_iff.2 ⟨rfl, good⟩] at sorted
    cases sorted

/-! ### What a function reaches -/

theorem mem_callees_iff_calls : callee ∈ ((g[id]?).map (·.toList)).getD [] ↔ g.Calls id callee := by
  unfold Calls
  cases found : g[id]? with
  | none => simp
  | some callees => simp

/-- The calls of the functions that are not seen yet. -/
def unseen (g : CallGraph) (seen : FunctionSet) : Nat :=
  ((g.toList.filter fun (id, _) => !seen.contains id).map fun (_, callees) => callees.size).sum

theorem unseen_insert (new : id ∉ seen) :
    (((g[id]?).map (·.toList)).getD []).length + g.unseen (seen.insert id) ≤ g.unseen seen := by
  have weaker : ∀ item : FunctionId × FunctionSet, (!(seen.insert id).contains item.1) = true →
      (!seen.contains item.1) = true := by
    intro item absent
    simp only [Std.ExtTreeSet.contains_insert, Bool.not_or, Bool.and_eq_true] at absent
    exact absent.2
  cases found : g[id]? with
  | none =>
    have shorter := (List.monotone_filter_right g.toList weaker).map fun (_, callees) => callees.size
    have less := shorter.sum_le_sum (by simp)
    simpa [unseen] using less
  | some callees =>
    have entry := Std.ExtTreeMap.mem_toList_iff_getElem?_eq_some.2 found
    have counted : (!seen.contains id) = true := by
      rw [Bool.not_eq_true', ← Bool.not_eq_true, Std.ExtTreeSet.contains_iff_mem]
      exact new
    have paid := sum_filter_add_le (fun (_, callees) => callees.size) entry weaker counted (by simp)
    rw [Option.map_some, Option.getD_some, Std.ExtTreeSet.length_toList, Nat.add_comm]
    exact paid

theorem reachFrom_sound {fuel : Nat} {pending : List FunctionId} (member : id ∈ g.reachFrom fuel seen pending) :
    id ∈ seen ∨ ∃ start ∈ pending, Relation.ReflTransGen g.Calls start id := by
  fun_induction g.reachFrom fuel seen pending with
  | case1 | case2 => exact Or.inl member
  | case3 _ _ _ _ _ ih =>
    rcases ih member with old | ⟨start, waiting, path⟩
    · exact Or.inl old
    · exact Or.inr ⟨start, List.mem_cons_of_mem _ waiting, path⟩
  | case4 _ seen next rest _ ih =>
    rcases ih member with old | ⟨start, waiting, path⟩
    · rcases mem_insert_id.1 old with rfl | old
      · exact Or.inr ⟨id, List.mem_cons_self, .refl⟩
      · exact Or.inl old
    · rcases List.mem_append.1 waiting with called | waiting
      · exact Or.inr ⟨next, List.mem_cons_self, path.head (mem_callees_iff_calls.1 called)⟩
      · exact Or.inr ⟨start, List.mem_cons_of_mem _ waiting, path⟩

/-- With steps to spare, everything pending is reached, and with what is new, all that it calls. -/
theorem reachFrom_closed {fuel : Nat} {pending : List FunctionId}
    (enough : pending.length + g.unseen seen ≤ fuel) :
    (∀ other, other ∈ seen ∨ other ∈ pending → other ∈ g.reachFrom fuel seen pending) ∧
      ∀ caller ∈ g.reachFrom fuel seen pending, caller ∉ seen →
        ∀ callee, g.Calls caller callee → callee ∈ g.reachFrom fuel seen pending := by
  fun_induction g.reachFrom fuel seen pending with
  | case1 => exact ⟨fun other here => here.resolve_right List.not_mem_nil, fun _ here new => absurd here new⟩
  | case2 seen pending _ =>
    have none : pending = [] := List.length_eq_zero_iff.1 (by omega)
    subst none
    exact ⟨fun other here => here.resolve_right List.not_mem_nil, fun _ here new => absurd here new⟩
  | case3 fuel seen next rest old ih =>
    rw [List.length_cons] at enough
    obtain ⟨all, closed⟩ := ih (by omega)
    refine ⟨fun other here => all other ?_, closed⟩
    rcases here with here | here
    · exact Or.inl here
    · rcases List.mem_cons.1 here with rfl | later
      · exact Or.inl (Std.ExtTreeSet.contains_iff_mem.1 old)
      · exact Or.inr later
  | case4 fuel seen next rest new ih =>
    -- The callees that are put in front are paid from the share of the function just seen.
    have paid := unseen_insert (g := g) (by simpa using new : next ∉ seen)
    rw [List.length_cons] at enough
    obtain ⟨all, closed⟩ := ih (by rw [List.length_append]; omega)
    refine ⟨fun other here => all other ?_, fun caller here fresh callee call => ?_⟩
    · simp only [mem_insert_id, List.mem_append]
      rcases here with here | here
      · exact Or.inl (Or.inr here)
      · rcases List.mem_cons.1 here with rfl | later
        · exact Or.inl (Or.inl rfl)
        · exact Or.inr (Or.inr later)
    · by_cases self : caller = next
      · subst self
        exact all callee (Or.inr (List.mem_append_left _ (mem_callees_iff_calls.2 call)))
      · exact closed caller here (fun old => (mem_insert_id.1 old).elim self fresh) callee call

theorem mem_reach_iff {other : FunctionId} : other ∈ g.reach id ↔ Relation.ReflTransGen g.Calls id other := by
  constructor
  · intro member
    rcases reachFrom_sound member with none | ⟨start, here, path⟩
    · simp at none
    · exact List.mem_singleton.1 here ▸ path
  · intro path
    have enough : [id].length + g.unseen ∅ ≤ g.edges + 1 := by
      have total : g.unseen ∅ = g.edges := by simp [unseen, edges, List.sum_eq_foldr, List.foldr_map]
      rw [total, List.length_singleton]
      omega
    obtain ⟨all, closed⟩ := reachFrom_closed enough
    induction path with
    | refl => exact all id (Or.inr List.mem_cons_self)
    | tail _ call ih => exact closed _ ih (by simp) _ call

end CallGraph

end ShaderForge
