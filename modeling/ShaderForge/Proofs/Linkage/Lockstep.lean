import Mathlib.Algebra.GroupWithZero.Nat
import Mathlib.Algebra.Order.BigOperators.Group.List
import Mathlib.Algebra.Order.Group.Nat
import ShaderForge.Proofs.Linkage.CallOrder
import ShaderForge.Proofs.Linkage.Scannable

/-!
Linking two registries in step. Each function of the one has a counterpart in the other; where adding
a function and sorting keep two units related, linking does.
-/

namespace ShaderForge.Linkage

open Buffer

variable {r r' : Registry} {f f' : Function} {u u' v : Linkage}

/-! ### Enough steps -/

theorem values_eq_map_snd {α β : Type} [Ord α] [Std.TransOrd α] (t : Std.ExtTreeMap α β) :
    t.values = t.toList.map Prod.snd := by
  rcases t with ⟨⟨q⟩⟩
  induction q using Quotient.ind with
  | _ m =>
    change m.values = (Std.DTreeMap.Const.toList m).map Prod.snd
    unfold Std.DTreeMap.values Std.DTreeMap.Const.toList
    rw [Std.DTreeMap.Internal.Impl.values_eq_map_snd,
      Std.DTreeMap.Internal.Impl.Const.toList_eq_toListModel_map]
    simp

theorem mem_functions {id : FunctionId} (found : r.get? id = some f) : f ∈ r.functions := by
  unfold Registry.functions
  rw [values_eq_map_snd]
  exact List.mem_map.2 ⟨(id, f), Std.ExtTreeMap.mem_toList_iff_getElem?_eq_some.2 found, rfl⟩

theorem mem_functions_of_needed {ids : List FunctionId} {needed : List Function}
    (known : List.Forall₂ (fun id f => r.get? id = some f) ids needed) : ∀ g ∈ needed, g ∈ r.functions := by
  induction known with
  | nil => intro g member; cases member
  | cons first _ ih =>
    intro g member
    rcases List.mem_cons.1 member with rfl | later
    · exact mem_functions first
    · exact ih g later

/-- The atoms of the functions that are not linked yet. -/
def debt (r : Registry) (u : Linkage) : Nat :=
  ((r.functions.filter fun f => !u.contains f.id).map (·.buffer.size)).sum

theorem debt_le_addBound (r : Registry) (u : Linkage) : 1 + debt r u ≤ addBound r := by
  unfold debt addBound
  have shorter := (List.filter_sublist (l := r.functions) (p := fun f => !u.contains f.id)).map
    (·.buffer.size)
  have := shorter.sum_le_sum (by simp)
  rw [List.sum_eq_foldr (l := r.functions.map _), List.foldr_map] at this
  omega

/-- An addition asks for no more functions than the added one has atoms. -/
theorem debt_addOne {needed : List Function} (member : f ∈ r.functions)
    (fresh : u.contains f.id = false) (h : Succeeds (addOne r f) u needed v) :
    needed.length + debt r v ≤ debt r u ∧ ∀ g ∈ needed, g ∈ r.functions := by
  obtain ⟨g, callees, w, preparing, scanning, known, rfl⟩ := addOne_succeeds.1 h
  obtain ⟨prepared, id, _, atoms⟩ := Function.prepared_of_prepare preparing
  obtain ⟨functions, dependencies⟩ := scan_frame scanning
  have scannable := scannable_of_scan prepared scanning
  have few : needed.length ≤ f.buffer.size := by
    have calls := (scan_calls scanning).2
    have shown := shownAtoms_length scannable
    have listed : callees.toList.length = callees.size := Std.ExtTreeSet.length_toList
    have kept := List.length_filter_le (fun id => !w.contains id) callees.toList
    have length := known.length_eq
    have size : g.buffer.size = f.buffer.size := by
      unfold Buffer.size
      rw [atoms]
    omega
  have weaker : ∀ f : Function, (!(w.dependencies.insert g.id callees).contains f.id) = true →
      (!u.contains f.id) = true := by
    intro g' absent
    simp only [dependencies, Std.ExtTreeMap.contains_insert, Bool.not_or, Bool.and_eq_true] at absent
    exact absent.2
  have paid := sum_filter_add_le (·.buffer.size) member weaker (by simp [fresh]) (by simp [id])
  refine ⟨?_, mem_functions_of_needed known⟩
  simp only [debt, Linkage.contains] at paid ⊢
  omega

/-! ### Functions side by side -/

def Alike (S : Function → Function → Prop) : Prop := ∀ f f', S f f' → f'.id = f.id ∧ f'.name = f.name

/-- Units whose functions stand side by side and call each other alike. -/
structure Paired (S : Function → Function → Prop) (u u' : Linkage) : Prop where
  functions : List.Forall₂ S u.functions u'.functions
  dependencies : u'.dependencies = u.dependencies

namespace Paired

variable {S : Function → Function → Prop}

theorem contains (paired : Paired S u u') (id : FunctionId) : u'.contains id = u.contains id := by
  unfold Linkage.contains
  rw [paired.dependencies]

theorem function? (paired : Paired S u u') (alike : Alike S) (id : FunctionId) :
    Option.Rel S (u.function? id) (u'.function? id) := by
  have all : ∀ items others : List Function, List.Forall₂ S items others →
      Option.Rel S (items.find? (·.id == id)) (others.find? (·.id == id)) := by
    intro items others pairs
    induction pairs with
    | nil => exact .none
    | @cons f f' _ _ first _ ih =>
      rw [List.find?_cons, List.find?_cons, (alike f f' first).1]
      cases f.id == id with
      | true => exact .some first
      | false => exact ih
  exact all _ _ paired.functions

theorem function?_some (paired : Paired S u u') (alike : Alike S) {id : FunctionId}
    (found : u.function? id = some f) : ∃ f', u'.function? id = some f' ∧ S f f' := by
  have both := paired.function? alike id
  rw [found] at both
  cases found' : u'.function? id with
  | none => rw [found'] at both; cases both
  | some f' =>
    rw [found'] at both
    cases both with
    | some pair => exact ⟨f', rfl, pair⟩

theorem function?_none (paired : Paired S u u') (alike : Alike S) {id : FunctionId}
    (absent : u.function? id = none) : u'.function? id = none := by
  have both := paired.function? alike id
  rw [absent] at both
  cases found' : u'.function? id with
  | none => rfl
  | some f' => rw [found'] at both; cases both

theorem symbol? (paired : Paired S u u') (alike : Alike S) (id : FunctionId) :
    u'.symbol? id = u.symbol? id := by
  have names : ∀ items others : List Function, List.Forall₂ S items others → ∀ name : String,
      others.countP (·.name == name) = items.countP (·.name == name) := by
    intro items others pairs name
    induction pairs with
    | nil => rfl
    | @cons f f' _ _ first _ ih => rw [List.countP_cons, List.countP_cons, ih, (alike f f' first).2]
  unfold Linkage.symbol?
  cases found : u.function? id with
  | none =>
    rw [paired.function?_none alike found]
    rfl
  | some f =>
    obtain ⟨f', found', pair⟩ := paired.function?_some alike found
    rw [found']
    simp only [bind, Option.bind, names _ _ paired.functions, (alike f f' pair).2]

theorem any_symbol? (paired : Paired S u u') (alike : Alike S) (symbol : String) :
    (u'.functions.any fun f => u'.symbol? f.id == some symbol) = u.functions.any fun f => u.symbol? f.id == some symbol := by
  have same : ∀ items others : List Function, List.Forall₂ S items others →
      (others.any fun f => u'.symbol? f.id == some symbol) = items.any fun f => u.symbol? f.id == some symbol := by
    intro items others pairs
    induction pairs with
    | nil => rfl
    | @cons f f' _ _ first _ ih =>
      rw [List.any_cons, List.any_cons, ih, paired.symbol? alike, (alike f f' first).1]
  exact same _ _ paired.functions

theorem filterMap (paired : Paired S u u') (alike : Alike S) (order : List FunctionId) :
    List.Forall₂ S (order.filterMap u.function?) (order.filterMap u'.function?) := by
  induction order with
  | nil => exact .nil
  | cons id rest ih =>
    cases found : u.function? id with
    | none =>
      rw [List.filterMap_cons_none found, List.filterMap_cons_none (paired.function?_none alike found)]
      exact ih
    | some f =>
      obtain ⟨f', found', pair⟩ := paired.function?_some alike found
      rw [List.filterMap_cons_some found, List.filterMap_cons_some found']
      exact .cons pair ih

theorem sort (paired : Paired S u u') (alike : Alike S) (h : Succeeds sort u ⟨⟩ v) :
    ∃ items others, v = { u with functions := items } ∧ List.Forall₂ S items others ∧
      Succeeds Linkage.sort u' ⟨⟩ { u' with functions := others } := by
  unfold Linkage.sort at h
  obtain ⟨_, _, read, h⟩ := Succeeds.bind_iff.1 h
  obtain ⟨rfl, rfl⟩ := Succeeds.of_get.1 read
  split at h
  · rename_i order found
    obtain rfl := Succeeds.of_set.1 h
    refine ⟨_, _, rfl, paired.filterMap alike order, ?_⟩
    refine Succeeds.bind_iff.2 ⟨u', u', Succeeds.of_get.2 ⟨rfl, rfl⟩, ?_⟩
    simp only [paired.dependencies, found]
    exact Succeeds.of_set.2 rfl
  · exact (Succeeds.of_throw h).elim

end Paired

/-! ### In step -/

/-- What two registries have to share for the same functions to be linked in the same order. -/
structure Lockstep (r r' : Registry) (S : Function → Function → Prop) (R : Linkage → Linkage → Prop) :
    Prop where
  registered : ∀ id, Option.Rel S (r.get? id) (r'.get? id)
  id : ∀ f f', S f f' → f'.id = f.id
  contains : ∀ u u', R u u' → ∀ id, u'.contains id = u.contains id
  addOne : ∀ f f' u u' needed v, S f f' → R u u' → u.contains f.id = false →
    Succeeds (addOne r f) u needed v → ∃ needed' v', Succeeds (Linkage.addOne r' f') u' needed' v' ∧
      List.Forall₂ S needed needed' ∧ R v v'
  sort : ∀ u u' v, R u u' → Succeeds sort u ⟨⟩ v → ∃ v', Succeeds Linkage.sort u' ⟨⟩ v' ∧ R v v'

theorem needed_counterparts {S : Function → Function → Prop}
    (registered : ∀ id, Option.Rel S (r.get? id) (r'.get? id)) {ids : List FunctionId} {needed : List Function}
    (known : List.Forall₂ (fun id f => r.get? id = some f) ids needed) :
    ∃ needed', List.Forall₂ (fun id f => r'.get? id = some f) ids needed' ∧ List.Forall₂ S needed needed' := by
  induction known with
  | nil => exact ⟨[], .nil, .nil⟩
  | @cons id f _ _ first _ ih =>
    obtain ⟨needed', known', paired⟩ := ih
    have both := registered id
    rw [first] at both
    cases found : r'.get? id with
    | none => rw [found] at both; cases both
    | some f' =>
      rw [found] at both
      cases both with
      | some pair => exact ⟨f' :: needed', .cons found known', .cons pair paired⟩

theorem registered_put {S : Function → Function → Prop} (known : r.get? f.id = some f) (same : f'.id = f.id)
    (pair : S f f') (others : ∀ g, g.id ≠ f.id → S g g) (id : FunctionId) :
    Option.Rel S (r.get? id) ((r.put f').get? id) := by
  have found : (r.put f').get? id = if f'.id = id then some f' else r.get? id := by
    unfold Registry.get? Registry.put
    simp [Std.ExtTreeMap.getElem?_insert]
  rw [found]
  split
  · rename_i here
    rw [same] at here
    rw [← here, known]
    exact .some pair
  · rename_i other
    cases there : r.get? id with
    | none => exact .none
    | some g =>
      refine .some (others g fun clash => other ?_)
      rw [same, ← clash]
      exact r.keyed id g there

theorem addPending_nil (r : Registry) (fuel : Nat) : addPending r fuel [] = pure false := by
  cases fuel <;> rfl

namespace Lockstep

variable {S : Function → Function → Prop} {R : Linkage → Linkage → Prop}

theorem addPending (step : Lockstep r r' S R) (related : R u u') {fuel fuel' : Nat}
    {pending pending' : List Function} (paired : List.Forall₂ S pending pending')
    (inside : ∀ f ∈ pending, f ∈ r.functions) (inside' : ∀ f ∈ pending', f ∈ r'.functions)
    (enough : pending.length + debt r u ≤ fuel) (enough' : pending'.length + debt r' u' ≤ fuel')
    {added : Bool} (h : Succeeds (addPending r fuel pending) u added v) :
    ∃ v', Succeeds (Linkage.addPending r' fuel' pending') u' added v' ∧ R v v' := by
  induction fuel generalizing fuel' pending pending' u u' added with
  | zero =>
    cases paired with
    | nil =>
      obtain ⟨rfl, rfl⟩ := Succeeds.of_pure.1 h
      exact ⟨u', by rw [addPending_nil]; exact Succeeds.of_pure.2 ⟨rfl, rfl⟩, related⟩
    | cons => simp at enough
  | succ fuel ih =>
    cases paired with
    | nil =>
      obtain ⟨rfl, rfl⟩ := Succeeds.of_pure.1 h
      exact ⟨u', by rw [addPending_nil]; exact Succeeds.of_pure.2 ⟨rfl, rfl⟩, related⟩
    | @cons f f' rest rest' pair later =>
      rw [List.length_cons] at enough enough'
      obtain ⟨fuel', rfl⟩ : ∃ m, fuel' = m + 1 := ⟨fuel' - 1, by omega⟩
      have tail := fun g member => inside g (List.mem_cons_of_mem _ member)
      have tail' := fun g member => inside' g (List.mem_cons_of_mem _ member)
      rw [Linkage.addPending] at h ⊢
      obtain ⟨_, _, read, h⟩ := Succeeds.bind_iff.1 h
      obtain ⟨rfl, rfl⟩ := Succeeds.of_get.1 read
      have same := step.contains _ _ related f.id
      simp only [Succeeds.bind_iff, Succeeds.of_get]
      split at h
      · rename_i known
        have left : rest'.length + debt r' u' ≤ fuel' := by omega
        obtain ⟨v', ran, related⟩ := ih related later tail tail' (by omega) left h
        refine ⟨v', ⟨u', u', ⟨rfl, rfl⟩, ?_⟩, related⟩
        rw [step.id f f' pair, same, if_pos known]
        exact ran
      · -- what an addition asks for is paid by the atoms of the added function, on both sides
        rename_i unknown
        have fresh : u.contains f.id = false := by simpa using unknown
        have fresh' : u'.contains f'.id = false := by rw [step.id f f' pair, same, fresh]
        obtain ⟨needed, w, one, h⟩ := Succeeds.bind_iff.1 h
        obtain ⟨_, _, others, h⟩ := Succeeds.bind_iff.1 h
        obtain ⟨rfl, rfl⟩ := Succeeds.of_pure.1 h
        obtain ⟨needed', w', one', paired, related'⟩ := step.addOne _ _ _ _ _ _ pair related fresh one
        obtain ⟨cost, members⟩ := debt_addOne (inside f List.mem_cons_self) fresh one
        obtain ⟨cost', members'⟩ := debt_addOne (inside' f' List.mem_cons_self) fresh' one'
        have left : (rest' ++ needed').length + debt r' w' ≤ fuel' := by
          rw [List.length_append]
          omega
        obtain ⟨v', ran, related⟩ := ih related' (List.rel_append later paired)
          (fun g member => (List.mem_append.1 member).elim (tail g) (members g))
          (fun g member => (List.mem_append.1 member).elim (tail' g) (members' g))
          (by rw [List.length_append]; omega) left others
        refine ⟨v', ⟨u', u', ⟨rfl, rfl⟩, ?_⟩, related⟩
        rw [fresh', if_neg (by simp)]
        exact Succeeds.bind_iff.2 ⟨needed', w', one', Succeeds.bind_iff.2 ⟨_, v', ran,
          Succeeds.of_pure.2 ⟨rfl, rfl⟩⟩⟩

theorem add (step : Lockstep r r' S R) (related : R u u') {id : FunctionId}
    (h : Succeeds (add r id) u ⟨⟩ v) : ∃ v', Succeeds (Linkage.add r' id) u' ⟨⟩ v' ∧ R v v' := by
  have both := step.registered id
  unfold Linkage.add at h ⊢
  cases found : r.get? id with
  | none =>
    rw [found] at h
    exact (Succeeds.of_throw h).elim
  | some f =>
    cases found' : r'.get? id with
    | none =>
      rw [found, found'] at both
      cases both
    | some f' =>
      rw [found, found'] at both
      cases both with
      | some pair =>
        simp only [found] at h
        obtain ⟨added, w, pending, h⟩ := Succeeds.bind_iff.1 h
        have inside : ∀ g ∈ [f], g ∈ r.functions := by
          intro g member
          rw [List.mem_singleton.1 member]
          exact mem_functions found
        have inside' : ∀ g ∈ [f'], g ∈ r'.functions := by
          intro g member
          rw [List.mem_singleton.1 member]
          exact mem_functions found'
        obtain ⟨w', pending', related⟩ := step.addPending related (.cons pair .nil) inside inside'
          (debt_le_addBound r u) (debt_le_addBound r' u') pending
        cases added with
        | false =>
          obtain ⟨_, rfl⟩ := Succeeds.of_pure.1 h
          exact ⟨w', Succeeds.bind_iff.2 ⟨_, w', pending', Succeeds.of_pure.2 ⟨rfl, rfl⟩⟩, related⟩
        | true =>
          obtain ⟨v', sorted, related⟩ := step.sort _ _ _ related h
          exact ⟨v', Succeeds.bind_iff.2 ⟨_, w', pending', sorted⟩, related⟩

theorem link (step : Lockstep r r' S R) (start : R {} {}) {entries : List FunctionId}
    (linked : link r entries = .ok u) : ∃ u', Linkage.link r' entries = .ok u' ∧ R u u' := by
  have all : ∀ (ids : List FunctionId) (w w' : Linkage), R w w' →
      Succeeds (ids.forM (Linkage.add r)) w ⟨⟩ u →
      ∃ u', Succeeds (ids.forM (Linkage.add r')) w' ⟨⟩ u' ∧ R u u' := by
    intro ids
    induction ids with
    | nil =>
      intro w w' related h
      obtain ⟨_, rfl⟩ := Succeeds.of_pure.1 h
      exact ⟨w', Succeeds.of_pure.2 ⟨rfl, rfl⟩, related⟩
    | cons id rest ih =>
      intro w w' related h
      rw [List.forM] at h
      obtain ⟨_, x, first, h⟩ := Succeeds.bind_iff.1 h
      obtain ⟨x', first', related⟩ := step.add related first
      obtain ⟨u', later, related⟩ := ih x x' related h
      exact ⟨u', Succeeds.bind_iff.2 ⟨⟨⟩, x', first', later⟩, related⟩
  obtain ⟨u', run, related⟩ := all entries {} {} start (link_ok_iff.1 linked)
  exact ⟨u', link_ok_iff.2 run, related⟩

end Lockstep

/-! ### Units side by side -/

/-- Two units whose functions stand side by side, one by one. -/
structure Abreast (S : Function → Function → Prop) (u u' : Linkage) : Prop extends Paired S u u' where
  coherent : Coherent u
  coherent' : Coherent u'

/-- What functions have to share for their units to stay side by side: once prepared, they are scanned alike. -/
structure Companions (T S : Function → Function → Prop) : Prop where
  id : ∀ f f', T f f' → f'.id = f.id
  prepare : ∀ f f' g, T f f' → Succeeds Function.prepare f () g → ∃ g', Succeeds Function.prepare f' () g' ∧ S g g'
  alike : Alike S
  scannable : ∀ g g', S g g' → g.Prepared → g'.Prepared → Scannable g → Scannable g'
  calls : ∀ g g' callees, S g g' → g.Prepared → g'.Prepared → Scannable g → Calls g callees → Calls g' callees

section

variable {T S : Function → Function → Prop}

theorem Abreast.addOne (abreast : Abreast S u u') (companions : Companions T S)
    (registered : ∀ id, Option.Rel T (r.get? id) (r'.get? id)) (pair : T f f') (fresh : u.contains f.id = false)
    {needed : List Function} (h : Succeeds (addOne r f) u needed v) :
    ∃ needed' v', Succeeds (Linkage.addOne r' f') u' needed' v' ∧ List.Forall₂ T needed needed' ∧ Abreast S v v' := by
  have coherent := abreast.coherent.addOne fresh h
  obtain ⟨g, callees, w, preparing, scanning, known, rfl⟩ := addOne_succeeds.1 h
  obtain ⟨g', preparing', same⟩ := companions.prepare f f' g pair preparing
  obtain ⟨prepared, _, _⟩ := Function.prepared_of_prepare preparing
  obtain ⟨prepared', _, _⟩ := Function.prepared_of_prepare preparing'
  have scannable := scannable_of_scan prepared scanning
  obtain ⟨callees', w', scanning'⟩ := scan_runs prepared'
    (companions.scannable g g' same prepared prepared' scannable) abreast.coherent'.layered
  have alike : callees' = callees := (scan_calls scanning').1.unique
    (companions.calls g g' callees same prepared prepared' scannable (scan_calls scanning).1)
  subst alike
  obtain ⟨functions, dependencies⟩ := scan_frame scanning
  obtain ⟨functions', dependencies'⟩ := scan_frame scanning'
  have contains : ∀ id, w'.contains id = w.contains id := by
    intro id
    unfold Linkage.contains
    rw [dependencies', dependencies, abreast.dependencies]
  obtain ⟨needed', known', pairs⟩ := needed_counterparts registered known
  have fresh' : u'.contains f'.id = false := by
    rw [companions.id f f' pair, abreast.contains]
    exact fresh
  have h' : Succeeds (Linkage.addOne r' f') u' needed' _ :=
    addOne_succeeds.2 ⟨g', callees', w', preparing', scanning', by simpa only [contains] using known', rfl⟩
  refine ⟨needed', _, h', pairs, ⟨?_, ?_⟩, coherent, abreast.coherent'.addOne fresh' h'⟩
  · simp only [functions, functions']
    exact List.rel_append abreast.functions (.cons same .nil)
  · simp only [dependencies, dependencies', abreast.dependencies, (companions.alike g g' same).1]

theorem Abreast.sort (abreast : Abreast S u u') (alike : Alike S) (h : Succeeds sort u ⟨⟩ v) :
    ∃ v', Succeeds Linkage.sort u' ⟨⟩ v' ∧ Abreast S v v' := by
  have coherent := abreast.coherent.sort h
  obtain ⟨items, others, rfl, functions, h'⟩ := abreast.toPaired.sort alike h
  exact ⟨_, h', ⟨functions, abreast.dependencies⟩, coherent, abreast.coherent'.sort h'⟩

theorem Companions.lockstep (companions : Companions T S)
    (registered : ∀ id, Option.Rel T (r.get? id) (r'.get? id)) : Lockstep r r' T (Abreast S) where
  registered := registered
  id := companions.id
  contains _ _ abreast := abreast.contains
  addOne _ _ _ _ _ _ pair abreast fresh h := abreast.addOne companions registered pair fresh h
  sort _ _ _ abreast h := abreast.sort companions.alike h

theorem Companions.link (companions : Companions T S) (registered : ∀ id, Option.Rel T (r.get? id) (r'.get? id))
    {entries : List FunctionId} (linked : link r entries = .ok u) :
    ∃ u', Linkage.link r' entries = .ok u' ∧ Abreast S u u' :=
  (companions.lockstep registered).link ⟨⟨.nil, rfl⟩, coherent_fresh, coherent_fresh⟩ linked

end

end ShaderForge.Linkage
