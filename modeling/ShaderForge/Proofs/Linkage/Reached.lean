import ShaderForge.Proofs.Linkage.Scan

/-!
Units reached by successful additions. Every function of such a unit is prepared and has its
map, and the aggregates that the map names stay what they were as more functions come.
-/

namespace ShaderForge.Linkage

open Buffer Aggregates

/-- A map that covers the visible structs of a function. -/
structure Mapped (f : Function) (aggregates : Array Aggregate) (map : TypeMap) : Prop where
  faithful : Faithful f { entries := aggregates, map }
  entered : ∀ i ∈ visibleAtoms f.buffer, Entered f map i

theorem Mapped.mono {f : Function} {aggregates wider : Array Aggregate} {map : TypeMap}
    (mapped : Mapped f aggregates map)
    (kept : ∀ (n : Nat) (a : Aggregate), aggregates[n]? = some a → wider[n]? = some a) :
    Mapped f wider map :=
  ⟨mapped.faithful.of_entries ⟨kept, fun _ _ h => h⟩ rfl, mapped.entered⟩

/-- A function of a unit, prepared and mapped. -/
structure Placed (u : Linkage) (f : Function) : Prop where
  prepared : f.Prepared
  mapped : ∃ map, u.typeMaps[f.id]? = some map ∧ Mapped f u.aggregates map

/-- What holds of a unit between additions. -/
structure Coherent (u : Linkage) : Prop where
  layered : Layered u.aggregates
  placed : ∀ f ∈ u.functions, Placed u f
  recorded : ∀ f ∈ u.functions, u.contains f.id

theorem coherent_fresh : Coherent {} := by
  refine ⟨?_, ?_, ?_⟩
  · intro n a found
    simp at found
  · intro f member
    cases member
  · intro f member
    cases member

def shownAtoms (f : Function) : List Index := (visibleAtoms f.buffer).toList

/-- The first half of a scan: the aggregates and calls of all visible atoms. -/
def scanAll (f : Function) : Linking (TypeMap × FunctionSet) :=
  (shownAtoms f).foldlM (fun (map, callees) i => scanAtom f map callees i)
    ((∅ : TypeMap), (∅ : FunctionSet))

def declareAtom (f : Function) (uses : GlobalSet) (i : Index) : Linking GlobalSet := do
  match ← ask (f.buffer.atom i) with
  | .qualifier underlying kind number =>
    match ← declare f i underlying kind number.toInt with
    | some g => return uses.insert g
    | none => return uses
  | _ => return uses

theorem declareAtom_confined (f : Function) (uses : GlobalSet) (i : Index) :
    Confined untouched Local (declareAtom f uses i) := by
  refine .of_bind (ask_confined _) fun a => ?_
  split
  · refine .of_bind (declare_confined _ _ _ _ _) fun named => ?_
    split <;> exact .of_pure _
  · exact .of_pure _

theorem scan_eq (f : Function) :
    scan f = (do
      let (map, callees) ← scanAll f
      modify fun u => { u with typeMaps := u.typeMaps.insert f.id map }
      let uses ← (shownAtoms f).foldlM (declareAtom f) (∅ : GlobalSet)
      modify fun u => { u with uses := u.uses.insert f.id uses }
      return callees) :=
  rfl

theorem scanned_start (f : Function) {u : Linkage} (layered : Layered u.aggregates) :
    Scanned f (shownAtoms f) u ∅ := by
  refine ⟨⟨?_, ?_⟩, layered, fun i member => Or.inl (Std.ExtTreeSet.mem_toList.2 member)⟩
  · intro i n found
    simp [scope] at found
  · intro i n found
    simp [scope] at found

theorem scanAll_sound {f : Function} {u v : Linkage} {map : TypeMap} {callees : FunctionSet}
    (prepared : f.Prepared) (layered : Layered u.aggregates)
    (h : Succeeds (scanAll f) u (map, callees) v) :
    Grown u v ∧ Layered v.aggregates ∧ Mapped f v.aggregates map := by
  have ascending : (shownAtoms f).Pairwise (· < ·) :=
    Std.ExtTreeSet.ordered_toList.imp Index.compare_eq_lt.1
  obtain ⟨done, grown⟩ := scanAtoms_sound prepared
    (fun i member => Std.ExtTreeSet.mem_toList.1 member) ascending (scanned_start f layered) h
  refine ⟨grown, done.layered, ⟨done.faithful.of_entries ⟨fun _ _ h => h, fun _ _ h => h⟩ rfl, ?_⟩⟩
  intro i visible
  rcases done.entered i visible with member | entered
  · cases member
  · exact entered

theorem scan_succeeds {f : Function} {u v : Linkage} {callees : FunctionSet}
    (prepared : f.Prepared) (layered : Layered u.aggregates) (h : Succeeds (scan f) u callees v) :
    ∃ map w, Grown u w ∧ Layered w.aggregates ∧ Mapped f w.aggregates map ∧
      Frame { w with typeMaps := w.typeMaps.insert f.id map } v := by
  rw [scan_eq] at h
  obtain ⟨⟨map, called⟩, w, scanned, h⟩ := Succeeds.bind_iff.1 h
  obtain ⟨_, _, stored, h⟩ := Succeeds.bind_iff.1 h
  obtain rfl := Succeeds.of_modify.1 stored
  obtain ⟨uses, w', declared, h⟩ := Succeeds.bind_iff.1 h
  obtain ⟨_, _, stored, h⟩ := Succeeds.bind_iff.1 h
  obtain rfl := Succeeds.of_modify.1 stored
  obtain ⟨_, rfl⟩ := Succeeds.of_pure.1 h
  have quiet := Quiet.of_confined (Confined.of_foldlM (declareAtom_confined f) (shownAtoms f) (∅ : GlobalSet))
  obtain ⟨grown, layered, mapped⟩ := scanAll_sound prepared layered scanned
  exact ⟨map, w, grown, layered, mapped, (quiet _ _ _ declared).trans ⟨rfl, rfl, rfl, rfl⟩⟩

def listed (u : Linkage) : List Function × CallGraph := (u.functions, u.dependencies)

/-- What the first half of a scan leaves of a unit: its functions with their calls, and the globals. -/
def outside (u : Linkage) :
    (List Function × CallGraph) × Globals × Std.ExtTreeMap FunctionId GlobalSet :=
  (listed u, u.globals, u.uses)

theorem registering_confined (f : Function) (head : Index) (map : TypeMap) :
    Confined outside Local (registering f head map) :=
  ⟨fun _ => rfl, fun _ => local_of_lift _⟩

theorem scanEffect_confined (f : Function) (callees : FunctionSet) (i : Index) (map : TypeMap) :
    Confined outside Local (scanEffect f callees i map) := by
  refine .of_bind (ask_confined _) fun a => ?_
  split
  · exact .of_pure _
  · simp only
    split
    · exact .of_bind .of_get fun _ => .of_bind (ask_confined _) fun _ =>
        .of_bind (.of_modify fun _ => rfl) fun _ => .of_bind (.of_modify fun _ => rfl) fun _ => .of_pure _
    · exact .of_pure _
  · exact .of_pure _

theorem scanAtom_confined (f : Function) (map : TypeMap) (callees : FunctionSet) (i : Index) :
    Confined outside Local (scanAtom f map callees i) := by
  rw [scanAtom_eq]
  refine .of_bind (ask_confined _) fun ty => ?_
  split
  · exact .of_bind (registering_confined _ _ _) fun _ => scanEffect_confined _ _ _ _
  · exact scanEffect_confined _ _ _ _

theorem scanAll_confined (f : Function) : Confined outside Local (scanAll f) :=
  .of_foldlM (fun _ _ => scanAtom_confined _ _ _ _) _ _

/-- A scan changes neither the functions nor the calls of the unit, whether it succeeds or not, and
finds no cycle. -/
theorem scan_confined (f : Function) : Confined listed Local (scan f) := by
  rw [scan_eq]
  refine .of_bind ((scanAll_confined f).comp Prod.fst) fun _ =>
    .of_bind (.of_modify fun _ => rfl) fun _ => .of_bind ?_ fun _ =>
      .of_bind (.of_modify fun _ => rfl) fun _ => .of_pure _
  have quiet := Confined.of_foldlM (declareAtom_confined f) (shownAtoms f) (∅ : GlobalSet)
  exact quiet.comp fun (functions, _, _, dependencies) => (functions, dependencies)

theorem scan_frame {f : Function} {u v : Linkage} {callees : FunctionSet}
    (h : Succeeds (scan f) u callees v) : v.functions = u.functions ∧ v.dependencies = u.dependencies := by
  have kept := (scan_confined f).keeps u
  rw [show outcome (scan f) u = (.ok callees, v) from h] at kept
  exact Prod.mk.inj kept

theorem missing_succeeds {r : Registry} {callees : List FunctionId} {u v : Linkage}
    {needed : List Function} :
    Succeeds (missing r callees) u needed v ↔ u = v ∧
      List.Forall₂ (fun id f => r.get? id = some f) (callees.filter fun id => !u.contains id) needed := by
  unfold missing
  rw [Succeeds.get_bind]
  refine Succeeds.mapM_iff fun id f v => ?_
  cases r.get? id with
  | none => exact ⟨fun thrown => (Succeeds.of_throw thrown).elim, fun ⟨_, known⟩ => by cases known⟩
  | some g => rw [Succeeds.of_pure, and_comm, Option.some.injEq]

theorem addOne_succeeds {r : Registry} {f : Function} {u v : Linkage} {needed : List Function} :
    Succeeds (addOne r f) u needed v ↔
      ∃ g callees w, Succeeds Function.prepare f () g ∧ Succeeds (scan g) u callees w ∧
        List.Forall₂ (fun id f => r.get? id = some f) (callees.toList.filter fun id => !w.contains id)
          needed ∧
        v = { w with
          notes := w.notes ++ [.linked g.name g.id callees.size]
          dependencies := w.dependencies.insert g.id callees
          functions := w.functions ++ [g] } := by
  constructor
  · intro h
    unfold addOne at h
    generalize prepared : Function.prepare.apply f = result at h
    obtain ⟨answer, g⟩ := result
    obtain ⟨_, _, asked, h⟩ := Succeeds.bind_iff.1 h
    obtain ⟨rfl, rfl⟩ := ask_succeeds.1 asked
    obtain ⟨callees, w, scanned, h⟩ := Succeeds.bind_iff.1 h
    obtain ⟨needed', w₁, asked, h⟩ := Succeeds.bind_iff.1 h
    obtain ⟨rfl, known⟩ := missing_succeeds.1 asked
    obtain ⟨_, w₂, noted, h⟩ := Succeeds.bind_iff.1 h
    obtain rfl := Succeeds.of_modify.1 noted
    obtain ⟨_, _, stored, h⟩ := Succeeds.bind_iff.1 h
    obtain rfl := Succeeds.of_modify.1 stored
    obtain ⟨rfl, rfl⟩ := Succeeds.of_pure.1 h
    exact ⟨g, callees, w, prepared, scanned, known, rfl⟩
  · rintro ⟨g, callees, w, prepared, scanned, known, rfl⟩
    have opened : Function.prepare.apply f = (.ok (), g) := prepared
    unfold addOne
    rw [opened]
    exact Succeeds.bind_iff.2 ⟨(), u, ask_succeeds.2 ⟨rfl, rfl⟩, Succeeds.bind_iff.2 ⟨callees, w, scanned,
      Succeeds.bind_iff.2 ⟨needed, w, missing_succeeds.2 ⟨rfl, known⟩, Succeeds.bind_iff.2 ⟨⟨⟩, _,
        Succeeds.of_modify.2 rfl, Succeeds.bind_iff.2 ⟨⟨⟩, _, Succeeds.of_modify.2 rfl,
          Succeeds.of_pure.2 ⟨rfl, rfl⟩⟩⟩⟩⟩⟩

theorem Coherent.addOne {r : Registry} {f : Function} {u v : Linkage} {needed : List Function}
    (coherent : Coherent u) (fresh : u.contains f.id = false)
    (h : Succeeds (addOne r f) u needed v) : Coherent v := by
  obtain ⟨g, callees, x, preparing, scanning, _, rfl⟩ := addOne_succeeds.1 h
  obtain ⟨prepared, same, _⟩ := Function.prepared_of_prepare preparing
  obtain ⟨map, y, grown, layered, mapped, whole⟩ :=
    scan_succeeds prepared coherent.layered scanning
  have aggregates : x.aggregates = y.aggregates := whole.aggregates
  have typeMaps : x.typeMaps = u.typeMaps.insert g.id map := by
    rw [whole.typeMaps, ← grown.typeMaps]
  have functions : x.functions = u.functions := whole.functions.trans grown.functions
  have dependencies : x.dependencies = u.dependencies := whole.dependencies.trans grown.dependencies
  refine ⟨?_, ?_, ?_⟩
  · show Layered x.aggregates
    rw [aggregates]
    exact layered
  · intro other member
    rcases List.mem_append.1 member with old | new
    · rw [functions] at old
      obtain ⟨ready, map', known, mapped'⟩ := coherent.placed other old
      have different : g.id ≠ other.id := by
        intro clash
        have recorded := coherent.recorded other old
        rw [← clash, same, fresh] at recorded
        cases recorded
      refine ⟨ready, map', ?_, ?_⟩
      · show x.typeMaps[other.id]? = _
        rw [typeMaps, Std.ExtTreeMap.getElem?_insert, if_neg (by simpa using different), known]
      · show Mapped other x.aggregates map'
        rw [aggregates]
        exact mapped'.mono grown.kept
    · rw [List.mem_singleton] at new
      subst new
      refine ⟨prepared, map, ?_, ?_⟩
      · show x.typeMaps[other.id]? = _
        rw [typeMaps, Std.ExtTreeMap.getElem?_insert_self]
      · show Mapped other x.aggregates map
        rw [aggregates]
        exact mapped
  · intro other member
    show (x.dependencies.insert g.id callees).contains other.id = true
    rw [Std.ExtTreeMap.contains_insert]
    rcases List.mem_append.1 member with old | new
    · rw [functions] at old
      have recorded := coherent.recorded other old
      unfold contains at recorded
      simp [dependencies, recorded]
    · rw [List.mem_singleton] at new
      subst new
      simp

theorem addPending_keeps {r : Registry} {P : Linkage → Prop}
    (one : ∀ f u needed v, P u → u.contains f.id = false → Succeeds (addOne r f) u needed v → P v)
    {fuel : Nat} {pending : List Function} {u v : Linkage} {added : Bool} (start : P u)
    (h : Succeeds (addPending r fuel pending) u added v) : P v := by
  induction fuel generalizing pending u added with
  | zero =>
    have stopped : addPending r 0 pending = pure false := by cases pending <;> rfl
    rw [stopped] at h
    obtain ⟨_, rfl⟩ := Succeeds.of_pure.1 h
    exact start
  | succ fuel ih =>
    cases pending with
    | nil =>
      obtain ⟨_, rfl⟩ := Succeeds.of_pure.1 h
      exact start
    | cons f rest =>
      rw [addPending] at h
      obtain ⟨_, _, read, h⟩ := Succeeds.bind_iff.1 h
      obtain ⟨rfl, rfl⟩ := Succeeds.of_get.1 read
      split at h
      · exact ih start h
      · rename_i fresh
        obtain ⟨needed, w, first, h⟩ := Succeeds.bind_iff.1 h
        obtain ⟨_, _, others, h⟩ := Succeeds.bind_iff.1 h
        obtain ⟨_, rfl⟩ := Succeeds.of_pure.1 h
        exact ih (one f u needed w start (by simpa using fresh) first) others

theorem function?_mem {u : Linkage} {id : FunctionId} {f : Function}
    (found : u.function? id = some f) : f ∈ u.functions :=
  List.mem_of_find?_eq_some found

/-- Sorting only leaves functions out and puts them in another order. -/
theorem sort_succeeds {u v : Linkage} (h : Succeeds sort u ⟨⟩ v) :
    ∃ functions, (∀ f ∈ functions, f ∈ u.functions) ∧ v = { u with functions } := by
  unfold sort at h
  obtain ⟨_, _, read, h⟩ := Succeeds.bind_iff.1 h
  obtain ⟨rfl, rfl⟩ := Succeeds.of_get.1 read
  split at h
  · rename_i order _
    refine ⟨order.filterMap u.function?, fun f member => ?_, (Succeeds.of_set.1 h).symm⟩
    obtain ⟨id, _, found⟩ := List.mem_filterMap.1 member
    exact function?_mem found
  · exact (Succeeds.of_throw h).elim

theorem Coherent.sort {u v : Linkage} (coherent : Coherent u) (h : Succeeds sort u ⟨⟩ v) :
    Coherent v := by
  obtain ⟨functions, subset, rfl⟩ := sort_succeeds h
  refine ⟨coherent.layered, fun f member => ?_, fun f member => coherent.recorded f (subset f member)⟩
  obtain ⟨prepared, mapped⟩ := coherent.placed f (subset f member)
  exact ⟨prepared, mapped⟩

def addFunction (r : Registry) (fuel : Nat) (f : Function) : Linking PUnit := do
  if ← Linkage.addPending r fuel [f] then Linkage.sort

/-- Units reached by successful additions. -/
inductive Reached (r : Registry) : Linkage → Prop
  | fresh : Reached r {}
  | add {u v : Linkage} {f : Function} {fuel : Nat} (before : Reached r u)
      (added : Succeeds (addFunction r fuel f) u ⟨⟩ v) : Reached r v

/-- What holds of a fresh unit and is kept by adding one function and by sorting holds of every unit. -/
theorem Reached.keeps {r : Registry} {P : Linkage → Prop} (fresh : P {})
    (one : ∀ f u needed v, P u → u.contains f.id = false → Succeeds (addOne r f) u needed v → P v)
    (sorted : ∀ u v, P u → Succeeds sort u ⟨⟩ v → P v) {u : Linkage} (reached : Reached r u) : P u := by
  induction reached with
  | fresh => exact fresh
  | add _ added ih =>
    unfold addFunction at added
    obtain ⟨new, w, pending, added⟩ := Succeeds.bind_iff.1 added
    have holds := addPending_keeps one ih pending
    split at added
    · exact sorted w _ holds added
    · obtain ⟨_, rfl⟩ := Succeeds.of_pure.1 added
      exact holds

theorem Reached.coherent {r : Registry} {u : Linkage} (reached : Reached r u) : Coherent u :=
  reached.keeps coherent_fresh (fun _ _ _ _ coherent new added => coherent.addOne new added)
    fun _ _ coherent sorted => coherent.sort sorted

theorem Reached.add_number {r : Registry} {u v : Linkage} {id : FunctionId} (before : Reached r u)
    (added : Succeeds (Linkage.add r id) u ⟨⟩ v) : Reached r v := by
  unfold Linkage.add at added
  split at added
  · exact (Succeeds.of_throw added).elim
  · exact .add before added

theorem link_ok_iff {r : Registry} {entries : List FunctionId} {u : Linkage} :
    link r entries = .ok u ↔ Succeeds (entries.forM (Linkage.add r)) {} ⟨⟩ u := by
  unfold Succeeds link
  rw [show (entries.forM (Linkage.add r)).apply {} = outcome (entries.forM (Linkage.add r)) {} from rfl]
  rcases outcome (entries.forM (Linkage.add r)) {} with ⟨answer, v⟩
  cases answer <;> simp

theorem Reached.of_link {r : Registry} {entries : List FunctionId} {u : Linkage}
    (linked : link r entries = .ok u) : Reached r u := by
  have all : ∀ (ids : List FunctionId) (v : Linkage), Reached r v →
      Succeeds (ids.forM (Linkage.add r)) v ⟨⟩ u → Reached r u := by
    intro ids
    induction ids with
    | nil =>
      intro v before h
      obtain ⟨_, rfl⟩ := Succeeds.of_pure.1 h
      exact before
    | cons id rest ih =>
      intro v before h
      rw [List.forM] at h
      obtain ⟨_, w, first, h⟩ := Succeeds.bind_iff.1 h
      exact ih w (before.add_number first) h
  exact all entries {} .fresh (link_ok_iff.1 linked)

end ShaderForge.Linkage
