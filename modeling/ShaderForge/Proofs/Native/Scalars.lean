import ShaderForge.Native.Layout
import ShaderForge.Proofs.Linkage.Fold

/-!
Scalars of types in different units. Units number their aggregates as they come, but a struct
and the one it goes over to have the same scalars, field by field.
-/

namespace ShaderForge

theorem forall₂_of_mapM {α β γ δ : Type} {fold : α → β} {f : α → Option γ} {g : β → Option δ}
    {R : γ → δ → Prop} {items : List α} {results : List γ} {others : List δ}
    (first : items.mapM f = some results) (second : (items.map fold).mapM g = some others)
    (step : ∀ x ∈ items, ∀ y z, f x = some y → g (fold x) = some z → R y z) :
    List.Forall₂ R results others := by
  induction items generalizing results others with
  | nil =>
    cases first
    cases second
    exact .nil
  | cons x rest ih =>
    rw [List.map_cons] at second
    rw [List.mapM_cons] at first second
    obtain ⟨y, here, first⟩ := Option.bind_eq_some_iff.1 first
    obtain ⟨ys, later, first⟩ := Option.bind_eq_some_iff.1 first
    obtain ⟨z, here', second⟩ := Option.bind_eq_some_iff.1 second
    obtain ⟨zs, later', second⟩ := Option.bind_eq_some_iff.1 second
    cases first
    cases second
    exact .cons (step x List.mem_cons_self y z here here')
      (ih later later' fun x member => step x (List.mem_cons_of_mem _ member))

namespace Native

open Buffer Aggregates Linkage

theorem Layout.pack_scalars {scalars : List Prim} {l : Layout} (h : Layout.pack scalars = some l) :
    l.scalars = scalars := by
  obtain ⟨_, _, h⟩ := Option.bind_eq_some_iff.1 h
  obtain ⟨_, _, h⟩ := Option.bind_eq_some_iff.1 h
  cases h
  rfl

theorem Layout.ofScalars_ok_iff {scalars : List Prim} {l : Layout} :
    Layout.ofScalars scalars = .ok l ↔ Layout.pack scalars = some l := by
  unfold Layout.ofScalars
  cases Layout.pack scalars <;> simp

section

variable {u : Linkage}

theorem dataScalars_prim (u u' : Linkage) (depth depth' : Nat) (p : Prim) :
    dataScalars u depth (.prim p) = dataScalars u' depth' (.prim p) := by
  cases p <;> cases depth <;> cases depth' <;> rfl

/-- Aggregates contain earlier ones only, so any sufficient depth gives the same. -/
theorem dataScalars_depth (layered : Layered u.aggregates) (n depth depth' : Nat) (below : n < depth)
    (below' : n < depth') :
    dataScalars u depth (.aggregate n) = dataScalars u depth' (.aggregate n) := by
  induction n using Nat.strongRecOn generalizing depth depth' with
  | ind n ih =>
    obtain ⟨d, rfl⟩ : ∃ d, depth = d + 1 := ⟨depth - 1, by omega⟩
    obtain ⟨d', rfl⟩ : ∃ d', depth' = d' + 1 := ⟨depth' - 1, by omega⟩
    unfold dataScalars
    cases entry : u.aggregates[n]? with
    | none => rfl
    | some a =>
      have fields : a.key.types.mapM (dataScalars u d) = a.key.types.mapM (dataScalars u d') := by
        refine Except.mapM_congr (List.forall₂_same.2 ?_)
        intro ty member
        cases ty with
        | prim p => exact dataScalars_prim u u d d' p
        | aggregate m =>
          have earlier := layered n a entry m member
          exact ih m earlier d d' (by omega) (by omega)
      simp only [fields]

theorem scalarsOfData_aggregate (layered : Layered u.aggregates) {n : Nat} {a : Aggregate}
    (entry : u.aggregates[n]? = some a) :
    scalarsOfData u (.aggregate n) = (do return (← a.key.types.mapM (scalarsOfData u)).flatten) := by
  have inside := (Array.getElem?_eq_some_iff.1 entry).1
  unfold scalarsOfData
  rw [dataScalars, entry]
  have fields : a.key.types.mapM (dataScalars u u.aggregates.size) =
      a.key.types.mapM (dataScalars u (u.aggregates.size + 1)) := by
    refine Except.mapM_congr (List.forall₂_same.2 ?_)
    intro ty member
    cases ty with
    | prim p => exact dataScalars_prim u u _ _ p
    | aggregate m =>
      have earlier := layered n a entry m member
      exact dataScalars_depth layered m _ _ (by omega) (by omega)
  simp only [fields]

end

def SameFields (u u' : Linkage) (n n' : Nat) : Prop :=
  ∃ a a', u.aggregates[n]? = some a ∧ u'.aggregates[n']? = some a' ∧
    List.Forall₂ (fun d d' => scalarsOfData u d = scalarsOfData u' d') a.key.types a'.key.types

section

variable {u u' : Linkage} {n n' : Nat}

theorem SameFields.scalars (layered : Layered u.aggregates) (layered' : Layered u'.aggregates)
    (same : SameFields u u' n n') :
    scalarsOfData u (.aggregate n) = scalarsOfData u' (.aggregate n') := by
  obtain ⟨a, a', entry, entry', fields⟩ := same
  rw [scalarsOfData_aggregate layered entry, scalarsOfData_aggregate layered' entry',
    Except.mapM_congr fields]

theorem fieldSpan_eq {types types' : List LinkedData}
    (fields : List.Forall₂ (fun d d' => scalarsOfData u d = scalarsOfData u' d') types types')
    (start field : Nat) : fieldSpan u start types field = fieldSpan u' start types' field := by
  induction fields generalizing start field with
  | nil => cases field <;> rfl
  | cons first _ ih =>
    unfold fieldSpan
    rw [first]
    cases field with
    | zero => rfl
    | succ field => simp only [ih]

theorem SameFields.range (same : SameFields u u' n n') {field : Nat} {range : Nat × Nat}
    (h : fieldRange u n field = .ok range) : fieldRange u' n' field = .ok range := by
  obtain ⟨a, a', entry, entry', fields⟩ := same
  unfold fieldRange at h ⊢
  rw [entry] at h
  rw [entry']
  simp only [fieldSpan_eq fields] at h ⊢
  obtain ⟨found, span, h⟩ := Except.bind_ok h
  rw [span]
  cases found with
  | none => cases h
  | some range' => exact h

end

/-! ### Structs of functions side by side -/

/-- Atoms of one function that have the types, and the structs in them, of atoms of another. -/
structure Corresponds (f g : Function) (via : Index → Index) (P : Index → Prop) : Prop where
  types : ∀ i ty, P i → f.buffer.table i = some ty → g.buffer.table (via i) = some (ty.rename via)
  head : ∀ n ty head, P (.ref n) → f.buffer.table (.ref n) = some ty → ty.struct? = some head →
    ∃ k, head = .ref k ∧ k < n ∧ P head
  chain : ∀ head nodes, P head → f.buffer.fieldChain head = .ok nodes →
    g.buffer.fieldChain (via head) = .ok (nodes.map via) ∧ ∀ node ∈ nodes, P node

theorem corresponds_of_folds {f g : Function} {fold : Index → Index} (typed : f.buffer.Typed)
    (backward : f.buffer.Backward) (folds : f.FoldsTo g fold) : Corresponds f g fold (Kept fold) where
  types := folds.types
  head n ty head kept found carried := by
    obtain ⟨k, place, below, inner, _⟩ := typed.struct_head backward folds.folds.closed n kept found carried
    exact ⟨k, place, below, inner⟩
  chain head nodes kept chain := ⟨folds.folds.fieldChain kept chain, folds.folds.closed.fields chain kept⟩

section

variable {u u' : Linkage} {f g : Function} {via : Index → Index} {P : Index → Prop} {map map' : TypeMap}

/-- What an entry of the map stands for goes over to what the corresponding entry stands for. -/
theorem sameFields_of_entries (layered : Layered u.aggregates) (layered' : Layered u'.aggregates)
    (faithful : Faithful f { entries := u.aggregates, map })
    (faithful' : Faithful g { entries := u'.aggregates, map := map' })
    (typed : f.buffer.Typed) (same : Corresponds f g via P) (k : Nat)
    (inside : P (.ref k)) {n n' : Nat} (entry : map[Index.ref k]? = some n)
    (entry' : map'[via (.ref k)]? = some n') : SameFields u u' n n' := by
  induction k using Nat.strongRecOn generalizing n n' with
  | ind k ih =>
    rcases faithful.settled _ _ entry with ⟨ty, head, found, carried, held⟩ |
      ⟨plain, nodes, types, a, chain, fields, stored, key⟩
    · have found' := same.types _ ty inside found
      have carried' : (ty.rename via).struct? = some (via head) := by
        rw [Ty.struct?_rename, carried]
        rfl
      obtain ⟨m, rfl, below, inner⟩ := same.head k ty head inside found carried
      rcases faithful'.settled _ _ entry' with ⟨ty', head', known, carries, held'⟩ | ⟨plain, _⟩
      · rw [found', Option.some.injEq] at known
        rw [← known, carried', Option.some.injEq] at carries
        subst carries
        exact ih m below inner held held'
      · rw [plain _ found'] at carried'
        cases carried'
    · have present : k < f.buffer.types.size := by
        obtain ⟨run, nonempty⟩ := fieldChain_ok_iff.1 chain
        obtain ⟨j, _, _, _, place, node, _⟩ :=
          run.mem_link (.ref k) (List.mem_of_mem_head? (run.head?_eq nonempty))
        cases place
        rw [typed.complete]
        exact (Array.getElem?_eq_some_iff.1 node).1
      have found : f.buffer.table (.ref k) = some f.buffer.types[k] := Array.getElem?_eq_getElem present
      have found' := same.types _ _ inside found
      rcases faithful'.settled _ _ entry' with ⟨ty', head', known, carries, _⟩ |
        ⟨_, nodes', types', a', chain', fields', stored', key'⟩
      · rw [found', Option.some.injEq] at known
        rw [← known, Ty.struct?_rename, plain _ found] at carries
        cases carries
      · obtain ⟨image, each⟩ := same.chain _ _ inside chain
        rw [image, Except.ok.injEq] at chain'
        subst chain'
        refine ⟨a, a', stored, stored', ?_⟩
        rw [key, key']
        have links := (fieldChain_ok_iff.1 chain).1.mem_link
        -- node by node: a primitive stays, a nested struct starts before its node
        have step : ∀ node ∈ nodes, ∀ d d', fieldType? f map node = some d →
            fieldType? g map' (via node) = some d' → scalarsOfData u d = scalarsOfData u' d' := by
          intro node member d d' first second
          have linked := each node member
          obtain ⟨j, _, _, _, rfl, _, order⟩ := links node member
          rw [Index.ref_le_ref] at order
          unfold fieldType? at first second
          cases known : f.buffer.table (.ref j) with
          | none => rw [known] at first; cases first
          | some ty =>
            rw [same.types _ ty linked known] at second
            rw [known] at first
            simp only [Option.bind_some, Ty.data?_rename] at first second
            cases shape : ty.data? with
            | none => rw [shape] at first; cases first
            | some base =>
              rw [shape] at first second
              cases base with
              | prim p =>
                cases first
                cases second
                exact dataScalars_prim u u' _ _ p
              | struct head =>
                obtain ⟨m, held, rfl⟩ := Option.map_eq_some_iff.1 first
                obtain ⟨m', held', rfl⟩ := Option.map_eq_some_iff.1 second
                obtain ⟨h, rfl, below, inner⟩ := same.head j ty head linked known (Ty.struct?_of_data? shape)
                exact (ih h (by omega) inner held held').scalars layered layered'
        exact forall₂_of_mapM fields fields' step

/-- A struct of one function is registered as its counterpart is, with the same scalars. -/
theorem structs_of_placed (layered : Layered u.aggregates) (layered' : Layered u'.aggregates) (placed : Placed u f)
    (placed' : Placed u' g) (typed : f.buffer.Typed) (typed' : g.buffer.Typed) (same : Corresponds f g via P) {k j : Nat}
    {ty : Ty} {head : Index} (inside : P (.ref k)) (shown : .ref k ∈ visibleAtoms f.buffer)
    (place : via (.ref k) = .ref j) (shown' : .ref j ∈ visibleAtoms g.buffer)
    (found : f.buffer.table (.ref k) = some ty) (carried : ty.struct? = some head) :
    ∃ n n', u.aggregateIndex f.id head = .ok n ∧ u'.aggregateIndex g.id (via head) = .ok n' ∧ SameFields u u' n n' ∧
      scalarsOfData u (.aggregate n) = scalarsOfData u' (.aggregate n') := by
  obtain ⟨prepared, map, known, mapped⟩ := placed
  obtain ⟨prepared', map', known', mapped'⟩ := placed'
  have found' := same.types _ ty inside found
  rw [place] at found'
  have carried' : (ty.rename via).struct? = some (via head) := by
    rw [Ty.struct?_rename, carried]
    rfl
  obtain ⟨m, rfl, _, inner⟩ := same.head k ty head inside found carried
  obtain ⟨_, n, _, _, _, _, _, _, held⟩ := mapped.known typed prepared.backward shown found carried
  obtain ⟨_, n', _, _, _, _, _, _, held'⟩ := mapped'.known typed' prepared'.backward shown' found' carried'
  have fields := sameFields_of_entries layered layered' mapped.faithful mapped'.faithful typed same m inner held held'
  exact ⟨n, n', (aggregateIndex_ok_iff known).2 held, (aggregateIndex_ok_iff known').2 held', fields,
    fields.scalars layered layered'⟩

end

end Native

end ShaderForge
