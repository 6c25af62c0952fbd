import ShaderForge.Proofs.Buffer.Results
import ShaderForge.Proofs.Linkage.Records
import ShaderForge.Proofs.Linkage.Restated
import ShaderForge.Proofs.Liveness.Storing
import ShaderForge.Proofs.Native.Transfer
import ShaderForge.Proofs.Optimizer.ElisionTypes

/-!
Functions some of whose reads are diverted to values of the same types. They are prepared whenever the
function is, with the same types and signature.
-/

namespace ShaderForge.Optimizer

open Buffer

variable {b c : Buffer} {via : Index → Index} {name : String}

/-- A typed buffer and another, where reads are diverted to values of the same types. -/
structure Diverting (b c : Buffer) (via : Index → Index) : Prop where
  diverts : Diverts b via
  atoms : ∀ n : Nat, c.atoms[n]? = (b.atoms[n]?).map (·.mapAddresses via)
  types : ∀ i, c.table i = b.table i
  same : ∀ i, b.table (via i) = b.table i
  synthesized : c.synthesized = b.synthesized
  typed : b.Typed
  typed' : c.Typed
  backward : c.Backward

namespace Diverting

variable (diverting : Diverting b c via)

include diverting

theorem typeOf {i : Index} {ty : Ty} : c.typeOf i = .ok ty ↔ b.typeOf i = .ok ty := by
  rw [diverting.typed'.typeOf_ok_iff, diverting.typed.typeOf_ok_iff, diverting.types]

theorem typeOf_via {i : Index} {ty : Ty} : c.typeOf (via i) = .ok ty ↔ b.typeOf i = .ok ty := by
  rw [diverting.typed'.typeOf_ok_iff, diverting.typed.typeOf_ok_iff, diverting.types, diverting.same]

theorem whole : c.atoms = b.atoms.map (·.mapAddresses via) :=
  Array.ext_getElem? fun n => by rw [diverting.atoms, Array.getElem?_map]

theorem size : c.size = b.size := by
  rw [Buffer.size, Buffer.size, diverting.whole, Array.size_map]

theorem isNull (i : Index) : (via i).isNull = i.isNull := diverting.diverts.isNull_eq diverting.typed diverting.same i

theorem image {n : Nat} {a : Atom} (found : b.atoms[n]? = some a) : c.atoms[n]? = some (a.mapAddresses via) := by
  rw [diverting.atoms, found]
  rfl

theorem source {n : Nat} {a' : Atom} (found : c.atoms[n]? = some a') :
    ∃ a, b.atoms[n]? = some a ∧ a' = a.mapAddresses via := by
  rw [diverting.atoms] at found
  obtain ⟨a, there, same⟩ := Option.map_eq_some_iff.1 found
  exact ⟨a, there, same.symm⟩

/-! ### Marks -/

theorem isRoot {i : Index} {a : Atom} {live : Bool} :
    Liveness.isRoot c i (a.mapAddresses via) = .ok live ↔ Liveness.isRoot b i a = .ok live := by
  have captured : c.isSynthesized i = b.isSynthesized i := by
    rw [isSynthesized, isSynthesized, diverting.synthesized]
  unfold Liveness.isRoot
  rw [captured]
  split
  · exact Iff.rfl
  · cases a with
    | construct ty args mode =>
      unfold Liveness.isAnchored
      constructor
      · intro h
        obtain ⟨own, known, h⟩ := Except.bind_ok h
        rw [diverting.typeOf.1 known, Except.ok_bind]
        exact h
      · intro h
        obtain ⟨own, known, h⟩ := Except.bind_ok h
        simp only [Atom.mapAddresses]
        rw [diverting.typeOf.2 known, Except.ok_bind]
        exact h
    | qualifier underlying kind number => cases kind <;> exact Iff.rfl
    | _ => exact Iff.rfl

theorem exists_storage_of_moved {n : Nat} (moved : via (.ref n) ≠ .ref n) :
    ∃ k, StorageRun c.atoms (via (.ref n)) k := by
  obtain ⟨m, a, same, found, reads⟩ := diverting.diverts.reads _ moved
  cases same
  have inside := (Array.getElem?_eq_some_iff.1 found).1
  obtain ⟨ty, known⟩ := Liveness.exists_entry diverting.typed found
  have value := read_not_nil diverting.typed found reads
  obtain ⟨k, place⟩ := Index.eq_ref_of_isNull_false (diverting.isNull (.ref n))
  have early : k ≤ n := by
    have := diverting.diverts.lower (.ref n)
    rwa [place, Index.ref_le_ref] at this
  have known' : c.table (.ref k) = some ty := by
    rw [diverting.types, ← place, diverting.same, known]
  rw [place]
  refine Liveness.exists_storageRun diverting.typed' diverting.backward
    (diverting.image (Array.getElem?_eq_getElem (Nat.lt_of_le_of_lt early inside))) known' ?_
  rintro rfl
  exact value known

theorem exists_storage {i j : Index} (run : StorageRun b.atoms i j) : ∃ k, c.storage (via i) = .ok k := by
  have all : ∃ k, StorageRun c.atoms (via i) k := by
    induction run with
    | @here n a found own =>
      have fixed : via (.ref n) = .ref n := diverting.diverts.fixed found (by cases a <;> first | rfl | cases own)
      rw [fixed]
      exact ⟨_, .here (diverting.image found) (by rw [Atom.through?_mapAddresses, own]; rfl)⟩
    | @step n a src j found read _ ih =>
      by_cases moved : via (.ref n) = .ref n
      · obtain ⟨k, rest⟩ := ih
        rw [moved]
        exact ⟨k, .step (diverting.image found) (by rw [Atom.through?_mapAddresses, read]; rfl) rest⟩
      · exact diverting.exists_storage_of_moved moved
  obtain ⟨k, run⟩ := all
  exact ⟨k, (storage_ok_iff diverting.backward).2 run⟩

theorem exists_mark {marked : IndexSet} (live : Liveness.mark b = .ok marked) : ∃ marked', Liveness.mark c = .ok marked' := by
  have marks := Liveness.marks_of_mark live
  refine Liveness.exists_mark diverting.typed' diverting.backward fun n dst' src' found => ?_
  obtain ⟨a, there, same⟩ := diverting.source found
  cases a with
  | store dst src =>
    cases same
    have due : Liveness.Due b (.forceStorage dst) :=
      .force (.root there (Liveness.isRoot_of_effect rfl)) there List.mem_cons_self
    obtain ⟨j, stored⟩ := marks.answers _ due
    exact diverting.exists_storage (storageRun_of_storageFrom stored)
  | _ => cases same

/-! ### Signatures -/

theorem indexed : c.indexed = b.indexed.map fun p => (p.1, p.2.mapAddresses via) := by
  unfold Buffer.indexed
  rw [diverting.whole]
  simp [List.zipIdx_map]

theorem parametersOf : Function.parametersOf c = Function.parametersOf b := by
  unfold Function.parametersOf
  simp only [diverting.indexed, List.filterMap_map]
  congr 1
  refine List.filterMap_congr ?_
  rintro ⟨i, a⟩ _
  cases a with
  | qualifier underlying kind number => cases kind <;> rfl
  | _ => rfl

theorem argumentTypes {parameters : List (Index × Nat)} {expected : Nat} {args : List Ty}
    (h : Function.argumentTypes name b expected parameters = .ok args) :
    Function.argumentTypes name c expected parameters = .ok args := by
  induction parameters generalizing expected args with
  | nil => exact h
  | cons p rest ih =>
    obtain ⟨i, position⟩ := p
    unfold Function.argumentTypes at h ⊢
    split at h
    · cases h
    · rename_i placed
      obtain ⟨own, known, h⟩ := Except.bind_ok h
      obtain ⟨later, others, h⟩ := Except.bind_ok h
      rw [if_neg placed, diverting.typeOf.2 known, Except.ok_bind, ih others]
      exact h

theorem returnType {items : List (Index × Atom)} {known result : Option Ty}
    (h : Function.returnType name b known items = .ok result) :
    Function.returnType name c known (items.map fun p => (p.1, p.2.mapAddresses via)) = .ok result := by
  induction items generalizing known with
  | nil => exact h
  | cons p rest ih =>
    obtain ⟨i, a⟩ := p
    rw [List.map_cons]
    cases a with
    | ret value =>
      unfold Function.returnType at h ⊢
      obtain ⟨own, answer, h⟩ := Except.bind_ok h
      simp only [Atom.mapAddresses, diverting.typeOf_via.2 answer, Except.ok_bind]
      cases known with
      | none => exact ih h
      | some previous =>
        simp only at h ⊢
        split at h
        · cases h
        · rename_i same
          rw [if_neg same]
          exact ih h
    | _ =>
      unfold Function.returnType at h ⊢
      exact ih h

end Diverting

/-! ### Preparation -/

variable {f g : Function}

theorem mark_of_prepared (prepared : f.Prepared) (nonempty : f.buffer.size ≠ 0) :
    Liveness.mark f.buffer = .ok f.buffer.marked := by
  obtain ⟨raw, made⟩ := prepared.made
  have atoms := (Function.prepared_of_prepare made).2.2.2
  have typed := prepared.typed nonempty
  rw [Buffer.size, atoms] at nonempty
  obtain ⟨_, types, hints, marked, _, _, analyzed, live, _, _, rfl⟩ := (Function.prepare_succeeds nonempty).1 made
  have equal := Liveness.mark_congr (typed_of_analyze analyzed rfl rfl) typed (b := raw.buffer.withAnalysis types hints)
    (c := { raw.buffer.withAnalysis types hints with marked }) rfl rfl rfl
  rw [live] at equal
  exact Except.toOption_eq_some_iff.1 equal.symm

/-- A buffer whose reads are diverted to values of the same types can be analyzed, with the types it had. -/
theorem exists_diverting (typed : b.Typed) (backward : b.Backward)
    (same : ∀ i ty, b.typeOf i = .ok ty → b.typeOf (replacement b i) = .ok ty)
    (atoms : c.atoms = (diverted b (replacement b)).atoms) (synthesized : c.synthesized = b.synthesized) :
    ∃ types hints, Typing.analyze c = .ok (types, hints) ∧
      ∀ marked, Diverting b { c.withAnalysis types hints with marked } (replacement b) := by
  have diverts := replacement_diverts backward
  obtain ⟨_, retyped, kept⟩ := (keepsTypes_iff typed backward atoms).2 fun n a found =>
    substitutedType?_of_same typed backward same found
  obtain ⟨types, hints, analyzed, rfl⟩ := analyze_succeeds.1 retyped
  have typed' : (c.withAnalysis types hints).Typed := typed_of_analyze analyzed rfl rfl
  refine ⟨types, hints, analyzed, fun marked => ?_⟩
  exact {
    diverts, synthesized, typed
    atoms := fun n => by
      change c.atoms[n]? = _
      rw [atoms, diverted_getElem?]
    types := fun i => Option.ext fun ty => by
      change (c.withAnalysis types hints).table i = some ty ↔ _
      rw [← typed'.typeOf_ok_iff, kept, typed.typeOf_ok_iff]
    same := diverts.table_eq typed same
    typed' := typed_of_analyze analyzed rfl rfl
    backward := (diverts.backward backward).of_atoms_eq atoms.symm }

/-- A function with reads diverted is prepared whenever the function is, with the same signature. -/
theorem prepare_elided (made : Succeeds Function.prepare f () g)
    (nonempty : f.buffer.size ≠ 0)
    (same : ∀ i ty, g.buffer.typeOf i = .ok ty → g.buffer.typeOf (replacement g.buffer i) = .ok ty)
    (atoms : c.atoms = (diverted g.buffer (replacement g.buffer)).atoms) (synthesized : c.synthesized = g.buffer.synthesized)
    (valid : c.validate = .ok ()) :
    ∃ g', Succeeds Function.prepare { f with buffer := c } () g' ∧ Diverting g.buffer g'.buffer (replacement g.buffer) ∧
      g'.name = g.name ∧ g'.args = g.args ∧ g'.returns = g.returns := by
  obtain ⟨prepared, _, _, sameAtoms⟩ := Function.prepared_of_prepare made
  have size : g.buffer.size ≠ 0 := by
    rw [Buffer.size, sameAtoms]
    exact nonempty
  obtain ⟨types', hints', analyzed', diverting⟩ :=
    exists_diverting (prepared.typed size) prepared.backward same atoms synthesized
  obtain ⟨marked', live'⟩ := (diverting c.marked).exists_mark (mark_of_prepared prepared size)
  have whole := diverting marked'
  obtain ⟨_, types, hints, marked, args, returns, analyzed, live, arguments, returned, rfl⟩ :=
    (Function.prepare_succeeds nonempty).1 made
  have nonempty' : c.size ≠ 0 := by
    rw [Buffer.size, atoms, diverted, Array.size_map]
    exact nonempty
  refine ⟨_, (Function.prepare_succeeds nonempty').2
    ⟨valid, types', hints', marked', args, returns, analyzed', live', ?_, ?_, rfl⟩, whole, rfl, rfl, rfl⟩
  · rw [whole.parametersOf]
    exact whole.argumentTypes arguments
  · rw [whole.indexed]
    exact whole.returnType returned

/-! ### Functions with reads diverted -/

open Linkage Native Aggregates

section

variable (diverting : Diverting f.buffer g.buffer via)

include diverting

theorem address_via {n : Nat} {a' : Atom} {o : Index} (found : g.buffer.atoms[n]? = some a')
    (position : o = a'.addresses.1 ∨ o = a'.addresses.2 ∧ a'.isBranch = false) : ∃ a o', f.buffer.atoms[n]? = some a ∧
      o = via o' ∧ (o' = a.addresses.1 ∨ o' = a.addresses.2 ∧ a.isBranch = false) := by
  obtain ⟨a, there, rfl⟩ := diverting.source found
  rcases position with rfl | ⟨rfl, straight⟩
  · refine ⟨a, a.addresses.1, there, ?_, Or.inl rfl⟩
    cases a with
    | literal => exact diverting.diverts.null.symm
    | _ => rfl
  · refine ⟨a, a.addresses.2, there, ?_, Or.inr ⟨rfl, ?_⟩⟩
    · cases a with
      | literal | qualifier | swizzle | intrinsic | load | ret => exact diverting.diverts.null.symm
      | _ => rfl
    · cases a <;> exact straight

/-- What is shown with reads diverted was shown before, if what takes the place of a shown read was. -/
theorem visible_source (prepared : f.Prepared) (prepared' : g.Prepared) (nonempty : f.buffer.size ≠ 0)
    (within : ∀ i, Shown f i → Shown f (via i)) : ∀ i ∈ visibleAtoms g.buffer, i ∈ visibleAtoms f.buffer := by
  have closed := visibleAtoms_useClosed prepared.backward
  have used : ∀ (n : Nat) (a : Atom) (o : Index), g.buffer.atoms[n]? = some a → Shown f (.ref n) →
      (o = a.addresses.1 ∨ o = a.addresses.2 ∧ a.isBranch = false) → Shown f o := by
    intro n a' o found shown position
    obtain ⟨a, o', there, rfl, position'⟩ := address_via diverting found position
    exact within o' (shown.operand closed there position')
  have marks := Liveness.marks_of_mark (mark_of_prepared prepared nonempty)
  have marks' : Liveness.Marks g.buffer g.buffer.marked := by
    refine Liveness.marks_of_mark (mark_of_prepared prepared' ?_)
    rw [diverting.size]
    exact nonempty
  refine visibleAtoms_least (fun i marked => ?_) fun n a shown found o operand => ?_
  · obtain ⟨n, rfl, _⟩ := marks'.present i marked
    refine Shown.visible (Liveness.due_closed (Q := Shown f) (fun m a' found live => ?_) used ((marks'.mem_iff n).1 marked))
    obtain ⟨a, there, rfl⟩ := diverting.source found
    exact Or.inr (mem_visibleAtoms_of_marked ((marks.mem_iff m).2 (.root there (diverting.isRoot.1 live))))
  · obtain ⟨present, position⟩ := Atom.mem_operands.1 operand
    refine (used n a o found (Or.inr shown) position).resolve_left ?_
    rintro rfl
    cases present

end

/-- A function of a unit and the same function with reads diverted, of another unit. -/
structure Thins (via : Index → Index) (f g : Function) : Prop where
  name : g.name = f.name
  id : g.id = f.id
  args : g.args = f.args
  returns : g.returns = f.returns
  diverting : Diverting f.buffer g.buffer via
  shown : ∀ i ∈ visibleAtoms g.buffer, i ∈ visibleAtoms f.buffer

namespace Thins

variable (thins : Thins via f g)

include thins

theorem expandList {i : Index} {items : List Index} (listed : f.buffer.expandList i = .ok items) :
    via i = i ∧ g.buffer.expandList i = .ok (items.map via) := by
  obtain ⟨same, run⟩ := thins.diverting.diverts.items (expandList_ok_iff.1 listed)
  refine ⟨same, expandList_ok_iff.2 ?_⟩
  rw [thins.diverting.whole]
  exact run

theorem fieldChain {head : Index} {nodes : List Index} (chain : f.buffer.fieldChain head = .ok nodes) :
    g.buffer.fieldChain head = .ok nodes := by
  have run := fieldChain_ok_iff.1 (thins.diverting.diverts.fieldChain chain).2
  refine fieldChain_ok_iff.2 ?_
  rw [thins.diverting.whole]
  exact run

theorem get?_of_stays {i : Index} {a : Atom} (found : f.buffer.get? i = some a) (stays : slot? a = none) :
    via i = i ∧ g.buffer.get? i = some (a.mapAddresses via) := by
  cases i with
  | null => cases found
  | ref n => exact ⟨thins.diverting.diverts.fixed found stays, thins.diverting.image found⟩

theorem restates : Restates f g via fun _ => True where
  source k a' shown found := by
    obtain ⟨a, there, same⟩ := thins.diverting.source found
    exact ⟨k, a, thins.shown _ shown, there, same⟩
  used _ _ _ _ := trivial
  items args items _ listed := by
    obtain ⟨same, listed'⟩ := thins.expandList listed
    rw [same]
    exact ⟨listed', fun _ _ => trivial⟩
  literals i v _ found := by
    obtain ⟨same, image⟩ := thins.get?_of_stays found rfl
    rw [same]
    exact image
  qualifiers i underlying kind number _ found := by
    obtain ⟨same, image⟩ := thins.get?_of_stays found rfl
    rw [same]
    exact ⟨image, trivial⟩
  values i ty d _ known value given := by
    refine ⟨ty, d, ?_, value, given⟩
    rw [thins.diverting.types, thins.diverting.same]
    exact known

theorem scannable (prepared' : g.Prepared) (scannable : Scannable f) : Scannable g := by
  refine scannable.restated thins.restates prepared'.backward fun i shown => ?_
  obtain ⟨a, there⟩ := scannable.present i (thins.shown i shown)
  cases i with
  | null => cases there
  | ref n => exact ⟨_, thins.diverting.image there⟩

theorem calls {callees : FunctionSet} (prepared' : g.Prepared) (calls : Calls f callees) : Calls g callees := by
  intro id
  rw [calls id]
  constructor
  · rintro ⟨i, shown, ty, args, there⟩
    cases i with
    | null => cases there
    | ref n =>
      have image := thins.diverting.image there
      exact ⟨.ref n, prepared'.shown_of_effect image rfl, _, _, image⟩
  · rintro ⟨i, shown, ty, args, there⟩
    cases i with
    | null => cases there
    | ref n =>
      obtain ⟨a, found, same⟩ := thins.diverting.source there
      cases a with
      | call id' ty' args' =>
        cases same
        exact ⟨.ref n, thins.shown _ shown, ty', args', found⟩
      | _ => cases same

/-! ### Types in units -/

/-- What is shown with reads diverted has the types, and the structs in them, that it had before. -/
theorem corresponds (prepared' : g.Prepared) : Corresponds f g (fun i => i) (· ∈ visibleAtoms g.buffer) where
  types i ty _ found := by
    rw [Function.rename_self, thins.diverting.types]
    exact found
  head n ty head shown found carried := by
    rw [← thins.diverting.types] at found
    obtain ⟨k, place, below, inner, _⟩ := thins.diverting.typed'.struct_head prepared'.backward
      (visibleAtoms_useClosed prepared'.backward) n shown found carried
    exact ⟨k, place, below, inner⟩
  chain head nodes shown chain := by
    have chain' := thins.fieldChain chain
    rw [List.map_id']
    exact ⟨chain', (visibleAtoms_useClosed prepared'.backward).fields chain' shown⟩

variable {u u' : Linkage}

theorem typeOf_via {i : Index} {ty : Ty} (known : Member.typeOf ⟨u, f⟩ i = .ok ty) :
    Member.typeOf ⟨u', g⟩ (via i) = .ok ty :=
  TargetFault.ofFault_ok_iff.2 (thins.diverting.typeOf_via.2 (TargetFault.ofFault_ok_iff.1 known))

variable (layered : Layered u.aggregates) (layered' : Layered u'.aggregates)
  (placed : Placed u f) (placed' : Placed u' g)

include layered layered' placed placed'

theorem structs {i : Index} {ty : Ty} {head : Index} (shown : Shown g i)
    (found : g.buffer.table i = some ty) (carried : ty.struct? = some head) :
    ∃ n n', u.aggregateIndex f.id head = .ok n ∧ u'.aggregateIndex g.id head = .ok n' ∧ SameFields u u' n n' ∧
      scalarsOfData u (.aggregate n) = scalarsOfData u' (.aggregate n') := by
  cases i with
  | null =>
    rw [table_null, Option.some.injEq] at found
    subst found
    cases carried
  | ref k =>
    rw [thins.diverting.types] at found
    exact structs_of_placed layered layered' placed placed' thins.diverting.typed thins.diverting.typed'
      (thins.corresponds placed'.prepared) shown.visible (thins.shown _ shown.visible) rfl shown.visible found carried

theorem resembles : Resembles u u' f g fun i => i := by
  have whole : Ty.rename (fun i => i) = fun t => t := funext Function.rename_self
  refine ⟨by rw [thins.args, whole, List.map_id'], by rw [thins.returns, whole], fun ty signed linked scalars h flat => ?_⟩
  have carries : g.Carries ty := by
    obtain ⟨args, returns⟩ := placed'.prepared.carries
    rcases signed with member | rfl
    · exact args ty (thins.args ▸ member)
    · exact thins.returns ▸ returns
  have structs : ∀ head, ty.struct? = some head → ∃ n n', u.aggregateIndex f.id head = .ok n ∧
      u'.aggregateIndex g.id head = .ok n' ∧ scalarsOfData u (.aggregate n) = scalarsOfData u' (.aggregate n') := by
    intro head carried
    rcases carries with plain | ⟨i, shown, own, found, same⟩
    · rw [carried] at plain
      cases plain
    · obtain ⟨n, n', index, index', _, scalars⟩ := thins.structs layered layered' placed placed' (Or.inr shown) found
        (by rw [← Ty.struct?_bare, same, Ty.struct?_bare, carried])
      exact ⟨n, n', index, index', scalars⟩
  obtain ⟨linked', resolved, flat', _⟩ := resolve_transfers structs h flat
  exact ⟨linked', resolved, flat'⟩

theorem kindred {i : Index} (shown : Shown g (via i)) :
    Scope.Kindred { unit := u, function := f } { unit := u', function := g } i (via i) := by
  intro linked scalars h flat
  unfold Scope.linkedType Member.resolve at h ⊢
  obtain ⟨ty, known, h⟩ := Except.bind_ok h
  have known' : Member.typeOf ⟨u', g⟩ (via i) = .ok ty := thins.typeOf_via known
  obtain ⟨linked', resolved, flat', kin⟩ := resolve_transfers (fun head carried => by
    obtain ⟨n, n', index, index', _, scalars⟩ := thins.structs layered layered' placed placed' shown
      (thins.diverting.typed'.typeOf_ok_iff.1 (TargetFault.ofFault_ok_iff.1 known')) carried
    exact ⟨n, n', index, index', scalars⟩) (TargetFault.ofLink_ok_iff.1 h) flat
  rw [known', Except.ok_bind]
  rw [Function.rename_self] at resolved
  exact ⟨linked', TargetFault.ofLink_ok_iff.2 resolved, flat', kin⟩

theorem fieldRange {i : Index} {field : Int32} {range : Nat × Nat} (shown : Shown g (via i))
    (h : Scope.fieldRange { unit := u, function := f } i field = .ok range) :
    Scope.fieldRange { unit := u', function := g } (via i) field = .ok range := by
  unfold Scope.fieldRange at h ⊢
  obtain ⟨ty, known, h⟩ := Except.bind_ok h
  have known' : Member.typeOf ⟨u', g⟩ (via i) = .ok ty := thins.typeOf_via known
  rw [known', Except.ok_bind]
  split at h
  · rename_i head shape
    obtain ⟨n, index, h⟩ := Except.bind_ok h
    have carried : ty.struct? = some head := by
      rw [← Ty.struct?_bare, shape]
      rfl
    obtain ⟨m, m', first, second, same, _⟩ := thins.structs layered layered' placed placed' shown
      (thins.diverting.typed'.typeOf_ok_iff.1 (TargetFault.ofFault_ok_iff.1 known')) carried
    unfold Member.aggregate at index
    rw [TargetFault.ofLink_ok_iff, first, Except.ok.injEq] at index
    subst index
    simp only [Member.aggregate, TargetFault.ofLink_ok_iff.2 second, Except.ok_bind]
    exact same.range h
  · cases h

end Thins

end ShaderForge.Optimizer
