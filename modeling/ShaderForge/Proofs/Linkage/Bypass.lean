import ShaderForge.Proofs.Function.Bypass
import ShaderForge.Proofs.Function.Fold
import ShaderForge.Proofs.Linkage.Lockstep
import ShaderForge.Proofs.Linkage.Restated

/-!
Linking with placeholders bypassed. A placeholder adds nothing to a unit that its qualifier has not
added before, so both units have the same aggregates, globals and calls; their maps differ at
placeholders only, and no struct starts there.
-/

namespace ShaderForge

open Buffer Aggregates

theorem toList_filter {s t : IndexSet} (inside : ∀ i ∈ t, i ∈ s) : t.toList = s.toList.filter t.contains := by
  have ascending : ∀ s : IndexSet, s.toList.Pairwise (· < ·) :=
    fun s => Std.ExtTreeSet.ordered_toList.imp Index.compare_eq_lt.1
  refine eq_of_ascending id (ascending t) ((ascending s).filter _) fun i => ?_
  rw [List.mem_filter, Std.ExtTreeSet.mem_toList, Std.ExtTreeSet.mem_toList, Std.ExtTreeSet.contains_iff_mem]
  exact ⟨fun member => ⟨inside i member, member⟩, fun both => both.2⟩

/-! ### Visible atoms -/

namespace Function.Bypasses

variable {f f' : Function} {via : Index → Index} {i : Index}

open Linkage

theorem visible_via (bypasses : f.Bypasses f' via) (backward : f.buffer.Backward)
    (shown : i ∈ visibleAtoms f.buffer) : via i ∈ visibleAtoms f.buffer := by
  by_cases moved : via i = i
  · rw [moved]
    exact shown
  · obtain ⟨_, _, _, construct, _⟩ := bypasses.buffer.placeholder i moved
    cases i with
    | null => cases construct
    | ref n =>
      refine visibleAtoms_useClosed backward n _ shown construct _ (Atom.mem_operands.2 ⟨?_, Or.inl rfl⟩)
      rw [bypasses.buffer.isNull]
      rfl

theorem visible_source (bypasses : f.Bypasses f' via) (backward : f.buffer.Backward)
    (shown : i ∈ visibleAtoms f'.buffer) : i ∈ visibleAtoms f.buffer := by
  refine visibleAtoms_least (P := (· ∈ visibleAtoms f.buffer)) ?_ ?_ i shown
  · exact fun j marked => mem_visibleAtoms_of_marked (bypasses.fewer j marked)
  · intro n a' seen found o used
    obtain ⟨a, there, rfl⟩ := bypasses.buffer.source (i := .ref n) found
    obtain ⟨present, declared | read⟩ := Atom.mem_operands_iff.1 used
    · rw [Atom.declares_bypass] at declared
      exact visibleAtoms_useClosed backward n a seen there o (Atom.mem_operands_iff.2 ⟨present, Or.inl declared⟩)
    · rw [Atom.reads_bypass bypasses.buffer.isNull] at read
      obtain ⟨o', source, rfl⟩ := List.mem_map.1 read
      rw [bypasses.buffer.isNull] at present
      exact bypasses.visible_via backward
        (visibleAtoms_useClosed backward n a seen there o' (Atom.mem_operands_iff.2 ⟨present, Or.inr source⟩))

theorem visible (bypasses : f.Bypasses f' via) (backward : f.buffer.Backward)
    (shown : i ∈ visibleAtoms f.buffer) :
    i ∈ visibleAtoms f'.buffer ∨ via i ≠ i ∧ via i ∈ visibleAtoms f'.buffer := by
  have closed := visibleAtoms_useClosed (bypasses.buffer.backward backward)
  refine visibleAtoms_least
    (P := fun i => i ∈ visibleAtoms f'.buffer ∨ via i ≠ i ∧ via i ∈ visibleAtoms f'.buffer) ?_ ?_ i shown
  · intro j marked
    exact (bypasses.marked j marked).imp mem_visibleAtoms_of_marked (And.imp_right mem_visibleAtoms_of_marked)
  · intro n a seen found o used
    obtain ⟨present, needed⟩ := Atom.mem_operands_iff.1 used
    rcases seen with seen | ⟨moved, seen⟩
    · have there := bypasses.buffer.get?_some (i := .ref n) found
      rcases needed with declared | read
      · rw [← Atom.declares_bypass via] at declared
        exact Or.inl (closed n _ seen there o (Atom.mem_operands_iff.2 ⟨present, Or.inl declared⟩))
      · have read' : via o ∈ (a.bypass via).reads := by
          rw [Atom.reads_bypass bypasses.buffer.isNull]
          exact List.mem_map_of_mem read
        rw [← bypasses.buffer.isNull] at present
        have seen' := closed n _ seen there (via o) (Atom.mem_operands_iff.2 ⟨present, Or.inr read'⟩)
        by_cases moved : via o = o
        · rw [moved] at seen'
          exact Or.inl seen'
        · exact Or.inr ⟨moved, seen'⟩
    · -- all that a placeholder names is its qualifier, which is visible on the other side
      obtain ⟨_, _, _, construct, _⟩ := bypasses.buffer.placeholder _ moved
      rw [get?_ref, found, Option.some.injEq] at construct
      subst construct
      obtain ⟨present, rfl | ⟨rfl, _⟩⟩ := Atom.mem_operands.1 used
      · exact Or.inl seen
      · cases present

theorem shownAtoms (bypasses : f.Bypasses f' via) (backward : f.buffer.Backward) :
    shownAtoms f' = (Linkage.shownAtoms f).filter (visibleAtoms f'.buffer).contains :=
  toList_filter fun _ => bypasses.visible_source backward

theorem moved_of_hidden (bypasses : f.Bypasses f' via) (backward : f.buffer.Backward)
    (shown : i ∈ visibleAtoms f.buffer) (hidden : (visibleAtoms f'.buffer).contains i = false) : via i ≠ i := by
  rcases bypasses.visible backward shown with seen | ⟨moved, _⟩
  · rw [← Std.ExtTreeSet.contains_iff_mem, hidden] at seen
    cases seen
  · exact moved

theorem fixed_struct (bypasses : f.Bypasses f' via) (typed : f.buffer.Typed) (backward : f.buffer.Backward)
    {ty : Ty} {head : Index} (known : f.buffer.typeOf i = .ok ty) (carried : ty.struct? = some head) :
    via head = head := by
  obtain ⟨fields, chain⟩ := typed.struct_chain backward (typed.typeOf_ok_iff.1 known) carried
  exact bypasses.buffer.fixed_of_chain chain

theorem decoration? (bypasses : f.Bypasses f' via) (i : Index) :
    f'.buffer.decoration? i = f.buffer.decoration? i := by
  unfold Buffer.decoration?
  rw [bypasses.decorations]

end Function.Bypasses

/-! ### Registration -/

namespace Aggregates

variable {f f' : Function} {via : Index → Index}

def Agree (via : Index → Index) (map map' : TypeMap) : Prop := ∀ i, via i = i → map'[i]? = map[i]?

theorem Agree.insert {map map' : TypeMap} (agree : Agree via map map') (i : Index) (n : Nat) :
    Agree via (map.insert i n) (map'.insert i n) := by
  intro j fixed
  rw [Std.ExtTreeMap.getElem?_insert, Std.ExtTreeMap.getElem?_insert, agree j fixed]

/-- Registrations under way whose maps agree. -/
structure Scope.Beside (via : Index → Index) (s s' : Scope) : Prop where
  entries : s'.entries = s.entries
  notes : s'.notes = s.notes
  map : Agree via s.map s'.map

theorem fieldNames_shadowed (bypasses : f.Bypasses f' via) (head : Index) (count : Nat) :
    Shadows (Scope.Beside via) Eq (fieldNames f head count) (fieldNames f' head count) := by
  unfold fieldNames
  rw [bypasses.decoration?, bypasses.name]
  simp only
  split
  · exact .of_pure rfl
  · exact .of_bind_eq (.of_modify fun s s' beside => { beside with notes := by rw [beside.notes] })
      fun _ => .of_pure rfl

theorem intern_shadowed (bypasses : f.Bypasses f' via) (head : Index) (key : AggregateKey) :
    Shadows (Scope.Beside via) Eq (intern f head key) (intern f' head key) := by
  unfold intern
  refine .of_get fun s s' beside => ?_
  rw [beside.entries, bypasses.decoration?, bypasses.name, bypasses.id]
  cases s.entries.findIdx? (·.key == key) with
  | some n => exact .of_pure rfl
  | none =>
    exact .of_bind_eq (.of_set { beside with entries := rfl, notes := by rw [beside.notes] }) fun _ => .of_pure rfl

theorem register_shadowed (bypasses : f.Bypasses f' via) (typed : f.buffer.Typed) (backward : f.buffer.Backward)
    (fuel : Nat) {head : Index} (fixed : via head = head) :
    Shadows (Scope.Beside via) Eq (register f fuel head) (register f' fuel head) := by
  induction fuel generalizing head with
  | zero => exact .of_throw
  | succ fuel ih =>
    rw [register, register]
    refine .of_get fun s s' beside => ?_
    rw [beside.map head fixed]
    cases s.map[head]? with
    | some n => exact .of_pure rfl
    | none =>
      refine .of_asked (fun _ => bypasses.buffer.fieldChain.2) fun nodes _ => ?_
      refine .of_bind_eq (.of_mapM fun node _ => ?_) fun types => ?_
      · refine .of_asked (fun _ => bypasses.buffer.typeOf bypasses.types typed) fun ty known => ?_
        cases value : ty.data? with
        | none => exact .of_throw
        | some d =>
          cases d with
          | prim p => exact .of_pure rfl
          | struct nested =>
            have carried := bypasses.fixed_struct typed backward known (Ty.struct?_of_data? value)
            exact .of_bind_eq (ih carried) fun _ => .of_pure rfl
      · rw [bypasses.decoration?]
        exact .of_bind_eq (fieldNames_shadowed bypasses head _) fun names =>
          .of_bind_eq (intern_shadowed bypasses head _) fun n =>
            .of_bind_eq (.of_modify fun _ _ beside => { beside with map := beside.map.insert head n })
              fun _ => .of_pure rfl

end Aggregates

namespace Linkage

variable {f f' : Function} {via : Index → Index} {vias : FunctionId → Index → Index} {u u' v : Linkage}

/-- Units whose functions bypass placeholders of each other: all else is the same, apart from the
entries of placeholders. -/
structure Beside (vias : FunctionId → Index → Index) (u u' : Linkage) : Prop where
  functions : List.Forall₂ (fun f f' => f.Bypasses f' (vias f.id)) u.functions u'.functions
  aggregates : u'.aggregates = u.aggregates
  typeMaps : ∀ id i, vias id i = i → (u'.typeMaps[id]?).bind (·[i]?) = (u.typeMaps[id]?).bind (·[i]?)
  dependencies : u'.dependencies = u.dependencies
  uses : u'.uses = u.uses
  globals : u'.globals = u.globals
  control : u'.control = u.control
  notes : u'.notes = u.notes

theorem Beside.aggregateIndex (beside : Beside vias u u') {id : FunctionId} {head : Index}
    (fixed : vias id head = head) {n : Nat} (found : u.aggregateIndex id head = .ok n) :
    u'.aggregateIndex id head = .ok n := by
  unfold Linkage.aggregateIndex at found ⊢
  rw [beside.typeMaps id head fixed]
  exact found

theorem Beside.resolve (beside : Beside vias u u') {id : FunctionId} {ty : Ty} {linked : LinkedTy}
    (fixed : ∀ head, ty.struct? = some head → vias id head = head) (found : u.resolve id ty = .ok linked) :
    u'.resolve id ty = .ok linked := by
  have data : ∀ d : Data, (∀ head, d = .struct head → vias id head = head) →
      ∀ base, u.resolveData id d = .ok base → u'.resolveData id d = .ok base := by
    intro d fixed base found
    cases d with
    | prim p => exact found
    | struct head =>
      simp only [resolveData] at found ⊢
      obtain ⟨n, known, found⟩ := Except.bind_ok found
      rw [beside.aggregateIndex (fixed head rfl) known]
      exact found
  unfold Ty.struct? at fixed
  unfold Linkage.resolve at found ⊢
  cases shape : ty.bare with
  | data d =>
    rw [shape] at fixed found
    cases d with
    | prim p => exact found
    | struct head =>
      obtain ⟨base, known, found⟩ := Except.bind_ok found
      simp only [data _ (by rintro _ ⟨⟩; exact fixed head rfl) base known, Except.ok_bind]
      exact found
  | array d size | reference d key =>
    rw [shape] at fixed found
    obtain ⟨base, known, found⟩ := Except.bind_ok found
    simp only [data d (by rintro head rfl; exact fixed head rfl) base known, Except.ok_bind]
    exact found
  | field base next => exact (Ty.bare_ne_field ty base next shape).elim
  | _ =>
    rw [shape] at found
    exact found

/-! ### Steps of a scan -/

theorem ask_shadowed {α β : Type} {R : Linkage → Linkage → Prop} {Q : β → β → Prop} {x y : Except Fault α}
    {k l : α → Linking β} (same : ∀ a, x = .ok a → y = .ok a)
    (later : ∀ a, x = .ok a → Shadows R Q (k a) (l a)) :
    Shadows R Q (ask x >>= k) (ask y >>= l) := by
  have answered : ∀ {z : Except Fault α} {a : α}, LinkFault.lift z = .ok a ↔ z = .ok a := by
    intro z a
    cases z <;> simp [LinkFault.lift]
  exact .of_asked (fun a known => answered.2 (same a (answered.1 known))) fun a known => later a (answered.1 known)

theorem note_shadowed (ns : List Note) : Shadows (Beside vias) Eq (note ns) (note ns) :=
  .of_modify fun _ _ beside => { beside with notes := by rw [beside.notes] }

theorem onGlobals_shadowed (g : Globals → Globals × List Warning) :
    Shadows (Beside vias) Eq (onGlobals g) (onGlobals g) := by
  unfold onGlobals
  refine .of_get fun s s' beside => ?_
  rw [beside.globals]
  exact .of_bind_eq (.of_modify fun _ _ beside => { beside with globals := rfl }) fun _ => note_shadowed _

theorem apply_bypass {b c : Buffer} (bypasses : b.Bypasses c via) {i args : Index} {code : Intrinsic}
    {control : Control} {answer : Control × List Warning} (h : control.apply b i code args = .ok answer) :
    control.apply c i code (via args) = .ok answer := by
  refine apply_along (fun items listed => ⟨bypasses.expandList listed, fun item _ v found => ?_⟩) h
  rw [bypasses.stays found (by simp)]
  exact bypasses.get?_some found

theorem resourceOf_bypass {b c : Buffer} (bypasses : b.Bypasses c via) (backward : b.Backward) {i : Index}
    {answer : Qualifier × Int} (h : resourceOf b i = .ok answer) : resourceOf c i = .ok answer := by
  have same : ∀ i underlying kind number, True → b.get? i = some (.qualifier underlying kind number) →
      c.get? i = some (.qualifier underlying kind number) ∧ True :=
    fun _ _ _ _ _ found => ⟨bypasses.get?_some found, trivial⟩
  exact resourceOf_along (bypasses.backward backward) same trivial h

theorem atom_shadowed (bypasses : f.Bypasses f' via) (i : Index) :
    Shadows (Beside vias) (fun a a' => a' = a.bypass via) (ask (f.buffer.atom i)) (ask (f'.buffer.atom i)) := by
  intro u u' a v beside h
  obtain ⟨found, rfl⟩ := ask_succeeds.1 h
  have there := bypasses.buffer.get?_some (atom_ok_iff.1 found)
  exact ⟨_, u', ask_succeeds.2 ⟨atom_ok_iff.2 there, rfl⟩, rfl, beside⟩

theorem scanEffect_shadowed (bypasses : f.Bypasses f' via) {map map' : TypeMap} (agree : Agree via map map')
    (callees : FunctionSet) (i : Index) :
    Shadows (Beside vias) (fun p p' => Agree via p.1 p'.1 ∧ p'.2 = p.2)
      (scanEffect f callees i map) (scanEffect f' callees i map') := by
  refine .of_bind (atom_shadowed bypasses i) ?_
  rintro a _ rfl
  cases a with
  | intrinsic code args =>
    simp only [Atom.bypass]
    split
    · refine .of_get fun s s' beside => ?_
      rw [beside.control]
      exact ask_shadowed (fun _ => apply_bypass bypasses.buffer) fun answer _ =>
        .of_bind_eq (.of_modify fun _ _ beside => { beside with control := rfl }) fun _ =>
          .of_bind_eq (note_shadowed _) fun _ => .of_pure ⟨agree, rfl⟩
    · exact .of_pure ⟨agree, rfl⟩
  | _ => exact .of_pure ⟨agree, rfl⟩

theorem scanEffect_placeholder (bypasses : f.Bypasses f' (vias f.id)) {i : Index} (moved : vias f.id i ≠ i)
    {callees : FunctionSet} {map : TypeMap} {answer : TypeMap × FunctionSet}
    (h : Succeeds (scanEffect f callees i map) u answer v) : v = u ∧ answer = (map, callees) := by
  obtain ⟨_, _, _, construct, _⟩ := bypasses.buffer.placeholder i moved
  unfold scanEffect at h
  obtain ⟨a, _, asked, h⟩ := Succeeds.bind_iff.1 h
  obtain ⟨found, rfl⟩ := ask_succeeds.1 asked
  rw [atom_ok_iff.2 construct, Except.ok.injEq] at found
  subst found
  obtain ⟨same, rfl⟩ := Succeeds.of_pure.1 h
  exact ⟨rfl, same.symm⟩

/-- When a scan comes to a placeholder it has entered the struct of the qualifier. -/
theorem struct_entered (bypasses : f.Bypasses f' (vias f.id)) (backward : f.buffer.Backward) {i : Index}
    {rest : List Index} {map : TypeMap} (moved : vias f.id i ≠ i) (shown : i ∈ visibleAtoms f.buffer)
    (later : ∀ j ∈ rest, i < j) (scanned : Scanned f (i :: rest) u map) {own : Ty}
    (known : f.buffer.table (vias f.id i) = some own) {head : Index} (carried : own.struct? = some head) :
    ∃ n, map[head]? = some n := by
  -- the qualifier is visible with the placeholder, and comes before it
  have below : vias f.id i < i :=
    Nat.lt_of_le_of_ne (bypasses.buffer.lower backward i) fun same => moved (Index.rank_inj.1 same)
  rcases scanned.entered _ (bypasses.visible_via backward shown) with member | entered
  · rcases List.mem_cons.1 member with same | member
    · exact (moved same).elim
    · exact (Nat.lt_asymm below (later _ member)).elim
  · obtain ⟨n, held⟩ := entered.entry own head known carried
    rcases scanned.faithful.settled _ _ held with ⟨_, _, same, carries, held⟩ | ⟨plain, _⟩
    · rw [known, Option.some.injEq] at same
      rw [← same, carried, Option.some.injEq] at carries
      rw [← carries] at held
      exact ⟨n, held⟩
    · rw [plain own known] at carried
      cases carried

section

variable (bypasses : f.Bypasses f' (vias f.id)) (typed : f.buffer.Typed) (backward : f.buffer.Backward)
include bypasses typed backward

theorem resolving_shadowed (i : Index) : Shadows (Beside vias) Eq (resolving f i) (resolving f' i) := by
  unfold resolving
  refine ask_shadowed (fun _ => bypasses.buffer.typeOf bypasses.types typed) fun ty known => ?_
  refine .of_get fun s s' beside => .of_answer fun linked found => ⟨linked, ?_, rfl⟩
  rw [bypasses.id]
  exact beside.resolve (fun head carried => bypasses.fixed_struct typed backward known carried) found

theorem declare_shadowed (i underlying : Index) (kind : Qualifier) (number : Int) :
    Shadows (Beside vias) Eq (declare f i underlying kind number) (declare f' i underlying kind number) := by
  have resolving := fun i => resolving_shadowed bypasses typed backward i
  have resource : ∀ answer, resourceOf f.buffer underlying = .ok answer →
      resourceOf f'.buffer underlying = .ok answer := fun _ => resourceOf_bypass bypasses.buffer backward
  unfold declare
  rw [bypasses.id]
  cases kind with
  | builtin | sampler | image => exact .of_bind_eq (onGlobals_shadowed _) fun _ => .of_pure rfl
  | input | output | pushConstant | uniformBuffer | storageBuffer | shared =>
    exact .of_bind_eq (resolving _) fun _ => .of_bind_eq (onGlobals_shadowed _) fun _ => .of_pure rfl
  | taskPayload | hitAttribute | accelerationStructure | rayPayload | rayPayloadIn =>
    exact .of_bind_eq (resolving _) fun _ => .of_bind_eq (onGlobals_shadowed _) fun _ => .of_pure rfl
  | readOnly | writeOnly | scalarLayout | format =>
    exact ask_shadowed resource fun _ _ => .of_bind_eq (onGlobals_shadowed _) fun _ => .of_pure rfl
  | bufferReference =>
    refine .of_bind_eq (resolving _) fun linked => ?_
    cases linked.data? with
    | none => exact .of_throw
    | some base => exact .of_bind_eq (onGlobals_shadowed _) fun _ => .of_pure rfl
  | arrays =>
    simp only
    rw [bypasses.buffer.get?]
    cases f.buffer.get? underlying with
    | none => exact .of_pure rfl
    | some a =>
      cases a with
      | qualifier under inner binding =>
        simp only [Option.map_some, Atom.bypass]
        split
        · exact .of_bind_eq (onGlobals_shadowed _) fun _ => .of_pure rfl
        · exact .of_pure rfl
      | _ => exact .of_pure rfl
  | parameter | inArg | outArg | inOutArg => exact .of_pure rfl

theorem registering_shadowed {head : Index} {map map' : TypeMap} (fixed : vias f.id head = head)
    (agree : Agree (vias f.id) map map') :
    Shadows (Beside vias) (fun p p' => p'.1 = p.1 ∧ Agree (vias f.id) p.2 p'.2)
      (registering f head map) (registering f' head map') := by
  rintro u u' ⟨n, _⟩ v beside h
  obtain ⟨t, ran, rfl, rfl⟩ := registering_succeeds.1 h
  have scopes : Scope.Beside (vias f.id) (scope u map) (scope u' map') :=
    ⟨beside.aggregates, beside.notes, agree⟩
  obtain ⟨_, t', ran', rfl, after⟩ := register_shadowed bypasses typed backward _ fixed _ _ _ _ scopes ran
  rw [← bypasses.buffer.size] at ran'
  exact ⟨(n, t'.map), _, registering_succeeds.2 ⟨t', ran', rfl, rfl⟩, ⟨rfl, after.map⟩,
    { beside with aggregates := after.entries, notes := after.notes }⟩

theorem scanAtom_shadowed {map map' : TypeMap} (agree : Agree (vias f.id) map map') (callees : FunctionSet)
    (i : Index) : Shadows (Beside vias) (fun p p' => Agree (vias f.id) p.1 p'.1 ∧ p'.2 = p.2)
      (scanAtom f map callees i) (scanAtom f' map' callees i) := by
  rw [scanAtom_eq, scanAtom_eq]
  refine ask_shadowed (fun _ => bypasses.buffer.typeOf bypasses.types typed) fun ty known => ?_
  cases carried : ty.struct? with
  | none => exact scanEffect_shadowed bypasses agree callees i
  | some head =>
    have fixed := bypasses.fixed_struct typed backward known carried
    refine .of_bind (registering_shadowed bypasses typed backward fixed agree) ?_
    rintro ⟨n, entered⟩ ⟨n', entered'⟩ ⟨rfl, agree⟩
    exact scanEffect_shadowed bypasses (agree.insert i _) callees i

/-- A placeholder finds its struct registered: its qualifier has come before. -/
theorem scanAtom_placeholder {i : Index} {rest : List Index} {map map' : TypeMap}
    {callees callees' : FunctionSet} (moved : vias f.id i ≠ i) (shown : i ∈ visibleAtoms f.buffer)
    (later : ∀ j ∈ rest, i < j) (scanned : Scanned f (i :: rest) u map)
    (h : Succeeds (scanAtom f map callees i) u (map', callees') v) :
    v = u ∧ callees' = callees ∧ Agree (vias f.id) map map' := by
  obtain ⟨own, known, bare⟩ := bypasses.buffer.typed_placeholder typed moved
  rw [scanAtom_eq] at h
  obtain ⟨ty, _, asked, h⟩ := Succeeds.bind_iff.1 h
  obtain ⟨answered, rfl⟩ := ask_succeeds.1 asked
  rw [typed.typeOf_ok_iff, bare, Option.some.injEq] at answered
  subst answered
  rw [Ty.struct?_bare] at h
  cases carried : own.struct? with
  | none =>
    rw [carried] at h
    obtain ⟨rfl, same⟩ := scanEffect_placeholder bypasses moved h
    cases same
    exact ⟨rfl, rfl, fun _ _ => rfl⟩
  | some head =>
    rw [carried] at h
    obtain ⟨⟨n, entered⟩, w, registered, h⟩ := Succeeds.bind_iff.1 h
    obtain ⟨t, ran, rfl, rfl⟩ := registering_succeeds.1 registered
    obtain ⟨rfl, same⟩ := scanEffect_placeholder bypasses moved h
    cases same
    obtain ⟨m, held⟩ := struct_entered bypasses backward moved shown later scanned known carried
    have still : t = scope u map := by
      rcases register_succ_succeeds ran with ⟨_, same⟩ | ⟨unknown, _⟩
      · exact same
      · rw [show (scope u map).map[head]? = some m from held] at unknown
        cases unknown
    subst still
    -- only the placeholder's own entry is new, which is where the maps may differ
    refine ⟨rfl, rfl, fun j fixed => ?_⟩
    exact getElem?_insert_of_ne fun same => moved (same ▸ fixed)

end

def scanNext (f : Function) (p : TypeMap × FunctionSet) (i : Index) : Linking (TypeMap × FunctionSet) :=
  scanAtom f p.1 p.2 i

theorem scanAll_eq (f : Function) :
    scanAll f = (shownAtoms f).foldlM (scanNext f) ((∅ : TypeMap), (∅ : FunctionSet)) := rfl

/-- The first half of a scan, atom by atom; the other side leaves placeholders out. -/
theorem scanAtoms_beside (bypasses : f.Bypasses f' (vias f.id)) (prepared : f.Prepared) {items : List Index}
    {map map' map₁ : TypeMap} {callees callees₁ : FunctionSet} (typed : ∀ i ∈ items, f.buffer.Typed)
    (shown : ∀ i ∈ items, i ∈ visibleAtoms f.buffer) (sorted : items.Pairwise (· < ·))
    (scanned : Scanned f items u map) (beside : Beside vias u u') (agree : Agree (vias f.id) map map')
    (h : Succeeds (items.foldlM (scanNext f) (map, callees)) u (map₁, callees₁) v) :
    ∃ map₁' v', Succeeds ((items.filter (visibleAtoms f'.buffer).contains).foldlM (scanNext f') (map', callees)) u'
      (map₁', callees₁) v' ∧ Agree (vias f.id) map₁ map₁' ∧ Beside vias v v' := by
  induction items generalizing map map' callees u u' with
  | nil =>
    obtain ⟨same, rfl⟩ := Succeeds.of_pure.1 h
    cases same
    exact ⟨map', u', Succeeds.of_pure.2 ⟨rfl, rfl⟩, agree, beside⟩
  | cons i rest ih =>
    rw [List.foldlM_cons] at h
    rw [List.pairwise_cons] at sorted
    obtain ⟨⟨map₂, callees₂⟩, w, first, others⟩ := Succeeds.bind_iff.1 h
    have here := typed i List.mem_cons_self
    have visible := shown i List.mem_cons_self
    obtain ⟨step, _⟩ := scanAtom_sound prepared visible sorted.1 scanned first
    have typed' := fun j member => typed j (List.mem_cons_of_mem _ member)
    have shown' := fun j member => shown j (List.mem_cons_of_mem _ member)
    rw [List.filter_cons]
    cases seen : (visibleAtoms f'.buffer).contains i with
    | true =>
      obtain ⟨⟨map₂', _⟩, w', first', ⟨agree, rfl⟩, beside⟩ :=
        scanAtom_shadowed bypasses here prepared.backward agree callees i u u' _ w beside first
      obtain ⟨map₁', v', ran, agree, beside⟩ := ih typed' shown' sorted.2 step beside agree others
      rw [if_pos rfl, List.foldlM_cons]
      exact ⟨map₁', v', Succeeds.bind_iff.2 ⟨_, w', first', ran⟩, agree, beside⟩
    | false =>
      have moved := bypasses.moved_of_hidden prepared.backward visible seen
      obtain ⟨rfl, rfl, skipped⟩ :=
        scanAtom_placeholder bypasses here prepared.backward moved visible sorted.1 scanned first
      rw [if_neg Bool.false_ne_true]
      exact ih typed' shown' sorted.2 step beside (fun j fixed => (agree j fixed).trans (skipped j fixed).symm)
        others

theorem declareAtom_shadowed (bypasses : f.Bypasses f' (vias f.id)) (typed : f.buffer.Typed)
    (backward : f.buffer.Backward) (uses : GlobalSet) (i : Index) :
    Shadows (Beside vias) Eq (declareAtom f uses i) (declareAtom f' uses i) := by
  refine .of_bind (atom_shadowed bypasses i) ?_
  rintro a _ rfl
  cases a with
  | qualifier underlying kind number =>
    refine .of_bind_eq (declare_shadowed bypasses typed backward i underlying kind number.toInt) fun named => ?_
    cases named <;> exact .of_pure rfl
  | _ => exact .of_pure rfl

theorem declareAtom_placeholder (bypasses : f.Bypasses f' (vias f.id)) {i : Index} (moved : vias f.id i ≠ i)
    (uses : GlobalSet) : Shadows (Beside vias) Eq (declareAtom f uses i) (pure uses) := by
  intro u u' uses' v beside h
  obtain ⟨_, _, _, construct, _⟩ := bypasses.buffer.placeholder i moved
  unfold declareAtom at h
  obtain ⟨a, _, asked, h⟩ := Succeeds.bind_iff.1 h
  obtain ⟨found, rfl⟩ := ask_succeeds.1 asked
  rw [atom_ok_iff.2 construct, Except.ok.injEq] at found
  subst found
  obtain ⟨rfl, rfl⟩ := Succeeds.of_pure.1 h
  exact ⟨_, u', Succeeds.of_pure.2 ⟨rfl, rfl⟩, rfl, beside⟩

theorem Beside.scan (beside : Beside vias u u') (bypasses : f.Bypasses f' (vias f.id)) (prepared : f.Prepared)
    (layered : Layered u.aggregates) {callees : FunctionSet} (h : Succeeds (scan f) u callees v) :
    ∃ v', Succeeds (Linkage.scan f') u' callees v' ∧ Beside vias v v' := by
  have scannable := scannable_of_scan prepared h
  have typed : ∀ i ∈ shownAtoms f, f.buffer.Typed := by
    intro i member
    obtain ⟨a, there⟩ := scannable.present i (Std.ExtTreeSet.mem_toList.1 member)
    cases i with
    | null => cases there
    | ref n =>
      refine prepared.typed ?_
      have := (Array.getElem?_eq_some_iff.1 there).1
      unfold size
      omega
  have backward := prepared.backward
  have ascending : (shownAtoms f).Pairwise (· < ·) :=
    Std.ExtTreeSet.ordered_toList.imp Index.compare_eq_lt.1
  rw [scan_eq, scanAll_eq] at h
  obtain ⟨⟨map, called⟩, w, scanned, h⟩ := Succeeds.bind_iff.1 h
  obtain ⟨map', w', scanned', agree, beside⟩ := scanAtoms_beside bypasses prepared typed
    (fun i member => Std.ExtTreeSet.mem_toList.1 member) ascending (scanned_start f layered) beside
    (fun _ _ => rfl) scanned
  rw [← bypasses.shownAtoms backward, ← scanAll_eq] at scanned'
  have stored : Shadows (Beside vias) Eq
      (do
        modify fun u => { u with typeMaps := u.typeMaps.insert f.id map }
        let uses ← (shownAtoms f).foldlM (declareAtom f) (∅ : GlobalSet)
        modify fun u => { u with uses := u.uses.insert f.id uses }
        return called : Linking FunctionSet)
      (do
        modify fun u => { u with typeMaps := u.typeMaps.insert f'.id map' }
        let uses ← (shownAtoms f').foldlM (declareAtom f') (∅ : GlobalSet)
        modify fun u => { u with uses := u.uses.insert f'.id uses }
        return called) := by
    rw [bypasses.shownAtoms backward, bypasses.id]
    refine .of_bind_eq (.of_modify fun s s' beside => { beside with typeMaps := fun id i fixed => ?_ }) fun _ =>
      .of_bind_eq (.of_foldlM_filter (fun i member _ uses => ?_) (fun i member hidden uses => ?_) _) fun uses =>
        .of_bind_eq (.of_modify fun s s' beside => { beside with uses := by rw [beside.uses] }) fun _ => .of_pure rfl
    · rw [Std.ExtTreeMap.getElem?_insert, Std.ExtTreeMap.getElem?_insert]
      split
      · rename_i same
        rw [← Std.LawfulEqCmp.eq_of_compare same] at fixed
        exact agree i fixed
      · exact beside.typeMaps id i fixed
    · exact declareAtom_shadowed bypasses (typed i member) backward uses i
    · exact declareAtom_placeholder bypasses
        (bypasses.moved_of_hidden backward (Std.ExtTreeSet.mem_toList.1 member) hidden) uses
  obtain ⟨_, v', ran, rfl, beside⟩ := stored w w' callees v beside h
  rw [scan_eq]
  exact ⟨v', Succeeds.bind_iff.2 ⟨_, w', scanned', ran⟩, beside⟩

/-! ### Linking -/

theorem bypasses_alike : Alike fun f f' => f.Bypasses f' (vias f.id) :=
  fun _ _ bypasses => ⟨bypasses.id, bypasses.name⟩

theorem Beside.paired (beside : Beside vias u u') : Paired (fun f f' => f.Bypasses f' (vias f.id)) u u' :=
  ⟨beside.functions, beside.dependencies⟩

/-- A function that, prepared, bypasses placeholders of another one. -/
structure Detours (vias : FunctionId → Index → Index) (f f' : Function) : Prop where
  id : f'.id = f.id
  prepared : ∀ g, Succeeds Function.prepare f () g →
    ∃ g', Succeeds Function.prepare f' () g' ∧ g.Bypasses g' (vias g.id)

theorem Detours.refl (still : ∀ i, vias f.id i = i) : Detours vias f f := by
  refine ⟨rfl, fun g preparing => ⟨g, preparing, ?_⟩⟩
  rw [(Function.prepared_of_prepare preparing).2.1, funext still]
  exact Function.Bypasses.refl g

theorem detours_bypass (here : vias f.id = via) (bypasses : f.buffer.Bypasses (f.bypass via).buffer via)
    (nonempty : f.buffer.size ≠ 0) : Detours vias f (f.bypass via) := by
  refine ⟨rfl, fun g preparing => ?_⟩
  rw [(Function.prepared_of_prepare preparing).2.1, here]
  exact Function.prepare_bypass nonempty bypasses preparing

section

variable {r r' : Registry}

theorem Beside.addOne (beside : Beside vias u u') (layered : Layered u.aggregates)
    (registered : ∀ id, Option.Rel (Detours vias) (r.get? id) (r'.get? id)) (detours : Detours vias f f')
    {needed : List Function} (h : Succeeds (addOne r f) u needed v) :
    ∃ needed' v', Succeeds (Linkage.addOne r' f') u' needed' v' ∧ List.Forall₂ (Detours vias) needed needed' ∧
      Beside vias v v' := by
  obtain ⟨g, callees, w, preparing, scanning, known, rfl⟩ := addOne_succeeds.1 h
  obtain ⟨g', preparing', bypasses⟩ := detours.prepared g preparing
  obtain ⟨prepared, _, _⟩ := Function.prepared_of_prepare preparing
  obtain ⟨w', scanning', beside⟩ := beside.scan bypasses prepared layered scanning
  obtain ⟨needed', known', pairs⟩ := needed_counterparts registered known
  have contains : ∀ id, w'.contains id = w.contains id := beside.paired.contains
  refine ⟨needed', _, addOne_succeeds.2
    ⟨g', callees, w', preparing', scanning', by simpa only [contains] using known', rfl⟩, pairs, ?_⟩
  exact { beside with
    functions := List.rel_append beside.functions (.cons bypasses .nil)
    dependencies := by rw [beside.dependencies, bypasses.id]
    notes := by rw [beside.notes, bypasses.id, bypasses.name] }

theorem lockstep_detours (registered : ∀ id, Option.Rel (Detours vias) (r.get? id) (r'.get? id)) :
    Lockstep r r' (Detours vias) fun u u' => Coherent u ∧ Beside vias u u' where
  registered := registered
  id _ _ detours := detours.id
  contains _ _ both := both.2.paired.contains
  addOne f f' u u' needed v detours both fresh h := by
    obtain ⟨coherent, beside⟩ := both
    obtain ⟨needed', v', ran, pairs, beside⟩ := beside.addOne coherent.layered registered detours h
    exact ⟨needed', v', ran, pairs, coherent.addOne fresh h, beside⟩
  sort u u' v both h := by
    obtain ⟨coherent, beside⟩ := both
    have coherent' := coherent.sort h
    obtain ⟨items, others, rfl, functions, h'⟩ := beside.paired.sort bypasses_alike h
    exact ⟨_, h', coherent', { beside with functions := functions }⟩

/-- Where placeholders are bypassed in functions of a registry, linking gives units side by side. -/
theorem link_beside (registered : ∀ id, Option.Rel (Detours vias) (r.get? id) (r'.get? id))
    {entries : List FunctionId} (linked : link r entries = .ok u) :
    ∃ u', link r' entries = .ok u' ∧ Beside vias u u' := by
  have start : Beside vias {} {} := ⟨.nil, rfl, fun _ _ _ => rfl, rfl, rfl, rfl, rfl, rfl⟩
  obtain ⟨u', linked', _, beside⟩ := (lockstep_detours registered).link ⟨coherent_fresh, start⟩ linked
  exact ⟨u', linked', beside⟩

end

end Linkage

end ShaderForge
