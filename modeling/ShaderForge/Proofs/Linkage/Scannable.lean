import ShaderForge.Proofs.Linkage.Representation

/-!
When a scan succeeds. That depends on the function alone: whatever unit it is scanned into, its
structs can be registered, and it calls the same functions.
-/

namespace ShaderForge.Linkage

open Buffer Aggregates

/-! ### Registration -/

theorem data?_of_link {b : Buffer} (typed : b.Typed) {head node : Index} {nodes : List Index}
    (chain : b.fieldChain head = .ok nodes) (member : node ∈ nodes) :
    ∃ m ty d, node = .ref m ∧ node ≤ head ∧ b.table node = some ty ∧ ty.data? = some d := by
  obtain ⟨m, k, item, down, rfl, found, order⟩ := (fieldChain_ok_iff.1 chain).1.mem_link node member
  have inside : m < b.types.size := by
    rw [typed.complete]
    exact (Array.getElem?_eq_some_iff.1 found).1
  have known : b.table (.ref m) = some b.types[m] := by
    rw [table_ref, Array.getElem?_eq_getElem inside]
  have ruled := typed.confirmed m _ found
  rw [← table_ref, known] at ruled
  obtain ⟨d, kind, _⟩ := Typing.typeNode_value ruled
  refine ⟨m, _, d, rfl, order, known, ?_⟩
  rcases kind with shape | shape <;> (rw [shape]; rfl)

section

variable {f : Function} {P : Scope → Prop}

theorem register_runs (typed : f.buffer.Typed) (backward : f.buffer.Backward) (fuel k : Nat)
    (enough : k < fuel) {nodes : List Index} (chain : f.buffer.fieldChain (.ref k) = .ok nodes) :
    Runs (fun _ => True) (register f fuel (.ref k)) := by
  induction fuel generalizing k nodes with
  | zero => omega
  | succ fuel ih =>
    rw [register]
    refine Runs.of_get fun s _ => ?_
    split
    · exact Runs.of_pure _
    · refine Runs.of_answer chain (Runs.of_bind (Runs.of_mapM fun node member => ?_) fun types => ?_)
      · obtain ⟨m, ty, d, rfl, order, known, value⟩ := data?_of_link typed chain member
        refine Runs.of_answer (typed.typeOf_ok_iff.2 known) ?_
        rw [value]
        cases d with
        | prim p => exact Runs.of_pure _
        | struct nested =>
          have everything : f.buffer.UseClosed fun _ => True := fun _ _ _ _ _ _ => trivial
          obtain ⟨j, rfl, below, _, fields, inner⟩ :=
            typed.struct_head backward everything m trivial known (Ty.struct?_of_data? value)
          rw [Index.ref_le_ref] at order
          exact Runs.of_bind (ih j (by omega) inner) fun n => Runs.of_pure _
      · refine Runs.of_bind ?_ fun names => Runs.of_bind ?_ fun n =>
          Runs.of_bind (Runs.of_modify fun _ _ => trivial) fun _ => Runs.of_pure _
        · unfold fieldNames
          simp only
          split
          · exact Runs.of_pure _
          · exact Runs.of_bind (Runs.of_modify fun _ _ => trivial) fun _ => Runs.of_pure _
        · unfold intern
          refine Runs.of_get fun s _ => ?_
          split
          · exact Runs.of_pure _
          · exact fun s _ => ⟨_, _, Succeeds.bind_iff.2 ⟨⟨⟩, _, Succeeds.of_set.2 rfl,
              Succeeds.of_pure.2 ⟨rfl, rfl⟩⟩, trivial⟩

end

/-! ### Types -/

def Resolves (f : Function) (u : Linkage) : Prop :=
  ∀ i ∈ visibleAtoms f.buffer, ∀ ty, f.buffer.table i = some ty → ∃ linked, u.resolve f.id ty = .ok linked

theorem Resolves.of_frame {f : Function} {u v : Linkage} (resolves : Resolves f u) (frame : Frame u v) :
    Resolves f v := by
  intro i shown ty known
  obtain ⟨linked, answer⟩ := resolves i shown ty known
  refine ⟨linked, ?_⟩
  unfold resolve resolveData aggregateIndex at answer ⊢
  rw [frame.typeMaps]
  exact answer

theorem resolve_plain (u : Linkage) (id : FunctionId) {ty : Ty} (plain : ty.struct? = none) :
    ∃ linked, u.resolve id ty = .ok linked := by
  unfold Ty.struct? at plain
  unfold resolve
  cases shape : ty.bare with
  | data d | array d size | reference d key =>
    rw [shape] at plain
    cases d with
    | prim p => exact ⟨_, rfl⟩
    | struct head => cases plain
  | field base next => exact (Ty.bare_ne_field ty base next shape).elim
  | _ => exact ⟨_, rfl⟩

theorem Mapped.resolves {f : Function} {u : Linkage} {map : TypeMap} (prepared : f.Prepared)
    (known : u.typeMaps[f.id]? = some map) (mapped : Mapped f u.aggregates map) : Resolves f u := by
  intro i shown ty found
  cases carried : ty.struct? with
  | none => exact resolve_plain u f.id carried
  | some head =>
    obtain ⟨a, there⟩ := (mapped.entered i shown).present
    cases i with
    | null => cases there
    | ref k =>
      have typed := prepared.typed (by
        have := (Array.getElem?_eq_some_iff.1 there).1
        unfold size
        omega)
      obtain ⟨_, n, _, _, _, _, _, _, entry⟩ := mapped.known typed prepared.backward shown found carried
      obtain ⟨linked, answer, _⟩ := resolve_struct carried ((aggregateIndex_ok_iff known).2 entry)
      exact ⟨linked, answer⟩

theorem resolve_data? {u : Linkage} {id : FunctionId} {ty : Ty} {d : Data} {linked : LinkedTy}
    (value : ty.data? = some d) (given : d ≠ .prim .nil) (h : u.resolve id ty = .ok linked) :
    ∃ base, linked.data? = some base := by
  have shape : ty.bare = .data d := by
    unfold Ty.data? at value
    split at value
    · rename_i shape
      cases value
      exact shape
    · cases value
  unfold resolve at h
  rw [shape] at h
  cases d with
  | prim p =>
    cases h
    have other : p ≠ .nil := fun same => given (by rw [same])
    exact ⟨.prim p, by simp [LinkedTy.prim, other, LinkedTy.data?]⟩
  | struct head =>
    obtain ⟨base, _, h⟩ := Except.bind_ok h
    cases h
    exact ⟨base, rfl⟩

/-! ### Scanning -/

/-- Qualifiers that wrap a resource. -/
def wraps : Qualifier → Bool
  | .readOnly | .writeOnly | .scalarLayout | .format _ => true
  | _ => false

/-- What a function needs to be scanned: atoms for all it shows, sizes in its layout settings, a
resource under its modifiers and a base for its references. -/
structure Scannable (f : Function) : Prop where
  present : ∀ i ∈ visibleAtoms f.buffer, ∃ a, f.buffer.get? i = some a
  layouts : ∀ (n : Nat) (code : Intrinsic) (args : Index), .ref n ∈ visibleAtoms f.buffer →
    f.buffer.atoms[n]? = some (.intrinsic code args) → code.isLayout = true →
    ∀ c : Control, ∃ answer, c.apply f.buffer (.ref n) code args = .ok answer
  resources : ∀ (n : Nat) (underlying : Index) (kind : Qualifier) (number : Int32),
    .ref n ∈ visibleAtoms f.buffer → f.buffer.atoms[n]? = some (.qualifier underlying kind number) →
    wraps kind = true → ∃ answer, resourceOf f.buffer underlying = .ok answer
  bases : ∀ (n : Nat) (underlying : Index) (number : Int32), .ref n ∈ visibleAtoms f.buffer →
    f.buffer.atoms[n]? = some (.qualifier underlying .bufferReference number) →
    ∃ ty d, f.buffer.table underlying = some ty ∧ ty.data? = some d ∧ d ≠ .prim .nil

section

variable {f : Function}

theorem onGlobals_runs (g : Globals → Globals × List Warning) : Runs (Resolves f) (onGlobals g) := by
  intro u resolves
  have ran : Succeeds (onGlobals g) u ⟨⟩ (outcome (onGlobals g) u).2 := rfl
  exact ⟨⟨⟩, _, ran, resolves.of_frame (Quiet.of_confined (onGlobals_confined g) _ _ _ ran)⟩

theorem resolving_runs {i : Index} {ty : Ty} (typed : f.buffer.Typed)
    (used : i = .null ∨ i ∈ visibleAtoms f.buffer) (known : f.buffer.table i = some ty)
    {α : Type} {g : LinkedTy → Linking α}
    (later : ∀ (u : Linkage) (linked : LinkedTy), u.resolve f.id ty = .ok linked → Runs (Resolves f) (g linked)) :
    Runs (Resolves f) (resolving f i >>= g) := by
  unfold resolving ask
  rw [bind_assoc]
  have answer : LinkFault.lift (f.buffer.typeOf i) = .ok ty := by
    rw [typed.typeOf_ok_iff.2 known]
    rfl
  refine Runs.of_answer answer ?_
  rw [bind_assoc]
  refine Runs.of_get fun u resolves => ?_
  obtain ⟨linked, resolved⟩ : ∃ linked, u.resolve f.id ty = .ok linked := by
    rcases used with rfl | shown
    · rw [table_null, Option.some.injEq] at known
      exact ⟨.nil, by rw [← known]; rfl⟩
    · exact resolves i shown ty known
  exact Runs.of_answer resolved (later u linked resolved)

theorem ask_runs {α β : Type} {P : Linkage → Prop} {answer : Except Fault α} {a : α} (known : answer = .ok a)
    {g : α → Linking β} (later : Runs P (g a)) : Runs P (ask answer >>= g) := by
  refine Runs.of_answer (a := a) ?_ later
  rw [known]
  rfl

theorem exists_type (typed : f.buffer.Typed) (scannable : Scannable f) {i : Index}
    (used : i = .null ∨ i ∈ visibleAtoms f.buffer) : ∃ ty, f.buffer.table i = some ty := by
  rcases used with rfl | shown
  · exact ⟨.nil, table_null _⟩
  · obtain ⟨a, there⟩ := scannable.present i shown
    cases i with
    | null => cases there
    | ref n =>
      have inside : n < f.buffer.types.size := by
        rw [typed.complete]
        exact (Array.getElem?_eq_some_iff.1 there).1
      exact ⟨_, by rw [table_ref, Array.getElem?_eq_getElem inside]⟩

theorem declare_runs (prepared : f.Prepared) (typed : f.buffer.Typed) (scannable : Scannable f) {n : Nat}
    {underlying : Index} {kind : Qualifier} {number : Int32} (shown : .ref n ∈ visibleAtoms f.buffer)
    (found : f.buffer.atoms[n]? = some (.qualifier underlying kind number)) :
    Runs (Resolves f) (declare f (.ref n) underlying kind number.toInt) := by
  have under : underlying = .null ∨ underlying ∈ visibleAtoms f.buffer := by
    cases underlying with
    | null => exact Or.inl rfl
    | ref k =>
      exact Or.inr (visibleAtoms_useClosed prepared.backward n _ shown found _
        (Atom.mem_operands.2 ⟨rfl, Or.inl rfl⟩))
  obtain ⟨own, known⟩ := exists_type typed scannable (Or.inr shown)
  obtain ⟨ty, known'⟩ := exists_type typed scannable under
  unfold declare
  simp only
  split
  case h_1 => exact Runs.of_bind (onGlobals_runs _) fun _ => Runs.of_pure _
  case h_2 | h_3 =>
    exact resolving_runs typed (Or.inr shown) known fun _ _ _ =>
      Runs.of_bind (onGlobals_runs _) fun _ => Runs.of_pure _
  case h_4 | h_5 | h_6 | h_7 | h_8 =>
    refine resolving_runs typed (Or.inr shown) known fun _ _ _ => ?_
    split
    · exact Runs.of_bind (onGlobals_runs _) fun _ => Runs.of_pure _
    · exact Runs.of_pure _
  case h_9 | h_10 => exact Runs.of_bind (onGlobals_runs _) fun _ => Runs.of_pure _
  case h_11 | h_12 | h_13 | h_14 =>
    obtain ⟨answer, resource⟩ := scannable.resources n underlying _ number shown found rfl
    exact ask_runs resource (Runs.of_bind (onGlobals_runs _) fun _ => Runs.of_pure _)
  case h_15 | h_16 | h_17 | h_19 =>
    exact resolving_runs typed under known' fun _ _ _ =>
      Runs.of_bind (onGlobals_runs _) fun _ => Runs.of_pure _
  case h_18 =>
    obtain ⟨ty, d, known, value, given⟩ := scannable.bases n underlying number shown found
    refine resolving_runs typed under known fun u linked resolved => ?_
    obtain ⟨base, shape⟩ := resolve_data? value given resolved
    rw [shape]
    exact Runs.of_bind (onGlobals_runs _) fun _ => Runs.of_pure _
  case h_20 =>
    split
    · split
      · exact Runs.of_bind (onGlobals_runs _) fun _ => Runs.of_pure _
      · exact Runs.of_pure _
    · exact Runs.of_pure _
  all_goals exact Runs.of_pure _

theorem scanAtom_runs (typed : f.buffer.Typed) (backward : f.buffer.Backward) (scannable : Scannable f)
    (map : TypeMap) (callees : FunctionSet) {i : Index} (shown : i ∈ visibleAtoms f.buffer) :
    Runs (fun _ => True) (scanAtom f map callees i) := by
  obtain ⟨ty, known⟩ := exists_type typed scannable (Or.inr shown)
  obtain ⟨a, there⟩ := scannable.present i shown
  have effect : ∀ map, Runs (fun _ => True) (scanEffect f callees i map) := by
    intro map
    have answer : f.buffer.atom i = .ok a := atom_ok_iff.2 there
    refine ask_runs answer ?_
    split
    · exact Runs.of_pure _
    · rename_i code args
      simp only
      split
      · rename_i layout
        refine Runs.of_get fun u _ => ?_
        obtain ⟨n, rfl⟩ : ∃ n, i = .ref n := by
          cases i with
          | null => cases there
          | ref n => exact ⟨n, rfl⟩
        obtain ⟨⟨control, ws⟩, applied⟩ := scannable.layouts n code args shown there layout u.control
        exact ask_runs applied (Runs.of_bind (Runs.of_modify fun _ _ => trivial) fun _ =>
          Runs.of_bind (Runs.of_modify fun _ _ => trivial) fun _ => Runs.of_pure _)
      · exact Runs.of_pure _
    · exact Runs.of_pure _
  rw [scanAtom_eq]
  refine ask_runs (typed.typeOf_ok_iff.2 known) ?_
  split
  · rename_i head carried
    refine Runs.of_bind ?_ fun (n, entered) => effect _
    obtain ⟨n, rfl⟩ : ∃ n, i = .ref n := by
      cases i with
      | null => cases there
      | ref n => exact ⟨n, rfl⟩
    have everything : f.buffer.UseClosed fun _ => True := fun _ _ _ _ _ _ => trivial
    obtain ⟨m, rfl, below, _, nodes, chain⟩ := typed.struct_head backward everything n trivial known carried
    have inside : n < f.buffer.size := (Array.getElem?_eq_some_iff.1 there).1
    intro u _
    obtain ⟨k, s, ran, _⟩ :=
      register_runs typed backward (f.buffer.size + 1) m (by omega) chain (scope u map) trivial
    exact ⟨(k, s.map), _, registering_succeeds.2 ⟨s, ran, rfl, rfl⟩, trivial⟩
  · exact effect map

theorem scan_runs (prepared : f.Prepared) (scannable : Scannable f) {u : Linkage}
    (layered : Layered u.aggregates) : ∃ callees v, Succeeds (scan f) u callees v := by
  have typed : ∀ i ∈ shownAtoms f, f.buffer.Typed := by
    intro i member
    obtain ⟨a, there⟩ := scannable.present i (Std.ExtTreeSet.mem_toList.1 member)
    cases i with
    | null => cases there
    | ref n =>
      refine prepared.typed ?_
      have := (Array.getElem?_eq_some_iff.1 there).1
      unfold size
      omega
  have first : Runs (fun _ => True) (scanAll f) :=
    Runs.of_foldlM (fun i member (map, callees) => scanAtom_runs (typed i member) prepared.backward
      scannable map callees (Std.ExtTreeSet.mem_toList.1 member)) _
  obtain ⟨⟨map, callees⟩, w, scanned, _⟩ := first u trivial
  obtain ⟨_, _, mapped⟩ := scanAll_sound prepared layered scanned
  have resolves : Resolves f { w with typeMaps := w.typeMaps.insert f.id map } :=
    Mapped.resolves prepared Std.ExtTreeMap.getElem?_insert_self mapped
  have second : Runs (Resolves f) ((shownAtoms f).foldlM (declareAtom f) (∅ : GlobalSet)) := by
    refine Runs.of_foldlM (fun i member uses => ?_) _
    have shown : i ∈ visibleAtoms f.buffer := Std.ExtTreeSet.mem_toList.1 member
    obtain ⟨a, there⟩ := scannable.present i shown
    refine ask_runs (atom_ok_iff.2 there) ?_
    split
    · rename_i underlying kind number
      cases i with
      | null => cases there
      | ref n =>
        refine Runs.of_bind (declare_runs prepared (typed _ member) scannable shown there) fun named => ?_
        split <;> exact Runs.of_pure _
    · exact Runs.of_pure _
  obtain ⟨uses, w', declared, _⟩ := second _ resolves
  rw [scan_eq]
  exact ⟨callees, _, Succeeds.bind_iff.2 ⟨_, _, scanned, Succeeds.bind_iff.2 ⟨⟨⟩, _,
    Succeeds.of_modify.2 rfl, Succeeds.bind_iff.2 ⟨uses, w', declared, Succeeds.bind_iff.2 ⟨⟨⟩, _,
      Succeeds.of_modify.2 rfl, Succeeds.of_pure.2 ⟨rfl, rfl⟩⟩⟩⟩⟩⟩

/-! ### What a scan tells -/

/-- Whether a layout setting is one plays no part in what was set before. -/
theorem apply_any {b : Buffer} {i args : Index} {code : Intrinsic} {c : Control}
    {answer : Control × List Warning} (h : c.apply b i code args = .ok answer) (d : Control) :
    ∃ answer, d.apply b i code args = .ok answer := by
  unfold Control.apply at h ⊢
  obtain ⟨items, listed, h⟩ := Except.bind_ok h
  obtain ⟨sizes, given, h⟩ := Except.bind_ok h
  rw [listed, Except.ok_bind, given, Except.ok_bind]
  cases code with
  | layoutLocalSize =>
    match sizes with
    | [x] | [x, y] | [x, y, z] => exact ⟨_, rfl⟩
    | [] | _ :: _ :: _ :: _ :: _ => cases h
  | layoutMeshShaderSizes =>
    match sizes with
    | [x, y] => exact ⟨_, rfl⟩
    | [] | [_] | _ :: _ :: _ :: _ => cases h
  | _ => cases h

theorem scanEffect_of_scanAtom {map map' : TypeMap} {callees callees' : FunctionSet} {i : Index}
    {u v : Linkage} (h : Succeeds (scanAtom f map callees i) u (map', callees') v) :
    ∃ entered w, Succeeds (scanEffect f callees i entered) w (map', callees') v := by
  rw [scanAtom_eq] at h
  obtain ⟨ty, w, _, h⟩ := Succeeds.bind_iff.1 h
  split at h
  · obtain ⟨⟨n, entered⟩, w', _, h⟩ := Succeeds.bind_iff.1 h
    exact ⟨_, w', h⟩
  · exact ⟨_, w, h⟩

theorem data?_of_resolve {u : Linkage} {id : FunctionId} {ty : Ty} {linked : LinkedTy} {base : LinkedData}
    (h : u.resolve id ty = .ok linked) (value : linked.data? = some base) :
    ∃ d, ty.data? = some d ∧ d ≠ .prim .nil := by
  unfold resolve at h
  unfold Ty.data?
  cases shape : ty.bare with
  | data d =>
    refine ⟨d, rfl, ?_⟩
    rintro rfl
    rw [shape] at h
    cases h
    cases value
  | field base next => exact (Ty.bare_ne_field ty base next shape).elim
  | array d size | reference d key =>
    rw [shape] at h
    obtain ⟨_, _, h⟩ := Except.bind_ok h
    cases h
    cases value
  | _ =>
    rw [shape] at h
    cases h
    cases value

theorem scannable_of_scan (prepared : f.Prepared) {u v : Linkage} {callees : FunctionSet}
    (h : Succeeds (scan f) u callees v) : Scannable f := by
  rw [scan_eq] at h
  obtain ⟨⟨map, called⟩, w, scanned, h⟩ := Succeeds.bind_iff.1 h
  obtain ⟨_, _, _, h⟩ := Succeeds.bind_iff.1 h
  obtain ⟨uses, w', declared, _⟩ := Succeeds.bind_iff.1 h
  have scans := Succeeds.foldlM_each scanned
  have declares := Succeeds.foldlM_each declared
  have present : ∀ i ∈ visibleAtoms f.buffer, ∃ a, f.buffer.get? i = some a := by
    intro i shown
    obtain ⟨_, s, _, t, ran⟩ := scans i (Std.ExtTreeSet.mem_toList.2 shown)
    obtain ⟨_, _, _, ⟨a, answer⟩, _⟩ := scanAtom_succeeds ran
    exact ⟨a, atom_ok_iff.1 answer⟩
  have named : ∀ (n : Nat) (underlying : Index) (kind : Qualifier) (number : Int32),
      .ref n ∈ visibleAtoms f.buffer → f.buffer.atoms[n]? = some (.qualifier underlying kind number) →
      ∃ s g t, Succeeds (declare f (.ref n) underlying kind number.toInt) s g t := by
    intro n underlying kind number shown found
    obtain ⟨_, s, _, t, ran⟩ := declares _ (Std.ExtTreeSet.mem_toList.2 shown)
    obtain ⟨a, _, asked, ran⟩ := Succeeds.bind_iff.1 ran
    obtain ⟨answer, rfl⟩ := ask_succeeds.1 asked
    have here : f.buffer.atom (.ref n) = .ok _ := atom_ok_iff.2 found
    rw [here, Except.ok.injEq] at answer
    subst answer
    obtain ⟨g, t', ran, _⟩ := Succeeds.bind_iff.1 ran
    exact ⟨s, g, t', ran⟩
  refine ⟨present, ?_, ?_, ?_⟩
  · intro n code args shown found layout c
    obtain ⟨⟨map, callees⟩, s, ⟨map', callees'⟩, t, ran⟩ := scans _ (Std.ExtTreeSet.mem_toList.2 shown)
    obtain ⟨map, s, effect⟩ := scanEffect_of_scanAtom ran
    unfold scanEffect at effect
    obtain ⟨a, _, asked, effect⟩ := Succeeds.bind_iff.1 effect
    obtain ⟨answer, rfl⟩ := ask_succeeds.1 asked
    have here : f.buffer.atom (.ref n) = .ok _ := atom_ok_iff.2 found
    rw [here, Except.ok.injEq] at answer
    subst answer
    simp only [layout, ↓reduceIte] at effect
    obtain ⟨_, _, read, effect⟩ := Succeeds.bind_iff.1 effect
    obtain ⟨answer, _, asked, _⟩ := Succeeds.bind_iff.1 effect
    exact apply_any (ask_succeeds.1 asked).1 c
  · intro n underlying kind number shown found modifies
    obtain ⟨s, g, t, ran⟩ := named n underlying kind number shown found
    unfold declare at ran
    cases kind <;> cases modifies
    all_goals
      obtain ⟨answer, _, asked, _⟩ := Succeeds.bind_iff.1 ran
      exact ⟨answer, (ask_succeeds.1 asked).1⟩
  · intro n underlying number shown found
    obtain ⟨s, g, t, ran⟩ := named n underlying .bufferReference number shown found
    unfold declare at ran
    simp only at ran
    obtain ⟨linked, _, asked, ran⟩ := Succeeds.bind_iff.1 ran
    unfold resolving at asked
    obtain ⟨ty, _, asked, resolved⟩ := Succeeds.bind_iff.1 asked
    obtain ⟨_, _, _, resolved⟩ := Succeeds.bind_iff.1 resolved
    have inside : n < f.buffer.size := (Array.getElem?_eq_some_iff.1 found).1
    have typed := prepared.typed (by omega)
    cases value : linked.data? with
    | none =>
      rw [value] at ran
      exact (Succeeds.of_throw ran).elim
    | some base =>
      obtain ⟨d, shape, given⟩ := data?_of_resolve (Succeeds.of_answer.1 resolved).1 value
      exact ⟨ty, d, typed.typeOf_ok_iff.1 (ask_succeeds.1 asked).1, shape, given⟩

/-- A set of exactly the functions that visible atoms call. -/
def Calls (f : Function) (callees : FunctionSet) : Prop :=
  ∀ id, id ∈ callees ↔ ∃ i ∈ visibleAtoms f.buffer, ∃ ty args, f.buffer.get? i = some (.call id ty args)

theorem Calls.unique {callees others : FunctionSet} (first : Calls f callees) (second : Calls f others) :
    callees = others :=
  Std.ExtTreeSet.ext_mem fun id => (first id).trans (second id).symm

theorem scanAtom_calls {map map' : TypeMap} {callees callees' : FunctionSet} {i : Index}
    {u v : Linkage} (h : Succeeds (scanAtom f map callees i) u (map', callees') v) :
    (callees' = callees ∧ ∀ id ty args, f.buffer.get? i ≠ some (.call id ty args)) ∨
      ∃ id ty args, f.buffer.get? i = some (.call id ty args) ∧ callees' = callees.insert id := by
  obtain ⟨entered, w, h⟩ := scanEffect_of_scanAtom h
  unfold scanEffect at h
  obtain ⟨a, _, asked, h⟩ := Succeeds.bind_iff.1 h
  obtain ⟨answer, rfl⟩ := ask_succeeds.1 asked
  have found := atom_ok_iff.1 answer
  rw [found]
  split at h
  · rename_i id ty args
    obtain ⟨same, _⟩ := Succeeds.of_pure.1 h
    exact Or.inr ⟨id, ty, args, rfl, (congrArg Prod.snd same).symm⟩
  · rename_i code args
    have kept : callees' = callees := by
      simp only at h
      split at h
      · obtain ⟨_, _, _, h⟩ := Succeeds.bind_iff.1 h
        obtain ⟨⟨control, ws⟩, _, _, h⟩ := Succeeds.bind_iff.1 h
        obtain ⟨_, _, _, h⟩ := Succeeds.bind_iff.1 h
        obtain ⟨_, _, _, h⟩ := Succeeds.bind_iff.1 h
        exact (congrArg Prod.snd (Succeeds.of_pure.1 h).1).symm
      · exact (congrArg Prod.snd (Succeeds.of_pure.1 h).1).symm
    exact Or.inl ⟨kept, by simp⟩
  · rename_i other _
    exact Or.inl ⟨(congrArg Prod.snd (Succeeds.of_pure.1 h).1).symm, fun id ty args same =>
      other id ty args (Option.some.inj same)⟩

theorem scanAtoms_calls {items : List Index} {map map' : TypeMap} {callees callees' : FunctionSet}
    {u v : Linkage}
    (h : Succeeds (items.foldlM (fun (map, callees) i => scanAtom f map callees i)
      (map, callees)) u (map', callees') v) :
    (∀ id, id ∈ callees' ↔ id ∈ callees ∨
      ∃ i ∈ items, ∃ ty args, f.buffer.get? i = some (.call id ty args)) ∧
      callees'.size ≤ callees.size + items.length := by
  induction items generalizing map callees u with
  | nil =>
    obtain ⟨same, rfl⟩ := Succeeds.of_pure.1 h
    cases same
    exact ⟨fun id => by simp, Nat.le_refl _⟩
  | cons i rest ih =>
    rw [List.foldlM_cons] at h
    obtain ⟨⟨map₁, callees₁⟩, w, first, h⟩ := Succeeds.bind_iff.1 h
    obtain ⟨members, size⟩ := ih h
    rcases scanAtom_calls first with ⟨rfl, none⟩ | ⟨id', ty', args', found, rfl⟩
    · refine ⟨fun id => ?_, by rw [List.length_cons]; omega⟩
      rw [members id]
      simp [none]
    · refine ⟨fun id => ?_, ?_⟩
      · rw [members id, Std.ExtTreeSet.mem_insert]
        simp only [List.mem_cons, exists_eq_or_imp, found, Option.some.injEq, Atom.call.injEq]
        constructor
        · rintro ((same | member) | later)
          · have here : id' = id := by simpa using same
            exact Or.inr (Or.inl ⟨ty', args', here, rfl, rfl⟩)
          · exact Or.inl member
          · exact Or.inr (Or.inr later)
        · rintro (member | ⟨ty, args, rfl, _⟩ | later)
          · exact Or.inl (Or.inr member)
          · exact Or.inl (Or.inl (by simp))
          · exact Or.inr later
      · have step : (callees.insert id').size ≤ callees.size + 1 := Std.ExtTreeSet.size_insert_le
        rw [List.length_cons]
        omega

theorem scan_calls {u v : Linkage} {callees : FunctionSet} (h : Succeeds (scan f) u callees v) :
    Calls f callees ∧ callees.size ≤ (shownAtoms f).length := by
  rw [scan_eq] at h
  obtain ⟨⟨map, called⟩, w, scanned, h⟩ := Succeeds.bind_iff.1 h
  obtain ⟨_, _, _, h⟩ := Succeeds.bind_iff.1 h
  obtain ⟨_, _, _, h⟩ := Succeeds.bind_iff.1 h
  obtain ⟨_, _, _, h⟩ := Succeeds.bind_iff.1 h
  obtain ⟨rfl, _⟩ := Succeeds.of_pure.1 h
  obtain ⟨members, size⟩ := scanAtoms_calls scanned
  refine ⟨fun id => ?_, by simpa using size⟩
  rw [members id]
  simp [shownAtoms, Std.ExtTreeSet.mem_toList]

theorem shownAtoms_length (scannable : Scannable f) : (shownAtoms f).length ≤ f.buffer.size := by
  have nodup : (shownAtoms f).Nodup := by
    have ascending : (shownAtoms f).Pairwise (· < ·) :=
      Std.ExtTreeSet.ordered_toList.imp Index.compare_eq_lt.1
    exact ascending.imp fun {i j} (below : i < j) (same : i = j) => Nat.lt_irrefl j.rank (same ▸ below)
  have among : shownAtoms f ⊆ (List.range f.buffer.size).map Index.ref := by
    intro i member
    obtain ⟨a, there⟩ := scannable.present i (Std.ExtTreeSet.mem_toList.1 member)
    cases i with
    | null => cases there
    | ref n =>
      exact List.mem_map_of_mem (List.mem_range.2 (Array.getElem?_eq_some_iff.1 there).1)
  simpa using nodup.length_le_of_subset among

end

end ShaderForge.Linkage
