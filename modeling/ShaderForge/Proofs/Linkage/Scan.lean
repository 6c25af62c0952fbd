import ShaderForge.Proofs.Linkage.Registration

/-!
Scanning a function. Visible atoms come in ascending order, so when an atom is reached every
struct-typed atom before it has been entered; the rest of a scan leaves the aggregates alone.
-/

namespace ShaderForge.Linkage

open Buffer Aggregates

/-- Units that differ in globals, layout and notes only. -/
structure Frame (u v : Linkage) : Prop where
  functions : v.functions = u.functions
  aggregates : v.aggregates = u.aggregates
  typeMaps : v.typeMaps = u.typeMaps
  dependencies : v.dependencies = u.dependencies

theorem Frame.refl (u : Linkage) : Frame u u := ⟨rfl, rfl, rfl, rfl⟩

theorem Frame.trans {u v w : Linkage} (first : Frame u v) (second : Frame v w) : Frame u w :=
  ⟨second.functions.trans first.functions, second.aggregates.trans first.aggregates,
    second.typeMaps.trans first.typeMaps, second.dependencies.trans first.dependencies⟩

/-- Units of which the second has more aggregates. -/
structure Grown (u v : Linkage) : Prop where
  functions : v.functions = u.functions
  typeMaps : v.typeMaps = u.typeMaps
  dependencies : v.dependencies = u.dependencies
  kept : ∀ (n : Nat) (a : Aggregate), u.aggregates[n]? = some a → v.aggregates[n]? = some a

theorem Frame.grown {u v : Linkage} (frame : Frame u v) : Grown u v :=
  ⟨frame.functions, frame.typeMaps, frame.dependencies,
    fun n _ found => (congrArg (·[n]?) frame.aggregates).trans found⟩

theorem Grown.trans {u v w : Linkage} (first : Grown u v) (second : Grown v w) : Grown u w :=
  ⟨second.functions.trans first.functions, second.typeMaps.trans first.typeMaps,
    second.dependencies.trans first.dependencies,
    fun n a found => second.kept n a (first.kept n a found)⟩

def Quiet {α : Type} (x : Linking α) : Prop :=
  ∀ (u v : Linkage) (a : α), Succeeds x u a v → Frame u v

def untouched (u : Linkage) :
    List Function × Array Aggregate × Std.ExtTreeMap FunctionId TypeMap × CallGraph :=
  (u.functions, u.aggregates, u.typeMaps, u.dependencies)

/-- A fault of one function, not of the way functions call each other. -/
def Local (e : LinkFault) : Prop := ∀ names, e ≠ .cycle names

theorem local_of_lift {α : Type} (answer : Except Fault α) (e : LinkFault)
    (failed : LinkFault.lift answer = .error e) : Local e := by
  rintro names rfl
  cases answer <;> cases failed

theorem local_of_resolve (u : Linkage) (id : FunctionId) (ty : Ty) (e : LinkFault)
    (failed : u.resolve id ty = .error e) : Local e := by
  have data : ∀ (d : Data) (k : LinkedData → LinkedTy),
      (do return k (← u.resolveData id d) : Except LinkFault LinkedTy) = .error e → Local e := by
    rintro d k failed names rfl
    cases d with
    | prim => cases failed
    | struct head =>
      simp only [resolveData, aggregateIndex] at failed
      split at failed <;> cases failed
  unfold resolve at failed
  split at failed
  all_goals first
    | exact data _ _ failed
    | cases failed

theorem Quiet.of_confined {α : Type} {x : Linking α} (confined : Confined untouched Local x) : Quiet x := by
  intro u v a h
  have kept := confined.keeps u
  rw [show outcome x u = (.ok a, v) from h] at kept
  simp only [untouched, Prod.mk.injEq] at kept
  exact ⟨kept.1, kept.2.1, kept.2.2.1, kept.2.2.2⟩

theorem ask_confined {α τ : Type} {view : Linkage → τ} (answer : Except Fault α) :
    Confined view Local (ask answer) :=
  .of_answer (local_of_lift answer)

theorem note_confined (ns : List Note) : Confined untouched Local (note ns) := .of_modify fun _ => rfl

theorem onGlobals_confined (g : Globals → Globals × List Warning) : Confined untouched Local (onGlobals g) :=
  .of_bind .of_get fun _ => .of_bind (.of_modify fun _ => rfl) fun _ => note_confined _

theorem resolving_confined {τ : Type} {view : Linkage → τ} (f : Function) (i : Index) :
    Confined view Local (resolving f i) :=
  .of_bind (ask_confined _) fun _ => .of_bind .of_get fun _ => .of_answer (local_of_resolve _ _ _)

theorem declare_confined (f : Function) (i underlying : Index) (kind : Qualifier) (number : Int) :
    Confined untouched Local (declare f i underlying kind number) := by
  unfold declare
  simp only
  split
  case h_1 => exact .of_bind (onGlobals_confined _) fun _ => .of_pure _
  case h_2 | h_3 =>
    exact .of_bind (resolving_confined _ _) fun _ => .of_bind (onGlobals_confined _) fun _ => .of_pure _
  case h_4 | h_5 | h_6 | h_7 | h_8 =>
    refine .of_bind (resolving_confined _ _) fun _ => ?_
    split
    · exact .of_bind (onGlobals_confined _) fun _ => .of_pure _
    · exact .of_pure _
  case h_9 | h_10 => exact .of_bind (onGlobals_confined _) fun _ => .of_pure _
  case h_11 | h_12 | h_13 | h_14 =>
    exact .of_bind (ask_confined _) fun _ => .of_bind (onGlobals_confined _) fun _ => .of_pure _
  case h_15 | h_16 | h_17 | h_19 =>
    exact .of_bind (resolving_confined _ _) fun _ => .of_bind (onGlobals_confined _) fun _ => .of_pure _
  case h_18 =>
    refine .of_bind (resolving_confined _ _) fun _ => ?_
    split
    · exact .of_throw fun _ same => nomatch same
    · exact .of_bind (onGlobals_confined _) fun _ => .of_pure _
  case h_20 =>
    split
    · split
      · exact .of_bind (onGlobals_confined _) fun _ => .of_pure _
      · exact .of_pure _
    · exact .of_pure _
  all_goals exact .of_pure _

/-! ### Struct-typed atoms -/

/-- The unit as registration sees it, with the map of the function at hand. -/
def scope (u : Linkage) (map : TypeMap) : Scope :=
  { entries := u.aggregates, map, notes := u.notes }

theorem ask_succeeds {α : Type} {answer : Except Fault α} {u v : Linkage} {a : α} :
    Succeeds (ask answer) u a v ↔ answer = .ok a ∧ u = v := by
  unfold ask
  rw [Succeeds.of_answer]
  cases answer <;> simp [LinkFault.lift]

theorem registering_succeeds {f : Function} {head : Index} {map map' : TypeMap} {n : Nat}
    {u v : Linkage} : Succeeds (registering f head map) u (n, map') v ↔
      ∃ t, Succeeds (registerIn f head) (scope u map) n t ∧ t.map = map' ∧
        v = { u with aggregates := t.entries, notes := t.notes } := by
  have opened : outcome (registering f head map) u =
      (LinkFault.lift ((outcome (registerIn f head) (scope u map)).1.map
        (·, (outcome (registerIn f head) (scope u map)).2.map)),
        { u with
          aggregates := (outcome (registerIn f head) (scope u map)).2.entries
          notes := (outcome (registerIn f head) (scope u map)).2.notes }) := rfl
  unfold Succeeds
  rw [opened]
  generalize outcome (registerIn f head) (scope u map) = result
  obtain ⟨answer, t⟩ := result
  cases answer with
  | error e => simp [LinkFault.lift, Except.map]
  | ok m =>
    simp only [Except.map, LinkFault.lift, Prod.mk.injEq, Except.ok.injEq]
    constructor
    · rintro ⟨⟨rfl, rfl⟩, rfl⟩
      exact ⟨t, ⟨rfl, rfl⟩, rfl, rfl⟩
    · rintro ⟨_, ⟨rfl, rfl⟩, rfl, rfl⟩
      exact ⟨⟨rfl, rfl⟩, rfl⟩

/-- A visible address is one of an atom, and a struct-typed atom has been entered. -/
structure Entered (f : Function) (map : TypeMap) (i : Index) : Prop where
  present : ∃ a, f.buffer.get? i = some a
  entry : ∀ ty head, f.buffer.table i = some ty → ty.struct? = some head → ∃ n, map[i]? = some n

/-- A scan under way: what it has made is good, and every visible atom is entered or to come. -/
structure Scanned (f : Function) (rest : List Index) (u : Linkage) (map : TypeMap) : Prop where
  faithful : Faithful f (scope u map)
  layered : Layered u.aggregates
  entered : ∀ i ∈ visibleAtoms f.buffer, i ∈ rest ∨ Entered f map i

/-- What an atom adds once its aggregate is entered: its call and its layout setting. -/
def scanEffect (f : Function) (callees : FunctionSet) (i : Index) (map : TypeMap) :
    Linking (TypeMap × FunctionSet) := do
  match ← ask (f.buffer.atom i) with
  | .call callee _ _ => return (map, callees.insert callee)
  | .intrinsic code args =>
    if code.isLayout then
      let (control, ws) ← ask ((← get).control.apply f.buffer i code args)
      modify ({ · with control })
      warn ws
    return (map, callees)
  | _ => return (map, callees)

theorem scanAtom_eq (f : Function) (map : TypeMap) (callees : FunctionSet) (i : Index) :
    scanAtom f map callees i = (do
      let ty ← ask (f.buffer.typeOf i)
      match ty.struct? with
      | some head => do
        let (n, entered) ← registering f head map
        scanEffect f callees i (entered.insert i n)
      | none => scanEffect f callees i map) :=
  rfl

theorem scanEffect_succeeds {f : Function} {callees callees' : FunctionSet} {i : Index}
    {map map' : TypeMap} {u v : Linkage}
    (h : Succeeds (scanEffect f callees i map) u (map', callees') v) :
    (∃ a, f.buffer.atom i = .ok a) ∧ map' = map ∧ Frame u v := by
  unfold scanEffect at h
  obtain ⟨a, _, asked, h⟩ := Succeeds.bind_iff.1 h
  obtain ⟨found, rfl⟩ := ask_succeeds.1 asked
  refine ⟨⟨a, found⟩, ?_⟩
  split at h
  · obtain ⟨same, rfl⟩ := Succeeds.of_pure.1 h
    exact ⟨(congrArg Prod.fst same).symm, .refl _⟩
  · simp only at h
    split at h
    · obtain ⟨_, _, read, h⟩ := Succeeds.bind_iff.1 h
      obtain ⟨rfl, rfl⟩ := Succeeds.of_get.1 read
      obtain ⟨⟨control, ws⟩, _, asked, h⟩ := Succeeds.bind_iff.1 h
      obtain ⟨_, rfl⟩ := ask_succeeds.1 asked
      obtain ⟨_, _, stored, h⟩ := Succeeds.bind_iff.1 h
      obtain rfl := Succeeds.of_modify.1 stored
      obtain ⟨_, _, noted, h⟩ := Succeeds.bind_iff.1 h
      obtain ⟨same, rfl⟩ := Succeeds.of_pure.1 h
      have stored : Frame u { u with control } := ⟨rfl, rfl, rfl, rfl⟩
      exact ⟨(congrArg Prod.fst same).symm, stored.trans (Quiet.of_confined (note_confined _) _ _ _ noted)⟩
    · obtain ⟨same, rfl⟩ := Succeeds.of_pure.1 h
      exact ⟨(congrArg Prod.fst same).symm, .refl _⟩
  · obtain ⟨same, rfl⟩ := Succeeds.of_pure.1 h
    exact ⟨(congrArg Prod.fst same).symm, .refl _⟩

theorem scanAtom_succeeds {f : Function} {map map' : TypeMap} {callees callees' : FunctionSet}
    {i : Index} {u v : Linkage}
    (h : Succeeds (scanAtom f map callees i) u (map', callees') v) :
    ∃ ty w, f.buffer.typeOf i = .ok ty ∧ (∃ a, f.buffer.atom i = .ok a) ∧ Frame w v ∧
      ((ty.struct? = none ∧ map' = map ∧ w = u) ∨
        ∃ head n t, ty.struct? = some head ∧
          Succeeds (registerIn f head) (scope u map) n t ∧ map' = t.map.insert i n ∧
          w = { u with aggregates := t.entries, notes := t.notes }) := by
  rw [scanAtom_eq] at h
  obtain ⟨ty, _, asked, h⟩ := Succeeds.bind_iff.1 h
  obtain ⟨typed, rfl⟩ := ask_succeeds.1 asked
  split at h
  · rename_i head carried
    obtain ⟨⟨n, entered⟩, w, registered, h⟩ := Succeeds.bind_iff.1 h
    obtain ⟨t, done, rfl, rfl⟩ := registering_succeeds.1 registered
    obtain ⟨found, rfl, frame⟩ := scanEffect_succeeds h
    exact ⟨ty, _, typed, found, frame, Or.inr ⟨head, n, t, carried, done, rfl, rfl⟩⟩
  · rename_i plain
    obtain ⟨found, rfl, frame⟩ := scanEffect_succeeds h
    exact ⟨ty, u, typed, found, frame, Or.inl ⟨plain, rfl, rfl⟩⟩

theorem Scanned.of_frame {f : Function} {rest : List Index} {u v : Linkage} {map : TypeMap}
    (scanned : Scanned f rest u map) (frame : Frame u v) : Scanned f rest v map := by
  refine ⟨scanned.faithful.of_entries ⟨?_, fun _ _ h => h⟩ rfl, ?_, scanned.entered⟩
  · intro n a found
    exact (congrArg (·[n]?) frame.aggregates).trans found
  · rw [frame.aggregates]
    exact scanned.layered

section

variable {f : Function}

/-- An atom whose struct is entered can be entered under the same number. -/
theorem faithful_enter {t : Scope} {i head : Index} {ty : Ty} {n : Nat} (faithful : Faithful f t)
    (inferred : f.buffer.table i = some ty) (carried : ty.struct? = some head) (known : t.map[head]? = some n) :
    Faithful f { t with map := t.map.insert i n } ∧ Extends t { t with map := t.map.insert i n } := by
  have agrees : ∀ (n' : Nat), t.map[i]? = some n' → n = n' := by
    intro n' entry
    rcases faithful.settled _ _ entry with ⟨_, _, same, carries, held⟩ | ⟨plain, _⟩
    · rw [inferred, Option.some.injEq] at same
      rw [← same, carried, Option.some.injEq] at carries
      rw [← carries, known, Option.some.injEq] at held
      exact held
    · rw [plain ty inferred] at carried
      cases carried
  have grown : Extends t { t with map := t.map.insert i n } := ⟨fun _ _ h => h, insert_keeps agrees⟩
  refine ⟨⟨fun j n' entry => ?_, fun j n' entry => ?_⟩, grown⟩
  · rcases getElem?_insert_cases entry with ⟨rfl, rfl⟩ | old
    · exact Or.inl ⟨ty, head, inferred, carried, grown.2 _ _ known⟩
    · exact (faithful.settled j n' old).mono grown
  · rcases getElem?_insert_cases entry with ⟨rfl, rfl⟩ | old
    · exact faithful.bounded _ _ known
    · exact faithful.bounded j n' old

/-- One atom of a scan. Atoms before it are entered, so it is safe to register its struct, and
an entry that the atom has had as a head of its own is the one it gets. -/
theorem scanAtom_sound {i : Index} {rest : List Index} {map map' : TypeMap}
    {callees callees' : FunctionSet} {u v : Linkage} (prepared : f.Prepared)
    (shown : i ∈ visibleAtoms f.buffer) (later : ∀ j ∈ rest, i < j)
    (scanned : Scanned f (i :: rest) u map)
    (h : Succeeds (scanAtom f map callees i) u (map', callees') v) :
    Scanned f rest v map' ∧ Grown u v := by
  obtain ⟨ty, w, answered, ⟨a, present⟩, frame, cases⟩ := scanAtom_succeeds h
  have found := atom_ok_iff.1 present
  obtain ⟨k, rfl⟩ : ∃ k, i = .ref k := by
    cases i with
    | null => cases found
    | ref k => exact ⟨k, rfl⟩
  have nonempty : f.buffer.size ≠ 0 := by
    have := (Array.getElem?_eq_some_iff.1 found).1
    unfold Buffer.size
    omega
  have typed := prepared.typed nonempty
  have inferred := typed.typeOf_ok_iff.1 answered
  have closed := visibleAtoms_useClosed prepared.backward
  rcases cases with ⟨plain, rfl, rfl⟩ | ⟨head, n, t, carried, registered, rfl, rfl⟩
  · refine ⟨Scanned.of_frame ⟨scanned.faithful, scanned.layered, ?_⟩ frame, frame.grown⟩
    intro j visible
    rcases scanned.entered j visible with member | entered
    · rcases List.mem_cons.1 member with rfl | member
      · refine Or.inr ⟨⟨a, found⟩, fun ty' head same carried => ?_⟩
        rw [inferred, Option.some.injEq] at same
        rw [← same, plain] at carried
        cases carried
      · exact Or.inl member
    · exact Or.inr entered
  · obtain ⟨m, rfl, below, inside, _⟩ :=
      typed.struct_head prepared.backward closed k shown inferred carried
    have covered : Covered f (· ∈ visibleAtoms f.buffer) k (scope u map) := by
      intro j ty' inner early visible same carries
      rcases scanned.entered _ visible with member | entered
      · rcases List.mem_cons.1 member with eq | member
        · cases eq; omega
        · have := Index.ref_lt_ref.1 (later _ member)
          omega
      · exact entered.entry ty' inner same carries
    obtain ⟨step, known⟩ := register_sound typed prepared.backward closed _ k m n _ _ below inside
      ⟨covered, scanned.faithful, scanned.layered⟩ registered
    obtain ⟨faithful, grown⟩ := faithful_enter step.good.faithful inferred carried known
    have registration : Grown u { u with aggregates := t.entries, notes := t.notes } :=
      ⟨rfl, rfl, rfl, step.grown.1⟩
    refine ⟨Scanned.of_frame ⟨?_, step.good.layered, ?_⟩ frame, registration.trans frame.grown⟩
    · exact faithful
    · intro j visible
      rcases scanned.entered j visible with member | entered
      · rcases List.mem_cons.1 member with rfl | member
        · exact Or.inr ⟨⟨a, found⟩, fun _ _ _ _ => ⟨n, getElem?_insert_self⟩⟩
        · exact Or.inl member
      · refine Or.inr ⟨entered.present, fun ty' inner same carries => ?_⟩
        obtain ⟨n', entry⟩ := entered.entry ty' inner same carries
        exact ⟨n', (step.grown.trans grown).2 _ _ entry⟩

theorem scanAtoms_sound {items : List Index} {map map' : TypeMap}
    {callees callees' : FunctionSet} {u v : Linkage} (prepared : f.Prepared)
    (shown : ∀ i ∈ items, i ∈ visibleAtoms f.buffer) (sorted : items.Pairwise (· < ·))
    (scanned : Scanned f items u map)
    (h : Succeeds (items.foldlM (fun (map, callees) i => scanAtom f map callees i)
      (map, callees)) u (map', callees') v) :
    Scanned f [] v map' ∧ Grown u v := by
  induction items generalizing map callees u with
  | nil =>
    obtain ⟨same, rfl⟩ := Succeeds.of_pure.1 h
    cases same
    exact ⟨scanned, (Frame.refl u).grown⟩
  | cons i rest ih =>
    rw [List.foldlM_cons] at h
    rw [List.pairwise_cons] at sorted
    obtain ⟨⟨map₁, callees₁⟩, w, first, h⟩ := Succeeds.bind_iff.1 h
    obtain ⟨step, grown⟩ :=
      scanAtom_sound prepared (shown i List.mem_cons_self) sorted.1 scanned first
    obtain ⟨steps, grown'⟩ :=
      ih (fun j member => shown j (List.mem_cons_of_mem _ member)) sorted.2 step h
    exact ⟨steps, grown.trans grown'⟩

end

end ShaderForge.Linkage
