import ShaderForge.Proofs.Optimizer.ElisionSteps

/-!
Whole functions before and after elision. Wherever a run of the code before elision gets, a run of the code
after it gets too.
-/

namespace ShaderForge.Optimizer

open Buffer Linkage Native

/-! ### Before elision -/

theorem isDeclaration_of_fills {b : Buffer} {i : Index} {a : Atom} (h : fills b i a = true) : a.isDeclaration = false := by
  cases a with
  | construct ty args mode =>
    cases mode with
    | normal => rfl
    | transient => cases h
  | qualifier | type | list => cases h
  | _ => rfl

theorem owns_of_fills {b : Buffer} {i : Index} {a : Atom} (marked : b.isMarked i = true) (found : b.get? i = some a)
    (h : fills b i a = true) : owns b i = true := by
  unfold owns
  rw [marked, found, Bool.true_and]
  cases a with
  | qualifier => cases h
  | _ => exact h

section

variable {s : Scope} {written : IndexSet} {last : State} {j : Index}
  (starts : ∀ j, (s.slots[j]?).isSome ↔ j ∈ s.function.parameters.map Prod.fst)
  (ran : (statements s.function).foldlM (statement s) { slots := s.slots } = .ok last)

theorem mem_parameters {f : Function} :
    j ∈ f.parameters.map Prod.fst ↔ ∃ underlying number, f.buffer.get? j = some (.qualifier underlying .parameter number) := by
  rw [List.mem_map]
  constructor
  · rintro ⟨⟨_, position⟩, member, rfl⟩
    obtain ⟨n, a, rfl, found, chosen⟩ := Function.mem_parametersOf.1 member
    obtain ⟨underlying, number, rfl, _⟩ := Function.position?_eq_some chosen
    exact ⟨underlying, number, found⟩
  · rintro ⟨underlying, number, found⟩
    cases j with
    | null => cases found
    | ref n => exact ⟨(.ref n, number.toInt.toNat), Function.mem_parametersOf.2 ⟨n, _, rfl, found, rfl⟩, rfl⟩

theorem not_mem_statements {f : Function} {a : Atom} (found : f.buffer.get? j = some a) (declares : a.isDeclaration = true) :
    j ∉ statements f := by
  intro member
  obtain ⟨n, rfl, _, a', found', acts⟩ := mem_statements.1 member
  obtain rfl := Option.some.inj (found.symm.trans found')
  rw [declares] at acts
  cases acts

include starts ran

theorem orderly_of_run (backward : s.buffer.Backward) : ({ s with slots := last.slots } : Scope).Orderly := by
  refine ⟨backward, ?_⟩
  rw [foldlM_slots ran fun member => by obtain ⟨n, same, _⟩ := mem_statements.1 member; cases same]
  refine Option.not_isSome_iff_eq_none.1 fun held => ?_
  obtain ⟨_, _, found⟩ := mem_parameters.1 ((starts _).1 held)
  cases found

section

variable (backward : s.buffer.Backward) (accepted : last.Accepted)

include backward accepted

theorem act_of_run {n : Nat} {a : Atom} (own : s.function.IsStatement n) (found : s.buffer.atoms[n]? = some a) :
    ∃ before next : State, Scopes.act { s with slots := last.slots } before (.ref n) a = .ok next ∧ next.Accepted ∧
      next.slots[Index.ref n]? = last.slots[Index.ref n]? ∧ before.slots[Index.ref n]? = none := by
  obtain ⟨a', before, next, found', acted, accepted', filled, fresh⟩ := exists_act
    (fun i member => (mem_statements.1 member).imp fun _ => And.left) (statements_ascending _)
    (orderly_of_run starts ran backward) ran accepted (mem_statements.2 ⟨n, rfl, own⟩)
  obtain rfl := Option.some.inj (found.symm.trans found')
  refine ⟨before, next, acted, accepted', filled, fresh.trans (Option.not_isSome_iff_eq_none.1 fun held => ?_)⟩
  obtain ⟨_, _, parameter⟩ := mem_parameters.1 ((starts _).1 held)
  exact not_mem_statements parameter rfl (mem_statements.2 ⟨n, rfl, own⟩)

theorem held_of_run (held : (last.slots[j]?).isSome) :
    (∃ underlying kind number, s.buffer.get? j = some (.qualifier underlying kind number)) ∨ owns s.buffer j = true := by
  by_cases member : j ∈ statements s.function
  · obtain ⟨n, rfl, own⟩ := mem_statements.1 member
    obtain ⟨marked, a, found, _⟩ := id own
    obtain ⟨before, next, acted, _, filled, free⟩ := act_of_run starts ran backward accepted own found
    rcases act_cases acted with ⟨fill, _⟩ | ⟨_, adds⟩
    · exact Or.inr (owns_of_fills (Std.ExtTreeSet.contains_iff_mem.2 marked) found fill)
    · rw [← filled, adds.slots, free] at held
      cases held
  · rw [foldlM_slots ran member] at held
    obtain ⟨underlying, number, found⟩ := mem_parameters.1 ((starts _).1 held)
    exact Or.inl ⟨underlying, _, number, found⟩

theorem owned_of_run (own : owns s.buffer j = true) : (last.slots[j]?).isSome := by
  unfold owns at own
  rw [Bool.and_eq_true] at own
  obtain ⟨marked, own⟩ := own
  split at own
  · rename_i underlying number found
    rw [foldlM_slots ran (not_mem_statements found rfl)]
    exact (starts j).2 (mem_parameters.2 ⟨underlying, number, found⟩)
  · rename_i a _ found
    obtain ⟨n, rfl⟩ : ∃ n, j = .ref n := by
      cases j with
      | null => cases found
      | ref n => exact ⟨n, rfl⟩
    obtain ⟨before, next, acted, _, filled, _⟩ := act_of_run starts ran backward accepted
      ⟨Std.ExtTreeSet.contains_iff_mem.1 marked, a, found, isDeclaration_of_fills own⟩ found
    rcases act_cases acted with ⟨_, e, bound⟩ | ⟨unfilled, _⟩
    · obtain ⟨ts, same⟩ := bind_slots bound
      rw [← filled, same]
      simp
    · exact absurd (own.symm.trans unfilled) (by decide)
  · cases own

/-- Once a function is lowered, its slots are those of its parameters and of the statements that fill one. -/
theorem eligible_of_run (elidable : Elidable s.buffer written)
    (grounded : ({ s with slots := last.slots } : Scope).Grounded) : Eligible { s with slots := last.slots } written := by
  have held := fun j => held_of_run (j := j) starts ran backward accepted
  refine ⟨elidable, grounded, orderly_of_run starts ran backward, fun j => owned_of_run (s := s) starts ran backward accepted,
    held,
    fun src ty args found given kept => ?_⟩
  obtain ⟨n, rfl⟩ : ∃ n, src = .ref n := by
    cases src with
    | null => cases found
    | ref n => exact ⟨n, rfl⟩
  have own : owns s.buffer (.ref n) = true := by
    rcases held _ kept with ⟨_, _, _, found'⟩ | own
    · cases found.symm.trans found'
    · exact own
  unfold owns at own
  rw [Bool.and_eq_true] at own
  obtain ⟨before, next, acted, accepted', _⟩ :=
    act_of_run starts ran backward accepted ⟨Std.ExtTreeSet.contains_iff_mem.1 own.1, _, found, rfl⟩ found
  rw [Scopes.act_construct, if_neg (by rw [given]; exact Bool.false_ne_true)] at acted
  obtain ⟨e, computed, bound⟩ := Except.bind_ok acted
  exact ⟨e, computed, (bind_accepted bound accepted').2⟩

end

end

/-! ### After elision -/

/-- A function of a unit and the function after elision, of another unit. -/
structure Elided (u u' : Linkage) (f g : Function) (written : IndexSet) : Prop where
  elidable : Elidable f.buffer written
  placed : Placed u f
  placed' : Placed u' g
  atoms : ∀ n : Nat, g.buffer.atoms[n]? = (f.buffer.atoms[n]?).map (·.mapAddresses (replacement f.buffer))
  replaced : ∀ i, replacement f.buffer i = match selection? f.buffer written i with
    | some (_, item) => replacement f.buffer item
    | none => i
  stated : ∀ n ty args mode, Shown f (.ref n) → f.buffer.atoms[n]? = some (.construct ty args mode) →
    replacement f.buffer ty = ty
  present : ∀ i, (replacement f.buffer i).isNull = i.isNull
  typeOf : ∀ i ty, Member.typeOf ⟨u, f⟩ i = .ok ty → Member.typeOf ⟨u', g⟩ (replacement f.buffer i) = .ok ty
  kindred : ∀ i, Shown g (replacement f.buffer i) →
    Scope.Kindred { unit := u, function := f } { unit := u', function := g } i (replacement f.buffer i)
  fieldRange : ∀ i field range, Shown g (replacement f.buffer i) →
    Scope.fieldRange { unit := u, function := f } i field = .ok range →
      Scope.fieldRange { unit := u', function := g } (replacement f.buffer i) field = .ok range
  callees : ∀ id callee, u.function? id = some callee → ∃ callee', u'.function? id = some callee' ∧
    (∀ l, argumentLayout u callee = .ok l → argumentLayout u' callee' = .ok l) ∧
    ∀ l, resultLayout u callee = .ok l → resultLayout u' callee' = .ok l
  symbols : ∀ symbol, (u'.functions.any fun f => u'.symbol? f.id == some symbol) =
    u.functions.any fun f => u.symbol? f.id == some symbol
  returns : ∀ l, resultLayout u f = .ok l → resultLayout u' g = .ok l
  statements : ∀ n, .ref n ∈ visibleAtoms g.buffer → (f.IsStatement n ↔ g.IsStatement n)

variable {u u' : Linkage} {f g : Function} {written : IndexSet} {slots : IndexMap (List Prim)}

theorem Elided.elides (elided : Elided u u' f g written)
    (eligible : Eligible { unit := u, function := f, slots } written) :
    Elides { unit := u, function := f, slots } { unit := u', function := g, slots } written where
  eligible := eligible
  orderly := ⟨elided.placed'.prepared.backward, eligible.orderly.named⟩
  slots := rfl
  atoms := elided.atoms
  replaced := elided.replaced
  diverts := replacement_diverts elided.placed.prepared.backward
  stated := elided.stated
  present := elided.present
  typeOf := elided.typeOf
  kindred := elided.kindred
  fieldRange := elided.fieldRange
  callees := elided.callees
  symbols := elided.symbols
  returns := elided.returns
  closed := visibleAtoms_useClosed elided.placed'.prepared.backward

/-! ### Statement by statement -/

theorem after_of_plain {course : Course} {i : Index} {a : Atom} (plain : a.isSideEffect = false) :
    after course i a = { course with here := i :: course.here } := by
  cases a with
  | branch => cases plain
  | _ => rfl

namespace InStep

variable {s s' : Scope} {written : IndexSet} {rounds : Nat} {callees callees' : Callees} {course : Course} {n m : Nat}
  {st st' : State}

theorem mono (inStep : InStep s s' written rounds callees callees' course n st st') (later : n ≤ m) :
    InStep s s' written rounds callees callees' course m st st' :=
  ⟨inStep.keeps, inStep.slots, inStep.nested, fun j known => Nat.lt_of_lt_of_le (inStep.early j known)
    (Nat.succ_le_succ later)⟩

end InStep

/-- With the slots so far a shown statement does what it does with those at the end. -/
theorem Elides.statement_of_act {s s' : Scope} {written : IndexSet} (elides : Elides s s' written) {k : Nat} {a : Atom}
    {st' next' : State} (shown' : Shown s'.function (.ref k)) (found : s.buffer.atoms[k]? = some a)
    (agree : ∀ i, Shown s'.function i → i < .ref k → st'.slots[i]? = s'.slots[i]?)
    (acted : Scopes.act s' st' (.ref k) (a.mapAddresses (replacement s.buffer)) = .ok next') :
    statement { s' with slots } st' (.ref k) = .ok next' := by
  have image := elides.image found
  have backward := elides.orderly.backward
  have again : Scopes.act { s' with slots := st'.slots } st' (.ref k) (a.mapAddresses (replacement s.buffer)) = .ok next' := by
    refine Scope.Orderly.act (P := fun i => Shown s'.function i ∧ i < .ref k) elides.orderly image
      ⟨Or.inl rfl, Nat.succ_pos k⟩ (fun m b inside there o used => ⟨?_, ?_⟩) (fun o used => ⟨?_, ?_⟩)
      (fun i early => agree i early.1 early.2) st' _ acted
    · exact inside.1.operand elides.closed there (Atom.mem_operands.1 used).2
    · exact Nat.lt_trans (backward.address_lt there (Atom.mem_operands.1 used).2) inside.2
    · exact shown'.operand elides.closed image (Atom.mem_operands.1 used).2
    · exact backward.address_lt image (Atom.mem_operands.1 used).2
  rw [Scopes.statement_eq]
  exact (congrArg (· >>= _) (elides.atom found)).trans again

section

variable {rounds : Nat} {callees callees' : Callees} {st st' last : State} {course : Course} {n : Nat}
  (elided : Elided u u' f g written)
  (elides : Elides { unit := u, function := f, slots := last.slots } { unit := u', function := g, slots := last.slots } written)
  (sized : callees.Sized u) (below : callees.Below callees')

include elided elides sized below

/-- The statements that are shown after elision do what all of them did. -/
theorem foldlM_elided {items : List Index} (among : ∀ i ∈ items, i ∈ statements f) (ascending : items.Pairwise (· < ·))
    (later : ∀ i ∈ items, .ref n ≤ i) (settled : settles f.buffer written course items = true)
    (inStep : InStep { unit := u, function := f, slots := last.slots } { unit := u', function := g, slots := last.slots }
      written rounds callees callees' course n st st')
    (ran : items.foldlM (statement { unit := u, function := f, slots }) st = .ok last) :
    ∃ course' m last', (items.filter g.buffer.isMarked).foldlM (statement { unit := u', function := g, slots }) st' =
        .ok last' ∧ InStep { unit := u, function := f, slots := last.slots }
          { unit := u', function := g, slots := last.slots } written rounds callees callees' course' m last last' := by
  induction items generalizing n course st st' with
  | nil =>
    cases ran
    exact ⟨course, n, st', rfl, inStep⟩
  | cons i rest ih =>
    obtain ⟨k, rfl, own⟩ := mem_statements.1 (among i List.mem_cons_self)
    obtain ⟨a, next, found, acted, ran, filled, before⟩ := statement_final (s := { unit := u, function := f, slots })
      ascending elides.eligible.orderly ran
    change f.buffer.atoms[k]? = some a at found
    have inStep := inStep.mono (Nat.le_of_succ_le_succ (later _ List.mem_cons_self))
    obtain ⟨marked, a', found', acts⟩ := id own
    obtain rfl := Option.some.inj (found.symm.trans found')
    simp only [settles, get?_ref, found, Bool.and_eq_true] at settled
    have shown : Shown f (.ref k) := Or.inr (mem_visibleAtoms_of_marked marked)
    have final : ∀ us, next.slots[Index.ref k]? = some us → last.slots[Index.ref k]? = some us :=
      fun us held => filled ▸ held
    have rest_later : ∀ i ∈ rest, .ref (k + 1) ≤ i := by
      intro i member
      obtain ⟨j, rfl, _⟩ := mem_statements.1 (among i (List.mem_cons_of_mem _ member))
      exact Nat.succ_le_succ (Index.ref_lt_ref.1 ((List.pairwise_cons.1 ascending).1 _ member))
    have go := fun {course st'} => @ih next st' course (k + 1)
      (fun i member => among i (List.mem_cons_of_mem _ member)) (List.pairwise_cons.1 ascending).2 rest_later
    cases kept : g.buffer.isMarked (.ref k) with
    | true =>
      have marked' : .ref k ∈ g.buffer.marked := Std.ExtTreeSet.contains_iff_mem.1 kept
      have shown' : Shown g (.ref k) := Or.inr (mem_visibleAtoms_of_marked marked')
      have fixed : replacement f.buffer (.ref k) = .ref k := by
        cases selects : selection? f.buffer written (.ref k) with
        | none => rw [elided.replaced, selects]
        | some pair =>
          have unmarked := (elided.elidable.selected _ _ _ selects).1
          rw [Buffer.isMarked, Std.ExtTreeSet.contains_iff_mem.2 marked] at unmarked
          cases unmarked
      have same := inStep.slots
      obtain ⟨next', acted', inStep⟩ :=
        elides.step inStep sized shown found final below shown' fixed acts settled.1 acted
      obtain ⟨course', m, last', ran', inStep⟩ := go settled.2 inStep ran
      refine ⟨course', m, last', ?_, inStep⟩
      rw [List.filter_cons_of_pos kept, List.foldlM_cons,
        elides.statement_of_act shown' found (fun i inside early => (same i inside).trans (before i early)) acted',
        Except.ok_bind, ran']
    | false =>
      have hidden : ¬ Shown g (.ref k) := by
        rintro (absent | visible)
        · cases absent
        · have := ((elided.statements k visible).1 own).1
          rw [Buffer.isMarked, Std.ExtTreeSet.contains_iff_mem.2 this] at kept
          cases kept
      have plain : a.isSideEffect = false := by
        refine Bool.eq_false_iff.2 fun effect => hidden (Or.inr ?_)
        have image : g.buffer.atoms[k]? = some (a.mapAddresses (replacement f.buffer)) := by
          rw [elided.atoms, found]
          rfl
        exact elided.placed'.prepared.shown_of_effect image (by cases a <;> exact effect)
      have inStep := elides.step_alone inStep sized shown found final hidden plain acts acted
      rw [after_of_plain plain] at settled
      obtain ⟨course', m, last', ran', inStep⟩ := go settled.2 inStep ran
      refine ⟨course', m, last', ?_, inStep⟩
      rw [List.filter_cons_of_neg (by rw [kept]; exact Bool.false_ne_true)]
      exact ran'

end

/-! ### Bodies -/

theorem statements_elided (elided : Elided u u' f g written) :
    statements g = (statements f).filter g.buffer.isMarked := by
  refine eq_of_ascending (fun i => i) (statements_ascending g) ((statements_ascending f).filter _) fun i => ?_
  rw [List.mem_filter, mem_statements, mem_statements, Buffer.isMarked, Std.ExtTreeSet.contains_iff_mem]
  constructor
  · rintro ⟨n, rfl, own⟩
    exact ⟨⟨n, rfl, (elided.statements n (mem_visibleAtoms_of_marked own.1)).2 own⟩, own.1⟩
  · rintro ⟨⟨n, rfl, own⟩, marked⟩
    exact ⟨n, rfl, (elided.statements n (mem_visibleAtoms_of_marked marked)).1 own⟩

theorem body_ok_iff {s : Scope} {code : Code} (placed : Placed s.unit s.function) :
    body s = .ok code ↔ ∃ last, (statements s.function).foldlM (statement s) { slots := s.slots } = .ok last ∧
      last.frames = [] ∧ last.code = code := by
  obtain ⟨_, map, _, mapped⟩ := placed
  have present : ∀ i ∈ s.buffer.marked.toList, ∃ a, s.buffer.get? i = some a := fun i member =>
    (mapped.entered i (mem_visibleAtoms_of_marked (Std.ExtTreeSet.mem_toList.1 member))).present
  unfold body
  rw [foldlM_statement present]
  constructor
  · intro h
    obtain ⟨last, ran, h⟩ := Except.bind_ok h
    split at h
    · rename_i closed
      cases h
      exact ⟨last, ran, List.isEmpty_iff.1 closed, rfl⟩
    · cases h
  · rintro ⟨last, ran, closed, rfl⟩
    change (statements s.function).foldlM (statement s) _ >>= _ = _
    rw [ran, Except.ok_bind, closed]
    rfl

theorem body_elided (elided : Elided u u' f g written)
    (starts : ∀ j, (slots[j]?).isSome ↔ j ∈ f.parameters.map Prod.fst)
    (grounded : Scope.Grounded { unit := u, function := f, slots }) {layout : Layout}
    (returned : resultLayout u f = .ok layout) (settled : settles f.buffer written {} (statements f) = true) {code : Code}
    (h : body { unit := u, function := f, slots } = .ok code) (accepted : code.accepted = true) :
    ∃ (code' : Code) (final : IndexMap (List Prim)), body { unit := u', function := g, slots } = .ok code' ∧
      (∀ i ts, final[i]? = some ts → Scope.scalars { unit := u, function := f, slots } i = .ok ts) ∧
      ∀ rounds callees callees', callees.Sized u → callees.Below callees' → ∃ ends leaves,
        code.Keeps rounds callees callees' (Stands { unit := u, function := f, slots := final }
          { unit := u', function := g, slots := final } written callees []) ends leaves code' := by
  obtain ⟨last, ran, closed, rfl⟩ := (body_ok_iff elided.placed).1 h
  have begun : ({ slots } : State).Exact (Scope.scalars { unit := u, function := f, slots }) layout.scalars :=
    ⟨grounded.slots, trivial, fun _ none => absurd none List.not_mem_nil⟩
  have exact : last.Exact _ layout.scalars := grounded.statements_exact returned
    (fun i member => by
      obtain ⟨n, rfl, own⟩ := mem_statements.1 member
      exact Or.inr (mem_visibleAtoms_of_marked own.1)) begun ran
  have eligible := eligible_of_run starts ran elided.placed.prepared.backward
    ⟨accepted, fun frame member => by rw [closed] at member; cases member⟩ elided.elidable (grounded.withSlots exact.slots)
  have elides := elided.elides eligible
  have start : ∀ rounds callees callees', InStep { unit := u, function := f, slots := last.slots }
      { unit := u', function := g, slots := last.slots } written rounds callees callees' {} 0 { slots } { slots } :=
    fun _ _ _ => ⟨⟨.skip, .nil⟩, fun _ _ => rfl, List.pairwise_singleton _ _, fun _ none => absurd none List.not_mem_nil⟩
  have simulated := fun rounds callees callees' (sized : Callees.Sized u callees) (below : callees.Below callees') =>
    foldlM_elided elided elides sized below (fun _ member => member) (statements_ascending f)
      (fun i member => by
        obtain ⟨n, rfl, _⟩ := mem_statements.1 member
        exact Nat.succ_le_succ (Nat.zero_le n))
      settled (start rounds callees callees') ran
  have ended : ∀ {course : Course} {last' : State} {rounds callees callees'},
      Frames.Keeps rounds callees callees' (Stands { unit := u, function := f, slots := last.slots }
        { unit := u', function := g, slots := last.slots } written callees) last.frames last'.frames course.around →
      last'.frames = [] ∧ course.around = [] := by
    intro course last' rounds callees callees' frames
    rw [closed] at frames
    generalize last'.frames = fs, course.around = around at frames
    cases frames
    exact ⟨rfl, rfl⟩
  -- the code is the same whatever the functions of the unit compute
  obtain ⟨_, _, last', ran', inStep⟩ := simulated 0 (fun _ _ => .error .trap) (fun _ _ => .error .trap)
    (fun _ none => nomatch none) fun _ _ => .refl _
  rw [← statements_elided elided] at ran'
  refine ⟨last'.code, last.slots, (body_ok_iff elided.placed').2 ⟨last', ran', (ended inStep.keeps.frames).1, rfl⟩,
    exact.slots, fun rounds callees callees' sized below => ?_⟩
  obtain ⟨course, _, other, ran'', inStep⟩ := simulated rounds callees callees' sized below
  rw [← statements_elided elided, ran', Except.ok.injEq] at ran''
  subst ran''
  have opening : course.opening = [] := by
    rw [Course.opening, (ended inStep.keeps.frames).2]
    rfl
  exact ⟨_, _, opening ▸ inStep.keeps.code⟩

end ShaderForge.Optimizer
