import ShaderForge.Proofs.Native.Fold

/-!
Statements along a fold. The code that statements add goes over with its slots renamed, and so
does the code of a whole function.
-/

namespace ShaderForge.Native

open Buffer Linkage

namespace Frame

def rename (f : Index → Index) : Frame → Frame
  | conditional outer arms pending =>
    conditional (outer.rename f) (arms.map fun (condition, code) => (condition.rename f, code.rename f))
      (pending.map (Expr.rename f))
  | loop outer condition => loop (outer.rename f) (condition.rename f)

/-- Every slot that an open block has written so far has a property. -/
def Writes (P : Index → Prop) : Frame → Prop
  | conditional outer arms _ => outer.Writes P ∧ ∀ arm ∈ arms, arm.2.Writes P
  | loop outer _ => outer.Writes P

end Frame

/-- The code so far of a function and of the one it goes over to. -/
structure State.Follows (fold : Index → Index) (st st' : State) : Prop where
  slots : ∀ i, st'.slots[fold i]? = st.slots[i]?
  named : st.slots[Index.null]? = none
  held : ∀ i, (st.slots[i]?).isSome → Solo fold i
  code : st'.code = st.code.rename fold
  frames : st'.frames = st.frames.map (Frame.rename fold)
  writes : st.code.Writes (Solo fold)
  blocks : ∀ frame ∈ st.frames, frame.Writes (Solo fold)

namespace State.Follows

variable {fold : Index → Index} {st st' : State}

theorem append (follows : st.Follows fold st') {c : Code} (writes : c.Writes (Solo fold)) :
    (st.append c).Follows fold (st'.append (c.rename fold)) := by
  refine ⟨follows.slots, follows.named, follows.held, ?_, follows.frames, ⟨follows.writes, writes⟩,
    follows.blocks⟩
  unfold State.append
  rw [follows.code]
  rfl

theorem inLoop (follows : st.Follows fold st') : st'.inLoop = st.inLoop := by
  unfold State.inLoop
  rw [follows.frames, List.any_map]
  congr 1
  funext frame
  cases frame <;> rfl

theorem opened (follows : st.Follows fold st') (frame : Frame) (writes : frame.Writes (Solo fold))
    {frames : List Frame} (blocks : ∀ frame ∈ frames, frame.Writes (Solo fold)) :
    ({ st with code := .skip, frames := frame :: frames } : State).Follows fold
      { st' with code := .skip, frames := frame.rename fold :: frames.map (Frame.rename fold) } := by
  refine ⟨follows.slots, follows.named, follows.held, rfl, rfl, trivial, ?_⟩
  intro other member
  rcases List.mem_cons.1 member with rfl | later
  · exact writes
  · exact blocks other later

theorem closed (follows : st.Follows fold st') (code : Code) (writes : code.Writes (Solo fold))
    {frames : List Frame} (blocks : ∀ frame ∈ frames, frame.Writes (Solo fold)) :
    ({ st with code, frames } : State).Follows fold
      { st' with code := code.rename fold, frames := frames.map (Frame.rename fold) } :=
  ⟨follows.slots, follows.named, follows.held, rfl, rfl, writes, blocks⟩

end State.Follows

section

variable {fold : Index → Index}

theorem arms_rename (finished : List (Expr × Code)) (otherwise : Code) :
    (arms finished otherwise).rename fold =
      arms (finished.map fun (condition, code) => (condition.rename fold, code.rename fold))
        (otherwise.rename fold) := by
  induction finished with
  | nil => rfl
  | cons arm rest ih => simp only [arms, List.map_cons, List.foldr_cons, Code.rename] at ih ⊢; rw [ih]

theorem arms_writes {P : Index → Prop} {finished : List (Expr × Code)} {otherwise : Code}
    (each : ∀ arm ∈ finished, arm.2.Writes P) (last : otherwise.Writes P) :
    (arms finished otherwise).Writes P := by
  induction finished with
  | nil => exact last
  | cons arm rest ih =>
    exact ⟨each arm List.mem_cons_self, ih fun arm member => each arm (List.mem_cons_of_mem _ member)⟩

end

/-! ### One statement -/

namespace Scopes

variable {fold : Index → Index} {s s' : Scope} {st st' next : State} {i : Index}

theorem place (scopes : Scopes fold s s') {p : Scope.Place} (used : s.Used fold (s'.buffer.size + 1) i)
    (h : s.place i = .ok p) :
    s'.place (fold i) = .ok (placed fold p) ∧ (s.slots[p.owner]?).isSome :=
  scopes.placeAt _ _ used h

theorem condition (scopes : Scopes fold s s') {e : Expr} (used : s.Used fold (s'.buffer.size + 1) i)
    (h : s.condition i = .ok e) : s'.condition (fold i) = .ok (e.rename fold) := by
  unfold Scope.condition at h ⊢
  obtain ⟨value, computed, h⟩ := Except.bind_ok h
  rw [scopes.value used computed, Except.ok_bind, Expr.width_rename]
  split at h
  · rename_i single
    rw [if_pos single]
    cases h
    rfl
  · cases h

theorem bind (scopes : Scopes fold s s') (follows : st.Follows fold st') {n : Nat}
    (used : s.Used fold (s'.buffer.size + 1) (.ref n)) (solo : Solo fold (.ref n)) {value : Expr}
    (h : st.bind s (.ref n) value = .ok next) :
    ∃ next', st'.bind s' (fold (.ref n)) (value.rename fold) = .ok next' ∧ next.Follows fold next' := by
  unfold State.bind at h ⊢
  obtain ⟨scalars, flat, h⟩ := Except.bind_ok h
  rw [scopes.scalars used flat, Except.ok_bind]
  simp only [Expr.width_rename, Expr.registers_rename] at h ⊢
  split at h
  · cases h
  · rename_i fits
    rw [if_neg fits]
    cases h
    have base := follows.append (c := .assign (.ref n) (scalars.take value.width).length value) solo
    refine ⟨_, rfl, ⟨getElem?_insert_rename follows.slots solo _, ?_, ?_, base.code, base.frames,
      base.writes, base.blocks⟩⟩
    · simp only [Std.ExtTreeMap.getElem?_insert]
      simpa using follows.named
    · intro j known
      by_cases here : .ref n = j
      · exact here ▸ solo
      · exact follows.held j (by simpa [Std.ExtTreeMap.getElem?_insert, here] using known)

theorem bound (scopes : Scopes fold s s') (follows : st.Follows fold st') {n : Nat}
    (shown : .ref n ∈ visibleAtoms s.buffer) (solo : Solo fold (.ref n))
    (h : (s.fresh (.ref n) >>= st.bind s (.ref n)) = .ok next) :
    ∃ next', (s'.fresh (fold (.ref n)) >>= st'.bind s' (fold (.ref n))) = .ok next' ∧ next.Follows fold next' := by
  obtain ⟨e, computed, h⟩ := Except.bind_ok h
  rw [scopes.fresh shown computed, Except.ok_bind]
  exact scopes.bind follows ⟨Or.inr shown, Nat.le_succ_of_le (scopes.rank_le shown)⟩ solo h

theorem effect (scopes : Scopes fold s s') (follows : st.Follows fold st') {n : Nat}
    (shown : .ref n ∈ visibleAtoms s.buffer) (solo : Solo fold (.ref n))
    (h : Native.effect s st (.ref n) = .ok next) :
    ∃ next', Native.effect s' st' (fold (.ref n)) = .ok next' ∧ next.Follows fold next' := by
  have used : s.Used fold (s'.buffer.size + 1) (.ref n) :=
    ⟨Or.inr shown, Nat.le_succ_of_le (scopes.rank_le shown)⟩
  unfold Native.effect at h ⊢
  obtain ⟨ty, known, h⟩ := Except.bind_ok h
  rw [(scopes.typeOf used known).2, Except.ok_bind, Ty.isNil_rename]
  split at h
  · rename_i nothing
    rw [if_pos nothing]
    obtain ⟨e, computed, h⟩ := Except.bind_ok h
    cases h
    rw [scopes.fresh shown computed, Except.ok_bind]
    exact ⟨_, rfl, follows.append (c := .discard e) trivial⟩
  · rename_i something
    rw [if_neg something]
    exact scopes.bound follows shown solo h

theorem close (follows : st.Follows fold st') (h : Native.close s st i = .ok next) :
    ∃ next', Native.close s' st' (fold i) = .ok next' ∧ next.Follows fold next' := by
  unfold Native.close at h ⊢
  have frames := follows.frames
  have blocks := follows.blocks
  split at h
  · rename_i outer finished pending rest shape
    rw [shape] at frames blocks
    have own := blocks _ List.mem_cons_self
    have later := fun frame member => blocks frame (List.mem_cons_of_mem _ member)
    rw [List.map_cons] at frames
    simp only [frames, Frame.rename]
    cases h
    refine ⟨_, rfl, ?_⟩
    cases pending with
    | none =>
      have closed := follows.closed (.seq outer (arms finished st.code))
        ⟨own.1, arms_writes own.2 follows.writes⟩ later
      simpa only [Code.rename, arms_rename, follows.code, Option.map_none] using closed
    | some condition =>
      have each : ∀ arm ∈ finished ++ [(condition, st.code)], arm.2.Writes (Solo fold) := by
        intro arm member
        rcases List.mem_append.1 member with before | last
        · exact own.2 arm before
        · rw [List.mem_singleton.1 last]
          exact follows.writes
      have closed := follows.closed (.seq outer (arms (finished ++ [(condition, st.code)]) .skip))
        ⟨own.1, arms_writes each trivial⟩ later
      simpa only [Code.rename, arms_rename, follows.code, List.map_append, List.map_cons, List.map_nil,
        Option.map_some] using closed
  · rename_i outer condition rest shape
    rw [shape] at frames blocks
    rw [List.map_cons] at frames
    simp only [frames, Frame.rename]
    cases h
    refine ⟨_, rfl, ?_⟩
    have closed := follows.closed (.seq outer (.loop condition st.code))
      ⟨blocks _ List.mem_cons_self, follows.writes⟩
      fun frame member => blocks frame (List.mem_cons_of_mem _ member)
    simpa only [Code.rename, follows.code] using closed
  · cases h

theorem alternative (follows : st.Follows fold st') {kind : BranchKind}
    {condition condition' : Lowered (Option Expr)}
    (transfers : ∀ e, condition = .ok e → condition' = .ok (e.map (Expr.rename fold)))
    (h : Native.alternative s st i kind condition = .ok next) :
    ∃ next', Native.alternative s' st' (fold i) kind condition' = .ok next' ∧ next.Follows fold next' := by
  unfold Native.alternative at h ⊢
  have frames := follows.frames
  have blocks := follows.blocks
  split at h
  · rename_i outer finished pending rest shape
    rw [shape] at frames blocks
    have own := blocks _ List.mem_cons_self
    have later := fun frame member => blocks frame (List.mem_cons_of_mem _ member)
    rw [List.map_cons] at frames
    simp only [frames, Frame.rename, Option.map_some] at h ⊢
    obtain ⟨e, computed, h⟩ := Except.bind_ok h
    cases h
    rw [transfers e computed, Except.ok_bind]
    refine ⟨_, rfl, ?_⟩
    have each : ∀ arm ∈ finished ++ [(pending, st.code)], arm.2.Writes (Solo fold) := by
      intro arm member
      rcases List.mem_append.1 member with before | last
      · exact own.2 arm before
      · rw [List.mem_singleton.1 last]
        exact follows.writes
    have opened := follows.opened (.conditional outer (finished ++ [(pending, st.code)]) e)
      ⟨own.1, each⟩ later
    simpa only [Frame.rename, follows.code, List.map_append, List.map_cons, List.map_nil] using opened
  · cases h

theorem branch (scopes : Scopes fold s s') (follows : st.Follows fold st') {kind : BranchKind}
    {cond : Index} (used : s.Used fold (s'.buffer.size + 1) cond)
    (h : Native.branch s st i kind cond = .ok next) :
    ∃ next', Native.branch s' st' (fold i) kind (fold cond) = .ok next' ∧ next.Follows fold next' := by
  unfold Native.branch at h ⊢
  cases kind with
  | ifThen =>
    simp only at h ⊢
    obtain ⟨e, computed, h⟩ := Except.bind_ok h
    cases h
    rw [scopes.condition used computed, Except.ok_bind]
    refine ⟨_, rfl, ?_⟩
    have opened := follows.opened (.conditional st.code [] (some e))
      ⟨follows.writes, fun arm member => nomatch member⟩ follows.blocks
    simpa only [Frame.rename, follows.code, follows.frames, List.map_nil, Option.map_some] using opened
  | elseIf =>
    refine Scopes.alternative follows ?_ h
    intro e computed
    obtain ⟨condition, computed', same⟩ := Except.bind_ok computed
    cases same
    rw [scopes.condition used computed']
    rfl
  | otherwise =>
    refine Scopes.alternative follows ?_ h
    intro e computed
    cases computed
    rfl
  | whileLoop | forLoop =>
    simp only at h ⊢
    obtain ⟨e, computed, h⟩ := Except.bind_ok h
    cases h
    rw [scopes.condition used computed, Except.ok_bind]
    refine ⟨_, rfl, ?_⟩
    have opened := follows.opened (.loop st.code e) follows.writes follows.blocks
    simpa only [Frame.rename, follows.code, follows.frames] using opened
  | next | leave =>
    simp only [follows.inLoop] at h ⊢
    split at h
    · rename_i inside
      rw [if_pos inside]
      cases h
      exact ⟨_, rfl, follows.append trivial⟩
    · cases h
  | close => exact Scopes.close follows h

def act (s : Scope) (st : State) (i : Index) : Atom → Lowered State
  | .qualifier .. | .type .. | .list .. | .construct _ _ .transient => .ok st
  | .store dst src => do
    let place ← s.place dst
    let value ← s.value src
    if value.width ≠ place.positions.length then
      s.defect (.storeWidth i value.width place.positions.length)
    else if place.registers != value.registers.map some then .error (.machine (.slot place.owner))
    else return st.append (.update place.owner place.scalars place.positions value)
  | .ret .null => return st.append (.ret [] (.zeros []))
  | .ret result => do
    let value ← s.value result
    let returns ← Native.resultLayout s.unit s.function
    return st.append (.ret returns.scalars value)
  | .branch kind cond _ => Native.branch s st i kind cond
  | .intrinsic code _ => if code.isLayout then return st else Native.effect s st i
  | .call .. => Native.effect s st i
  | .construct _ .null _ => do st.bind s i (.zeros (← s.scalars i))
  | _ => do st.bind s i (← s.fresh i)

theorem statement_eq (s : Scope) (st : State) (i : Index) :
    statement s st i = (s.atom i >>= act { s with slots := st.slots } st i) := by
  refine congrArg (s.atom i >>= ·) (funext fun a => ?_)
  cases a with
  | construct ty args mode => cases mode <;> cases args <;> rfl
  | ret value => cases value <;> rfl
  | _ => rfl

theorem act_construct (s : Scope) (st : State) (i ty args : Index) :
    act s st i (.construct ty args .normal) =
      if args.isNull then s.scalars i >>= fun scalars => st.bind s i (.zeros scalars)
      else s.fresh i >>= st.bind s i := by
  cases args <;> rfl

theorem act_ret (s : Scope) (st : State) (i result : Index) :
    act s st i (.ret result) =
      if result.isNull then .ok (st.append (.ret [] (.zeros [])))
      else s.value result >>= fun value => Native.resultLayout s.unit s.function >>= fun returns =>
        .ok (st.append (.ret returns.scalars value)) := by
  cases result <;> rfl

theorem store_fold (scopes : Scopes fold s s') (follows : st.Follows fold st') (slots : s.slots = st.slots)
    {dst src : Index} (first : s.Used fold (s'.buffer.size + 1) dst) (second : s.Used fold (s'.buffer.size + 1) src)
    (h : act s st i (.store dst src) = .ok next) :
    ∃ next', act s' st' (fold i) (.store (fold dst) (fold src)) = .ok next' ∧ next.Follows fold next' := by
  simp only [act] at h ⊢
  obtain ⟨p, there, h⟩ := Except.bind_ok h
  obtain ⟨e, computed, h⟩ := Except.bind_ok h
  obtain ⟨there', held⟩ := scopes.place first there
  rw [there', Except.ok_bind, scopes.value second computed, Except.ok_bind]
  have positions : (placed fold p).positions = p.positions := rfl
  have registers : (placed fold p).registers = p.registers := rfl
  simp only [Expr.width_rename, Expr.registers_rename, positions, registers] at h ⊢
  split at h
  · cases h
  · rename_i exact
    rw [if_neg exact]
    split at h
    · cases h
    · rename_i fits
      rw [if_neg fits]
      cases h
      exact ⟨_, rfl, follows.append (c := .update p.owner p.scalars p.positions e) (follows.held _ (slots ▸ held))⟩

theorem ret_fold (scopes : Scopes fold s s') (follows : st.Follows fold st') {result : Index}
    (first : s.Used fold (s'.buffer.size + 1) result) (h : act s st i (.ret result) = .ok next) :
    ∃ next', act s' st' (fold i) (.ret (fold result)) = .ok next' ∧ next.Follows fold next' := by
  rw [act_ret] at h
  rw [act_ret, scopes.kept first]
  split at h
  · rename_i bare
    rw [if_pos bare]
    cases h
    exact ⟨_, rfl, follows.append (c := .ret [] (.zeros [])) trivial⟩
  · rename_i given
    rw [if_neg given]
    obtain ⟨e, computed, h⟩ := Except.bind_ok h
    obtain ⟨layout, laid, h⟩ := Except.bind_ok h
    cases h
    rw [scopes.value first computed, Except.ok_bind, scopes.bridge.resembles.resultLayout laid, Except.ok_bind]
    exact ⟨_, rfl, follows.append (c := .ret layout.scalars e) trivial⟩

theorem construct_fold (scopes : Scopes fold s s') (follows : st.Follows fold st') {n : Nat} {ty args : Index}
    (shown : .ref n ∈ visibleAtoms s.buffer) (solo : Solo fold (.ref n))
    (second : s.Used fold (s'.buffer.size + 1) args)
    (h : act s st (.ref n) (.construct ty args .normal) = .ok next) :
    ∃ next', act s' st' (fold (.ref n)) (.construct (fold ty) (fold args) .normal) = .ok next' ∧
      next.Follows fold next' := by
  have own : s.Used fold (s'.buffer.size + 1) (.ref n) := ⟨Or.inr shown, Nat.le_succ_of_le (scopes.rank_le shown)⟩
  rw [act_construct] at h
  rw [act_construct, scopes.kept second]
  split at h
  · rename_i blank
    rw [if_pos blank]
    obtain ⟨scalars, flat, h⟩ := Except.bind_ok h
    rw [scopes.scalars own flat, Except.ok_bind]
    have assigned := scopes.bind follows own solo h
    exact assigned
  · rename_i given
    rw [if_neg given]
    exact scopes.bound follows shown solo h

theorem act_fold (scopes : Scopes fold s s') (follows : st.Follows fold st') (slots : s.slots = st.slots)
    {n : Nat} {a : Atom} (shown : .ref n ∈ visibleAtoms s.buffer) (solo : Solo fold (.ref n))
    (answer : s.atom (.ref n) = .ok a) (h : act s st (.ref n) a = .ok next) :
    ∃ next', act s' st' (fold (.ref n)) (a.mapAddresses fold) = .ok next' ∧ next.Follows fold next' := by
  have rank := scopes.rank_le shown
  have first : s.Used fold (s'.buffer.size + 1) a.addresses.1 :=
    scopes.used shown (by omega) answer (Or.inl rfl)
  have second : a.isBranch = false → s.Used fold (s'.buffer.size + 1) a.addresses.2 :=
    fun other => scopes.used shown (by omega) answer (Or.inr ⟨rfl, other⟩)
  cases a with
  | qualifier | type | list =>
    cases h
    exact ⟨_, rfl, follows⟩
  | store dst src => exact scopes.store_fold follows slots first (second rfl) h
  | ret result => exact scopes.ret_fold follows first h
  | branch kind cond failto => exact scopes.branch follows first h
  | intrinsic code args =>
    simp only [act, Atom.mapAddresses] at h ⊢
    split at h
    · rename_i layout
      rw [if_pos layout]
      cases h
      exact ⟨_, rfl, follows⟩
    · rename_i other
      rw [if_neg other]
      exact scopes.effect follows shown solo h
  | call id ty args => exact scopes.effect follows shown solo h
  | construct ty args mode =>
    cases mode with
    | transient =>
      cases h
      exact ⟨_, rfl, follows⟩
    | normal => exact scopes.construct_fold follows shown solo (second rfl) h
  | literal | swizzle | operation | load | access => exact scopes.bound follows shown solo h

end Scopes

/-! ### Whole functions -/

def acts (f : Function) (i : Index) : Bool := (f.buffer.get? i).any fun a => !a.isDeclaration

def statements (f : Function) : List Index := f.buffer.marked.toList.filter (acts f)

theorem mem_statements {f : Function} {i : Index} :
    i ∈ statements f ↔ ∃ n, i = .ref n ∧ f.IsStatement n := by
  unfold statements
  rw [List.mem_filter, Std.ExtTreeSet.mem_toList]
  constructor
  · rintro ⟨marked, acting⟩
    cases i with
    | null => cases acting
    | ref n =>
      unfold acts at acting
      rw [get?_ref] at acting
      cases found : f.buffer.atoms[n]? with
      | none => rw [found] at acting; cases acting
      | some a =>
        rw [found, Option.any_some, Bool.not_eq_true'] at acting
        exact ⟨n, rfl, marked, a, found, acting⟩
  · rintro ⟨n, rfl, marked, a, found, acting⟩
    exact ⟨marked, by simp [acts, found, acting]⟩

theorem statements_ascending (f : Function) : (statements f).Pairwise (· < ·) :=
  (Std.ExtTreeSet.ordered_toList.imp Index.compare_eq_lt.1).filter _

theorem foldlM_statement {s : Scope} {items : List Index}
    (present : ∀ i ∈ items, ∃ a, s.buffer.get? i = some a) (st : State) :
    items.foldlM (statement s) st = (items.filter (acts s.function)).foldlM (statement s) st := by
  induction items generalizing st with
  | nil => rfl
  | cons i rest ih =>
    have later := fun j member => present j (List.mem_cons_of_mem _ member)
    obtain ⟨a, found⟩ := present i List.mem_cons_self
    rw [List.foldlM_cons]
    by_cases acting : acts s.function i = true
    · rw [List.filter_cons_of_pos acting, List.foldlM_cons]
      congr 1
      funext next
      exact ih later next
    · have answer : s.atom i = .ok a := by
        unfold Member.atom
        cases i with
        | null => cases found
        | ref n => rw [TargetFault.ofFault_ok_iff, atom_ok_iff]; exact found
      have declares : a.isDeclaration = true := by
        unfold acts at acting
        unfold Member.buffer at found
        simpa [found] using acting
      have still : statement s st i = .ok st := by
        rw [Scopes.statement_eq, answer, Except.ok_bind]
        cases a with
        | construct ty args mode =>
          cases mode with
          | transient => rfl
          | normal => cases declares
        | qualifier | type | list => rfl
        | _ => cases declares
      rw [List.filter_cons_of_neg acting, still, Except.ok_bind, ih later]

theorem statements_fold {u u' : Linkage} {f g : Function} {fold : Index → Index}
    (pair : Counterpart u u' f g fold) : statements g = (statements f).map fold := by
  refine eq_of_ascending (fun i => i) (statements_ascending g) ?_ ?_
  · rw [List.pairwise_map]
    refine (statements_ascending f).imp_of_mem ?_
    intro i j first second below
    obtain ⟨n, rfl, own⟩ := mem_statements.1 first
    obtain ⟨k, rfl, other⟩ := mem_statements.1 second
    exact pair.folds.order n k own other (Index.ref_lt_ref.1 below)
  · intro i
    rw [List.mem_map, mem_statements]
    constructor
    · rintro ⟨k, rfl, marked, a', found', acting⟩
      obtain ⟨j, marked', place⟩ := (pair.folds.marked _).1 marked
      obtain ⟨a, found⟩ := pair.present j (mem_visibleAtoms_of_marked marked')
      cases j with
      | null => cases found
      | ref n =>
        have image := pair.folds.folds.atoms n a found (pair.folds.kept _ marked')
        rw [place, get?_ref, found', Option.some.injEq] at image
        rw [image, Atom.isDeclaration_mapAddresses] at acting
        exact ⟨.ref n, mem_statements.2 ⟨n, rfl, marked', a, found, acting⟩, place⟩
    · rintro ⟨j, member, rfl⟩
      obtain ⟨n, rfl, marked, a, found, acting⟩ := mem_statements.1 member
      obtain ⟨k, place, image⟩ := pair.folds.folds.atom_at found (pair.folds.kept _ marked)
      refine ⟨k, place, ?_, _, image, (Atom.isDeclaration_mapAddresses a fold).trans acting⟩
      rw [← place]
      exact (pair.folds.marked _).2 ⟨_, marked, rfl⟩

section

variable {u u' : Linkage} {f g : Function} {fold : Index → Index} {st st' next : State}
  {slots : IndexMap (List Prim)}
  (slots' : IndexMap (List Prim))

theorem statement_fold (bridge : Bridge u u' f g fold) (follows : st.Follows fold st') {n : Nat}
    (acts : f.IsStatement n) (h : statement { unit := u, function := f, slots } st (.ref n) = .ok next) :
    ∃ next', statement { unit := u', function := g, slots := slots' } st' (fold (.ref n)) = .ok next' ∧
      next.Follows fold next' := by
  have scopes : Scopes fold { unit := u, function := f, slots := st.slots }
      { unit := u', function := g, slots := st'.slots } := ⟨bridge, follows.slots, follows.named⟩
  rw [Scopes.statement_eq] at h ⊢
  obtain ⟨a, answer, h⟩ := Except.bind_ok h
  obtain ⟨next', acted, related⟩ := scopes.act_fold follows rfl (mem_visibleAtoms_of_marked acts.1)
    (bridge.folds.solo n acts) answer h
  exact ⟨next', by rw [scopes.atom (bridge.folds.kept _ acts.1) answer, Except.ok_bind]; exact acted, related⟩

theorem foldlM_fold (bridge : Bridge u u' f g fold) (follows : st.Follows fold st')
    {items : List Index} (among : ∀ i ∈ items, i ∈ statements f)
    (h : items.foldlM (statement { unit := u, function := f, slots }) st = .ok next) :
    ∃ next', (items.map fold).foldlM (statement { unit := u', function := g, slots := slots' }) st' =
        .ok next' ∧ next.Follows fold next' := by
  induction items generalizing st st' with
  | nil =>
    cases h
    exact ⟨st', rfl, follows⟩
  | cons i rest ih =>
    obtain ⟨n, rfl, own⟩ := mem_statements.1 (among i List.mem_cons_self)
    rw [List.foldlM_cons] at h
    obtain ⟨middle, first, h⟩ := Except.bind_ok h
    obtain ⟨middle', first', follows⟩ := statement_fold slots' bridge follows own first
    obtain ⟨next', later, follows⟩ := ih follows (fun j member => among j (List.mem_cons_of_mem _ member)) h
    exact ⟨next', by rw [List.map_cons, List.foldlM_cons, first', Except.ok_bind, later], follows⟩

theorem body_fold {slots' : IndexMap (List Prim)} (bridge : Bridge u u' f g fold) (held : ∀ i, slots'[fold i]? = slots[i]?)
    (named : slots[Index.null]? = none) (solo : ∀ i, (slots[i]?).isSome → Solo fold i) {code : Code}
    (h : body { unit := u, function := f, slots } = .ok code) :
    body { unit := u', function := g, slots := slots' } = .ok (code.rename fold) ∧
      code.Writes (Solo fold) := by
  have start : State.Follows fold { slots } { slots := slots' } :=
    ⟨held, named, solo, rfl, rfl, trivial, fun frame member => nomatch member⟩
  have present : ∀ i ∈ f.buffer.marked.toList, ∃ a, f.buffer.get? i = some a := fun i member =>
    bridge.present i (mem_visibleAtoms_of_marked (Std.ExtTreeSet.mem_toList.1 member))
  have present' : ∀ i ∈ g.buffer.marked.toList, ∃ a, g.buffer.get? i = some a := by
    intro i member
    obtain ⟨j, before, rfl⟩ := (bridge.folds.marked i).1 (Std.ExtTreeSet.mem_toList.1 member)
    obtain ⟨a, found⟩ := bridge.present j (mem_visibleAtoms_of_marked before)
    cases j with
    | null => cases found
    | ref n => exact ⟨_, bridge.folds.folds.atoms n a found (bridge.folds.kept _ before)⟩
  unfold body at h ⊢
  obtain ⟨last, ran, h⟩ := Except.bind_ok h
  rw [foldlM_statement present] at ran
  obtain ⟨last', ran', follows⟩ :=
    foldlM_fold slots' bridge start (fun _ member => member) ran
  rw [foldlM_statement present']
  change (statements f).foldlM _ _ = _ at ran
  change ((statements f).map fold).foldlM _ _ = _ at ran'
  change ((statements g).foldlM _ _ >>= _) = _ ∧ _
  rw [statements_fold bridge.toCounterpart, ran', Except.ok_bind, follows.frames, List.isEmpty_map]
  split at h
  · rename_i closed
    rw [if_pos closed]
    cases h
    rw [follows.code]
    exact ⟨rfl, follows.writes⟩
  · cases h

end

end ShaderForge.Native
