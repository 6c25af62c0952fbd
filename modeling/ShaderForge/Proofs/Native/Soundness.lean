import ShaderForge.Native.Module
import ShaderForge.Proofs.Function.Signature
import ShaderForge.Proofs.Native.Values

/-!
Soundness of native lowering. The code of a function whose atoms fit their types is exact: every
assignment fills a slot with a whole value of the owner's type, every store writes scalars of the
types that are there, every call passes what the callee takes, and nothing is cut off.
-/

namespace ShaderForge

namespace Native

open Buffer Linkage

/-! ### Exact code -/

/-- Code that gives every slot and every return all the scalars it has, and no others; `own` are the
scalars of slots, by their owners. -/
def Code.Exact (own : Index → Lowered (List Prim)) (returns : List Prim) : Code → Prop
  | .skip | .leave | .next => True
  | .seq first second => first.Exact own returns ∧ second.Exact own returns
  | .assign owner width value => ∃ ts, own owner = .ok ts ∧ value.Gives ts ∧ width = ts.length
  | .update owner scalars positions value => own owner = .ok scalars ∧
    ∃ ts, value.Gives ts ∧ positions.map (scalars[·]?) = ts.map some
  | .discard value => value.Gives []
  | .branch condition yes no =>
    (∃ t, condition.Gives [t]) ∧ yes.Exact own returns ∧ no.Exact own returns
  | .loop condition body => (∃ t, condition.Gives [t]) ∧ body.Exact own returns
  | .ret scalars value => scalars = returns ∧ value.Gives scalars

def Frame.Exact (own : Index → Lowered (List Prim)) (returns : List Prim) : Frame → Prop
  | .conditional outer arms pending => outer.Exact own returns ∧
    (∀ arm ∈ arms, (∃ t, arm.1.Gives [t]) ∧ arm.2.Exact own returns) ∧
    ∀ condition ∈ pending, ∃ t, condition.Gives [t]
  | .loop outer condition => outer.Exact own returns ∧ ∃ t, condition.Gives [t]

/-- Exact code so far, with slots of the types of their owners. -/
structure State.Exact (own : Index → Lowered (List Prim)) (returns : List Prim) (st : State) : Prop where
  slots : ∀ i ts, st.slots[i]? = some ts → own i = .ok ts
  code : st.code.Exact own returns
  frames : ∀ frame ∈ st.frames, frame.Exact own returns

variable {own : Index → Lowered (List Prim)} {s : Scope} {returns : List Prim} {st st' : State} {i : Index}

theorem State.Exact.append {c : Code} (exact : st.Exact own returns) (added : c.Exact own returns) :
    (st.append c).Exact own returns :=
  ⟨exact.slots, ⟨exact.code, added⟩, exact.frames⟩

theorem State.Exact.bind {value : Expr} (exact : st.Exact s.scalars returns) (yields : s.Yields i value)
    (h : st.bind s i value = .ok st') : st'.Exact s.scalars returns := by
  obtain ⟨ts, known, given⟩ := yields
  unfold State.bind at h
  rw [known, Except.ok_bind, given.width, List.take_length] at h
  simp only at h
  split at h
  · cases h
  · cases h
    have appended := exact.append (c := .assign i ts.length value) ⟨ts, known, given, rfl⟩
    refine ⟨?_, appended.code, appended.frames⟩
    intro j us held
    simp only [Std.ExtTreeMap.getElem?_insert] at held
    split at held
    · rename_i same
      cases held
      rw [← Std.LawfulEqCmp.eq_of_compare same]
      exact known
    · exact exact.slots j us held

theorem arms_exact {finished : List (Expr × Code)} {otherwise : Code}
    (each : ∀ arm ∈ finished, (∃ t, arm.1.Gives [t]) ∧ arm.2.Exact own returns)
    (last : otherwise.Exact own returns) : (arms finished otherwise).Exact own returns := by
  induction finished with
  | nil => exact last
  | cons arm rest ih =>
    obtain ⟨condition, body⟩ := each arm List.mem_cons_self
    exact ⟨condition, body, ih fun arm member => each arm (List.mem_cons_of_mem _ member)⟩

theorem close_exact (exact : st.Exact own returns) {t : Scope} (h : close t st i = .ok st') :
    st'.Exact own returns := by
  unfold close at h
  split at h
  · rename_i outer finished pending frames blocks
    cases h
    have here := exact.frames
    rw [blocks] at here
    obtain ⟨before, each, last⟩ := here _ List.mem_cons_self
    refine ⟨exact.slots, ⟨before, ?_⟩, fun frame member => here frame (List.mem_cons_of_mem _ member)⟩
    cases pending with
    | none => exact arms_exact each exact.code
    | some condition =>
      refine arms_exact (fun arm member => ?_) trivial
      rcases List.mem_append.1 member with member | member
      · exact each arm member
      · rw [List.mem_singleton.1 member]
        exact ⟨last condition rfl, exact.code⟩
  · rename_i outer condition frames blocks
    cases h
    have here := exact.frames
    rw [blocks] at here
    obtain ⟨before, test⟩ := here _ List.mem_cons_self
    exact ⟨exact.slots, ⟨before, test, exact.code⟩,
      fun frame member => here frame (List.mem_cons_of_mem _ member)⟩
  · cases h

theorem alternative_exact (exact : st.Exact own returns) {t : Scope} {kind : BranchKind}
    {condition : Lowered (Option Expr)}
    (tested : ∀ c, condition = .ok c → ∀ e ∈ c, ∃ t, e.Gives [t])
    (h : alternative t st i kind condition = .ok st') : st'.Exact own returns := by
  unfold alternative at h
  split at h
  · rename_i outer finished pending frames blocks
    obtain ⟨next, answer, h⟩ := Except.bind_ok h
    cases h
    have here := exact.frames
    rw [blocks] at here
    obtain ⟨before, each, last⟩ := here _ List.mem_cons_self
    refine ⟨exact.slots, trivial, fun frame member => ?_⟩
    rcases List.mem_cons.1 member with rfl | member
    · refine ⟨before, fun arm member => ?_, tested next answer⟩
      rcases List.mem_append.1 member with member | member
      · exact each arm member
      · rw [List.mem_singleton.1 member]
        exact ⟨last pending rfl, exact.code⟩
    · exact here frame (List.mem_cons_of_mem _ member)
  · cases h

theorem Scope.typeScalars_nil {ty : Ty} (none : ty.isNil = true) : s.typeScalars ty = .ok [] := by
  unfold Ty.isNil at none
  split at none
  · rfl
  · rfl
  · cases none

theorem Scope.scalars_null (s : Scope) : s.scalars .null = .ok [] := by
  have known : s.typeOf .null = .ok .nil := by
    unfold Member.typeOf
    rw [typeOf_null]
    rfl
  rw [scalars_eq known]
  rfl

namespace Scope.Grounded

theorem withSlots {slots : IndexMap (List Prim)} (g : s.Grounded)
    (held : ∀ i ts, slots[i]? = some ts → s.scalars i = .ok ts) :
    ({ s with slots } : Scope).Grounded :=
  ⟨g.layered, g.placed, g.fits, held⟩

theorem value_yields (g : s.Grounded) {e : Expr} (shown : Shown s.function i) (h : s.value i = .ok e) :
    s.Yields i e :=
  g.valueAt_faithful _ i e shown h

theorem fresh_yields (g : s.Grounded) {e : Expr} (shown : Shown s.function i) (h : s.fresh i = .ok e) :
    s.Yields i e :=
  g.expression_yields (g.valueAt_faithful _) shown h

theorem condition_gives (g : s.Grounded) {e : Expr} (shown : Shown s.function i)
    (h : s.condition i = .ok e) : ∃ t, e.Gives [t] := by
  unfold Scope.condition at h
  obtain ⟨value, computed, h⟩ := Except.bind_ok h
  obtain ⟨ts, _, given⟩ := g.value_yields shown computed
  split at h
  · rename_i one
    cases h
    rw [given.width] at one
    obtain ⟨t, rfl⟩ := List.length_eq_one_iff.1 one
    exact ⟨t, given⟩
  · cases h

theorem branch_exact (g : s.Grounded) (exact : st.Exact s.scalars returns) {kind : BranchKind} {cond : Index}
    (shown : Shown s.function cond) (h : branch s st i kind cond = .ok st') : st'.Exact s.scalars returns := by
  unfold branch at h
  cases kind with
  | ifThen =>
    obtain ⟨condition, tested, h⟩ := Except.bind_ok h
    cases h
    refine ⟨exact.slots, trivial, fun frame member => ?_⟩
    rcases List.mem_cons.1 member with rfl | member
    · refine ⟨exact.code, fun arm member => absurd member List.not_mem_nil, ?_⟩
      intro c same
      cases same
      exact g.condition_gives shown tested
    · exact exact.frames frame member
  | elseIf =>
    refine alternative_exact exact ?_ h
    rintro _ tested e rfl
    obtain ⟨condition, tested, same⟩ := Except.bind_ok tested
    cases same
    exact g.condition_gives shown tested
  | otherwise =>
    refine alternative_exact exact ?_ h
    rintro _ ⟨⟩ e none
    cases none
  | whileLoop | forLoop =>
    obtain ⟨condition, tested, h⟩ := Except.bind_ok h
    cases h
    refine ⟨exact.slots, trivial, fun frame member => ?_⟩
    rcases List.mem_cons.1 member with rfl | member
    · exact ⟨exact.code, g.condition_gives shown tested⟩
    · exact exact.frames frame member
  | next | leave =>
    simp only at h
    split at h
    · cases h
      exact exact.append trivial
    · cases h
  | close => exact close_exact exact h

theorem effect_exact (g : s.Grounded) (exact : st.Exact s.scalars returns) (shown : Shown s.function i)
    (h : effect s st i = .ok st') : st'.Exact s.scalars returns := by
  unfold effect at h
  obtain ⟨ty, known, h⟩ := Except.bind_ok h
  split at h
  · rename_i none
    obtain ⟨e, computed, h⟩ := Except.bind_ok h
    cases h
    obtain ⟨ts, scalars, given⟩ := g.fresh_yields shown computed
    rw [Scope.scalars_eq known, Scope.typeScalars_nil none] at scalars
    cases scalars
    exact exact.append given
  · obtain ⟨e, computed, h⟩ := Except.bind_ok h
    exact exact.bind (g.fresh_yields shown computed) h

theorem store_exact (g : s.Grounded) (exact : st.Exact s.scalars returns) {dst src : Index} {place : Scope.Place}
    {value : Expr} (shown : Shown s.function i) (h : s.atom i = .ok (.store dst src))
    (placed : s.place dst = .ok place) (computed : s.value src = .ok value) :
    (st.append (.update place.owner place.scalars place.positions value)).Exact s.scalars returns := by
  obtain ⟨n, rfl, there⟩ := atom_found h
  obtain ⟨owner, ts, target, held⟩ :=
    g.placeAt_denotes _ (i := dst) (shown.operand g.closed there (Or.inl rfl)) placed
  obtain ⟨us, source, given⟩ :=
    g.value_yields (i := src) (shown.operand g.closed there (Or.inr ⟨rfl, rfl⟩)) computed
  have same : (s.scalars dst).toOption = (s.scalars src).toOption :=
    g.fits _ shown.visible _ there
  rw [target, source] at same
  obtain rfl : ts = us := Option.some.inj same
  exact exact.append ⟨owner, ts, given, held⟩

theorem ret_scalars (g : s.Grounded) {result : Index} {layout : Layout} {ts : List Prim}
    (h : s.atom i = .ok (.ret result)) (known : s.scalars result = .ok ts)
    (returned : resultLayout s.unit s.function = .ok layout) : layout.scalars = ts := by
  obtain ⟨n, rfl, there⟩ := atom_found h
  obtain ⟨own, answer, same⟩ := g.placed.prepared.returned there
  have asked : s.typeOf result = .ok own := by
    unfold Member.typeOf
    rw [TargetFault.ofFault_ok_iff]
    exact answer
  rw [scalars_eq asked, ← typeScalars_bare, same] at known
  unfold resultLayout Layout.of at returned
  obtain ⟨linked, resolved, returned⟩ := Except.bind_ok returned
  obtain ⟨scalars, flat, returned⟩ := Except.bind_ok returned
  unfold typeScalars Member.resolve at known
  rw [resolved, Except.ok_bind, flat] at known
  rw [Layout.pack_scalars (Layout.ofScalars_ok_iff.1 returned)]
  exact Except.ok.inj known

theorem statement_exact {layout : Layout} (g : ({ s with slots := st.slots } : Scope).Grounded)
    (returned : resultLayout s.unit s.function = .ok layout) (exact : st.Exact s.scalars layout.scalars)
    (shown : Shown s.function i) (h : statement s st i = .ok st') : st'.Exact s.scalars layout.scalars := by
  unfold statement at h
  simp only at h
  obtain ⟨a, found, h⟩ := Except.bind_ok h
  obtain ⟨n, rfl, there⟩ := atom_found found
  have first : Shown s.function a.addresses.1 := shown.operand g.closed there (Or.inl rfl)
  cases a with
  | qualifier | type | list =>
    cases h
    exact exact
  | store dst src =>
    obtain ⟨place, placed, h⟩ := Except.bind_ok h
    obtain ⟨value, computed, h⟩ := Except.bind_ok h
    split at h
    · cases h
    · split at h
      · cases h
      · cases h
        exact g.store_exact exact shown found placed computed
  | ret result =>
    cases result with
    | null =>
      cases h
      have none := g.ret_scalars found (scalars_null _) returned
      exact exact.append ⟨none.symm, .zeros []⟩
    | ref k =>
      obtain ⟨value, computed, h⟩ := Except.bind_ok h
      obtain ⟨own, answer, h⟩ := Except.bind_ok h
      cases h
      obtain rfl : layout = own := Except.ok.inj (returned.symm.trans answer)
      obtain ⟨ts, known, given⟩ := g.value_yields (i := .ref k) first computed
      rw [← g.ret_scalars found known returned] at given
      exact exact.append ⟨rfl, given⟩
  | branch kind cond failto => exact g.branch_exact exact first h
  | intrinsic code args =>
    simp only at h
    split at h
    · cases h
      exact exact
    · exact g.effect_exact exact shown h
  | call id ty args => exact g.effect_exact exact shown h
  | construct ty args mode =>
    cases mode with
    | transient =>
      cases h
      exact exact
    | normal =>
      cases args with
      | null =>
        obtain ⟨ts, known, h⟩ := Except.bind_ok h
        exact State.Exact.bind exact ⟨ts, known, .zeros ts⟩ h
      | ref k =>
        obtain ⟨e, computed, h⟩ := Except.bind_ok h
        exact State.Exact.bind exact (g.fresh_yields shown computed) h
  | literal | swizzle | operation | load | access =>
    obtain ⟨e, computed, h⟩ := Except.bind_ok h
    exact State.Exact.bind exact (g.fresh_yields shown computed) h

theorem statements_exact {layout : Layout} (g : s.Grounded)
    (returned : resultLayout s.unit s.function = .ok layout) {items : List Index}
    (shown : ∀ i ∈ items, Shown s.function i) (exact : st.Exact s.scalars layout.scalars)
    (h : items.foldlM (statement s) st = .ok st') : st'.Exact s.scalars layout.scalars := by
  induction items generalizing st with
  | nil =>
    cases h
    exact exact
  | cons i rest ih =>
    rw [List.foldlM_cons] at h
    obtain ⟨next, here, h⟩ := Except.bind_ok h
    exact ih (fun j member => shown j (List.mem_cons_of_mem _ member))
      (statement_exact (g.withSlots exact.slots) returned exact (shown i List.mem_cons_self) here) h

end Scope.Grounded

/-! ### Lowered functions -/

def Procedure.entry (p : Procedure) (u : Linkage) (f : Function) : Scope :=
  { unit := u, function := f, slots := p.parameters.foldl (fun slots (i, ts) => slots.insert i ts) ∅ }

def Scope.Reaches (s t : Scope) : Prop :=
  ∃ done rest st, s.buffer.marked.toList = done ++ rest ∧
    done.foldlM (statement s) { slots := s.slots } = .ok st ∧ t = { s with slots := st.slots }

namespace Scope.Grounded

variable {layout : Layout}

theorem marked_exact (g : s.Grounded) (returned : resultLayout s.unit s.function = .ok layout)
    {done rest : List Index} (split : s.buffer.marked.toList = done ++ rest)
    (ran : done.foldlM (statement s) { slots := s.slots } = .ok st) : st.Exact s.scalars layout.scalars := by
  refine g.statements_exact returned (fun i inside => ?_) ?_ ran
  · refine Or.inr (mem_visibleAtoms_of_marked (Std.ExtTreeSet.mem_toList.1 ?_))
    rw [show s.function.buffer.marked.toList = _ from split]
    exact List.mem_append_left _ inside
  · exact ⟨g.slots, trivial, fun _ none => absurd none List.not_mem_nil⟩

theorem reaches (g : s.Grounded) (returned : resultLayout s.unit s.function = .ok layout) {t : Scope}
    (reaches : s.Reaches t) : t.Grounded := by
  obtain ⟨done, rest, st, split, ran, rfl⟩ := reaches
  exact g.withSlots (g.marked_exact returned split ran).slots

theorem body_exact (g : s.Grounded) (returned : resultLayout s.unit s.function = .ok layout) {code : Code}
    (made : body s = .ok code) : code.Exact s.scalars layout.scalars := by
  unfold body at made
  obtain ⟨st, ran, made⟩ := Except.bind_ok made
  split at made
  · rw [← Except.ok.inj made]
    exact (g.marked_exact returned (List.append_nil _).symm ran).code
  · cases made

end Scope.Grounded

def Trusted (u : Linkage) (f : Function) : Prop :=
  ∀ i ∈ visibleAtoms f.buffer, ∀ a ∈ f.buffer.get? i, Scope.Fits { unit := u, function := f } i a

instance (u : Linkage) (f : Function) : Decidable (Trusted u f) :=
  decidable_of_iff (∀ i ∈ (visibleAtoms f.buffer).toList, ∀ a ∈ f.buffer.get? i,
    Scope.Fits { unit := u, function := f } i a) (by simp only [Std.ExtTreeSet.mem_toList]; rfl)

theorem procedure_ok {u : Linkage} {f : Function} {symbol : String} {p : Procedure}
    (h : procedure u f symbol = .ok p) :
    ∃ typed, parameters { unit := u, function := f } = .ok typed ∧
      Layout.concat u (typed.map Prod.snd) = .ok p.args ∧
      (typed.mapM fun (i, ty) => do return (i, ← scalarsOf u ty)) = .ok p.parameters ∧
      body (p.entry u f) = .ok p.body ∧ resultLayout u f = .ok p.returns := by
  unfold procedure at h
  simp only at h
  obtain ⟨typed, found, h⟩ := Except.bind_ok h
  obtain ⟨args, packed, h⟩ := Except.bind_ok h
  obtain ⟨parameters, flat, h⟩ := Except.bind_ok h
  obtain ⟨code, made, h⟩ := Except.bind_ok h
  obtain ⟨returns, returned, h⟩ := Except.bind_ok h
  cases h
  exact ⟨typed, found, packed, flat, made, returned⟩

theorem procedure_names {u : Linkage} {f : Function} {symbol : String} {p : Procedure}
    (h : procedure u f symbol = .ok p) : p.id = f.id ∧ p.symbol = symbol := by
  unfold procedure at h
  simp only at h
  obtain ⟨_, _, h⟩ := Except.bind_ok h
  obtain ⟨_, _, h⟩ := Except.bind_ok h
  obtain ⟨_, _, h⟩ := Except.bind_ok h
  obtain ⟨_, _, h⟩ := Except.bind_ok h
  obtain ⟨_, _, h⟩ := Except.bind_ok h
  cases h
  exact ⟨rfl, rfl⟩

theorem procedure_of_steps {u : Linkage} {f : Function} {p : Procedure} {typed : List (Index × LinkedTy)}
    (found : parameters { unit := u, function := f } = .ok typed)
    (packed : Layout.concat u (typed.map Prod.snd) = .ok p.args)
    (flat : (typed.mapM fun (i, ty) => do return (i, ← scalarsOf u ty)) = .ok p.parameters)
    (made : body (p.entry u f) = .ok p.body) (returned : resultLayout u f = .ok p.returns) (id : p.id = f.id) :
    procedure u f p.symbol = .ok p := by
  obtain ⟨_, _, _, _, _, _⟩ := p
  cases id
  unfold Procedure.entry at made
  unfold procedure
  simp only at packed flat made returned
  simp only [found, packed, flat, made, returned, Except.ok_bind]
  rfl

theorem slots_of_parameters {parameters : List (Index × List Prim)}
    (each : ∀ p ∈ parameters, s.scalars p.1 = .ok p.2) {slots : IndexMap (List Prim)}
    (held : ∀ i ts, slots[i]? = some ts → s.scalars i = .ok ts) :
    ∀ i ts, (parameters.foldl (fun slots (i, ts) => slots.insert i ts) slots)[i]? = some ts →
      s.scalars i = .ok ts := by
  induction parameters generalizing slots with
  | nil => exact held
  | cons p rest ih =>
    refine ih (fun q member => each q (List.mem_cons_of_mem _ member)) ?_
    intro i ts found
    simp only [Std.ExtTreeMap.getElem?_insert] at found
    split at found
    · rename_i same
      cases found
      rw [← Std.LawfulEqCmp.eq_of_compare same]
      exact each p List.mem_cons_self
    · exact held i ts found

theorem parameters_ok {typed : List (Index × LinkedTy)} (h : parameters s = .ok typed) :
    List.Forall₂ (fun q t => ∃ ty, s.typeOf q.1 = .ok ty ∧ t.1 = q.1 ∧ s.resolve ty = .ok t.2)
      s.function.parameters typed := by
  unfold parameters at h
  refine (Except.mapM_ok_iff.1 h).imp fun q t found => ?_
  obtain ⟨ty, known, found⟩ := Except.bind_ok found
  split at found
  · cases found
  · cases found
  · obtain ⟨linked, resolved, found⟩ := Except.bind_ok found
    cases found
    exact ⟨ty, known, rfl, resolved⟩

theorem parameters_scalars {typed : List (Index × LinkedTy)} {flat : List (Index × List Prim)}
    (found : parameters s = .ok typed)
    (scalars : (typed.mapM fun (i, ty) => do return (i, ← scalarsOf s.unit ty)) = .ok flat) :
    (∀ p ∈ flat, s.scalars p.1 = .ok p.2) ∧
      (typed.map Prod.snd).mapM (scalarsOf s.unit) = .ok (flat.map Prod.snd) := by
  have each := parameters_ok found
  generalize s.function.parameters = items at each
  rw [Except.mapM_ok_iff] at scalars
  clear found
  induction scalars generalizing items with
  | nil => exact ⟨fun p member => absurd member List.not_mem_nil, rfl⟩
  | cons first _ ih =>
    obtain ⟨ts, flat, first⟩ := Except.bind_ok first
    cases first
    obtain ⟨q, rest, ⟨ty, known, same, resolved⟩, later, rfl⟩ := List.forall₂_cons_right_iff.1 each
    obtain ⟨owned, all⟩ := ih _ later
    refine ⟨fun p member => ?_, ?_⟩
    · rcases List.mem_cons.1 member with rfl | member
      · unfold Scope.scalars Scope.linkedType
        simp only [same, known, Except.ok_bind, resolved, flat]
      · exact owned p member
    · rw [List.map_cons, List.mapM_cons, flat, Except.ok_bind, all]
      rfl

theorem argumentLayout_eq (prepared : s.function.Prepared) {typed : List (Index × LinkedTy)}
    (found : parameters s = .ok typed) :
    argumentLayout s.unit s.function = Layout.concat s.unit (typed.map Prod.snd) := by
  have each := parameters_ok found
  have types : s.function.args.mapM (fun ty => TargetFault.ofLink (s.unit.resolve s.function.id ty)) =
      .ok (typed.map Prod.snd) := by
    have listed := prepared.arguments
    rw [Except.mapM_ok_iff]
    generalize s.function.parameters = items at each listed
    generalize s.function.args = args at listed
    clear found
    induction listed generalizing typed with
    | nil =>
      cases each
      exact .nil
    | cons first _ ih =>
      obtain ⟨t, rest, ⟨ty, known, _, resolved⟩, later, rfl⟩ := List.forall₂_cons_left_iff.1 each
      unfold Member.typeOf at known
      rw [TargetFault.ofFault_ok_iff] at known
      obtain rfl := Except.ok.inj (first.symm.trans known)
      exact .cons resolved (ih later)
  unfold argumentLayout
  rw [types]
  rfl

/-- A lowered function computes what the types of its atoms say. -/
structure Sound (u : Linkage) (f : Function) (p : Procedure) : Prop where
  takes : argumentLayout u f = .ok p.args ∧ p.args.scalars = p.parameters.flatMap Prod.snd
  gives : resultLayout u f = .ok p.returns
  /-- Slots, stores and returns get all the scalars they have, and no others. -/
  code : p.body.Exact (p.entry u f).scalars p.returns.scalars
  slots : ∀ t, (p.entry u f).Reaches t → ∀ i ts, t.slots[i]? = some ts → t.scalars i = .ok ts
  /-- Whatever atom is evaluated, at whatever depth, it gives the scalars of its type, in registers
  of their kinds. -/
  values : ∀ t, (p.entry u f).Reaches t → ∀ depth e, ∀ i ∈ visibleAtoms f.buffer,
    t.valueAt depth i = .ok e ∨ t.expression (t.valueAt depth) i = .ok e →
    ∃ ts, t.scalars i = .ok ts ∧ e.Gives ts ∧ e.registers = ts.map Register.ofPrim
  calls : ∀ t, (p.entry u f).Reaches t → ∀ depth e, ∀ i ∈ visibleAtoms f.buffer, ∀ id ty args,
    f.buffer.get? i = some (.call id ty args) → t.expression (t.valueAt depth) i = .ok e → t.Passes i id e

/-- Native lowering is sound where atoms are what it takes them for. -/
theorem lowering_sound {r : Registry} {entries : List FunctionId} {u : Linkage} {f : Function}
    {symbol : String} {p : Procedure} (linked : link r entries = .ok u) (member : f ∈ u.functions)
    (trusted : Trusted u f) (lowered : procedure u f symbol = .ok p) : Sound u f p := by
  have coherent := (Reached.of_link linked).coherent
  obtain ⟨typed, found, packed, flat, made, returned⟩ := procedure_ok lowered
  obtain ⟨owned, scalars⟩ := parameters_scalars found flat
  have placed := coherent.placed f member
  have grounded : (p.entry u f).Grounded :=
    ⟨coherent.layered, placed, trusted, slots_of_parameters owned (by simp)⟩
  refine ⟨⟨?_, ?_⟩, returned, grounded.body_exact returned made,
    fun t reaches => (grounded.reaches returned reaches).slots, ?_, ?_⟩
  · rw [argumentLayout_eq placed.prepared found]
    exact packed
  · unfold Layout.concat at packed
    rw [scalars] at packed
    rw [Layout.pack_scalars (Layout.ofScalars_ok_iff.1 packed), List.flatMap_def]
  · intro t reaches depth e i visible computed
    have here := grounded.reaches returned reaches
    obtain ⟨_, _, _, _, _, rfl⟩ := reaches
    have faithful := here.valueAt_faithful depth
    have yields : Scope.Yields _ i e :=
      computed.elim (faithful i e (Or.inr visible)) (here.expression_yields faithful (Or.inr visible))
    obtain ⟨ts, known, given⟩ := yields
    exact ⟨ts, known, given, given.registers⟩
  · intro t reaches depth e i visible id ty args found computed
    have here := grounded.reaches returned reaches
    obtain ⟨_, _, _, _, _, rfl⟩ := reaches
    have atom : (p.entry u f).atom i = .ok (.call id ty args) := by
      unfold Member.atom
      rw [TargetFault.ofFault_ok_iff, atom_ok_iff]
      exact found
    unfold Scope.expression at computed
    rw [show Member.atom _ i = _ from atom] at computed
    exact here.call_passes (here.valueAt_faithful depth) (Or.inr visible) atom computed

/-- One function puts the end of a vector and a number into a struct; the other changes a component of
its vector, calls it and reads the first field. -/
def packing : Registry :=
  let pack := Buffer.ofContent [.type .nil .null .null, .type .i32 .null (.ref 0), .type .vec2 .null (.ref 1),
    .type .nil (.ref 2) .null, .type .vec3 .null .null, .qualifier (.ref 4) .parameter 0, .swizzle (.ref 5) .yz,
    .literal (.i32 7), .list (.ref 7) .null, .list (.ref 6) (.ref 8), .construct (.ref 3) (.ref 9) .normal,
    .ret (.ref 10)] [] []
  let main := Buffer.ofContent [.type .nil .null .null, .type .i32 .null (.ref 0), .type .vec2 .null (.ref 1),
    .type .nil (.ref 2) .null, .type .vec3 .null .null, .qualifier (.ref 4) .parameter 0, .list (.ref 5) .null,
    .construct (.ref 4) (.ref 6) .normal, .swizzle (.ref 7) .y, .literal (.f32 0x40a00000),
    .store (.ref 8) (.ref 9), .list (.ref 7) .null, .call 0 (.ref 3) (.ref 11), .load (.ref 12) 0,
    .ret (.ref 13)] [] []
  ((Registry.empty.register "pack" pack).2.register "main" main).2

theorem packing_sound :
    ∃ u, link packing [1] = .ok u ∧ u.functions.map (·.id) = [0, 1] ∧
      ∀ f ∈ u.functions, Trusted u f ∧ ∃ p, procedure u f f.name = .ok p ∧ Sound u f p := by
  have passes : ((link packing [1]).toOption.any fun u => decide (u.functions.map (·.id) = [0, 1] ∧
      ∀ f ∈ u.functions, Trusted u f ∧ (procedure u f f.name).toOption.isSome)) = true := by
    decide +kernel
  obtain ⟨u, linked, passes⟩ := (Option.any_eq_true _ _).1 passes
  rw [Except.toOption_eq_some_iff] at linked
  obtain ⟨ids, each⟩ := of_decide_eq_true passes
  refine ⟨u, linked, ids, fun f member => ?_⟩
  obtain ⟨trusted, lowers⟩ := each f member
  obtain ⟨p, lowered⟩ := Option.isSome_iff_exists.1 lowers
  rw [Except.toOption_eq_some_iff] at lowered
  exact ⟨trusted, p, lowered, lowering_sound linked member trusted lowered⟩

/-- One function gives two numbers, the other calls it for one. -/
def halved : Registry :=
  let pair := Buffer.ofContent [.literal (.f32 0x3f800000), .literal (.f32 0x40000000), .list (.ref 1) .null,
    .list (.ref 0) (.ref 2), .type .vec2 .null .null, .construct (.ref 4) (.ref 3) .normal, .ret (.ref 5)] [] []
  let half := Buffer.ofContent [.type .f32 .null .null, .call 0 (.ref 0) .null, .ret (.ref 1)] [] []
  ((Registry.empty.register "pair" pair).2.register "half" half).2

/-- The unit compiles, and the second number is lost. -/
theorem halved_not_sound :
    ∃ u m f p, link halved [1] = .ok u ∧ Module.compile u = .ok m ∧
      (m.run? 1 "half" []).map (·.toOption) = some (some [0x3f800000]) ∧ f ∈ u.functions ∧
      procedure u f f.name = .ok p ∧ ¬ Sound u f p := by
  have passes : ((link halved [1]).toOption.any fun u => (Module.compile u).toOption.any fun m =>
      u.functions.any fun f => (procedure u f f.name).toOption.any fun p =>
        (((p.entry u f).expression ((p.entry u f).valueAt 0) (.ref 1)).toOption.any fun e =>
          decide ((m.run? 1 "half" []).map (·.toOption) = some (some [0x3f800000]) ∧
            Index.ref 1 ∈ visibleAtoms f.buffer ∧
            ((p.entry u f).scalars (.ref 1)).toOption = some [.f32] ∧ e.registers = [.f32, .f32]))) = true := by
    decide +kernel
  obtain ⟨u, linked, passes⟩ := (Option.any_eq_true _ _).1 passes
  obtain ⟨m, compiled, passes⟩ := (Option.any_eq_true _ _).1 passes
  obtain ⟨f, member, passes⟩ := List.any_eq_true.1 passes
  obtain ⟨p, lowered, passes⟩ := (Option.any_eq_true _ _).1 passes
  obtain ⟨e, computed, passes⟩ := (Option.any_eq_true _ _).1 passes
  rw [Except.toOption_eq_some_iff] at linked compiled lowered computed
  obtain ⟨answer, visible, known, registers⟩ := of_decide_eq_true passes
  refine ⟨u, m, f, p, linked, compiled, answer, member, lowered, fun sound => ?_⟩
  obtain ⟨ts, scalars, _, same⟩ := sound.values _ ⟨[], _, _, rfl, rfl, rfl⟩ 0 e (.ref 1) visible (Or.inr computed)
  rw [scalars] at known
  cases known
  rw [registers] at same
  cases same

end Native

end ShaderForge
