import ShaderForge.Proofs.Native.Fits

/-!
The values computed for atoms, and the places that stores write. Where atoms fit, the value of every
atom gives exactly the scalars of the atom's type, and so do the components of a place.
-/

namespace ShaderForge

namespace Native

open Buffer Linkage Aggregates

namespace Scope

variable {s : Scope} {i : Index} {ts : List Prim}

/-! ### Values -/

def Yields (s : Scope) (i : Index) (e : Expr) : Prop := ∃ ts, s.scalars i = .ok ts ∧ e.Gives ts

def Faithful (s : Scope) (value : Index → Lowered Expr) : Prop :=
  ∀ i e, Shown s.function i → value i = .ok e → s.Yields i e

/-- A call of the scalars that the callee takes, with the result that its atom declares. -/
def Passes (s : Scope) (i : Index) (id : FunctionId) (e : Expr) : Prop :=
  ∃ callee packed returns given, s.unit.function? id = some callee ∧
    argumentLayout s.unit callee = .ok packed ∧ resultLayout s.unit callee = .ok returns ∧
    e = .call id packed.scalars returns.scalars given ∧ given.Gives packed.scalars ∧
    s.scalars i = .ok returns.scalars

theorem Passes.yields {id : FunctionId} {e : Expr} (passes : s.Passes i id e) : s.Yields i e := by
  obtain ⟨_, _, returns, given, _, _, _, rfl, passed, declared⟩ := passes
  exact ⟨returns.scalars, declared, .call id _ passed⟩

theorem Yields.prim {p : Prim} {e : Expr} (yields : s.Yields i e) (shape : s.prim i = .ok p) :
    p ≠ .accelerationStructure ∧ e.Gives p.parts := by
  obtain ⟨ts, known, given⟩ := yields
  obtain ⟨plain, rfl⟩ := scalars_of_prim shape known
  exact ⟨plain, given⟩

namespace Grounded

variable {value : Index → Lowered Expr} {e : Expr}

theorem load_yields (g : s.Grounded) (faithful : s.Faithful value) {src : Index} {field : Int32}
    (shown : Shown s.function i) (h : s.atom i = .ok (.load src field))
    (lowered : s.load value src field = .ok e) : s.Yields i e := by
  unfold Scope.load at lowered
  obtain ⟨base, first, lowered⟩ := Except.bind_ok lowered
  obtain ⟨n, rfl, there⟩ := atom_found h
  obtain ⟨ts, known, given⟩ := faithful src base (shown.operand g.closed there (Or.inl rfl)) first
  split at lowered
  · rename_i all
    cases lowered
    exact ⟨ts, g.whole h all known, given⟩
  · rename_i part
    obtain ⟨⟨start, stop⟩, covers, lowered⟩ := Except.bind_ok lowered
    obtain ⟨before, own, later, rfl, starts, stops, scalars⟩ := g.field shown h part covers known
    simp only at starts stops lowered
    split at lowered
    · cases lowered
    · cases lowered
      refine ⟨own, scalars, ?_⟩
      rw [stops, Nat.add_sub_cancel_left, starts]
      exact given.range

theorem access_yields (g : s.Grounded) (faithful : s.Faithful value) {src loc : Index}
    (shown : Shown s.function i) (h : s.atom i = .ok (.access src loc))
    (lowered : s.access value i src loc = .ok e) : s.Yields i e := by
  unfold Scope.access at lowered
  obtain ⟨base, first, lowered⟩ := Except.bind_ok lowered
  obtain ⟨p, shape, lowered⟩ := Except.bind_ok lowered
  obtain ⟨n, rfl, there⟩ := atom_found h
  obtain ⟨ts, known, given⟩ := faithful src base (shown.operand g.closed there (Or.inl rfl)) first
  obtain ⟨rfl, scalars⟩ := g.access h shape known
  refine ⟨_, scalars, ?_⟩
  simp only at lowered
  generalize (if p.isMatrix = true then p.rows else 1) = rows at lowered ⊢
  have picked : ∀ place, ¬ base.width < (place + 1) * rows →
      (Expr.pick base (List.range' (place * rows) rows)).Gives (List.replicate rows p.scalar) := by
    intro place within
    have split : p.parts = List.replicate (place * rows) p.scalar ++ List.replicate rows p.scalar ++
        List.replicate (p.components - (place + 1) * rows) p.scalar := by
      rw [given.width] at within
      simp only [Prim.parts, List.length_replicate, Nat.add_mul, Nat.one_mul] at within ⊢
      rw [List.replicate_append_replicate, List.replicate_append_replicate]
      congr 1
      omega
    rw [split] at given
    simpa using given.range
  split at lowered
  · split at lowered
    · cases lowered
    · rename_i within
      cases lowered
      exact picked _ within
  · split at lowered
    · cases lowered
    · rename_i within
      cases lowered
      exact picked _ within
  · cases lowered
  · cases lowered

theorem operation_yields (g : s.Grounded) (faithful : s.Faithful value) {code : Operator} {a b : Index}
    (shown : Shown s.function i) (h : s.atom i = .ok (.operation code a b))
    (lowered : s.operation value i code a b = .ok e) : s.Yields i e := by
  obtain ⟨n, rfl, there⟩ := atom_found h
  obtain ⟨typed, ty, own, ruled⟩ := g.ruled h
  unfold Scope.operation at lowered
  obtain ⟨x, first, lowered⟩ := Except.bind_ok lowered
  obtain ⟨left, shape, lowered⟩ := Except.bind_ok lowered
  obtain ⟨_, given⟩ := (faithful a x (shown.operand g.closed there (Or.inl rfl)) first).prim shape
  have present : a.isNull = false := not_null_of_prim shape
  simp only [Typing.rule, Inquiry.value?_bind, Inquiry.value?_typesOf, Inquiry.value?_ofExcept] at ruled
  obtain ⟨types, found, ruled⟩ := Option.bind_eq_some_iff.1 ruled
  obtain ⟨args, result, prims, rfl, wide, test⟩ :=
    Overload.operator_prims (Except.toOption_eq_some_iff.1 ruled)
  have operands := Except.mapM_ok_iff.1 (prims_of_types typed found prims)
  have nonempty : left ∈ args → x.width ≠ 0 := by
    intro member
    rw [given.width, Prim.parts, List.length_replicate]
    exact Nat.ne_of_gt (wide left member)
  split at lowered
  · rename_i single
    simp only [List.filter_cons, present, single, Bool.not_false, Bool.not_true, if_true,
      Bool.false_eq_true, if_false, List.filter_nil, List.forall₂_cons_left_iff, shape,
      Except.ok.injEq, List.forall₂_nil_left_iff] at operands
    obtain ⟨_, _, rfl, rfl, rfl⟩ := operands
    rw [if_neg (nonempty List.mem_cons_self)] at lowered
    split at lowered
    · rename_i op chosen
      cases lowered
      obtain ⟨keeps, componentwise⟩ := operatorTest_single chosen left.scalar
      rw [componentwise] at test
      obtain ⟨some, same⟩ := byComponent_single test
      refine ⟨_, scalars_prim own (value_of_components some), ?_⟩
      rw [same]
      exact unary_gives given keeps
    · cases lowered
  · obtain ⟨y, second, lowered⟩ := Except.bind_ok lowered
    obtain ⟨right, shape', lowered⟩ := Except.bind_ok lowered
    obtain ⟨_, given'⟩ :=
      (faithful b y (shown.operand g.closed there (Or.inr ⟨rfl, rfl⟩)) second).prim shape'
    simp only [List.filter_cons, present, not_null_of_prim shape', Bool.not_false, if_true,
      List.filter_nil, List.forall₂_cons_left_iff, shape, shape', Except.ok.injEq,
      List.forall₂_nil_left_iff] at operands
    obtain ⟨_, _, rfl, ⟨_, _, rfl, rfl, rfl⟩, rfl⟩ := operands
    split at lowered
    · cases lowered
    · rename_i single
      split at lowered
      · cases lowered
      · rename_i even
        rw [if_neg (nonempty List.mem_cons_self)] at lowered
        split at lowered
        · cases lowered
        · split at lowered
          · cases lowered
          · rename_i op chosen
            obtain ⟨alike, some, same⟩ := operatorTest_pair chosen (Bool.eq_false_iff.2 single) test
            refine ⟨_, scalars_prim own (value_of_components some), ?_⟩
            have each := binary_gives op given given' alike (by simpa using even)
            split at lowered
            · cases lowered
              obtain ⟨rfl, boolean⟩ := same
              rw [boolean] at each
              exact fold_gives each (wide left List.mem_cons_self) rfl
            · cases lowered
              obtain ⟨rfl, boolean⟩ := same
              rw [boolean] at each
              exact fold_gives each (wide left List.mem_cons_self) rfl
            · rename_i notEquals notUnequal
              cases lowered
              rw [if_neg (not_or.2 ⟨notEquals, notUnequal⟩)] at same
              rw [same]
              exact each

theorem gives_of_prims (faithful : s.Faithful value) {items : List Index} {es : List Expr} {ps : List Prim}
    (shown : ∀ item ∈ items, Shown s.function item) (values : items.mapM value = .ok es)
    (prims : items.mapM s.prim = .ok ps) : List.Forall₂ (fun e p => e.Gives p.parts) es ps := by
  rw [Except.mapM_ok_iff] at values prims
  induction values generalizing ps with
  | nil =>
    cases prims
    exact .nil
  | cons first _ ih =>
    cases prims with
    | cons shape prims =>
      exact .cons ((faithful _ _ (shown _ List.mem_cons_self) first).prim shape).2
        (ih (fun item member => shown item (List.mem_cons_of_mem _ member)) prims)

theorem library_ok {symbol : String} {arity : Nat} {e' : Expr}
    (lowered : s.library symbol arity e = .ok e') : e' = e := by
  unfold Scope.library at lowered
  split at lowered
  · cases lowered
  · cases lowered
    rfl

theorem applied_gives {code : Intrinsic} {result p : Prim} {es : List Expr} {ps : List Prim}
    (gives : List.Forall₂ (fun e p => e.Gives p.parts) es (p :: ps))
    (even : agree (es.map Expr.width) = true)
    (test : Overload.intrinsicTest code (p :: ps) result = true)
    (lowered : s.applied code p.scalar es = .ok e) : 0 < result.components ∧ e.Gives result.parts := by
  unfold Scope.applied at lowered
  simp only at lowered
  split at lowered
  · rename_i x low high
    cases lowered
    simp only [List.forall₂_cons_left_iff, List.forall₂_nil_left_iff] at gives
    obtain ⟨_, _, given, ⟨q, _, given', ⟨r, _, given'', rfl, rfl⟩, rfl⟩, same⟩ := gives
    cases same
    exact clamp_gives given given' given'' test
  · rename_i x
    cases gives with
    | cons given rest =>
      cases rest
      split at lowered
      · rename_i op chosen
        obtain ⟨keeps, same⟩ := intrinsicTest_single chosen
        rw [same] at test
        obtain ⟨some, same⟩ := byComponent_single test
        have made : e = .unary op p.scalar x := by
          split at lowered
          · exact library_ok lowered
          · cases lowered
            rfl
        rw [made, same]
        exact ⟨some, unary_gives given keeps⟩
      · cases lowered
  · rename_i x y
    cases gives with
    | cons given rest =>
      cases rest with
      | cons given' rest =>
        cases rest
        split at lowered
        · rename_i op chosen
          obtain ⟨keeps, same⟩ := intrinsicTest_pair chosen
          rw [same] at test
          obtain ⟨alike, some, same⟩ := byComponent_pair test
          have made : e = .binary op p.scalar x y := by
            split at lowered
            · exact library_ok lowered
            · cases lowered
              rfl
          have each := binary_gives op given given' alike even
          rw [keeps] at each
          rw [made, same]
          exact ⟨some, each⟩
        · cases lowered
  · cases lowered

/-- The operands of an intrinsic on a value are values, as its signature has them. -/
theorem intrinsic_operands (g : s.Grounded) {code : Intrinsic} {args first : Index} {rest : List Index}
    {p : Prim} (h : s.atom i = .ok (.intrinsic code args)) (listed : s.items args = .ok (first :: rest))
    (shape : s.prim first = .ok p) (plain : p ≠ .accelerationStructure) :
    ∃ ps result, s.typeOf i = .ok (.prim result) ∧ (first :: rest).mapM s.prim = .ok (p :: ps) ∧
      (∀ q ∈ p :: ps, 0 < q.components) ∧ Overload.intrinsicTest code (p :: ps) result = true := by
  obtain ⟨typed, ty, own, ruled⟩ := g.ruled h
  unfold Member.items at listed
  rw [TargetFault.ofFault_ok_iff, ← Except.toOption_eq_some_iff] at listed
  simp only [Typing.rule, Inquiry.value?_bind, Inquiry.value?_ofExcept, Inquiry.value?_typesOf, listed,
    Option.bind_some] at ruled
  obtain ⟨types, found, answer⟩ := Option.bind_eq_some_iff.1 ruled
  rw [Except.toOption_eq_some_iff] at answer
  obtain ⟨source, asked, bare⟩ := prim_ok_iff.1 shape
  have leads : (types.map Ty.bare).head? = some source.bare := by
    rw [List.mapM_cons, (typeOf_iff typed).1 asked, Option.bind_eq_bind, Option.bind_some] at found
    obtain ⟨others, _, made⟩ := Option.bind_eq_some_iff.1 found
    cases made
    rfl
  obtain ⟨all, result, prims, rfl, wide, test⟩ :=
    Overload.intrinsic_prims answer leads (Ty.prim?_eq_some_iff.2 (by rw [Ty.bare_bare, bare])) plain
  have operands := prims_of_types typed found prims
  obtain ⟨q, ps, shape', _, rfl⟩ := List.forall₂_cons_left_iff.1 (Except.mapM_ok_iff.1 operands)
  obtain rfl : p = q := Except.ok.inj (shape.symm.trans shape')
  exact ⟨ps, result, own, operands, wide, test⟩

theorem innerProduct_gives {p : Prim} {x y : Expr} (left : x.Gives p.parts) (right : y.Gives p.parts)
    (lowered : innerProduct i p.scalar x y = .ok e) : e.Gives [p.scalar] := by
  unfold innerProduct at lowered
  split at lowered
  · cases lowered
  · rename_i some
    cases lowered
    rw [left.width, Prim.parts, List.length_replicate] at some
    refine fold_gives (binary_gives .mul left right rfl ?_) (Nat.pos_of_ne_zero some) rfl
    exact agree_pair.2 (Or.inl (left.width.trans right.width.symm))

theorem intrinsic_yields (g : s.Grounded) (faithful : s.Faithful value) {code : Intrinsic} {args : Index}
    (shown : Shown s.function i) (h : s.atom i = .ok (.intrinsic code args))
    (lowered : s.intrinsic value i code args = .ok e) : s.Yields i e := by
  obtain ⟨n, rfl, there⟩ := atom_found h
  unfold Scope.intrinsic at lowered
  replace lowered := Except.bind_ok lowered
  obtain ⟨items, listed, lowered⟩ := lowered
  have inside := Shown.items (shown.operand g.closed there (Or.inl rfl)) listed g.closed
  cases items with
  | nil => cases lowered
  | cons first rest =>
    simp only [List.head?_cons] at lowered
    replace lowered := Except.bind_ok lowered
    obtain ⟨p, shape, lowered⟩ := lowered
    replace lowered := Except.bind_ok lowered
    obtain ⟨es, values, lowered⟩ := lowered
    obtain ⟨x, xs, value, _, rfl⟩ := List.forall₂_cons_left_iff.1 (Except.mapM_ok_iff.1 values)
    obtain ⟨plain, given⟩ := (faithful first x (inside first List.mem_cons_self) value).prim shape
    obtain ⟨ps, result, own, operands, wide, test⟩ := g.intrinsic_operands h listed shape plain
    have gives := gives_of_prims faithful inside values operands
    split at lowered
    · cases lowered
    · rename_i even
      suffices made : 0 < result.components ∧ e.Gives result.parts from
        ⟨_, scalars_prim own (value_of_components made.1), made.2⟩
      split at lowered
      · rename_i same
        cases same
        obtain ⟨single, alike, rfl⟩ := intrinsicTest_metric (Or.inl rfl) test
        obtain ⟨q, qs, given', _, rfl⟩ := List.forall₂_cons_left_iff.1 (List.forall₂_cons.1 gives).2
        obtain rfl : q = p := alike q (by simp)
        have made := innerProduct_gives given given' lowered
        rw [single] at made
        exact ⟨by decide, made⟩
      · rename_i same
        cases same
        obtain ⟨single, _, rfl⟩ := intrinsicTest_metric (Or.inr rfl) test
        obtain ⟨sum, first, lowered⟩ := Except.bind_ok lowered
        cases lowered
        have made := innerProduct_gives given given first
        rw [single] at made ⊢
        exact ⟨by decide, unary_gives (p := .f32) made rfl⟩
      · cases lowered
      · cases lowered
      · split at lowered
        · rename_i empty
          have first := wide p List.mem_cons_self
          simp only [List.map_cons, List.all_cons, Bool.and_eq_true, beq_iff_eq, given.width, Prim.parts,
            List.length_replicate] at empty
          omega
        · exact applied_gives gives (by simpa using even) test lowered

theorem parts_of_items (faithful : s.Faithful value) {items : List Index}
    {parts : List (List Prim × Expr)} (shown : ∀ item ∈ items, Shown s.function item)
    (h : (items.mapM fun item => do
      let e ← value item
      let scalars ← s.scalars item
      return (scalars.take e.width, e.truncate scalars.length)) = .ok parts) :
    items.mapM value = .ok (parts.map Prod.snd) ∧ items.mapM s.scalars = .ok (parts.map Prod.fst) ∧
      List.Forall₂ Expr.Gives (parts.map Prod.snd) (parts.map Prod.fst) := by
  rw [Except.mapM_ok_iff] at h
  rw [Except.mapM_ok_iff, Except.mapM_ok_iff]
  induction h with
  | nil => exact ⟨.nil, .nil, .nil⟩
  | cons first _ ih =>
    obtain ⟨e, computed, first⟩ := Except.bind_ok first
    obtain ⟨scalars, known, first⟩ := Except.bind_ok first
    obtain ⟨ts, known', given⟩ := faithful _ e (shown _ List.mem_cons_self) computed
    obtain rfl : scalars = ts := Except.ok.inj (known.symm.trans known')
    cases first
    rw [given.width, List.take_length, given.truncate]
    obtain ⟨values, later, gives⟩ := ih fun item member => shown item (List.mem_cons_of_mem _ member)
    exact ⟨.cons computed values, .cons known later, .cons given gives⟩

theorem spread_gives (ty : LinkedTy) {t : Prim} {part : Expr} (width : Nat) (given : part.Gives [t]) :
    (spread ty t width part).Gives (List.replicate width t) := by
  have everywhere : (Expr.pick part (List.replicate width 0)).Gives (List.replicate width t) := by
    refine .pick given ?_
    simp
  unfold spread
  simp only
  split
  · split
    · refine .pick (.join given (.zeros [t])) ?_
      apply List.ext_getElem (by simp)
      intro k _ _
      simp only [List.getElem_map, List.getElem_range, List.getElem_replicate]
      split <;> rfl
    · exact everywhere
  · exact everywhere

theorem construct_yields (g : s.Grounded) (faithful : s.Faithful value) {ty args : Index} {mode : Mode}
    (shown : Shown s.function i) (h : s.atom i = .ok (.construct ty args mode))
    (lowered : s.construct value i ty args mode = .ok e) : s.Yields i e := by
  obtain ⟨n, rfl, there⟩ := atom_found h
  unfold Scope.construct at lowered
  split at lowered
  · rename_i stands
    obtain ⟨ts, known, given⟩ := faithful ty e (shown.operand g.closed there (Or.inl rfl)) lowered
    exact ⟨ts, (g.placeholder h stands).trans known, given⟩
  · rename_i proper
    replace lowered := Except.bind_ok lowered
    obtain ⟨target, own, lowered⟩ := lowered
    replace lowered := Except.bind_ok lowered
    obtain ⟨items, listed, lowered⟩ := lowered
    replace lowered := Except.bind_ok lowered
    obtain ⟨parts, made, lowered⟩ := lowered
    have inside := Shown.items (shown.operand g.closed there (Or.inr ⟨rfl, rfl⟩)) listed g.closed
    obtain ⟨_, scalars, gives⟩ := parts_of_items faithful inside made
    have given := Expr.Gives.concat gives
    rw [← List.flatMap_def] at given
    have passed : s.argumentScalars args = .ok (parts.flatMap Prod.fst) := by
      unfold argumentScalars
      rw [listed, Except.ok_bind, scalars, Except.ok_bind, List.flatMap_def]
      rfl
    obtain ⟨fewer, uniform⟩ := g.fits _ shown.visible _ there (Bool.eq_false_iff.2 proper) _
      (Except.toOption_eq_some_iff.2 passed) _ (Except.toOption_eq_some_iff.2 own)
    refine ⟨target, own, ?_⟩
    simp only at lowered
    generalize parts.flatMap Prod.fst = source at lowered given fewer uniform
    split at lowered
    · rename_i one first second rest
      obtain ⟨linked, _, lowered⟩ := Except.bind_ok lowered
      cases lowered
      have same : first :: second :: rest = List.replicate (first :: second :: rest).length first :=
        List.eq_replicate_iff.2 ⟨rfl, fun t member => uniform rfl t member first List.mem_cons_self⟩
      have made := spread_gives linked (first :: second :: rest).length
        (Expr.Gives.convert given (show [one].length = [first].length from rfl))
      rw [← same] at made
      exact made
    · split at lowered
      · cases lowered
      · cases lowered
        exact .convert given (by omega)

theorem scalars_of_items (faithful : s.Faithful value) {items : List Index} {es : List Expr}
    (shown : ∀ item ∈ items, Shown s.function item) (values : items.mapM value = .ok es) :
    ∃ parts, items.mapM s.scalars = .ok parts ∧ List.Forall₂ Expr.Gives es parts := by
  rw [Except.mapM_ok_iff] at values
  induction values with
  | nil => exact ⟨[], rfl, .nil⟩
  | cons first _ ih =>
    obtain ⟨ts, known, given⟩ := faithful _ _ (shown _ List.mem_cons_self) first
    obtain ⟨parts, later, gives⟩ := ih fun item member => shown item (List.mem_cons_of_mem _ member)
    refine ⟨ts :: parts, ?_, .cons given gives⟩
    rw [List.mapM_cons, known, Except.ok_bind, later]
    rfl

theorem call_passes (g : s.Grounded) (faithful : s.Faithful value) {id : FunctionId} {ty args : Index}
    (shown : Shown s.function i) (h : s.atom i = .ok (.call id ty args))
    (lowered : s.call value i id args = .ok e) : s.Passes i id e := by
  obtain ⟨n, rfl, there⟩ := atom_found h
  have fits := g.fits _ shown.visible _ there
  unfold Scope.call at lowered
  split at lowered
  · cases lowered
  · rename_i callee found
    obtain ⟨packed, takes, lowered⟩ := Except.bind_ok lowered
    obtain ⟨returns, gives, lowered⟩ := Except.bind_ok lowered
    obtain ⟨items, listed, lowered⟩ := Except.bind_ok lowered
    obtain ⟨es, values, lowered⟩ := Except.bind_ok lowered
    obtain ⟨passed, declared⟩ := fits callee found packed (Except.toOption_eq_some_iff.2 takes) returns
      (Except.toOption_eq_some_iff.2 gives)
    rw [Except.toOption_eq_some_iff] at passed declared
    simp only at lowered
    split at lowered
    · cases lowered
    · cases lowered
      refine ⟨callee, packed, returns, _, found, takes, gives, rfl, ?_, declared⟩
      have inside := Shown.items (shown.operand g.closed there (Or.inr ⟨rfl, rfl⟩)) listed g.closed
      obtain ⟨parts, scalars, each⟩ := scalars_of_items faithful inside values
      unfold argumentScalars at passed
      rw [listed, Except.ok_bind, scalars] at passed
      rw [← Except.ok.inj passed]
      exact .concat each

theorem expression_yields (g : s.Grounded) (faithful : s.Faithful value) (shown : Shown s.function i)
    (lowered : s.expression value i = .ok e) : s.Yields i e := by
  unfold Scope.expression at lowered
  obtain ⟨a, h, lowered⟩ := Except.bind_ok lowered
  cases a with
  | literal v =>
    cases lowered
    exact ⟨_, g.literal h, .literal v⟩
  | swizzle src code =>
    obtain ⟨base, first, lowered⟩ := Except.bind_ok lowered
    split at lowered
    · cases lowered
      obtain ⟨n, rfl, there⟩ := atom_found h
      obtain ⟨ts, known, given⟩ := faithful src base (shown.operand g.closed there (Or.inl rfl)) first
      obtain ⟨us, scalars, picked⟩ := g.swizzle h known
      exact ⟨us, scalars, .pick given picked⟩
    · cases lowered
  | operation code a b => exact g.operation_yields faithful shown h lowered
  | intrinsic code args => exact g.intrinsic_yields faithful shown h lowered
  | construct ty args mode => exact g.construct_yields faithful shown h lowered
  | call id ty args => exact (g.call_passes faithful shown h lowered).yields
  | load src field => exact g.load_yields faithful shown h lowered
  | access src loc => exact g.access_yields faithful shown h lowered
  | qualifier | type | list | store | branch | ret => cases lowered

theorem valueAt_faithful (g : s.Grounded) (depth : Nat) : s.Faithful (s.valueAt depth) := by
  induction depth with
  | zero =>
    intro i e _ lowered
    cases lowered
  | succ depth ih =>
    intro i e shown lowered
    unfold valueAt at lowered
    split at lowered
    · rename_i ts held
      cases lowered
      exact ⟨ts, g.slots i ts held, .slot i ts⟩
    · exact g.expression_yields ih shown lowered

end Grounded

/-! ### Places -/

/-- A place in a slot of its own scalars whose components have the scalars of an atom. -/
structure Denotes (s : Scope) (i : Index) (p : Place) : Prop where
  owner : s.scalars p.owner = .ok p.scalars
  positions : ∃ ts, s.scalars i = .ok ts ∧ p.positions.map (p.scalars[·]?) = ts.map some

theorem map_range_getElem? (ts : List Prim) : (List.range ts.length).map (ts[·]?) = ts.map some := by
  apply List.ext_getElem (by simp)
  intro k _ _
  simp

theorem map_chosen {positions chosen : List Nat} {components : List Nat} {scalars ts us : List Prim}
    (held : positions.map (scalars[·]?) = ts.map some)
    (found : components.mapM (positions[·]?) = some chosen)
    (picked : components.map (ts[·]?) = us.map some) : chosen.map (scalars[·]?) = us.map some := by
  induction components generalizing chosen us with
  | nil =>
    cases found
    rw [← picked]
    rfl
  | cons k rest ih =>
    rw [List.mapM_cons] at found
    obtain ⟨q, here, found⟩ := Option.bind_eq_some_iff.1 found
    obtain ⟨others, later, found⟩ := Option.bind_eq_some_iff.1 found
    cases found
    cases us with
    | nil => cases picked
    | cons u us =>
      rw [List.map_cons, List.map_cons, List.cons.injEq] at picked ⊢
      refine ⟨?_, ih later picked.2⟩
      have same := congrArg (·[k]?) held
      simpa [here, picked.1] using same

theorem Grounded.ownSlot_denotes (g : s.Grounded) {found : Atom} {p : Place}
    (lowered : s.ownSlot i found = .ok p) : s.Denotes i p := by
  unfold ownSlot at lowered
  split at lowered
  · rename_i ts held
    cases lowered
    exact ⟨g.slots i ts held, ts, g.slots i ts held, map_range_getElem? ts⟩
  · cases lowered

theorem Grounded.placeAt_denotes (g : s.Grounded) (depth : Nat) {p : Place} (shown : Shown s.function i)
    (lowered : s.placeAt depth i = .ok p) : s.Denotes i p := by
  induction depth generalizing i p with
  | zero => cases lowered
  | succ depth ih =>
    unfold placeAt at lowered
    obtain ⟨a, h, lowered⟩ := Except.bind_ok lowered
    obtain ⟨n, rfl, there⟩ := atom_found h
    cases a with
    | swizzle src code =>
      obtain ⟨place, inner, lowered⟩ := Except.bind_ok lowered
      obtain ⟨owner, ts, known, held⟩ := ih (shown.operand g.closed there (Or.inl rfl)) inner
      obtain ⟨us, scalars, picked⟩ := g.swizzle h known
      split at lowered
      · rename_i chosen found
        cases lowered
        exact ⟨owner, us, scalars, map_chosen held found picked⟩
      · cases lowered
    | load src field =>
      obtain ⟨place, inner, lowered⟩ := Except.bind_ok lowered
      obtain ⟨owner, ts, known, held⟩ := ih (shown.operand g.closed there (Or.inl rfl)) inner
      split at lowered
      · rename_i all
        cases lowered
        exact ⟨owner, ts, g.whole h all known, held⟩
      · rename_i part
        obtain ⟨⟨start, stop⟩, covers, lowered⟩ := Except.bind_ok lowered
        obtain ⟨before, own, later, rfl, starts, stops, scalars⟩ := g.field shown h part covers known
        simp only at starts stops lowered
        split at lowered
        · cases lowered
        · cases lowered
          refine ⟨owner, own, scalars, ?_⟩
          simp only [List.map_drop, List.map_take, held, stops, starts]
          simp [List.take_append]
    | construct ty args mode =>
      simp only at lowered
      split at lowered
      · rename_i stands
        obtain ⟨owner, ts, known, held⟩ := ih (shown.operand g.closed there (Or.inl rfl)) lowered
        exact ⟨owner, ts, (g.placeholder h stands).trans known, held⟩
      · exact g.ownSlot_denotes lowered
    | _ => exact g.ownSlot_denotes lowered

end Scope

end Native

end ShaderForge
