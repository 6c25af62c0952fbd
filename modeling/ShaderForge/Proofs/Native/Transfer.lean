import ShaderForge.Proofs.Native.Counterpart

/-!
Expressions lowered side by side. Where what is asked of an atom has the same answer for the atom it
corresponds to, a relation between operands goes through to the expressions over them.
-/

namespace ShaderForge.Native

open Buffer Linkage

def Signed (u : Linkage) (id : FunctionId) (params returns : List Prim) : Prop :=
  ∃ callee packed layout, u.function? id = some callee ∧ argumentLayout u callee = .ok packed ∧
    resultLayout u callee = .ok layout ∧ params = packed.scalars ∧ returns = layout.scalars

namespace Expr

variable {e e' a a' b b' : Expr}

/-- A relation that every way of building expressions keeps; the calls are those of a unit. -/
structure Congruent (u : Linkage) (R : Expr → Expr → Prop) : Prop where
  registers : ∀ {e e'}, R e e' → e'.registers = e.registers
  literal : ∀ value, R (.literal value) (.literal value)
  zeros : ∀ ts, R (.zeros ts) (.zeros ts)
  pick : ∀ {e e'} positions, R e e' → R (.pick e positions) (.pick e' positions)
  join : ∀ {a a' b b'}, R a a' → R b b' → R (.join a b) (.join a' b')
  unary : ∀ {e e'} op s, R e e' → R (.unary op s e) (.unary op s e')
  binary : ∀ {a a' b b'} op s, R a a' → R b b' → R (.binary op s a b) (.binary op s a' b')
  fold : ∀ {e e'} op s, R e e' → R (.fold op s e) (.fold op s e')
  convert : ∀ {e e'} source target, R e e' → R (.convert source target e) (.convert source target e')
  call : ∀ {e e'} id params returns, Signed u id params returns → R e e' →
    R (.call id params returns e) (.call id params returns e')

namespace Congruent

variable {u : Linkage} {R : Expr → Expr → Prop} {es es' : List Expr}

theorem width (congruent : Congruent u R) (related : R e e') : e'.width = e.width :=
  congrArg List.length (congruent.registers related)

theorem widths (congruent : Congruent u R) (related : List.Forall₂ R es es') :
    es'.map Expr.width = es.map Expr.width := by
  induction related with
  | nil => rfl
  | cons first _ ih => rw [List.map_cons, List.map_cons, congruent.width first, ih]

theorem concat (congruent : Congruent u R) (related : List.Forall₂ R es es') :
    R (concat es) (concat es') := by
  induction related with
  | nil => exact congruent.zeros []
  | cons first rest ih =>
    cases rest with
    | nil => exact first
    | cons => exact congruent.join first ih

theorem nothing (congruent : Congruent u R) (related : List.Forall₂ R es es') :
    R (nothing es) (nothing es') :=
  congruent.pick [] (congruent.concat related)

theorem truncate (congruent : Congruent u R) (related : R e e') (width : Nat) :
    R (e.truncate width) (e'.truncate width) := by
  unfold Expr.truncate
  rw [congruent.width related]
  split
  · exact related
  · exact congruent.pick _ related

theorem spread (congruent : Congruent u R) {ty ty' : LinkedTy} (kin : Kin ty ty') (scalar : Prim)
    (width : Nat) (related : R e e') :
    R (Scope.spread ty scalar width e) (Scope.spread ty' scalar width e') := by
  have everywhere := congruent.pick (List.replicate width 0) related
  rcases kin with rfl | ⟨n, n', rfl, rfl⟩
  · unfold Scope.spread
    simp only
    split
    · split
      · exact congruent.pick _ (congruent.join related (congruent.zeros _))
      · exact everywhere
    · exact everywhere
  · exact everywhere

end Congruent

end Expr

/-! ### Places -/

def beneath? (b : Buffer) : Atom → Option Index
  | .swizzle src _ | .load src _ => some src
  | .construct ty _ .transient =>
    match b.get? ty with
    | some (.qualifier ..) => some ty
    | _ => none
  | _ => none

theorem beneath?_address {b : Buffer} {a : Atom} {o : Index} (h : beneath? b a = some o) : o = a.addresses.1 := by
  unfold beneath? at h
  split at h
  · cases h; rfl
  · cases h; rfl
  · split at h
    · cases h; rfl
    · cases h
  · cases h

theorem beneath?_construct {s : Scope} {ty args o : Index} {mode : Mode} :
    beneath? s.buffer (.construct ty args mode) = some o ↔ s.isPlaceholder ty mode = true ∧ o = ty := by
  unfold beneath? Member.isPlaceholder
  cases mode with
  | normal => simp
  | transient =>
    simp only
    cases s.buffer.get? ty with
    | none => simp
    | some a =>
      cases a with
      | qualifier => simp [eq_comm]
      | _ => simp

namespace Scope

/-! ### Intrinsics -/

theorem applied_one (s : Scope) (code : Intrinsic) (scalar : Prim) (x : Expr) :
    s.applied code scalar [x] =
      match UnaryOp.ofIntrinsic? code scalar with
      | some op =>
        if op.isLibrary then s.library (librarySymbol code) 1 (.unary op scalar x)
        else .ok (.unary op scalar x)
      | none => .error (.unsupported (.nativeIntrinsic code)) := by
  cases code <;> rfl

theorem applied_two (s : Scope) (code : Intrinsic) (scalar : Prim) (x y : Expr) :
    s.applied code scalar [x, y] =
      match BinaryOp.ofIntrinsic? code scalar with
      | some op =>
        if op.isLibrary then s.library (librarySymbol code) 2 (.binary op scalar x y)
        else .ok (.binary op scalar x y)
      | none => .error (.unsupported (.nativeIntrinsic code)) := by
  cases code <;> rfl

def measured (s : Scope) (i : Index) (code : Intrinsic) (scalar : Prim) (widths : List Nat)
    (args : List Expr) : Lowered Expr :=
  match code, scalar.isFloat, args with
  | .dot, true, a :: b :: _ => innerProduct i scalar a b
  | .length, true, a :: _ => do return .unary .sqrt scalar (← innerProduct i scalar a a)
  | .dot, _, _ | .length, _, _ => .error (.unsupported (.nativeIntrinsic code))
  | code, _, args =>
    if widths.all (· == 0) then return .nothing args else s.applied code scalar args

theorem measured_other (s : Scope) (i : Index) {code : Intrinsic} (scalar : Prim) (widths : List Nat)
    (args : List Expr) (first : code ≠ .dot) (second : code ≠ .length) :
    s.measured i code scalar widths args =
      if widths.all (· == 0) then .ok (.nothing args) else s.applied code scalar args := by
  unfold measured
  split
  · exact (first rfl).elim
  · exact (second rfl).elim
  · exact (first rfl).elim
  · exact (second rfl).elim
  · rfl

def part (s : Scope) (value : Index → Lowered Expr) (item : Index) : Lowered (List Prim × Expr) := do
  let e ← value item
  let scalars ← s.scalars item
  return (scalars.take e.width, e.truncate scalars.length)

/-! ### Questions with the same answers -/

/-- The type of an atom has the same scalars as that of another one. -/
def Kindred (s s' : Scope) (i j : Index) : Prop :=
  ∀ linked ts, s.linkedType i = .ok linked → scalarsOf s.unit linked = .ok ts →
    ∃ linked', s'.linkedType j = .ok linked' ∧ scalarsOf s'.unit linked' = .ok ts ∧ Kin linked linked'

theorem Kindred.scalars {s s' : Scope} {i j : Index} {ts : List Prim} (kindred : s.Kindred s' i j)
    (h : s.scalars i = .ok ts) : s'.scalars j = .ok ts := by
  unfold Scope.scalars at h ⊢
  obtain ⟨linked, resolved, flat⟩ := Except.bind_ok h
  obtain ⟨linked', resolved', flat', _⟩ := kindred linked ts resolved flat
  rw [resolved']
  exact flat'

/-- What lowering asks of some atoms has the same answers where `via` leads. -/
structure Matches (s s' : Scope) (via : Index → Index) (P : Index → Prop) : Prop where
  isNull : ∀ {i}, P i → (via i).isNull = i.isNull
  isNil : ∀ {i ty}, P i → s.typeOf i = .ok ty → ∃ ty', s'.typeOf (via i) = .ok ty' ∧ ty'.isNil = ty.isNil
  prim : ∀ {i p}, P i → s.prim i = .ok p → s'.prim (via i) = .ok p
  kindred : ∀ {i}, P i → s.Kindred s' i (via i)
  fieldRange : ∀ {i field range}, P i → s.fieldRange i field = .ok range →
    s'.fieldRange (via i) field = .ok range
  items : ∀ {i items}, P i → s.items i = .ok items →
    s'.items (via i) = .ok (items.map via) ∧ ∀ item ∈ items, P item
  literal : ∀ {i v}, P i → s.buffer.get? i = some (.literal v) →
    s'.buffer.get? (via i) = some (.literal v)
  callees : ∀ id callee, s.unit.function? id = some callee → ∃ callee', s'.unit.function? id = some callee' ∧
    (∀ l, argumentLayout s.unit callee = .ok l → argumentLayout s'.unit callee' = .ok l) ∧
    ∀ l, resultLayout s.unit callee = .ok l → resultLayout s'.unit callee' = .ok l
  symbols : ∀ symbol, (s'.unit.functions.any fun f => s'.unit.symbol? f.id == some symbol) =
    s.unit.functions.any fun f => s.unit.symbol? f.id == some symbol

/-- What one reading makes of some atoms is related to what the other makes of where they lead. -/
def Relates (via : Index → Index) (P : Index → Prop) (R : Expr → Expr → Prop)
    (value value' : Index → Lowered Expr) : Prop :=
  ∀ i e, P i → value i = .ok e → ∃ e', value' (via i) = .ok e' ∧ R e e'

theorem Relates.mapM {via : Index → Index} {P : Index → Prop} {R : Expr → Expr → Prop}
    {value value' : Index → Lowered Expr} (relates : Relates via P R value value') {items : List Index}
    {es : List Expr} (own : ∀ item ∈ items, P item) (h : items.mapM value = .ok es) :
    ∃ es', (items.map via).mapM value' = .ok es' ∧ List.Forall₂ R es es' := by
  rw [Except.mapM_ok_iff] at h
  induction h with
  | nil => exact ⟨[], rfl, .nil⟩
  | cons first _ ih =>
    obtain ⟨e', here, related⟩ := relates _ _ (own _ List.mem_cons_self) first
    obtain ⟨es', later, others⟩ := ih fun item member => own item (List.mem_cons_of_mem _ member)
    refine ⟨e' :: es', ?_, .cons related others⟩
    rw [List.map_cons, List.mapM_cons, here, Except.ok_bind, later]
    rfl

/-! ### Expressions -/

namespace Matches

variable {s s' : Scope} {via : Index → Index} {P : Index → Prop} {R : Expr → Expr → Prop}
  {value value' : Index → Lowered Expr} {i : Index} {e : Expr}
  (m : s.Matches s' via P) (congruent : Expr.Congruent s.unit R) (relates : Relates via P R value value')

section

include m congruent relates

theorem load {src : Index} {field : Int32} (first : P src) (h : s.load value src field = .ok e) :
    ∃ e', s'.load value' (via src) field = .ok e' ∧ R e e' := by
  unfold Scope.load at h ⊢
  obtain ⟨base, computed, h⟩ := Except.bind_ok h
  obtain ⟨base', computed', related⟩ := relates src base first computed
  rw [computed', Except.ok_bind]
  split at h
  · rename_i whole
    rw [if_pos whole]
    cases h
    exact ⟨_, rfl, related⟩
  · rename_i part
    rw [if_neg part]
    obtain ⟨⟨start, stop⟩, range, h⟩ := Except.bind_ok h
    rw [m.fieldRange first range, Except.ok_bind]
    simp only [congruent.width related] at h ⊢
    split at h
    · cases h
    · rename_i within
      rw [if_neg within]
      cases h
      exact ⟨_, rfl, congruent.pick _ related⟩

theorem access {src loc : Index} (first : P src) (second : P loc) (h : s.access value i src loc = .ok e) :
    ∃ e', s'.access value' (via i) (via src) (via loc) = .ok e' ∧ R e e' := by
  unfold Scope.access at h ⊢
  obtain ⟨base, computed, h⟩ := Except.bind_ok h
  obtain ⟨p, shape, h⟩ := Except.bind_ok h
  obtain ⟨base', computed', related⟩ := relates src base first computed
  rw [computed', Except.ok_bind, m.prim first shape, Except.ok_bind]
  simp only [congruent.width related] at h ⊢
  generalize (if p.isMatrix = true then p.rows else 1) = rows at h ⊢
  split at h
  · rename_i v found
    simp only [m.literal second found]
    split at h
    · cases h
    · rename_i within
      rw [if_neg within]
      cases h
      exact ⟨_, rfl, congruent.pick _ related⟩
  · rename_i v found
    simp only [m.literal second found]
    split at h
    · cases h
    · rename_i within
      rw [if_neg within]
      cases h
      exact ⟨_, rfl, congruent.pick _ related⟩
  · cases h
  · cases h

theorem operation {code : Operator} {a b : Index} (first : P a) (second : P b)
    (h : s.operation value i code a b = .ok e) :
    ∃ e', s'.operation value' (via i) code (via a) (via b) = .ok e' ∧ R e e' := by
  unfold Scope.operation at h ⊢
  obtain ⟨x, computed, h⟩ := Except.bind_ok h
  obtain ⟨left, shape, h⟩ := Except.bind_ok h
  obtain ⟨x', computed', related⟩ := relates a x first computed
  rw [computed', Except.ok_bind, m.prim first shape, Except.ok_bind, m.isNull second]
  simp only [congruent.width related] at h ⊢
  split at h
  · rename_i single
    rw [if_pos single]
    split at h
    · rename_i empty
      rw [if_pos empty]
      cases h
      exact ⟨_, rfl, congruent.nothing (.cons related .nil)⟩
    · rename_i some
      rw [if_neg some]
      split at h
      · cases h
        exact ⟨_, rfl, congruent.unary _ _ related⟩
      · cases h
  · rename_i double
    rw [if_neg double]
    obtain ⟨y, computed, h⟩ := Except.bind_ok h
    obtain ⟨right, shape', h⟩ := Except.bind_ok h
    obtain ⟨y', computed', other⟩ := relates b y second computed
    rw [computed', Except.ok_bind, m.prim second shape', Except.ok_bind]
    simp only [congruent.width other] at h ⊢
    split at h
    · cases h
    · rename_i product
      rw [if_neg product]
      split at h
      · cases h
      · rename_i agreed
        rw [if_neg agreed]
        split at h
        · rename_i empty
          rw [if_pos empty]
          split at h
          · cases h
          · rename_i plain
            rw [if_neg plain]
            cases h
            exact ⟨_, rfl, congruent.nothing (.cons related (.cons other .nil))⟩
        · rename_i some
          rw [if_neg some]
          split at h
          · cases h
          · rename_i exact
            rw [if_neg exact]
            split at h
            · cases h
            · rename_i op _
              have each := congruent.binary op left.scalar related other
              split at h
              · cases h
                exact ⟨_, rfl, congruent.fold _ _ each⟩
              · cases h
                exact ⟨_, rfl, congruent.fold _ _ each⟩
              · cases h
                exact ⟨_, rfl, each⟩

end

section

include congruent

theorem innerProduct {j : Index} {scalar : Prim} {a a' b b' : Expr} (first : R a a') (second : R b b')
    (h : Scope.innerProduct i scalar a b = .ok e) :
    ∃ e', Scope.innerProduct j scalar a' b' = .ok e' ∧ R e e' := by
  unfold Scope.innerProduct at h ⊢
  rw [congruent.width first]
  split at h
  · cases h
  · rename_i some
    rw [if_neg some]
    cases h
    exact ⟨_, rfl, congruent.fold _ _ (congruent.binary _ _ first second)⟩

end

section

include m

theorem library {symbol : String} {arity : Nat} {x x' : Expr} (related : R x x')
    (h : s.library symbol arity x = .ok e) : ∃ e', s'.library symbol arity x' = .ok e' ∧ R e e' := by
  unfold Scope.library at h ⊢
  rw [m.symbols]
  split at h
  · cases h
  · rename_i free
    rw [if_neg free]
    cases h
    exact ⟨_, rfl, related⟩

include congruent

theorem applied {code : Intrinsic} {scalar : Prim} {args args' : List Expr}
    (related : List.Forall₂ R args args') (h : s.applied code scalar args = .ok e) :
    ∃ e', s'.applied code scalar args' = .ok e' ∧ R e e' := by
  match related with
  | .cons first .nil =>
    rw [applied_one] at h ⊢
    split at h
    · rename_i op _
      have made := congruent.unary op scalar first
      by_cases outer : op.isLibrary = true
      · rw [if_pos outer] at h ⊢
        exact m.library made h
      · rw [if_neg outer] at h ⊢
        cases h
        exact ⟨_, rfl, made⟩
    · cases h
  | .cons first (.cons second .nil) =>
    rw [applied_two] at h ⊢
    split at h
    · rename_i op _
      have made := congruent.binary op scalar first second
      by_cases outer : op.isLibrary = true
      · rw [if_pos outer] at h ⊢
        exact m.library made h
      · rw [if_neg outer] at h ⊢
        cases h
        exact ⟨_, rfl, made⟩
    · cases h
  | .cons first (.cons low (.cons high .nil)) =>
    unfold Scope.applied at h
    split at h
    · rename_i same
      cases same
      cases h
      exact ⟨_, rfl, congruent.binary _ _ (congruent.binary _ _ first low) high⟩
    · rename_i same
      cases same
    · rename_i same
      cases same
    · cases h
  | .nil | .cons _ (.cons _ (.cons _ (.cons _ _))) =>
    unfold Scope.applied at h
    split at h
    · rename_i same
      cases same
    · rename_i same
      cases same
    · rename_i same
      cases same
    · cases h

theorem measured {code : Intrinsic} {scalar : Prim} {widths : List Nat} {args args' : List Expr}
    (related : List.Forall₂ R args args') (h : s.measured i code scalar widths args = .ok e) :
    ∃ e', s'.measured (via i) code scalar widths args' = .ok e' ∧ R e e' := by
  by_cases first : code = .dot
  · subst first
    unfold Scope.measured at h ⊢
    cases float : scalar.isFloat with
    | false => rw [float] at h; cases h
    | true =>
      rw [float] at h
      match related with
      | .cons left (.cons right _) => exact innerProduct congruent left right h
      | .nil | .cons _ .nil => cases h
  · by_cases second : code = .length
    · subst second
      unfold Scope.measured at h ⊢
      cases float : scalar.isFloat with
      | false => rw [float] at h; cases h
      | true =>
        rw [float] at h
        match related with
        | .cons only _ =>
          obtain ⟨product, inner, h⟩ := Except.bind_ok h
          cases h
          obtain ⟨product', inner', same⟩ := innerProduct (j := via i) congruent only only inner
          simp only [inner', Except.ok_bind]
          exact ⟨_, rfl, congruent.unary _ _ same⟩
        | .nil => cases h
    · rw [measured_other _ _ _ _ _ first second] at h ⊢
      split at h
      · rename_i empty
        rw [if_pos empty]
        cases h
        exact ⟨_, rfl, congruent.nothing related⟩
      · rename_i some
        rw [if_neg some]
        exact m.applied congruent related h

include relates

theorem intrinsic {code : Intrinsic} {args : Index} (own : P args)
    (h : s.intrinsic value i code args = .ok e) :
    ∃ e', s'.intrinsic value' (via i) code (via args) = .ok e' ∧ R e e' := by
  unfold Scope.intrinsic at h ⊢
  obtain ⟨items, listed, h⟩ := Except.bind_ok h
  obtain ⟨listed', inside⟩ := m.items own listed
  rw [listed', Except.ok_bind]
  cases items with
  | nil => cases h
  | cons first rest =>
    simp only [List.head?_cons, List.map_cons] at h ⊢
    obtain ⟨p, shape, h⟩ := Except.bind_ok h
    obtain ⟨es, values, h⟩ := Except.bind_ok h
    obtain ⟨es', values', related⟩ := relates.mapM inside values
    rw [List.map_cons] at values'
    rw [m.prim (inside first List.mem_cons_self) shape, Except.ok_bind, values', Except.ok_bind,
      congruent.widths related]
    split at h
    · cases h
    · rename_i agreed
      rw [if_neg agreed]
      exact m.measured congruent related h

theorem parts {items : List Index} {ps : List (List Prim × Expr)} (own : ∀ item ∈ items, P item)
    (h : items.mapM (part s value) = .ok ps) :
    ∃ ps', (items.map via).mapM (part s' value') = .ok ps' ∧
      List.Forall₂ (fun p p' => p'.1 = p.1 ∧ R p.2 p'.2) ps ps' := by
  rw [Except.mapM_ok_iff] at h
  induction h with
  | nil => exact ⟨[], rfl, .nil⟩
  | @cons item p _ _ first _ ih =>
    obtain ⟨ps', later, others⟩ := ih fun item member => own item (List.mem_cons_of_mem _ member)
    unfold part at first
    obtain ⟨e, computed, first⟩ := Except.bind_ok first
    obtain ⟨scalars, flat, first⟩ := Except.bind_ok first
    cases first
    have here := own item List.mem_cons_self
    obtain ⟨e', computed', related⟩ := relates item e here computed
    refine ⟨(scalars.take e.width, e'.truncate scalars.length) :: ps', ?_,
      .cons ⟨rfl, congruent.truncate related _⟩ others⟩
    rw [List.map_cons, List.mapM_cons, part, computed', Except.ok_bind, (m.kindred here).scalars flat,
      Except.ok_bind, congruent.width related, later]
    rfl

theorem construct {ty args : Index} {mode : Mode} (own : s.Kindred s' i (via i))
    (stands : s'.isPlaceholder (via ty) mode = s.isPlaceholder ty mode) (first : P ty) (second : P args)
    (h : s.construct value i ty args mode = .ok e) :
    ∃ e', s'.construct value' (via i) (via ty) (via args) mode = .ok e' ∧ R e e' := by
  unfold Scope.construct at h ⊢
  rw [stands]
  split at h
  · rename_i stands
    rw [if_pos stands]
    exact relates ty e first h
  · rename_i made
    rw [if_neg made]
    obtain ⟨target, flat, h⟩ := Except.bind_ok h
    obtain ⟨items, listed, h⟩ := Except.bind_ok h
    obtain ⟨ps, given, h⟩ := Except.bind_ok h
    obtain ⟨listed', inside⟩ := m.items second listed
    obtain ⟨ps', given', related⟩ := m.parts congruent relates inside given
    unfold part at given'
    rw [own.scalars flat, Except.ok_bind, listed', Except.ok_bind, given', Except.ok_bind]
    have source : ps'.flatMap Prod.fst = ps.flatMap Prod.fst := by
      clear given given' h
      induction related with
      | nil => rfl
      | cons first _ ih => rw [List.flatMap_cons, List.flatMap_cons, first.1, ih]
    have whole : R (Expr.concat (ps.map Prod.snd)) (Expr.concat (ps'.map Prod.snd)) :=
      congruent.concat (List.forall₂_map_left_iff.2 (List.forall₂_map_right_iff.2
        (related.imp fun _ _ both => both.2)))
    simp only at h ⊢
    rw [source]
    split at h
    · obtain ⟨linked, resolved, h⟩ := Except.bind_ok h
      unfold Scope.scalars at flat
      obtain ⟨linked₁, resolved₁, flat⟩ := Except.bind_ok flat
      rw [resolved, Except.ok.injEq] at resolved₁
      subst resolved₁
      obtain ⟨linked', resolved', _, kin⟩ := own linked _ resolved flat
      cases h
      rw [resolved', Except.ok_bind]
      exact ⟨_, rfl, congruent.spread kin _ _ (congruent.convert _ _ whole)⟩
    · split at h
      · cases h
      · rename_i enough
        rw [if_neg enough]
        cases h
        exact ⟨_, rfl, congruent.convert _ _ whole⟩

theorem call {id : FunctionId} {args : Index} (own : P args) (h : s.call value i id args = .ok e) :
    ∃ e', s'.call value' (via i) id (via args) = .ok e' ∧ R e e' := by
  unfold Scope.call at h ⊢
  split at h
  · cases h
  · rename_i callee known
    obtain ⟨callee', known', arguments, results⟩ := m.callees id callee known
    simp only [known']
    obtain ⟨packed, layout, h⟩ := Except.bind_ok h
    obtain ⟨returns, layout', h⟩ := Except.bind_ok h
    obtain ⟨items, listed, h⟩ := Except.bind_ok h
    obtain ⟨es, values, h⟩ := Except.bind_ok h
    obtain ⟨listed', inside⟩ := m.items own listed
    obtain ⟨es', values', related⟩ := relates.mapM inside values
    have whole := congruent.concat related
    rw [arguments packed layout, Except.ok_bind, results returns layout', Except.ok_bind, listed',
      Except.ok_bind, values', Except.ok_bind]
    simp only [congruent.width whole] at h ⊢
    split at h
    · cases h
    · rename_i fits
      rw [if_neg fits]
      cases h
      exact ⟨_, rfl, congruent.call id _ _ ⟨callee, packed, returns, known, layout, layout', rfl, rfl⟩ whole⟩

theorem expression {a : Atom} (own : s.Kindred s' i (via i)) (first : P a.addresses.1)
    (second : a.isBranch = false → P a.addresses.2) (found : s.atom i = .ok a)
    (found' : s'.atom (via i) = .ok (a.mapAddresses via))
    (stands : ∀ {ty args mode}, a = .construct ty args mode →
      s'.isPlaceholder (via ty) mode = s.isPlaceholder ty mode)
    (h : s.expression value i = .ok e) :
    ∃ e', s'.expression value' (via i) = .ok e' ∧ R e e' := by
  unfold Scope.expression at h ⊢
  rw [found, Except.ok_bind] at h
  rw [found', Except.ok_bind]
  cases a with
  | literal v =>
    cases h
    exact ⟨_, rfl, congruent.literal v⟩
  | swizzle src code =>
    simp only [Atom.mapAddresses] at h ⊢
    obtain ⟨base, computed, h⟩ := Except.bind_ok h
    obtain ⟨base', computed', related⟩ := relates src base first computed
    rw [computed', Except.ok_bind]
    simp only [congruent.width related] at h ⊢
    split at h
    · rename_i within
      rw [if_pos within]
      cases h
      exact ⟨_, rfl, congruent.pick _ related⟩
    · cases h
  | operation code a b => exact m.operation congruent relates first (second rfl) h
  | intrinsic code args => exact m.intrinsic congruent relates first h
  | construct ty args mode => exact m.construct congruent relates own (stands rfl) first (second rfl) h
  | call id ty args => exact m.call congruent relates (second rfl) h
  | load src field => exact m.load congruent relates first h
  | access src loc => exact m.access congruent relates first (second rfl) h
  | qualifier | type | list | store | branch | ret => cases h

end

theorem valueAt (m : ∀ d, s.Matches s' via fun i => P i ∧ (via i).rank ≤ d)
    (congruent : Expr.Congruent s.unit R)
    (held : ∀ i ts, P i → s.slots[i]? = some ts →
      s'.slots[via i]? = some ts ∧ R (.slot i ts) (.slot (via i) ts) ∧ 0 < (via i).rank)
    (free : ∀ i, P i → s.slots[i]? = none → s'.slots[via i]? = none)
    (step : ∀ i a, P i → s.slots[i]? = none → s.atom i = .ok a → (∃ value e, s.expression value i = .ok e) →
      s'.atom (via i) = .ok (a.mapAddresses via) ∧
        (∀ {ty args mode}, a = .construct ty args mode →
          s'.isPlaceholder (via ty) mode = s.isPlaceholder ty mode) ∧
        ∀ o, o = a.addresses.1 ∨ o = a.addresses.2 ∧ a.isBranch = false → P o ∧ (via o).rank < (via i).rank)
    (depth d : Nat) : Relates via (fun i => P i ∧ (via i).rank ≤ d) R (s.valueAt depth) (s'.valueAt d) := by
  induction depth generalizing d with
  | zero => intro i e _ h; cases h
  | succ depth ih =>
    rintro i e ⟨own, early⟩ h
    unfold Scope.valueAt at h
    cases known : s.slots[i]? with
    | some ts =>
      rw [known] at h
      cases h
      obtain ⟨known', related, present⟩ := held i ts own known
      obtain ⟨d, rfl⟩ : ∃ k, d = k + 1 := ⟨d - 1, by omega⟩
      refine ⟨_, ?_, related⟩
      rw [Scope.valueAt, known']
      rfl
    | none =>
      rw [known] at h
      obtain ⟨a, found, _⟩ := Except.bind_ok h
      obtain ⟨found', stands, operands⟩ := step i a own known found ⟨_, _, h⟩
      have first := operands _ (Or.inl rfl)
      obtain ⟨d, rfl⟩ : ∃ k, d = k + 1 := ⟨d - 1, by omega⟩
      rw [Scope.valueAt, free i own known]
      refine (m d).expression congruent (ih d) ((m (d + 1)).kindred ⟨own, early⟩) ⟨first.1, by omega⟩
        (fun other => ?_) found found' stands h
      have second := operands _ (Or.inr ⟨rfl, other⟩)
      exact ⟨second.1, by omega⟩

end Matches

/-! ### Places -/

theorem ownSlot_transfers {s : Scope} (s' : Scope) {via : Index → Index} {P : Index → Prop} {i : Index} {a : Atom}
    (a' : Atom) (held : ∀ i ts, P i → s.slots[i]? = some ts → s'.slots[via i]? = some ts) {p : Place} (own : P i)
    (h : s.ownSlot i a = .ok p) :
    s'.ownSlot (via i) a' = .ok { p with owner := via p.owner } ∧ P p.owner ∧ s.slots[p.owner]? = some p.scalars := by
  unfold ownSlot at h ⊢
  cases known : s.slots[i]? with
  | none => rw [known] at h; cases h
  | some ts =>
    rw [known] at h
    cases h
    rw [held i ts own known]
    exact ⟨rfl, own, known⟩

theorem placeAt_transfers {s : Scope} (s' : Scope) (via : Index → Index) (P : Index → Prop) {i : Index}
    (ranges : ∀ i field range, P i → s.fieldRange i field = .ok range → s'.fieldRange (via i) field = .ok range)
    (held : ∀ i ts, P i → s.slots[i]? = some ts → s'.slots[via i]? = some ts)
    (step : ∀ i a, P i → s.atom i = .ok a →
      s'.atom (via i) = .ok (a.mapAddresses via) ∧
        (∀ {ty args mode}, a = .construct ty args mode →
          s'.isPlaceholder (via ty) mode = s.isPlaceholder ty mode) ∧
        ∀ o, beneath? s.buffer a = some o → P o ∧ (via o).rank < (via i).rank)
    {depth d : Nat} {p : Place} (own : P i) (early : (via i).rank ≤ d)
    (h : s.placeAt depth i = .ok p) :
    s'.placeAt d (via i) = .ok { p with owner := via p.owner } ∧ P p.owner ∧
      s.slots[p.owner]? = some p.scalars := by
  induction depth generalizing d i p with
  | zero => cases h
  | succ depth ih =>
    unfold Scope.placeAt at h
    obtain ⟨a, found, h⟩ := Except.bind_ok h
    obtain ⟨found', stands, within⟩ := step i a own found
    obtain ⟨k, place, _⟩ := atom_found found'
    obtain ⟨d, rfl⟩ : ∃ m, d = m + 1 := ⟨d - 1, by rw [place, Index.rank] at early; omega⟩
    unfold Scope.placeAt
    rw [found', Except.ok_bind]
    cases a with
    | swizzle src code =>
      obtain ⟨inner, below⟩ := within src rfl
      simp only [Atom.mapAddresses] at h ⊢
      obtain ⟨base, there, h⟩ := Except.bind_ok h
      obtain ⟨there', last⟩ := ih inner (d := d) (by omega) there
      rw [there', Except.ok_bind]
      simp only at h ⊢
      split at h
      · cases h
        exact ⟨rfl, last⟩
      · cases h
    | load src field =>
      obtain ⟨inner, below⟩ := within src rfl
      simp only [Atom.mapAddresses] at h ⊢
      obtain ⟨base, there, h⟩ := Except.bind_ok h
      obtain ⟨there', last⟩ := ih inner (d := d) (by omega) there
      rw [there', Except.ok_bind]
      split at h
      · rename_i whole
        rw [if_pos whole]
        cases h
        exact ⟨rfl, last⟩
      · rename_i part
        rw [if_neg part]
        obtain ⟨⟨start, stop⟩, range, h⟩ := Except.bind_ok h
        rw [ranges _ _ _ inner range, Except.ok_bind]
        simp only at h ⊢
        split at h
        · cases h
        · rename_i enough
          rw [if_neg enough]
          cases h
          exact ⟨rfl, last⟩
    | construct ty args mode =>
      simp only [Atom.mapAddresses, stands rfl] at h ⊢
      split at h
      · rename_i placeholder
        rw [if_pos placeholder]
        obtain ⟨inner, below⟩ := within ty (beneath?_construct.2 ⟨placeholder, rfl⟩)
        exact ih inner (by omega) h
      · rename_i made
        rw [if_neg made]
        exact ownSlot_transfers s' _ held own h
    | qualifier | type | literal | operation | intrinsic | list | call | store | access | branch
    | ret => exact ownSlot_transfers s' _ held own h

end Scope

end ShaderForge.Native
