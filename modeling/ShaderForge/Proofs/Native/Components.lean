import ShaderForge.Native.Lowering
import ShaderForge.Proofs.Typing.Structs

/-!
The scalar types of components. An expression gives a list of scalars when each operation in it
works on components of its own scalar type and nothing is cut off: as many components are
converted as there are targets, and a call gets what the callee takes. The signatures of operators
and intrinsics promise their results in the same terms.
-/

namespace ShaderForge

namespace Native

/-! ### Expressions -/

def UnaryOp.scalar (op : UnaryOp) (s : Prim) : Prim := if op.isLibrary then .f32 else s

def BinaryOp.scalar (op : BinaryOp) (s : Prim) : Prim :=
  if op.isComparison then .boolean else if op.isLibrary then .f32 else s

theorem UnaryOp.register_ofPrim (op : UnaryOp) (s : Prim) :
    op.register (.ofPrim s) = .ofPrim (op.scalar s) := by
  unfold UnaryOp.register UnaryOp.scalar
  split <;> rfl

theorem BinaryOp.register_ofPrim (op : BinaryOp) (s : Prim) :
    op.register (.ofPrim s) = .ofPrim (op.scalar s) := by
  unfold BinaryOp.register BinaryOp.scalar
  split
  · rfl
  · split <;> rfl

theorem convertRegister_ofPrim (s t : Prim) : convertRegister s t (.ofPrim s) = .ofPrim t := by
  unfold convertRegister
  split
  · assumption
  · rfl

theorem zipWith_convertRegister {source target : List Prim} (whole : source.length = target.length) :
    (source.zip target).zipWith (fun (s, t) r => convertRegister s t r)
      (source.map Register.ofPrim) = target.map Register.ofPrim := by
  induction source generalizing target with
  | nil =>
    cases target with
    | nil => rfl
    | cons t rest => cases whole
  | cons s rest ih =>
    cases target with
    | nil => cases whole
    | cons t others =>
      simp only [List.zip_cons_cons, List.map_cons, List.zipWith_cons_cons, convertRegister_ofPrim,
        ih (Nat.succ.inj whole)]

/-- The scalars of the components that an expression computes. -/
inductive Expr.Gives : Expr → List Prim → Prop
  | literal (value : Literal) : Gives (.literal value) [value.ty]
  | zeros (ts : List Prim) : Gives (.zeros ts) ts
  | slot (owner : Index) (ts : List Prim) : Gives (.slot owner ts) ts
  | pick {e : Expr} {ts us : List Prim} {positions : List Nat} (base : Gives e ts)
      (picked : positions.map (ts[·]?) = us.map some) : Gives (.pick e positions) us
  | join {a b : Expr} {ts us : List Prim} (left : Gives a ts) (right : Gives b us) :
      Gives (.join a b) (ts ++ us)
  | unary (op : UnaryOp) {s : Prim} {e : Expr} {n : Nat} (operand : Gives e (List.replicate n s)) :
      Gives (.unary op s e) (List.replicate n (op.scalar s))
  | binary (op : BinaryOp) {s : Prim} {a b : Expr} {n m : Nat} (left : Gives a (List.replicate n s))
      (right : Gives b (List.replicate m s)) (even : agree [n, m] = true) :
      Gives (.binary op s a b) (List.replicate (max n m) (op.scalar s))
  | fold {op : BinaryOp} {s : Prim} {e : Expr} {n : Nat}
      (operand : Gives e (List.replicate (n + 1) s)) (keeps : op.scalar s = s) :
      Gives (.fold op s e) [s]
  | convert {e : Expr} {source target : List Prim} (operand : Gives e source)
      (whole : source.length = target.length) : Gives (.convert source target e) target
  | call (callee : FunctionId) (returns : List Prim) {params : List Prim} {args : Expr}
      (passed : Gives args params) : Gives (.call callee params returns args) returns

theorem agree_pair {n m : Nat} : agree [n, m] = true ↔ n = m ∨ n = 1 ∧ 1 ≤ m ∨ m = 1 ∧ 1 ≤ n := by
  simp only [agree, List.foldl_cons, List.foldl_nil, List.all_cons, List.all_nil, Bool.and_true,
    Bool.and_eq_true, Bool.or_eq_true, beq_iff_eq]
  omega

theorem broadcast_replicate {α : Type} {n m : Nat} (even : agree [n, m] = true) (x : α) :
    broadcast m (List.replicate n x) = List.replicate (max n m) x := by
  rw [agree_pair] at even
  match n with
  | 0 =>
    have : m = 0 := by omega
    rw [this]
    rfl
  | 1 =>
    have : max 1 m = m := by omega
    rw [this]
    rfl
  | n + 2 =>
    have : max (n + 2) m = n + 2 := by omega
    rw [this]
    rfl

namespace Expr.Gives

variable {e : Expr} {ts : List Prim}

theorem registers (given : e.Gives ts) : e.registers = ts.map Register.ofPrim := by
  induction given with
  | literal value => rfl
  | zeros ts => rfl
  | slot owner ts => rfl
  | @pick e ts us positions _ picked ih =>
    have each : positions.filterMap (e.registers[·]?) =
        (positions.map (ts[·]?)).filterMap (Option.map Register.ofPrim) := by
      simp only [ih, List.getElem?_map, List.filterMap_map, Function.comp_def]
    rw [Expr.registers, each, picked, List.filterMap_map]
    simp
  | join _ _ left right => rw [Expr.registers, left, right, List.map_append]
  | unary op _ ih => simp [Expr.registers, ih, UnaryOp.register_ofPrim]
  | binary op _ _ even left right =>
    simp only [Expr.registers, left, right, List.map_replicate, List.length_replicate,
      broadcast_replicate even, BinaryOp.register_ofPrim]
  | @fold op s e n _ keeps ih =>
    rw [Expr.registers, ih, List.map_replicate, List.replicate_succ, List.take_succ_cons,
      List.take_zero, List.map_cons, List.map_nil, BinaryOp.register_ofPrim, keeps]
    rfl
  | convert _ whole ih => rw [Expr.registers, ih, zipWith_convertRegister whole]
  | call callee returns _ _ => rfl

theorem width (given : e.Gives ts) : e.width = ts.length := by
  rw [Expr.width, given.registers, List.length_map]

theorem truncate (given : e.Gives ts) : e.truncate ts.length = e := by
  rw [Expr.truncate, if_pos (Nat.le_of_eq given.width)]

theorem concat {es : List Expr} {parts : List (List Prim)} (each : List.Forall₂ Gives es parts) :
    (Expr.concat es).Gives parts.flatten := by
  induction each with
  | nil => exact .zeros []
  | @cons e ts es parts first rest ih =>
    cases rest with
    | nil =>
      rw [List.flatten_singleton]
      exact first
    | cons => exact .join first ih

theorem range {a b c : List Prim} (given : e.Gives (a ++ b ++ c)) :
    (Expr.pick e (List.range' a.length b.length)).Gives b := by
  refine .pick given ?_
  apply List.ext_getElem?
  intro k
  rw [List.getElem?_map, List.getElem?_map]
  by_cases inside : k < b.length
  · rw [List.getElem?_range' inside, Option.map_some, Nat.one_mul, List.append_assoc,
      List.getElem?_append_right (by omega), List.getElem?_append_left (by omega)]
    rw [Nat.add_sub_cancel_left, List.getElem?_eq_getElem inside]
    rfl
  · rw [List.getElem?_eq_none (by rw [List.length_range']; omega), List.getElem?_eq_none (by omega)]
    rfl

end Expr.Gives

end Native

/-! ### Signatures -/

theorem Ty.data?_eq_some_iff {t : Ty} {d : Data} : t.data? = some d ↔ t.bare = .data d := by
  unfold data?
  cases t.bare <;> simp

theorem Ty.prim?_eq_some_iff {t : Ty} {p : Prim} : t.prim? = some p ↔ t.bare = .prim p := by
  rw [← data?_eq_some_iff]
  unfold prim?
  cases t.data? with
  | none => simp
  | some d => cases d <;> simp

def Signature.suits (s : Signature) (test : List Prim → Prim → Bool) : Bool :=
  match s.args.mapM Ty.prim?, s.result with
  | some args, .data (.prim result) => args.all (fun p => decide (0 < p.components)) && test args result
  | _, _ => false

namespace Overload

/-- Each operand has one component or as many as the result, of the result's scalar. -/
def byComponent (args : List Prim) (result : Prim) : Bool :=
  decide (0 < result.components) && args.any (·.components == result.components)
    && args.all fun p => p.scalar == result.scalar
      && (p.components == 1 || p.components == result.components)

def isMatrixProduct (code : Operator) (p q : Prim) : Bool :=
  code == .multiplication && (p.isMatrix || q.isMatrix) && !p.isScalar && !q.isScalar

def operatorTest (code : Operator) (args : List Prim) (result : Prim) : Bool :=
  match code, args with
  | .equals, [p, q] | .notEquals, [p, q] => p == q && result == .boolean
  | .less, [p, q] | .lessEqual, [p, q] | .greater, [p, q] | .greaterEqual, [p, q] =>
    p == q && p.isScalar && result == .boolean
  | code, [p, q] => isMatrixProduct code p q || byComponent [p, q] result
  | _, args => byComponent args result

def intrinsicTest (code : Intrinsic) (args : List Prim) (result : Prim) : Bool :=
  match code with
  | .dot | .length => args.all (fun p => p.scalar == .f32 && args.all (· == p)) && result == .f32
  | .clamp | .min | .max | .pow | .abs | .floor | .ceil | .sqrt | .sin | .cos | .tan | .asin | .acos
  | .atan | .exp | .log | .exp2 | .log2 => byComponent args result
  | _ => true

theorem mapM_prim?_bare (types : List Ty) : (types.map Ty.bare).mapM Ty.prim? = types.mapM Ty.prim? := by
  induction types with
  | nil => rfl
  | cons t ts ih => simp only [List.map_cons, List.mapM_cons, ih, Ty.prim?, Ty.data?, Ty.bare_bare]

theorem select_prims {target : String} {candidates : List Signature} {types : List Ty} {ty : Ty}
    {test : List Prim → Prim → Bool} (suited : ∀ s ∈ candidates, s.suits test = true)
    (h : select target candidates types = .ok ty) :
    ∃ args result, types.mapM Ty.prim? = some args ∧ ty = .prim result ∧
      (∀ p ∈ args, 0 < p.components) ∧ test args result = true := by
  unfold select at h
  split at h
  · rename_i s found
    cases h
    have suits := suited s (List.mem_of_find?_eq_some found)
    have fits := List.find?_some found
    simp only [Signature.fits, beq_iff_eq] at fits
    unfold Signature.suits at suits
    split at suits
    · rename_i args result known shape
      rw [fits, mapM_prim?_bare] at known
      rw [Bool.and_eq_true, List.all_eq_true] at suits
      exact ⟨args, result, known, shape, fun p member => of_decide_eq_true (suits.1 p member), suits.2⟩
    · cases suits
  · cases h

theorem ofOperator_suits (code : Operator) :
    ∀ s ∈ ofOperator code, s.suits (operatorTest code) = true := by
  cases code <;> decide +kernel

theorem ofIntrinsic_suits (code : Intrinsic) :
    ∀ s ∈ ofIntrinsic code, s.suits (intrinsicTest code) = true := by
  cases code <;> decide +kernel

theorem operator_prims {code : Operator} {types : List Ty} {ty : Ty}
    (h : operator code types = .ok ty) :
    ∃ args result, types.mapM Ty.prim? = some args ∧ ty = .prim result ∧
      (∀ p ∈ args, 0 < p.components) ∧ operatorTest code args result = true :=
  select_prims (ofOperator_suits code) h

theorem resource_first {code : Intrinsic} {types : List Ty} {ty first : Ty} {p : Prim}
    (h : resource code types = .ok ty) (leads : types.head? = some first) (plain : first.prim? = some p) :
    p = .accelerationStructure := by
  have bare := Ty.prim?_eq_some_iff.1 plain
  unfold resource at h
  simp only [leads, Option.map_some, Option.getD_some, bare] at h
  split at h
  · cases h
  · rename_i present
    unfold select at h
    split at h
    · rename_i s found
      have fits := List.find?_some found
      simp only [Signature.fits, beq_iff_eq] at fits
      have member := List.mem_of_find?_eq_some found
      cases code <;> simp [ofResource] at member
      subst member
      obtain ⟨rest, rfl⟩ : ∃ rest, types = first :: rest := List.head?_eq_some_iff.1 leads
      simp [bare] at fits
      exact fits.1.symm
    · cases h

theorem intrinsic_prims {code : Intrinsic} {types : List Ty} {ty : Ty} (h : intrinsic code types = .ok ty)
    {first : Ty} {p : Prim} (leads : types.head? = some first) (plain : first.prim? = some p)
    (scalar : p ≠ .accelerationStructure) :
    ∃ args result, types.mapM Ty.prim? = some args ∧ ty = .prim result ∧
      (∀ p ∈ args, 0 < p.components) ∧ intrinsicTest code args result = true := by
  unfold intrinsic at h
  split at h
  · exact absurd (resource_first h leads plain) scalar
  · exact select_prims (ofIntrinsic_suits code) h

end Overload

/-! ### Operations on primitives -/

def Prim.parts (p : Prim) : List Prim := List.replicate p.components p.scalar

theorem Prim.parts_swizzle {p : Prim} {code : Swizzle} (vector : p.isVector = true)
    (within : code.maxComponent < p.components) :
    (Prim.vector? p.scalar code.components.length).getD p ≠ .accelerationStructure ∧
      code.components.map (p.parts[·]?) =
        ((Prim.vector? p.scalar code.components.length).getD p).parts.map some := by
  revert vector within
  cases p <;> cases code <;> decide

theorem Prim.parts_column {p column : Prim} (matrix : p.column? = some column) :
    column ≠ .accelerationStructure ∧
      column.parts = List.replicate (if p.isMatrix then p.rows else 1) p.scalar := by
  cases p <;> cases matrix <;> decide

theorem Prim.parts_scalar {p : Prim} (vector : p.isVector = true) :
    p.scalar ≠ .accelerationStructure ∧
      p.scalar.parts = List.replicate (if p.isMatrix then p.rows else 1) p.scalar := by
  revert vector
  cases p <;> decide

namespace Native

variable {p q result : Prim}

theorem byComponent_iff {args : List Prim} : Overload.byComponent args result = true ↔
    0 < result.components ∧ (∃ p ∈ args, p.components = result.components) ∧
      ∀ p ∈ args, p.scalar = result.scalar ∧
        (p.components = 1 ∨ p.components = result.components) := by
  simp [Overload.byComponent, and_assoc]

theorem value_of_components (some : 0 < p.components) : p ≠ .accelerationStructure := by
  rintro rfl
  exact absurd some (by decide)

theorem byComponent_single (test : Overload.byComponent [p] result = true) :
    0 < result.components ∧ result.parts = p.parts := by
  obtain ⟨some, ⟨_, first, wide⟩, each⟩ := byComponent_iff.1 test
  obtain rfl := List.mem_singleton.1 first
  rw [Prim.parts, Prim.parts, (each _ first).1, wide]
  exact ⟨some, rfl⟩

theorem unary_gives {op : UnaryOp} {e : Expr} (given : e.Gives p.parts) (keeps : op.scalar p.scalar = p.scalar) :
    (Expr.unary op p.scalar e).Gives p.parts := by
  have made := Expr.Gives.unary op given
  rw [keeps] at made
  exact made

theorem operatorTest_single {code : Operator} {op : UnaryOp} (chosen : UnaryOp.ofOperator? code = some op)
    (s : Prim) : op.scalar s = s ∧ ∀ p result, Overload.operatorTest code [p] result =
      Overload.byComponent [p] result := by
  cases code <;> cases chosen <;> exact ⟨rfl, fun _ _ => rfl⟩

theorem byComponent_pair (test : Overload.byComponent [p, q] result = true) :
    q.scalar = p.scalar ∧ 0 < result.components ∧
      result.parts = List.replicate (max p.components q.components) p.scalar := by
  obtain ⟨some, ⟨r, member, wide⟩, each⟩ := byComponent_iff.1 test
  obtain ⟨first, narrow⟩ := each p (by simp)
  obtain ⟨second, narrow'⟩ := each q (by simp)
  have widest : max p.components q.components = result.components := by
    rcases List.mem_pair.1 member with rfl | rfl <;> omega
  refine ⟨second.trans first.symm, some, ?_⟩
  rw [widest, first]
  rfl

theorem operatorTest_pair {code : Operator} {op : BinaryOp} (chosen : BinaryOp.ofOperator? code = some op)
    (single : Overload.isMatrixProduct code p q = false)
    (test : Overload.operatorTest code [p, q] result = true) :
    q.scalar = p.scalar ∧ 0 < result.components ∧
      if code = .equals ∨ code = .notEquals then result = .boolean ∧ op.scalar p.scalar = .boolean
      else result.parts = List.replicate (max p.components q.components) (op.scalar p.scalar) := by
  by_cases equality : code = .equals ∨ code = .notEquals
  · have alike : p = q ∧ result = .boolean := by
      rcases equality with rfl | rfl <;> simpa [Overload.operatorTest] using test
    obtain ⟨rfl, rfl⟩ := alike
    refine ⟨rfl, by decide, ?_⟩
    rw [if_pos equality]
    rcases equality with rfl | rfl <;> cases chosen <;> exact ⟨rfl, rfl⟩
  · rw [if_neg equality]
    by_cases ordering : op.isComparison = true
    · have alike : p = q ∧ p.components = 1 ∧ result = .boolean := by
        cases code <;> cases chosen <;> first
          | simpa [Overload.operatorTest, Prim.isScalar, and_assoc] using test
          | exact absurd ordering (by decide)
          | exact absurd (by decide) equality
      obtain ⟨rfl, one, rfl⟩ := alike
      refine ⟨rfl, by decide, ?_⟩
      rw [one, BinaryOp.scalar, if_pos ordering]
      rfl
    · have componentwise : Overload.byComponent [p, q] result = true := by
        cases code <;> cases chosen <;> first
          | exact absurd rfl ordering
          | simpa [Overload.operatorTest, single] using test
      have same : op.scalar p.scalar = p.scalar := by
        cases code <;> cases chosen <;> first | rfl | exact absurd rfl ordering
      rw [same]
      exact byComponent_pair componentwise

theorem intrinsicTest_single {code : Intrinsic} {s : Prim} {op : UnaryOp}
    (chosen : UnaryOp.ofIntrinsic? code s = some op) :
    op.scalar s = s ∧ Overload.intrinsicTest code = Overload.byComponent := by
  refine ⟨?_, ?_⟩
  · unfold UnaryOp.ofIntrinsic? at chosen
    cases code <;> simp at chosen <;> first
      | obtain ⟨rfl, rfl⟩ := chosen; rfl
      | obtain ⟨_, rfl⟩ := chosen; rfl
  · cases code <;> first | rfl | cases chosen

theorem intrinsicTest_pair {code : Intrinsic} {s : Prim} {op : BinaryOp}
    (chosen : BinaryOp.ofIntrinsic? code s = some op) :
    op.scalar s = s ∧ Overload.intrinsicTest code = Overload.byComponent := by
  refine ⟨?_, ?_⟩
  · unfold BinaryOp.ofIntrinsic? at chosen
    cases code <;> simp at chosen <;> obtain ⟨rfl, rfl⟩ := chosen <;> rfl
  · cases code <;> first | rfl | cases chosen

theorem intrinsicTest_metric {code : Intrinsic} {ps : List Prim} (metric : code = .dot ∨ code = .length)
    (test : Overload.intrinsicTest code (p :: ps) result = true) :
    p.scalar = .f32 ∧ (∀ q ∈ ps, q = p) ∧ result = .f32 := by
  rcases metric with rfl | rfl
  all_goals
    simp only [Overload.intrinsicTest, List.all_cons, Bool.and_eq_true, beq_iff_eq, List.all_eq_true] at test
    exact ⟨test.1.1.1, test.1.1.2.2, test.2⟩

theorem binary_gives (op : BinaryOp) {x y : Expr} (left : x.Gives p.parts) (right : y.Gives q.parts)
    (alike : q.scalar = p.scalar) (even : agree [x.width, y.width] = true) :
    (Expr.binary op p.scalar x y).Gives
      (List.replicate (max p.components q.components) (op.scalar p.scalar)) := by
  rw [left.width, right.width] at even
  simp only [Prim.parts, List.length_replicate, alike] at left right even
  exact .binary op left right even

theorem fold_gives {op : BinaryOp} {s : Prim} {e : Expr} {n m : Nat}
    (each : e.Gives (List.replicate (max n m) s)) (some : 0 < n) (keeps : op.scalar s = s) :
    (Expr.fold op s e).Gives [s] := by
  obtain ⟨k, same⟩ : ∃ k, max n m = k + 1 := ⟨max n m - 1, by omega⟩
  rw [same] at each
  exact .fold each keeps

theorem clamp_gives {r : Prim} {x low high : Expr} (given : x.Gives p.parts) (given' : low.Gives q.parts)
    (given'' : high.Gives r.parts) (test : Overload.byComponent [p, q, r] result = true) :
    0 < result.components ∧
      (Expr.binary .min p.scalar (.binary .max p.scalar x low) high).Gives result.parts := by
  obtain ⟨some, ⟨_, member, wide⟩, each⟩ := byComponent_iff.1 test
  obtain ⟨first, narrow⟩ := each p (by simp)
  obtain ⟨second, narrow'⟩ := each q (by simp)
  obtain ⟨third, narrow''⟩ := each r (by simp)
  have widest : max (max p.components q.components) r.components = result.components := by
    simp only [List.mem_cons, List.not_mem_nil, or_false] at member
    rcases member with rfl | rfl | rfl <;> omega
  have least := binary_gives .max given given' (second.trans first.symm) (by
    rw [given.width, given'.width]
    simp only [Prim.parts, List.length_replicate]
    exact agree_pair.2 (by omega))
  have bounded := Expr.Gives.binary .min (s := p.scalar) least
    (by rw [← third.trans first.symm]; exact given'') (agree_pair.2 (by omega))
  rw [widest, first] at bounded
  rw [first]
  exact ⟨some, bounded⟩

end Native

end ShaderForge
