import Mathlib.Data.Nat.Find
import Mathlib.Tactic.Choose
import ShaderForge.Proofs.Buffer.Fold

/-!
Types along a fold. The types of a folded buffer are the types before with folded addresses,
so a typed buffer folds onto one that can be analyzed.
-/

namespace ShaderForge

def Data.rename (f : Index → Index) : Data → Data
  | .prim p => .prim p
  | .struct head => .struct (f head)

namespace Ty

def rename (f : Index → Index) : Ty → Ty
  | .nil => .nil
  | .data d => .data (d.rename f)
  | .field d next => .field (d.rename f) (f next)
  | .array d size => .array (d.rename f) size
  | .image texel dim => .image texel dim
  | .sampler texel dim => .sampler texel dim
  | .reference d id => .reference (d.rename f) id
  | .inArg t => .inArg (t.rename f)
  | .outArg t => .outArg (t.rename f)
  | .inOutArg t => .inOutArg (t.rename f)

variable (f : Index → Index)

@[simp] theorem bare_rename (t : Ty) : (t.rename f).bare = t.bare.rename f := by
  induction t with
  | inArg t ih | outArg t ih | inOutArg t ih => simpa [rename, bare] using ih
  | _ => rfl

@[simp] theorem data?_rename (t : Ty) : (t.rename f).data? = t.data?.map (Data.rename f) := by
  unfold data?
  rw [bare_rename]
  cases t.bare <;> rfl

@[simp] theorem prim?_rename (t : Ty) : (t.rename f).prim? = t.prim? := by
  unfold prim?
  rw [data?_rename]
  cases t.data? with
  | none => rfl
  | some d => cases d <;> rfl

@[simp] theorem struct?_rename (t : Ty) : (t.rename f).struct? = t.struct?.map f := by
  unfold struct?
  rw [bare_rename]
  cases t.bare with
  | data d | array d size | reference d id => cases d <;> rfl
  | _ => rfl

@[simp] theorem isNil_rename (t : Ty) : (t.rename f).isNil = t.isNil := by
  cases t with
  | data d => cases d <;> rfl
  | _ => rfl

@[simp] theorem fieldValue_rename (t : Ty) :
    Typing.fieldValue (t.rename f) = (Typing.fieldValue t).rename f := by
  cases t <;> rfl

@[simp] theorem target_rename (t : Ty) : Typing.target (t.rename f) = (Typing.target t).rename f := by
  cases t <;> rfl

/-- Types without addresses. -/
def plain : Ty → Bool
  | .nil | .data (.prim _) | .image .. | .sampler .. => true
  | _ => false

theorem rename_eq_plain {t s : Ty} (h : s.plain = true) : t.rename f = s ↔ t = s := by
  cases s with
  | data d =>
    cases d with
    | struct head => cases h
    | prim p =>
      cases t with
      | data d' => cases d' <;> simp [rename, Data.rename]
      | _ => simp [rename]
  | nil | image texel dim | sampler texel dim => cases t <;> simp [rename]
  | _ => cases h

theorem rename_plain {s : Ty} (h : s.plain = true) : s.rename f = s :=
  (rename_eq_plain f h).2 rfl

end Ty

namespace Overload

variable (f : Index → Index)

theorem fits_rename {s : Signature} (plain : s.args.all Ty.plain = true) (args : List Ty) :
    s.fits (args.map (Ty.rename f)) = s.fits args := by
  obtain ⟨params, result⟩ := s
  unfold Signature.fits
  rw [Bool.eq_iff_iff, beq_iff_eq, beq_iff_eq]
  simp only at plain ⊢
  induction params generalizing args with
  | nil => cases args <;> simp
  | cons p rest ih =>
    rw [List.all_cons, Bool.and_eq_true] at plain
    cases args with
    | nil => simp
    | cons t ts =>
      have first : p = t.bare.rename f ↔ p = t.bare := by
        rw [eq_comm, Ty.rename_eq_plain f plain.1, eq_comm]
      simp only [List.map_cons, List.cons.injEq, Ty.bare_rename, first, ih ts plain.2]

theorem select_rename {target : String} {candidates : List Signature} {args : List Ty} {ty : Ty}
    (plain : ∀ s ∈ candidates, s.args.all Ty.plain = true ∧ s.result.plain = true)
    (h : select target candidates args = .ok ty) :
    select target candidates (args.map (Ty.rename f)) = .ok (ty.rename f) := by
  have same : candidates.find? (·.fits (args.map (Ty.rename f))) =
      candidates.find? (·.fits args) := by
    clear h
    induction candidates with
    | nil => rfl
    | cons s rest ih =>
      have first := fits_rename f (plain s List.mem_cons_self).1 args
      have later := ih (fun s' member => plain s' (List.mem_cons_of_mem _ member))
      simp only [List.find?_cons, first, later]
  unfold select at h ⊢
  rw [same]
  cases found : candidates.find? (·.fits args) with
  | none => rw [found] at h; cases h
  | some s =>
    rw [found] at h
    cases h
    rw [Ty.rename_plain f (plain s (List.mem_of_find?_eq_some found)).2]

theorem ofOperator_plain (code : Operator) :
    ∀ s ∈ ofOperator code, s.args.all Ty.plain = true ∧ s.result.plain = true := by
  cases code <;> decide +kernel

theorem ofIntrinsic_plain (code : Intrinsic) :
    ∀ s ∈ ofIntrinsic code, s.args.all Ty.plain = true ∧ s.result.plain = true := by
  cases code <;> decide +kernel

theorem ofResource_plain (code : Intrinsic) (resource : Ty) :
    ∀ s ∈ ofResource code resource, s.args.all Ty.plain = true ∧ s.result.plain = true := by
  intro s member
  unfold ofResource at member
  split at member <;> simp at member <;> subst member <;> simp [Ty.plain]

theorem ofResource_rename (code : Intrinsic) (resource : Ty) :
    ofResource code (resource.rename f) = ofResource code resource := by
  cases resource <;> cases code <;> rfl

theorem operator_rename {code : Operator} {args : List Ty} {ty : Ty}
    (h : operator code args = .ok ty) :
    operator code (args.map (Ty.rename f)) = .ok (ty.rename f) :=
  select_rename f (ofOperator_plain code) h

theorem intrinsic_rename {code : Intrinsic} {args : List Ty} {ty : Ty}
    (h : intrinsic code args = .ok ty) :
    intrinsic code (args.map (Ty.rename f)) = .ok (ty.rename f) := by
  unfold intrinsic at h ⊢
  split at h
  · rename_i access
    rw [if_pos access]
    have head : (((args.map (Ty.rename f)).head?.map Ty.bare).getD .nil) =
        ((args.head?.map Ty.bare).getD .nil).rename f := by
      cases args with
      | nil => rfl
      | cons t ts => simp
    unfold resource at h ⊢
    simp only [head, ofResource_rename] at h ⊢
    split at h
    · cases h
    · rename_i present
      rw [if_neg present]
      exact select_rename f (ofResource_plain code _) h
  · rename_i pure
    rw [if_neg pure]
    exact select_rename f (ofIntrinsic_plain code) h

end Overload

namespace Typing

open Inquiry

section

variable {b c : Buffer} {fold : Index → Index} {table folded : Index → Option Ty} {i : Index} {ty : Ty}

theorem typeNode_fold (folds : Buffer.Folds b c fold) {item : Prim} {down next : Index}
    (nested : Buffer.Kept fold down) (linked : Buffer.Kept fold next)
    (agree : ∀ t, table next = some t → folded (fold next) = some (t.rename fold))
    (h : (typeNode b i item down next).value? table = some ty) :
    (typeNode c (fold i) item (fold down) (fold next)).value? folded = some (ty.rename fold) := by
  unfold typeNode at h ⊢
  rw [value?_bind] at h ⊢
  rw [nested, linked]
  obtain ⟨d, shape, h⟩ := Option.bind_eq_some_iff.1 h
  refine Option.bind_eq_some_iff.2 ⟨d.rename fold, ?_, ?_⟩
  · split at shape
    · cases shape
      rw [if_pos ‹_›]
      rfl
    · rw [if_neg ‹_›]
      split at shape
      · rw [if_pos ‹_›]
        rw [value?_bind, value?_ofExcept] at shape ⊢
        obtain ⟨fields, chain, shape⟩ := Option.bind_eq_some_iff.1 shape
        cases shape
        rw [folds.fieldChain nested (Except.toOption_eq_some_iff.1 chain)]
        rfl
      · cases shape
  · split at h
    · cases h
      rw [if_pos ‹_›]
      rfl
    · rw [if_neg ‹_›]
      rw [value?_bind, value?_ofExcept] at h ⊢
      obtain ⟨found, present, h⟩ := Option.bind_eq_some_iff.1 h
      rw [Except.toOption_eq_some_iff, Buffer.atom_ok_iff] at present
      cases next with
      | null => cases present
      | ref n =>
        rw [Buffer.atom_ok_iff.2 (folds.atoms n found present linked)]
        split at h
        · rw [value?_bind, value?_typeOf] at h
          obtain ⟨t, known, h⟩ := Option.bind_eq_some_iff.1 h
          cases h
          simp only [Except.toOption, Option.bind_some, Atom.mapAddresses, value?_bind,
            value?_typeOf, agree t known]
          rfl
        · cases h

theorem base_fold {d : Data} (h : (base b i ty).value? table = some d) :
    (base c (fold i) (ty.rename fold)).value? folded = some (d.rename fold) := by
  unfold base at h ⊢
  rw [Ty.data?_rename]
  cases shape : ty.data? with
  | none => rw [shape] at h; cases h
  | some d' => rw [shape] at h; cases h; rfl

theorem wrapped_fold {g : Data → Ty} {result : Ty}
    (commutes : ∀ d, (g d).rename fold = g (d.rename fold))
    (h : (do return g (← base b i ty) : Inquiry Ty).value? table = some result) :
    (do return g (← base c (fold i) (ty.rename fold)) : Inquiry Ty).value? folded =
      some (result.rename fold) := by
  rw [value?_bind] at h ⊢
  obtain ⟨d, wrapped, h⟩ := Option.bind_eq_some_iff.1 h
  cases h
  rw [base_fold wrapped, Option.bind_some, value?_pure, commutes]

theorem refined_fold {kind : Qualifier} {number : Int32} {result : Ty}
    (h : (refined b i kind number ty).value? table = some result) :
    (refined c (fold i) kind number (ty.rename fold)).value? folded =
      some (result.rename fold) := by
  cases kind with
  | storageBuffer =>
    cases ty with
    | array d size => cases h; rfl
    | _ => exact wrapped_fold (g := (.reference · number)) (fun _ => rfl) h
  | bufferReference => exact wrapped_fold (g := (.reference · number)) (fun _ => rfl) h
  | arrays =>
    cases ty with
    | sampler texel dim | image texel dim => cases h; rfl
    | _ => exact wrapped_fold (g := (.array · number)) (fun _ => rfl) h
  | inArg | outArg | inOutArg | accelerationStructure => cases h; rfl
  | _ =>
    cases h
    exact congrArg some (Ty.fieldValue_rename fold ty)

theorem qualifier_fold {underlying : Index} {kind : Qualifier} {number : Int32}
    (agree : ∀ t, table underlying = some t → folded (fold underlying) = some (t.rename fold))
    (h : (qualifier b i underlying kind number).value? table = some ty) :
    (qualifier c (fold i) (fold underlying) kind number).value? folded =
      some (ty.rename fold) := by
  unfold qualifier at h ⊢
  split at h
  · cases h; rfl
  · cases h; rfl
  · cases h; rfl
  · rename_i kind _ _ _
    rw [value?_bind, value?_typeOf] at h
    obtain ⟨t, known, h⟩ := Option.bind_eq_some_iff.1 h
    simp only [value?_bind, value?_typeOf, agree t known]
    exact refined_fold h

theorem swizzle_fold {code : Swizzle} {source : Ty}
    (h : (swizzle b i code source).value? table = some ty) :
    (swizzle c (fold i) code (source.rename fold)).value? folded = some (ty.rename fold) := by
  unfold swizzle at h ⊢
  rw [Ty.prim?_rename]
  split at h
  · split at h
    · cases h
      rw [if_pos ‹_›]
      rfl
    · cases h
  · cases h

theorem element_fold {source : Ty} (h : (element b i source).value? table = some ty) :
    (element c (fold i) (source.rename fold)).value? folded = some (ty.rename fold) := by
  unfold element at h ⊢
  split at h
  · cases h; rfl
  · cases h; rfl
  · cases h; rfl
  · simp only [Ty.rename, Data.rename]
    split at h
    · cases h; rfl
    · split at h
      · cases h
        rw [if_pos ‹_›]
        rfl
      · cases h
  · cases h

theorem load_fold (folds : Buffer.Folds b c fold) {field : Int32} {source : Ty}
    (kept : ∀ head, source.struct? = some head → Buffer.Kept fold head)
    (agree : ∀ head fields node t, source.struct? = some head → b.fieldChain head = .ok fields →
      node ∈ fields → table node = some t → folded (fold node) = some (t.rename fold))
    (h : (load b i field source).value? table = some ty) :
    (load c (fold i) field (source.rename fold)).value? folded = some (ty.rename fold) := by
  unfold load at h ⊢
  split at h
  · cases h
    rw [if_pos ‹_›]
    rfl
  · rw [if_neg ‹_›]
    split at h
    · rename_i head
      rw [value?_bind, value?_ofExcept] at h
      obtain ⟨fields, chain, h⟩ := Option.bind_eq_some_iff.1 h
      rw [Except.toOption_eq_some_iff] at chain
      simp only [Ty.rename, Data.rename, value?_bind, value?_ofExcept, folds.fieldChain (kept head rfl) chain,
        Except.toOption, Option.bind_some, List.getElem?_map]
      split at h
      · rename_i node selected
        rw [value?_bind, value?_typeOf] at h
        obtain ⟨t, known, h⟩ := Option.bind_eq_some_iff.1 h
        cases h
        have known' := agree head fields node t rfl chain (List.mem_of_getElem? selected) known
        simp only [selected, Option.map_some, value?_bind, value?_typeOf, known', Option.bind_some,
          value?_pure, Ty.bare_rename]
      · cases h
    · cases h

theorem typesOf_fold {items : List Index} {types : List Ty}
    (agree : ∀ o ∈ items, ∀ t, table o = some t → folded (fold o) = some (t.rename fold))
    (h : items.mapM table = some types) :
    (items.map fold).mapM folded = some (types.map (Ty.rename fold)) := by
  induction items generalizing types with
  | nil => cases h; rfl
  | cons o rest ih =>
    rw [List.mapM_cons] at h
    obtain ⟨t, known, h⟩ := Option.bind_eq_some_iff.1 h
    obtain ⟨ts, later, h⟩ := Option.bind_eq_some_iff.1 h
    cases h
    have others := ih (fun o' member => agree o' (List.mem_cons_of_mem _ member)) later
    simp [agree o List.mem_cons_self t known, others]

theorem operation_fold {code : Operator} {x y : Index} (left : (fold x).isNull = x.isNull)
    (right : (fold y).isNull = y.isNull)
    (agree : ∀ o ∈ [x, y], ∀ t, table o = some t → folded (fold o) = some (t.rename fold))
    (h : (rule b i (.operation code x y)).value? table = some ty) :
    (rule c (fold i) (.operation code (fold x) (fold y))).value? folded = some (ty.rename fold) := by
  have operands : [fold x, fold y].filter (fun o => !o.isNull) = ([x, y].filter fun o => !o.isNull).map fold := by
    cases absent : x.isNull <;> cases absent' : y.isNull <;> simp [left, right, absent, absent']
  simp only [rule, value?_bind, value?_typesOf, operands] at h ⊢
  obtain ⟨types, known, h⟩ := Option.bind_eq_some_iff.1 h
  rw [value?_ofExcept, Except.toOption_eq_some_iff] at h
  have known' := typesOf_fold (fun o member => agree o (List.mem_filter.1 member).1) known
  have result := Overload.operator_rename fold h
  rw [List.map_map] at result
  rw [known', Option.bind_some, value?_ofExcept, Except.toOption_eq_some_iff, List.map_map]
  simpa [Function.comp_def] using result

theorem intrinsic_fold {code : Intrinsic} {args : Index} {items : List Index} (listed : b.expandList args = .ok items)
    (listed' : c.expandList (fold args) = .ok (items.map fold))
    (agree : ∀ o ∈ items, ∀ t, table o = some t → folded (fold o) = some (t.rename fold))
    (h : (rule b i (.intrinsic code args)).value? table = some ty) :
    (rule c (fold i) (.intrinsic code (fold args))).value? folded = some (ty.rename fold) := by
  simp only [rule, value?_bind, value?_typesOf, value?_ofExcept] at h ⊢
  rw [listed, Except.toOption, Option.bind_some] at h
  obtain ⟨types, known, h⟩ := Option.bind_eq_some_iff.1 h
  rw [Except.toOption_eq_some_iff] at h
  have result := Overload.intrinsic_rename fold h
  rw [List.map_map] at result
  rw [listed', Except.toOption, Option.bind_some, typesOf_fold agree known, Option.bind_some,
    Except.toOption_eq_some_iff, List.map_map]
  simpa [Function.comp_def] using result

theorem rule_fold (folds : Buffer.Folds b c fold) (typed : b.Typed) (backward : b.Backward) {n : Nat}
    {a : Atom} (found : b.atoms[n]? = some a) (kept : Buffer.Kept fold (.ref n))
    (agree : ∀ o t, o < .ref n → Buffer.Kept fold o → b.table o = some t →
      folded (fold o) = some (t.rename fold))
    (h : (rule b (.ref n) a).value? b.table = some ty) :
    (rule c (fold (.ref n)) (a.mapAddresses fold)).value? folded = some (ty.rename fold) := by
  have first : a.addresses.1 < .ref n := backward.address_lt found (Or.inl rfl)
  have second : a.isBranch = false → a.addresses.2 < .ref n :=
    fun other => backward.address_lt found (Or.inr ⟨rfl, other⟩)
  have kept₁ : Buffer.Kept fold a.addresses.1 := folds.kept_address found kept (Or.inl rfl)
  have kept₂ : a.isBranch = false → Buffer.Kept fold a.addresses.2 :=
    fun other => folds.kept_address found kept (Or.inr ⟨rfl, other⟩)
  cases a with
  | type item down next =>
    exact typeNode_fold folds kept₁ (kept₂ rfl)
      (fun t known => agree next t (second rfl) (kept₂ rfl) known) h
  | qualifier underlying kind number => exact qualifier_fold (fun t => agree _ t first kept₁) h
  | literal value => cases h; rfl
  | swizzle src code =>
    simp only [rule, Atom.mapAddresses, value?_bind, value?_typeOf] at h ⊢
    obtain ⟨t, known, h⟩ := Option.bind_eq_some_iff.1 h
    rw [agree src t first kept₁ known, Option.bind_some, Ty.bare_rename]
    exact swizzle_fold h
  | operation code x y =>
    refine operation_fold kept₁ (kept₂ rfl) (fun o member t => ?_) h
    rcases List.mem_pair.1 member with rfl | rfl
    · exact agree _ t first kept₁
    · exact agree _ t (second rfl) (kept₂ rfl)
  | intrinsic code args =>
    have listing := h
    rw [rule, value?_bind, value?_ofExcept] at listing
    obtain ⟨items, listed, -⟩ := Option.bind_eq_some_iff.1 listing
    rw [Except.toOption_eq_some_iff] at listed
    have early := Buffer.expandList_lt backward first listed
    have kept' := folds.kept_items kept₁ listed
    exact intrinsic_fold listed (folds.expandList kept₁ listed)
      (fun o member t => agree o t (early o member) (kept' o member)) h
  | construct ty' args mode =>
    cases mode with
    | transient =>
      simp only [rule, Atom.mapAddresses, value?_bind, value?_typeOf] at h ⊢
      obtain ⟨t, known, h⟩ := Option.bind_eq_some_iff.1 h
      cases h
      simp [agree ty' t first kept₁ known]
    | normal =>
      simp only [rule, Atom.mapAddresses, value?_bind, value?_typeOf] at h ⊢
      obtain ⟨t, known, h⟩ := Option.bind_eq_some_iff.1 h
      cases h
      simp [agree ty' t first kept₁ known]
  | call callee ty' args =>
    simp only [rule, Atom.mapAddresses, value?_bind, value?_typeOf] at h ⊢
    obtain ⟨t, known, h⟩ := Option.bind_eq_some_iff.1 h
    cases h
    simp [agree ty' t first kept₁ known]
  | load src field =>
    simp only [rule, Atom.mapAddresses, value?_bind, value?_typeOf] at h ⊢
    obtain ⟨t, known, h⟩ := Option.bind_eq_some_iff.1 h
    rw [agree src t first kept₁ known, Option.bind_some, Ty.bare_rename, Ty.target_rename]
    have head_kept : ∀ head, (target t.bare).struct? = some head → Buffer.Kept fold head := by
      intro head carried
      rw [Ty.struct?_target, Ty.struct?_bare] at carried
      exact folds.kept_struct typed backward kept₁ known carried
    refine load_fold folds head_kept ?_ h
    intro head fields node t' carried chain member known'
    have kept' := folds.closed.fields chain (head_kept head carried) node member
    rw [Ty.struct?_target, Ty.struct?_bare] at carried
    exact agree node t' (typed.ruled.fields_lt backward first known carried chain node member) kept' known'
  | access src loc =>
    simp only [rule, Atom.mapAddresses, value?_bind, value?_typeOf] at h ⊢
    obtain ⟨t, known, h⟩ := Option.bind_eq_some_iff.1 h
    rw [agree src t first kept₁ known, Option.bind_some, Ty.bare_rename, Ty.target_rename]
    exact element_fold h
  | list item next | store dst src | branch kind cond failto | ret value => cases h; rfl

end

end Typing

namespace Buffer

variable {b c : Buffer} {fold : Index → Index}

theorem Folds.first (folds : Folds b c fold) {k : Nat} (inside : k < c.size) :
    ∃ m, m < b.size ∧ fold (.ref m) = .ref k ∧ ∀ n, fold (.ref n) = .ref k → m ≤ n := by
  classical
  obtain ⟨n, below, place⟩ := folds.onto k inside
  have some : ∃ m, fold (.ref m) = .ref k := ⟨n, place⟩
  refine ⟨Nat.find some, ?_, Nat.find_spec some, fun n place => Nat.find_min' some place⟩
  exact Nat.lt_of_le_of_lt (Nat.find_min' some place) below

/-- A table agrees with the types of a buffer where it does at the first atom that is folded to each place. -/
theorem Folds.agree_of_first (folds : Folds b c fold) (typed : b.Typed) (backward : b.Backward)
    {folded : Index → Option Ty} (null : folded .null = some .nil)
    (first : ∀ n k, fold (.ref n) = .ref k → k < c.size → ∃ m ty, m ≤ n ∧ fold (.ref m) = .ref k ∧
      b.table (.ref m) = some ty ∧ folded (.ref k) = some (ty.rename fold))
    (i : Index) (ty : Ty) (kept : Kept fold i) (answered : b.table i = some ty) :
    folded (fold i) = some (ty.rename fold) := by
  have absent : ∀ t, b.table .null = some t → folded (fold .null) = some (t.rename fold) := by
    intro t answer
    cases answer
    rw [folds.null]
    exact null
  cases i with
  | null => exact absent ty answered
  | ref n =>
    -- by induction on the address: an atom and the first one that it is folded with obey one rule
    induction n using Nat.strongRecOn generalizing ty with
    | ind n ih =>
      have complete : b.types.size = b.atoms.size := typed.complete
      have inside : n < b.atoms.size := complete ▸ (Array.getElem?_eq_some_iff.1 answered).1
      have present : b.atoms[n]? = some b.atoms[n] := Array.getElem?_eq_getElem inside
      obtain ⟨k, goes, image⟩ := folds.atom_at present kept
      obtain ⟨m, t, le, place, known, entry⟩ := first n k goes (Array.getElem?_eq_some_iff.1 image).1
      have earlier : ∀ m ≤ n, ∀ o t, o < .ref m → Kept fold o → b.table o = some t →
          folded (fold o) = some (t.rename fold) := by
        intro m le o t early kept answer
        cases o with
        | null => exact absent t answer
        | ref j => exact ih j (by rw [Index.ref_lt_ref] at early; omega) t kept answer
      have own := Typing.rule_fold folds typed backward present kept (earlier n (Nat.le_refl n))
        (by rw [typed.confirmed n _ present]; exact answered)
      have inside' : m < b.atoms.size := complete ▸ (Array.getElem?_eq_some_iff.1 known).1
      have present' : b.atoms[m]? = some b.atoms[m] := Array.getElem?_eq_getElem inside'
      obtain ⟨k', goes', image'⟩ := folds.atom_at present' (kept_of_place place)
      obtain rfl := Index.ref.inj (goes'.symm.trans place)
      have other := Typing.rule_fold folds typed backward present' (kept_of_place place) (earlier m le)
        (by rw [typed.confirmed m _ present']; exact known)
      rw [image, Option.some.injEq] at image'
      rw [place, ← image', ← goes, own] at other
      rw [goes, entry, ← other]

theorem Folds.typed (folds : Folds b c fold) (typed : b.Typed) (backward : b.Backward) :
    ∃ types : Array Ty, ({ c with types } : Buffer).Typed ∧
      ∀ i ty, Kept fold i → b.table i = some ty →
        Typing.table types (fold i) = some (ty.rename fold) := by
  classical
  choose first below place least using fun (k : Fin c.size) => folds.first k.isLt
  have entry : ∀ k : Fin c.size, ∃ ty, b.types[first k]? = some ty := by
    intro k
    have inside : first k < b.types.size := by rw [typed.complete]; exact below k
    exact ⟨_, Array.getElem?_eq_getElem inside⟩
  choose known found using entry
  have at_k : ∀ k : Fin c.size, Typing.table (Array.ofFn fun k => (known k).rename fold)
      (.ref k) = some ((known k).rename fold) := by
    intro k
    simp [Typing.table]
  have agree : ∀ i ty, Kept fold i → b.table i = some ty →
      Typing.table (Array.ofFn fun k => (known k).rename fold) (fold i) = some (ty.rename fold) :=
    folds.agree_of_first typed backward rfl fun n k goes small =>
      ⟨first ⟨k, small⟩, known ⟨k, small⟩, least ⟨k, small⟩ n goes, place ⟨k, small⟩, found ⟨k, small⟩, at_k ⟨k, small⟩⟩
  refine ⟨Array.ofFn fun k => (known k).rename fold, ⟨by simp [size], ?_⟩, agree⟩
  intro k a image
  have small : k < c.size := (Array.getElem?_eq_some_iff.1 image).1
  have present := Array.getElem?_eq_getElem (below ⟨k, small⟩)
  obtain ⟨k', goes, image'⟩ := folds.atom_at present (kept_of_place (place ⟨k, small⟩))
  rw [place ⟨k, small⟩] at goes
  cases goes
  have own := Typing.rule_fold folds typed backward present (kept_of_place (place ⟨k, small⟩))
    (fun o t _ => agree o t)
    (by rw [typed.confirmed _ _ present]; exact found ⟨k, small⟩)
  rw [place ⟨k, small⟩, ← Option.some.inj (image.symm.trans image')] at own
  have unchanged := @Typing.rule_congr
    { c with types := Array.ofFn fun k => (known k).rename fold } c rfl (.ref k) a
  exact (unchanged _).trans (own.trans (at_k ⟨k, small⟩).symm)

theorem Folds.analyze (folds : Folds b c fold) (typed : b.Typed) (backward : b.Backward) :
    ∃ types hints, Typing.analyze c = .ok (types, hints) ∧ (c.withAnalysis types hints).Typed ∧
      ∀ i ty, Kept fold i → b.table i = some ty →
        (c.withAnalysis types hints).table (fold i) = some (ty.rename fold) := by
  obtain ⟨types, typed', agree⟩ := folds.typed typed backward
  obtain ⟨hints, run⟩ :=
    Typing.analyze_complete typed' (folds.backward.of_atoms_eq rfl) (c := c) rfl
  refine ⟨types.toList, hints, run, typed_of_analyze run rfl rfl, ?_⟩
  simpa [table, withAnalysis] using agree

end Buffer

end ShaderForge
