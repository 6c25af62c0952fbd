import ShaderForge.Proofs.Typing.Derivation
import ShaderForge.Proofs.Typing.Structs

/-!
Completeness of analysis. Where addresses lead backwards a rule asks about earlier atoms only, so a
table that answers every rule with itself is a derivation in the order of the atoms, and analysis
finds it.
-/

namespace ShaderForge

namespace Inquiry

variable {α β : Type}

/-- All questions that a table leads to are about addresses in `P`. -/
def Within (table : Index → Option Ty) (P : Index → Prop) : Inquiry α → Prop
  | done _ => True
  | fail _ => True
  | ask i resume => P i ∧ ∀ ty, table i = some ty → (resume ty).Within table P

variable {table : Index → Option Ty} {P : Index → Prop}

theorem within_pure (a : α) : (pure a : Inquiry α).Within table P := trivial

theorem within_ofExcept (e : Except Fault α) : (ofExcept e).Within table P := by
  cases e <;> trivial

theorem within_typeOf {i : Index} (inside : P i) : (typeOf i).Within table P :=
  ⟨inside, fun _ _ => trivial⟩

theorem within_bind {x : Inquiry α} {f : α → Inquiry β} (first : x.Within table P)
    (later : ∀ a, x.value? table = some a → (f a).Within table P) : (x >>= f).Within table P := by
  induction x with
  | done a => exact later a rfl
  | fail e => trivial
  | ask i resume ih =>
    refine ⟨first.1, fun ty found => ih ty (first.2 ty found) fun a answered => later a ?_⟩
    rw [value?, found, Option.bind_some]
    exact answered

theorem Within.imp {Q : Index → Prop} {x : Inquiry α} (within : x.Within table P)
    (wider : ∀ i, P i → Q i) : x.Within table Q := by
  induction x with
  | done a => trivial
  | fail e => trivial
  | ask i resume ih => exact ⟨wider i within.1, fun ty found => ih ty (within.2 ty found)⟩

theorem Within.value?_eq {other : Index → Option Ty} {x : Inquiry α}
    (within : x.Within table fun i => other i = table i) : x.value? other = x.value? table := by
  induction x with
  | done a => rfl
  | fail e => rfl
  | ask i resume ih =>
    rw [value?, value?, within.1]
    cases found : table i with
    | none => rfl
    | some ty => exact ih ty (within.2 ty found)

theorem within_typesOf {items : List Index} (inside : ∀ i ∈ items, P i) :
    (typesOf items).Within table P := by
  induction items with
  | nil => trivial
  | cons i rest ih =>
    refine within_bind (within_typeOf (inside i List.mem_cons_self)) fun ty _ => ?_
    refine within_bind (ih fun j member => inside j (List.mem_cons_of_mem _ member)) fun _ _ => ?_
    exact within_pure _

end Inquiry

namespace Buffer

variable {b : Buffer}

/-- Every address of an atom is absent or leads backwards, apart from branch targets. -/
theorem Backward.address_lt (backward : b.Backward) {n : Nat} {a : Atom} {o : Index}
    (found : b.atoms[n]? = some a)
    (position : o = a.addresses.1 ∨ (o = a.addresses.2 ∧ a.isBranch = false)) : o < .ref n := by
  cases o with
  | null => exact Nat.zero_lt_succ n
  | ref k =>
    obtain ⟨m, same, below⟩ := backward n a found _ (Atom.mem_operands.2 ⟨rfl, position⟩)
    cases same
    exact Index.ref_lt_ref.2 below

theorem ItemRun.item_lt (backward : b.Backward) {i : Index} {items : List Index}
    (run : ItemRun b.atoms i items) : ∀ item ∈ items, item < i := by
  induction run with
  | nil => intro item member; cases member
  | @last n item cell =>
    intro other member
    rw [List.mem_singleton] at member
    subst member
    exact backward.address_lt cell (Or.inl rfl)
  | @cons n k item rest cell below tail ih =>
    intro other member
    rcases List.mem_cons.1 member with rfl | later
    · exact backward.address_lt cell (Or.inl rfl)
    · exact Nat.lt_trans (ih other later) (Index.ref_lt_ref.2 below)

theorem expandList_lt (backward : b.Backward) {n : Nat} {args : Index} {items : List Index}
    (early : args < .ref n) (listed : b.expandList args = .ok items) :
    ∀ item ∈ items, item < .ref n := by
  intro item member
  exact Nat.lt_trans ((expandList_ok_iff.1 listed).item_lt backward item member) early

end Buffer

namespace Typing

open Inquiry

variable {b c : Buffer}

/-- The struct that an earlier atom carries has its fields before this one. -/
theorem Ruled.fields_lt {types : Index → Option Ty} (ruled : Ruled b types) (backward : b.Backward)
    {i head : Index} {n : Nat} {ty : Ty} (early : i < .ref n) (found : types i = some ty)
    (carried : ty.struct? = some head) {fields : List Index} (chain : b.fieldChain head = .ok fields) :
    ∀ node ∈ fields, node < .ref n := by
  intro node member
  cases i with
  | null => rw [ruled.null] at found; cases found; cases carried
  | ref k =>
    have everything : b.UseClosed fun _ => True := fun _ _ _ _ _ _ => trivial
    obtain ⟨m, rfl, below, _⟩ := ruled.struct_head backward everything k trivial found carried
    obtain ⟨j, _, _, _, rfl, _, order⟩ := (Buffer.fieldChain_ok_iff.1 chain).1.mem_link node member
    rw [Index.ref_lt_ref] at early ⊢
    rw [Index.ref_le_ref] at order
    omega

theorem load_within {i : Index} {field : Int32} {source : Ty} {P : Index → Prop}
    {table : Index → Option Ty}
    (inside : ∀ head fields, source.struct? = some head → b.fieldChain head = .ok fields →
      ∀ node ∈ fields, P node) : (load b i field source).Within table P := by
  unfold load
  split
  · exact within_pure _
  · split
    · rename_i head
      refine within_bind (within_ofExcept _) fun fields found => ?_
      rw [value?_ofExcept, Except.toOption_eq_some_iff] at found
      split
      · rename_i node selected
        refine within_bind (within_typeOf ?_) fun _ _ => within_pure _
        exact inside head fields rfl found node (List.mem_of_getElem? selected)
      · trivial
    · trivial

section

variable {i : Index} {P : Index → Prop} {table : Index → Option Ty}

theorem base_within (ty : Ty) : (base b i ty).Within table P := by
  unfold base
  split <;> trivial

theorem refined_within (kind : Qualifier) (number : Int32) (ty : Ty) :
    (refined b i kind number ty).Within table P := by
  unfold refined
  split
  all_goals first | trivial | exact within_bind (base_within ty) fun _ _ => within_pure _

theorem swizzle_within (code : Swizzle) (ty : Ty) : (swizzle b i code ty).Within table P := by
  unfold swizzle
  split
  · split <;> trivial
  · trivial

theorem element_within (ty : Ty) : (element b i ty).Within table P := by
  unfold element
  split
  · trivial
  · trivial
  · trivial
  · split
    · trivial
    · split <;> trivial
  · trivial

theorem typeNode_within {item : Prim} {down next : Index} (later : P next) :
    (typeNode b i item down next).Within table P := by
  unfold typeNode
  refine within_bind ?_ fun d _ => ?_
  · split
    · trivial
    · split
      · exact within_bind (within_ofExcept _) fun _ _ => within_pure _
      · trivial
  · split
    · trivial
    · refine within_bind (within_ofExcept _) fun found _ => ?_
      split
      · exact within_bind (within_typeOf later) fun _ _ => within_pure _
      · trivial

theorem qualifier_within {underlying : Index} {kind : Qualifier} {number : Int32}
    (inside : P underlying) : (qualifier b i underlying kind number).Within table P := by
  unfold qualifier
  split
  · trivial
  · trivial
  · trivial
  · exact within_bind (within_typeOf inside) fun ty _ => refined_within _ _ ty

end

theorem rule_within {types : Index → Option Ty} (ruled : Ruled b types) (backward : b.Backward)
    {n : Nat} {a : Atom} (found : b.atoms[n]? = some a) :
    (rule b (.ref n) a).Within types (· < .ref n) := by
  have first : a.addresses.1 < .ref n := backward.address_lt found (Or.inl rfl)
  have second : a.isBranch = false → a.addresses.2 < .ref n :=
    fun plain => backward.address_lt found (Or.inr ⟨rfl, plain⟩)
  unfold rule
  split
  case h_1 item down next => exact typeNode_within (second rfl)
  case h_2 underlying kind number => exact qualifier_within first
  case h_3 => exact within_pure _
  case h_4 src code => exact within_bind (within_typeOf first) fun _ _ => swizzle_within _ _
  case h_5 code x y =>
    refine within_bind (within_typesOf fun o member => ?_) fun _ _ => within_ofExcept _
    rcases List.mem_cons.1 (List.mem_filter.1 member).1 with rfl | member
    · exact first
    · rw [List.mem_singleton] at member
      subst member
      exact second rfl
  case h_6 code args =>
    refine within_bind (within_ofExcept _) fun items listed => ?_
    rw [value?_ofExcept, Except.toOption_eq_some_iff] at listed
    refine within_bind (within_typesOf ?_) fun _ _ => within_ofExcept _
    exact Buffer.expandList_lt backward first listed
  case h_7 | h_8 | h_9 => exact within_bind (within_typeOf first) fun _ _ => within_pure _
  case h_10 src field =>
    refine within_bind (within_typeOf first) fun ty answered => load_within ?_
    intro head fields carried chain
    rw [Ty.struct?_target, Ty.struct?_bare] at carried
    rw [value?_typeOf] at answered
    exact ruled.fields_lt backward first answered carried chain
  case h_11 src loc => exact within_bind (within_typeOf first) fun _ _ => element_within _
  all_goals exact within_pure _

/-! ### Finding a table -/

/-- The remembered types of the first atoms, in order, are a derivation. -/
theorem derived_upTo (typed : b.Typed) (backward : b.Backward) (n : Nat) (inside : n ≤ b.size) :
    ∃ log, Derived b log ∧ ∀ i, found? log i = if i < .ref n then b.table i else none := by
  induction n with
  | zero =>
    refine ⟨[], .nil, fun i => ?_⟩
    cases i with
    | null => rfl
    | ref k => rw [if_neg (by rw [Index.ref_lt_ref]; omega)]; rfl
  | succ n ih =>
    obtain ⟨log, derived, same⟩ := ih (by omega)
    have present : b.atoms[n]? = some b.atoms[n] := Array.getElem?_eq_getElem (by exact inside)
    have remembered : n < b.types.size := by rw [typed.complete]; exact inside
    have value : (rule b (.ref n) b.atoms[n]).value? (found? log) = some b.types[n] := by
      have asks := (rule_within typed.ruled backward present).imp
        (Q := fun i => found? log i = b.table i) fun i early => by rw [same, if_pos early]
      rw [asks.value?_eq, typed.confirmed n _ present, Array.getElem?_eq_getElem remembered]
    refine ⟨(n, b.types[n]) :: log, .cons derived ?_ present value, fun i => ?_⟩
    · rw [same, if_neg (by rw [Index.ref_lt_ref]; omega)]
    · rw [found?_cons, same]
      cases i with
      | null => rfl
      | ref k =>
        simp only [Index.ref.injEq, Index.ref_lt_ref, Buffer.table_ref]
        by_cases last : k = n
        · subst last
          rw [if_pos rfl, if_pos (by omega), Array.getElem?_eq_getElem remembered]
        · rw [if_neg last]
          by_cases early : k < n
          · rw [if_pos early, if_pos (by omega)]
          · rw [if_neg early, if_neg (by omega)]

theorem analyze_complete (typed : b.Typed) (backward : b.Backward) (same : c.atoms = b.atoms) :
    ∃ hints, analyze c = .ok (b.types.toList, hints) := by
  obtain ⟨log, derived, upTo⟩ := derived_upTo typed backward b.size (Nat.le_refl _)
  have all : found? log = table b.types.toList.toArray := by
    funext i
    rw [upTo]
    cases i with
    | null => rfl
    | ref n =>
      by_cases inside : n < b.size
      · rw [if_pos (Index.ref_lt_ref.2 inside), Array.toArray_toList]
        rfl
      · rw [if_neg (by rw [Index.ref_lt_ref]; exact inside), table, Array.toArray_toList,
          Array.getElem?_eq_none (by rw [typed.complete]; omega)]
  have length : b.types.toList.length = c.size := by
    rw [Array.length_toList, typed.complete, Buffer.size, Buffer.size, same]
  exact (derived.congr same.symm).analyze_eq length all

end Typing

end ShaderForge
