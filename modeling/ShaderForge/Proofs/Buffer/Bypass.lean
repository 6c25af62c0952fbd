import ShaderForge.Proofs.Buffer.Fold
import ShaderForge.Proofs.Liveness.Least
import ShaderForge.Source.Naming

/-!
Placeholders bypassed. A construction without arguments that stands for a qualifier can be left out
wherever it is read: the reader takes the qualifier itself. Types, lists, field chains, storage and
the globals that qualifiers name stay what they were.
-/

namespace ShaderForge

namespace Atom

/-- Reads through a map of addresses. What an atom declares itself with stays. -/
def bypass (via : Index → Index) : Atom → Atom
  | qualifier underlying kind number => qualifier underlying kind number
  | type item down next => type item down next
  | literal value => literal value
  | swizzle src code => swizzle (via src) code
  | operation code a b => operation code (via a) (via b)
  | intrinsic code args => intrinsic code (via args)
  | list item next => list (via item) (via next)
  | construct ty args mode => construct ty (via args) mode
  | call callee ty args => call callee ty (via args)
  | store dst src => store (via dst) (via src)
  | load src field => load (via src) field
  | access src loc => access (via src) (via loc)
  | branch kind cond failto => branch kind (via cond) failto
  | ret value => ret (via value)

variable {via : Index → Index} {a : Atom} {o : Index}

@[simp] theorem declares_bypass (via : Index → Index) (a : Atom) : (a.bypass via).declares = a.declares := by
  cases a <;> rfl

theorem through?_bypass (via : Index → Index) (a : Atom) : (a.bypass via).through? = a.through?.map via := by
  cases a <;> rfl

theorem reads_bypass (absent : ∀ i, (via i).isNull = i.isNull) (a : Atom) :
    (a.bypass via).reads = a.reads.map via := by
  have present : ∀ items : List Index,
      (items.map via).filter (fun i => !i.isNull) = (items.filter fun i => !i.isNull).map via := by
    intro items
    rw [List.filter_map]
    simp only [Function.comp_def, absent]
  have null : via .null = .null := by
    have := absent .null
    cases moved : via .null with
    | null => rfl
    | ref n => rw [moved] at this; cases this
  cases a with
  | qualifier | type | construct | call => rfl
  | _ => simp only [bypass, reads, operands, addresses, ← present, List.map_cons, List.map_nil, null]

theorem mem_operands_iff : o ∈ a.operands ↔ o.isNull = false ∧ (o ∈ a.declares ∨ o ∈ a.reads) := by
  constructor
  · intro used
    exact ⟨(mem_operands.1 used).1, mem_declares_or_reads used⟩
  · rintro ⟨present, declared | read⟩
    · refine mem_operands.2 ⟨present, ?_⟩
      cases a <;> simp_all [declares, addresses, isBranch]
    · cases a with
      | qualifier | type => cases read
      | construct | call => exact mem_operands.2 ⟨present, Or.inr ⟨List.mem_singleton.1 read, rfl⟩⟩
      | _ => exact read

end Atom

namespace Buffer

variable {b c : Buffer} {via : Index → Index} {i j : Index} {n : Nat} {a : Atom}

/-- One buffer reads qualifiers where another reads placeholders of them. -/
structure Bypasses (b c : Buffer) (via : Index → Index) : Prop where
  placeholder : ∀ i, via i ≠ i → ∃ underlying kind number,
    b.get? i = some (.construct (via i) .null .transient) ∧
      b.get? (via i) = some (.qualifier underlying kind number)
  atoms : c.atoms = b.atoms.map (·.bypass via)

namespace Bypasses

theorem stays (bypasses : Bypasses b c via) (found : b.get? i = some a)
    (other : ∀ ty, a ≠ .construct ty .null .transient) : via i = i := by
  by_contra moved
  obtain ⟨_, _, _, construct, _⟩ := bypasses.placeholder i moved
  rw [found, Option.some.injEq] at construct
  exact other _ construct

theorem null (bypasses : Bypasses b c via) : via .null = .null := by
  by_contra moved
  obtain ⟨_, _, _, construct, _⟩ := bypasses.placeholder .null moved
  cases construct

theorem isNull (bypasses : Bypasses b c via) (i : Index) : (via i).isNull = i.isNull := by
  by_cases moved : via i = i
  · rw [moved]
  · obtain ⟨_, _, _, construct, qualifier⟩ := bypasses.placeholder i moved
    cases i with
    | null => cases construct
    | ref n =>
      cases place : via (.ref n) with
      | null => rw [place] at qualifier; cases qualifier
      | ref k => rfl

theorem exists_ref (bypasses : Bypasses b c via) (n : Nat) : ∃ k, via (.ref n) = .ref k :=
  Index.eq_ref_of_isNull_false (bypasses.isNull (.ref n))

theorem size (bypasses : Bypasses b c via) : c.size = b.size := by
  simp [Buffer.size, bypasses.atoms]

theorem getElem? (bypasses : Bypasses b c via) (n : Nat) :
    c.atoms[n]? = b.atoms[n]?.map (·.bypass via) := by
  simp [bypasses.atoms]

theorem get? (bypasses : Bypasses b c via) (i : Index) : c.get? i = (b.get? i).map (·.bypass via) := by
  cases i with
  | null => rfl
  | ref n => exact bypasses.getElem? n

theorem get?_some (bypasses : Bypasses b c via) (found : b.get? i = some a) :
    c.get? i = some (a.bypass via) := by
  rw [bypasses.get?, found]
  rfl

theorem source (bypasses : Bypasses b c via) {a' : Atom} (found : c.get? i = some a') :
    ∃ a, b.get? i = some a ∧ a' = a.bypass via := by
  rw [bypasses.get?] at found
  obtain ⟨a, there, same⟩ := Option.map_eq_some_iff.1 found
  exact ⟨a, there, same.symm⟩

theorem getElem?_type (bypasses : Bypasses b c via) {item : Prim} {down next : Index} :
    c.atoms[n]? = some (.type item down next) ↔ b.atoms[n]? = some (.type item down next) := by
  constructor
  · intro found
    obtain ⟨a, there, same⟩ := bypasses.source (i := .ref n) found
    cases a <;> cases same
    exact there
  · exact bypasses.get?_some (i := .ref n)

theorem lower (bypasses : Bypasses b c via) (backward : b.Backward) (i : Index) : via i ≤ i := by
  by_cases moved : via i = i
  · rw [moved]
    exact Nat.le_refl _
  · obtain ⟨_, _, _, construct, _⟩ := bypasses.placeholder i moved
    cases i with
    | null => cases construct
    | ref n => exact Nat.le_of_lt (backward.address_lt construct (Or.inl rfl))

theorem operands_lt (bypasses : Bypasses b c via) (backward : b.Backward) (found : b.atoms[n]? = some a) {o : Index}
    (used : o ∈ (a.bypass via).operands) : o < .ref n := by
  obtain ⟨present, declared | read⟩ := Atom.mem_operands_iff.1 used
  · rw [Atom.declares_bypass] at declared
    obtain ⟨k, rfl, below⟩ := backward n a found o (Atom.mem_operands_iff.2 ⟨present, Or.inl declared⟩)
    exact Index.ref_lt_ref.2 below
  · rw [Atom.reads_bypass bypasses.isNull] at read
    obtain ⟨o', source, rfl⟩ := List.mem_map.1 read
    rw [bypasses.isNull] at present
    obtain ⟨k, rfl, below⟩ := backward n a found o' (Atom.mem_operands_iff.2 ⟨present, Or.inr source⟩)
    exact Nat.lt_of_le_of_lt (bypasses.lower backward _) (Index.ref_lt_ref.2 below)

theorem backward (bypasses : Bypasses b c via) (backward : b.Backward) : c.Backward := by
  intro n a' found o used
  obtain ⟨a, there, rfl⟩ := bypasses.source (i := .ref n) found
  have below := bypasses.operands_lt backward there used
  obtain ⟨k, rfl⟩ := Index.eq_ref_of_isNull_false (Atom.mem_operands.1 used).1
  exact ⟨k, rfl, Index.ref_lt_ref.1 below⟩

theorem valid (bypasses : Bypasses b c via) (synthesized : c.synthesized = b.synthesized)
    (decorations : c.decorations = b.decorations) (valid : b.validate = .ok ()) : c.validate = .ok () := by
  have backward := backward_of_validate valid
  obtain ⟨addresses, notes⟩ := validate_ok_iff.1 valid
  refine validate_ok_iff.2 ⟨fun n a' found => ?_, fun i noted => ?_⟩
  · obtain ⟨a, there, rfl⟩ := bypasses.source (i := .ref n) found
    refine ⟨fun o used => bypasses.operands_lt backward there used, fun kind cond failto same => ?_⟩
    cases a with
    | branch kind' cond' failto' =>
      cases same
      rcases (addresses n _ there).2 _ _ _ rfl with absent | ⟨later, kind'', cond'', next, target⟩
      · exact Or.inl absent
      · exact Or.inr ⟨later, _, _, _, bypasses.get?_some target⟩
    | _ => cases same
  · rw [synthesized, decorations] at noted
    obtain ⟨a, there⟩ := notes i noted
    exact ⟨_, bypasses.get?_some there⟩

/-! ### Chains -/

theorem itemRun (bypasses : Bypasses b c via) {items : List Index} (run : ItemRun b.atoms i items) :
    via i = i ∧ ItemRun c.atoms i (items.map via) := by
  induction run with
  | nil => exact ⟨bypasses.null, .nil⟩
  | @last n item cell =>
    refine ⟨bypasses.stays (i := .ref n) cell (by simp), .last ?_⟩
    rw [bypasses.getElem?, cell, Option.map_some, Atom.bypass, bypasses.null]
  | @cons n k item rest cell below _ ih =>
    refine ⟨bypasses.stays (i := .ref n) cell (by simp), .cons ?_ below ih.2⟩
    rw [bypasses.getElem?, cell, Option.map_some, Atom.bypass, ih.1]

theorem expandList (bypasses : Bypasses b c via) {items : List Index} (listed : b.expandList i = .ok items) :
    c.expandList (via i) = .ok (items.map via) := by
  obtain ⟨same, run⟩ := bypasses.itemRun (expandList_ok_iff.1 listed)
  rw [same]
  exact expandList_ok_iff.2 run

theorem fieldRun (bypasses : Bypasses b c via) {fields : List Index} :
    FieldRun c.atoms i fields ↔ FieldRun b.atoms i fields := by
  constructor
  · intro run
    induction run with
    | closed marker => exact .closed (bypasses.getElem?_type.1 marker)
    | link node below _ ih => exact .link (bypasses.getElem?_type.1 node) below ih
  · intro run
    induction run with
    | closed marker => exact .closed (bypasses.getElem?_type.2 marker)
    | link node below _ ih => exact .link (bypasses.getElem?_type.2 node) below ih

theorem fieldChain (bypasses : Bypasses b c via) {fields : List Index} :
    c.fieldChain i = .ok fields ↔ b.fieldChain i = .ok fields := by
  rw [fieldChain_ok_iff, fieldChain_ok_iff, bypasses.fieldRun]

theorem fixed_of_chain (bypasses : Bypasses b c via) {fields : List Index} (chain : b.fieldChain i = .ok fields) :
    via i = i := by
  cases (fieldChain_ok_iff.1 chain).1 with
  | @closed n marker => exact bypasses.stays (i := .ref n) marker (by simp)
  | @link n _ _ _ _ node => exact bypasses.stays (i := .ref n) node (by simp)

theorem storageRun (bypasses : Bypasses b c via) (run : StorageRun b.atoms i j) :
    StorageRun c.atoms (via i) (via j) := by
  induction run with
  | @here n a found own =>
    by_cases moved : via (.ref n) = .ref n
    · rw [moved]
      exact .here (bypasses.get?_some (i := .ref n) found) (by rw [Atom.through?_bypass, own]; rfl)
    · obtain ⟨_, _, _, _, qualifier⟩ := bypasses.placeholder _ moved
      cases place : via (.ref n) with
      | null => rw [place] at qualifier; cases qualifier
      | ref k =>
        rw [place] at qualifier
        exact .here (bypasses.get?_some qualifier) rfl
  | @step n a src j found read _ ih =>
    have fixed : via (.ref n) = .ref n := by
      refine bypasses.stays (i := .ref n) found ?_
      rintro ty rfl
      cases read
    rw [fixed]
    exact .step (bypasses.get?_some (i := .ref n) found) (by rw [Atom.through?_bypass, read]; rfl) ih

/-! ### Globals -/

theorem resolveFrom (bypasses : Bypasses b c via) (fuel : Nat) (i : Index) :
    Global.resolveFrom c fuel i = Global.resolveFrom b fuel i := by
  induction fuel generalizing i with
  | zero => rfl
  | succ fuel ih =>
    rw [Global.resolveFrom, Global.resolveFrom, bypasses.get?]
    cases b.get? i with
    | none => rfl
    | some a =>
      cases a with
      | qualifier underlying kind number => simp only [Option.map_some, Atom.bypass, ih]
      | _ => rfl

theorem resolve? (bypasses : Bypasses b c via) (i : Index) : Global.resolve? c i = Global.resolve? b i := by
  rw [Global.resolve?, Global.resolve?, bypasses.size, bypasses.resolveFrom]

/-! ### Types -/

theorem typed_placeholder (bypasses : Bypasses b c via) (typed : b.Typed) (moved : via i ≠ i) :
    ∃ ty, b.table (via i) = some ty ∧ b.table i = some ty.bare := by
  obtain ⟨_, _, _, construct, _⟩ := bypasses.placeholder i moved
  cases i with
  | null => cases construct
  | ref n =>
    have inside : n < b.types.size := by
      rw [typed.complete]
      exact (Array.getElem?_eq_some_iff.1 construct).1
    have ruled := typed.confirmed n _ construct
    simp only [Typing.rule, Inquiry.value?_bind, Inquiry.value?_typeOf, Inquiry.value?_pure,
      Array.getElem?_eq_getElem inside] at ruled
    obtain ⟨ty, known, same⟩ := Option.bind_eq_some_iff.1 ruled
    exact ⟨ty, known, (Array.getElem?_eq_getElem inside).trans same.symm⟩

theorem bare_table (bypasses : Bypasses b c via) (typed : b.Typed) (i : Index) :
    (b.table (via i)).map Ty.bare = (b.table i).map Ty.bare := by
  by_cases moved : via i = i
  · rw [moved]
  · obtain ⟨ty, known, same⟩ := bypasses.typed_placeholder typed moved
    rw [known, same, Option.map_some, Option.map_some, Ty.bare_bare]

section

variable {table : Index → Option Ty} {ty : Ty}

open Typing Inquiry

theorem same_chain (bypasses : Bypasses b c via) (head : Index) :
    (c.fieldChain head).toOption = (b.fieldChain head).toOption :=
  Except.toOption_congr fun _ => bypasses.fieldChain

theorem same_typeNode (bypasses : Bypasses b c via) (i : Index) (item : Prim) (down next : Index) :
    Same (typeNode c i item down next) (typeNode b i item down next) := by
  unfold typeNode
  apply Same.bind
  · split
    · exact .refl _
    · split
      · exact .bind (.ofExcept (bypasses.same_chain down)) fun _ => .refl _
      · exact same_refuse _
  · intro base
    split
    · exact .refl _
    · intro table
      simp only [value?_bind, value?_ofExcept, Buffer.atom, bypasses.get?]
      cases b.get? next with
      | none => rfl
      | some a => cases a <;> rfl

theorem same_load (bypasses : Bypasses b c via) (i : Index) (field : Int32) (ty : Ty) :
    Same (load c i field ty) (load b i field ty) := by
  unfold load
  split
  · exact .refl _
  · split
    · refine .bind (.ofExcept (bypasses.same_chain _)) fun fields => ?_
      split
      · exact .refl _
      · exact same_refuse _
    · exact same_refuse _

theorem mapM_bare {items : List Index} {types : List Ty}
    (bare : ∀ i, (table (via i)).map Ty.bare = (table i).map Ty.bare) (asked : items.mapM table = some types) :
    ∃ others, (items.map via).mapM table = some others ∧ others.map Ty.bare = types.map Ty.bare := by
  induction items generalizing types with
  | nil =>
    cases asked
    exact ⟨[], rfl, rfl⟩
  | cons item rest ih =>
    rw [List.mapM_cons] at asked
    obtain ⟨first, known, asked⟩ := Option.bind_eq_some_iff.1 asked
    obtain ⟨later, told, asked⟩ := Option.bind_eq_some_iff.1 asked
    cases asked
    obtain ⟨others, told, alike⟩ := ih told
    have here := bare item
    rw [known, Option.map_some] at here
    obtain ⟨other, found, same⟩ := Option.map_eq_some_iff.1 here
    refine ⟨other :: others, ?_, by rw [List.map_cons, List.map_cons, same, alike]⟩
    rw [List.map_cons, List.mapM_cons, found, told]
    rfl

theorem rule (bypasses : Bypasses b c via) (bare : ∀ i, (table (via i)).map Ty.bare = (table i).map Ty.bare)
    (value : (rule b i a).value? table = some ty) : (rule c i (a.bypass via)).value? table = some ty := by
  have read : ∀ {src : Index} {f g : Ty → Inquiry Ty}, (∀ t, (f t).value? table = some ty →
      (g t).value? table = some ty) → (Inquiry.typeOf src >>= fun t => f t.bare).value? table = some ty →
      (Inquiry.typeOf (via src) >>= fun t => g t.bare).value? table = some ty := by
    intro src f g each value
    rw [value?_bind, value?_typeOf] at value ⊢
    obtain ⟨t, known, value⟩ := Option.bind_eq_some_iff.1 value
    have here := bare src
    rw [known, Option.map_some] at here
    obtain ⟨t', known', same⟩ := Option.map_eq_some_iff.1 here
    exact Option.bind_eq_some_iff.2 ⟨t', known', each _ (by rw [same]; exact value)⟩
  cases a with
  | qualifier underlying kind number =>
    exact (same_qualifier i underlying kind number table).symm.trans value
  | type item down next => exact (bypasses.same_typeNode i item down next table).trans value
  | literal | list | store | branch | ret => exact value
  | construct ty' args mode => cases mode <;> exact value
  | call => exact value
  | swizzle src code =>
    exact read (fun t value => (same_swizzle i code t table).symm.trans value) value
  | load src field =>
    exact read (f := fun t => load b i field (target t))
      (fun t value => (bypasses.same_load i field (target t) table).trans value) value
  | access src loc =>
    exact read (f := fun t => element b i (target t))
      (fun t value => (same_element i (target t) table).symm.trans value) value
  | operation code x y =>
    simp only [Typing.rule, Atom.bypass, value?_bind, value?_typesOf, value?_ofExcept] at value ⊢
    obtain ⟨types, asked, value⟩ := Option.bind_eq_some_iff.1 value
    obtain ⟨others, told, alike⟩ := mapM_bare bare asked
    have kept : ([via x, via y].filter fun o => !o.isNull) = ([x, y].filter fun o => !o.isNull).map via := by
      have both : [via x, via y] = [x, y].map via := rfl
      rw [both, List.filter_map]
      simp only [Function.comp_def, bypasses.isNull]
    rw [kept, told, Option.bind_some, alike]
    exact value
  | intrinsic code args =>
    simp only [Typing.rule, Atom.bypass, value?_bind, value?_typesOf, value?_ofExcept] at value ⊢
    obtain ⟨items, listed, value⟩ := Option.bind_eq_some_iff.1 value
    obtain ⟨types, asked, value⟩ := Option.bind_eq_some_iff.1 value
    obtain ⟨others, told, alike⟩ := mapM_bare bare asked
    rw [Except.toOption_eq_some_iff] at listed
    rw [bypasses.expandList listed]
    simp only [Except.toOption, Option.bind_some, told, alike]
    exact value

end

theorem typed (bypasses : Bypasses b c via) (types : c.types = b.types) (typed : b.Typed) : c.Typed := by
  refine ⟨by rw [types, bypasses.size, typed.complete], fun n a' found => ?_⟩
  obtain ⟨a, there, rfl⟩ := bypasses.source (i := .ref n) found
  have inside : n < b.types.size := by
    rw [typed.complete]
    exact (Array.getElem?_eq_some_iff.1 there).1
  have ruled := typed.confirmed n a there
  have same : c.table = b.table := by rw [Buffer.table, Buffer.table, types]
  rw [same, types]
  rw [Array.getElem?_eq_getElem inside] at ruled ⊢
  exact bypasses.rule (bypasses.bare_table typed) ruled

theorem typeOf (bypasses : Bypasses b c via) (types : c.types = b.types) (typed : b.Typed) {ty : Ty}
    (known : b.typeOf i = .ok ty) : c.typeOf i = .ok ty := by
  rw [(bypasses.typed types typed).typeOf_ok_iff, Buffer.table, types]
  exact typed.typeOf_ok_iff.1 known

theorem typeOf_bare (bypasses : Bypasses b c via) (types : c.types = b.types) (typed : b.Typed) {ty : Ty}
    (known : b.typeOf i = .ok ty) : ∃ ty', c.typeOf (via i) = .ok ty' ∧ ty'.bare = ty.bare := by
  have same := bypasses.bare_table typed i
  rw [typed.typeOf_ok_iff.1 known] at same
  obtain ⟨ty', known', bare⟩ := Option.map_eq_some_iff.1 same
  exact ⟨ty', bypasses.typeOf types typed (typed.typeOf_ok_iff.2 known'), bare⟩

end Bypasses

end Buffer

end ShaderForge
