import ShaderForge.Proofs.Typing.Fold

/-!
Types under a renumbering. A type names addresses: the head of a struct, and the next field of a
field. Both are reached from the atom through operands, so a fold that keeps an atom keeps what its
type names.
-/

namespace ShaderForge

/-- The next field that the type of a field names, also behind the direction of an argument. -/
def Ty.link? : Ty → Option Index
  | .field _ next => some next
  | .inArg t | .outArg t | .inOutArg t => t.link?
  | _ => none

@[simp] theorem Ty.link?_bare (t : Ty) : t.bare.link? = none := by
  induction t with
  | inArg t ih | outArg t ih | inOutArg t ih => exact ih
  | _ => rfl

@[simp] theorem Ty.link?_target_bare (t : Ty) : (Typing.target t.bare).link? = none := by
  have none := t.link?_bare
  cases shape : t.bare with
  | reference => rfl
  | _ => rwa [shape] at none

theorem Ty.link?_fieldValue {t : Ty} {next : Index} (h : (Typing.fieldValue t).link? = some next) :
    t.link? = some next := by
  cases t with
  | field => cases h
  | _ => exact h

theorem Ty.link?_plain {t : Ty} (h : t.plain = true) : t.link? = none := by
  cases t <;> first | rfl | cases h

namespace Overload

theorem select_mem {target : String} {candidates : List Signature} {args : List Ty} {ty : Ty}
    (h : select target candidates args = .ok ty) : ∃ s ∈ candidates, ty = s.result := by
  unfold select at h
  split at h
  · rename_i s found
    cases h
    exact ⟨s, List.mem_of_find?_eq_some found, rfl⟩
  · cases h

theorem operator_plain {code : Operator} {args : List Ty} {ty : Ty} (h : operator code args = .ok ty) :
    ty.plain = true := by
  obtain ⟨s, member, rfl⟩ := select_mem h
  exact (ofOperator_plain code s member).2

theorem intrinsic_plain {code : Intrinsic} {args : List Ty} {ty : Ty} (h : intrinsic code args = .ok ty) :
    ty.plain = true := by
  unfold intrinsic at h
  split at h
  · unfold resource at h
    simp only at h
    split at h
    · cases h
    · obtain ⟨s, member, rfl⟩ := select_mem h
      exact (ofResource_plain code _ s member).2
  · obtain ⟨s, member, rfl⟩ := select_mem h
    exact (ofIntrinsic_plain code s member).2

end Overload

namespace Typing

open Inquiry

variable {b : Buffer} {types : Index → Option Ty} {ty : Ty} {i next : Index}

theorem qualifier_link? {underlying : Index} {kind : Qualifier} {number : Int32}
    (h : (qualifier b i underlying kind number).value? types = some ty) (linked : ty.link? = some next) :
    ∃ inner, types underlying = some inner ∧ inner.link? = some next := by
  unfold qualifier at h
  split at h
  · cases h; cases linked
  · cases h; cases linked
  · cases h; cases linked
  · rw [value?_bind, value?_typeOf] at h
    obtain ⟨inner, found, h⟩ := Option.bind_eq_some_iff.1 h
    refine ⟨inner, found, ?_⟩
    unfold refined at h
    split at h
    all_goals first
      | (cases h; exact linked)
      | (cases h; cases linked)
      | (rw [value?_bind] at h
         obtain ⟨d, _, h⟩ := Option.bind_eq_some_iff.1 h
         cases h
         cases linked)
      | (cases h; exact Ty.link?_fieldValue linked)

theorem swizzle_link? {code : Swizzle} {source : Ty} (h : (swizzle b i code source).value? types = some ty) :
    ty.link? = none := by
  unfold swizzle at h
  split at h
  · split at h
    · cases h; rfl
    · cases h
  · cases h

theorem element_link? {source : Ty} (h : (element b i source).value? types = some ty) :
    ty.link? = none := by
  unfold element at h
  split at h
  · cases h; rfl
  · cases h; rfl
  · cases h; rfl
  · split at h
    · cases h; rfl
    · split at h
      · cases h; rfl
      · cases h
  · cases h

/-- A link is that of a type node, or comes from the first operand. -/
theorem rule_link? {a : Atom} (h : (rule b i a).value? types = some ty) (linked : ty.link? = some next) :
    (∃ item down, a = .type item down next) ∨
      ∃ inner, types a.addresses.1 = some inner ∧ inner.link? = some next := by
  have unlinked : ty.link? ≠ none := by rw [linked]; nofun
  cases a with
  | type item down link =>
    obtain ⟨d, rfl | rfl, _⟩ := typeNode_value h
    · cases linked
    · cases linked
      exact Or.inl ⟨item, down, rfl⟩
  | qualifier underlying kind number => exact Or.inr (qualifier_link? h linked)
  | literal | list | store | branch | ret => cases h; cases linked
  | swizzle src code =>
    simp only [rule, value?_bind, value?_typeOf] at h
    obtain ⟨inner, _, h⟩ := Option.bind_eq_some_iff.1 h
    exact absurd (swizzle_link? h) unlinked
  | operation code x y =>
    simp only [rule, value?_bind, value?_ofExcept] at h
    obtain ⟨args, _, h⟩ := Option.bind_eq_some_iff.1 h
    rw [Except.toOption_eq_some_iff] at h
    exact absurd (Ty.link?_plain (Overload.operator_plain h)) unlinked
  | intrinsic code args =>
    simp only [rule, value?_bind, value?_ofExcept] at h
    obtain ⟨items, _, h⟩ := Option.bind_eq_some_iff.1 h
    obtain ⟨given, _, h⟩ := Option.bind_eq_some_iff.1 h
    rw [Except.toOption_eq_some_iff] at h
    exact absurd (Ty.link?_plain (Overload.intrinsic_plain h)) unlinked
  | construct node args mode =>
    cases mode with
    | transient =>
      simp only [rule, value?_bind, value?_typeOf] at h
      obtain ⟨inner, _, h⟩ := Option.bind_eq_some_iff.1 h
      cases h
      exact absurd inner.link?_bare unlinked
    | normal =>
      simp only [rule, value?_bind, value?_typeOf] at h
      obtain ⟨inner, known, h⟩ := Option.bind_eq_some_iff.1 h
      cases h
      exact Or.inr ⟨inner, known, Ty.link?_fieldValue linked⟩
  | call callee node args =>
    simp only [rule, value?_bind, value?_typeOf] at h
    obtain ⟨inner, _, h⟩ := Option.bind_eq_some_iff.1 h
    cases h
    exact absurd inner.link?_bare unlinked
  | load src field =>
    simp only [rule, value?_bind, value?_typeOf] at h
    obtain ⟨inner, _, h⟩ := Option.bind_eq_some_iff.1 h
    rcases load_value h with rfl | ⟨_, _, _, own, _, _, _, _, rfl⟩
    · exact absurd inner.link?_target_bare unlinked
    · exact absurd own.link?_bare unlinked
  | access src loc =>
    simp only [rule, value?_bind, value?_typeOf] at h
    obtain ⟨inner, _, h⟩ := Option.bind_eq_some_iff.1 h
    exact absurd (element_link? h) unlinked

end Typing

/-- The next field that the type of an atom names is within every set closed under use that holds
the atom. -/
theorem Buffer.Typed.link {b : Buffer} (typed : b.Typed) (backward : b.Backward) {P : Index → Prop}
    (closed : b.UseClosed P) (bottom : P .null) (n : Nat) {ty : Ty} {next : Index} (reached : P (.ref n))
    (known : b.table (.ref n) = some ty) (linked : ty.link? = some next) : P next := by
  induction n using Nat.strongRecOn generalizing ty with
  | ind n ih =>
    obtain ⟨a, found⟩ : ∃ a, b.atoms[n]? = some a := by
      have inside := (Array.getElem?_eq_some_iff.1 known).1
      rw [typed.complete] at inside
      exact exists_atom inside
    have used : ∀ o, o = a.addresses.1 ∨ o = a.addresses.2 ∧ a.isBranch = false → P o := by
      intro o position
      cases o with
      | null => exact bottom
      | ref k => exact closed n a reached found _ (Atom.mem_operands.2 ⟨rfl, position⟩)
    have ruled := (typed.confirmed n a found).trans known
    rcases Typing.rule_link? ruled linked with ⟨item, down, rfl⟩ | ⟨inner, answered, linked'⟩
    · exact used next (Or.inr ⟨rfl, rfl⟩)
    · have early := backward.address_lt found (Or.inl rfl)
      have first := used _ (Or.inl rfl)
      cases place : a.addresses.1 with
      | null =>
        rw [place] at answered
        cases answered
        cases linked'
      | ref m =>
        rw [place] at answered early first
        exact ih m (Index.ref_lt_ref.1 early) first answered linked'

/-! ### Renumbered types -/

namespace Renumbering

variable {m : Renumbering} {fold : Index → Index}

def data? (m : Renumbering) : Data → Option Data
  | .prim p => some (.prim p)
  | .struct head => (m.image? head).map .struct

/-- A type with the images of its addresses, if all of them have one. -/
def ty? (m : Renumbering) : Ty → Option Ty
  | .nil => some .nil
  | .data d => (m.data? d).map .data
  | .field d next => do return .field (← m.data? d) (← m.image? next)
  | .array d size => (m.data? d).map (.array · size)
  | .image texel dim => some (.image texel dim)
  | .sampler texel dim => some (.sampler texel dim)
  | .reference d id => (m.data? d).map (.reference · id)
  | .inArg t => (m.ty? t).map .inArg
  | .outArg t => (m.ty? t).map .outArg
  | .inOutArg t => (m.ty? t).map .inOutArg

theorem data?_eq {d : Data} (images : ∀ head, (Ty.data d).struct? = some head → m.image? head = some (fold head)) :
    m.data? d = some (d.rename fold) := by
  cases d with
  | prim p => rfl
  | struct head => simp [data?, images head rfl, Data.rename]

/-- Where the addresses of a type go where a fold sends them, the type is the folded one. -/
theorem ty?_eq {t : Ty} (images : ∀ i, t.struct? = some i ∨ t.link? = some i → m.image? i = some (fold i)) :
    m.ty? t = some (t.rename fold) := by
  induction t with
  | nil | image | sampler => rfl
  | data d => simp [ty?, data?_eq fun head carried => images head (Or.inl carried), Ty.rename]
  | field d next =>
    have head := data?_eq fun head carried => images head (Or.inl carried)
    simp [ty?, head, images next (Or.inr rfl), Ty.rename]
  | array d size =>
    have head := data?_eq fun head carried => images head (Or.inl ((Ty.struct?_array d size).trans carried))
    simp [ty?, head, Ty.rename]
  | reference d id =>
    have head := data?_eq fun head carried => images head (Or.inl ((Ty.struct?_reference d id).trans carried))
    simp [ty?, head, Ty.rename]
  | inArg t ih | outArg t ih | inOutArg t ih => simp [ty?, ih images, Ty.rename]

theorem ty?_bare {t t' : Ty} (h : m.ty? t = some t') : m.ty? t.bare = some t'.bare := by
  induction t generalizing t' with
  | inArg t ih | outArg t ih | inOutArg t ih =>
    obtain ⟨s, inner, rfl⟩ := Option.map_eq_some_iff.1 h
    have bare : m.ty? t.bare = some s.bare := ih inner
    exact bare
  | field d next =>
    obtain ⟨d', head, h⟩ := Option.bind_eq_some_iff.1 h
    obtain ⟨next', _, h⟩ := Option.bind_eq_some_iff.1 h
    cases h
    exact Option.map_eq_some_iff.2 ⟨d', head, rfl⟩
  | data d | array d | reference d =>
    obtain ⟨d', _, rfl⟩ := Option.map_eq_some_iff.1 h
    exact h
  | nil | image | sampler => cases h; rfl

end Renumbering

end ShaderForge
