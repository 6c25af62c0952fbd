import ShaderForge.Proofs.Native.Rename
import ShaderForge.Proofs.Native.Transfer

/-!
Lowering along a fold. What an atom is lowered to goes over with the slots renamed.
-/

namespace ShaderForge.Native

open Buffer Linkage

/-- A function and its counterpart, with what else of their units lowering asks for. -/
structure Bridge (u u' : Linkage) (f g : Function) (fold : Index → Index) : Prop
    extends Counterpart u u' f g fold where
  callees : ∀ id callee, u.function? id = some callee → ∃ callee', u'.function? id = some callee' ∧
    (∀ l, argumentLayout u callee = .ok l → argumentLayout u' callee' = .ok l) ∧
    ∀ l, resultLayout u callee = .ok l → resultLayout u' callee' = .ok l
  symbols : ∀ symbol, (u'.functions.any fun f => u'.symbol? f.id == some symbol) =
    u.functions.any fun f => u.symbol? f.id == some symbol

/-- Two functions being lowered side by side. -/
structure Scopes (fold : Index → Index) (s s' : Scope) : Prop where
  bridge : Bridge s.unit s'.unit s.function s'.function fold
  slots : ∀ i, s'.slots[fold i]? = s.slots[i]?
  named : s.slots[Index.null]? = none

namespace Scope

/-- An address that an atom in sight may use, with its fold among the first `d`. -/
structure Used (s : Scope) (fold : Index → Index) (d : Nat) (i : Index) : Prop where
  shown : i = .null ∨ i ∈ visibleAtoms s.buffer
  early : (fold i).rank ≤ d

def Transfers (s : Scope) (fold : Index → Index) (d : Nat) (value value' : Index → Lowered Expr) :
    Prop :=
  ∀ i e, s.Used fold d i → value i = .ok e → value' (fold i) = .ok (e.rename fold)

end Scope

namespace Scopes

variable {fold : Index → Index} {s s' : Scope} {d : Nat} {i : Index}

theorem folds (scopes : Scopes fold s s') : Folds s.buffer s'.buffer fold := scopes.bridge.folds.folds

theorem backward (scopes : Scopes fold s s') : s.buffer.Backward := scopes.bridge.prepared.backward

theorem inside (scopes : Scopes fold s s') (shown : i ∈ visibleAtoms s.buffer) :
    ∃ n, i = .ref n ∧ n < s.buffer.size := by
  obtain ⟨a, found⟩ := scopes.bridge.present i shown
  cases i with
  | null => cases found
  | ref n => exact ⟨n, rfl, (Array.getElem?_eq_some_iff.1 found).1⟩

theorem kept (scopes : Scopes fold s s') (used : s.Used fold d i) : Kept fold i := by
  rcases used.shown with rfl | shown
  · exact scopes.folds.kept_null
  · exact scopes.bridge.folds.kept_of_visible shown

theorem atom (scopes : Scopes fold s s') {a : Atom} (kept : Kept fold i) (h : s.atom i = .ok a) :
    s'.atom (fold i) = .ok (a.mapAddresses fold) := by
  unfold Member.atom at h ⊢
  rw [TargetFault.ofFault_ok_iff, atom_ok_iff] at h ⊢
  cases i with
  | null => cases h
  | ref n => exact scopes.folds.atoms n a h kept

/-- What an atom in sight uses stands before it, also once folded. -/
theorem used (scopes : Scopes fold s s') {a : Atom} {o : Index} (shown : i ∈ visibleAtoms s.buffer)
    (early : (fold i).rank ≤ d + 1) (h : s.atom i = .ok a)
    (address : o = a.addresses.1 ∨ o = a.addresses.2 ∧ a.isBranch = false) : s.Used fold d o := by
  unfold Member.atom at h
  rw [TargetFault.ofFault_ok_iff, atom_ok_iff] at h
  cases i with
  | null => cases h
  | ref n =>
    cases o with
    | null =>
      refine ⟨Or.inl rfl, ?_⟩
      rw [scopes.folds.null]
      exact Nat.zero_le d
    | ref k =>
      have operand : Index.ref k ∈ a.operands := Atom.mem_operands.2 ⟨rfl, address⟩
      have kept : Kept fold (.ref n) := scopes.bridge.folds.kept_of_visible shown
      obtain ⟨m, place, image⟩ := scopes.folds.atom_at h kept
      have used' : fold (.ref k) ∈ (a.mapAddresses fold).operands := by
        rw [scopes.folds.operands h kept]
        exact List.mem_map_of_mem operand
      obtain ⟨j, place', below⟩ := scopes.folds.backward m _ image _ used'
      refine ⟨Or.inr (visibleAtoms_useClosed scopes.backward n a shown h _ operand), ?_⟩
      rw [place, Index.rank] at early
      rw [place', Index.rank]
      omega

theorem typeOf (scopes : Scopes fold s s') {ty : Ty} (used : s.Used fold d i) (h : s.typeOf i = .ok ty) :
    s.buffer.table i = some ty ∧ s'.typeOf (fold i) = .ok (ty.rename fold) := by
  unfold Member.typeOf at h ⊢
  rw [TargetFault.ofFault_ok_iff] at h ⊢
  exact scopes.bridge.typeOf used.shown h

theorem prim (scopes : Scopes fold s s') {p : Prim} (used : s.Used fold d i) (h : s.prim i = .ok p) :
    s'.prim (fold i) = .ok p := by
  unfold Scope.prim at h ⊢
  obtain ⟨ty, known, h⟩ := Except.bind_ok h
  rw [(scopes.typeOf used known).2, Except.ok_bind, Ty.prim?_rename]
  cases shape : ty.prim? with
  | none => rw [shape] at h; cases h
  | some q => rw [shape] at h; exact h

theorem linkedType (scopes : Scopes fold s s') {linked : LinkedTy} {scalars : List Prim}
    (used : s.Used fold d i) (h : s.linkedType i = .ok linked) (flat : scalarsOf s.unit linked = .ok scalars) :
    ∃ linked', s'.linkedType (fold i) = .ok linked' ∧ scalarsOf s'.unit linked' = .ok scalars ∧
      Kin linked linked' := by
  unfold Scope.linkedType Member.resolve at h ⊢
  obtain ⟨ty, known, h⟩ := Except.bind_ok h
  obtain ⟨found, known'⟩ := scopes.typeOf used known
  have carries : s.function.Carries ty := by
    rcases used.shown with rfl | shown
    · rw [table_null, Option.some.injEq] at found
      exact Or.inl (by rw [← found]; rfl)
    · exact Or.inr ⟨i, shown, ty, found, rfl⟩
  obtain ⟨linked', resolved, flat', kin⟩ :=
    scopes.bridge.resolve carries (TargetFault.ofLink_ok_iff.1 h) flat
  rw [known']
  exact ⟨linked', TargetFault.ofLink_ok_iff.2 resolved, flat', kin⟩

theorem scalars (scopes : Scopes fold s s') {scalars : List Prim} (used : s.Used fold d i)
    (h : s.scalars i = .ok scalars) : s'.scalars (fold i) = .ok scalars := by
  unfold Scope.scalars at h ⊢
  obtain ⟨linked, resolved, flat⟩ := Except.bind_ok h
  obtain ⟨linked', resolved', flat', _⟩ := scopes.linkedType used resolved flat
  rw [resolved']
  exact flat'

theorem fieldRange (scopes : Scopes fold s s') {field : Int32} {range : Nat × Nat} (used : s.Used fold d i)
    (h : s.fieldRange i field = .ok range) : s'.fieldRange (fold i) field = .ok range := by
  unfold Scope.fieldRange at h ⊢
  obtain ⟨ty, known, h⟩ := Except.bind_ok h
  obtain ⟨found, known'⟩ := scopes.typeOf used known
  rw [known', Except.ok_bind, Ty.bare_rename]
  split at h
  · rename_i head shape
    rw [shape]
    obtain ⟨n, index, h⟩ := Except.bind_ok h
    rcases used.shown with rfl | shown
    · rw [table_null, Option.some.injEq] at found
      rw [← found] at shape
      cases shape
    · have carried : ty.struct? = some head := by
        rw [← Ty.struct?_bare, shape]
        rfl
      obtain ⟨m, m', first, second, same, _⟩ := scopes.bridge.structs i ty head shown found carried
      unfold Member.aggregate at index
      rw [TargetFault.ofLink_ok_iff, first, Except.ok.injEq] at index
      subst index
      simp only [Ty.rename, Data.rename, Member.aggregate, TargetFault.ofLink_ok_iff.2 second,
        Except.ok_bind]
      exact same.range h
  · cases h

theorem items (scopes : Scopes fold s s') {items : List Index} (used : s.Used fold d i)
    (h : s.items i = .ok items) : s'.items (fold i) = .ok (items.map fold) := by
  unfold Member.items at h ⊢
  rw [TargetFault.ofFault_ok_iff] at h ⊢
  exact scopes.folds.expandList (scopes.kept used) h

theorem used_items (scopes : Scopes fold s s') {items : List Index} (used : s.Used fold d i)
    (h : s.items i = .ok items) : ∀ item ∈ items, s.Used fold d item := by
  unfold Member.items at h
  rw [TargetFault.ofFault_ok_iff, expandList_ok_iff] at h
  have cell : ∀ {n : Nat} {item next o : Index}, s.Used fold d (.ref n) →
      s.buffer.atoms[n]? = some (.list item next) → o = item ∨ o = next → s.Used fold d o := by
    intro n item next o used found position
    rcases used.shown with absent | shown
    · cases absent
    · refine scopes.used shown (Nat.le_succ_of_le used.early)
        (TargetFault.ofFault_ok_iff.2 (atom_ok_iff.2 found)) ?_
      rcases position with rfl | rfl
      · exact Or.inl rfl
      · exact Or.inr ⟨rfl, rfl⟩
  induction h with
  | nil => intro item member; cases member
  | last found =>
    intro item member
    rw [List.mem_singleton] at member
    subst member
    exact cell used found (Or.inl rfl)
  | cons found below tail ih =>
    intro item member
    rcases List.mem_cons.1 member with rfl | later
    · exact cell used found (Or.inl rfl)
    · exact ih (cell used found (Or.inr rfl)) item later

theorem isPlaceholder (scopes : Scopes fold s s') (used : s.Used fold d i) (mode : Mode) :
    s'.isPlaceholder (fold i) mode = s.isPlaceholder i mode := by
  unfold Member.isPlaceholder
  congr 1
  rcases used.shown with rfl | shown
  · rw [scopes.folds.null]
    rfl
  · obtain ⟨n, rfl, inside⟩ := scopes.inside shown
    obtain ⟨a, found⟩ := exists_atom inside
    have image := scopes.folds.atoms n a found (scopes.bridge.folds.kept_of_visible shown)
    rw [image, get?_ref, found]
    cases a <;> rfl

theorem matched (scopes : Scopes fold s s') (d : Nat) : s.Matches s' fold (s.Used fold d) where
  isNull := scopes.kept
  isNil used h := ⟨_, (scopes.typeOf used h).2, Ty.isNil_rename ..⟩
  prim := scopes.prim
  kindred used _ _ := scopes.linkedType used
  fieldRange := scopes.fieldRange
  items used h := ⟨scopes.items used h, scopes.used_items used h⟩
  literal {i v} used found := by
    cases i with
    | null => cases found
    | ref n => exact scopes.folds.atoms n _ found (scopes.kept used)
  callees := scopes.bridge.callees
  symbols := scopes.bridge.symbols

end Scopes

theorem Expr.congruent_rename (u : Linkage) (fold : Index → Index) :
    Expr.Congruent u fun e e' => e' = e.rename fold where
  registers := by rintro _ _ rfl; exact Expr.registers_rename ..
  literal _ := rfl
  zeros _ := rfl
  pick := by rintro _ _ _ rfl; rfl
  join := by rintro _ _ _ _ rfl rfl; rfl
  unary := by rintro _ _ _ _ rfl; rfl
  binary := by rintro _ _ _ _ _ _ rfl rfl; rfl
  fold := by rintro _ _ _ _ rfl; rfl
  convert := by rintro _ _ _ _ rfl; rfl
  call := by rintro _ _ _ _ _ _ rfl; rfl

namespace Scopes

variable {fold : Index → Index} {s s' : Scope} {d : Nat} {i : Index} {e : Expr}
  {value value' : Index → Lowered Expr}

theorem expression (scopes : Scopes fold s s') (transfers : s.Transfers fold d value value')
    (shown : i ∈ visibleAtoms s.buffer) (early : (fold i).rank ≤ d + 1)
    (h : s.expression value i = .ok e) :
    s'.expression value' (fold i) = .ok (e.rename fold) := by
  obtain ⟨a, found, _⟩ := Except.bind_ok h
  have relates : Scope.Relates fold (s.Used fold d) (fun e e' => e' = e.rename fold) value value' :=
    fun i e used computed => ⟨_, transfers i e used computed, rfl⟩
  have first := scopes.used shown early found (Or.inl rfl)
  obtain ⟨_, lowered, rfl⟩ := (scopes.matched d).expression (Expr.congruent_rename _ fold) relates
    ((scopes.matched (d + 1)).kindred ⟨Or.inr shown, early⟩) first
    (fun other => scopes.used shown early found (Or.inr ⟨rfl, other⟩)) found
    (scopes.atom (scopes.bridge.folds.kept_of_visible shown) found)
    (by rintro ty args mode rfl; exact scopes.isPlaceholder first mode) h
  exact lowered

theorem valueAt (scopes : Scopes fold s s') (depth d : Nat) :
    s.Transfers fold d (s.valueAt depth) (s'.valueAt d) := by
  induction depth generalizing d with
  | zero => intro i e _ h; cases h
  | succ depth ih =>
    intro i e used h
    unfold Scope.valueAt at h
    rcases used.shown with rfl | shown
    · rw [scopes.named] at h
      obtain ⟨a, found, _⟩ := Except.bind_ok h
      cases found
    · obtain ⟨n, rfl, inside⟩ := scopes.inside shown
      obtain ⟨a, present⟩ := exists_atom inside
      obtain ⟨k, place, image⟩ := scopes.folds.atom_at present (scopes.kept used)
      have early := used.early
      rw [place, Index.rank] at early
      obtain ⟨d, rfl⟩ : ∃ m, d = m + 1 := ⟨d - 1, by omega⟩
      unfold Scope.valueAt
      have slot := scopes.slots (.ref n)
      cases known : s.slots[Index.ref n]? with
      | some scalars =>
        rw [known] at h slot
        rw [slot]
        cases h
        rfl
      | none =>
        rw [known] at h slot
        rw [slot]
        exact scopes.expression (ih d) shown used.early h

end Scopes

/-! ### Values and places -/

namespace Scopes

variable {fold : Index → Index} {s s' : Scope} {d : Nat} {i : Index} {e : Expr}

theorem rank_le (scopes : Scopes fold s s') (shown : i ∈ visibleAtoms s.buffer) :
    (fold i).rank ≤ s'.buffer.size := by
  obtain ⟨n, rfl, inside⟩ := scopes.inside shown
  obtain ⟨a, present⟩ := exists_atom inside
  obtain ⟨k, place, image⟩ := scopes.folds.atom_at present (scopes.bridge.folds.kept_of_visible shown)
  rw [place]
  exact (Array.getElem?_eq_some_iff.1 image).1

theorem value (scopes : Scopes fold s s') (used : s.Used fold (s'.buffer.size + 1) i)
    (h : s.value i = .ok e) : s'.value (fold i) = .ok (e.rename fold) :=
  scopes.valueAt _ _ i e used h

theorem fresh (scopes : Scopes fold s s') (shown : i ∈ visibleAtoms s.buffer) (h : s.fresh i = .ok e) :
    s'.fresh (fold i) = .ok (e.rename fold) :=
  scopes.expression (scopes.valueAt _ _) shown (Nat.le_succ_of_le (scopes.rank_le shown)) h

def placed (fold : Index → Index) (p : Scope.Place) : Scope.Place := { p with owner := fold p.owner }

theorem placeAt (scopes : Scopes fold s s') (depth d : Nat) {p : Scope.Place}
    (used : s.Used fold d i) (h : s.placeAt depth i = .ok p) :
    s'.placeAt d (fold i) = .ok (placed fold p) ∧ (s.slots[p.owner]?).isSome := by
  obtain ⟨placed, _, held⟩ := Scope.placeAt_transfers s' fold (Shown s.function)
    (fun j field range shown covers => (scopes.matched (fold j).rank).fieldRange ⟨shown, Nat.le_refl _⟩ covers)
    (fun j ts _ known => (scopes.slots j).trans known)
    (fun j a shown found => by
      obtain ⟨n, rfl, there⟩ := atom_found found
      have kept := scopes.kept ⟨shown, Nat.le_refl _⟩
      obtain ⟨k, place, image⟩ := scopes.folds.atom_at there kept
      have used : ∀ o, o = a.addresses.1 → s.Used fold k o := fun o address =>
        scopes.used shown.visible (by rw [place]; exact Nat.le_refl _) found (Or.inl address)
      refine ⟨scopes.atom kept found, ?_, fun o beneath => ?_⟩
      · rintro ty args mode rfl
        exact scopes.isPlaceholder (used ty rfl) mode
      · have address : o = a.addresses.1 := beneath?_address beneath
        rw [place]
        exact ⟨(used o address).shown, Nat.lt_succ_of_le (used o address).early⟩)
    used.shown used.early h
  exact ⟨placed, by rw [held]; rfl⟩

end Scopes

end ShaderForge.Native
