import ShaderForge.Proofs.Buffer.Addresses
import ShaderForge.Function

/-!
Type tables. The typing rules are questions about other atoms; a table answers them all
at once. `Buffer.Typed` says that the remembered types answer every rule with themselves,
and analysis leaves only such buffers behind.
-/

namespace ShaderForge

namespace Inquiry

variable {α β : Type}

def value? (table : Index → Option Ty) : Inquiry α → Option α
  | done a => some a
  | fail _ => none
  | ask i resume => (table i).bind fun ty => (resume ty).value? table

@[simp] theorem value?_pure (table : Index → Option Ty) (a : α) :
    (pure a : Inquiry α).value? table = some a := rfl

@[simp] theorem value?_bind (table : Index → Option Ty) (x : Inquiry α) (f : α → Inquiry β) :
    (x >>= f).value? table = (x.value? table).bind fun a => (f a).value? table := by
  induction x with
  | done a => rfl
  | fail e => rfl
  | ask i resume ih =>
    change ((table i).bind fun ty => ((resume ty) >>= f).value? table) = _
    rw [value?]
    cases table i with
    | none => rfl
    | some ty => exact ih ty

@[simp] theorem value?_typeOf (table : Index → Option Ty) (i : Index) :
    (typeOf i).value? table = table i := by
  cases h : table i <;> simp [typeOf, value?, h]

@[simp] theorem value?_ofExcept (table : Index → Option Ty) (e : Except Fault α) :
    (ofExcept e).value? table = e.toOption := by
  cases e <;> rfl

@[simp] theorem value?_typesOf (table : Index → Option Ty) (items : List Index) :
    (typesOf items).value? table = items.mapM table := by
  induction items with
  | nil => rfl
  | cons i rest ih =>
    simp only [typesOf, value?_bind, value?_typeOf, ih, value?_pure, List.mapM_cons]
    rfl

theorem value?_mono {table wider : Index → Option Ty}
    (extends_ : ∀ i ty, table i = some ty → wider i = some ty) {x : Inquiry α} {a : α}
    (h : x.value? table = some a) : x.value? wider = some a := by
  induction x with
  | done b => exact h
  | fail e => cases h
  | ask i resume ih =>
    obtain ⟨ty, found, h⟩ := Option.bind_eq_some_iff.1 h
    simp only [value?, extends_ i ty found, Option.bind_some]
    exact ih ty h

/-- Inquiries with the same results in every table; they may fail for other reasons. -/
def Same (x y : Inquiry α) : Prop := ∀ table, x.value? table = y.value? table

theorem Same.refl (x : Inquiry α) : Same x x := fun _ => rfl

theorem Same.bind {x y : Inquiry α} {f g : α → Inquiry β} (first : Same x y)
    (later : ∀ a, Same (f a) (g a)) : Same (x >>= f) (y >>= g) := by
  intro table
  rw [value?_bind, value?_bind, first table]
  exact congrArg _ (funext fun a => later a table)

theorem Same.ofExcept {x y : Except Fault α} (same : x.toOption = y.toOption) :
    Same (ofExcept x) (ofExcept y) := by
  intro table
  rw [value?_ofExcept, value?_ofExcept, same]

end Inquiry

namespace Typing

/-! ### The rules depend on the atoms alone -/

section congr

variable {b c : Buffer}

open Inquiry (Same)

theorem same_refuse {α : Type} (d : Defect) : Same (refuse b d : Inquiry α) (refuse c d) :=
  fun _ => rfl

theorem same_base (site : Index) (ty : Ty) : Same (base b site ty) (base c site ty) := by
  unfold base
  split
  · exact .refl _
  · exact same_refuse _

theorem same_typeNode (same : b.atoms = c.atoms) (i : Index) (item : Prim) (down next : Index) :
    Same (typeNode b i item down next) (typeNode c i item down next) := by
  unfold typeNode
  apply Same.bind
  · split
    · exact .refl _
    · split
      · exact .bind (.ofExcept (Buffer.fieldChain_congr same down)) fun _ => .refl _
      · exact same_refuse _
  · intro base
    split
    · exact .refl _
    · refine .bind (.ofExcept (Buffer.atom_congr same next)) fun found => ?_
      split
      · exact .refl _
      · exact same_refuse _

theorem same_qualifier (i underlying : Index) (kind : Qualifier) (number : Int32) :
    Same (qualifier b i underlying kind number) (qualifier c i underlying kind number) := by
  unfold qualifier
  split
  · exact .refl _
  · exact .refl _
  · exact .refl _
  · refine .bind (.refl _) fun ty => ?_
    unfold refined
    split
    all_goals first | exact .refl _ | exact .bind (same_base i ty) fun _ => .refl _

theorem same_swizzle (i : Index) (code : Swizzle) (ty : Ty) :
    Same (swizzle b i code ty) (swizzle c i code ty) := by
  unfold swizzle
  split
  · split
    · exact .refl _
    · exact same_refuse _
  · exact same_refuse _

theorem same_load (same : b.atoms = c.atoms) (i : Index) (field : Int32) (ty : Ty) :
    Same (load b i field ty) (load c i field ty) := by
  unfold load
  split
  · exact .refl _
  · split
    · refine .bind (.ofExcept (Buffer.fieldChain_congr same _)) fun fields => ?_
      split
      · exact .refl _
      · exact same_refuse _
    · exact same_refuse _

theorem same_element (i : Index) (ty : Ty) : Same (element b i ty) (element c i ty) := by
  unfold element
  split
  · exact .refl _
  · exact .refl _
  · exact .refl _
  · split
    · exact .refl _
    · split
      · exact .refl _
      · exact same_refuse _
  · exact same_refuse _

theorem rule_congr (same : b.atoms = c.atoms) (i : Index) (a : Atom) (types : Index → Option Ty) :
    (rule b i a).value? types = (rule c i a).value? types := by
  suffices Same (rule b i a) (rule c i a) from this types
  unfold rule
  split
  · exact same_typeNode same i _ _ _
  · exact same_qualifier i _ _ _
  · exact .refl _
  · exact .bind (.refl _) fun ty => same_swizzle i _ _
  · exact .refl _
  · exact .bind (.ofExcept (Buffer.expandList_congr same _)) fun _ => .refl _
  · exact .refl _
  · exact .refl _
  · exact .refl _
  · exact .bind (.refl _) fun ty => same_load same i _ _
  · exact .bind (.refl _) fun ty => same_element i _
  all_goals exact .refl _

end congr

/-- Partial knowledge of types as a table; the absent address has the nil type. -/
def known (types : Array (Option Ty)) : Index → Option Ty
  | .null => some .nil
  | .ref n => types[n]?.join

def Confirmed (b : Buffer) (m : Memo) : Prop :=
  m.types.size = b.size ∧
    ∀ n ty, known m.types (.ref n) = some ty →
      ∃ a, b.atoms[n]? = some a ∧ (rule b (.ref n) a).value? (known m.types) = some ty

def Grows (m m' : Memo) : Prop :=
  ∀ i ty, known m.types i = some ty → known m'.types i = some ty

theorem Grows.refl (m : Memo) : Grows m m := fun _ _ h => h

theorem Grows.trans {m₁ m₂ m₃ : Memo} (first : Grows m₁ m₂) (second : Grows m₂ m₃) : Grows m₁ m₃ :=
  fun i ty h => second i ty (first i ty h)

/-- Asking is sound when it grows confirmed knowledge by the answer it gives. -/
def Sound (b : Buffer) (oracle : Index → ExceptT Fault (StateM Memo) Ty) : Prop :=
  ∀ i m ty m', Confirmed b m → Succeeds (oracle i) m ty m' →
    Confirmed b m' ∧ Grows m m' ∧ known m'.types i = some ty

theorem answer_sound {b : Buffer} {oracle : Index → ExceptT Fault (StateM Memo) Ty} {α : Type}
    (sound : Sound b oracle) {x : Inquiry α} {m m' : Memo} {a : α} (start : Confirmed b m)
    (h : Succeeds (x.answer oracle) m a m') :
    Confirmed b m' ∧ Grows m m' ∧ x.value? (known m'.types) = some a := by
  induction x generalizing m with
  | done c =>
    obtain ⟨rfl, rfl⟩ := Succeeds.of_pure.1 h
    exact ⟨start, .refl _, rfl⟩
  | fail e => exact (Succeeds.of_throw h).elim
  | ask i resume ih =>
    obtain ⟨ty, m₁, asked, h⟩ := Succeeds.bind_iff.1 h
    obtain ⟨confirmed, grows, found⟩ := sound i m ty m₁ start asked
    obtain ⟨confirmed', grows', value⟩ := ih ty confirmed h
    refine ⟨confirmed', grows.trans grows', ?_⟩
    rw [Inquiry.value?, grows' i ty found, Option.bind_some]
    exact value

theorem known_setIfInBounds {types : Array (Option Ty)} {n : Nat} {ty : Ty} (inside : n < types.size)
    (i : Index) :
    known (types.setIfInBounds n (some ty)) i = if i = .ref n then some ty else known types i := by
  cases i with
  | null => rfl
  | ref k =>
    simp only [known, Array.getElem?_setIfInBounds, Index.ref.injEq]
    by_cases same : n = k
    · subst same
      simp [inside]
    · simp [same, Ne.symm same]

theorem typeOf_succ_succeeds {b : Buffer} {fuel n : Nat} {m m' : Memo} {ty : Ty}
    (h : Succeeds (typeOf b (fuel + 1) (.ref n)) m ty m') :
    ∃ a, b.atoms[n]? = some a ∧
      ((known m.types (.ref n) = some ty ∧ m' = m) ∨
        ∃ m₁, Succeeds ((rule b (.ref n) a).answer (typeOf b fuel)) (m.setActive n true) ty m₁ ∧
          m' = (m₁.setActive n false).record b n ty) := by
  rw [typeOf] at h
  obtain ⟨_, _, read, h⟩ := Succeeds.bind_iff.1 h
  obtain ⟨rfl, rfl⟩ := Succeeds.of_get.1 read
  split at h
  · exact (Succeeds.of_throw h).elim
  · rename_i a found
    refine ⟨a, found, ?_⟩
    split at h
    · rename_i cached
      obtain ⟨rfl, rfl⟩ := Succeeds.of_pure.1 h
      exact Or.inl ⟨by simp [known, cached], rfl⟩
    · right
      dsimp only at h
      split at h
      · obtain ⟨_, _, refused, _⟩ := Succeeds.bind_iff.1 h
        exact (Succeeds.of_throw refused).elim
      · obtain ⟨_, _, started, h⟩ := Succeeds.bind_iff.1 h
        obtain rfl := Succeeds.of_modify.1 started
        obtain ⟨answer, m₁, asked, h⟩ := Succeeds.bind_iff.1 h
        obtain ⟨_, _, ended, h⟩ := Succeeds.bind_iff.1 h
        obtain rfl := Succeeds.of_modify.1 ended
        cases answer with
        | error e => exact (Succeeds.of_throw h).elim
        | ok ty' =>
          obtain ⟨_, _, recorded, h⟩ := Succeeds.bind_iff.1 h
          obtain rfl := Succeeds.of_modify.1 recorded
          obtain ⟨rfl, rfl⟩ := Succeeds.of_pure.1 h
          exact ⟨m₁, Succeeds.of_lift_run.1 asked, rfl⟩

theorem typeOf_sound (b : Buffer) (fuel : Nat) : Sound b (typeOf b fuel) := by
  induction fuel with
  | zero =>
    intro i m ty m' start h
    cases i with
    | null =>
      obtain ⟨rfl, rfl⟩ := Succeeds.of_pure.1 h
      exact ⟨start, .refl _, rfl⟩
    | ref n => exact (Succeeds.of_throw h).elim
  | succ fuel ih =>
    intro i m ty m' start h
    cases i with
    | null =>
      obtain ⟨rfl, rfl⟩ := Succeeds.of_pure.1 h
      exact ⟨start, .refl _, rfl⟩
    | ref n =>
      obtain ⟨a, found, ⟨cached, rfl⟩ | ⟨m₁, asked, rfl⟩⟩ := typeOf_succ_succeeds h
      · exact ⟨start, .refl _, cached⟩
      · obtain ⟨confirmed, grows, value⟩ := answer_sound ih (m := m.setActive n true) start asked
        have inside : n < m₁.types.size := by
          rw [confirmed.1]
          exact (Array.getElem?_eq_some_iff.1 found).1
        have table : ∀ i, known ((m₁.setActive n false).record b n ty).types i =
            if i = .ref n then some ty else known m₁.types i := known_setIfInBounds inside
        -- an answer found earlier for `n` is the one its rule gives now
        have kept : Grows m₁ ((m₁.setActive n false).record b n ty) := by
          intro i ty' before
          rw [table]
          split
          · rename_i same
            subst same
            obtain ⟨a', found', value'⟩ := confirmed.2 n ty' before
            rw [found] at found'
            cases found'
            rw [value] at value'
            exact value'
          · exact before
        refine ⟨⟨?_, ?_⟩, Grows.trans grows kept, by rw [table]; simp⟩
        · change (m₁.types.setIfInBounds n (some ty)).size = b.size
          rw [Array.size_setIfInBounds, confirmed.1]
        · intro k ty' answered
          rw [table] at answered
          split at answered
          · rename_i same
            cases same
            cases answered
            exact ⟨a, found, Inquiry.value?_mono kept value⟩
          · obtain ⟨a', found', value'⟩ := confirmed.2 k ty' answered
            exact ⟨a', found', Inquiry.value?_mono kept value'⟩

/-! ### Analysis of a whole buffer -/

theorem typesOf_sound {b : Buffer} {oracle : Index → ExceptT Fault (StateM Memo) Ty}
    (sound : Sound b oracle) {items : List (Index × Atom)} {m m' : Memo} {types : List Ty}
    (start : Confirmed b m)
    (h : Succeeds (items.mapM fun (i, _) => oracle i) m types m') :
    Confirmed b m' ∧ Grows m m' ∧ items.map (fun (i, _) => known m'.types i) = types.map some := by
  induction items generalizing m types with
  | nil =>
    obtain ⟨rfl, rfl⟩ := Succeeds.of_pure.1 h
    exact ⟨start, .refl _, rfl⟩
  | cons item rest ih =>
    rw [List.mapM_cons] at h
    obtain ⟨ty, m₁, asked, h⟩ := Succeeds.bind_iff.1 h
    obtain ⟨later, m₂, others, h⟩ := Succeeds.bind_iff.1 h
    obtain ⟨rfl, rfl⟩ := Succeeds.of_pure.1 h
    obtain ⟨confirmed, grows, found⟩ := sound item.1 m ty m₁ start asked
    obtain ⟨confirmed', grows', same⟩ := ih confirmed others
    refine ⟨confirmed', grows.trans grows', ?_⟩
    rw [List.map_cons, List.map_cons, same]
    exact congrArg (· :: _) (grows' item.1 ty found)

theorem empty_confirmed (b : Buffer) : Confirmed b (Memo.empty b) := by
  refine ⟨by simp [Memo.empty], ?_⟩
  intro n ty found
  simp only [known, Memo.empty, Array.getElem?_replicate] at found
  split at found <;> simp at found

def table (types : Array Ty) : Index → Option Ty
  | .null => some .nil
  | .ref n => types[n]?

theorem analyze_known {b : Buffer} {types : List Ty} {hints : IndexMap Decoration}
    (h : analyze b = .ok (types, hints)) :
    ∃ m, Succeeds (b.indexed.mapM fun (i, _) => typeOf b (depth b) i) (Memo.empty b) types m ∧
      m.hints = hints ∧ Confirmed b m ∧ types.length = b.size ∧
      table types.toArray = known m.types := by
  unfold analyze at h
  simp only at h
  split at h
  case h_2 => cases h
  case h_1 found m run =>
    cases h
    obtain ⟨confirmed, _, same⟩ :=
      typesOf_sound (typeOf_sound b (depth b)) (empty_confirmed b) (run : Succeeds _ _ _ _)
    have length : types.length = b.size := by
      have := congrArg List.length same
      simpa using this.symm
    refine ⟨m, run, rfl, confirmed, length, ?_⟩
    funext i
    cases i with
    | null => rfl
    | ref n =>
      have entry := congrArg (·[n]?) same
      simp only [List.getElem?_map, Buffer.indexed_getElem?, Option.map_map] at entry
      simp only [table, List.getElem?_toArray]
      cases found : b.atoms[n]? with
      | some a =>
        simp only [found, Option.map_some, Function.comp_apply] at entry
        cases known' : types[n]? with
        | some ty => simp [known'] at entry; exact entry.symm
        | none => simp [known'] at entry
      | none =>
        have outside : b.size ≤ n := Array.getElem?_eq_none_iff.1 found
        rw [List.getElem?_eq_none (by omega), known,
          Array.getElem?_eq_none (by rw [confirmed.1]; exact outside)]
        rfl

theorem analyze_sound {b : Buffer} {types : List Ty} {hints : IndexMap Decoration}
    (h : analyze b = .ok (types, hints)) :
    types.length = b.size ∧ ∀ n a, b.atoms[n]? = some a →
      (rule b (.ref n) a).value? (table types.toArray) = types[n]? := by
  obtain ⟨m, _, _, confirmed, length, agree⟩ := analyze_known h
  refine ⟨length, ?_⟩
  intro n a found
  have inside : n < types.length := by
    rw [length]
    exact (Array.getElem?_eq_some_iff.1 found).1
  rw [agree, List.getElem?_eq_getElem inside]
  obtain ⟨a', found', value⟩ := confirmed.2 n types[n] (by
    rw [← agree]
    simp [table, inside])
  rw [found] at found'
  cases found'
  exact value

end Typing

namespace Buffer

variable {b c : Buffer}

def table (b : Buffer) : Index → Option Ty := Typing.table b.types

@[simp] theorem table_null (b : Buffer) : b.table .null = some .nil := rfl

@[simp] theorem table_ref (b : Buffer) (n : Nat) : b.table (.ref n) = b.types[n]? := rfl

/-- Every atom has the type that its rule gives. -/
structure Typed (b : Buffer) : Prop where
  complete : b.types.size = b.size
  confirmed : ∀ (n : Nat) (a : Atom), b.atoms[n]? = some a →
    (Typing.rule b (.ref n) a).value? b.table = b.types[n]?

def withAnalysis (b : Buffer) (types : List Ty) (hints : IndexMap Decoration) : Buffer :=
  { b with
    types := types.toArray
    decorations := hints.toList.foldl (fun t (i, d) => t.insertIfNew i d) b.decorations }

theorem analyze_succeeds :
    Succeeds analyze b () c ↔
      ∃ types hints, Typing.analyze b = .ok (types, hints) ∧ c = b.withAnalysis types hints := by
  unfold analyze
  constructor
  · intro h
    obtain ⟨_, _, read, h⟩ := Succeeds.bind_iff.1 h
    obtain ⟨rfl, rfl⟩ := Succeeds.of_get.1 read
    obtain ⟨⟨types, hints⟩, _, asked, h⟩ := Succeeds.bind_iff.1 h
    obtain ⟨found, rfl⟩ := Edit.query_succeeds.1 asked
    exact ⟨types, hints, found, (Succeeds.of_set.1 h).symm⟩
  · rintro ⟨types, hints, found, rfl⟩
    refine Succeeds.bind_iff.2 ⟨b, b, Succeeds.of_get.2 ⟨rfl, rfl⟩, ?_⟩
    refine Succeeds.bind_iff.2 ⟨(types, hints), b, Edit.query_succeeds.2 ⟨found, rfl⟩, ?_⟩
    exact Succeeds.of_set.2 rfl

theorem typed_of_analyze {types : List Ty} {hints : IndexMap Decoration}
    (found : Typing.analyze b = .ok (types, hints)) (atoms : c.atoms = b.atoms)
    (remembered : c.types = types.toArray) : c.Typed := by
  obtain ⟨length, confirmed⟩ := Typing.analyze_sound found
  refine ⟨?_, ?_⟩
  · rw [remembered, size, atoms]
    simpa [size] using length
  · intro n a present
    rw [atoms] at present
    rw [Typing.rule_congr atoms, table, remembered, confirmed n a present, List.getElem?_toArray]

theorem infer_unresolved {n : Nat} (outside : b.size ≤ n) (ty : Ty) :
    Typing.infer b (.ref n) ≠ .ok ty := by
  intro h
  have run : Succeeds (Typing.typeOf b (Typing.depth b) (.ref n)) (Typing.Memo.empty b) ty
      (outcome (Typing.typeOf b (Typing.depth b) (.ref n)) (Typing.Memo.empty b)).2 :=
    Prod.ext h rfl
  obtain ⟨a, found, _⟩ := Typing.typeOf_succ_succeeds run
  have := (Array.getElem?_eq_some_iff.1 found).1
  simp only [size] at outside
  omega

theorem Typed.isAnalyzed (typed : b.Typed) (nonempty : b.size ≠ 0) : b.isAnalyzed = true := by
  simp only [Buffer.isAnalyzed, isEmpty, typed.complete, size, beq_self_eq_true, Bool.and_true,
    Bool.not_eq_true', Array.isEmpty_eq_false_iff]
  intro empty
  simp [size, empty] at nonempty

theorem typeOf_null (b : Buffer) : b.typeOf .null = .ok .nil := by
  unfold typeOf
  simp only [cachedType?, Index.pos?, Option.bind_none, ite_self]
  rfl

theorem typeOf_analyzed (analyzed : b.isAnalyzed = true) {n : Nat} {ty : Ty}
    (known : b.types[n]? = some ty) : b.typeOf (.ref n) = .ok ty := by
  unfold typeOf
  simp only [analyzed, ↓reduceIte, cachedType?, Index.pos?, Option.bind_some, known]

theorem Typed.typeOf_ok_iff (typed : b.Typed) {i : Index} {ty : Ty} :
    b.typeOf i = .ok ty ↔ b.table i = some ty := by
  cases i with
  | null => simp [typeOf_null]
  | ref n =>
    rw [table_ref]
    by_cases inside : n < b.size
    · have analyzed := typed.isAnalyzed (by omega)
      have cached : n < b.types.size := by rw [typed.complete]; exact inside
      rw [typeOf_analyzed analyzed (Array.getElem?_eq_getElem cached), Array.getElem?_eq_getElem cached,
        Except.ok.injEq, Option.some.injEq]
    · have missing : b.types[n]? = none := by
        rw [Array.getElem?_eq_none_iff, typed.complete]
        omega
      have asked : b.typeOf (.ref n) = Typing.infer b (.ref n) := by
        unfold typeOf
        simp [cachedType?, Index.pos?, missing]
      rw [asked, missing]
      simp only [reduceCtorEq, iff_false]
      exact infer_unresolved (by omega) ty

end Buffer

namespace Function

theorem onBuffer_succeeds {α : Type} {e : Edit α} {f g : Function} {a : α} :
    Succeeds (onBuffer e) f a g ↔ ∃ c, Succeeds e f.buffer a c ∧ g = { f with buffer := c } := by
  have opened : outcome (onBuffer e) f =
      ((outcome e f.buffer).1, { f with buffer := (outcome e f.buffer).2 }) := rfl
  unfold Succeeds
  rw [opened]
  rcases outcome e f.buffer with ⟨answer, c⟩
  simp only [Prod.mk.injEq]
  constructor
  · rintro ⟨rfl, rfl⟩
    exact ⟨c, ⟨rfl, rfl⟩, rfl⟩
  · rintro ⟨c', ⟨rfl, rfl⟩, rfl⟩
    exact ⟨rfl, rfl⟩

/-- A function as it stands in a unit: addresses lead backwards, and once there are atoms
each has its type. -/
structure Prepared (f : Function) : Prop where
  backward : f.buffer.Backward
  typed : f.buffer.size ≠ 0 → f.buffer.Typed
  made : ∃ raw, Succeeds prepare raw () f

theorem mark_succeeds {b c : Buffer} (typed : b.Typed) (nonempty : b.size ≠ 0) :
    Succeeds Buffer.mark b () c ↔ ∃ marked, Liveness.mark b = .ok marked ∧ c = { b with marked } := by
  have analyzed := typed.isAnalyzed nonempty
  unfold Buffer.mark
  constructor
  · intro h
    obtain ⟨_, _, read, h⟩ := Succeeds.bind_iff.1 h
    obtain ⟨rfl, rfl⟩ := Succeeds.of_get.1 read
    simp only [analyzed, Bool.not_true, Bool.false_and, Bool.false_eq_true, ↓reduceIte] at h
    obtain ⟨marked, _, asked, h⟩ := Succeeds.bind_iff.1 h
    obtain ⟨found, rfl⟩ := Edit.query_succeeds.1 asked
    exact ⟨marked, found, (Succeeds.of_modify.1 h).symm⟩
  · rintro ⟨marked, found, rfl⟩
    refine Succeeds.bind_iff.2 ⟨b, b, Succeeds.of_get.2 ⟨rfl, rfl⟩, ?_⟩
    simp only [analyzed, Bool.not_true, Bool.false_and, Bool.false_eq_true, ↓reduceIte]
    refine Succeeds.bind_iff.2 ⟨marked, b, Edit.query_succeeds.2 ⟨found, rfl⟩, ?_⟩
    exact Succeeds.of_modify.2 rfl

theorem prepare_succeeds {f g : Function} (nonempty : f.buffer.size ≠ 0) :
    Succeeds prepare f () g ↔ f.buffer.validate = .ok () ∧
      ∃ types hints marked args returns, Typing.analyze f.buffer = .ok (types, hints) ∧
        Liveness.mark (f.buffer.withAnalysis types hints) = .ok marked ∧
        (let b := { f.buffer.withAnalysis types hints with marked }
        argumentTypes f.name b 0 (parametersOf b) = .ok args ∧
        returnType f.name b none b.indexed = .ok returns ∧
        g = { f with buffer := b, args, returns := returns.getD .nil }) := by
  have present : f.buffer.isEmpty = false := by
    simp only [Buffer.isEmpty, Array.isEmpty_eq_false_iff]
    intro empty
    simp [Buffer.size, empty] at nonempty
  unfold prepare
  constructor
  · intro h
    obtain ⟨_, _, checked, h⟩ := Succeeds.bind_iff.1 h
    obtain ⟨_, asked, rfl⟩ := onBuffer_succeeds.1 checked
    obtain ⟨valid, rfl⟩ := Edit.query_succeeds.1 asked
    obtain ⟨_, _, read, h⟩ := Succeeds.bind_iff.1 h
    obtain ⟨rfl, rfl⟩ := Succeeds.of_get.1 read
    simp only [present, Bool.false_eq_true, ↓reduceIte] at h
    obtain ⟨_, _, analyzed, h⟩ := Succeeds.bind_iff.1 h
    obtain ⟨_, asked, rfl⟩ := onBuffer_succeeds.1 analyzed
    obtain ⟨types, hints, found, rfl⟩ := Buffer.analyze_succeeds.1 asked
    obtain ⟨_, _, marking, h⟩ := Succeeds.bind_iff.1 h
    obtain ⟨_, asked, rfl⟩ := onBuffer_succeeds.1 marking
    have typed : (f.buffer.withAnalysis types hints).Typed := Buffer.typed_of_analyze found rfl rfl
    obtain ⟨marked, live, rfl⟩ := (mark_succeeds typed nonempty).1 asked
    obtain ⟨_, _, read, h⟩ := Succeeds.bind_iff.1 h
    obtain ⟨rfl, rfl⟩ := Succeeds.of_get.1 read
    obtain ⟨args, _, arguing, h⟩ := Succeeds.bind_iff.1 h
    obtain ⟨_, asked, rfl⟩ := onBuffer_succeeds.1 arguing
    obtain ⟨arguments, rfl⟩ := Edit.query_succeeds.1 asked
    obtain ⟨_, _, stored, h⟩ := Succeeds.bind_iff.1 h
    obtain rfl := Succeeds.of_modify.1 stored
    obtain ⟨returns, _, returning, h⟩ := Succeeds.bind_iff.1 h
    obtain ⟨_, asked, rfl⟩ := onBuffer_succeeds.1 returning
    obtain ⟨returned, rfl⟩ := Edit.query_succeeds.1 asked
    exact ⟨valid, types, hints, marked, args, returns, found, live, arguments, returned,
      (Succeeds.of_modify.1 h).symm⟩
  · rintro ⟨valid, types, hints, marked, args, returns, found, live, arguments, returned, rfl⟩
    have typed : (f.buffer.withAnalysis types hints).Typed := Buffer.typed_of_analyze found rfl rfl
    refine Succeeds.bind_iff.2 ⟨(), f,
      onBuffer_succeeds.2 ⟨_, Edit.query_succeeds.2 ⟨valid, rfl⟩, rfl⟩, ?_⟩
    refine Succeeds.bind_iff.2 ⟨f, f, Succeeds.of_get.2 ⟨rfl, rfl⟩, ?_⟩
    simp only [present, Bool.false_eq_true, ↓reduceIte]
    refine Succeeds.bind_iff.2 ⟨(), _,
      onBuffer_succeeds.2 ⟨_, Buffer.analyze_succeeds.2 ⟨types, hints, found, rfl⟩, rfl⟩, ?_⟩
    refine Succeeds.bind_iff.2 ⟨(), _,
      onBuffer_succeeds.2 ⟨_, (mark_succeeds typed nonempty).2 ⟨marked, live, rfl⟩, rfl⟩, ?_⟩
    refine Succeeds.bind_iff.2 ⟨_, _, Succeeds.of_get.2 ⟨rfl, rfl⟩, ?_⟩
    refine Succeeds.bind_iff.2 ⟨args, _,
      onBuffer_succeeds.2 ⟨_, Edit.query_succeeds.2 ⟨arguments, rfl⟩, rfl⟩, ?_⟩
    refine Succeeds.bind_iff.2 ⟨⟨⟩, _, Succeeds.of_modify.2 rfl, ?_⟩
    refine Succeeds.bind_iff.2 ⟨returns, _,
      onBuffer_succeeds.2 ⟨_, Edit.query_succeeds.2 ⟨returned, rfl⟩, rfl⟩, ?_⟩
    exact Succeeds.of_modify.2 rfl

theorem prepare_empty_succeeds {f g : Function} (empty : f.buffer.size = 0)
    (h : Succeeds prepare f () g) :
    f.buffer.validate = .ok () ∧ g = { f with returns := .nil, args := [] } := by
  have absent : f.buffer.isEmpty = true := by
    simpa [Buffer.isEmpty, Buffer.size, Array.isEmpty] using empty
  unfold prepare at h
  obtain ⟨_, _, checked, h⟩ := Succeeds.bind_iff.1 h
  obtain ⟨_, asked, rfl⟩ := onBuffer_succeeds.1 checked
  obtain ⟨valid, rfl⟩ := Edit.query_succeeds.1 asked
  obtain ⟨_, _, read, h⟩ := Succeeds.bind_iff.1 h
  obtain ⟨rfl, rfl⟩ := Succeeds.of_get.1 read
  simp only [absent, ↓reduceIte] at h
  exact ⟨valid, (Succeeds.of_modify.1 h).symm⟩

theorem prepare_of_empty {f : Function} (empty : f.buffer.size = 0) (valid : f.buffer.validate = .ok ()) :
    Succeeds prepare f () { f with returns := .nil, args := [] } := by
  have absent : f.buffer.isEmpty = true := by
    simpa [Buffer.isEmpty, Buffer.size, Array.isEmpty] using empty
  unfold prepare
  refine Succeeds.bind_iff.2 ⟨(), f,
    onBuffer_succeeds.2 ⟨_, Edit.query_succeeds.2 ⟨valid, rfl⟩, rfl⟩, ?_⟩
  refine Succeeds.bind_iff.2 ⟨f, f, Succeeds.of_get.2 ⟨rfl, rfl⟩, ?_⟩
  simp only [absent, ↓reduceIte]
  exact Succeeds.of_modify.2 rfl

theorem prepared_of_prepare {f g : Function} (h : Succeeds prepare f () g) :
    g.Prepared ∧ g.id = f.id ∧ g.name = f.name ∧ g.buffer.atoms = f.buffer.atoms := by
  by_cases nonempty : f.buffer.size = 0
  · obtain ⟨valid, rfl⟩ := prepare_empty_succeeds nonempty h
    exact ⟨⟨Buffer.backward_of_validate valid, fun present => (present nonempty).elim, f, h⟩,
      rfl, rfl, rfl⟩
  · obtain ⟨valid, types, hints, marked, args, returns, found, _, _, _, rfl⟩ :=
      (prepare_succeeds nonempty).1 h
    exact ⟨⟨(Buffer.backward_of_validate valid).of_atoms_eq rfl,
      fun _ => Buffer.typed_of_analyze found rfl rfl, f, h⟩, rfl, rfl, rfl⟩

theorem build_ok_iff {name : String} {id : FunctionId} {b : Buffer} {f : Function} :
    build name id b = .ok f ↔ Succeeds prepare { name, id, buffer := b } () f := by
  unfold Succeeds build
  rw [show prepare.apply { name, id, buffer := b } = outcome prepare _ from rfl]
  rcases outcome prepare { name, id, buffer := b } with ⟨answer, g⟩
  cases answer <;> simp

end Function

end ShaderForge
