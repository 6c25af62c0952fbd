import ShaderForge.Proofs.Typing.Complete

/-!
Names passed on. Analysis copies the name of an atom onto the struct that its type carries,
unless the struct has one. The structs that receive a name are described by the types alone,
so they do not depend on the order in which atoms are typed.
-/

namespace ShaderForge

namespace Typing

variable {b : Buffer}

theorem Memo.hint?_eq_some_iff {i head : Index} {ty : Ty} {d : Decoration} :
    Memo.hint? b i ty = some (head, d) ↔
      b.decoration? i = some d ∧ ty.struct? = some head ∧ head ≠ i ∧ head ∉ b.decorations := by
  have unnamed : (b.decoration? head).isNone = true ↔ head ∉ b.decorations := by
    rw [Option.isNone_iff_eq_none, Buffer.decoration?, Std.ExtTreeMap.mem_iff_isSome_getElem?]
    cases b.decorations[head]? <;> simp
  unfold hint?
  cases b.decoration? i with
  | none => simp
  | some d' =>
    cases ty.struct? with
    | none => simp
    | some head' =>
      simp only [bind, Option.bind_some, Option.ite_none_right_eq_some, Option.some.injEq,
        Prod.mk.injEq]
      constructor
      · rintro ⟨⟨other, free⟩, rfl, rfl⟩
        exact ⟨rfl, rfl, other, unnamed.1 free⟩
      · rintro ⟨rfl, rfl, other, free⟩
        exact ⟨⟨other, unnamed.2 free⟩, rfl, rfl⟩

/-- The structs with a note are those that some typed atom passes its name on to. -/
def Noted (b : Buffer) (m : Memo) : Prop :=
  ∀ head, head ∈ m.hints ↔ ∃ n ty d, known m.types (.ref n) = some ty ∧
    Memo.hint? b (.ref n) ty = some (head, d)

theorem empty_noted (b : Buffer) : Noted b (Memo.empty b) := by
  intro head
  constructor
  · intro member
    exact (Std.ExtTreeMap.not_mem_empty member).elim
  · rintro ⟨n, ty, d, typed, _⟩
    simp only [known, Memo.empty, Array.getElem?_replicate] at typed
    split at typed <;> cases typed

theorem Noted.record {m : Memo} {n : Nat} {ty : Ty} (noted : Noted b m) (inside : n < m.types.size)
    (same : ∀ ty', known m.types (.ref n) = some ty' → ty' = ty) : Noted b (m.record b n ty) := by
  have typed : ∀ i, known (m.record b n ty).types i = if i = .ref n then some ty else known m.types i :=
    known_setIfInBounds inside
  have hints : ∀ head, head ∈ (m.record b n ty).hints ↔
      head ∈ m.hints ∨ ∃ d, Memo.hint? b (.ref n) ty = some (head, d) := by
    intro head
    unfold Memo.record
    cases passed : Memo.hint? b (.ref n) ty with
    | none => simp
    | some entry =>
      simp only [Std.ExtTreeMap.mem_insertIfNew, Index.compare_eq_eq, Option.some.injEq]
      constructor
      · rintro (rfl | old)
        · exact Or.inr ⟨entry.2, rfl⟩
        · exact Or.inl old
      · rintro (old | ⟨d, rfl⟩)
        · exact Or.inr old
        · exact Or.inl rfl
  intro head
  rw [hints]
  constructor
  · rintro (old | ⟨d, passed⟩)
    · obtain ⟨k, ty', d, found, passed⟩ := (noted head).1 old
      refine ⟨k, ty', d, ?_, passed⟩
      rw [typed]
      split
      · rename_i here
        cases here
        rw [same ty' found]
      · exact found
    · exact ⟨n, ty, d, by rw [typed, if_pos rfl], passed⟩
  · rintro ⟨k, ty', d, found, passed⟩
    rw [typed] at found
    split at found
    · rename_i here
      cases here
      cases found
      exact Or.inr ⟨d, passed⟩
    · exact Or.inl ((noted head).2 ⟨k, ty', d, found, passed⟩)

def Notes (b : Buffer) (oracle : Index → ExceptT Fault (StateM Memo) Ty) : Prop :=
  ∀ i m ty m', Confirmed b m → Noted b m → Succeeds (oracle i) m ty m' → Noted b m'

theorem answer_noted {oracle : Index → ExceptT Fault (StateM Memo) Ty} {α : Type}
    (sound : Sound b oracle) (notes : Notes b oracle) {x : Inquiry α} {m m' : Memo} {a : α}
    (start : Confirmed b m) (noted : Noted b m) (h : Succeeds (x.answer oracle) m a m') :
    Noted b m' := by
  induction x generalizing m with
  | done c =>
    obtain ⟨rfl, rfl⟩ := Succeeds.of_pure.1 h
    exact noted
  | fail e => exact (Succeeds.of_throw h).elim
  | ask i resume ih =>
    obtain ⟨ty, m₁, asked, h⟩ := Succeeds.bind_iff.1 h
    exact ih ty (sound i m ty m₁ start asked).1 (notes i m ty m₁ start noted asked) h

theorem typeOf_notes (b : Buffer) (fuel : Nat) : Notes b (typeOf b fuel) := by
  induction fuel with
  | zero =>
    intro i m ty m' start noted h
    cases i with
    | null =>
      obtain ⟨rfl, rfl⟩ := Succeeds.of_pure.1 h
      exact noted
    | ref n => exact (Succeeds.of_throw h).elim
  | succ fuel ih =>
    intro i m ty m' start noted h
    cases i with
    | null =>
      obtain ⟨rfl, rfl⟩ := Succeeds.of_pure.1 h
      exact noted
    | ref n =>
      obtain ⟨a, found, ⟨_, rfl⟩ | ⟨m₁, asked, rfl⟩⟩ := typeOf_succ_succeeds h
      · exact noted
      · have begun : Confirmed b (m.setActive n true) := start
        obtain ⟨confirmed, _, value⟩ := answer_sound (typeOf_sound b fuel) begun asked
        have noted₁ : Noted b m₁ := answer_noted (typeOf_sound b fuel) ih begun noted asked
        refine Noted.record (m := m₁.setActive n false) noted₁ ?_ ?_
        · change n < m₁.types.size
          rw [confirmed.1]
          exact (Array.getElem?_eq_some_iff.1 found).1
        · intro ty' known'
          obtain ⟨a', found', value'⟩ := confirmed.2 n ty' known'
          rw [found] at found'
          cases found'
          rw [value] at value'
          exact (Option.some.inj value').symm

theorem typesOf_noted {oracle : Index → ExceptT Fault (StateM Memo) Ty} (sound : Sound b oracle)
    (notes : Notes b oracle) {items : List (Index × Atom)} {m m' : Memo} {types : List Ty}
    (start : Confirmed b m) (noted : Noted b m)
    (h : Succeeds (items.mapM fun (i, _) => oracle i) m types m') : Noted b m' := by
  induction items generalizing m types with
  | nil =>
    obtain ⟨rfl, rfl⟩ := Succeeds.of_pure.1 h
    exact noted
  | cons item rest ih =>
    rw [List.mapM_cons] at h
    obtain ⟨ty, m₁, asked, h⟩ := Succeeds.bind_iff.1 h
    obtain ⟨later, m₂, others, h⟩ := Succeeds.bind_iff.1 h
    obtain ⟨rfl, rfl⟩ := Succeeds.of_pure.1 h
    exact ih (sound item.1 m ty m₁ start asked).1 (notes item.1 m ty m₁ start noted asked) others

/-- The structs that analysis names: those without a name that the type of a named atom carries. -/
theorem mem_hints_iff {types : List Ty} {hints : IndexMap Decoration}
    (h : analyze b = .ok (types, hints)) {head : Index} :
    head ∈ hints ↔ head ∉ b.decorations ∧ ∃ n ty, .ref n ∈ b.decorations ∧ types[n]? = some ty ∧
      ty.struct? = some head ∧ head ≠ .ref n := by
  obtain ⟨m, run, rfl, _, _, agree⟩ := analyze_known h
  have noted := typesOf_noted (typeOf_sound b (depth b)) (typeOf_notes b (depth b))
    (empty_confirmed b) (empty_noted b) run
  have typed : ∀ n, known m.types (.ref n) = types[n]? := by
    intro n
    rw [← agree, table, List.getElem?_toArray]
  rw [noted head]
  simp only [typed, Memo.hint?_eq_some_iff]
  constructor
  · rintro ⟨n, ty, d, found, named, carried, other, free⟩
    refine ⟨free, n, ty, ?_, found, carried, other⟩
    rw [Std.ExtTreeMap.mem_iff_isSome_getElem?]
    exact Option.isSome_iff_exists.2 ⟨d, named⟩
  · rintro ⟨free, n, ty, named, found, carried, other⟩
    rw [Std.ExtTreeMap.mem_iff_isSome_getElem?] at named
    obtain ⟨d, named⟩ := Option.isSome_iff_exists.1 named
    exact ⟨n, ty, d, found, named, carried, other, free⟩

/-! ### The order of names -/

/-- The names that the first atoms pass on, the first one for each struct. -/
def passed (b : Buffer) (types : List Ty) : Nat → IndexMap Decoration
  | 0 => ∅
  | n + 1 => ((types[n]?).bind (Memo.hint? b (.ref n))).elim (passed b types n) fun entry =>
      (passed b types n).insertIfNew entry.1 entry.2

theorem passed_congr {c : Buffer} (same : c.decorations = b.decorations) (types : List Ty) (n : Nat) :
    passed c types n = passed b types n := by
  have hints : Memo.hint? c = Memo.hint? b := by
    funext i ty
    unfold Memo.hint? Buffer.decoration?
    rw [same]
  induction n with
  | zero => rfl
  | succ n ih => rw [passed, passed, ih, hints]

/-- Analysis that has come to an atom: it knows the types before it, and the names they pass on. -/
structure UpTo (b : Buffer) (types : List Ty) (n : Nat) (m : Memo) : Prop where
  size : m.types.size = b.size
  before : ∀ k, known m.types (.ref k) = if k < n then types[k]? else none
  hints : m.hints = passed b types n

/-- Whoever asks about known atoms only leaves the memory alone. -/
theorem answer_settled {table : Index → Option Ty} {fuel n : Nat} {α : Type} {x : Inquiry α} {m m' : Memo} {a : α}
    (told : ∀ i, i < .ref n → ∃ ty, table i = some ty ∧ known m.types i = some ty)
    (within : x.Within table (· < .ref n)) (h : Succeeds (x.answer (typeOf b fuel)) m a m') : m' = m := by
  induction x with
  | done c => exact (Succeeds.of_pure.1 h).2.symm
  | fail e => exact (Succeeds.of_throw h).elim
  | ask i resume ih =>
    obtain ⟨ty, m₁, asked, later⟩ := Succeeds.bind_iff.1 h
    obtain ⟨ty', found, cached⟩ := told i within.1
    have still : ty' = ty ∧ m₁ = m := by
      cases i with
      | null =>
        have answered : Succeeds (pure .nil : ExceptT Fault (StateM Memo) Ty) m ty m₁ := by
          cases fuel <;> exact asked
        obtain ⟨rfl, rfl⟩ := Succeeds.of_pure.1 answered
        exact ⟨(Option.some.inj cached).symm, rfl⟩
      | ref k =>
        cases fuel with
        | zero => exact (Succeeds.of_throw asked).elim
        | succ fuel =>
          obtain ⟨a, present, _⟩ := typeOf_succ_succeeds asked
          have answered : Succeeds (typeOf b (fuel + 1) (.ref k)) m ty' m := typeOf_known present cached
          have same := answered.symm.trans asked
          simp only [Prod.mk.injEq, Except.ok.injEq] at same
          exact ⟨same.1, same.2.symm⟩
    obtain ⟨rfl, rfl⟩ := still
    exact ih ty' (within.2 ty' found) later

theorem UpTo.step {types : List Ty} (ruled : Ruled b (table types.toArray)) (backward : b.Backward)
    {n fuel : Nat} {ty : Ty} {m m' : Memo} (reached : UpTo b types n m) (given : types[n]? = some ty)
    (h : Succeeds (typeOf b (fuel + 1) (.ref n)) m ty m') : UpTo b types (n + 1) m' := by
  obtain ⟨a, present, ⟨cached, _⟩ | ⟨m₁, asked, rfl⟩⟩ := typeOf_succ_succeeds h
  · rw [reached.before, if_neg (Nat.lt_irrefl n)] at cached
    cases cached
  · have inside : n < types.length := (List.getElem?_eq_some_iff.1 given).1
    have told : ∀ i, i < .ref n → ∃ ty, table types.toArray i = some ty ∧
        known (m.setActive n true).types i = some ty := by
      intro i early
      cases i with
      | null => exact ⟨.nil, rfl, rfl⟩
      | ref k =>
        rw [Index.ref_lt_ref] at early
        have entry := List.getElem?_eq_getElem (l := types) (i := k) (by omega)
        refine ⟨types[k], by rw [table, List.getElem?_toArray, entry], ?_⟩
        exact (reached.before k).trans (by rw [if_pos early, entry])
    obtain rfl := answer_settled told (rule_within ruled backward present) asked
    refine ⟨Array.size_setIfInBounds.trans reached.size, fun k => ?_, ?_⟩
    · have sized : n < m.types.size := by
        rw [reached.size]
        exact (Array.getElem?_eq_some_iff.1 present).1
      refine (known_setIfInBounds sized (.ref k)).trans ?_
      by_cases last : k = n
      · subst last
        rw [if_pos rfl, if_pos (Nat.lt_succ_self k), given]
      · rw [if_neg fun same => last (Index.ref.inj same)]
        refine (reached.before k).trans ?_
        by_cases early : k < n
        · rw [if_pos early, if_pos (by omega)]
        · rw [if_neg early, if_neg (by omega)]
    · rw [passed, given, Option.bind_some, ← reached.hints]
      unfold Memo.record
      cases Memo.hint? b (.ref n) ty <;> rfl

theorem hints_of_analyze {types : List Ty} {hints : IndexMap Decoration} (backward : b.Backward)
    (h : analyze b = .ok (types, hints)) : hints = passed b types b.size := by
  obtain ⟨m, run, rfl, confirmed, _, agree⟩ := analyze_known h
  have ruled : Ruled b (table types.toArray) := by
    refine ⟨rfl, fun n ty found => ?_⟩
    rw [agree] at found ⊢
    exact confirmed.2 n ty found
  have start : UpTo b types 0 (Memo.empty b) := by
    refine ⟨by simp [Memo.empty], fun k => ?_, rfl⟩
    simp only [known, Memo.empty, Array.getElem?_replicate, Nat.not_lt_zero, ↓reduceIte]
    split <;> rfl
  have reached := Succeeds.mapM_inv (UpTo b types) start (fun k item ty m m' found given reached asked => ?_) run
  · rw [Buffer.indexed_length] at reached
    exact reached.hints
  · rw [Buffer.indexed_getElem?] at found
    obtain ⟨a, _, rfl⟩ := Option.map_eq_some_iff.1 found
    exact reached.step ruled backward given asked

end Typing

namespace Buffer

variable {b c : Buffer}

theorem mem_foldl_insertIfNew {names : List (Index × Decoration)} {t : IndexMap Decoration} {i : Index} :
    i ∈ names.foldl (fun t (i, d) => t.insertIfNew i d) t ↔ i ∈ t ∨ i ∈ names.map Prod.fst := by
  induction names generalizing t with
  | nil => simp
  | cons e rest ih =>
    rw [List.foldl_cons, ih, Std.ExtTreeMap.mem_insertIfNew, Index.compare_eq_eq, List.map_cons,
      List.mem_cons]
    constructor
    · rintro ((rfl | old) | later)
      · exact Or.inr (Or.inl rfl)
      · exact Or.inl old
      · exact Or.inr (Or.inr later)
    · rintro (old | rfl | later)
      · exact Or.inl (Or.inr old)
      · exact Or.inl (Or.inl rfl)
      · exact Or.inr later

theorem getElem?_foldl_insertIfNew {names : List (Index × Decoration)} {t : IndexMap Decoration}
    {i : Index} {d : Decoration} (named : t[i]? = some d) :
    (names.foldl (fun t (i, d) => t.insertIfNew i d) t)[i]? = some d := by
  induction names generalizing t with
  | nil => exact named
  | cons e rest ih =>
    rw [List.foldl_cons]
    apply ih
    have member : i ∈ t := Std.ExtTreeMap.mem_iff_isSome_getElem?.2 (by rw [named]; rfl)
    rw [Std.ExtTreeMap.getElem?_insertIfNew, if_neg, named]
    rintro ⟨same, free⟩
    rw [Index.compare_eq_eq.1 same] at free
    exact free member

/-- The names after analysis: those before, and those passed on. -/
theorem mem_withAnalysis (types : List Ty) {hints : IndexMap Decoration} {i : Index} :
    i ∈ (b.withAnalysis types hints).decorations ↔ i ∈ b.decorations ∨ i ∈ hints := by
  have keys : i ∈ hints.toList.map Prod.fst ↔ i ∈ hints := by
    rw [Std.ExtTreeMap.map_fst_toList_eq_keys, Std.ExtTreeMap.mem_keys]
  rw [← keys]
  exact mem_foldl_insertIfNew

/-- A struct that receives a name is there, so a valid buffer stays valid. -/
theorem validate_withAnalysis {types : List Ty} {hints : IndexMap Decoration}
    (valid : b.validate = .ok ()) (found : Typing.analyze b = .ok (types, hints)) :
    (b.withAnalysis types hints).validate = .ok () := by
  obtain ⟨addresses, notes⟩ := validate_ok_iff.1 valid
  have typed : (b.withAnalysis types hints).Typed := typed_of_analyze found rfl rfl
  have backward : (b.withAnalysis types hints).Backward := (backward_of_validate valid).of_atoms_eq rfl
  have everything : (b.withAnalysis types hints).UseClosed fun _ => True :=
    fun _ _ _ _ _ _ => trivial
  refine validate_ok_iff.2 ⟨addresses, fun i noted => ?_⟩
  rcases noted with captured | named
  · exact notes i (Or.inl captured)
  · rcases (mem_withAnalysis types).1 named with old | passed
    · exact notes i (Or.inr old)
    · obtain ⟨_, n, ty, _, known, carried, _⟩ := (Typing.mem_hints_iff found).1 passed
      have answered : (b.withAnalysis types hints).table (.ref n) = some ty := by
        simpa [withAnalysis] using known
      obtain ⟨k, rfl, below, _⟩ := typed.struct_head backward everything n trivial answered carried
      have inside : n < b.size := by
        rw [← (Typing.analyze_sound found).1]
        exact (List.getElem?_eq_some_iff.1 known).1
      exact exists_atom (b := b) (Nat.lt_trans below inside)

theorem Typed.struct_of_node (typed : b.Typed) {n : Nat} {item : Prim} {down next : Index}
    (found : b.atoms[n]? = some (.type item down next)) :
    ∃ ty, b.table (.ref n) = some ty ∧ (ty.struct? = if down.isNull then none else some down) := by
  have inside : n < b.types.size := by
    rw [typed.complete]
    exact (Array.getElem?_eq_some_iff.1 found).1
  refine ⟨b.types[n], Array.getElem?_eq_getElem inside, ?_⟩
  have ruled := typed.confirmed n _ found
  rw [Array.getElem?_eq_getElem inside] at ruled
  obtain ⟨d, shape, ⟨absent, rfl⟩ | ⟨present, rfl, _⟩⟩ := Typing.typeNode_value ruled
  · rw [if_pos absent]
    rcases shape with same | same <;> rw [same] <;> rfl
  · rw [if_neg (by simp [present])]
    rcases shape with same | same <;> rw [same] <;> rfl

def NamesSettled (b : Buffer) : Prop :=
  ∀ n ty head, .ref n ∈ b.decorations → b.table (.ref n) = some ty → ty.struct? = some head →
    head ∈ b.decorations

theorem namesSettled_iff_all : b.NamesSettled ↔ b.decorations.keys.all (fun i =>
    ((b.table i).bind Ty.struct?).all fun head => b.decorations.contains head) = true := by
  simp only [List.all_eq_true, Std.ExtTreeMap.mem_keys, Option.all_eq_true,
    Option.bind_eq_some_iff, Std.ExtTreeMap.contains_iff_mem]
  constructor
  · rintro settled i named head ⟨ty, known, carried⟩
    cases i with
    | null => cases known; cases carried
    | ref n => exact settled n ty head named known carried
  · intro all n ty head named known carried
    exact all (.ref n) named head ⟨ty, known, carried⟩

instance (b : Buffer) : Decidable b.NamesSettled := decidable_of_iff' _ namesSettled_iff_all

/-- Analysis adds no name exactly when all names have been passed on. -/
theorem withAnalysis_names_iff (typed : c.Typed) (backward : c.Backward) (names : b.decorations = c.decorations)
    {hints : IndexMap Decoration} (found : Typing.analyze b = .ok (c.types.toList, hints)) :
    (b.withAnalysis c.types.toList hints).decorations = b.decorations ↔ c.NamesSettled := by
  constructor
  · intro same n ty head named known carried
    by_contra free
    rw [← names] at named free
    have everything : c.UseClosed fun _ => True := fun _ _ _ _ _ _ => trivial
    obtain ⟨k, rfl, below, _⟩ := typed.struct_head backward everything n trivial known carried
    have other : Index.ref k ≠ .ref n := fun clash => by
      cases clash
      omega
    have noted : Index.ref k ∈ hints :=
      (Typing.mem_hints_iff found).2 ⟨free, n, ty, named, by simpa using known, carried, other⟩
    have named' : Index.ref k ∈ (b.withAnalysis c.types.toList hints).decorations :=
      (mem_withAnalysis _).2 (Or.inr noted)
    rw [same] at named'
    exact free named'
  · intro settled
    have none : hints = ∅ := by
      rw [Std.ExtTreeMap.eq_empty_iff_forall_not_mem]
      intro head noted
      obtain ⟨free, n, ty, named, known, carried, _⟩ := (Typing.mem_hints_iff found).1 noted
      rw [names] at named free
      exact free (settled n ty head named (by simpa using known) carried)
    rw [none]
    rfl

end Buffer

theorem Function.valid_of_prepare {raw f : Function} (made : Succeeds prepare raw () f) :
    f.buffer.validate = .ok () := by
  by_cases nonempty : raw.buffer.size = 0
  · obtain ⟨valid, rfl⟩ := prepare_empty_succeeds nonempty made
    exact valid
  · obtain ⟨valid, types, hints, marked, args, returns, analyzed, _, _, _, rfl⟩ :=
      (prepare_succeeds nonempty).1 made
    exact Buffer.validate_congr (Buffer.validate_withAnalysis valid analyzed) rfl rfl rfl

end ShaderForge
