import ShaderForge.Proofs.Linkage.Visible

/-!
Registration of structs. The map of a function sends chain heads and struct-typed atoms to
aggregates; `Faithful` says what each entry stands for, and registering a struct keeps it.
-/

namespace ShaderForge.Aggregates

open Buffer

/-- The declared field names that an aggregate keeps: none when their number is wrong. -/
def keptNames (f : Function) (head : Index) (count : Nat) : List String :=
  let names := ((f.buffer.decoration? head).map Decoration.fields).getD []
  if names.isEmpty || names.length == count then names else []

def keyOf (f : Function) (head : Index) (types : List LinkedData) : AggregateKey :=
  { types
    names := keptNames f head types.length
    phantom := ((f.buffer.decoration? head).map Decoration.phantom).getD false }

def fieldType? (f : Function) (map : TypeMap) (node : Index) : Option LinkedData :=
  match (f.buffer.table node).bind Ty.data? with
  | some (.prim p) => some (.prim p)
  | some (.struct head) => map[head]?.map .aggregate
  | none => none

/-- What an entry of the map stands for. A struct-typed atom has the aggregate of the struct
it carries, also where it heads a chain of its own; any other head has one of its own fields. -/
def Settled (f : Function) (s : Scope) (i : Index) (n : Nat) : Prop :=
  (∃ ty head, f.buffer.table i = some ty ∧ ty.struct? = some head ∧ s.map[head]? = some n) ∨
  ((∀ ty, f.buffer.table i = some ty → ty.struct? = none) ∧
    ∃ nodes types a, f.buffer.fieldChain i = .ok nodes ∧
      nodes.mapM (fieldType? f s.map) = some types ∧
      s.entries[n]? = some a ∧ a.key = keyOf f i types)

/-- Every entry of the map stands for what it should, and names an aggregate. -/
structure Faithful (f : Function) (s : Scope) : Prop where
  settled : ∀ (i : Index) (n : Nat), s.map[i]? = some n → Settled f s i n
  bounded : ∀ (i : Index) (n : Nat), s.map[i]? = some n → n < s.entries.size

def Layered (entries : Array Aggregate) : Prop :=
  ∀ (n : Nat) (a : Aggregate), entries[n]? = some a → ∀ m, .aggregate m ∈ a.key.types → m < n

def Extends (s t : Scope) : Prop :=
  (∀ (n : Nat) (a : Aggregate), s.entries[n]? = some a → t.entries[n]? = some a) ∧
    ∀ (i : Index) (n : Nat), s.map[i]? = some n → t.map[i]? = some n

theorem Extends.refl (s : Scope) : Extends s s := ⟨fun _ _ h => h, fun _ _ h => h⟩

theorem Extends.trans {s t v : Scope} (first : Extends s t) (second : Extends t v) : Extends s v :=
  ⟨fun n a h => second.1 n a (first.1 n a h), fun i n h => second.2 i n (first.2 i n h)⟩

theorem Extends.size_le {s t : Scope} (grown : Extends s t) : s.entries.size ≤ t.entries.size := by
  apply Nat.le_of_not_lt
  intro shorter
  have last : s.entries[t.entries.size]? = some s.entries[t.entries.size] :=
    Array.getElem?_eq_getElem shorter
  have := (Array.getElem?_eq_some_iff.1 (grown.1 _ _ last)).1
  omega

theorem getElem?_insert_self {map : TypeMap} {i : Index} {n : Nat} :
    (map.insert i n)[i]? = some n := by
  simp

theorem getElem?_insert_of_ne {map : TypeMap} {i j : Index} {n : Nat} (other : i ≠ j) :
    (map.insert i n)[j]? = map[j]? := by
  simp [Std.ExtTreeMap.getElem?_insert, other]

theorem getElem?_insert_cases {map : TypeMap} {i j : Index} {n m : Nat}
    (found : (map.insert i n)[j]? = some m) : (i = j ∧ n = m) ∨ map[j]? = some m := by
  by_cases same : i = j
  · subst same
    rw [getElem?_insert_self] at found
    exact Or.inl ⟨rfl, Option.some.inj found⟩
  · rw [getElem?_insert_of_ne same] at found
    exact Or.inr found

theorem insert_keeps {map : TypeMap} {i : Index} {n : Nat}
    (agrees : ∀ (m : Nat), map[i]? = some m → n = m) (j : Index) (m : Nat)
    (found : map[j]? = some m) : (map.insert i n)[j]? = some m := by
  by_cases same : i = j
  · subst same
    rw [getElem?_insert_self, agrees m found]
  · rw [getElem?_insert_of_ne same, found]

theorem fieldType?_mono {f : Function} {map wider : TypeMap}
    (grown : ∀ (i : Index) (n : Nat), map[i]? = some n → wider[i]? = some n) {node : Index}
    {ty : LinkedData} (h : fieldType? f map node = some ty) : fieldType? f wider node = some ty := by
  unfold fieldType? at h ⊢
  split at h
  · exact h
  · obtain ⟨n, found, rfl⟩ := Option.map_eq_some_iff.1 h
    simp [grown _ n found]
  · cases h

theorem mapM_some_mono {α β : Type} {g g' : α → Option β} {items : List α} {results : List β}
    (grown : ∀ x y, g x = some y → g' x = some y) (h : items.mapM g = some results) :
    items.mapM g' = some results := by
  induction items generalizing results with
  | nil => exact h
  | cons x rest ih =>
    rw [List.mapM_cons] at h ⊢
    obtain ⟨y, first, h⟩ := Option.bind_eq_some_iff.1 h
    obtain ⟨ys, later, h⟩ := Option.bind_eq_some_iff.1 h
    cases h
    simp [grown x y first, ih later]

theorem mapM_some_getElem? {α β : Type} {g : α → Option β} {items : List α} {results : List β}
    (h : items.mapM g = some results) :
    results.length = items.length ∧
      ∀ (k : Nat) (x : α), items[k]? = some x → ∃ y, results[k]? = some y ∧ g x = some y := by
  induction items generalizing results with
  | nil =>
    cases h
    simp
  | cons first rest ih =>
    rw [List.mapM_cons] at h
    obtain ⟨y, found, h⟩ := Option.bind_eq_some_iff.1 h
    obtain ⟨others, later, h⟩ := Option.bind_eq_some_iff.1 h
    cases h
    obtain ⟨length, each⟩ := ih later
    refine ⟨by simp [length], ?_⟩
    intro k x at_k
    cases k with
    | zero =>
      cases at_k
      exact ⟨y, rfl, found⟩
    | succ k => exact each k x at_k

theorem mem_of_mapM_some {α β : Type} {g : α → Option β} {items : List α} {results : List β}
    (h : items.mapM g = some results) {y : β} (member : y ∈ results) : ∃ x ∈ items, g x = some y := by
  obtain ⟨length, each⟩ := mapM_some_getElem? h
  obtain ⟨k, inside, rfl⟩ := List.getElem_of_mem member
  rw [length] at inside
  obtain ⟨y, at_k, found⟩ := each k _ (List.getElem?_eq_getElem inside)
  rw [(List.getElem?_eq_some_iff.1 at_k).2]
  exact ⟨items[k], List.getElem_mem inside, found⟩

theorem Settled.mono {f : Function} {s t : Scope} {i : Index} {n : Nat} (grown : Extends s t)
    (h : Settled f s i n) : Settled f t i n := by
  rcases h with ⟨ty, head, found, carried, known⟩ | ⟨plain, nodes, types, a, chain, fields, entry, key⟩
  · exact Or.inl ⟨ty, head, found, carried, grown.2 head n known⟩
  · exact Or.inr ⟨plain, nodes, types, a, chain,
      mapM_some_mono (fun _ _ => fieldType?_mono grown.2) fields, grown.1 n a entry, key⟩

theorem Faithful.of_entries {f : Function} {s t : Scope} (faithful : Faithful f s)
    (grown : Extends s t) (same : t.map = s.map) : Faithful f t := by
  constructor
  · intro i n found
    rw [same] at found
    exact (faithful.settled i n found).mono grown
  · intro i n found
    rw [same] at found
    exact Nat.lt_of_lt_of_le (faithful.bounded i n found) grown.size_le

/-! ### What the parts of registration do -/

theorem fieldNames_succeeds {f : Function} {head : Index} {count : Nat} {s t : Scope}
    {names : List String} (h : Succeeds (fieldNames f head count) s names t) :
    names = keptNames f head count ∧ t.entries = s.entries ∧ t.map = s.map := by
  unfold fieldNames at h
  unfold keptNames
  simp only at h ⊢
  split at h
  · rename_i fits
    obtain ⟨rfl, rfl⟩ := Succeeds.of_pure.1 h
    rw [if_pos fits]
    exact ⟨rfl, rfl, rfl⟩
  · rename_i wrong
    obtain ⟨_, _, noted, h⟩ := Succeeds.bind_iff.1 h
    obtain rfl := Succeeds.of_modify.1 noted
    obtain ⟨rfl, rfl⟩ := Succeeds.of_pure.1 h
    rw [if_neg wrong]
    exact ⟨rfl, rfl, rfl⟩

theorem intern_succeeds {f : Function} {head : Index} {key : AggregateKey} {s t : Scope} {n : Nat}
    (h : Succeeds (intern f head key) s n t) :
    Extends s t ∧ t.map = s.map ∧ (∃ a, t.entries[n]? = some a ∧ a.key = key) ∧
      (Layered s.entries → (∀ m, .aggregate m ∈ key.types → m < s.entries.size) →
        Layered t.entries) := by
  unfold intern at h
  obtain ⟨_, _, read, h⟩ := Succeeds.bind_iff.1 h
  obtain ⟨rfl, rfl⟩ := Succeeds.of_get.1 read
  split at h
  · rename_i found
    obtain ⟨rfl, rfl⟩ := Succeeds.of_pure.1 h
    obtain ⟨inside, same, _⟩ := Array.findIdx?_eq_some_iff_getElem.1 found
    exact ⟨.refl _, rfl, ⟨_, Array.getElem?_eq_getElem inside, by simpa using same⟩, fun l _ => l⟩
  · obtain ⟨_, _, added, h⟩ := Succeeds.bind_iff.1 h
    obtain rfl := Succeeds.of_set.1 added
    obtain ⟨rfl, rfl⟩ := Succeeds.of_pure.1 h
    refine ⟨⟨?_, fun _ _ h => h⟩, rfl, ⟨_, Array.getElem?_push_size, rfl⟩, ?_⟩
    · intro n a found
      have inside := (Array.getElem?_eq_some_iff.1 found).1
      simpa [Array.getElem?_push, Nat.ne_of_lt inside] using found
    · intro layered small n a found m inside
      rw [Array.getElem?_push] at found
      split at found
      · rename_i last
        cases found
        rw [last]
        exact small m inside
      · exact layered n a found m inside

def fieldEntry (f : Function) (fuel : Nat) (head node : Index) : Registering LinkedData := do
  let ty ← ExceptT.mk (pure (f.buffer.typeOf node))
  match ty.data? with
  | some (.prim p) => return LinkedData.prim p
  | some (.struct nested) => return LinkedData.aggregate (← register f fuel nested)
  | none => throw (f.buffer.fault (.fieldNotData node head))

/-- A struct is known already, or its fields are registered and its key is looked up. -/
theorem register_succ_succeeds {f : Function} {fuel : Nat} {head : Index} {s t : Scope} {n : Nat}
    (h : Succeeds (register f (fuel + 1) head) s n t) :
    (s.map[head]? = some n ∧ t = s) ∨
    (s.map[head]? = none ∧ ∃ nodes types s₁ s₂ s₃,
      f.buffer.fieldChain head = .ok nodes ∧
      Succeeds (nodes.mapM (fieldEntry f fuel head)) s types s₁ ∧
      s₂.entries = s₁.entries ∧ s₂.map = s₁.map ∧
      Succeeds (intern f head (keyOf f head types)) s₂ n s₃ ∧
      t = { s₃ with map := s₃.map.insert head n }) := by
  rw [register] at h
  obtain ⟨_, _, read, h⟩ := Succeeds.bind_iff.1 h
  obtain ⟨rfl, rfl⟩ := Succeeds.of_get.1 read
  split at h
  · rename_i known
    obtain ⟨rfl, rfl⟩ := Succeeds.of_pure.1 h
    exact Or.inl ⟨known, rfl⟩
  · rename_i unknown
    obtain ⟨nodes, _, asked, h⟩ := Succeeds.bind_iff.1 h
    obtain ⟨chain, rfl⟩ := Succeeds.of_answer.1 asked
    obtain ⟨types, s₁, fields, h⟩ := Succeeds.bind_iff.1 h
    obtain ⟨names, s₂, named, h⟩ := Succeeds.bind_iff.1 h
    obtain ⟨rfl, entries, map⟩ := fieldNames_succeeds named
    obtain ⟨n', s₃, interned, h⟩ := Succeeds.bind_iff.1 h
    obtain ⟨_, _, stored, h⟩ := Succeeds.bind_iff.1 h
    obtain rfl := Succeeds.of_modify.1 stored
    obtain ⟨rfl, rfl⟩ := Succeeds.of_pure.1 h
    exact Or.inr ⟨unknown, nodes, types, s₁, s₂, s₃, chain, fields, entries, map, interned, rfl⟩

/-- Struct-typed atoms before `bound` have been entered. -/
def Covered (f : Function) (P : Index → Prop) (bound : Nat) (s : Scope) : Prop :=
  ∀ (k : Nat) (ty : Ty) (head : Index), k < bound → P (.ref k) → f.buffer.table (.ref k) = some ty →
    ty.struct? = some head → ∃ n, s.map[Index.ref k]? = some n

theorem Covered.mono {f : Function} {P : Index → Prop} {bound : Nat} {s t : Scope}
    (grown : Extends s t) (covered : Covered f P bound s) : Covered f P bound t := by
  intro k ty head below reached found carried
  obtain ⟨n, known⟩ := covered k ty head below reached found carried
  exact ⟨n, grown.2 _ n known⟩

/-- A scope whose entries stand for what they should. -/
structure Good (f : Function) (P : Index → Prop) (bound : Nat) (s : Scope) : Prop where
  covered : Covered f P bound s
  faithful : Faithful f s
  layered : Layered s.entries

/-- Steps that keep a scope good, add entries only, and none from `limit` on. -/
structure Advances (f : Function) (P : Index → Prop) (bound limit : Nat) (s t : Scope) : Prop where
  good : Good f P bound t
  grown : Extends s t
  frame : ∀ m, limit ≤ m → t.map[Index.ref m]? = s.map[Index.ref m]?

theorem Advances.refl {f : Function} {P : Index → Prop} {bound : Nat} {s : Scope} (limit : Nat)
    (good : Good f P bound s) : Advances f P bound limit s s :=
  ⟨good, .refl s, fun _ _ => rfl⟩

theorem Advances.trans {f : Function} {P : Index → Prop} {bound limit : Nat} {s t v : Scope}
    (first : Advances f P bound limit s t) (second : Advances f P bound limit t v) :
    Advances f P bound limit s v :=
  ⟨second.good, first.grown.trans second.grown,
    fun m above => (second.frame m above).trans (first.frame m above)⟩

theorem Advances.widen {f : Function} {P : Index → Prop} {bound limit wide : Nat} {s t : Scope}
    (step : Advances f P bound limit s t) (le : limit ≤ wide) : Advances f P bound wide s t :=
  ⟨step.good, step.grown, fun m above => step.frame m (Nat.le_trans le above)⟩

def RegisterSound (f : Function) (P : Index → Prop) (fuel : Nat) : Prop :=
  ∀ (bound k n : Nat) (s t : Scope), k < bound → P (.ref k) → Good f P bound s →
    Succeeds (register f fuel (.ref k)) s n t →
    Advances f P bound (k + 1) s t ∧ t.map[Index.ref k]? = some n

section

variable {f : Function} {P : Index → Prop}

theorem fieldEntry_succeeds {fuel bound m : Nat} {head : Index} {ty : LinkedData} {s t : Scope}
    (typed : f.buffer.Typed) (backward : f.buffer.Backward) (closed : f.buffer.UseClosed P)
    (sound : RegisterSound f P fuel) (below : m < bound) (reached : P (.ref m))
    (good : Good f P bound s) (h : Succeeds (fieldEntry f fuel head (.ref m)) s ty t) :
    Advances f P bound m s t ∧ fieldType? f t.map (.ref m) = some ty := by
  unfold fieldEntry at h
  obtain ⟨nodeTy, _, asked, h⟩ := Succeeds.bind_iff.1 h
  obtain ⟨answered, rfl⟩ := Succeeds.of_answer.1 asked
  have found := typed.typeOf_ok_iff.1 answered
  split at h
  · rename_i p plain
    obtain ⟨rfl, rfl⟩ := Succeeds.of_pure.1 h
    exact ⟨.refl m good, by simp [fieldType?, found, plain]⟩
  · rename_i nested plain
    obtain ⟨n, _, registered, h⟩ := Succeeds.bind_iff.1 h
    obtain ⟨rfl, rfl⟩ := Succeeds.of_pure.1 h
    have carried : nodeTy.struct? = some nested := Ty.struct?_of_data? plain
    obtain ⟨k, rfl, early, inside, _⟩ := typed.struct_head backward closed m reached found carried
    obtain ⟨step, entered⟩ := sound bound k n _ _ (by omega) inside good registered
    exact ⟨step.widen early, by simp [fieldType?, found, plain, entered]⟩
  · exact (Succeeds.of_throw h).elim

theorem fieldEntries_succeed {fuel bound limit : Nat} {head : Index} {nodes : List Index}
    {types : List LinkedData} {s t : Scope} (typed : f.buffer.Typed)
    (backward : f.buffer.Backward) (closed : f.buffer.UseClosed P) (sound : RegisterSound f P fuel)
    (inside : ∀ node ∈ nodes, ∃ m, node = .ref m ∧ m ≤ limit ∧ m < bound ∧ P node)
    (good : Good f P bound s) (h : Succeeds (nodes.mapM (fieldEntry f fuel head)) s types t) :
    Advances f P bound limit s t ∧ nodes.mapM (fieldType? f t.map) = some types := by
  induction nodes generalizing s types with
  | nil =>
    obtain ⟨rfl, rfl⟩ := Succeeds.of_pure.1 h
    exact ⟨.refl limit good, rfl⟩
  | cons node rest ih =>
    rw [List.mapM_cons] at h
    obtain ⟨ty, s₁, first, h⟩ := Succeeds.bind_iff.1 h
    obtain ⟨others, s₂, later, h⟩ := Succeeds.bind_iff.1 h
    obtain ⟨rfl, rfl⟩ := Succeeds.of_pure.1 h
    obtain ⟨m, rfl, low, below, reached⟩ := inside node List.mem_cons_self
    obtain ⟨step, entry⟩ :=
      fieldEntry_succeeds typed backward closed sound below reached good first
    obtain ⟨steps, entries⟩ :=
      ih (fun x member => inside x (List.mem_cons_of_mem _ member)) step.good later
    refine ⟨(step.widen low).trans steps, ?_⟩
    rw [List.mapM_cons, fieldType?_mono steps.grown.2 entry, entries]
    rfl

theorem fieldTypes_bounded {s : Scope} (faithful : Faithful f s) {nodes : List Index}
    {types : List LinkedData} (fields : nodes.mapM (fieldType? f s.map) = some types) {m : Nat}
    (member : .aggregate m ∈ types) : m < s.entries.size := by
  obtain ⟨node, _, same⟩ := mem_of_mapM_some fields member
  unfold fieldType? at same
  split at same
  · cases same
  · obtain ⟨n, known, eq⟩ := Option.map_eq_some_iff.1 same
    cases eq
    exact faithful.bounded _ _ known
  · cases same

theorem register_sound (typed : f.buffer.Typed) (backward : f.buffer.Backward)
    (closed : f.buffer.UseClosed P) (fuel : Nat) : RegisterSound f P fuel := by
  induction fuel with
  | zero =>
    intro bound k n s t _ _ _ h
    exact (Succeeds.of_throw h).elim
  | succ fuel ih =>
    intro bound k n s t below reached good h
    rcases register_succ_succeeds h with ⟨known, rfl⟩ |
      ⟨unknown, nodes, types, s₁, s₂, s₃, chain, fields, entries, map, interned, rfl⟩
    · exact ⟨.refl _ good, known⟩
    -- a head that is struct-typed itself has been entered before
    · have plain : ∀ ty, f.buffer.table (.ref k) = some ty → ty.struct? = none := by
        intro ty found
        cases carried : ty.struct? with
        | none => rfl
        | some inner =>
          obtain ⟨m, known⟩ := good.covered k ty inner below reached found carried
          rw [unknown] at known
          cases known
      have inside : ∀ node ∈ nodes, ∃ m, node = .ref m ∧ m ≤ k ∧ m < bound ∧ P node := by
        intro node member
        obtain ⟨m, _, _, _, rfl, _, order⟩ := (fieldChain_ok_iff.1 chain).1.mem_link node member
        rw [Index.ref_le_ref] at order
        exact ⟨m, rfl, order, by omega, closed.fields chain reached _ member⟩
      obtain ⟨step, known⟩ := fieldEntries_succeed typed backward closed ih inside good fields
      obtain ⟨grown, sameMap, ⟨a, entry, key⟩, layered⟩ := intern_succeeds interned
      have fresh : s₂.map[Index.ref k]? = none := by
        rw [map, step.frame k (Nat.le_refl k), unknown]
      have widened : Extends s₂ { s₃ with map := s₃.map.insert (.ref k) n } := by
        refine ⟨grown.1, ?_⟩
        rw [sameMap]
        exact insert_keeps (by simp [fresh])
      have added : Extends s₁ { s₃ with map := s₃.map.insert (.ref k) n } := by
        refine Extends.trans ⟨?_, ?_⟩ widened
        · rw [entries]; exact fun _ _ h => h
        · rw [map]; exact fun _ _ h => h
      have own : Settled f { s₃ with map := s₃.map.insert (.ref k) n } (.ref k) n :=
        Or.inr ⟨plain, nodes, types, a, chain,
          mapM_some_mono (fun _ _ => fieldType?_mono added.2) known, entry, key⟩
      have faithful := step.good.faithful
      refine ⟨⟨⟨step.good.covered.mono added, ⟨?_, ?_⟩, ?_⟩, step.grown.trans added, ?_⟩, ?_⟩
      · intro i m found
        rcases getElem?_insert_cases found with ⟨rfl, rfl⟩ | old
        · exact own
        · rw [sameMap, map] at old
          exact (faithful.settled i m old).mono added
      · intro i m found
        rcases getElem?_insert_cases found with ⟨rfl, rfl⟩ | old
        · exact (Array.getElem?_eq_some_iff.1 entry).1
        · rw [sameMap, map] at old
          exact Nat.lt_of_lt_of_le (faithful.bounded i m old) added.size_le
      · apply layered
        · rw [entries]; exact step.good.layered
        · intro m member
          rw [entries]
          exact fieldTypes_bounded faithful known member
      · intro m above
        have other : Index.ref k ≠ .ref m := by
          intro same
          cases same
          omega
        rw [getElem?_insert_of_ne other, sameMap, map]
        exact step.frame m (by omega)
      · exact getElem?_insert_self

end

end ShaderForge.Aggregates
