import ShaderForge.Proofs.Linkage.Representation

/-!
Identity of aggregates. Written out, a struct is a tree of primitives, field names and phantom
flags; two registrations give one aggregate exactly when they have the same tree. The argument runs
through the table: an aggregate can be written out as well, and no two entries have one key.
-/

namespace ShaderForge.Aggregates

/-! ### Value types written out -/

/-- A value type with every struct in it written out. The structs' own names are left out. -/
inductive Shape where
  | prim (p : Prim)
  | struct (fields : List Shape) (names : List String) (phantom : Bool)

/-- What a value type is made of, one level deep. -/
inductive Layer (δ : Type) where
  | prim (p : Prim)
  | struct (fields : List δ) (names : List String) (phantom : Bool)

/-- A value type written out, given what each value type is made of. -/
inductive Unfolds {δ : Type} (layer : δ → Option (Layer δ)) : δ → Shape → Prop
  | prim {d : δ} {p : Prim} (plain : layer d = some (.prim p)) : Unfolds layer d (.prim p)
  | struct {d : δ} {types : List δ} {fields : List Shape} {names : List String} {phantom : Bool}
      (made : layer d = some (.struct types names phantom)) (count : types.length = fields.length)
      (each : ∀ (k : Nat) (field : δ) (shape : Shape), types[k]? = some field → fields[k]? = some shape →
        Unfolds layer field shape) :
      Unfolds layer d (.struct fields names phantom)

section

variable {δ : Type} {layer : δ → Option (Layer δ)}

theorem Unfolds.functional {d : δ} {shape other : Shape} (first : Unfolds layer d shape)
    (second : Unfolds layer d other) : shape = other := by
  induction first generalizing other with
  | prim plain =>
    cases second with
    | prim plain' =>
      rw [plain, Option.some.injEq, Layer.prim.injEq] at plain'
      rw [plain']
    | struct made => cases plain.symm.trans made
  | @struct d types fields names phantom made count each ih =>
    cases second with
    | prim plain => cases plain.symm.trans made
    | struct made' count' each' =>
      cases made.symm.trans made'
      congr 1
      refine List.ext_getElem (count.symm.trans count') fun k inside inside' => ?_
      have present : types[k]? = some types[k] := List.getElem?_eq_getElem (by omega)
      exact ih k _ _ present (List.getElem?_eq_getElem inside)
        (each' k _ _ present (List.getElem?_eq_getElem inside'))

/-- Where value types that are made of the same are the same, so are those that unfold to the same. -/
theorem Unfolds.injective (distinct : ∀ d e l, layer d = some l → layer e = some l → d = e) {d e : δ}
    {shape : Shape} (first : Unfolds layer d shape) (second : Unfolds layer e shape) : d = e := by
  induction first generalizing e with
  | prim plain =>
    cases second with
    | prim plain' => exact distinct _ _ _ plain plain'
  | @struct d types fields names phantom made count each ih =>
    cases second with
    | @struct _ types' _ _ _ made' count' each' =>
      have same : types = types' := by
        refine List.ext_getElem (count.trans count'.symm) fun k inside inside' => ?_
        have present : fields[k]? = some fields[k] := List.getElem?_eq_getElem (by omega)
        exact ih k _ _ (List.getElem?_eq_getElem inside) present
          (each' k _ _ (List.getElem?_eq_getElem inside') present)
      subst same
      exact distinct _ _ _ made made'

theorem Unfolds.mono {wider : δ → Option (Layer δ)} (grown : ∀ d l, layer d = some l → wider d = some l)
    {d : δ} {shape : Shape} (unfolds : Unfolds layer d shape) : Unfolds wider d shape := by
  induction unfolds with
  | prim plain => exact .prim (grown _ _ plain)
  | struct made count _ ih => exact .struct (grown _ _ made) count ih

end

def fieldData? (f : Function) (node : Index) : Option Data :=
  (f.buffer.typeOf node).toOption.bind Ty.data?

/-- What a value type of a function is made of: a struct of the value types along its chain, with its
field names unless their number is wrong. -/
def functionLayer (f : Function) : Data → Option (Layer Data)
  | .prim p => some (.prim p)
  | .struct head => do
    let nodes ← (f.buffer.fieldChain head).toOption
    let types ← nodes.mapM (fieldData? f)
    return .struct types (keptNames f head types.length)
      (((f.buffer.decoration? head).map Decoration.phantom).getD false)

def tableLayer (entries : Array Aggregate) : LinkedData → Option (Layer LinkedData)
  | .prim p => some (.prim p)
  | .aggregate n => entries[n]?.map fun a => .struct a.key.types a.key.names a.key.phantom

/-- Structs of two functions that are equal when written out. -/
def SameStruct (f : Function) (head : Index) (g : Function) (other : Index) : Prop :=
  ∃ shape, Unfolds (functionLayer f) (.struct head) shape ∧ Unfolds (functionLayer g) (.struct other) shape

/-! ### The table -/

/-- A value type of a function and one of the table, equal when written out. -/
def Matches (f : Function) (entries : Array Aggregate) (d : Data) (ty : LinkedData) : Prop :=
  ∃ shape, Unfolds (functionLayer f) d shape ∧ Unfolds (tableLayer entries) ty shape

/-- A table in which aggregates contain earlier ones and no two have one key. -/
structure Interned (entries : Array Aggregate) : Prop where
  layered : Layered entries
  distinct : ∀ (n m : Nat) (a b : Aggregate), entries[n]? = some a → entries[m]? = some b →
    a.key = b.key → n = m

/-- What registration has made of a function's structs: a table without doubles, and a map to what
each struct is. -/
structure Accurate (f : Function) (s : Scope) : Prop extends Interned s.entries where
  known : ∀ (head : Index) (n : Nat), s.map[head]? = some n → Matches f s.entries (.struct head) (.aggregate n)

def Widens (entries wider : Array Aggregate) : Prop :=
  ∀ (n : Nat) (a : Aggregate), entries[n]? = some a → wider[n]? = some a

theorem Widens.trans {entries wider widest : Array Aggregate} (first : Widens entries wider)
    (second : Widens wider widest) : Widens entries widest :=
  fun n a found => second n a (first n a found)

theorem tableLayer_mono {entries wider : Array Aggregate} (grown : Widens entries wider) (d : LinkedData)
    (l : Layer LinkedData) (made : tableLayer entries d = some l) : tableLayer wider d = some l := by
  cases d with
  | prim p => exact made
  | aggregate n =>
    obtain ⟨a, entry, rfl⟩ := Option.map_eq_some_iff.1 made
    exact Option.map_eq_some_iff.2 ⟨a, grown n a entry, rfl⟩

theorem Matches.mono {f : Function} {entries wider : Array Aggregate} (grown : Widens entries wider)
    {d : Data} {ty : LinkedData} : Matches f entries d ty → Matches f wider d ty
  | ⟨shape, own, listed⟩ => ⟨shape, own, listed.mono (tableLayer_mono grown)⟩

theorem Interned.tableLayer_injective {entries : Array Aggregate} (interned : Interned entries)
    (d e : LinkedData) (l : Layer LinkedData) (first : tableLayer entries d = some l)
    (second : tableLayer entries e = some l) : d = e := by
  cases d with
  | prim p =>
    cases first
    cases e with
    | prim q => cases second; rfl
    | aggregate m =>
      obtain ⟨_, _, made⟩ := Option.map_eq_some_iff.1 second
      cases made
  | aggregate n =>
    obtain ⟨a, entry, rfl⟩ := Option.map_eq_some_iff.1 first
    cases e with
    | prim q => cases second
    | aggregate m =>
      obtain ⟨b, entry', made⟩ := Option.map_eq_some_iff.1 second
      injection made with types names phantom
      have same : a.key = b.key := by
        cases ha : a.key
        cases hb : b.key
        simp_all
      rw [interned.distinct n m a b entry entry' same]

/-- Two structs have one aggregate exactly when they are equal when written out. -/
theorem Interned.same_iff {entries : Array Aggregate} (interned : Interned entries) {f g : Function}
    {head other : Index} {n m : Nat} (first : Matches f entries (.struct head) (.aggregate n))
    (second : Matches g entries (.struct other) (.aggregate m)) : n = m ↔ SameStruct f head g other := by
  obtain ⟨shape, own, listed⟩ := first
  obtain ⟨shape', own', listed'⟩ := second
  constructor
  · rintro rfl
    obtain rfl := listed.functional listed'
    exact ⟨shape, own, own'⟩
  · rintro ⟨common, left, right⟩
    obtain rfl := own.functional left
    obtain rfl := own'.functional right
    exact LinkedData.aggregate.inj (listed.injective interned.tableLayer_injective listed')

/-! ### Registration -/

/-- What any registration leaves: an accurate scope with all entries it had. -/
structure Keeps (f : Function) (s t : Scope) : Prop where
  accurate : Accurate f t
  grown : Widens s.entries t.entries

section

variable {f : Function} {s t : Scope}

theorem Keeps.refl (accurate : Accurate f s) : Keeps f s s := ⟨accurate, fun _ _ found => found⟩

theorem Keeps.trans {v : Scope} (first : Keeps f s t) (second : Keeps f t v) : Keeps f s v :=
  ⟨second.accurate, first.grown.trans second.grown⟩

theorem Accurate.of_eq (accurate : Accurate f s) (entries : t.entries = s.entries) (map : t.map = s.map) :
    Accurate f t := by
  obtain ⟨interned, known⟩ := accurate
  rw [← entries, ← map] at known
  exact ⟨entries ▸ interned, known⟩

theorem fieldNames_ends {head : Index} {count : Nat} {R : Scope → Prop} :
    Ends (fieldNames f head count) s
      (fun names t => names = keptNames f head count ∧ t.entries = s.entries ∧ t.map = s.map) R := by
  refine ⟨fun names t h => fieldNames_succeeds h, fun e t h => ?_⟩
  unfold fieldNames at h
  simp only at h
  split at h <;> cases h

theorem intern_ends {head : Index} {key : AggregateKey} {R : Scope → Prop} (interned : Interned s.entries)
    (bounded : ∀ m, .aggregate m ∈ key.types → m < s.entries.size) :
    Ends (intern f head key) s
      (fun n t => t.map = s.map ∧ Widens s.entries t.entries ∧ Interned t.entries ∧
        ∃ a, t.entries[n]? = some a ∧ a.key = key) R := by
  refine ⟨fun n t h => ?_, fun e t h => ?_⟩
  · obtain ⟨grown, map, entry, layered⟩ := intern_succeeds h
    refine ⟨map, grown.1, ⟨layered interned.layered bounded, ?_⟩, entry⟩
    unfold intern at h
    rw [Succeeds.get_bind] at h
    split at h
    · obtain ⟨_, rfl⟩ := Succeeds.of_pure.1 h
      exact interned.distinct
    · rename_i new
      obtain ⟨_, _, added, h⟩ := Succeeds.bind_iff.1 h
      obtain rfl := Succeeds.of_set.1 added
      obtain ⟨_, rfl⟩ := Succeeds.of_pure.1 h
      -- the key of the entry at the end is not among those before it
      have other : ∀ (m : Nat) (a : Aggregate), s.entries[m]? = some a → a.key ≠ key := by
        intro m a found same
        have mismatch := Array.findIdx?_eq_none_iff.1 new a (Array.mem_of_getElem? found)
        simp [same] at mismatch
      intro i j a b first second same
      rw [Array.getElem?_push] at first second
      split at first <;> split at second
      · omega
      · cases first
        exact (other j b second same.symm).elim
      · cases second
        exact (other i a first same).elim
      · exact interned.distinct i j a b first second same
  · unfold intern at h
    rw [outcome_get_bind] at h
    split at h <;> cases h

theorem Matches.bounded {entries : Array Aggregate} {d : Data} {n : Nat}
    (h : Matches f entries d (.aggregate n)) : n < entries.size := by
  obtain ⟨shape, _, listed⟩ := h
  have entry : ∃ l, tableLayer entries (.aggregate n) = some l := by
    cases listed with
    | prim plain => exact ⟨_, plain⟩
    | struct made => exact ⟨_, made⟩
  obtain ⟨_, made⟩ := entry
  obtain ⟨a, found, _⟩ := Option.map_eq_some_iff.1 made
  exact (Array.getElem?_eq_some_iff.1 found).1

theorem bounded_of_matches {entries : Array Aggregate} {types : List Data} {linked : List LinkedData}
    (each : List.Forall₂ (Matches f entries) types linked) {m : Nat} (member : .aggregate m ∈ linked) :
    m < entries.size := by
  induction each with
  | nil => cases member
  | cons first _ ih =>
    rcases List.mem_cons.1 member with rfl | later
    · exact first.bounded
    · exact ih later

theorem matches_prim (entries : Array Aggregate) (p : Prim) : Matches f entries (.prim p) (.prim p) :=
  ⟨.prim p, .prim rfl, .prim rfl⟩

theorem exists_shapes {entries : Array Aggregate} {types : List Data} {linked : List LinkedData}
    (each : List.Forall₂ (Matches f entries) types linked) :
    ∃ fields : List Shape, types.length = fields.length ∧ linked.length = fields.length ∧
      (∀ (k : Nat) (d : Data) (shape : Shape), types[k]? = some d → fields[k]? = some shape →
        Unfolds (functionLayer f) d shape) ∧
      ∀ (k : Nat) (ty : LinkedData) (shape : Shape), linked[k]? = some ty → fields[k]? = some shape →
        Unfolds (tableLayer entries) ty shape := by
  induction each with
  | nil => exact ⟨[], rfl, rfl, by simp, by simp⟩
  | @cons d ty _ _ first _ ih =>
    obtain ⟨shape, own, listed⟩ := first
    obtain ⟨fields, left, right, owns, listeds⟩ := ih
    refine ⟨shape :: fields, by simp [left], by simp [right], ?_, ?_⟩
    · intro k e other at_k at_k'
      cases k with
      | zero => cases at_k; cases at_k'; exact own
      | succ k => exact owns k e other at_k at_k'
    · intro k e other at_k at_k'
      cases k with
      | zero => cases at_k; cases at_k'; exact listed
      | succ k => exact listeds k e other at_k at_k'

theorem matches_of_key {entries : Array Aggregate} {head : Index} {nodes : List Index} {types : List Data}
    {linked : List LinkedData} {n : Nat} {a : Aggregate} (chain : f.buffer.fieldChain head = .ok nodes)
    (typed : nodes.mapM (fieldData? f) = some types) (each : List.Forall₂ (Matches f entries) types linked)
    (entry : entries[n]? = some a) (key : a.key = keyOf f head linked) :
    Matches f entries (.struct head) (.aggregate n) := by
  obtain ⟨fields, left, right, owns, listeds⟩ := exists_shapes each
  have made : functionLayer f (.struct head) = some (.struct types (keptNames f head types.length)
      (((f.buffer.decoration? head).map Decoration.phantom).getD false)) := by
    simp [functionLayer, Except.toOption_eq_some_iff.2 chain, typed]
  have stored : tableLayer entries (.aggregate n) = some (.struct linked (keptNames f head types.length)
      (((f.buffer.decoration? head).map Decoration.phantom).getD false)) := by
    simp [tableLayer, entry, key, keyOf, each.length_eq]
  exact ⟨_, .struct made left owns, .struct stored right listeds⟩

/-- Registration at a given depth keeps a scope accurate and answers what the struct is. -/
def RegisterExact (f : Function) (fuel : Nat) : Prop :=
  ∀ (head : Index) (s : Scope), Accurate f s → Ends (register f fuel head) s
    (fun n t => Keeps f s t ∧ Matches f t.entries (.struct head) (.aggregate n)) (Keeps f s)

theorem fieldEntry_ends {fuel : Nat} {head node : Index} (exact : RegisterExact f fuel)
    (accurate : Accurate f s) :
    Ends (fieldEntry f fuel head node) s
      (fun ty t => Keeps f s t ∧ ∃ d, fieldData? f node = some d ∧ Matches f t.entries d ty) (Keeps f s) := by
  unfold fieldEntry
  refine .of_bind (M := fun ty t => t = s ∧ f.buffer.typeOf node = .ok ty)
    (.of_answer (fun ty typed => ⟨rfl, typed⟩) (.refl accurate)) ?_
  rintro ty _ ⟨rfl, typed⟩
  have value : fieldData? f node = ty.data? := by simp [fieldData?, typed, Except.toOption]
  split
  · rename_i p plain
    exact .of_pure ⟨.refl accurate, .prim p, value.trans plain, matches_prim _ p⟩
  · rename_i nested plain
    refine .of_bind (exact nested _ accurate) ?_
    rintro n t ⟨keeps, same⟩
    exact .of_pure ⟨keeps, .struct nested, value.trans plain, same⟩
  · exact .of_throw (.refl accurate)

theorem fieldEntries_ends {fuel : Nat} {head : Index} (exact : RegisterExact f fuel) (nodes : List Index)
    (accurate : Accurate f s) :
    Ends (nodes.mapM (fieldEntry f fuel head)) s
      (fun linked t => Keeps f s t ∧ ∃ types, nodes.mapM (fieldData? f) = some types ∧
        List.Forall₂ (Matches f t.entries) types linked) (Keeps f s) := by
  induction nodes generalizing s with
  | nil => exact .of_pure ⟨.refl accurate, [], rfl, .nil⟩
  | cons node rest ih =>
    rw [List.mapM_cons]
    refine .of_bind (fieldEntry_ends exact accurate) ?_
    rintro ty t ⟨one, d, value, same⟩
    refine .of_bind ((ih one.accurate).imp (fun _ _ h => h) fun v later => one.trans later) ?_
    rintro linked v ⟨later, types, values, each⟩
    refine .of_pure ⟨one.trans later, d :: types, ?_, .cons (same.mono later.grown) each⟩
    rw [List.mapM_cons, value, values]
    rfl

theorem register_exact (f : Function) (fuel : Nat) : RegisterExact f fuel := by
  induction fuel with
  | zero => exact fun head s accurate => .of_throw (.refl accurate)
  | succ fuel ih =>
    intro head s accurate
    rw [register]
    refine .of_get ?_
    split
    · rename_i n known
      exact .of_pure ⟨.refl accurate, accurate.known head n known⟩
    · refine .of_bind (M := fun nodes t => t = s ∧ f.buffer.fieldChain head = .ok nodes)
        (.of_answer (fun nodes chain => ⟨rfl, chain⟩) (.refl accurate)) ?_
      rintro nodes _ ⟨rfl, chain⟩
      refine .of_bind (fieldEntries_ends ih nodes accurate) ?_
      rintro linked t ⟨keeps, types, typed, each⟩
      refine .of_bind fieldNames_ends ?_
      rintro names v ⟨rfl, entries, map⟩
      have accurate' := keeps.accurate.of_eq entries map
      have bounded : ∀ m, .aggregate m ∈ linked → m < v.entries.size :=
        fun m member => entries ▸ bounded_of_matches each member
      refine .of_bind (intern_ends accurate'.toInterned bounded) ?_
      rintro n w ⟨sameMap, grown, interned, a, entry, key⟩
      have wider : Widens t.entries w.entries := entries ▸ grown
      have own : Matches f w.entries (.struct head) (.aggregate n) :=
        matches_of_key chain typed (each.imp fun _ _ same => same.mono wider) entry key
      refine .of_bind (M := fun _ x => x = { w with map := w.map.insert head n }) (.of_modify rfl) ?_
      rintro _ _ rfl
      refine .of_pure ⟨⟨⟨interned, fun i m found => ?_⟩, keeps.grown.trans wider⟩, own⟩
      rcases getElem?_insert_cases found with ⟨rfl, rfl⟩ | old
      · exact own
      · rw [sameMap, map] at old
        exact (keeps.accurate.known i m old).mono wider

end

/-! ### Many registrations -/

/-- Registration over several functions: the aggregates that they share, and the map of each. -/
structure Session (ι : Type) where
  entries : Array Aggregate := #[]
  maps : ι → TypeMap := fun _ => ∅
  notes : List Note := []

namespace Session

def scope {ι : Type} (s : Session ι) (who : ι) : Scope :=
  { entries := s.entries, map := s.maps who, notes := s.notes }

/-- A session in which every function's scope is accurate. -/
structure Exact {ι : Type} (fs : ι → Function) (s : Session ι) : Prop extends Interned s.entries where
  known : ∀ (who : ι) (head : Index) (n : Nat), (s.maps who)[head]? = some n →
    Matches (fs who) s.entries (.struct head) (.aggregate n)

theorem exact_fresh {ι : Type} {fs : ι → Function} : Exact fs {} := by
  refine ⟨⟨?_, ?_⟩, ?_⟩
  · intro n a found
    simp at found
  · intro n m a b found
    simp at found
  · intro who head n found
    simp at found

variable {ι : Type} [DecidableEq ι] (fs : ι → Function)

def register (s : Session ι) (who : ι) (head : Index) : Except Fault Nat × Session ι :=
  let (answer, t) := outcome (registerIn (fs who) head) (s.scope who)
  (answer, { entries := t.entries
             maps := fun other => if other = who then t.map else s.maps other
             notes := t.notes })

/-- Registers one struct after another, whether or not the last one could be; gives the answers. -/
def run (s : Session ι) : List (ι × Index) → List (Except Fault Nat) × Session ι
  | [] => ([], s)
  | (who, head) :: rest =>
    let one := s.register fs who head
    let later := one.2.run rest
    (one.1 :: later.1, later.2)

variable {fs} {s : Session ι}

theorem Exact.register (exact : Exact fs s) (who : ι) (head : Index) :
    Exact fs (s.register fs who head).2 ∧ Widens s.entries (s.register fs who head).2.entries ∧
      ∀ n, (s.register fs who head).1 = .ok n →
        Matches (fs who) (s.register fs who head).2.entries (.struct head) (.aggregate n) := by
  have ends := register_exact (fs who) ((fs who).buffer.size + 1) head (s.scope who)
    ⟨exact.toInterned, exact.known who⟩
  unfold Session.register
  generalize done : outcome (registerIn (fs who) head) (s.scope who) = result
  obtain ⟨answer, t⟩ := result
  have keeps : Keeps (fs who) (s.scope who) t := by
    cases answer with
    | ok n => exact (ends.succeeds n t done).1
    | error e => exact ends.fails e t done
  refine ⟨⟨keeps.accurate.toInterned, fun other i n found => ?_⟩, keeps.grown, fun n same => ?_⟩
  · simp only at found
    split at found
    · rename_i same
      subst same
      exact keeps.accurate.known i n found
    · exact (exact.known other i n found).mono keeps.grown
  · have same : answer = .ok n := same
    subst same
    exact (ends.succeeds n t done).2

/-- After any registrations the table has no doubles, and every answer is what was asked for. -/
theorem Exact.run (exact : Exact fs s) (requests : List (ι × Index)) :
    Exact fs (s.run fs requests).2 ∧ Widens s.entries (s.run fs requests).2.entries ∧
      ∀ p ∈ requests.zip (s.run fs requests).1, ∀ n, p.2 = .ok n →
        Matches (fs p.1.1) (s.run fs requests).2.entries (.struct p.1.2) (.aggregate n) := by
  induction requests generalizing s with
  | nil => exact ⟨exact, fun _ _ found => found, fun p member => by simp at member⟩
  | cons request rest ih =>
    obtain ⟨who, head⟩ := request
    obtain ⟨exact', grown, own⟩ := exact.register who head
    obtain ⟨exact'', grown', each⟩ := ih exact'
    refine ⟨exact'', grown.trans grown', fun p member n same => ?_⟩
    rcases List.mem_cons.1 member with rfl | member
    · exact (own n same).mono grown'
    · exact each p member n same

end Session

/-- Registration tells structs apart exactly by what they are. After any registrations over any functions,
each with a map that only registration has filled, two that were answered have the same answer exactly when
their structs are equal when written out; and an aggregate contains only aggregates before it, so those are
declared first when all are declared in order. -/
theorem register_same_iff {ι : Type} [DecidableEq ι] (fs : ι → Function) (requests : List (ι × Index)) :
    (∀ p ∈ requests.zip (Session.run fs {} requests).1, ∀ q ∈ requests.zip (Session.run fs {} requests).1,
      ∀ n m, p.2 = .ok n → q.2 = .ok m → (n = m ↔ SameStruct (fs p.1.1) p.1.2 (fs q.1.1) q.1.2)) ∧
    ∀ before a after, (Session.run fs {} requests).2.entries.toList = before ++ a :: after →
      ∀ field ∈ a.fields, ∀ m, field.ty = .aggregate m → m < before.length := by
  obtain ⟨exact, _, each⟩ := (Session.exact_fresh : Session.Exact fs {}).run requests
  refine ⟨fun p first q second n m left right => ?_, fun before a after split field member m nested => ?_⟩
  · exact exact.same_iff (each p first n left) (each q second m right)
  · have entry : (Session.run fs {} requests).2.entries[before.length]? = some a := by
      rw [← Array.getElem?_toList, split]
      simp
    refine exact.layered _ a entry m ?_
    obtain ⟨k, inside, rfl⟩ := List.getElem_of_mem member
    have found := Linkage.fields_getElem? a k
    rw [List.getElem?_eq_getElem inside] at found
    obtain ⟨ty, at_k, same⟩ := Option.map_eq_some_iff.1 found.symm
    rw [← nested, ← same]
    exact List.mem_of_getElem? at_k

/-- A struct of a number and a struct of one number, in two functions: under other names and addresses,
with a wrong number of field names in the first, and once more with field names in the second. -/
def twins : Bool → Function
  | false => { name := "f", id := 0, buffer := .ofContent [.type .nil .null .null, .type .i32 .null (.ref 0),
      .type .nil (.ref 1) (.ref 0), .type .f32 .null (.ref 2)] [] [(.ref 3, ⟨"First", ["x"], false⟩)] }
  | true => { name := "g", id := 1, buffer := .ofContent [.literal (.i32 0), .type .nil .null .null,
      .type .i32 .null (.ref 1), .type .nil (.ref 2) (.ref 1), .type .f32 .null (.ref 3),
      .type .f32 .null (.ref 3)] [] [(.ref 4, ⟨"Second", [], false⟩), (.ref 5, ⟨"First", ["x", "y"], false⟩)] }

/-- All three are registered, the second as the first and the third as another one. -/
theorem twins_same_iff :
    (Session.run twins {} [(false, .ref 3), (true, .ref 4), (true, .ref 5)]).1.map Except.toOption =
        [some 1, some 1, some 2] ∧
      SameStruct (twins false) (.ref 3) (twins true) (.ref 4) ∧
      ¬ SameStruct (twins false) (.ref 3) (twins true) (.ref 5) := by
  have same := (register_same_iff twins [(false, .ref 3), (true, .ref 4), (true, .ref 5)]).1
  have answers : (Session.run twins {} [(false, .ref 3), (true, .ref 4), (true, .ref 5)]).1.map Except.toOption =
      [some 1, some 1, some 2] := by decide +kernel
  refine ⟨answers, ?_⟩
  generalize (Session.run twins {} [(false, .ref 3), (true, .ref 4), (true, .ref 5)]).1 = given at same answers
  obtain ⟨a, given, rfl, first, answers⟩ := List.map_eq_cons_iff.1 answers
  obtain ⟨b, given, rfl, second, answers⟩ := List.map_eq_cons_iff.1 answers
  obtain ⟨c, given, rfl, third, answers⟩ := List.map_eq_cons_iff.1 answers
  rw [Except.toOption_eq_some_iff] at first second third
  refine ⟨(same ((false, .ref 3), a) (by simp) ((true, .ref 4), b) (by simp) 1 1 first second).1 rfl, fun equal => ?_⟩
  have clash := (same ((false, .ref 3), a) (by simp) ((true, .ref 5), c) (by simp) 1 2 first third).2 equal
  cases clash

end ShaderForge.Aggregates
