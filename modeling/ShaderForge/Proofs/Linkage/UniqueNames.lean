import ShaderForge.Proofs.Linkage.Closure
import ShaderForge.Proofs.Linkage.Shapes
import ShaderForge.Proofs.Linkage.Towers
import Std.Data.String.ToNat

/-!
Names that tell things apart. A name that is taken gets a number and is not looked up again, so the
numbered name can meet one that was given outright. That is all that can go wrong: names numbered
differently differ, whatever they number.
-/

namespace ShaderForge

/-! ### Numbered names -/

def numbered (name : String) (n : Nat) : String := s!"{name}_{n}"

theorem toList_numbered (name : String) (n : Nat) :
    (numbered name n).toList = name.toList ++ '_' :: Nat.toDigits 10 n := by
  show ((name ++ "_") ++ toString n).toList = _
  simp

theorem numbered_inj {name other : String} {n m : Nat} :
    numbered name n = numbered other m ↔ name = other ∧ n = m := by
  constructor
  · intro same
    have lists : name.toList ++ '_' :: Nat.toDigits 10 n = other.toList ++ '_' :: Nat.toDigits 10 m := by
      rw [← toList_numbered, ← toList_numbered, same]
    -- digits have no underscore, so the last one is where the number starts
    have last : ∀ {x y d e : List Char}, '_' ∉ d → '_' ∉ e → x ++ '_' :: d = y ++ '_' :: e → x = y ∧ d = e := by
      intro x y d e left right equal
      rcases List.append_eq_append_iff.1 equal with ⟨c, rfl, tail⟩ | ⟨c, rfl, tail⟩ <;> cases c <;> simp_all
    obtain ⟨names, digits⟩ := last Nat.underscore_not_in_toDigits Nat.underscore_not_in_toDigits lists
    refine ⟨String.toList_inj.1 names, Nat.repr_inj.1 (String.toList_inj.1 ?_)⟩
    rw [Nat.toList_repr, Nat.toList_repr, digits]
  · rintro ⟨rfl, rfl⟩
    rfl

theorem numbered_ne (name : String) (n : Nat) : numbered name n ≠ name := by
  intro same
  have lengths := congrArg List.length (toList_numbered name n)
  rw [same, List.length_append, List.length_cons] at lengths
  omega

end ShaderForge

namespace ShaderForge.Linkage

/-! ### Symbols of functions -/

def Shares (u : Linkage) (f : Function) : Prop := ∃ g ∈ u.functions, g ≠ f ∧ g.name = f.name

/-- A function that has a name to itself is called what another one's numbered name is. -/
def Impersonates (u : Linkage) (g f : Function) : Prop :=
  ¬ Shares u g ∧ Shares u f ∧ g.name = numbered f.name f.id.toNat

section

variable {u : Linkage} {f g : Function}

theorem shares_iff (once : u.functions.Nodup) (member : f ∈ u.functions) :
    Shares u f ↔ 1 < u.functions.countP (·.name == f.name) := by
  unfold Shares
  obtain ⟨before, after, split⟩ := List.append_of_mem member
  rw [split] at once ⊢
  obtain ⟨absent, _⟩ := List.nodup_cons.1 (List.nodup_middle.1 once)
  have counted : (before ++ f :: after).countP (·.name == f.name) =
      (before ++ after).countP (·.name == f.name) + 1 := by
    simp only [List.countP_append, List.countP_cons, beq_self_eq_true, if_true]
    omega
  rw [counted, Nat.lt_add_left_iff_pos, List.countP_pos_iff]
  constructor
  · rintro ⟨g, listed, other, same⟩
    exact ⟨g, by simpa [other] using listed, by simpa using same⟩
  · rintro ⟨g, listed, same⟩
    refine ⟨g, ?_, fun here => absent (here ▸ listed), by simpa using same⟩
    rw [List.mem_append] at listed ⊢
    exact listed.imp id (List.mem_cons_of_mem f)

variable (unit : Numbered u)
include unit

theorem Numbered.symbol_of_shares (member : f ∈ u.functions) (shared : Shares u f) :
    u.symbol? f.id = some (numbered f.name f.id.toNat) := by
  have many := (shares_iff (.of_map _ unit.once) member).1 shared
  simp only [symbol?, unit.function? member, Option.bind_eq_bind, Option.bind_some, if_pos many]
  rfl

theorem Numbered.symbol_of_alone (member : f ∈ u.functions) (alone : ¬ Shares u f) :
    u.symbol? f.id = some f.name := by
  rw [shares_iff (.of_map _ unit.once) member] at alone
  simp only [symbol?, unit.function? member, Option.bind_eq_bind, Option.bind_some, if_neg alone]
  rfl

theorem Numbered.id_inj (member : f ∈ u.functions) (other : g ∈ u.functions)
    (same : f.id.toNat = g.id.toNat) : f = g :=
  List.inj_on_of_nodup_map unit.once member other (UInt32.toNat_inj.1 same)

theorem Numbered.symbol_apart (member : f ∈ u.functions) (other : g ∈ u.functions) (name : f.name = g.name)
    (symbol : u.symbol? f.id = u.symbol? g.id) : f = g := by
  by_contra different
  rw [unit.symbol_of_shares member ⟨g, other, Ne.symm different, name.symm⟩,
    unit.symbol_of_shares other ⟨f, member, different, name⟩, Option.some.injEq, numbered_inj] at symbol
  exact different (unit.id_inj member other symbol.2)

theorem Numbered.symbol_clash (member : f ∈ u.functions) (other : g ∈ u.functions) (different : f ≠ g) :
    u.symbol? f.id = u.symbol? g.id ↔ Impersonates u f g ∨ Impersonates u g f := by
  by_cases left : Shares u f <;> by_cases right : Shares u g
  · rw [unit.symbol_of_shares member left, unit.symbol_of_shares other right, Option.some.injEq, numbered_inj]
    simp only [Impersonates, left, right, not_true, false_and, or_false, iff_false]
    exact fun same => different (unit.id_inj member other same.2)
  · rw [unit.symbol_of_shares member left, unit.symbol_of_alone other right, Option.some.injEq]
    simp [Impersonates, left, right, eq_comm]
  · rw [unit.symbol_of_alone member left, unit.symbol_of_shares other right, Option.some.injEq]
    simp [Impersonates, left, right]
  · rw [unit.symbol_of_alone member left, unit.symbol_of_alone other right, Option.some.injEq]
    simp only [Impersonates, left, right, false_and, and_false, or_self, iff_false]
    exact fun same => left ⟨g, other, Ne.symm different, same.symm⟩

end

/-- Every function of a unit has a symbol, and functions of one name have different ones. Symbols are
unique exactly when no function with a name of its own is called what another one's numbered name is. -/
theorem symbols_unique_iff {r : Registry} {entries : List FunctionId} {u : Linkage}
    (linked : link r entries = .ok u) :
    (∀ f ∈ u.functions, ∃ symbol, u.symbol? f.id = some symbol) ∧
    (∀ f ∈ u.functions, ∀ g ∈ u.functions, f.name = g.name → u.symbol? f.id = u.symbol? g.id → f = g) ∧
    ((∀ f ∈ u.functions, ∀ g ∈ u.functions, u.symbol? f.id = u.symbol? g.id → f = g) ↔
      ∀ f ∈ u.functions, ∀ g ∈ u.functions, ¬ Impersonates u g f) := by
  have unit : Numbered u := ⟨(linked_of_link linked).made.coherent, (linked_of_link linked).records.once⟩
  refine ⟨fun f member => ?_, fun f member g other => unit.symbol_apart member other, ?_⟩
  · by_cases shared : Shares u f
    · exact ⟨_, unit.symbol_of_shares member shared⟩
    · exact ⟨_, unit.symbol_of_alone member shared⟩
  · constructor
    · intro unique f member g other impersonates
      have different : f ≠ g := by
        rintro rfl
        exact impersonates.1 impersonates.2.1
      exact different (unique f member g other ((unit.symbol_clash member other different).2 (Or.inr impersonates)))
    · intro honest f member g other same
      by_contra different
      rcases (unit.symbol_clash member other different).1 same with clash | clash
      · exact honest g other f member clash
      · exact honest f member g other clash

/-- Functions of given names, each of which calls those before it. -/
def roster (names : List String) : Registry :=
  names.foldl (fun r name =>
    (r.register name (.ofContent (r.functions.map (fun f => .call f.id .null .null) ++ [.ret .null]) [] [])).2) .empty

theorem exists_roster (names : List String) (entry : FunctionId) (test : Linkage → Bool)
    (passes : ((link (roster names) [entry]).toOption.any test) = true) :
    ∃ u, link (roster names) [entry] = .ok u ∧ test u = true := by
  obtain ⟨u, linked, passes⟩ := (Option.any_eq_true _ _).1 passes
  exact ⟨u, Except.toOption_eq_some_iff.1 linked, passes⟩

theorem roster_unique :
    ∃ u, link (roster ["f", "g_0", "f"]) [2] = .ok u ∧
      [0, 1, 2].map u.symbol? = [some "f_0", some "g_0", some "f_2"] ∧
      ∀ f ∈ u.functions, ∀ g ∈ u.functions, u.symbol? f.id = u.symbol? g.id → f = g := by
  obtain ⟨u, linked, passes⟩ := exists_roster ["f", "g_0", "f"] 2
    (fun u => decide ([0, 1, 2].map u.symbol? = [some "f_0", some "g_0", some "f_2"] ∧
      u.functions.map (fun f => (f.name, f.id)) = [("f", 0), ("g_0", 1), ("f", 2)])) (by decide +kernel)
  obtain ⟨symbols, functions⟩ := of_decide_eq_true passes
  refine ⟨u, linked, symbols, (symbols_unique_iff linked).2.2.2 fun f member g other impersonates => ?_⟩
  have first := List.mem_map_of_mem (f := fun f : Function => (f.name, f.id)) member
  have second := List.mem_map_of_mem (f := fun f : Function => (f.name, f.id)) other
  rw [functions] at first second
  have honest : ∀ p ∈ ([("f", 0), ("g_0", 1), ("f", 2)] : List (String × FunctionId)),
      ∀ q ∈ ([("f", 0), ("g_0", 1), ("f", 2)] : List (String × FunctionId)), q.1 ≠ numbered p.1 p.2.toNat := by decide
  exact honest _ first _ second impersonates.2.2

/-- A numbered name meets the name of a third function. -/
theorem roster_not_unique :
    ∃ u f g, link (roster ["f", "f", "f_0"]) [2] = .ok u ∧ f ∈ u.functions ∧ g ∈ u.functions ∧ f.id ≠ g.id ∧
      u.symbol? f.id = some "f_0" ∧ u.symbol? g.id = some "f_0" := by
  obtain ⟨u, linked, passes⟩ := exists_roster ["f", "f", "f_0"] 2
    (fun u => decide (u.symbol? 0 = some "f_0" ∧ u.symbol? 2 = some "f_0" ∧
      (u.function? 0).isSome ∧ (u.function? 2).isSome)) (by decide +kernel)
  obtain ⟨first, last, left, right⟩ := of_decide_eq_true passes
  obtain ⟨f, found⟩ := Option.isSome_iff_exists.1 left
  obtain ⟨g, found'⟩ := Option.isSome_iff_exists.1 right
  rw [← function?_id found] at first
  rw [← function?_id found'] at last
  refine ⟨u, f, g, linked, function?_mem found, function?_mem found', ?_, first, last⟩
  rw [function?_id found, function?_id found']
  decide

end ShaderForge.Linkage

namespace ShaderForge.Aggregates

/-! ### Names of aggregates -/

def structName? (f : Function) (head : Index) : Option String := (f.buffer.decoration? head).map Decoration.name

/-- The name that entry `n` is to have: the one wished for, or one made of the place in the table. -/
def requested (n : Nat) : Option String → String
  | some name => if name.isEmpty then s!"Aggregate{n}" else name
  | none => s!"Aggregate{n}"

/-- The entries before `n` have the name among them. -/
def Taken (entries : Array Aggregate) (n : Nat) (name : String) : Prop :=
  ∃ m a, m < n ∧ entries[m]? = some a ∧ a.name = name

/-- A table whose entries were named one after another, each after what was wished for it. -/
structure Named (fs : List Function) (entries : Array Aggregate) (wishes : List (Option String)) : Prop where
  count : wishes.length = entries.size
  source : ∀ (n : Nat) (a : Aggregate) (wish : Option String), entries[n]? = some a → wishes[n]? = some wish →
    ∃ f ∈ fs, f.id = a.origin ∧ wish = structName? f a.head
  free : ∀ (n : Nat) (a : Aggregate) (wish : Option String), entries[n]? = some a → wishes[n]? = some wish →
    ¬ Taken entries n (requested n wish) → a.name = requested n wish
  taken : ∀ (n : Nat) (a : Aggregate) (wish : Option String), entries[n]? = some a → wishes[n]? = some wish →
    Taken entries n (requested n wish) → a.name = numbered (requested n wish) n

/-- An entry that is to have the very name that a later one, whose own is taken, gets with its number. -/
def Anticipates (entries : Array Aggregate) (wishes : List (Option String)) (m n : Nat) : Prop :=
  m < n ∧ ∃ wish, wishes[n]? = some wish ∧ Taken entries n (requested n wish) ∧
    wishes[m]? = some (some (numbered (requested n wish) n))

section

variable {fs : List Function} {entries : Array Aggregate} {wishes : List (Option String)}

theorem taken_iff_any {name : String} :
    Taken entries entries.size name ↔ entries.any (·.name == name) = true := by
  rw [Array.any_eq_true']
  constructor
  · rintro ⟨m, a, _, found, same⟩
    exact ⟨a, Array.mem_of_getElem? found, by simpa using same⟩
  · rintro ⟨a, member, same⟩
    obtain ⟨m, found⟩ := Array.mem_iff_getElem?.1 member
    exact ⟨m, a, (Array.getElem?_eq_some_iff.1 found).1, found, by simpa using same⟩

theorem freshName_of_free {wish : Option String} (free : ¬ Taken entries entries.size (requested entries.size wish)) :
    freshName entries wish = requested entries.size wish := by
  rw [taken_iff_any] at free
  cases wish <;> exact if_neg free

theorem freshName_of_taken {wish : Option String} (taken : Taken entries entries.size (requested entries.size wish)) :
    freshName entries wish = numbered (requested entries.size wish) entries.size := by
  rw [taken_iff_any] at taken
  cases wish <;> exact if_pos taken

theorem taken_push {a : Aggregate} {n : Nat} {name : String} (inside : n ≤ entries.size) :
    Taken (entries.push a) n name ↔ Taken entries n name := by
  unfold Taken
  refine exists_congr fun m => exists_congr fun b => and_congr_right fun less => ?_
  rw [Array.getElem?_push, if_neg (by omega)]

theorem Named.push {f : Function} (named : Named fs entries wishes) (member : f ∈ fs) (head : Index)
    (key : AggregateKey) :
    Named fs (entries.push { name := freshName entries (structName? f head), origin := f.id, head, key })
      (wishes ++ [structName? f head]) := by
  -- an entry of the longer table is the new one with its wish, or an old one with its own
  have split : ∀ {n : Nat} {a b : Aggregate} {wish w : Option String}, (entries.push b)[n]? = some a →
      (wishes ++ [w])[n]? = some wish →
      n = entries.size ∧ a = b ∧ wish = w ∨ n < entries.size ∧ entries[n]? = some a ∧ wishes[n]? = some wish := by
    intro n a b wish w entry wished
    rw [Array.getElem?_push] at entry
    split at entry
    · rename_i last
      subst last
      rw [List.getElem?_append_right (Nat.le_of_eq named.count), named.count] at wished
      simp only [Nat.sub_self, List.getElem?_cons_zero, Option.some.injEq] at wished
      exact Or.inl ⟨rfl, (Option.some.inj entry).symm, wished.symm⟩
    · have inside := (Array.getElem?_eq_some_iff.1 entry).1
      rw [List.getElem?_append_left (named.count ▸ inside)] at wished
      exact Or.inr ⟨inside, entry, wished⟩
  refine ⟨by simp [named.count], ?_, ?_, ?_⟩
  · intro n a wish entry wished
    rcases split entry wished with ⟨rfl, rfl, rfl⟩ | ⟨_, old, wished⟩
    · exact ⟨f, member, rfl, rfl⟩
    · exact named.source n a wish old wished
  · intro n a wish entry wished free
    rcases split entry wished with ⟨rfl, rfl, rfl⟩ | ⟨inside, old, wished⟩
    · rw [taken_push (Nat.le_refl _)] at free
      exact freshName_of_free free
    · rw [taken_push (Nat.le_of_lt inside)] at free
      exact named.free n a wish old wished free
  · intro n a wish entry wished taken
    rcases split entry wished with ⟨rfl, rfl, rfl⟩ | ⟨inside, old, wished⟩
    · rw [taken_push (Nat.le_refl _)] at taken
      exact freshName_of_taken taken
    · rw [taken_push (Nat.le_of_lt inside)] at taken
      exact named.taken n a wish old wished taken

/-! ### Tables that registration makes -/

/-- Whatever an added entry keeps is kept by the whole registration, answered or not. -/
theorem register_keeps {P : Array Aggregate → Prop} {f : Function}
    (pushed : ∀ entries head key, P entries →
      P (entries.push { name := freshName entries (structName? f head), origin := f.id, head, key }))
    (fuel : Nat) (head : Index) (s : Scope) (holds : P s.entries) :
    Ends (register f fuel head) s (fun _ t => P t.entries) (fun t => P t.entries) := by
  induction fuel generalizing head s with
  | zero => exact .of_throw holds
  | succ fuel ih =>
    have fields : ∀ (nodes : List Index) (s : Scope), P s.entries →
        Ends (nodes.mapM (fieldEntry f fuel head)) s (fun _ t => P t.entries) (fun t => P t.entries) := by
      intro nodes
      induction nodes with
      | nil => exact fun s holds => .of_pure holds
      | cons node rest later =>
        intro s holds
        rw [List.mapM_cons]
        refine .of_bind (M := fun _ t => P t.entries) ?_ fun ty t holds =>
          .of_bind (later t holds) fun _ _ holds => .of_pure holds
        refine .of_bind (M := fun _ t => P t.entries) (.of_answer (fun _ _ => holds) holds) fun ty t holds => ?_
        split
        · exact .of_pure holds
        · exact .of_bind (ih _ t holds) fun _ _ holds => .of_pure holds
        · exact .of_throw holds
    rw [register]
    refine .of_get ?_
    split
    · exact .of_pure holds
    · refine .of_bind (M := fun _ t => P t.entries) (.of_answer (fun _ _ => holds) holds) fun nodes t holds => ?_
      refine .of_bind (fields nodes t holds) fun types t holds => ?_
      refine .of_bind fieldNames_ends ?_
      rintro names v ⟨_, entries, _⟩
      rw [← entries] at holds
      refine .of_bind (M := fun _ t => P t.entries) ?_ fun n w holds =>
        .of_bind (M := fun _ t => P t.entries) (.of_modify holds) fun _ _ holds => .of_pure holds
      unfold intern
      refine .of_get ?_
      split
      · exact .of_pure holds
      · refine .of_bind (M := fun _ t => P t.entries) ⟨fun _ t h => ?_, fun e t h => ?_⟩
          fun _ _ holds => .of_pure holds
        · obtain rfl := Succeeds.of_set.1 h
          exact pushed _ head _ holds
        · cases h

/-- A request for a struct of a function, with the function's map at that time. -/
structure Request where
  function : Function
  head : Index
  map : TypeMap := ∅

/-- The table after requests, whether or not they were answered. -/
def tableAfter (entries : Array Aggregate) : List Request → Array Aggregate
  | [] => entries
  | q :: rest => tableAfter (outcome (registerIn q.function q.head) { entries, map := q.map }).2.entries rest

theorem Named.tableAfter (requests : List Request) (within : ∀ q ∈ requests, q.function ∈ fs)
    (named : ∃ wishes, Named fs entries wishes) : ∃ wishes, Named fs (tableAfter entries requests) wishes := by
  induction requests generalizing entries with
  | nil => exact named
  | cons q rest ih =>
    have member := within q List.mem_cons_self
    have ends := register_keeps (P := fun entries => ∃ wishes, Named fs entries wishes) (f := q.function)
      (fun _ head key ⟨_, named⟩ => ⟨_, named.push member head key⟩) (q.function.buffer.size + 1) q.head
      { entries, map := q.map } named
    refine ih (fun q later => within q (List.mem_cons_of_mem _ later)) ?_
    generalize done : outcome (registerIn q.function q.head) { entries, map := q.map } = result
    obtain ⟨answer, t⟩ := result
    cases answer with
    | ok n => exact ends.succeeds n t done
    | error e => exact ends.fails e t done

/-! ### Clashes -/

theorem aggregate_ne_numbered (m : Nat) (name : String) (n : Nat) : s!"Aggregate{m}" ≠ numbered name n := by
  intro same
  have underscore : '_' ∈ ("Aggregate" ++ toString m).toList := by
    rw [show "Aggregate" ++ toString m = numbered name n from same, toList_numbered]
    simp
  simp at underscore

theorem requested_eq_numbered {m n : Nat} {wish : Option String} {name : String} :
    requested m wish = numbered name n ↔ wish = some (numbered name n) := by
  have filled : (numbered name n).isEmpty ≠ true := by
    rw [ne_eq, String.isEmpty_iff, ← String.toList_inj, toList_numbered]
    simp
  cases wish with
  | none => simpa [requested] using aggregate_ne_numbered m name n
  | some given =>
    unfold requested
    simp only [Option.some.injEq]
    split
    · rename_i empty
      refine iff_of_false (aggregate_ne_numbered m name n) ?_
      rintro rfl
      exact filled empty
    · rfl

variable (named : Named fs entries wishes)
include named

theorem Named.wish {n : Nat} {a : Aggregate} (entry : entries[n]? = some a) : ∃ wish, wishes[n]? = some wish :=
  ⟨_, List.getElem?_eq_getElem (named.count ▸ (Array.getElem?_eq_some_iff.1 entry).1)⟩

/-- Two entries have one name exactly when the earlier one took it outright. -/
theorem Named.clash {m n : Nat} {a b : Aggregate} {wish : Option String} (less : m < n) (first : entries[m]? = some a)
    (second : entries[n]? = some b) (wished : wishes[n]? = some wish) :
    a.name = b.name ↔ Taken entries n (requested n wish) ∧ a.name = numbered (requested n wish) n := by
  by_cases taken : Taken entries n (requested n wish)
  · rw [named.taken n b wish second wished taken, and_iff_right taken]
  · rw [named.free n b wish second wished taken]
    exact iff_of_false (fun same => taken ⟨m, a, less, first, same⟩) fun both => taken both.1

/-- An entry has a numbered name of a later number only because it was wished for. -/
theorem Named.outright {m n : Nat} {a : Aggregate} {name : String} (less : m < n) (entry : entries[m]? = some a)
    (same : a.name = numbered name n) : wishes[m]? = some (some (numbered name n)) := by
  obtain ⟨wish, wished⟩ := named.wish entry
  by_cases taken : Taken entries m (requested m wish)
  · rw [named.taken m a wish entry wished taken, numbered_inj] at same
    omega
  · rw [named.free m a wish entry wished taken, requested_eq_numbered] at same
    rw [wished, same]

/-- A name that was wished for is the name of that entry or of one before it. -/
theorem Named.granted {m : Nat} {wish : Option String} (wished : wishes[m]? = some wish) :
    ∃ k a, k ≤ m ∧ entries[k]? = some a ∧ a.name = requested m wish := by
  have inside : m < entries.size := named.count ▸ (List.getElem?_eq_some_iff.1 wished).1
  by_cases taken : Taken entries m (requested m wish)
  · obtain ⟨k, a, less, entry, same⟩ := taken
    exact ⟨k, a, Nat.le_of_lt less, entry, same⟩
  · have entry := Array.getElem?_eq_getElem inside
    exact ⟨m, _, Nat.le_refl m, entry, named.free m _ wish entry wished taken⟩

theorem Named.apart {m n : Nat} {a b : Aggregate} {wish other : Option String} (less : m < n)
    (first : entries[m]? = some a) (second : entries[n]? = some b) (wished : wishes[m]? = some wish)
    (wished' : wishes[n]? = some other) (same : requested m wish = requested n other) : a.name ≠ b.name := by
  intro equal
  obtain ⟨_, clash⟩ := (named.clash less first second wished').1 equal
  by_cases taken : Taken entries m (requested m wish)
  · rw [named.taken m a wish first wished taken, numbered_inj] at clash
    omega
  · rw [named.free m a wish first wished taken, same] at clash
    exact numbered_ne _ n clash.symm

theorem Named.distinct_iff :
    (∀ (m n : Nat) (a b : Aggregate), entries[m]? = some a → entries[n]? = some b → a.name = b.name → m = n) ↔
      ∀ m n, ¬ Anticipates entries wishes m n := by
  constructor
  · rintro distinct m n ⟨less, wish, wished, taken, early⟩
    obtain ⟨k, a, order, entry, same⟩ := named.granted early
    rw [requested_eq_numbered.2 rfl] at same
    have inside : n < entries.size := named.count ▸ (List.getElem?_eq_some_iff.1 wished).1
    have last := Array.getElem?_eq_getElem inside
    have clash := (named.clash (by omega) entry last wished).2 ⟨taken, same⟩
    have := distinct k n a _ entry last clash
    omega
  · intro honest m n a b first second same
    -- the later of two entries with one name has it by its number
    have apart : ∀ {m n : Nat} {a b : Aggregate}, entries[m]? = some a → entries[n]? = some b → a.name = b.name →
        ¬ m < n := by
      intro m n a b first second same less
      obtain ⟨wish, wished⟩ := named.wish second
      obtain ⟨taken, clash⟩ := (named.clash less first second wished).1 same
      exact honest m n ⟨less, wish, wished, taken, named.outright less first clash⟩
    exact Nat.le_antisymm (Nat.not_lt.1 (apart second first same.symm)) (Nat.not_lt.1 (apart first second same))

end

/-- After any registrations the entries are named one after another, each after the decoration of its struct,
and entries that are to have one name have different ones. Names are unique exactly when no decoration gives
the numbered name that a later entry gets. -/
theorem names_unique_iff (requests : List Request) :
    ∃ wishes, Named (requests.map Request.function) (tableAfter #[] requests) wishes ∧
      (∀ (m n : Nat) (a b : Aggregate) (wish other : Option String), m < n →
        (tableAfter #[] requests)[m]? = some a → (tableAfter #[] requests)[n]? = some b →
        wishes[m]? = some wish → wishes[n]? = some other → requested m wish = requested n other → a.name ≠ b.name) ∧
      ((∀ (m n : Nat) (a b : Aggregate), (tableAfter #[] requests)[m]? = some a →
          (tableAfter #[] requests)[n]? = some b → a.name = b.name → m = n) ↔
        ∀ m n, ¬ Anticipates (tableAfter #[] requests) wishes m n) := by
  have start : ∃ wishes, Named (requests.map Request.function) #[] wishes :=
    ⟨[], by simp, by simp, by simp, by simp⟩
  obtain ⟨wishes, named⟩ := Named.tableAfter requests (fun q member => List.mem_map_of_mem member) start
  exact ⟨wishes, named, fun m n a b wish other => named.apart, named.distinct_iff⟩

/-- Requests for structs of one, one and two numbers, the second under the name that the third gets with its
number. -/
def homonyms : List Request :=
  let f : Function :=
    { name := "f", id := 0
      buffer := .ofContent [.type .nil .null .null, .type .i32 .null (.ref 0), .type .f32 .null (.ref 0),
        .type .i32 .null (.ref 1)] []
        [(.ref 1, ⟨"S", [], false⟩), (.ref 2, ⟨"S_2", [], false⟩), (.ref 3, ⟨"S", [], false⟩)] }
  [⟨f, .ref 1, ∅⟩, ⟨f, .ref 2, ∅⟩, ⟨f, .ref 3, ∅⟩]

/-- A taken name gets its number although the numbered name is taken as well. -/
theorem homonyms_not_unique :
    ∃ a b : Aggregate, (tableAfter #[] homonyms)[1]? = some a ∧ (tableAfter #[] homonyms)[2]? = some b ∧
      a.name = "S_2" ∧ b.name = "S_2" := by
  have names : (tableAfter #[] homonyms).map Aggregate.name = #["S", "S_2", "S_2"] := by decide +kernel
  have second := congrArg (·[1]?) names
  have third := congrArg (·[2]?) names
  simp only [Array.getElem?_map] at second third
  obtain ⟨a, entry, name⟩ := Option.map_eq_some_iff.1 second
  obtain ⟨b, entry', name'⟩ := Option.map_eq_some_iff.1 third
  exact ⟨a, b, entry, entry', name, name'⟩

end ShaderForge.Aggregates
