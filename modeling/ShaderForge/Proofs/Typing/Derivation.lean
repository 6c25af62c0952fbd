import Mathlib.Data.List.Perm.Subperm
import ShaderForge.Proofs.Typing.Table

/-!
Derivations of types. Analysis records an atom when its rule has been answered, so the atoms in the
order of recording form a derivation: each has its type by its rule from the ones recorded before.
Whoever asks for a derived type, with any knowledge that agrees with it, finds it; no question
returns to an atom that is being typed.
-/

namespace ShaderForge.Typing

variable {b c : Buffer} {log : List (Nat × Ty)}

def found? (log : List (Nat × Ty)) : Index → Option Ty
  | .null => some .nil
  | .ref n => log.lookup n

@[simp] theorem found?_null (log : List (Nat × Ty)) : found? log .null = some .nil := rfl

theorem found?_cons (log : List (Nat × Ty)) (n : Nat) (ty : Ty) (i : Index) :
    found? ((n, ty) :: log) i = if i = .ref n then some ty else found? log i := by
  cases i with
  | null => rfl
  | ref k =>
    simp only [found?, List.lookup_cons, Index.ref.injEq]
    by_cases same : k = n
    · simp [same]
    · simp [same, beq_false_of_ne same]

/-- Types recorded one after the other, the latest first, each by the rule of its atom from what is
recorded before it. -/
inductive Derived (b : Buffer) : List (Nat × Ty) → Prop
  | nil : Derived b []
  | cons {log : List (Nat × Ty)} {n : Nat} {a : Atom} {ty : Ty} (earlier : Derived b log)
      (new : found? log (.ref n) = none) (present : b.atoms[n]? = some a)
      (value : (rule b (.ref n) a).value? (found? log) = some ty) : Derived b ((n, ty) :: log)

namespace Derived

theorem congr (same : b.atoms = c.atoms) (derived : Derived b log) : Derived c log := by
  induction derived with
  | nil => exact .nil
  | cons _ new present value ih =>
    refine .cons ih new (by rw [← same]; exact present) ?_
    rw [← rule_congr same]
    exact value

theorem absent_of_new {n : Nat} (new : found? log (.ref n) = none) : n ∉ log.map Prod.fst := by
  induction log with
  | nil => exact List.not_mem_nil
  | cons entry rest ih =>
    obtain ⟨k, ty⟩ := entry
    rw [found?_cons] at new
    split at new
    · cases new
    · rename_i other
      rw [List.map_cons, List.mem_cons, not_or]
      exact ⟨fun same => other (congrArg Index.ref same), ih new⟩

theorem nodup (derived : Derived b log) : (log.map Prod.fst).Nodup := by
  induction derived with
  | nil => exact List.nodup_nil
  | cons _ new _ _ ih => exact List.nodup_cons.2 ⟨absent_of_new new, ih⟩

theorem inside (derived : Derived b log) : log.map Prod.fst ⊆ List.range b.size := by
  intro n member
  rw [List.mem_range]
  induction derived with
  | nil => cases member
  | cons _ _ present _ ih =>
    rcases List.mem_cons.1 member with rfl | later
    · exact (Array.getElem?_eq_some_iff.1 present).1
    · exact ih later

/-- No atom is recorded twice, so there are no more records than atoms. -/
theorem length_le (derived : Derived b log) : log.length ≤ b.size := by
  have short := (List.subperm_of_subset derived.nodup derived.inside).length_le
  rwa [List.length_map, List.length_range] at short

end Derived

/-! ### Analysis derives what it records -/

def Recorded (b : Buffer) (m : Memo) : Prop := ∃ log, Derived b log ∧ found? log = known m.types

theorem answer_recorded {oracle : Index → ExceptT Fault (StateM Memo) Ty} {α : Type}
    (sound : Sound b oracle)
    (recorded : ∀ i m ty m', Confirmed b m → Recorded b m → Succeeds (oracle i) m ty m' → Recorded b m')
    {x : Inquiry α} {m m' : Memo} {a : α} (confirmed : Confirmed b m) (start : Recorded b m)
    (h : Succeeds (x.answer oracle) m a m') : Recorded b m' := by
  induction x generalizing m with
  | done c =>
    obtain ⟨rfl, rfl⟩ := Succeeds.of_pure.1 h
    exact start
  | fail e => exact (Succeeds.of_throw h).elim
  | ask i resume ih =>
    obtain ⟨ty, m₁, asked, h⟩ := Succeeds.bind_iff.1 h
    exact ih ty (sound i m ty m₁ confirmed asked).1 (recorded i m ty m₁ confirmed start asked) h

theorem typeOf_recorded (fuel : Nat) : ∀ i m ty m', Confirmed b m → Recorded b m →
    Succeeds (typeOf b fuel i) m ty m' → Recorded b m' := by
  induction fuel with
  | zero =>
    intro i m ty m' _ start h
    cases i with
    | null =>
      obtain ⟨rfl, rfl⟩ := Succeeds.of_pure.1 h
      exact start
    | ref n => exact (Succeeds.of_throw h).elim
  | succ fuel ih =>
    intro i m ty m' confirmed start h
    cases i with
    | null =>
      obtain ⟨rfl, rfl⟩ := Succeeds.of_pure.1 h
      exact start
    | ref n =>
      obtain ⟨a, present, ⟨_, rfl⟩ | ⟨m₁, asked, rfl⟩⟩ := typeOf_succ_succeeds h
      · exact start
      · obtain ⟨log, derived, same⟩ :=
          answer_recorded (typeOf_sound b fuel) ih (m := m.setActive n true) confirmed start asked
        obtain ⟨confirmed₁, _, value⟩ :=
          answer_sound (typeOf_sound b fuel) (m := m.setActive n true) confirmed asked
        have inside : n < m₁.types.size := by
          rw [confirmed₁.1]
          exact (Array.getElem?_eq_some_iff.1 present).1
        have table : known ((m₁.setActive n false).record b n ty).types =
            fun i => if i = .ref n then some ty else known m₁.types i :=
          funext (known_setIfInBounds inside)
        unfold Recorded
        rw [table, ← same]
        rw [← same] at value
        cases before : found? log (.ref n) with
        | none => exact ⟨(n, ty) :: log, .cons derived before present value, funext (found?_cons log n ty)⟩
        | some ty' =>
          -- recorded meanwhile, with the type that its rule gives now
          have agreed : ty' = ty := by
            obtain ⟨a', present', value'⟩ := confirmed₁.2 n ty' (by rw [← same]; exact before)
            rw [present] at present'
            cases present'
            rw [← same, value] at value'
            exact (Option.some.inj value').symm
          refine ⟨log, derived, funext fun i => ?_⟩
          split
          · rename_i at_n
            rw [at_n, before, agreed]
          · rfl

theorem typesOf_recorded {fuel : Nat} {items : List (Index × Atom)} {m m' : Memo} {types : List Ty}
    (confirmed : Confirmed b m) (start : Recorded b m)
    (h : Succeeds (items.mapM fun (i, _) => typeOf b fuel i) m types m') : Recorded b m' := by
  induction items generalizing m types with
  | nil =>
    obtain ⟨rfl, rfl⟩ := Succeeds.of_pure.1 h
    exact start
  | cons item rest ih =>
    rw [List.mapM_cons] at h
    obtain ⟨ty, m₁, asked, h⟩ := Succeeds.bind_iff.1 h
    obtain ⟨later, m₂, others, h⟩ := Succeeds.bind_iff.1 h
    obtain ⟨rfl, rfl⟩ := Succeeds.of_pure.1 h
    exact ih (typeOf_sound b fuel item.1 m ty m₁ confirmed asked).1
      (typeOf_recorded fuel item.1 m ty m₁ confirmed start asked) others

theorem empty_recorded (b : Buffer) : Recorded b (Memo.empty b) := by
  refine ⟨[], .nil, funext fun i => ?_⟩
  cases i with
  | null => rfl
  | ref n =>
    simp only [found?, List.lookup_nil, known, Memo.empty, Array.getElem?_replicate]
    split <;> rfl

theorem analyze_derived {types : List Ty} {hints : IndexMap Decoration}
    (h : analyze b = .ok (types, hints)) : ∃ log, Derived b log ∧ found? log = table types.toArray := by
  obtain ⟨m, run, _, _, _, same⟩ := analyze_known h
  rw [same]
  exact typesOf_recorded (empty_confirmed b) (empty_recorded b) run

/-! ### What is derived is found -/

def Agrees (b : Buffer) (table : Index → Option Ty) (m : Memo) : Prop :=
  m.types.size = b.size ∧ ∀ i ty, known m.types i = some ty → table i = some ty

def running (m : Memo) (n : Nat) : Bool := m.active[n]?.getD false

theorem running_setActive_of_ne (m : Memo) {n k : Nat} (v : Bool) (other : k ≠ n) :
    running (m.setActive n v) k = running m k := by
  simp [running, Memo.setActive, Ne.symm other]

theorem running_setActive_false (m : Memo) (n : Nat) : running (m.setActive n false) n = false := by
  unfold running Memo.setActive
  rw [Array.getElem?_setIfInBounds, if_pos rfl]
  split <;> rfl

/-- A rule that is over leaves running what was running before it. -/
theorem running_restored {m m' : Memo} {n : Nat} (idle : running m n = false)
    (steady : running m' = running (m.setActive n true)) : running (m'.setActive n false) = running m := by
  funext k
  by_cases at_n : k = n
  · rw [at_n, running_setActive_false, idle]
  · rw [running_setActive_of_ne m' false at_n, steady, running_setActive_of_ne m true at_n]

/-- Asking about what is recorded, none of it being typed, finds the recorded type and leaves no more
rules running. -/
def Complete (b : Buffer) (table : Index → Option Ty) (log : List (Nat × Ty))
    (oracle : Index → ExceptT Fault (StateM Memo) Ty) : Prop :=
  ∀ i m ty, found? log i = some ty → Agrees b table m →
    (∀ n, found? log (.ref n) ≠ none → running m n = false) →
    ∃ m', Succeeds (oracle i) m ty m' ∧ Agrees b table m' ∧ running m' = running m

theorem answer_complete {table : Index → Option Ty} {oracle : Index → ExceptT Fault (StateM Memo) Ty}
    {α : Type} (complete : Complete b table log oracle) {x : Inquiry α} {m : Memo} {a : α}
    (value : x.value? (found? log) = some a) (agrees : Agrees b table m)
    (idle : ∀ n, found? log (.ref n) ≠ none → running m n = false) :
    ∃ m', Succeeds (x.answer oracle) m a m' ∧ Agrees b table m' ∧ running m' = running m := by
  induction x generalizing m with
  | done c =>
    cases value
    exact ⟨m, Succeeds.of_pure.2 ⟨rfl, rfl⟩, agrees, rfl⟩
  | fail e => cases value
  | ask i resume ih =>
    obtain ⟨ty, found, value⟩ := Option.bind_eq_some_iff.1 value
    obtain ⟨m₁, asked, agrees₁, same⟩ := complete i m ty found agrees idle
    obtain ⟨m₂, answered, agrees₂, same'⟩ := ih ty value agrees₁ (by rw [same]; exact idle)
    exact ⟨m₂, Succeeds.bind_iff.2 ⟨ty, m₁, asked, answered⟩, agrees₂, same'.trans same⟩

theorem typeOf_known {fuel n : Nat} {m : Memo} {a : Atom} {ty : Ty} (found : c.atoms[n]? = some a)
    (cached : known m.types (.ref n) = some ty) : Succeeds (typeOf c (fuel + 1) (.ref n)) m ty m := by
  have entry : m.types[n]? = some (some ty) := by
    cases h : m.types[n]? with
    | none => rw [known, h] at cached; cases cached
    | some o => rw [known, h] at cached; exact congrArg some cached
  rw [typeOf]
  refine Succeeds.bind_iff.2 ⟨m, m, Succeeds.of_get.2 ⟨rfl, rfl⟩, ?_⟩
  simp only [found, entry]
  exact Succeeds.of_pure.2 ⟨rfl, rfl⟩

theorem typeOf_unknown {fuel n : Nat} {m m' : Memo} {a : Atom} {ty : Ty}
    (found : c.atoms[n]? = some a) (uncached : known m.types (.ref n) = none)
    (idle : running m n = false)
    (answered : Succeeds ((rule c (.ref n) a).answer (typeOf c fuel)) (m.setActive n true) ty m') :
    Succeeds (typeOf c (fuel + 1) (.ref n)) m ty ((m'.setActive n false).record c n ty) := by
  have absent : ∀ ty, m.types[n]? ≠ some (some ty) := by
    intro ty entry
    rw [known, entry] at uncached
    cases uncached
  have asked : Succeeds (ExceptT.lift
      ((rule c (.ref n) a).answer (typeOf c fuel) : ExceptT Fault (StateM Memo) Ty).run :
        ExceptT Fault (StateM Memo) (Except Fault Ty)) (m.setActive n true) (.ok ty) m' :=
    Succeeds.of_lift_run.2 answered
  rw [typeOf]
  refine Succeeds.bind_iff.2 ⟨m, m, Succeeds.of_get.2 ⟨rfl, rfl⟩, ?_⟩
  simp only [found]
  split
  · rename_i active
    rw [running] at idle
    rw [idle] at active
    cases active
  · refine Succeeds.bind_iff.2 ⟨⟨⟩, m.setActive n true, Succeeds.of_modify.2 rfl, ?_⟩
    refine Succeeds.bind_iff.2 ⟨.ok ty, m', asked, ?_⟩
    refine Succeeds.bind_iff.2 ⟨⟨⟩, m'.setActive n false, Succeeds.of_modify.2 rfl, ?_⟩
    refine Succeeds.bind_iff.2 ⟨⟨⟩, _, Succeeds.of_modify.2 rfl, ?_⟩
    exact Succeeds.of_pure.2 ⟨rfl, rfl⟩

theorem Agrees.record {table : Index → Option Ty} {m : Memo} (agrees : Agrees b table m) {n : Nat}
    {ty : Ty} (inside : n < b.size) (found : table (.ref n) = some ty) :
    Agrees b table ((m.setActive n false).record b n ty) := by
  have size : m.types.size = b.size := agrees.1
  have same (i : Index) : known ((m.setActive n false).record b n ty).types i =
      if i = .ref n then some ty else known m.types i :=
    known_setIfInBounds (show n < m.types.size by omega) i
  constructor
  · change (m.types.setIfInBounds n (some ty)).size = b.size
    rw [Array.size_setIfInBounds, size]
  · intro i ty' answer
    rw [same] at answer
    split at answer
    · rename_i at_n
      rw [at_n, found, answer]
    · exact agrees.2 i ty' answer

theorem Derived.complete (derived : Derived b log) {table : Index → Option Ty}
    (wider : ∀ i ty, found? log i = some ty → table i = some ty) :
    ∀ fuel, log.length ≤ fuel → Complete b table log (typeOf b fuel) := by
  induction derived with
  | nil =>
    intro fuel _ i m ty found agrees _
    cases i with
    | null =>
      cases found
      exact ⟨m, by cases fuel <;> exact Succeeds.of_pure.2 ⟨rfl, rfl⟩, agrees, rfl⟩
    | ref n => cases found
  | @cons log n a ty earlier new present value ih =>
    intro fuel enough i m ty' found agrees idle
    have narrow : ∀ i ty', found? log i = some ty' → found? ((n, ty) :: log) i = some ty' := by
      intro i ty' before
      rw [found?_cons, if_neg]
      · exact before
      · intro at_n
        rw [at_n, new] at before
        cases before
    have wider' : ∀ i ty', found? log i = some ty' → table i = some ty' :=
      fun i ty' before => wider i ty' (narrow i ty' before)
    have older : ∀ k, found? log (.ref k) ≠ none → k ≠ n := by
      intro k before same
      rw [same] at before
      exact before new
    have idle' : ∀ k, found? log (.ref k) ≠ none → running m k = false := by
      intro k before
      apply idle k
      obtain ⟨known, before⟩ := Option.ne_none_iff_exists'.1 before
      rw [narrow _ _ before]
      exact Option.some_ne_none _
    rw [List.length_cons] at enough
    obtain ⟨fuel, rfl⟩ : ∃ less, fuel = less + 1 := ⟨fuel - 1, by omega⟩
    rw [found?_cons] at found
    split at found
    case isFalse => exact ih wider' (fuel + 1) (by omega) i m ty' found agrees idle'
    case isTrue at_n =>
      subst at_n
      cases found
      have recorded : table (.ref n) = some ty := wider _ _ (by rw [found?_cons, if_pos rfl])
      cases cached : known m.types (.ref n) with
      | some ty' =>
        have agreed := agrees.2 _ _ cached
        rw [recorded, Option.some.injEq] at agreed
        subst agreed
        exact ⟨m, typeOf_known present cached, agrees, rfl⟩
      | none =>
        have still : running m n = false := idle n (by simp [found?_cons])
        obtain ⟨m₁, answered, agrees₁, steady⟩ :=
          answer_complete (ih wider' fuel (by omega)) (m := m.setActive n true) value agrees (by
            intro k before
            rw [running_setActive_of_ne m true (older k before)]
            exact idle' k before)
        exact ⟨_, typeOf_unknown present cached still answered,
          agrees₁.record (Array.getElem?_eq_some_iff.1 present).1 recorded, running_restored still steady⟩

theorem agrees_empty (b : Buffer) {table : Index → Option Ty} (null : table .null = some .nil) :
    Agrees b table (Memo.empty b) := by
  refine ⟨by simp [Memo.empty], fun i ty known => ?_⟩
  cases i with
  | null => exact null.trans known
  | ref n =>
    simp only [Typing.known, Memo.empty, Array.getElem?_replicate] at known
    split at known <;> cases known

theorem idle_empty (b : Buffer) (n : Nat) : running (Memo.empty b) n = false := by
  simp only [running, Memo.empty, Array.getElem?_replicate]
  split <;> rfl

theorem Derived.infer_eq (derived : Derived b log) {i : Index} {ty : Ty}
    (found : found? log i = some ty) : infer b i = .ok ty := by
  have enough : log.length ≤ depth b := Nat.le_succ_of_le derived.length_le
  obtain ⟨m, run, _, _⟩ := derived.complete (fun _ _ known => known) (depth b) enough i (Memo.empty b) ty
    found (agrees_empty b (found?_null log)) fun n _ => idle_empty b n
  exact congrArg Prod.fst run

theorem typesOf_complete {table : Index → Option Ty} {oracle : Index → ExceptT Fault (StateM Memo) Ty}
    (complete : Complete b table log oracle) {items : List (Index × Atom)} {m : Memo} {types : List Ty}
    (found : items.map (fun (i, _) => found? log i) = types.map some) (agrees : Agrees b table m)
    (idle : ∀ n, found? log (.ref n) ≠ none → running m n = false) :
    ∃ m', Succeeds (items.mapM fun (i, _) => oracle i) m types m' := by
  induction items generalizing m types with
  | nil =>
    cases types with
    | nil => exact ⟨m, Succeeds.of_pure.2 ⟨rfl, rfl⟩⟩
    | cons ty rest => cases found
  | cons item rest ih =>
    cases types with
    | nil => cases found
    | cons ty later =>
      rw [List.map_cons, List.map_cons, List.cons.injEq] at found
      obtain ⟨m₁, asked, agrees₁, steady⟩ := complete item.1 m ty found.1 agrees idle
      obtain ⟨m₂, others⟩ := ih found.2 agrees₁ (by rw [steady]; exact idle)
      rw [List.mapM_cons]
      exact ⟨m₂, Succeeds.bind_iff.2 ⟨ty, m₁, asked, Succeeds.bind_iff.2
        ⟨later, m₂, others, Succeeds.of_pure.2 ⟨rfl, rfl⟩⟩⟩⟩

/-- Analysis finds the types of a derivation that leaves no atom out. -/
theorem Derived.analyze_eq (derived : Derived b log) {types : List Ty} (length : types.length = b.size)
    (all : found? log = table types.toArray) : ∃ hints, analyze b = .ok (types, hints) := by
  have found : b.indexed.map (fun (i, _) => found? log i) = types.map some := by
    apply List.ext_getElem?
    intro n
    rw [List.getElem?_map, Buffer.indexed_getElem?, List.getElem?_map, all]
    cases present : b.atoms[n]? with
    | none =>
      have outside : b.size ≤ n := Array.getElem?_eq_none_iff.1 present
      rw [List.getElem?_eq_none (by omega)]
      rfl
    | some a =>
      have inside : n < types.length := by
        rw [length]
        exact (Array.getElem?_eq_some_iff.1 present).1
      simp [table, List.getElem?_eq_getElem inside]
  have enough : log.length ≤ depth b := Nat.le_succ_of_le derived.length_le
  obtain ⟨m, run⟩ := typesOf_complete (derived.complete (fun _ _ known => known) (depth b) enough) found
    (agrees_empty b (found?_null log)) fun n _ => idle_empty b n
  refine ⟨m.hints, ?_⟩
  unfold analyze
  have answer : outcome (b.indexed.mapM fun (i, _) => typeOf b (depth b) i) (Memo.empty b) =
      (.ok types, m) := run
  unfold outcome at answer
  simp only [answer]

end ShaderForge.Typing
