import ShaderForge.Proofs.Typing.Table
import ShaderForge.Stream.Decode

/-!
Numbers of functions. A registry hands out numbers above all that are in use, by adding one to those
it sees; the addition overflows for the last number of 32 bits only, and what would overflow changes
nothing.
-/

namespace ShaderForge.Registry

/-- What can be done to a registry. -/
inductive Action where
  | read (bytes : Stream.Bytes)
  | register (name : String) (b : Buffer)
  | insert (f : Function)
  | take

namespace Action

def run (r : Registry) : Action → Except Refusal Unit × Registry
  | .read bytes =>
    match Stream.readRegistry bytes with
    | .ok started => (.ok (), started)
    | .error e => (.error e, r)
  | .register name b => ((r.register name b).1.map fun _ => (), (r.register name b).2)
  | .insert f =>
    match r.insert f with
    | .ok grown => (.ok (), grown)
    | .error e => (.error e, r)
  | .take => (r.takeFunctionId.1.map fun _ => (), r.takeFunctionId.2)

def apply (r : Registry) (a : Action) : Registry := (a.run r).2

def raised (r : Registry) : Action → List FunctionId
  | .read bytes =>
    match Stream.readFunctions bytes with
    | .ok functions => functions.map (·.id)
    | .error _ => []
  | .insert f => [f.id]
  | .register .. | .take => [r.nextFunction]

end Action

def Fresh (r : Registry) : Prop := ∀ id : FunctionId, id ∈ r.table → id < r.nextFunction

/-- An action as it should be: no addition overflows, the next number stays fresh, and a registration
replaces nothing. -/
structure Action.Proper (r : Registry) (a : Action) : Prop where
  exact : (a.run r).1 ≠ .error .overflow
  fresh : (a.apply r).Fresh
  keeps : ∀ name b, a = .register name b → ∀ id f, r.get? id = some f → (a.apply r).get? id = some f

def Along (P : Registry → Action → Prop) : Registry → List Action → Prop
  | _, [] => True
  | r, a :: rest => P r a ∧ Along P (a.apply r) rest

/-- The last number of 32 bits. -/
def lastNumber : FunctionId := 4294967295

variable {r : Registry} {a : Action}

theorem lt_add_one_iff {n : FunctionId} : n < n + 1 ↔ n ≠ lastNumber := by
  have bound := n.toNat_lt
  rw [UInt32.lt_iff_toNat_lt, UInt32.toNat_add, ne_eq, ← UInt32.toNat_inj]
  simp only [lastNumber, UInt32.reduceToNat]
  omega

theorem le_max (m n : FunctionId) : m ≤ max m n ∧ n ≤ max m n := by
  show m ≤ (if m ≤ n then n else m) ∧ n ≤ if m ≤ n then n else m
  split
  · rename_i below
    exact ⟨below, UInt32.le_refl n⟩
  · rename_i above
    exact ⟨UInt32.le_refl m, UInt32.le_of_lt (UInt32.not_le.1 above)⟩

theorem get?_put (r : Registry) (f : Function) (id : FunctionId) :
    (r.put f).get? id = if f.id = id then some f else r.get? id := by
  show (r.table.insert f.id f)[id]? = _
  simp only [Std.ExtTreeMap.getElem?_insert, Std.compare_eq_iff_eq, get?]

/-! ### One number -/

theorem take_cases (r : Registry) :
    r.nextFunction ≠ lastNumber ∧
        r.takeFunctionId = (.ok r.nextFunction, { r with nextFunction := r.nextFunction + 1 }) ∨
      r.nextFunction = lastNumber ∧ r.takeFunctionId = (.error .overflow, r) := by
  unfold takeFunctionId
  split
  · rename_i room
    exact Or.inl ⟨lt_add_one_iff.1 room, rfl⟩
  · rename_i full
    exact Or.inr ⟨not_not.1 fun other => full (lt_add_one_iff.2 other), rfl⟩

theorem insert_cases (r : Registry) (f : Function) :
    f.id ≠ lastNumber ∧ r.insert f = .ok { r.put f with nextFunction := max r.nextFunction (f.id + 1) } ∨
      f.id = lastNumber ∧ r.insert f = .error .overflow := by
  unfold insert
  split
  · rename_i room
    exact Or.inl ⟨lt_add_one_iff.1 room, rfl⟩
  · rename_i full
    exact Or.inr ⟨not_not.1 fun other => full (lt_add_one_iff.2 other), rfl⟩

theorem insert_overflow_iff {f : Function} : r.insert f = .error .overflow ↔ f.id = lastNumber := by
  rcases insert_cases r f with ⟨room, added⟩ | ⟨full, refused⟩
  · rw [added]
    exact ⟨nofun, fun full => (room full).elim⟩
  · exact ⟨fun _ => full, fun _ => refused⟩

theorem fresh_empty : Fresh .empty := fun _ member => absurd member Std.ExtTreeMap.not_mem_empty

theorem Fresh.insert (fresh : r.Fresh) {f : Function} {grown : Registry} (h : r.insert f = .ok grown) :
    grown.Fresh := by
  rcases insert_cases r f with ⟨room, added⟩ | ⟨_, refused⟩
  · rw [added] at h
    cases h
    obtain ⟨next, own⟩ := le_max r.nextFunction (f.id + 1)
    intro id member
    rcases Std.ExtTreeMap.mem_insert.1 member with same | old
    · rw [← Std.compare_eq_iff_eq.1 same]
      exact UInt32.lt_of_lt_of_le (lt_add_one_iff.2 room) own
    · exact UInt32.lt_of_lt_of_le (fresh id old) next
  · rw [refused] at h
    cases h

theorem Fresh.insertAll (fresh : r.Fresh) {functions : List Function} {grown : Registry}
    (h : functions.foldlM Registry.insert r = .ok grown) : grown.Fresh :=
  Except.foldlM_inv (fun _ r => r.Fresh) fresh (fun _ _ _ _ _ fresh added => fresh.insert added) h

/-- Adding functions one after the other overflows just where one has the last number. -/
theorem insertAll_overflow_iff {functions : List Function} :
    functions.foldlM Registry.insert r = .error .overflow ↔ ∃ f ∈ functions, f.id = lastNumber := by
  induction functions generalizing r with
  | nil => exact ⟨nofun, fun ⟨_, member, _⟩ => nomatch member⟩
  | cons f rest ih =>
    rw [List.foldlM_cons]
    rcases insert_cases r f with ⟨room, added⟩ | ⟨full, refused⟩
    · rw [added, Except.ok_bind, ih]
      simp [room]
    · rw [refused]
      exact ⟨fun _ => ⟨f, List.mem_cons_self, full⟩, fun _ => rfl⟩

theorem Fresh.take (fresh : r.Fresh) : r.takeFunctionId.2.Fresh := by
  rcases take_cases r with ⟨room, taken⟩ | ⟨_, refused⟩
  · rw [taken]
    exact fun id member => UInt32.lt_trans (fresh id member) (lt_add_one_iff.2 room)
  · rw [refused]
    exact fresh

theorem Fresh.get?_next (fresh : r.Fresh) : r.get? r.nextFunction = none := by
  by_contra found
  have member := Std.ExtTreeMap.mem_iff_isSome_getElem?.2 (Option.isSome_iff_ne_none.2 found)
  exact UInt32.lt_irrefl _ (fresh _ member)

/-- A registration overflows, or takes a number for nothing, or enters a function under it. -/
theorem register_cases (r : Registry) (name : String) (b : Buffer) :
    (r.nextFunction = lastNumber ∧ r.register name b = (.error .overflow, r)) ∨
      r.nextFunction ≠ lastNumber ∧
        ((∃ e, r.register name b = (.error (.fault e), r.takeFunctionId.2)) ∨
          ∃ f grown, f.id = r.nextFunction ∧ r.takeFunctionId.2.insert f = .ok grown ∧
            r.register name b = (.ok r.nextFunction, grown)) := by
  unfold register
  rcases take_cases r with ⟨room, taken⟩ | ⟨full, refused⟩
  · refine Or.inr ⟨room, ?_⟩
    rw [taken]
    dsimp only
    cases built : Function.build name r.nextFunction b with
    | error e => exact Or.inl ⟨e, rfl⟩
    | ok f =>
      have number : f.id = r.nextFunction := (Function.prepared_of_prepare (Function.build_ok_iff.1 built)).2.1
      rcases insert_cases { r with nextFunction := r.nextFunction + 1 } f with ⟨_, added⟩ | ⟨full, _⟩
      · refine Or.inr ⟨f, _, number, added, ?_⟩
        simp only [Refusal.lift, Except.ok_bind, added]
      · exact (room (number ▸ full)).elim
  · rw [refused]
    exact Or.inl ⟨full, rfl⟩

/-! ### Actions -/

theorem overflow_iff : (a.run r).1 = .error .overflow ↔ lastNumber ∈ a.raised r := by
  cases a with
  | read bytes =>
    simp only [Action.run, Action.raised, Stream.readRegistry]
    cases Stream.readFunctions bytes with
    | error e => exact ⟨nofun, nofun⟩
    | ok functions =>
      simp only [Refusal.lift, Except.ok_bind, List.mem_map]
      rw [← insertAll_overflow_iff (r := .empty)]
      cases functions.foldlM Registry.insert .empty <;> simp
  | insert f =>
    simp only [Action.run, Action.raised, List.mem_singleton, eq_comm (a := lastNumber)]
    rw [← insert_overflow_iff (r := r)]
    cases r.insert f <;> simp
  | take =>
    simp only [Action.run, Action.raised, List.mem_singleton, eq_comm (a := lastNumber)]
    rcases take_cases r with ⟨room, taken⟩ | ⟨full, refused⟩
    · simp [taken, Except.map, room]
    · simp [refused, Except.map, full]
  | register name b =>
    simp only [Action.run, Action.raised, List.mem_singleton, eq_comm (a := lastNumber)]
    rcases register_cases r name b with ⟨full, refused⟩ | ⟨room, ⟨e, failed⟩ | ⟨f, grown, _, _, entered⟩⟩
    · simp [refused, Except.map, full]
    · simp [failed, Except.map, room]
    · simp [entered, Except.map, room]

theorem Fresh.apply (fresh : r.Fresh) (a : Action) : (a.apply r).Fresh := by
  cases a with
  | read bytes =>
    simp only [Action.apply, Action.run, Stream.readRegistry]
    cases Stream.readFunctions bytes with
    | error e => exact fresh
    | ok functions =>
      simp only [Refusal.lift, Except.ok_bind]
      cases started : functions.foldlM Registry.insert .empty with
      | error e => exact fresh
      | ok grown => exact fresh_empty.insertAll started
  | insert f =>
    simp only [Action.apply, Action.run]
    cases added : r.insert f with
    | error e => exact fresh
    | ok grown => exact fresh.insert added
  | take => exact fresh.take
  | register name b =>
    simp only [Action.apply, Action.run]
    rcases register_cases r name b with ⟨_, refused⟩ | ⟨_, ⟨e, failed⟩ | ⟨f, grown, _, added, entered⟩⟩
    · rw [refused]
      exact fresh
    · rw [failed]
      exact fresh.take
    · rw [entered]
      exact fresh.take.insert added

/-- A registration where the next number is fresh replaces no function. -/
theorem Fresh.keeps (fresh : r.Fresh) {name : String} {b : Buffer} {id : FunctionId} {g : Function}
    (found : r.get? id = some g) : (r.register name b).2.get? id = some g := by
  have kept : r.takeFunctionId.2.get? id = some g := by
    rcases take_cases r with ⟨_, taken⟩ | ⟨_, refused⟩
    · rw [taken]
      exact found
    · rw [refused]
      exact found
  rcases register_cases r name b with ⟨_, refused⟩ | ⟨_, ⟨e, failed⟩ | ⟨f, grown, number, added, entered⟩⟩
  · rw [refused]
    exact found
  · rw [failed]
    exact kept
  · have other : f.id ≠ id := by
      rintro rfl
      rw [number, fresh.get?_next] at found
      cases found
    rcases insert_cases r.takeFunctionId.2 f with ⟨_, grows⟩ | ⟨_, refused⟩
    · rw [grows] at added
      cases added
      rw [entered]
      exact (get?_put _ f id).trans ((if_neg other).trans kept)
    · rw [refused] at added
      cases added

/-- An action is proper just where it does not add one to the last number. -/
theorem Fresh.proper_iff (fresh : r.Fresh) : a.Proper r ↔ lastNumber ∉ a.raised r := by
  rw [← overflow_iff]
  refine ⟨fun proper => proper.exact, fun exact => ⟨exact, fresh.apply a, ?_⟩⟩
  rintro name b rfl id g found
  exact fresh.keeps found

/-! ### Runs -/

theorem Fresh.along_iff (fresh : r.Fresh) (actions : List Action) :
    Along (fun r a => a.Proper r) r actions ↔ Along (fun r a => lastNumber ∉ a.raised r) r actions := by
  induction actions generalizing r with
  | nil => exact Iff.rfl
  | cons a rest ih => exact and_congr fresh.proper_iff (ih (fresh.apply a))

/-- Whatever is done to an empty registry: no addition overflows, numbers stay fresh and registrations
replace nothing, just where no action adds one to the last number. -/
theorem actions_proper_iff (actions : List Action) :
    Along (fun r a => a.Proper r) .empty actions ↔
      Along (fun r a => lastNumber ∉ a.raised r) .empty actions :=
  fresh_empty.along_iff actions

/-- A function that does nothing. -/
def idle : Buffer := .ofContent [.ret .null] [] []

/-- A function with the last number cannot be added. -/
theorem last_not_proper :
    ∃ f, Function.build "f" lastNumber idle = .ok f ∧ ((Action.insert f).run .empty).1 = .error .overflow ∧
      ¬ Along (fun r a => a.Proper r) .empty [.insert f] := by
  have passes : ((Function.build "f" lastNumber idle).toOption.any fun f => f.id == lastNumber) = true := by
    decide +kernel
  obtain ⟨f, built, number⟩ := (Option.any_eq_true _ _).1 passes
  have overflows : ((Action.insert f).run .empty).1 = .error .overflow :=
    overflow_iff.2 (List.mem_singleton.2 (beq_iff_eq.1 number).symm)
  exact ⟨f, Except.toOption_eq_some_iff.1 built, overflows, fun proper => proper.1.exact overflows⟩

end ShaderForge.Registry
