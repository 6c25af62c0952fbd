import Mathlib.Algebra.GroupWithZero.Nat
import Mathlib.Data.Finset.Card
import ShaderForge.Proofs.Typing.Table

/-!
Marking as the least set of tasks. `Due` says which tasks arise at all; marking works off
exactly these, since its bound covers every atom that is still to be marked or visited.
-/

namespace ShaderForge.Liveness

open Buffer

/-- The tasks that arise from the roots. -/
inductive Due (b : Buffer) : Task → Prop
  | root {n : Nat} {a : Atom} (found : b.atoms[n]? = some a)
      (live : isRoot b (.ref n) a = .ok true) : Due b (.force (.ref n))
  | storage {i j : Index} (due : Due b (.forceStorage i)) (found : b.storage i = .ok j) :
      Due b (.force j)
  | force {n : Nat} {a : Atom} {t : Task} (due : Due b (.force (.ref n)))
      (found : b.atoms[n]? = some a) (member : t ∈ needs a) : Due b t
  | visit {n : Nat} {a : Atom} {t : Task} (due : Due b (.visit (.ref n)))
      (found : b.atoms[n]? = some a) (member : t ∈ leads b (.ref n) a) : Due b t

def Answers (b : Buffer) : Task → Prop
  | .force i | .visit i => i = .null ∨ ∃ a, b.get? i = some a
  | .forceStorage i => ∃ j, b.storage i = .ok j

def Accounted (b : Buffer) (r : Reached) (pending : List Task) : Task → Prop
  | .force i => i = .null ∨ i ∈ r.marked ∨ .force i ∈ pending
  | .visit i => i = .null ∨ i ∈ r.visited ∨ .visit i ∈ pending
  | .forceStorage i => .forceStorage i ∈ pending ∨
    ∃ j, b.storage i = .ok j ∧ (j = .null ∨ j ∈ r.marked ∨ .force j ∈ pending)

theorem Accounted.of_mem {b : Buffer} {r : Reached} {pending : List Task} {t : Task}
    (member : t ∈ pending) : Accounted b r pending t := by
  cases t with
  | force i | visit i => exact Or.inr (Or.inr member)
  | forceStorage i => exact Or.inl member

structure Progress (b : Buffer) (r : Reached) (pending : List Task) : Prop where
  marked : ∀ i ∈ r.marked, ∃ n a, i = .ref n ∧ b.atoms[n]? = some a ∧ Due b (.force i) ∧
    ∀ t ∈ needs a, Accounted b r pending t
  visited : ∀ i ∈ r.visited, ∃ n a, i = .ref n ∧ b.atoms[n]? = some a ∧
    ∀ t ∈ leads b i a, Accounted b r pending t
  pending : ∀ t ∈ pending, Due b t

theorem leads_needs {b : Buffer} {i : Index} {a : Atom} {t : Task} (member : t ∈ leads b i a) :
    t = .force i ∨ t ∈ needs a := by
  unfold leads at member
  split at member
  · exact Or.inl (List.mem_singleton.1 member)
  · cases a with
    | qualifier | type | call | store | ret | branch => exact Or.inl (List.mem_singleton.1 member)
    | construct ty args mode =>
      cases mode with
      | normal => exact Or.inl (List.mem_singleton.1 member)
      | transient => exact Or.inr member
    | access src loc =>
      obtain ⟨o, used, rfl⟩ := List.mem_map.1 member
      have position := (Atom.mem_operands.1 used).2
      simp only [Atom.addresses, Atom.isBranch] at position
      right
      rcases position with rfl | ⟨rfl, _⟩ <;> simp [needs]
    | intrinsic code args =>
      simp only at member
      split at member
      · exact Or.inl (List.mem_singleton.1 member)
      · exact Or.inr member
    | literal | swizzle | operation | list | load => exact Or.inr member

/-! ### One step -/

section

variable {b : Buffer} {r r' : Reached} {t x : Task} {rest more : List Task}

theorem step_cases (h : step b r t = .ok (r', more)) :
    (∃ i, t = .force i ∧ (i = .null ∨ i ∈ r.marked) ∧ r' = r ∧ more = []) ∨
    (∃ n a, t = .force (.ref n) ∧ .ref n ∉ r.marked ∧ b.atoms[n]? = some a ∧
      r' = ⟨r.marked.insert (.ref n), r.visited.insert (.ref n)⟩ ∧ more = needs a) ∨
    (∃ i j, t = .forceStorage i ∧ b.storage i = .ok j ∧ r' = r ∧ more = [.force j]) ∨
    (∃ i, t = .visit i ∧ (i = .null ∨ i ∈ r.visited) ∧ r' = r ∧ more = []) ∨
    ∃ n a, t = .visit (.ref n) ∧ .ref n ∉ r.visited ∧ b.atoms[n]? = some a ∧
      r' = { r with visited := r.visited.insert (.ref n) } ∧ more = leads b (.ref n) a := by
  unfold step at h
  cases t with
  | force i =>
    simp only at h
    split at h
    · rename_i done
      cases h
      left
      refine ⟨i, rfl, ?_, rfl, rfl⟩
      rw [Bool.or_eq_true, Std.ExtTreeSet.contains_iff_mem] at done
      cases i with
      | null => exact Or.inl rfl
      | ref n => simpa [Index.isNull] using done
    · rename_i fresh
      obtain ⟨a, found, h⟩ := Except.bind_ok h
      cases h
      rw [atom_ok_iff] at found
      right; left
      cases i with
      | null => cases found
      | ref n => exact ⟨n, a, rfl, by simpa [Index.isNull] using fresh, found, rfl, rfl⟩
  | forceStorage i =>
    obtain ⟨j, found, h⟩ := Except.bind_ok h
    cases h
    right; right; left
    exact ⟨i, j, rfl, found, rfl, rfl⟩
  | visit i =>
    simp only at h
    split at h
    · rename_i done
      cases h
      right; right; right; left
      refine ⟨i, rfl, ?_, rfl, rfl⟩
      rw [Bool.or_eq_true, Std.ExtTreeSet.contains_iff_mem] at done
      cases i with
      | null => exact Or.inl rfl
      | ref n => simpa [Index.isNull] using done
    · rename_i fresh
      obtain ⟨a, found, h⟩ := Except.bind_ok h
      cases h
      rw [atom_ok_iff] at found
      right; right; right; right
      cases i with
      | null => cases found
      | ref n => exact ⟨n, a, rfl, by simpa [Index.isNull] using fresh, found, rfl, rfl⟩

theorem step_answers (answers : Answers b t) : ∃ r' more, step b r t = .ok (r', more) := by
  unfold step
  cases t with
  | force i =>
    simp only
    split
    · exact ⟨r, [], rfl⟩
    · rename_i fresh
      rcases answers with rfl | ⟨a, found⟩
      · simp [Index.isNull] at fresh
      · rw [atom_ok_iff.2 found]
        exact ⟨_, _, rfl⟩
  | forceStorage i =>
    obtain ⟨j, found⟩ := answers
    simp only [found]
    exact ⟨r, [.force j], rfl⟩
  | visit i =>
    simp only
    split
    · exact ⟨r, [], rfl⟩
    · rename_i fresh
      rcases answers with rfl | ⟨a, found⟩
      · simp [Index.isNull] at fresh
      · rw [atom_ok_iff.2 found]
        exact ⟨_, _, rfl⟩

theorem mem_insert_index {set : IndexSet} {i j : Index} : j ∈ set.insert i ↔ i = j ∨ j ∈ set := by
  rw [Std.ExtTreeSet.mem_insert, Index.compare_eq_eq]

/-- The first task is done by a step, and nothing that was accounted for is lost. -/
theorem step_accounted (h : step b r t = .ok (r', more)) (before : Accounted b r (t :: rest) x) :
    Accounted b r' (more ++ rest) x := by
  have kept : (∀ i ∈ r.marked, i ∈ r'.marked) ∧ ∀ i ∈ r.visited, i ∈ r'.visited := by
    rcases step_cases h with ⟨_, _, _, rfl, _⟩ | ⟨_, _, _, _, _, rfl, _⟩ | ⟨_, _, _, _, rfl, _⟩ |
      ⟨_, _, _, rfl, _⟩ | ⟨_, _, _, _, _, rfl, _⟩
    · exact ⟨fun _ m => m, fun _ m => m⟩
    · exact ⟨fun _ m => mem_insert_index.2 (Or.inr m), fun _ m => mem_insert_index.2 (Or.inr m)⟩
    · exact ⟨fun _ m => m, fun _ m => m⟩
    · exact ⟨fun _ m => m, fun _ m => m⟩
    · exact ⟨fun _ m => m, fun _ m => mem_insert_index.2 (Or.inr m)⟩
  have forced : ∀ i, (i = .null ∨ i ∈ r.marked ∨ .force i ∈ t :: rest) →
      i = .null ∨ i ∈ r'.marked ∨ .force i ∈ more ++ rest := by
    rintro i (rfl | old | pending)
    · exact Or.inl rfl
    · exact Or.inr (Or.inl (kept.1 i old))
    · rcases List.mem_cons.1 pending with rfl | later
      · rcases step_cases h with ⟨_, same, done, rfl, _⟩ | ⟨_, _, same, _, _, rfl, _⟩ |
          ⟨_, _, same, _⟩ | ⟨_, same, _⟩ | ⟨_, _, same, _⟩
        · cases same
          rcases done with rfl | done
          · exact Or.inl rfl
          · exact Or.inr (Or.inl done)
        · cases same
          exact Or.inr (Or.inl (mem_insert_index.2 (Or.inl rfl)))
        all_goals cases same
      · exact Or.inr (Or.inr (List.mem_append_right _ later))
  cases x with
  | force i => exact forced i before
  | visit i =>
    rcases before with rfl | old | pending
    · exact Or.inl rfl
    · exact Or.inr (Or.inl (kept.2 i old))
    · rcases List.mem_cons.1 pending with rfl | later
      · rcases step_cases h with ⟨_, same, _⟩ | ⟨_, _, same, _⟩ | ⟨_, _, same, _⟩ |
          ⟨_, same, done, rfl, _⟩ | ⟨_, _, same, _, _, rfl, _⟩
        · cases same
        · cases same
        · cases same
        · cases same
          rcases done with rfl | done
          · exact Or.inl rfl
          · exact Or.inr (Or.inl done)
        · cases same
          exact Or.inr (Or.inl (mem_insert_index.2 (Or.inl rfl)))
      · exact Or.inr (Or.inr (List.mem_append_right _ later))
  | forceStorage i =>
    rcases before with pending | ⟨j, found, old⟩
    · rcases List.mem_cons.1 pending with rfl | later
      · rcases step_cases h with ⟨_, same, _⟩ | ⟨_, _, same, _⟩ | ⟨_, j, same, found, _, rfl⟩ |
          ⟨_, same, _⟩ | ⟨_, _, same, _⟩
        · cases same
        · cases same
        · cases same
          exact Or.inr ⟨j, found, Or.inr (Or.inr (List.mem_append_left _ (List.mem_singleton.2 rfl)))⟩
        · cases same
        · cases same
      · exact Or.inl (List.mem_append_right _ later)
    · exact Or.inr ⟨j, found, forced j old⟩

theorem Progress.step (progress : Progress b r (t :: rest)) (h : step b r t = .ok (r', more)) :
    Progress b r' (more ++ rest) := by
  have due : Due b t := progress.pending t List.mem_cons_self
  have later : ∀ x ∈ rest, Due b x := fun x member => progress.pending x (List.mem_cons_of_mem _ member)
  have marked : ∀ i ∈ r.marked, ∃ n a, i = .ref n ∧ b.atoms[n]? = some a ∧ Due b (.force i) ∧
      ∀ t ∈ needs a, Accounted b r' (more ++ rest) t := by
    intro i member
    obtain ⟨n, a, same, found, due, all⟩ := progress.marked i member
    exact ⟨n, a, same, found, due, fun x need => step_accounted h (all x need)⟩
  have visited : ∀ i ∈ r.visited, ∃ n a, i = .ref n ∧ b.atoms[n]? = some a ∧
      ∀ t ∈ leads b i a, Accounted b r' (more ++ rest) t := by
    intro i member
    obtain ⟨n, a, same, found, all⟩ := progress.visited i member
    exact ⟨n, a, same, found, fun x lead => step_accounted h (all x lead)⟩
  rcases step_cases h with ⟨_, _, _, rfl, rfl⟩ | ⟨n, a, rfl, _, found, rfl, rfl⟩ |
    ⟨_, j, rfl, found, rfl, rfl⟩ | ⟨_, _, _, rfl, rfl⟩ | ⟨n, a, rfl, _, found, rfl, rfl⟩
  · exact ⟨marked, visited, later⟩
  · refine ⟨?_, ?_, ?_⟩
    · intro i member
      rcases mem_insert_index.1 member with rfl | old
      · exact ⟨n, a, rfl, found, due, fun x need => .of_mem (List.mem_append_left _ need)⟩
      · exact marked i old
    · intro i member
      rcases mem_insert_index.1 member with rfl | old
      · refine ⟨n, a, rfl, found, fun x lead => ?_⟩
        rcases leads_needs lead with rfl | need
        · exact Or.inr (Or.inl (mem_insert_index.2 (Or.inl rfl)))
        · exact .of_mem (List.mem_append_left _ need)
      · exact visited i old
    · intro x member
      rcases List.mem_append.1 member with need | old
      · exact .force due found need
      · exact later x old
  · refine ⟨marked, visited, ?_⟩
    intro x member
    rcases List.mem_cons.1 member with rfl | old
    · exact .storage due found
    · exact later x old
  · exact ⟨marked, visited, later⟩
  · refine ⟨marked, ?_, ?_⟩
    · intro i member
      rcases mem_insert_index.1 member with rfl | old
      · exact ⟨n, a, rfl, found, fun x lead => .of_mem (List.mem_append_left _ lead)⟩
      · exact visited i old
    · intro x member
      rcases List.mem_append.1 member with lead | old
      · exact .visit due found lead
      · exact later x old

end

/-! ### The bound -/

def weight : Task → Nat
  | .forceStorage _ => 2
  | .force _ | .visit _ => 1

def left (b : Buffer) (done : IndexSet) : Nat :=
  ((Finset.range b.size).filter fun n => Index.ref n ∉ done).card

def potential (b : Buffer) (r : Reached) (pending : List Task) : Nat :=
  (pending.map weight).sum + 4 * left b r.marked + 2 * left b r.visited

section

variable {b : Buffer} {r r' : Reached} {t : Task} {rest more pending : List Task}

theorem left_insert_le (done : IndexSet) (i : Index) : left b (done.insert i) ≤ left b done := by
  apply Finset.card_le_card
  intro n member
  rw [Finset.mem_filter] at member ⊢
  exact ⟨member.1, fun old => member.2 (mem_insert_index.2 (Or.inr old))⟩

theorem left_insert_lt {done : IndexSet} {n : Nat} (inside : n < b.size) (fresh : .ref n ∉ done) :
    left b (done.insert (.ref n)) + 1 ≤ left b done := by
  apply Finset.card_lt_card
  rw [Finset.ssubset_iff_of_subset]
  · refine ⟨n, Finset.mem_filter.2 ⟨Finset.mem_range.2 inside, fresh⟩, ?_⟩
    intro member
    exact (Finset.mem_filter.1 member).2 (mem_insert_index.2 (Or.inl rfl))
  · intro m member
    rw [Finset.mem_filter] at member ⊢
    exact ⟨member.1, fun old => member.2 (mem_insert_index.2 (Or.inr old))⟩

theorem left_le_size (done : IndexSet) : left b done ≤ b.size := by
  have := Finset.card_filter_le (Finset.range b.size) fun n => Index.ref n ∉ done
  rwa [Finset.card_range] at this

theorem operands_length_le (a : Atom) : a.operands.length ≤ 2 := by
  unfold Atom.operands
  exact List.length_filter_le _ _

theorem weight_visits (items : List Index) : ((items.map Task.visit).map weight).sum = items.length := by
  induction items with
  | nil => rfl
  | cons i rest ih => simp_all [weight]; omega

theorem weight_needs (a : Atom) : ((needs a).map weight).sum ≤ 4 := by
  have visits := weight_visits a.operands
  have short := operands_length_le a
  cases a with
  | qualifier | type | construct | call | store | access => simp [needs, weight]
  | _ => exact visits.le.trans (short.trans (by omega))

theorem weight_leads (i : Index) (a : Atom) : ((leads b i a).map weight).sum ≤ 2 := by
  have visits := weight_visits a.operands
  have short := operands_length_le a
  unfold leads
  split
  · simp [weight]
  · split
    all_goals try simp [weight]
    split
    · simp [weight]
    · rw [visits]
      exact short

theorem step_potential (h : step b r t = .ok (r', more)) :
    potential b r' (more ++ rest) + 1 ≤ potential b r (t :: rest) := by
  unfold potential
  rw [List.map_append, List.sum_append, List.map_cons, List.sum_cons]
  rcases step_cases h with ⟨_, rfl, _, rfl, rfl⟩ | ⟨n, a, rfl, fresh, found, rfl, rfl⟩ |
    ⟨_, _, rfl, _, rfl, rfl⟩ | ⟨_, rfl, _, rfl, rfl⟩ | ⟨n, a, rfl, fresh, found, rfl, rfl⟩
  · simp only [weight, List.map_nil, List.sum_nil]
    omega
  · have inside : n < b.size := (Array.getElem?_eq_some_iff.1 found).1
    have marks := left_insert_lt inside fresh
    have visits := left_insert_le (b := b) r.visited (.ref n)
    have cost := weight_needs a
    simp only [weight]
    omega
  · simp only [weight, List.map_cons, List.map_nil, List.sum_cons, List.sum_nil]
    omega
  · simp only [weight, List.map_nil, List.sum_nil]
    omega
  · have inside : n < b.size := (Array.getElem?_eq_some_iff.1 found).1
    have visits := left_insert_lt inside fresh
    have cost := weight_leads (b := b) (.ref n) a
    simp only [weight]
    omega

/-- With enough fuel nothing is left pending, and nothing that was accounted for is lost. -/
theorem Progress.run {fuel : Nat} (progress : Progress b r pending)
    (enough : potential b r pending ≤ fuel) (h : run b fuel r pending = .ok r') :
    Progress b r' [] ∧ ∀ x, Accounted b r pending x → Accounted b r' [] x := by
  induction fuel generalizing r pending with
  | zero =>
    cases pending with
    | nil => cases h; exact ⟨progress, fun _ done => done⟩
    | cons t rest =>
      have positive : 1 ≤ weight t := by cases t <;> simp [weight]
      unfold potential at enough
      simp only [List.map_cons, List.sum_cons] at enough
      omega
  | succ fuel ih =>
    cases pending with
    | nil => cases h; exact ⟨progress, fun _ done => done⟩
    | cons t rest =>
      rw [Liveness.run] at h
      obtain ⟨⟨r₁, more⟩, first, h⟩ := Except.bind_ok h
      have drop : potential b r₁ (more ++ rest) + 1 ≤ potential b r (t :: rest) := step_potential first
      obtain ⟨done, kept⟩ := ih (progress.step first) (by omega) h
      exact ⟨done, fun x before => kept x (step_accounted first before)⟩

theorem Progress.run_succeeds {fuel : Nat} (answers : ∀ t, Due b t → Answers b t)
    (progress : Progress b r pending) : ∃ r', Liveness.run b fuel r pending = .ok r' := by
  induction fuel generalizing r pending with
  | zero => exact ⟨r, by cases pending <;> rfl⟩
  | succ fuel ih =>
    cases pending with
    | nil => exact ⟨r, rfl⟩
    | cons t rest =>
      have due := progress.pending t List.mem_cons_self
      obtain ⟨r₁, more, first⟩ := step_answers (r := r) (answers t due)
      obtain ⟨r', later⟩ := ih (progress.step first)
      exact ⟨r', by rw [Liveness.run, first]; exact later⟩

/-! ### Marking -/

theorem Progress.start {n : Nat} {a : Atom} (progress : Progress b r [])
    (found : b.atoms[n]? = some a) (live : isRoot b (.ref n) a = .ok true) :
    Progress b r [.force (.ref n)] := by
  have wider : ∀ x, Accounted b r [] x → Accounted b r [.force (.ref n)] x := by
    intro x before
    cases x with
    | force i | visit i =>
      rcases before with rfl | done | member
      · exact Or.inl rfl
      · exact Or.inr (Or.inl done)
      · cases member
    | forceStorage i =>
      rcases before with member | ⟨j, found, rfl | done | member⟩
      · cases member
      · exact Or.inr ⟨.null, found, Or.inl rfl⟩
      · exact Or.inr ⟨j, found, Or.inr (Or.inl done)⟩
      · cases member
  refine ⟨?_, ?_, ?_⟩
  · intro i member
    obtain ⟨m, a', same, found', due, all⟩ := progress.marked i member
    exact ⟨m, a', same, found', due, fun t need => wider t (all t need)⟩
  · intro i member
    obtain ⟨m, a', same, found', all⟩ := progress.visited i member
    exact ⟨m, a', same, found', fun t lead => wider t (all t lead)⟩
  · intro t member
    rw [List.mem_singleton] at member
    subst member
    exact .root found live

theorem Progress.enough (r : Reached) (n : Nat) : potential b r [.force (.ref n)] ≤ fuel b := by
  have marks := left_le_size (b := b) r.marked
  have visits := left_le_size (b := b) r.visited
  unfold potential fuel
  simp only [weight, List.map_cons, List.map_nil, List.sum_cons, List.sum_nil]
  omega

theorem progress_fresh : Progress b {} [] := by
  refine ⟨?_, ?_, ?_⟩
  · intro i member
    exact (Std.ExtTreeSet.not_mem_empty member).elim
  · intro i member
    exact (Std.ExtTreeSet.not_mem_empty member).elim
  · intro t member
    cases member

end

/-- What marking has found: exactly the tasks that arise, each of which can be done. -/
structure Marks (b : Buffer) (marked : IndexSet) : Prop where
  mem_iff : ∀ n, .ref n ∈ marked ↔ Due b (.force (.ref n))
  present : ∀ i ∈ marked, ∃ n, i = .ref n ∧ n < b.size
  answers : ∀ t, Due b t → Answers b t
  decided : ∀ (n : Nat) (a : Atom), b.atoms[n]? = some a → ∃ live, isRoot b (.ref n) a = .ok live

theorem isRoot_of_effect {b : Buffer} {i : Index} {a : Atom} (effect : a.isSideEffect = true) :
    isRoot b i a = .ok true := by
  unfold isRoot isAnchored
  split
  · rfl
  · cases a with
    | qualifier | construct => cases effect
    | _ => exact congrArg Except.ok effect

theorem isRoot_parameter {b : Buffer} {i underlying : Index} {number : Int32} :
    isRoot b i (.qualifier underlying .parameter number) = .ok true := by
  unfold isRoot isAnchored
  split <;> rfl

theorem Marks.of_root {b : Buffer} {marked : IndexSet} (marks : Marks b marked) {n : Nat} {a : Atom}
    (found : b.atoms[n]? = some a) (live : isRoot b (.ref n) a = .ok true) : .ref n ∈ marked :=
  (marks.mem_iff n).2 (.root found live)

theorem accounted_of_due {b : Buffer} {r : Reached} (progress : Progress b r [])
    (roots : ∀ (n : Nat) (a : Atom), b.atoms[n]? = some a → isRoot b (.ref n) a = .ok true →
      .ref n ∈ r.marked) {t : Task} (due : Due b t) : Accounted b r [] t := by
  induction due with
  | root found live => exact Or.inr (Or.inl (roots _ _ found live))
  | @storage i j due found ih =>
    rcases ih with member | ⟨j', found', done⟩
    · cases member
    · rw [found, Except.ok.injEq] at found'
      subst found'
      exact done
  | @force n a t due found member ih =>
    rcases ih with absent | done | pending
    · cases absent
    · obtain ⟨m, a', same, found', _, all⟩ := progress.marked _ done
      cases same
      rw [found, Option.some.injEq] at found'
      subst found'
      exact all t member
    · cases pending
  | @visit n a t due found member ih =>
    rcases ih with absent | done | pending
    · cases absent
    · obtain ⟨m, a', same, found', all⟩ := progress.visited _ done
      cases same
      rw [found, Option.some.injEq] at found'
      subst found'
      exact all t member
    · cases pending

theorem Progress.answers {b : Buffer} {r : Reached} {t : Task} (progress : Progress b r [])
    (accounted : Accounted b r [] t) : Answers b t := by
  cases t with
  | force i =>
    rcases accounted with rfl | done | pending
    · exact Or.inl rfl
    · obtain ⟨n, a, rfl, found, _⟩ := progress.marked i done
      exact Or.inr ⟨a, found⟩
    · cases pending
  | visit i =>
    rcases accounted with rfl | done | pending
    · exact Or.inl rfl
    · obtain ⟨n, a, rfl, found, _⟩ := progress.visited i done
      exact Or.inr ⟨a, found⟩
    · cases pending
  | forceStorage i =>
    rcases accounted with pending | ⟨j, found, _⟩
    · cases pending
    · exact ⟨j, found⟩

/-- Marking from the roots among some atoms, one after the other. -/
def walk (b : Buffer) (order : List (Index × Atom)) (r : Reached) : Except Fault Reached :=
  order.foldlM (fun r (i, a) => do if ← isRoot b i a then root b r i else return r) r

section

variable {b : Buffer} {order : List (Index × Atom)}

theorem walk_cons (i : Index) (a : Atom) (r : Reached) :
    walk b ((i, a) :: order) r = isRoot b i a >>= fun live =>
      (if live then root b r i else return r) >>= walk b order := by
  simp only [walk, List.foldlM_cons, bind_assoc]
  rfl

theorem walk_progress (inside : ∀ p ∈ order, p ∈ b.indexed) {r r' : Reached}
    (progress : Progress b r []) (h : walk b order r = .ok r') :
    Progress b r' [] ∧ (∀ i ∈ r.marked, i ∈ r'.marked) ∧
      ∀ p ∈ order, ∃ live, isRoot b p.1 p.2 = .ok live ∧ (live = true → p.1 ∈ r'.marked) := by
  induction order generalizing r with
  | nil =>
    cases h
    exact ⟨progress, fun _ member => member, fun p member => nomatch member⟩
  | cons p rest ih =>
    obtain ⟨i, a⟩ := p
    obtain ⟨n, rfl, found⟩ := mem_indexed.1 (inside _ List.mem_cons_self)
    have later := fun p member => inside p (List.mem_cons_of_mem _ member)
    rw [walk_cons] at h
    obtain ⟨live, decided, h⟩ := Except.bind_ok h
    obtain ⟨r₁, first, h⟩ := Except.bind_ok h
    obtain ⟨progress₁, kept, marked⟩ : Progress b r₁ [] ∧ (∀ i ∈ r.marked, i ∈ r₁.marked) ∧
        (live = true → .ref n ∈ r₁.marked) := by
      cases live with
      | false =>
        cases first
        exact ⟨progress, fun _ member => member, fun no => nomatch no⟩
      | true =>
        obtain ⟨done, kept⟩ := (progress.start found decided).run (Progress.enough r n) first
        have marked : ∀ k, Accounted b r [.force (.ref n)] (.force (.ref k)) → .ref k ∈ r₁.marked := by
          intro k before
          rcases kept _ before with absent | done | pending
          · cases absent
          · exact done
          · cases pending
        refine ⟨done, fun i member => ?_, fun _ => marked n (.of_mem List.mem_cons_self)⟩
        obtain ⟨k, _, rfl, _⟩ := progress.marked i member
        exact marked k (Or.inr (Or.inl member))
    obtain ⟨progress', kept', roots⟩ := ih later progress₁ h
    refine ⟨progress', fun i member => kept' i (kept i member), fun p member => ?_⟩
    rcases List.mem_cons.1 member with rfl | other
    · exact ⟨live, decided, fun yes => kept' _ (marked yes)⟩
    · exact roots p other

/-- A walk over all atoms, in any order, marks exactly what is due. -/
theorem marks_of_walk (same : ∀ p, p ∈ order ↔ p ∈ b.indexed) {r : Reached}
    (h : walk b order {} = .ok r) : Marks b r.marked := by
  obtain ⟨progress, _, roots⟩ := walk_progress (fun p => (same p).1) progress_fresh h
  have decided : ∀ (n : Nat) (a : Atom), b.atoms[n]? = some a →
      ∃ live, isRoot b (.ref n) a = .ok live ∧ (live = true → .ref n ∈ r.marked) :=
    fun n a found => roots (.ref n, a) ((same _).2 (mem_indexed.2 ⟨n, rfl, found⟩))
  have rooted : ∀ (n : Nat) (a : Atom), b.atoms[n]? = some a → isRoot b (.ref n) a = .ok true →
      .ref n ∈ r.marked := by
    intro n a found live
    obtain ⟨live', decides, member⟩ := decided n a found
    rw [live, Except.ok.injEq] at decides
    exact member decides.symm
  refine ⟨?_, ?_, ?_, ?_⟩
  · intro n
    constructor
    · intro member
      obtain ⟨_, _, _, _, due, _⟩ := progress.marked _ member
      exact due
    · intro due
      rcases accounted_of_due progress rooted due with absent | done | pending
      · cases absent
      · exact done
      · cases pending
  · intro i member
    obtain ⟨n, a, same, found, _⟩ := progress.marked i member
    exact ⟨n, same, (Array.getElem?_eq_some_iff.1 found).1⟩
  · intro t due
    exact progress.answers (accounted_of_due progress rooted due)
  · intro n a found
    obtain ⟨live, decides, _⟩ := decided n a found
    exact ⟨live, decides⟩

theorem mark_ok_iff {marked : IndexSet} :
    mark b = .ok marked ↔ ∃ r, walk b b.indexed {} = .ok r ∧ r.marked = marked := by
  unfold mark
  constructor
  · intro h
    obtain ⟨r, walked, h⟩ := Except.bind_ok h
    exact ⟨r, walked, Except.ok.inj h⟩
  · rintro ⟨r, walked, rfl⟩
    exact congrArg (fun (walk : Except Fault Reached) => walk >>= fun r => pure r.marked) walked

theorem marks_of_mark {marked : IndexSet} (h : mark b = .ok marked) : Marks b marked := by
  obtain ⟨r, walked, rfl⟩ := mark_ok_iff.1 h
  exact marks_of_walk (fun _ => Iff.rfl) walked

theorem walk_of_answers (answers : ∀ t, Due b t → Answers b t)
    (decided : ∀ (n : Nat) (a : Atom), b.atoms[n]? = some a → ∃ live, isRoot b (.ref n) a = .ok live)
    (inside : ∀ p ∈ order, p ∈ b.indexed) {r : Reached} (progress : Progress b r []) :
    ∃ r', walk b order r = .ok r' := by
  induction order generalizing r with
  | nil => exact ⟨r, rfl⟩
  | cons p rest ih =>
    obtain ⟨i, a⟩ := p
    obtain ⟨n, rfl, found⟩ := mem_indexed.1 (inside _ List.mem_cons_self)
    obtain ⟨live, decides⟩ := decided n a found
    have later := fun p member => inside p (List.mem_cons_of_mem _ member)
    rw [walk_cons, decides, Except.ok_bind]
    cases live with
    | false => exact ih later progress
    | true =>
      have begun := progress.start found decides
      obtain ⟨r₁, first⟩ : ∃ r₁, root b r (.ref n) = .ok r₁ := begun.run_succeeds answers
      obtain ⟨r', rest⟩ := ih later (begun.run (Progress.enough r n) first).1
      refine ⟨r', ?_⟩
      rw [if_pos rfl, first, Except.ok_bind, rest]

theorem mark_of_answers (answers : ∀ t, Due b t → Answers b t)
    (decided : ∀ (n : Nat) (a : Atom), b.atoms[n]? = some a → ∃ live, isRoot b (.ref n) a = .ok live) :
    ∃ marked, mark b = .ok marked := by
  obtain ⟨r, walked⟩ := walk_of_answers answers decided (fun _ member => member) progress_fresh
  exact ⟨r.marked, mark_ok_iff.2 ⟨r, walked, rfl⟩⟩

end

end ShaderForge.Liveness
