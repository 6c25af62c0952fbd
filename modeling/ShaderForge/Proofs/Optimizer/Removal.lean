import ShaderForge.Optimizer.DeadCode
import ShaderForge.Proofs.Optimizer.Compaction

/-!
Dead code elimination folds a buffer. What is left is closed under use and stands in its old order;
what is removed goes nowhere.
-/

namespace ShaderForge.Optimizer

open Buffer

variable {b c : Buffer}

/-! ### The worklist -/

theorem mem_uses {i j : Index} : j ∈ uses b i ↔
    ∃ a, b.get? i = some a ∧ (j = a.addresses.1 ∨ j = a.addresses.2) ∧ ∃ a', b.get? j = some a' := by
  unfold uses
  cases b.get? i with
  | none => simp
  | some a => simp [List.mem_filter, Option.isSome_iff_exists]

theorem Users.mem_insert {users : Users} {left : IndexSet} {i j k : Index} :
    i ∈ Users.of (users.insert k left) j ↔ if j = k then i ∈ left else i ∈ users.of j := by
  unfold Users.of
  rw [Std.ExtTreeMap.getElem?_insert]
  simp only [Index.compare_eq_eq, eq_comm (a := k)]
  split <;> rfl

theorem Users.mem_add {users : Users} {i j k l : Index} :
    i ∈ (users.add k j).of l ↔ i ∈ users.of l ∨ i = k ∧ l = j := by
  rw [add, mem_insert]
  split
  · rename_i same
    subst same
    rw [Std.ExtTreeSet.mem_insert, Index.compare_eq_eq, eq_comm, or_comm]
    simp
  · rename_i other
    simp [other]

namespace Sweep

variable {safe : IndexSet} {user : Index}

theorem mem_release {s : Sweep} {j k l : Index} :
    k ∈ (s.release safe user j).users.of l ↔ k ∈ s.users.of l ∧ ¬ (k = user ∧ l = j) := by
  rw [release, Users.mem_insert, Std.ExtTreeSet.mem_erase, ne_eq, Index.compare_eq_eq]
  by_cases here : l = j
  · simp [here, eq_comm, and_comm]
  · simp [here]

theorem mem_release_due {s : Sweep} {j l : Index} : l ∈ (s.release safe user j).due ↔
    l ∈ s.due ∨ l = j ∧ l ∉ safe ∧ l ∈ s.alive ∧ ∀ k ∈ s.users.of l, k = user := by
  have left : ((s.users.of j).erase user).isEmpty = true ↔ ∀ k ∈ s.users.of j, k = user := by
    rw [Std.ExtTreeSet.isEmpty_iff, Std.ExtTreeSet.eq_empty_iff_forall_not_mem]
    simp only [Std.ExtTreeSet.mem_erase, ne_eq, Index.compare_eq_eq]
    grind
  have idle : ((((s.users.of j).erase user).isEmpty && !safe.contains j && s.alive.contains j) = true) ↔
      j ∉ safe ∧ j ∈ s.alive ∧ ∀ k ∈ s.users.of j, k = user := by
    rw [Bool.and_eq_true, Bool.and_eq_true, left, Bool.not_eq_true', ← Bool.not_eq_true,
      Std.ExtTreeSet.contains_iff_mem, Std.ExtTreeSet.contains_iff_mem]
    tauto
  unfold release
  simp only [idle]
  grind

theorem foldl_release (safe : IndexSet) (user : Index) (items : List Index) (s : Sweep) :
    (∀ k l, k ∈ (items.foldl (release safe user) s).users.of l ↔ k ∈ s.users.of l ∧ ¬ (k = user ∧ l ∈ items)) ∧
      ∀ l, l ∈ (items.foldl (release safe user) s).due ↔
        l ∈ s.due ∨ l ∈ items ∧ l ∉ safe ∧ l ∈ s.alive ∧ ∀ k ∈ s.users.of l, k = user := by
  induction items generalizing s with
  | nil => simp
  | cons j rest ih =>
    obtain ⟨users, due⟩ := ih (s.release safe user j)
    have same : (s.release safe user j).alive = s.alive := rfl
    refine ⟨fun k l => ?_, fun l => ?_⟩
    · rw [List.foldl_cons, users, mem_release, List.mem_cons]
      tauto
    · rw [List.foldl_cons, due, mem_release_due, List.mem_cons, same]
      simp only [mem_release]
      grind

structure Steady (b : Buffer) (safe : IndexSet) (s : Sweep) : Prop where
  present : ∀ i ∈ s.alive, ∃ a, b.get? i = some a
  exempt : ∀ i a, b.get? i = some a → i ∈ safe → i ∈ s.alive
  closed : ∀ i ∈ s.alive, ∀ j ∈ uses b i, j ∈ s.alive
  users : ∀ i j, i ∈ s.users.of j ↔ i ∈ s.alive ∧ j ∈ uses b i
  due : ∀ j ∈ s.due, j ∉ safe ∧ ∀ i, i ∉ s.users.of j
  needed : ∀ j ∈ s.alive, j ∈ safe ∨ j ∈ s.due ∨ ∃ i, i ∈ s.users.of j

variable {users : Users} {alive : IndexSet} {i : Index} {due : List Index}

/-- An atom that is due has no user, so removing it leaves the uses of the others alone. -/
theorem Steady.remove (steady : Steady b safe ⟨users, alive, i :: due⟩) :
    Steady b safe (remove b safe ⟨users, alive, due⟩ i) := by
  have same := (foldl_release_le safe i (uses b i) ⟨users, alive.erase i, due⟩).1
  obtain ⟨mem_users, mem_due⟩ := foldl_release safe i (uses b i) ⟨users, alive.erase i, due⟩
  obtain ⟨free, unused⟩ := steady.due i List.mem_cons_self
  have mem_alive : ∀ {k}, k ∈ (Sweep.remove b safe ⟨users, alive, due⟩ i).alive ↔ k ≠ i ∧ k ∈ alive := by
    intro k
    unfold Sweep.remove
    rw [same, Std.ExtTreeSet.mem_erase, ne_eq, Index.compare_eq_eq, eq_comm]
  refine ⟨fun k member => ?_, fun k a found marked => ?_, fun k member j used => ?_, fun k j => ?_,
    fun j waits => ?_, fun j member => ?_⟩
  · exact steady.present k (mem_alive.1 member).2
  · refine mem_alive.2 ⟨?_, steady.exempt k a found marked⟩
    rintro rfl
    exact free marked
  · have before := (mem_alive.1 member).2
    refine mem_alive.2 ⟨?_, steady.closed k before j used⟩
    rintro rfl
    exact unused k ((steady.users k j).2 ⟨before, used⟩)
  · rw [mem_alive, show k ∈ (Sweep.remove b safe ⟨users, alive, due⟩ i).users.of j ↔ _ from mem_users k j,
      steady.users k j]
    grind
  · rcases (mem_due j).1 waits with before | ⟨used, free, _, alone⟩
    · obtain ⟨free, none⟩ := steady.due j (List.mem_cons_of_mem _ before)
      exact ⟨free, fun k user => none k ((mem_users k j).1 user).1⟩
    · refine ⟨free, fun k user => ?_⟩
      obtain ⟨user, other⟩ := (mem_users k j).1 user
      exact other ⟨alone k user, used⟩
  · obtain ⟨other, before⟩ := mem_alive.1 member
    rcases steady.needed j before with marked | waits | ⟨k, user⟩
    · exact Or.inl marked
    · exact Or.inr (Or.inl ((mem_due j).2 (Or.inl ((List.mem_cons.1 waits).resolve_left other))))
    · by_cases marked : j ∈ safe
      · exact Or.inl marked
      right
      -- the removed atom was the last user, or another one is left
      by_cases alone : ∀ k ∈ users.of j, k = i
      · left
        have used := ((steady.users k j).1 user).2
        rw [alone k user] at used
        have left := Std.ExtTreeSet.mem_erase.2 ⟨mt Index.compare_eq_eq.1 (Ne.symm other), before⟩
        exact (mem_due j).2 (Or.inr ⟨used, marked, left, alone⟩)
      · right
        simp only [not_forall] at alone
        obtain ⟨l, user, apart⟩ := alone
        exact ⟨l, (mem_users l j).2 ⟨user, fun gone => apart gone.1⟩⟩

theorem Steady.skip (steady : Steady b safe ⟨users, alive, i :: due⟩) (gone : i ∉ alive) :
    Steady b safe ⟨users, alive, due⟩ := by
  refine ⟨steady.present, steady.exempt, steady.closed, steady.users,
    fun j waits => steady.due j (List.mem_cons_of_mem _ waits), fun j member => ?_⟩
  refine (steady.needed j member).imp_right (Or.imp_left fun waits => (List.mem_cons.1 waits).resolve_left ?_)
  rintro rfl
  exact gone member

end Sweep

/-! ### What is left -/

/-- What the worklist leaves: atoms, with what they use, everything exempt, and nothing else that is
not used. -/
structure Surviving (b : Buffer) (safe alive : IndexSet) : Prop where
  present : ∀ i ∈ alive, ∃ a, b.get? i = some a
  exempt : ∀ i a, b.get? i = some a → i ∈ safe → i ∈ alive
  closed : ∀ i ∈ alive, ∀ j ∈ uses b i, j ∈ alive
  needed : ∀ j ∈ alive, j ∈ safe ∨ ∃ i ∈ alive, j ∈ uses b i

theorem Sweep.Steady.run {safe : IndexSet} {s : Sweep} (steady : Steady b safe s) :
    Surviving b safe (s.run b safe) := by
  fun_induction Sweep.run b safe s with
  | case1 users alive =>
    refine ⟨steady.present, steady.exempt, steady.closed, fun j member => ?_⟩
    rcases steady.needed j member with marked | waits | ⟨i, user⟩
    · exact Or.inl marked
    · cases waits
    · exact Or.inr ⟨i, (steady.users i j).1 user⟩
  | case2 users alive i due there ih => exact ih steady.remove
  | case3 users alive i due gone ih => exact ih (steady.skip (mt Std.ExtTreeSet.contains_iff_mem.2 gone))

theorem mem_all {i : Index} :
    i ∈ (Std.ExtTreeSet.ofList (b.indexed.map Prod.fst) : IndexSet) ↔ ∃ a, b.get? i = some a := by
  rw [Std.ExtTreeSet.mem_ofList, List.contains_iff_mem, List.mem_map]
  constructor
  · rintro ⟨⟨i', a⟩, inside, rfl⟩
    obtain ⟨n, rfl, there⟩ := mem_indexed.1 inside
    exact ⟨a, there⟩
  · rintro ⟨a, there⟩
    cases i with
    | null => cases there
    | ref n => exact ⟨(.ref n, a), mem_indexed.2 ⟨n, rfl, there⟩, rfl⟩

theorem mem_foldl_add {users : Users} {i j : Index} (items : List Index) (user : Index) :
    i ∈ (items.foldl (·.add user ·) users).of j ↔ i ∈ users.of j ∨ i = user ∧ j ∈ items := by
  induction items generalizing users with
  | nil => simp
  | cons k rest ih =>
    rw [List.foldl_cons, ih, Users.mem_add, List.mem_cons]
    tauto

theorem mem_foldl_uses {users : Users} {i j : Index} (items : List Index) :
    i ∈ (items.foldl (fun users i => (uses b i).foldl (·.add i ·) users) users).of j ↔
      i ∈ users.of j ∨ i ∈ items ∧ j ∈ uses b i := by
  induction items generalizing users with
  | nil => simp
  | cons k rest ih =>
    rw [List.foldl_cons, ih, mem_foldl_add, List.mem_cons]
    grind

theorem Sweep.steady_start (b : Buffer) (safe : IndexSet) : Steady b safe (start b safe) := by
  have users : ∀ i j, i ∈ (start b safe).users.of j ↔ i ∈ b.indexed.map Prod.fst ∧ j ∈ uses b i := by
    intro i j
    unfold start
    rw [mem_foldl_uses]
    simp [Users.of]
  have listed : ∀ {i}, i ∈ (start b safe).alive ↔ ∃ a, b.get? i = some a := mem_all
  have mem_due : ∀ {j}, j ∈ (start b safe).due ↔
      j ∈ b.indexed.map Prod.fst ∧ (∀ i, i ∉ (start b safe).users.of j) ∧ j ∉ safe := by
    intro j
    rw [← Std.ExtTreeSet.eq_empty_iff_forall_not_mem, ← Std.ExtTreeSet.isEmpty_iff]
    simp [start, ← Bool.not_eq_true, Std.ExtTreeSet.contains_iff_mem]
  have all : ∀ {i}, i ∈ b.indexed.map Prod.fst ↔ i ∈ (start b safe).alive := by
    intro i
    exact (Std.ExtTreeSet.mem_ofList.trans List.contains_iff_mem).symm
  refine ⟨fun i => listed.1, fun i a found _ => listed.2 ⟨a, found⟩, fun i _ j used => ?_, fun i j => ?_,
    fun j waits => ?_, fun j member => ?_⟩
  · obtain ⟨_, _, _, there⟩ := mem_uses.1 used
    exact listed.2 there
  · rw [users, all]
  · exact ⟨(mem_due.1 waits).2.2, (mem_due.1 waits).2.1⟩
  · by_cases used : ∃ i, i ∈ (start b safe).users.of j
    · exact Or.inr (Or.inr used)
    · by_cases free : j ∈ safe
      · exact Or.inl free
      · exact Or.inr (Or.inl (mem_due.2 ⟨all.2 member, not_exists.1 used, free⟩))

theorem mem_exempt {safe : IndexSet} (h : exempt b = .ok safe) {n : Nat} {a : Atom}
    (found : b.atoms[n]? = some a) :
    .ref n ∈ safe ↔ Liveness.isAnchored b (.ref n) a = .ok true := by
  have inside : n < b.size := (Array.getElem?_eq_some_iff.1 found).1
  have whole : .ref n ∈ safe ↔ n < b.indexed.length ∧ Liveness.isAnchored b (.ref n) a = .ok true := by
    refine Except.foldlM_inv (fun k s => .ref n ∈ s ↔ n < k ∧ Liveness.isAnchored b (.ref n) a = .ok true)
      (by simp) ?_ h
    rintro k ⟨i, a'⟩ s t item before step
    rw [indexed_getElem?] at item
    obtain ⟨a'', there, same⟩ := Option.map_eq_some_iff.1 item
    cases same
    obtain ⟨decided, answer, step⟩ := Except.bind_ok step
    cases step
    by_cases here : n = k
    · subst here
      rw [found, Option.some.injEq] at there
      subst there
      rw [answer]
      cases decided <;> simp [before]
    · have grown : n < k + 1 ↔ n < k := by omega
      have apart : k ≠ n := fun same => here same.symm
      rw [grown, ← before]
      split <;> simp [Std.ExtTreeSet.mem_insert, apart]
  rw [whole, indexed_length]
  exact and_iff_right inside

theorem surviving_of_alive {kept : IndexSet} (h : alive b = .ok kept) :
    ∃ safe, exempt b = .ok safe ∧ Surviving b safe kept := by
  unfold alive at h
  obtain ⟨safe, found, h⟩ := Except.bind_ok h
  cases h
  exact ⟨safe, found, (Sweep.steady_start b safe).run⟩

theorem exists_alive (analyzed : b.isAnalyzed = true) : ∃ kept, alive b = .ok kept := by
  have complete : b.types.size = b.size := by
    simp only [isAnalyzed, Bool.and_eq_true, beq_iff_eq] at analyzed
    exact analyzed.2
  have decided : ∀ n a, b.atoms[n]? = some a → ∃ anchored, Liveness.isAnchored b (.ref n) a = .ok anchored := by
    intro n a found
    unfold Liveness.isAnchored
    split
    · exact ⟨_, rfl⟩
    · exact ⟨_, rfl⟩
    · have inside : n < b.types.size := complete ▸ (Array.getElem?_eq_some_iff.1 found).1
      rw [typeOf_analyzed analyzed (Array.getElem?_eq_getElem inside)]
      cases b.types[n] <;> exact ⟨_, rfl⟩
    · exact ⟨_, rfl⟩
  have exempted : ∃ safe, exempt b = .ok safe := by
    refine Except.exists_foldlM ?_ ∅
    rintro ⟨i, a⟩ member s
    obtain ⟨n, rfl, found⟩ := mem_indexed.1 member
    obtain ⟨anchored, answer⟩ := decided n a found
    simp only [answer]
    exact ⟨_, rfl⟩
  obtain ⟨safe, exempted⟩ := exempted
  unfold alive
  rw [exempted]
  exact ⟨_, rfl⟩

/-! ### Where it goes -/

theorem foldl_remove_entry {items : List (Index × Atom)} {m : Renumbering} {i : Index} :
    (items.foldl (fun m (i, _) => m.remove i) m).entries[i]? =
      if i ∈ items.map Prod.fst then some .null else m.entries[i]? := by
  induction items generalizing m with
  | nil => simp
  | cons e rest ih =>
    rw [List.foldl_cons, ih]
    simp only [Renumbering.remove, Renumbering.set, Std.ExtTreeMap.getElem?_insert, List.map_cons,
      List.mem_cons, Index.compare_eq_eq]
    by_cases here : e.1 = i
    · simp [here]
    · have other : i ≠ e.1 := fun same => here same.symm
      simp only [here, other, false_or, ↓reduceIte]

theorem foldl_set_entry {kept : List Index} (once : kept.Nodup) (k : Nat) {m : Renumbering} {i : Index} :
    ((kept.zipIdx k).foldl (fun m (i, n) => m.set i (.ref n)) m).entries[i]? =
      if i ∈ kept then some (.ref (k + kept.idxOf i)) else m.entries[i]? := by
  induction kept generalizing k m with
  | nil => simp
  | cons j rest ih =>
    obtain ⟨fresh, once⟩ := List.nodup_cons.1 once
    rw [List.zipIdx_cons, List.foldl_cons, ih once]
    simp only [Renumbering.set, Std.ExtTreeMap.getElem?_insert, List.mem_cons, Index.compare_eq_eq,
      List.idxOf_cons]
    by_cases here : j = i
    · subst here
      simp [fresh]
    · simp only [here, Ne.symm here, false_or, ↓reduceIte, beq_eq_false_iff_ne.2 here, cond_false]
      rw [Nat.add_assoc, Nat.add_comm 1]

/-- Where elimination sends an address; what is removed goes nowhere. -/
def removedPlace (kept : List Index) (i : Index) : Index :=
  if i ∈ kept then .ref (kept.idxOf i) else .null

structure Kernel (b : Buffer) (kept : List Index) : Prop where
  ascending : kept.Pairwise (· < ·)
  present : ∀ i ∈ kept, ∃ a, b.get? i = some a
  closed : ∀ i a, i ∈ kept → b.get? i = some a → ∀ o, (o = a.addresses.1 ∨ o = a.addresses.2) →
    (∃ a', b.get? o = some a') → o ∈ kept

theorem Surviving.kernel {safe alive : IndexSet} (surviving : Surviving b safe alive) :
    Kernel b alive.toList := by
  refine ⟨?_, ?_, ?_⟩
  · exact Std.ExtTreeSet.ordered_toList.imp fun below => Index.compare_eq_lt.1 below
  · intro i member
    exact surviving.present i (Std.ExtTreeSet.mem_toList.1 member)
  · intro i a member found o used there
    rw [Std.ExtTreeSet.mem_toList] at member ⊢
    exact surviving.closed i member o (mem_uses.2 ⟨a, found, used, there⟩)

section

variable {kept : List Index} {n : Nat} {i : Index} {a : Atom}

theorem Kernel.nodup (kernel : Kernel b kept) : kept.Nodup := by
  refine kernel.ascending.imp ?_
  rintro i j below rfl
  exact Nat.lt_irrefl _ below

theorem Kernel.length_le (kernel : Kernel b kept) : kept.length ≤ b.size := by
  have among : kept ⊆ (List.range b.size).map Index.ref := by
    intro i member
    obtain ⟨a, there⟩ := kernel.present i member
    cases i with
    | null => cases there
    | ref n => exact List.mem_map_of_mem (List.mem_range.2 (Array.getElem?_eq_some_iff.1 there).1)
  simpa using (List.subperm_of_subset kernel.nodup among).length_le

theorem removedPlace_of_mem (member : i ∈ kept) : removedPlace kept i = .ref (kept.idxOf i) := if_pos member

theorem kept_iff : Kept (removedPlace kept) (.ref n) ↔ .ref n ∈ kept := by
  unfold Kept removedPlace
  split
  · rename_i member
    exact iff_of_true rfl member
  · rename_i gone
    exact iff_of_false (fun stays => by cases stays) gone

theorem Kernel.image (kernel : Kernel b kept) (inside : n < b.size) :
    (removalMap b kept).image? (.ref n) =
      if .ref n ∈ kept then some (.ref (kept.idxOf (.ref n))) else none := by
  have listed : Index.ref n ∈ b.indexed.map Prod.fst := by
    obtain ⟨a, found⟩ := exists_atom inside
    exact List.mem_map.2 ⟨(.ref n, a), mem_indexed.2 ⟨n, rfl, found⟩, rfl⟩
  unfold Renumbering.image? removalMap
  simp only [Index.isNull, Bool.false_eq_true, ↓reduceIte, foldl_set_entry kernel.nodup, Nat.zero_add,
    foldl_remove_entry, listed]
  by_cases member : Index.ref n ∈ kept <;> simp [member]

theorem Kernel.image_eq_some_iff (kernel : Kernel b kept) (inside : n < b.size) :
    (removalMap b kept).image? (.ref n) = some i ↔ .ref n ∈ kept ∧ removedPlace kept (.ref n) = i := by
  rw [kernel.image inside, removedPlace]
  split
  · rename_i member
    simp [member]
  · rename_i gone
    simp [gone]

theorem idxOf_inj {j : Index} (first : i ∈ kept) (second : j ∈ kept) (same : kept.idxOf i = kept.idxOf j) :
    i = j := by
  rw [← List.getElem_idxOf (List.idxOf_lt_length_iff.2 first),
    ← List.getElem_idxOf (List.idxOf_lt_length_iff.2 second)]
  congr 1

theorem Kernel.order (kernel : Kernel b kept) {j : Index} (first : i ∈ kept) (second : j ∈ kept)
    (below : i < j) : removedPlace kept i < removedPlace kept j := by
  have inside := List.idxOf_lt_length_iff.2 first
  have inside' := List.idxOf_lt_length_iff.2 second
  rw [removedPlace_of_mem first, removedPlace_of_mem second, Index.ref_lt_ref]
  rcases Nat.lt_trichotomy (kept.idxOf i) (kept.idxOf j) with before | same | after
  · exact before
  · rw [idxOf_inj first second same] at below
    exact (Nat.lt_irrefl _ below).elim
  · have order := List.pairwise_iff_getElem.1 kernel.ascending _ _ inside' inside after
    rw [List.getElem_idxOf, List.getElem_idxOf] at order
    exact (Nat.lt_asymm below order).elim

theorem removedPlace_solo (member : i ∈ kept) : Solo (removedPlace kept) i := by
  intro j same
  rw [removedPlace_of_mem member] at same
  unfold removedPlace at same
  split at same
  · rename_i there
    exact idxOf_inj there member (Index.ref.inj same)
  · cases same

theorem Kernel.null (kernel : Kernel b kept) : removedPlace kept .null = .null := by
  refine if_neg fun there => ?_
  obtain ⟨_, none⟩ := kernel.present _ there
  cases none

theorem Kernel.uses (kernel : Kernel b kept) (valid : b.validate = .ok ()) (member : .ref n ∈ kept)
    (found : b.atoms[n]? = some a) {k : Nat} (used : .ref k = a.addresses.1 ∨ .ref k = a.addresses.2) :
    .ref k ∈ kept :=
  kernel.closed (.ref n) a member found (.ref k) used (exists_of_address valid found used rfl)

theorem Kernel.rebuild (kernel : Kernel b kept) (valid : b.validate = .ok ()) :
    ∃ c, b.rebuild kept (removalMap b kept) = .ok c := by
  refine exists_rebuild fun i member => ?_
  obtain ⟨a, found⟩ := kernel.present i member
  refine ⟨a, found, List.find?_eq_none.2 fun o used => ?_⟩
  have used : o = a.addresses.1 ∨ o = a.addresses.2 := by simpa [or_comm] using used
  cases i with
  | null => cases found
  | ref n =>
    cases o with
    | null => exact Bool.false_ne_true
    | ref k =>
      have stays := kernel.uses valid member found used
      obtain ⟨_, there⟩ := kernel.present _ stays
      rw [kernel.image (Array.getElem?_eq_some_iff.1 there).1, if_pos stays]
      exact Bool.false_ne_true

theorem Kernel.mapAddresses (kernel : Kernel b kept) (valid : b.validate = .ok ())
    (member : .ref n ∈ kept) (found : b.atoms[n]? = some a) :
    a.mapAddresses (removalMap b kept).place = a.mapAddresses (removedPlace kept) := by
  have each : ∀ o, (o = a.addresses.1 ∨ o = a.addresses.2) →
      (removalMap b kept).place o = removedPlace kept o := by
    intro o used
    cases o with
    | null =>
      rw [kernel.null]
      rfl
    | ref k =>
      have stays := kernel.uses valid member found used
      obtain ⟨_, there⟩ := kernel.present _ stays
      rw [Renumbering.place, kernel.image (Array.getElem?_eq_some_iff.1 there).1, if_pos stays,
        removedPlace_of_mem stays]
      rfl
  exact Atom.mapAddresses_congr (each _ (Or.inl rfl)) (each _ (Or.inr rfl))

theorem Kernel.atom (kernel : Kernel b kept) (valid : b.validate = .ok ())
    (rebuilt : b.rebuild kept (removalMap b kept) = .ok c) (member : .ref n ∈ kept)
    (found : b.atoms[n]? = some a) :
    c.get? (removedPlace kept (.ref n)) = some (a.mapAddresses (removedPlace kept)) := by
  obtain ⟨atoms, read, rfl⟩ := rebuild_ok rebuilt
  have own : kept[kept.idxOf (.ref n)]? = some (.ref n) := by
    rw [List.getElem?_eq_getElem (List.idxOf_lt_length_iff.2 member), List.getElem_idxOf]
  obtain ⟨a', found', image⟩ := rebuilt_atom (removalMap b kept).place read own
  rw [found, Option.some.injEq] at found'
  rw [removedPlace_of_mem member, get?_ref, List.getElem?_toArray, image, ← found',
    kernel.mapAddresses valid member found]

theorem Kernel.source (kernel : Kernel b kept) {k : Nat} (inside : k < kept.length) :
    ∃ n a, .ref n ∈ kept ∧ b.atoms[n]? = some a ∧ removedPlace kept (.ref n) = .ref k := by
  have member := List.getElem_mem inside
  obtain ⟨a, found⟩ := kernel.present _ member
  cases own : kept[k] with
  | null => rw [own] at found; cases found
  | ref n =>
    rw [own] at found member
    refine ⟨n, a, member, found, ?_⟩
    rw [removedPlace_of_mem member, ← own, kernel.nodup.idxOf_getElem k inside]

theorem Kernel.backward (kernel : Kernel b kept) (valid : b.validate = .ok ())
    (rebuilt : b.rebuild kept (removalMap b kept) = .ok c) : c.Backward := by
  intro k a' found' o' used'
  have inside : k < kept.length := by
    rw [← rebuild_size rebuilt]
    exact (Array.getElem?_eq_some_iff.1 found').1
  obtain ⟨n, a, member, found, place⟩ := kernel.source inside
  have image := kernel.atom valid rebuilt member found
  rw [place, get?_ref, found', Option.some.injEq] at image
  subst image
  obtain ⟨visible, position⟩ := Atom.mem_operands.1 used'
  have branch : (a.mapAddresses (removedPlace kept)).isBranch = a.isBranch := by cases a <;> rfl
  rw [Atom.addresses_mapAddresses kernel.null, branch] at position
  -- the operand here is the place of an operand there
  have origin : ∃ o, o' = removedPlace kept o ∧ (o = a.addresses.1 ∨
      (o = a.addresses.2 ∧ a.isBranch = false)) := by
    rcases position with first | ⟨second, other⟩
    · exact ⟨_, first, Or.inl rfl⟩
    · exact ⟨_, second, Or.inr ⟨rfl, other⟩⟩
  obtain ⟨o, rfl, used⟩ := origin
  have stays : o ∈ kept := by
    by_contra gone
    rw [removedPlace, if_neg gone] at visible
    cases visible
  have order := kernel.order stays member ((backward_of_validate valid).address_lt found used)
  rw [removedPlace_of_mem stays, place, Index.ref_lt_ref] at order
  exact ⟨_, removedPlace_of_mem stays, order⟩

theorem Kernel.mem_synthesized (kernel : Kernel b kept) (valid : b.validate = .ok ())
    (rebuilt : b.rebuild kept (removalMap b kept) = .ok c) :
    i ∈ c.synthesized ↔ ∃ n, .ref n ∈ kept ∧ .ref n ∈ b.synthesized ∧ removedPlace kept (.ref n) = i := by
  obtain ⟨_, _, rfl⟩ := rebuild_ok rebuilt
  rw [Renumbering.mem_indexSet]
  constructor
  · rintro ⟨j, captured, goes⟩
    obtain ⟨a, there⟩ := (validate_ok_iff.1 valid).2 j (Or.inl captured)
    cases j with
    | null => cases there
    | ref n =>
      obtain ⟨member, place⟩ := (kernel.image_eq_some_iff (Array.getElem?_eq_some_iff.1 there).1).1 goes
      exact ⟨n, member, captured, place⟩
  · rintro ⟨n, member, captured, place⟩
    obtain ⟨a, there⟩ := kernel.present _ member
    exact ⟨.ref n, captured,
      (kernel.image_eq_some_iff (Array.getElem?_eq_some_iff.1 there).1).2 ⟨member, place⟩⟩

theorem Kernel.captured (kernel : Kernel b kept) (valid : b.validate = .ok ())
    (rebuilt : b.rebuild kept (removalMap b kept) = .ok c) (member : .ref n ∈ kept) :
    c.isSynthesized (removedPlace kept (.ref n)) = b.isSynthesized (.ref n) := by
  rw [Bool.eq_iff_iff]
  unfold isSynthesized
  rw [Std.ExtTreeSet.contains_iff_mem, Std.ExtTreeSet.contains_iff_mem, kernel.mem_synthesized valid rebuilt]
  constructor
  · rintro ⟨k, _, captured, place⟩
    rwa [removedPlace_solo member _ place] at captured
  · intro captured
    exact ⟨n, member, captured, rfl⟩

theorem Kernel.folds (kernel : Kernel b kept) (valid : b.validate = .ok ())
    (rebuilt : b.rebuild kept (removalMap b kept) = .ok c) : Folds b c (removedPlace kept) := by
  refine ⟨kernel.null, ?_, ?_, ?_, ?_, kernel.backward valid rebuilt⟩
  · intro n a found stays
    exact kernel.atom valid rebuilt (kept_iff.1 stays) found
  · intro n a stays found o used
    obtain ⟨k, rfl, _⟩ := backward_of_validate valid n a found o used
    exact kept_iff.2 (kernel.uses valid (kept_iff.1 stays) found
      ((Atom.mem_operands.1 used).2.imp_right And.left))
  · intro k inside
    rw [rebuild_size rebuilt] at inside
    obtain ⟨n, a, _, found, place⟩ := kernel.source inside
    exact ⟨n, (Array.getElem?_eq_some_iff.1 found).1, place⟩
  · intro n _ stays
    exact kernel.captured valid rebuilt (kept_iff.1 stays)

theorem Kernel.valid (kernel : Kernel b kept) (valid : b.validate = .ok ())
    (rebuilt : b.rebuild kept (removalMap b kept) = .ok c) : c.validate = .ok () := by
  have notes : ∀ (j i : Index), (∃ a, b.get? j = some a) → (removalMap b kept).image? j = some i →
      ∃ (n : Nat) (a : Atom), b.atoms[n]? = some a ∧ Kept (removedPlace kept) (.ref n) ∧
        removedPlace kept (.ref n) = i := by
    rintro j i ⟨a, found⟩ image
    cases j with
    | null => cases found
    | ref n =>
      obtain ⟨member, place⟩ := (kernel.image_eq_some_iff (Array.getElem?_eq_some_iff.1 found).1).1 image
      exact ⟨n, a, found, kept_iff.2 member, place⟩
  refine (kernel.folds valid rebuilt).valid valid ?_ ?_
  · intro n t kind cond found stays later
    have member := kept_iff.1 stays
    have target := kernel.uses valid member found (Or.inr rfl)
    exact ⟨kept_iff.2 target, kernel.order member target (Index.ref_lt_ref.2 later)⟩
  · intro i noted
    obtain ⟨atoms, _, rfl⟩ := rebuild_ok rebuilt
    rcases noted with captured | decorated
    · obtain ⟨j, captured, image⟩ := Renumbering.mem_indexSet.1 captured
      exact notes j i ((validate_ok_iff.1 valid).2 j (Or.inl captured)) image
    · obtain ⟨j, decorated, image⟩ := Renumbering.mem_indexMap decorated
      exact notes j i ((validate_ok_iff.1 valid).2 j (Or.inr decorated)) image

end

end ShaderForge.Optimizer
