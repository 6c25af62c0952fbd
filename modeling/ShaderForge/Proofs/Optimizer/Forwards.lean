import ShaderForge.Proofs.Typing.Complete
import ShaderForge.Optimizer.Elision

/-!
Which reads are forwarded, and where to. Every read is decided by itself; its argument stands
before it, so the final argument of a chain of reads is known when the chain is met.
-/

namespace ShaderForge

namespace Optimizer

/-- What makes a read one that is forwarded to `item`. -/
structure Forwarded (b : Buffer) (written : IndexSet) (i : Index) (a : Atom) (item : Index) : Prop where
  loose : b.isSynthesized i = false
  read : ∃ src slot ty args mode items, slot? a = some (src, slot) ∧
    b.get? src = some (.construct ty args mode) ∧ args.isNull = false ∧ src ∉ written ∧
    b.expandList args = .ok items ∧ items[slot]? = some item ∧
    (∀ code, a = .swizzle src code → isScalarSplit b src items = .ok true)
  settled : readsWritten b written item = .ok false

theorem slot?_eq_some {a : Atom} {src : Index} {slot : Nat} (h : slot? a = some (src, slot)) :
    (∃ field : Int32, a = .load src field ∧ ¬ field < 0 ∧ slot = field.toInt.toNat) ∨
      ∃ code, a = .swizzle src code ∧ code.components = [slot] := by
  unfold slot? at h
  split at h
  · rename_i src' field
    split at h
    · cases h
    · rename_i present
      cases h
      exact Or.inl ⟨field, rfl, present, rfl⟩
  · rename_i src' code
    split at h
    · rename_i c single
      cases h
      exact Or.inr ⟨code, rfl, single⟩
    · cases h
  · cases h

theorem constructed?_eq_some {b : Buffer} {written : IndexSet} {src args : Index}
    (h : constructed? b written src = some args) :
    ∃ ty mode, b.get? src = some (.construct ty args mode) ∧ args.isNull = false ∧ src ∉ written := by
  unfold constructed? at h
  split at h
  · rename_i ty args' mode found
    split at h
    · rename_i free
      cases h
      simp only [Bool.and_eq_true, Bool.not_eq_true', ← Bool.not_eq_true,
        Std.ExtTreeSet.contains_iff_mem] at free
      exact ⟨ty, mode, found, by simpa using free.1, free.2⟩
    · cases h
  · cases h

theorem forwarded?_eq_some {b : Buffer} {written : IndexSet} {i item : Index} {a : Atom}
    (h : forwarded? b written i a = .ok (some item)) : Forwarded b written i a item := by
  unfold forwarded? at h
  split at h
  · cases h
  · rename_i loose
    split at h
    · rename_i src slot position
      split at h
      · rename_i args built
        obtain ⟨items, listed, h⟩ := Except.bind_ok h
        split at h
        · rename_i item' selected
          obtain ⟨fits, asked, h⟩ := Except.bind_ok h
          split at h
          · cases h
          · rename_i fitting
            obtain ⟨stale, read, h⟩ := Except.bind_ok h
            split at h
            · cases h
            · rename_i fresh
              cases h
              obtain ⟨ty, mode, found, given, unwritten⟩ := constructed?_eq_some built
              refine ⟨by simpa using loose, ⟨src, slot, ty, args, mode, items, position, found, given,
                unwritten, listed, selected, ?_⟩, ?_⟩
              · rintro code rfl
                have split : isScalarSplit b src items = .ok fits := asked
                rw [split]
                simpa using fitting
              · rw [read]
                simpa using fresh
        · cases h
      · cases h
    · cases h

theorem Forwarded.item_lt {b : Buffer} {written : IndexSet} {n : Nat} {a : Atom} {item : Index}
    (backward : b.Backward) (found : b.atoms[n]? = some a)
    (forwarded : Forwarded b written (.ref n) a item) : item < .ref n := by
  obtain ⟨src, slot, ty, args, mode, items, position, built, _, _, listed, selected, _⟩ :=
    forwarded.read
  have source : src = a.addresses.1 := by
    rcases slot?_eq_some position with ⟨field, rfl, _⟩ | ⟨code, rfl, _⟩ <;> rfl
  have early : src < .ref n := backward.address_lt found (Or.inl source)
  cases src with
  | null => cases built
  | ref k =>
    have inside : args < .ref k := backward.address_lt built (Or.inr ⟨rfl, rfl⟩)
    exact Nat.lt_trans
      (Buffer.expandList_lt backward inside listed item (List.mem_of_getElem? selected)) early

/-- A table of forwarded reads: each read is decided by itself, and leads to where its argument
leads. -/
structure ForwardTable (b : Buffer) (written : IndexSet) (forward : IndexMap Index) (limit : Nat) :
    Prop where
  keys : ∀ (i v : Index), forward[i]? = some v → ∃ n, i = .ref n ∧ n < limit
  decided : ∀ (n : Nat) (a : Atom), n < limit → b.atoms[n]? = some a →
    ∃ item?, forwarded? b written (.ref n) a = .ok item? ∧
      forward[Index.ref n]? = item?.map fun item => forward.getD item item

theorem getD_insert_of_ne {forward : IndexMap Index} {i j v : Index} (other : i ≠ j) :
    (forward.insert i v).getD j j = forward.getD j j := by
  simp [Std.ExtTreeMap.getD_insert, other]

theorem ForwardTable.insert {b : Buffer} {written : IndexSet} {forward : IndexMap Index} {n : Nat}
    {a : Atom} {item : Index} (backward : b.Backward) (table : ForwardTable b written forward n)
    (found : b.atoms[n]? = some a) (decided : forwarded? b written (.ref n) a = .ok (some item)) :
    ForwardTable b written (forward.insert (.ref n) (forward.getD item item)) (n + 1) := by
  -- an argument stands before the read, so the new entry does not change where it leads
  have kept : ∀ {m : Nat} {j : Index}, m ≤ n → j < .ref m →
      (forward.insert (.ref n) (forward.getD item item)).getD j j = forward.getD j j := by
    intro m j order early
    apply getD_insert_of_ne
    rintro rfl
    rw [Index.ref_lt_ref] at early
    omega
  constructor
  · intro i v entry
    rw [Std.ExtTreeMap.getElem?_insert] at entry
    split at entry
    · rename_i same
      rw [Index.compare_eq_eq] at same
      exact ⟨n, same.symm, Nat.lt_succ_self n⟩
    · obtain ⟨m, rfl, below⟩ := table.keys i v entry
      exact ⟨m, rfl, by omega⟩
  · intro m a' below found'
    by_cases same : m = n
    · subst same
      rw [found, Option.some.injEq] at found'
      subst found'
      refine ⟨some item, decided, ?_⟩
      rw [Std.ExtTreeMap.getElem?_insert_self, Option.map_some,
        kept (Nat.le_refl _) ((forwarded?_eq_some decided).item_lt backward found)]
    · obtain ⟨item?, decided', entry⟩ := table.decided m a' (by omega) found'
      refine ⟨item?, decided', ?_⟩
      rw [Std.ExtTreeMap.getElem?_insert, if_neg (by
        rw [Index.compare_eq_eq, Index.ref.injEq]
        omega), entry]
      cases item? with
      | none => rfl
      | some item' =>
        have early := (forwarded?_eq_some decided').item_lt backward found'
        rw [Option.map_some, Option.map_some, kept (by omega) early]

theorem ForwardTable.skip {b : Buffer} {written : IndexSet} {forward : IndexMap Index} {n : Nat}
    {a : Atom} (table : ForwardTable b written forward n) (found : b.atoms[n]? = some a)
    (decided : forwarded? b written (.ref n) a = .ok none) :
    ForwardTable b written forward (n + 1) := by
  constructor
  · intro i v entry
    obtain ⟨m, rfl, below⟩ := table.keys i v entry
    exact ⟨m, rfl, by omega⟩
  · intro m a' below found'
    by_cases same : m = n
    · subst same
      rw [found, Option.some.injEq] at found'
      subst found'
      refine ⟨none, decided, ?_⟩
      cases entry : forward[Index.ref m]? with
      | none => rfl
      | some v =>
        obtain ⟨k, at_k, early⟩ := table.keys _ _ entry
        cases at_k
        omega
    · exact table.decided m a' (by omega) found'

theorem forwards_table {b : Buffer} {forward : IndexMap Index} (backward : b.Backward)
    (h : forwards b = .ok forward) :
    ∃ written, writtenStorage b = .ok written ∧ ForwardTable b written forward b.size := by
  unfold forwards at h
  obtain ⟨written, stored, h⟩ := Except.bind_ok h
  refine ⟨written, stored, ?_⟩
  rw [← b.indexed_length]
  refine Except.foldlM_inv (fun k forward => ForwardTable b written forward k) ⟨?_, ?_⟩ ?_ h
  · intro i v entry
    simp at entry
  · intro n a below
    omega
  · rintro k ⟨i, a⟩ forward next found table h
    rw [Buffer.indexed_getElem?] at found
    obtain ⟨a', found, same⟩ := Option.map_eq_some_iff.1 found
    cases same
    obtain ⟨item?, decided, h⟩ := Except.bind_ok h
    cases item? with
    | none =>
      cases h
      exact table.skip found decided
    | some item =>
      cases h
      exact table.insert backward found decided

/-! ### Addresses after forwarding -/

/-- A change of addresses that leads reads to earlier atoms that are not led further. -/
structure Diverts (b : Buffer) (divert : Index → Index) : Prop where
  lower : ∀ i, divert i ≤ i
  stable : ∀ i, divert (divert i) = divert i
  reads : ∀ i, divert i ≠ i → ∃ n a, i = .ref n ∧ b.atoms[n]? = some a ∧ (slot? a).isSome

theorem ForwardTable.entry {b : Buffer} {written : IndexSet} {forward : IndexMap Index}
    {i v : Index} (backward : b.Backward) (table : ForwardTable b written forward b.size)
    (entry : forward[i]? = some v) :
    ∃ n a item, i = .ref n ∧ b.atoms[n]? = some a ∧ Forwarded b written i a item ∧
      item < .ref n ∧ v = forward.getD item item := by
  obtain ⟨n, rfl, below⟩ := table.keys i v entry
  have found : b.atoms[n]? = some b.atoms[n] := Array.getElem?_eq_getElem below
  obtain ⟨item?, decided, same⟩ := table.decided n _ below found
  rw [entry] at same
  obtain ⟨item, rfl, rfl⟩ := Option.map_eq_some_iff.1 same.symm
  have forwarded := forwarded?_eq_some decided
  exact ⟨n, _, item, rfl, found, forwarded, forwarded.item_lt backward found, rfl⟩

theorem ForwardTable.diverts {b : Buffer} {written : IndexSet} {forward : IndexMap Index}
    (backward : b.Backward) (table : ForwardTable b written forward b.size) :
    Diverts b fun i => forward.getD i i := by
  have same : ∀ {i : Index}, forward[i]? = none → forward.getD i i = i := by
    intro i absent
    rw [Std.ExtTreeMap.getD_eq_getD_getElem?, absent]
    rfl
  have lead : ∀ {i v : Index}, forward[i]? = some v → forward.getD i i = v := by
    intro i v entry
    rw [Std.ExtTreeMap.getD_eq_getD_getElem?, entry]
    rfl
  -- both by induction along the chain of arguments, which descends
  have descends : ∀ (rank : Nat) (i : Index), i.rank = rank →
      forward.getD i i ≤ i ∧ forward.getD (forward.getD i i) (forward.getD i i) = forward.getD i i := by
    intro rank
    induction rank using Nat.strongRecOn with
    | ind rank ih =>
      intro i at_rank
      cases entry : forward[i]? with
      | none =>
        rw [same entry, same entry]
        exact ⟨Nat.le_refl _, rfl⟩
      | some v =>
        obtain ⟨n, a, item, rfl, _, _, early, rfl⟩ := table.entry backward entry
        obtain ⟨lower, stable⟩ := ih item.rank (by rw [← at_rank]; exact early) item rfl
        rw [lead entry]
        exact ⟨Nat.le_of_lt (Nat.lt_of_le_of_lt lower early), stable⟩
  refine ⟨fun i => (descends _ i rfl).1, fun i => (descends _ i rfl).2, ?_⟩
  intro i moved
  cases entry : forward[i]? with
  | none => exact (moved (same entry)).elim
  | some v =>
    obtain ⟨n, a, item, rfl, found, forwarded, _⟩ := table.entry backward entry
    obtain ⟨src, slot, _, _, _, _, position, _⟩ := forwarded.read
    exact ⟨n, a, rfl, found, by rw [position]; rfl⟩

section

variable {b c : Buffer} {divert : Index → Index}

theorem Diverts.null (diverts : Diverts b divert) : divert .null = .null := by
  have := diverts.lower .null
  cases h : divert .null with
  | null => rfl
  | ref n => rw [h] at this; exact absurd this (Nat.not_succ_le_zero n)

theorem Diverts.fixed (diverts : Diverts b divert) {n : Nat} {a : Atom}
    (found : b.atoms[n]? = some a) (other : slot? a = none) : divert (.ref n) = .ref n := by
  apply Decidable.of_not_not
  intro moved
  obtain ⟨m, a', same, found', read⟩ := diverts.reads _ moved
  cases same
  rw [found, Option.some.injEq] at found'
  subst found'
  rw [other] at read
  cases read

theorem Diverts.fixed_of_get? (diverts : Diverts b divert) {i : Index} {a : Atom} (found : b.get? i = some a)
    (other : slot? a = none) : divert i = i := by
  cases i with
  | null => cases found
  | ref n => exact diverts.fixed found other

def diverted (b : Buffer) (divert : Index → Index) : Buffer :=
  { b with atoms := b.atoms.map (·.mapAddresses divert) }

theorem diverted_getElem? {n : Nat} :
    (diverted b divert).atoms[n]? = b.atoms[n]?.map (·.mapAddresses divert) := by
  simp [diverted]

theorem Diverts.backward (diverts : Diverts b divert) (backward : b.Backward) :
    (diverted b divert).Backward := by
  intro n a found o member
  rw [diverted_getElem?] at found
  obtain ⟨a', before, rfl⟩ := Option.map_eq_some_iff.1 found
  obtain ⟨present, position⟩ := Atom.mem_operands.1 member
  obtain ⟨k, rfl⟩ := Index.eq_ref_of_isNull_false present
  refine ⟨k, rfl, Index.ref_lt_ref.1 ?_⟩
  rw [Atom.addresses_mapAddresses diverts.null] at position
  rcases position with same | ⟨same, plain⟩
  · rw [same]
    exact Nat.lt_of_le_of_lt (diverts.lower _) (backward.address_lt before (Or.inl rfl))
  · rw [same]
    refine Nat.lt_of_le_of_lt (diverts.lower _) (backward.address_lt before (Or.inr ⟨rfl, ?_⟩))
    cases a' <;> first | rfl | exact plain

theorem Diverts.items (diverts : Diverts b divert) {i : Index} {items : List Index}
    (run : Buffer.ItemRun b.atoms i items) :
    divert i = i ∧ Buffer.ItemRun (diverted b divert).atoms i (items.map divert) := by
  induction run with
  | nil => exact ⟨diverts.null, .nil⟩
  | @last n item cell =>
    refine ⟨diverts.fixed cell rfl, .last ?_⟩
    rw [diverted_getElem?, cell, Option.map_some, Atom.mapAddresses, diverts.null]
  | @cons n k item rest cell below tail ih =>
    refine ⟨diverts.fixed cell rfl, .cons ?_ below ih.2⟩
    rw [diverted_getElem?, cell, Option.map_some, Atom.mapAddresses, ih.1]

theorem Diverts.links (diverts : Diverts b divert) {i : Index} {fields : List Index}
    (run : Buffer.FieldRun b.atoms i fields) :
    divert i = i ∧ Buffer.FieldRun (diverted b divert).atoms i fields := by
  induction run with
  | @closed n marker =>
    refine ⟨diverts.fixed marker rfl, .closed ?_⟩
    rw [diverted_getElem?, marker, Option.map_some, Atom.mapAddresses, diverts.null]
  | @link n k item down rest node below tail ih =>
    have changed : (diverted b divert).atoms[n]? = some (.type item (divert down) (.ref k)) := by
      rw [diverted_getElem?, node, Option.map_some, Atom.mapAddresses, ih.1]
    exact ⟨diverts.fixed node rfl, .link changed below ih.2⟩

end

end Optimizer

end ShaderForge
