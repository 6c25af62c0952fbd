import ShaderForge.Proofs.Buffer.Addresses

/-!
Walks along chains. A walk goes from link to link in turns, takes something from each, and checks the
order of two links only when it has read the first. So it ends on every buffer, valid or not, and it has
an answer exactly when a descending trail leads to the end of the chain.
-/

namespace ShaderForge.Walk

open Buffer

/-! ### Turns -/

/-- What one turn comes to: the end of the walk, or the next link and what is taken by then. -/
inductive Turn where
  | ends (answer : Except Fault (List Index))
  | goes (next : Index) (taken : List Index)

/-- Takes turns until one ends the walk, a bounded number of them. -/
def run (turn : Index → List Index → Turn) : Nat → Index → List Index → Option (Except Fault (List Index))
  | 0, _, _ => none
  | bound + 1, cursor, taken =>
    match turn cursor taken with
    | .ends answer => some answer
    | .goes next taken => run turn bound next taken

def listTurn (b : Buffer) (cursor : Index) (items : List Index) : Turn :=
  if cursor.isNull then .ends (.ok items)
  else match b.atom cursor with
    | .error e => .ends (.error e)
    | .ok (.list item next) =>
      if !next.isNull && decide (cursor ≤ next) then .ends (.error (b.fault (.listForward cursor next)))
      else .goes next (items ++ [item])
    | .ok found => .ends (.error (b.fault (.notList cursor found)))

def closing (b : Buffer) (head : Index) (fields : List Index) : Except Fault (List Index) :=
  if fields.isEmpty then .error (b.fault (.fieldless head)) else .ok fields

/-- A turn along the field chain that starts at `head`. -/
def fieldTurn (b : Buffer) (head cursor : Index) (fields : List Index) : Turn :=
  match b.atom cursor with
  | .error e => .ends (.error e)
  | .ok (.type item down next) =>
    if next.isNull then
      if item = .nil ∧ down = .null then .ends (closing b head fields)
      else .ends (.error (b.fault (.chainUnclosed head)))
    else if cursor ≤ next then .ends (.error (b.fault (.fieldForward cursor next)))
    else .goes next (fields ++ [cursor])
  | .ok found => .ends (.error (b.fault (.chainReaches found cursor)))

section

variable {b : Buffer} {bound : Nat} {i head : Index} {taken : List Index}

theorem run_ends {turn : Index → List Index → Turn} {answer : Except Fault (List Index)}
    (ends : turn i taken = .ends answer) : run turn (bound + 1) i taken = some answer := by
  rw [run, ends]

theorem run_goes {turn : Index → List Index → Turn} {next : Index} {more : List Index}
    (goes : turn i taken = .goes next more) : run turn (bound + 1) i taken = run turn bound next more := by
  rw [run, goes]

theorem atom_of_found {a : Atom} (found : b.get? i = some a) : b.atom i = .ok a := atom_ok_iff.2 found

theorem atom_of_missing (missing : b.get? i = none) : b.atom i = .error (b.fault (.unresolved i)) := by
  rw [atom, missing]

theorem rank_of_found {a : Atom} {n : Nat} (found : b.get? (.ref n) = some a)
    (enough : min (Index.ref n).rank b.size < bound + 1) : n < bound := by
  have inside : n < b.size := (Array.getElem?_eq_some_iff.1 found).1
  rw [Index.rank] at enough
  omega

/-- A walk along a list has its answer after a turn for each address up to the cursor, or for each atom
if these are fewer, and one more. -/
theorem run_listTurn (enough : min i.rank b.size < bound) :
    run (listTurn b) bound i taken = some ((b.expandList i).map (taken ++ ·)) := by
  induction bound generalizing i taken with
  | zero => omega
  | succ bound ih =>
    fun_cases b.expandList i with
    | case1 =>
      apply run_ends
      simp [listTurn, Index.isNull, Except.map]
    | case2 n item found =>
      have goes : listTurn b (.ref n) taken = .goes .null (taken ++ [item]) := by
        simp [listTurn, Index.isNull, atom_of_found found]
      have inside := rank_of_found found enough
      rw [run_goes goes, ih (by simp only [Index.rank]; omega), expandList]
      simp [Except.map]
    | case3 n item k below found =>
      have goes : listTurn b (.ref n) taken = .goes (.ref k) (taken ++ [item]) := by
        simp [listTurn, Index.isNull, atom_of_found found, below]
      have inside := rank_of_found found enough
      rw [run_goes goes, ih (by simp only [Index.rank]; omega)]
      cases b.expandList (.ref k) <;> simp [Except.map, bind, Except.bind, pure, Except.pure]
    | case4 n item k forward found =>
      apply run_ends
      simp [listTurn, Index.isNull, atom_of_found found, Nat.not_lt.1 forward, Except.map]
    | case5 n a other found =>
      apply run_ends
      rw [listTurn, atom_of_found found]
      cases a with
      | list item next => exact (other item next rfl).elim
      | _ => rfl
    | case6 n missing =>
      apply run_ends
      simp [listTurn, Index.isNull, atom_of_missing missing, Except.map]

/-- A walk along a field chain has its answer after no more turns. -/
theorem run_fieldTurn (enough : min i.rank b.size < bound) :
    run (fieldTurn b head) bound i taken =
      some ((b.fieldsFrom head i).bind fun rest => closing b head (taken ++ rest)) := by
  induction bound generalizing i taken with
  | zero => omega
  | succ bound ih =>
    fun_cases b.fieldsFrom head i with
    | case1 =>
      apply run_ends
      rfl
    | case2 n item down found closed =>
      apply run_ends
      simp [fieldTurn, Index.isNull, atom_of_found found, closed, Except.bind]
    | case3 n item down found unclosed =>
      apply run_ends
      simp [fieldTurn, Index.isNull, atom_of_found found, unclosed, Except.bind]
    | case4 n item down k found below =>
      have goes : fieldTurn b head (.ref n) taken = .goes (.ref k) (taken ++ [.ref n]) := by
        simp [fieldTurn, Index.isNull, atom_of_found found, Nat.not_le.2 below]
      have inside := rank_of_found found enough
      rw [run_goes goes, ih (by simp only [Index.rank]; omega)]
      cases b.fieldsFrom head (.ref k) <;> simp [bind, Except.bind, pure, Except.pure]
    | case5 n item down k found forward =>
      apply run_ends
      simp [fieldTurn, Index.isNull, atom_of_found found, Nat.not_lt.1 forward, Except.bind]
    | case6 n a other linked found =>
      apply run_ends
      rw [fieldTurn, atom_of_found found]
      cases a with
      | type item down next =>
        cases next with
        | null => exact (other item down rfl).elim
        | ref k => exact (linked item down k rfl).elim
      | _ => rfl
    | case7 n missing =>
      apply run_ends
      simp [fieldTurn, atom_of_missing missing, Except.bind]

end

/-! ### Trails -/

/-- The addresses that links lead to from `head` on, each before the last one, until they come to `stop`. -/
structure Trail (link : Index → Index → Prop) (head stop : Index) (cells : List Index) : Prop where
  starts : (cells ++ [stop]).head? = some head
  linked : (cells ++ [stop]).IsChain link
  descends : (cells ++ [stop]).Pairwise fun i j => j < i

namespace Trail

variable {link : Index → Index → Prop} {i head stop : Index} {cells : List Index}

theorem nil_iff : Trail link head stop [] ↔ head = stop := by
  constructor
  · rintro ⟨starts, _, _⟩
    exact (Option.some.inj starts).symm
  · rintro rfl
    exact ⟨rfl, .singleton _, List.pairwise_singleton _ _⟩

theorem cons_iff :
    Trail link head stop (i :: cells) ↔ i = head ∧ ∃ j, link i j ∧ j < i ∧ Trail link j stop cells := by
  obtain ⟨j, rest, split⟩ : ∃ j rest, cells ++ [stop] = j :: rest := List.exists_cons_of_ne_nil (by simp)
  constructor
  · rintro ⟨starts, linked, descends⟩
    rw [List.cons_append, split] at linked descends
    rw [List.isChain_cons_cons] at linked
    obtain ⟨before, descends⟩ := List.pairwise_cons.1 descends
    refine ⟨Option.some.inj starts, j, linked.1, before j List.mem_cons_self, ?_⟩
    exact ⟨by rw [split]; rfl, split ▸ linked.2, split ▸ descends⟩
  · rintro ⟨rfl, k, first, before, starts, linked, descends⟩
    rw [split] at starts linked descends
    obtain rfl : j = k := Option.some.inj starts
    refine ⟨rfl, ?_, ?_⟩
    · rw [List.cons_append, split]
      exact .cons_cons first linked
    · rw [List.cons_append, split, List.pairwise_cons]
      refine ⟨fun m member => ?_, descends⟩
      rcases List.mem_cons.1 member with rfl | later
      · exact before
      · exact Nat.lt_trans ((List.pairwise_cons.1 descends).1 m later) before

end Trail

variable {b : Buffer}

def Continues (b : Buffer) (i next : Index) : Prop := ∃ item, b.get? i = some (.list item next)

def Carries (b : Buffer) (i item : Index) : Prop := ∃ next, b.get? i = some (.list item next)

def Links (b : Buffer) (i next : Index) : Prop := ∃ item down, b.get? i = some (.type item down next)

theorem itemRun_iff {head : Index} {items : List Index} :
    ItemRun b.atoms head items ↔
      ∃ cells, Trail (Continues b) head .null cells ∧ List.Forall₂ (Carries b) cells items := by
  constructor
  · intro run
    induction run with
    | nil => exact ⟨[], Trail.nil_iff.2 rfl, .nil⟩
    | @last n item cell =>
      exact ⟨[.ref n], Trail.cons_iff.2 ⟨rfl, .null, ⟨item, cell⟩, Nat.zero_lt_succ n, Trail.nil_iff.2 rfl⟩,
        .cons ⟨.null, cell⟩ .nil⟩
    | @cons n k item rest cell below tail ih =>
      obtain ⟨cells, trail, items⟩ := ih
      exact ⟨.ref n :: cells,
        Trail.cons_iff.2 ⟨rfl, .ref k, ⟨item, cell⟩, Index.ref_lt_ref.2 below, trail⟩, .cons ⟨.ref k, cell⟩ items⟩
  · rintro ⟨cells, trail, carried⟩
    induction carried generalizing head with
    | nil =>
      obtain rfl := Trail.nil_iff.1 trail
      exact .nil
    | @cons i item cells items first _ ih =>
      obtain ⟨rfl, next, ⟨item', cell⟩, before, rest⟩ := Trail.cons_iff.1 trail
      obtain ⟨next', same⟩ := first
      rw [cell, Option.some.injEq, Atom.list.injEq] at same
      obtain ⟨rfl, rfl⟩ := same
      have tail := ih rest
      cases i with
      | null => cases cell
      | ref n =>
        cases next with
        | null =>
          cases tail
          exact .last cell
        | ref k => exact .cons cell (Index.ref_lt_ref.1 before) tail

theorem fieldRun_iff {head : Index} {fields : List Index} :
    FieldRun b.atoms head fields ↔
      ∃ marker, Trail (Links b) head marker fields ∧ b.get? marker = some (.type .nil .null .null) := by
  constructor
  · intro run
    induction run with
    | @closed n marker => exact ⟨.ref n, Trail.nil_iff.2 rfl, marker⟩
    | @link n k item down rest node below tail ih =>
      obtain ⟨marker, trail, closed⟩ := ih
      exact ⟨marker, Trail.cons_iff.2 ⟨rfl, .ref k, ⟨item, down, node⟩, Index.ref_lt_ref.2 below, trail⟩, closed⟩
  · rintro ⟨marker, trail, closed⟩
    induction fields generalizing head with
    | nil =>
      obtain rfl := Trail.nil_iff.1 trail
      cases head with
      | null => cases closed
      | ref n => exact .closed closed
    | cons i rest ih =>
      obtain ⟨rfl, next, ⟨item, down, node⟩, before, later⟩ := Trail.cons_iff.1 trail
      have tail := ih later
      cases i with
      | null => cases node
      | ref n =>
        cases next with
        | null => cases tail
        | ref k => exact .link node (Index.ref_lt_ref.1 before) tail

/-- Both walks end on every buffer, after a turn for each atom and one more at most. The one along a list
answers just when cells lead on, ever further back, to the absent address, and then with their items; the
one along a field chain just when links lead on like that over one field or more to a nil marker, and then
with the fields. -/
theorem walks_exact (b : Buffer) (head : Index) :
    (∀ bound, b.size < bound →
      run (listTurn b) bound head [] = some (b.expandList head) ∧
      run (fieldTurn b head) bound head [] = some (b.fieldChain head)) ∧
    (∀ items, b.expandList head = .ok items ↔
      ∃ cells, Trail (Continues b) head .null cells ∧ List.Forall₂ (Carries b) cells items) ∧
    (∀ fields, b.fieldChain head = .ok fields ↔ fields ≠ [] ∧
      ∃ marker, Trail (Links b) head marker fields ∧ b.get? marker = some (.type .nil .null .null)) := by
  refine ⟨fun bound enough => ?_, fun items => ?_, fun fields => ?_⟩
  · have room : min head.rank b.size < bound := by omega
    refine ⟨?_, run_fieldTurn room⟩
    rw [run_listTurn room]
    cases b.expandList head <;> rfl
  · rw [expandList_ok_iff, itemRun_iff]
  · rw [fieldChain_ok_iff, fieldRun_iff, and_comm]

end ShaderForge.Walk
