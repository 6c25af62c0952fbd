import ShaderForge.Proofs.Native.Refinement
import ShaderForge.Proofs.Native.Soundness

/-!
What values draw on. Only what is computed again at each use matters to a value: with the same slots there,
it is the same expression, and with the same components in them it computes the same.
-/

namespace ShaderForge.Native

open Buffer Linkage

/-! ### Components at run time -/

theorem length_broadcast {α : Type} {xs : List α} {m : Nat} (even : agree [xs.length, m] = true) :
    (broadcast m xs).length = max xs.length m := by
  rw [agree_pair] at even
  match xs with
  | [] =>
    rw [List.length_nil] at even
    show 0 = max 0 m
    omega
  | [x] =>
    rw [List.length_singleton] at even ⊢
    rw [broadcast, List.length_replicate]
    omega
  | x :: y :: rest =>
    rw [List.length_cons, List.length_cons] at even
    show rest.length + 1 + 1 = max (rest.length + 1 + 1) m
    omega

theorem length_replaceAt (old : List Word) (positions : List Nat) (ws : List Word) :
    (replaceAt old positions ws).length = old.length := by
  induction positions generalizing old ws with
  | nil => cases ws <;> rfl
  | cons k rest ih =>
    cases ws with
    | nil => rfl
    | cons w ws => rw [replaceAt, ih, List.length_set]

def Env.Sized (slots : IndexMap (List Prim)) (env : Env) : Prop :=
  ∀ i ts, slots[i]? = some ts → (env.slot i ts).length = ts.length

theorem Env.slot_insert_self (env : Env) (i : Index) (ws : List Word) (ts : List Prim) :
    Env.slot (env.insert i ws) i ts = ws := by
  simp [Env.slot]

theorem Env.slot_insert_of_ne {i j : Index} (env : Env) (ws : List Word) (ts : List Prim) (other : i ≠ j) :
    Env.slot (env.insert i ws) j ts = env.slot j ts := by
  simp [Env.slot, Std.ExtTreeMap.getElem?_insert, other]

/-- Slots stay as long as they are while values of their length are put into them. -/
theorem Env.Sized.insert {slots : IndexMap (List Prim)} {env : Env} {i : Index} {ws : List Word}
    (full : env.Sized slots) (fits : ∀ ts, slots[i]? = some ts → ws.length = ts.length) :
    Env.Sized slots (env.insert i ws) := by
  intro j ts known
  by_cases same : i = j
  · subst same
    rw [Env.slot_insert_self]
    exact fits ts known
  · rw [Env.slot_insert_of_ne env ws ts same]
    exact full j ts known

namespace Expr

/-- Every slot in an expression is one of `slots` with a property; every call is of a function of a unit. -/
def Draws (u : Linkage) (slots : IndexMap (List Prim)) (P : Index → Prop) : Expr → Prop
  | literal _ | zeros _ => True
  | slot owner ts => slots[owner]? = some ts ∧ P owner
  | pick e _ | unary _ _ e | fold _ _ e | convert _ _ e => e.Draws u slots P
  | join a b | binary _ _ a b => a.Draws u slots P ∧ b.Draws u slots P
  | call id params returns args => Signed u id params returns ∧ args.Draws u slots P

variable {u : Linkage} {slots : IndexMap (List Prim)} {P : Index → Prop} {e : Expr} {ts : List Prim}
  {callees : Callees} {env env' : Env} {ws : List Word}

theorem Gives.eval_length (given : e.Gives ts) (draws : e.Draws u slots P) (sized : callees.Sized u)
    (full : env.Sized slots) (computed : e.eval callees env = .ok ws) : ws.length = ts.length := by
  induction given generalizing ws with
  | literal value =>
    cases computed
    rfl
  | zeros ts =>
    cases computed
    rw [List.length_map]
  | slot owner ts =>
    cases computed
    exact full owner ts draws.1
  | @pick e ts us positions _ picked ih =>
    obtain ⟨base, inner, same⟩ := Except.bind_ok computed
    cases same
    have whole := ih draws inner
    have inside : ∀ k ∈ positions, (base[k]?).isSome := by
      intro k member
      have found : ts[k]? ∈ us.map some := picked ▸ List.mem_map_of_mem member
      obtain ⟨t, _, there⟩ := List.mem_map.1 found
      have := (List.getElem?_eq_some_iff.1 there.symm).1
      rw [List.getElem?_eq_getElem (by omega)]
      rfl
    rw [List.length_filterMap_eq_countP, List.countP_eq_length.2 inside, ← (List.length_map some : (us.map some).length = _),
      ← picked, List.length_map]
  | join _ _ first second =>
    obtain ⟨left, computed', rest⟩ := Except.bind_ok computed
    obtain ⟨right, computed'', same⟩ := Except.bind_ok rest
    cases same
    rw [List.length_append, List.length_append, first draws.1 computed', second draws.2 computed'']
  | unary op _ ih =>
    obtain ⟨base, inner, same⟩ := Except.bind_ok computed
    cases same
    have whole := ih draws inner
    rw [List.length_map, whole, List.length_replicate, List.length_replicate]
  | @binary op s a b n m _ _ even first second =>
    obtain ⟨left, computed', rest⟩ := Except.bind_ok computed
    obtain ⟨right, computed'', each⟩ := Except.bind_ok rest
    have left_length := first draws.1 computed'
    have right_length := second draws.2 computed''
    rw [List.length_replicate] at left_length right_length ⊢
    have even' : agree [right.length, left.length] = true := by
      rw [left_length, right_length, agree_pair]
      rw [agree_pair] at even
      omega
    rw [← left_length, ← right_length] at even ⊢
    have same := (Except.mapM_ok_iff.1 each).length_eq
    rw [List.length_zip, length_broadcast even, length_broadcast even', Nat.max_comm right.length, Nat.min_self]
      at same
    exact same.symm
  | @fold op s e n _ _ ih =>
    obtain ⟨base, inner, rest⟩ := Except.bind_ok computed
    have whole := ih draws inner
    cases base with
    | nil => simp at whole
    | cons w others =>
      obtain ⟨x, _, same⟩ := Except.bind_ok rest
      cases same
      rfl
  | @convert e source target _ whole ih =>
    obtain ⟨base, inner, same⟩ := Except.bind_ok computed
    cases same
    have length := ih draws inner
    simp only [List.length_zipWith, List.length_zip]
    omega
  | call callee returns _ ih =>
    obtain ⟨args, _, answer⟩ := Except.bind_ok computed
    exact sized draws.1 answer

theorem Draws.eval_congr (draws : e.Draws u slots P) (callees : Callees)
    (same : ∀ i ts, slots[i]? = some ts → P i → env'.slot i ts = env.slot i ts) :
    e.eval callees env' = e.eval callees env := by
  induction e with
  | literal | zeros => rfl
  | slot owner ts => rw [eval, eval, same owner ts draws.1 draws.2]
  | pick _ _ ih | unary _ _ _ ih | fold _ _ _ ih | convert _ _ _ ih => rw [eval, eval, ih draws]
  | join _ _ first second | binary _ _ _ _ first second => rw [eval, eval, first draws.1, second draws.2]
  | call _ _ _ _ ih => rw [eval, eval, ih draws.2]

theorem Draws.imp {Q : Index → Prop} (draws : e.Draws u slots P) (imp : ∀ i ts, slots[i]? = some ts → P i → Q i) :
    e.Draws u slots Q := by
  induction e with
  | literal | zeros => trivial
  | slot owner ts => exact ⟨draws.1, imp owner ts draws.1 draws.2⟩
  | pick _ _ ih | unary _ _ _ ih | fold _ _ _ ih | convert _ _ _ ih => exact ih draws
  | join _ _ first second | binary _ _ _ _ first second => exact ⟨first draws.1, second draws.2⟩
  | call _ _ _ _ ih => exact ⟨draws.1, ih draws.2⟩

theorem congruent_draws (u : Linkage) (slots : IndexMap (List Prim)) (P : Index → Prop) :
    Congruent u fun e e' => e' = e ∧ e.Draws u slots P where
  registers := by rintro _ _ ⟨rfl, _⟩; rfl
  literal _ := ⟨rfl, trivial⟩
  zeros _ := ⟨rfl, trivial⟩
  pick := by rintro _ _ _ ⟨rfl, draws⟩; exact ⟨rfl, draws⟩
  join := by rintro _ _ _ _ ⟨rfl, draws⟩ ⟨rfl, draws'⟩; exact ⟨rfl, draws, draws'⟩
  unary := by rintro _ _ _ _ ⟨rfl, draws⟩; exact ⟨rfl, draws⟩
  binary := by rintro _ _ _ _ _ _ ⟨rfl, draws⟩ ⟨rfl, draws'⟩; exact ⟨rfl, draws, draws'⟩
  fold := by rintro _ _ _ _ ⟨rfl, draws⟩; exact ⟨rfl, draws⟩
  convert := by rintro _ _ _ _ ⟨rfl, draws⟩; exact ⟨rfl, draws⟩
  call := by rintro _ _ _ _ _ signed ⟨rfl, draws⟩; exact ⟨rfl, signed, draws⟩

end Expr

/-! ### Values under other slots -/

namespace Scope

/-- A function whose operands come first, with slots for its atoms only. -/
structure Orderly (s : Scope) : Prop where
  backward : s.buffer.Backward
  named : s.slots[Index.null]? = none

/-- A set of atoms with all that is computed again for them. -/
structure Closed (s : Scope) (P : Index → Prop) : Prop where
  null : P .null
  operands : ∀ n a, P (.ref n) → s.slots[Index.ref n]? = none → s.buffer.atoms[n]? = some a →
    (∃ value e, s.expression value (.ref n) = .ok e) → ∀ o ∈ a.operands, P o
  cells : ∀ n item next, P (.ref n) → s.buffer.atoms[n]? = some (.list item next) → P item ∧ P next

variable {s : Scope} {P : Index → Prop} {slots : IndexMap (List Prim)} {i : Index} {e : Expr}

theorem address_of_operands {a : Atom} {o : Index} (null : P .null) (operands : ∀ o ∈ a.operands, P o)
    (address : o = a.addresses.1 ∨ o = a.addresses.2 ∧ a.isBranch = false) : P o := by
  cases o with
  | null => exact null
  | ref k => exact operands _ (Atom.mem_operands.2 ⟨rfl, address⟩)

theorem Closed.of_useClosed (null : P .null) (closed : s.buffer.UseClosed P) : s.Closed P :=
  ⟨null, fun n a own _ found _ => closed n a own found, fun n _ _ own found =>
    ⟨address_of_operands null (closed n _ own found) (Or.inl rfl),
      address_of_operands null (closed n _ own found) (Or.inr ⟨rfl, rfl⟩)⟩⟩

theorem Closed.all : s.Closed fun _ => True := .of_useClosed trivial fun _ _ _ _ _ _ => trivial

namespace Orderly

theorem early (orderly : s.Orderly) (limit : Nat) : s.Closed fun i => i.rank < limit + 1 :=
  .of_useClosed (Nat.succ_pos _) fun _ _ own found _ member =>
    Nat.lt_trans (orderly.backward.address_lt found (Atom.mem_operands.1 member).2) own

variable (orderly : s.Orderly) (closed : s.Closed P) (agree : ∀ i, P i → slots[i]? = s.slots[i]?)

include orderly closed

theorem items {d : Nat} {items : List Index} (own : P i) (early : i.rank ≤ d) (h : s.items i = .ok items) :
    ∀ item ∈ items, P item ∧ item.rank ≤ d := by
  unfold Member.items at h
  rw [TargetFault.ofFault_ok_iff, expandList_ok_iff] at h
  have cell : ∀ {n : Nat} {item next o : Index}, P (.ref n) → (Index.ref n).rank ≤ d →
      s.buffer.atoms[n]? = some (.list item next) → o = item ∨ o = next → P o ∧ o.rank ≤ d := by
    intro n item next o own early found position
    have address : o = (Atom.list item next).addresses.1 ∨
        o = (Atom.list item next).addresses.2 ∧ (Atom.list item next).isBranch = false :=
      position.imp id fun same => ⟨same, rfl⟩
    exact ⟨position.elim (fun same => same ▸ (closed.cells n item next own found).1)
        (fun same => same ▸ (closed.cells n item next own found).2), Nat.le_trans (Nat.le_of_lt (orderly.backward.address_lt found address)) early⟩
  induction h with
  | nil => exact fun item member => absurd member List.not_mem_nil
  | last found =>
    intro item member
    rw [List.mem_singleton.1 member]
    exact cell own early found (Or.inl rfl)
  | cons found _ _ ih =>
    obtain ⟨own', early'⟩ := cell own early found (Or.inr rfl)
    intro item member
    rcases List.mem_cons.1 member with rfl | later
    · exact cell own early found (Or.inl rfl)
    · exact ih own' early' item later

theorem matched (slots : IndexMap (List Prim)) (d : Nat) :
    s.Matches { s with slots } (fun i => i) fun i => P i ∧ i.rank ≤ d where
  isNull _ := rfl
  isNil _ known := ⟨_, known, rfl⟩
  prim _ shape := shape
  kindred _ linked ts resolved flat := ⟨linked, resolved, flat, Or.inl rfl⟩
  fieldRange _ range := range
  items own h := ⟨by rw [List.map_id']; exact h, orderly.items closed own.1 own.2 h⟩
  literal _ found := found
  callees _ callee known := ⟨callee, known, fun _ layout => layout, fun _ layout => layout⟩
  symbols _ := rfl

include agree

theorem valueAt {depth d : Nat} (own : P i) (early : i.rank ≤ d) (h : s.valueAt depth i = .ok e) :
    ({ s with slots } : Scope).valueAt d i = .ok e ∧ e.Draws s.unit s.slots P := by
  obtain ⟨_, computed, rfl, draws⟩ := Matches.valueAt (orderly.matched closed slots)
    (Expr.congruent_draws s.unit s.slots P)
    (fun j ts own held => ⟨(agree j own).trans held, ⟨rfl, held, own⟩, by
      cases j with
      | null => rw [orderly.named] at held; cases held
      | ref n => exact Nat.succ_pos n⟩)
    (fun j own free => (agree j own).trans free)
    (fun j a own free found computed => by
      obtain ⟨n, rfl, there⟩ := atom_found found
      refine ⟨?_, fun _ => rfl, fun o address => ⟨address_of_operands closed.null
        (closed.operands n a own free there computed) address, orderly.backward.address_lt there address⟩⟩
      rw [show a.mapAddresses (fun i => i) = a from by cases a <;> rfl]
      exact found)
    depth d i e ⟨own, early⟩ h
  exact ⟨computed, draws⟩

theorem expression {depth d : Nat} {n : Nat} {a : Atom} (found : s.buffer.atoms[n]? = some a)
    (operands : ∀ o ∈ a.operands, P o) (early : n ≤ d) (h : s.expression (s.valueAt depth) (.ref n) = .ok e) :
    ({ s with slots } : Scope).expression (({ s with slots } : Scope).valueAt d) (.ref n) = .ok e ∧
      e.Draws s.unit s.slots P := by
  have relates : Relates (fun i => i) (fun i => P i ∧ i.rank ≤ d) (fun e e' => e' = e ∧ e.Draws s.unit s.slots P)
      (s.valueAt depth) (({ s with slots } : Scope).valueAt d) := by
    rintro j e ⟨own, early⟩ computed
    obtain ⟨computed', draws⟩ := orderly.valueAt closed agree own early computed
    exact ⟨e, computed', rfl, draws⟩
  have address : ∀ o, o = a.addresses.1 ∨ o = a.addresses.2 ∧ a.isBranch = false → P o ∧ o.rank ≤ d :=
    fun o address => ⟨address_of_operands closed.null operands address,
      Nat.le_trans (Nat.lt_succ_iff.1 (orderly.backward.address_lt found address)) early⟩
  have answer : s.atom (.ref n) = .ok a := by
    unfold Member.atom
    rw [TargetFault.ofFault_ok_iff, atom_ok_iff]
    exact found
  obtain ⟨_, computed, rfl, draws⟩ := (orderly.matched closed slots d).expression
    (Expr.congruent_draws s.unit s.slots P) relates (fun linked ts resolved flat => ⟨linked, resolved, flat, Or.inl rfl⟩)
    (address _ (Or.inl rfl)) (fun other => address _ (Or.inr ⟨rfl, other⟩)) answer
    (by rw [show a.mapAddresses (fun i => i) = a from by cases a <;> rfl]; exact answer) (fun _ => rfl) h
  exact ⟨computed, draws⟩

theorem value (own : P i) (early : i.rank ≤ s.buffer.size + 1) (h : s.value i = .ok e) :
    ({ s with slots } : Scope).value i = .ok e ∧ e.Draws s.unit s.slots P :=
  orderly.valueAt closed agree own early h

theorem fresh {n : Nat} {a : Atom} (found : s.buffer.atoms[n]? = some a) (operands : ∀ o ∈ a.operands, P o)
    (h : s.fresh (.ref n) = .ok e) :
    ({ s with slots } : Scope).fresh (.ref n) = .ok e ∧ e.Draws s.unit s.slots P :=
  orderly.expression closed agree found operands (Nat.le_of_lt (Array.getElem?_eq_some_iff.1 found).1) h

end Orderly

/-! ### Statements under other slots -/

namespace Orderly

variable (orderly : s.Orderly) (null : P .null) (closed : s.buffer.UseClosed P)
  (agree : ∀ i, P i → slots[i]? = s.slots[i]?)

include orderly null closed agree

theorem place {p : Place} (own : P i) (early : i.rank ≤ s.buffer.size + 1) (h : s.place i = .ok p) :
    ({ s with slots } : Scope).place i = .ok p ∧ P p.owner ∧ s.slots[p.owner]? = some p.scalars := by
  refine placeAt_transfers { s with slots } (fun i => i) P (fun i field _ _ (covers : s.fieldRange i field = _) => covers)
    (fun j ts own held => (agree j own).trans held) (fun j a own found => ?_) own early h
  obtain ⟨n, rfl, there⟩ := atom_found found
  refine ⟨?_, fun _ => rfl, fun o beneath => ?_⟩
  · rw [show a.mapAddresses (fun i => i) = a from by cases a <;> rfl]
    exact found
  · have address := beneath?_address beneath
    exact ⟨address_of_operands null (closed n a own there) (Or.inl address),
      orderly.backward.address_lt there (Or.inl address)⟩

end Orderly

theorem Orderly.act (orderly : s.Orderly) {n : Nat} {a : Atom} (found : s.buffer.atoms[n]? = some a)
    (null : P .null) (closed : s.buffer.UseClosed P) (operands : ∀ o ∈ a.operands, P o)
    (agree : ∀ i, P i → slots[i]? = s.slots[i]?) (st : State) :
    Entails (Scopes.act s st (.ref n) a) (Scopes.act { s with slots } st (.ref n) a) := by
  have closed' := Closed.of_useClosed null closed
  have early : ∀ o, o = a.addresses.1 ∨ o = a.addresses.2 ∧ a.isBranch = false → P o ∧ o.rank ≤ s.buffer.size + 1 := by
    intro o address
    have below : o.rank < n + 1 := orderly.backward.address_lt found address
    have := (Array.getElem?_eq_some_iff.1 found).1
    refine ⟨address_of_operands null operands address, ?_⟩
    unfold Buffer.size
    omega
  have value : ∀ o, o = a.addresses.1 ∨ o = a.addresses.2 ∧ a.isBranch = false →
      Entails (s.value o) (({ s with slots } : Scope).value o) :=
    fun o address e h => (orderly.value closed' agree (early o address).1 (early o address).2 h).1
  have fresh : Entails (s.fresh (.ref n)) (({ s with slots } : Scope).fresh (.ref n)) :=
    fun e h => (orderly.fresh closed' agree found operands h).1
  have bound : Entails (s.fresh (.ref n) >>= st.bind s (.ref n))
      (({ s with slots } : Scope).fresh (.ref n) >>= st.bind { s with slots } (.ref n)) :=
    fresh.bind fun _ _ => .refl _
  have effect : Entails (Native.effect s st (.ref n)) (Native.effect { s with slots } st (.ref n)) :=
    Entails.bind (.refl _) fun _ _ => .ite (fresh.bind fun _ _ => .refl _) bound
  cases a with
  | qualifier | type | list => exact .refl _
  | store dst src =>
    have there : Entails (s.place dst) (({ s with slots } : Scope).place dst) := fun p h =>
      (orderly.place null closed agree (early dst (Or.inl rfl)).1 (early dst (Or.inl rfl)).2 h).1
    exact there.bind fun _ _ => (value src (Or.inr ⟨rfl, rfl⟩)).bind fun _ _ => .refl _
  | ret result =>
    rw [Scopes.act_ret, Scopes.act_ret]
    exact .ite (.refl _) ((value result (Or.inl rfl)).bind fun _ _ => .refl _)
  | branch kind cond failto =>
    have condition : Entails (s.condition cond) (({ s with slots } : Scope).condition cond) :=
      (value cond (Or.inl rfl)).bind fun _ _ => .refl _
    cases kind with
    | ifThen | whileLoop | forLoop => exact condition.bind fun _ _ => .refl _
    | elseIf =>
      show Entails (alternative _ _ _ _ _) (alternative _ _ _ _ _)
      unfold alternative
      split
      · exact (condition.bind fun _ _ => .refl _).bind fun _ _ => .refl _
      · exact .refl _
    | otherwise | next | leave | close => exact .refl _
  | intrinsic code args => exact .ite (.refl _) effect
  | call id ty args => exact effect
  | construct ty args mode =>
    cases mode with
    | transient => exact .refl _
    | normal =>
      rw [Scopes.act_construct, Scopes.act_construct]
      exact .ite (.refl _) bound
  | literal | swizzle | operation | load | access => exact bound

end Scope

end ShaderForge.Native
