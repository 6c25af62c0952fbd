import ShaderForge.Proofs.Native.Extent

/-!
Reads of constructions. A construction with a part for each argument computes its arguments in a row; a
read of one part computes what the argument computes.
-/

namespace ShaderForge.Native

open Buffer Linkage

/-! ### Values in a row -/

theorem filterMap_range' {α : Type} (xs : List α) (start count : Nat) :
    (List.range' start count).filterMap (xs[·]?) = (xs.drop start).take count := by
  induction count generalizing start with
  | zero => rfl
  | succ count ih =>
    rw [List.range'_succ, List.filterMap_cons, ih]
    cases found : xs[start]? with
    | none =>
      have beyond := List.getElem?_eq_none_iff.1 found
      rw [List.drop_eq_nil_of_le beyond, List.drop_eq_nil_of_le (by omega), List.take_nil, List.take_nil]
    | some x =>
      obtain ⟨inside, rfl⟩ := List.getElem?_eq_some_iff.1 found
      rw [List.drop_eq_getElem_cons inside, List.take_succ_cons]

/-- A stretch of a row that is one of its parts, measured by lists that are as long. -/
theorem filterMap_flatten {α β : Type} {xss : List (List α)} {parts : List (List β)} {k : Nat} {xs : List α}
    {own : List β} (alike : List.Forall₂ (fun xs ts => xs.length = ts.length) xss parts)
    (found : xss[k]? = some xs) (part : parts[k]? = some own) :
    (List.range' (parts.take k).flatten.length own.length).filterMap (xss.flatten[·]?) = xs := by
  have before : (xss.take k).flatten.length = (parts.take k).flatten.length := by
    have lengths : ∀ {xss : List (List α)} {parts : List (List β)},
        List.Forall₂ (fun xs ts => xs.length = ts.length) xss parts → xss.flatten.length = parts.flatten.length := by
      intro xss parts alike
      induction alike with
      | nil => rfl
      | cons first _ ih => rw [List.flatten_cons, List.flatten_cons, List.length_append, List.length_append, first, ih]
    exact lengths (List.forall₂_take k alike)
  have here : xs.length = own.length := by
    obtain ⟨inside, rfl⟩ := List.getElem?_eq_some_iff.1 found
    obtain ⟨inside', rfl⟩ := List.getElem?_eq_some_iff.1 part
    exact (List.forall₂_iff_get.1 alike).2 k inside inside'
  rw [filterMap_range', flatten_split found, List.append_assoc, ← before, List.drop_left, ← here, List.take_left]

theorem convert_self {ts : List Prim} {ws : List Word} (whole : ws.length = ts.length) :
    (ts.zip ts).zipWith (fun (s, t) w => Native.convert s t w) ws = ws := by
  induction ts generalizing ws with
  | nil => rw [List.eq_nil_of_length_eq_zero whole]; rfl
  | cons t rest ih =>
    cases ws with
    | nil => cases whole
    | cons w ws =>
      rw [List.zip_cons_cons, List.zipWith_cons_cons, ih (Nat.succ.inj whole)]
      simp [Native.convert]

namespace Expr

variable {callees : Callees} {env : Env} {es : List Expr} {ws : List Word}

theorem eval_concat (computed : (concat es).eval callees env = .ok ws) :
    ∃ wss, List.Forall₂ (fun e ws => e.eval callees env = .ok ws) es wss ∧ ws = wss.flatten := by
  induction es generalizing ws with
  | nil =>
    cases computed
    exact ⟨[], .nil, rfl⟩
  | cons e rest ih =>
    cases rest with
    | nil => exact ⟨[ws], .cons computed .nil, by simp⟩
    | cons next others =>
      obtain ⟨left, first, later⟩ := Except.bind_ok computed
      obtain ⟨right, second, same⟩ := Except.bind_ok later
      cases same
      obtain ⟨wss, each, rfl⟩ := ih second
      exact ⟨left :: wss, .cons first each, rfl⟩

theorem accepted_concat : (concat es).accepted = es.all accepted := by
  induction es with
  | nil => rfl
  | cons e rest ih =>
    cases rest with
    | nil => rw [List.all_cons, List.all_nil, Bool.and_true, concat]
    | cons next others =>
      show (join e (concat (next :: others))).accepted = _
      rw [accepted, ih]
      rfl

theorem Draws.concat {u : Linkage} {slots : IndexMap (List Prim)} {P : Index → Prop}
    (draws : (concat es).Draws u slots P) : ∀ e ∈ es, e.Draws u slots P := by
  induction es with
  | nil => exact fun e member => absurd member List.not_mem_nil
  | cons e rest ih =>
    cases rest with
    | nil =>
      intro e' member
      rw [List.mem_singleton.1 member]
      exact draws
    | cons next others =>
      intro e' member
      rcases List.mem_cons.1 member with rfl | later
      · exact draws.1
      · exact ih draws.2 e' later

end Expr

namespace Scope

variable {s : Scope} {o src item : Index} {e : Expr}

/-! ### Constructions -/

/-- A construction from a list of arguments, with a part of its own for each. -/
structure Builds (s : Scope) (src : Index) (items : List Index) (parts : List (List Prim)) : Prop where
  atom : ∃ ty args mode, s.atom src = .ok (.construct ty args mode) ∧ s.isPlaceholder ty mode = false ∧
    s.items args = .ok items
  each : items.mapM s.scalars = .ok parts
  whole : s.scalars src = .ok parts.flatten

theorem Builds.expression (g : s.Grounded) {value : Index → Lowered Expr} (faithful : s.Faithful value)
    {items : List Index} {parts : List (List Prim)} (builds : s.Builds src items parts) (shown : Shown s.function src)
    (h : s.expression value src = .ok e) :
    ∃ es, items.mapM value = .ok es ∧ List.Forall₂ Expr.Gives es parts ∧
      e = .convert parts.flatten parts.flatten (Expr.concat es) := by
  obtain ⟨ty, args, mode, found, proper, listed⟩ := builds.atom
  unfold Scope.expression at h
  rw [found, Except.ok_bind] at h
  simp only [construct, proper, Bool.false_eq_true, if_false, builds.whole, listed, Except.ok_bind] at h
  replace h := Except.bind_ok h
  obtain ⟨made, given, h⟩ := h
  obtain ⟨n, rfl, there⟩ := atom_found found
  have inside := Shown.items (shown.operand g.closed there (Or.inr ⟨rfl, rfl⟩)) listed g.closed
  obtain ⟨values, scalars, gives⟩ := Grounded.parts_of_items faithful inside given
  obtain rfl := Except.ok.inj (builds.each.symm.trans scalars)
  refine ⟨_, values, gives, ?_⟩
  rw [← List.flatMap_def] at h ⊢
  split at h
  · rename_i source target one first second rest single several
    rw [single] at several
    cases several
  · rw [if_neg (Nat.lt_irrefl _)] at h
    exact (Except.ok.inj h).symm

def Selects (s : Scope) (o src item : Index) : Prop :=
  ∃ items parts k own, s.Builds src items parts ∧ items[k]? = some item ∧ parts[k]? = some own ∧
    ∀ value e, s.expression value o = .ok e → ∃ base, value src = .ok base ∧
      e = .pick base (List.range' (parts.take k).flatten.length own.length)

theorem Selects.item_lt (orderly : s.Orderly) (selects : s.Selects o src item) : item < src := by
  obtain ⟨items, parts, k, own, ⟨⟨ty, args, mode, found, _, listed⟩, _, _⟩, at_item, _⟩ := selects
  obtain ⟨n, rfl, there⟩ := atom_found found
  have below : args < .ref n := orderly.backward.address_lt there (Or.inr ⟨rfl, rfl⟩)
  exact Nat.lt_of_le_of_lt (orderly.items .all trivial (Nat.le_refl _) listed item (List.mem_of_getElem? at_item)).2 below

/-- A constructed value, the argument that is selected, and where in the row it stands. -/
structure Split (s : Scope) (o src item : Index) (whole part : Expr) (before own after : List Prim) : Prop where
  value : s.value item = .ok part
  accepted : whole.accepted = true → part.accepted = true
  scalars : s.scalars src = .ok (before ++ own ++ after)
  gives : whole.Gives (before ++ own ++ after)
  given : part.Gives own
  reads : ∀ value x, s.expression value o = .ok x →
    ∃ base, value src = .ok base ∧ x = .pick base (List.range' before.length own.length)
  computes : ∀ {callees : Callees} {env : Env} {ws : List Word}, callees.Sized s.unit → env.Sized s.slots →
    whole.eval callees env = .ok ws →
    part.eval callees env = .ok ((List.range' before.length own.length).filterMap (ws[·]?))

section

variable (g : s.Grounded) (orderly : s.Orderly) (selects : s.Selects o src item) (shown : Shown s.function src)

include g orderly selects shown

theorem Selects.split (built : s.fresh src = .ok e) :
    ∃ part before own after, s.Split o src item e part before own after := by
  have below := selects.item_lt orderly
  obtain ⟨items, parts, k, own, builds, at_item, at_part, reads⟩ := selects
  obtain ⟨n, a, rfl, found⟩ : ∃ n a, src = .ref n ∧ s.buffer.atoms[n]? = some a := by
    obtain ⟨_, _, _, found, _⟩ := builds.atom
    obtain ⟨n, rfl, there⟩ := atom_found found
    exact ⟨n, _, rfl, there⟩
  obtain ⟨_, draws⟩ := orderly.fresh .all (fun _ _ => rfl) found (fun _ _ => trivial) built
  obtain ⟨es, values, gives, rfl⟩ := builds.expression g (g.valueAt_faithful _) shown built
  obtain ⟨inside, rfl⟩ := List.getElem?_eq_some_iff.1 at_item
  obtain ⟨_, rfl⟩ := List.getElem?_eq_some_iff.1 at_part
  have computed := Except.mapM_ok_iff.1 values
  have inside' : k < es.length := computed.length_eq ▸ inside
  have here : s.valueAt s.buffer.size items[k] = .ok es[k] := (List.forall₂_iff_get.1 computed).2 k inside inside'
  have early : items[k].rank ≤ s.buffer.size + 1 := by
    have := (Array.getElem?_eq_some_iff.1 found).1
    have : items[k].rank < n + 1 := below
    unfold Buffer.size
    omega
  refine ⟨es[k], (parts.take k).flatten, parts[k], (parts.drop (k + 1)).flatten,
    (orderly.valueAt .all (fun _ _ => rfl) trivial early here).1, fun accepted => ?_, ?_, ?_,
    (List.forall₂_iff_get.1 gives).2 k _ _, reads, ?_⟩
  · rw [Expr.accepted, Bool.and_eq_true, Expr.accepted_concat] at accepted
    exact List.all_eq_true.1 accepted.1 _ (List.getElem_mem inside')
  · rw [← flatten_split at_part]
    exact builds.whole
  · rw [← flatten_split at_part]
    exact .convert (.concat gives) rfl
  · intro callees env ws sized full computed
    obtain ⟨row, computed', same⟩ := Except.bind_ok computed
    cases same
    have length := (Expr.Gives.concat gives).eval_length draws sized full computed'
    obtain ⟨wss, each, rfl⟩ := Expr.eval_concat computed'
    have evaluated := List.forall₂_iff_get.1 each
    have inside'' : k < wss.length := each.length_eq ▸ inside'
    have alike : List.Forall₂ (fun ws ts => ws.length = ts.length) wss parts := by
      refine List.forall₂_iff_get.2 ⟨each.length_eq.symm.trans gives.length_eq, fun j low high => ?_⟩
      have low' : j < es.length := each.length_eq ▸ low
      exact ((List.forall₂_iff_get.1 gives).2 j low' high).eval_length (draws.concat _ (List.get_mem es ⟨j, low'⟩))
        sized full (evaluated.2 j low' low)
    rw [convert_self length, filterMap_flatten alike (List.getElem?_eq_getElem inside'') at_part]
    exact evaluated.2 k inside' inside''

end

theorem Split.registers {whole part base : Expr} {before own after : List Prim}
    (split : s.Split o src item whole part before own after)
    (same : base.registers = (before ++ own ++ after).map Register.ofPrim) :
    part.registers = (Expr.pick base (List.range' before.length own.length)).registers := by
  have length : before.length = (before.map Register.ofPrim).length := (List.length_map _).symm
  rw [split.given.registers, Expr.registers, same, filterMap_range', List.map_append, List.map_append,
    List.append_assoc, length, List.drop_left, List.take_left' (List.length_map _)]

theorem Selects.reads {x : Expr} {ts : List Prim} (selects : s.Selects o src item) (free : s.slots[o]? = none)
    (held : s.slots[src]? = some ts) (h : s.value o = .ok x) : ∃ positions, x = .pick (.slot src ts) positions := by
  unfold Scope.value valueAt at h
  rw [free] at h
  obtain ⟨_, _, _, _, ⟨⟨_, _, _, found, _⟩, _, _⟩, _, _, reads⟩ := selects
  obtain ⟨base, computed, rfl⟩ := reads _ _ h
  obtain ⟨n, rfl, there⟩ := atom_found found
  obtain ⟨size, same⟩ : ∃ k, s.buffer.size = k + 1 := by
    have inside : n < s.buffer.size := (Array.getElem?_eq_some_iff.1 there).1
    exact ⟨s.buffer.size - 1, by omega⟩
  rw [same, valueAt, held] at computed
  cases computed
  exact ⟨_, rfl⟩

section

variable {x : Expr} (g : s.Grounded) (orderly : s.Orderly) (selects : s.Selects o src item)
  (shown : Shown s.function src) (free : s.slots[o]? = none) (h : s.value o = .ok x)

include g orderly selects shown free h

/-- A read of a construction that is computed at each use computes what the argument computes. -/
theorem Selects.transient (inline : s.slots[src]? = none) :
    ∃ y, s.value item = .ok y ∧ y.registers = x.registers ∧ (x.accepted = true → y.accepted = true) ∧
      ∀ {callees : Callees} {env : Env}, callees.Sized s.unit → env.Sized s.slots →
        Entails (x.eval callees env) (y.eval callees env) := by
  unfold Scope.value valueAt at h
  rw [free] at h
  obtain ⟨items, parts, k, own, builds, at_item, at_part, reads⟩ := id selects
  obtain ⟨base, computed, _⟩ := reads _ _ h
  have built : s.fresh src = .ok base := by
    have early : src.rank ≤ s.buffer.size + 1 := by
      obtain ⟨_, _, _, found, _⟩ := builds.atom
      obtain ⟨n, rfl, there⟩ := atom_found found
      exact Nat.succ_le_succ (Nat.le_of_lt (Array.getElem?_eq_some_iff.1 there).1)
    have again := (orderly.valueAt .all (fun _ _ => rfl) trivial early computed).1
    unfold valueAt at again
    rw [inline] at again
    exact again
  obtain ⟨y, before, own, after, split⟩ := selects.split g orderly shown built
  obtain ⟨base', computed', rfl⟩ := split.reads _ _ h
  obtain rfl := Except.ok.inj (computed.symm.trans computed')
  refine ⟨y, split.value, split.registers split.gives.registers, split.accepted, fun sized full ws evaluated => ?_⟩
  obtain ⟨row, inner, same⟩ := Except.bind_ok evaluated
  cases same
  exact split.computes sized full inner

/-- A read of a construction that is kept computes what the argument computes, once it is kept. -/
theorem Selects.captured {ts : List Prim} (held : s.slots[src]? = some ts) (built : s.fresh src = .ok e)
    (accepted : e.accepted = true) :
    ∃ y, s.value item = .ok y ∧ y.registers = x.registers ∧ y.accepted = true ∧
      ∀ {callees : Callees} {env : Env} {ws : List Word}, callees.Sized s.unit → env.Sized s.slots →
        e.eval callees env = .ok ws →
        Entails (x.eval callees (env.insert src ws)) (y.eval callees (env.insert src ws)) := by
  have below := selects.item_lt orderly
  obtain ⟨y, before, own, after, split⟩ := selects.split g orderly shown built
  unfold Scope.value valueAt at h
  rw [free] at h
  obtain ⟨base, computed, rfl⟩ := split.reads _ _ h
  obtain ⟨n, rfl, inside⟩ : ∃ n, src = .ref n ∧ n < s.buffer.size := by
    obtain ⟨_, _, _, _, builds, _⟩ := selects
    obtain ⟨_, _, _, found, _⟩ := builds.atom
    obtain ⟨n, rfl, there⟩ := atom_found found
    exact ⟨n, rfl, (Array.getElem?_eq_some_iff.1 there).1⟩
  obtain ⟨size, same⟩ : ∃ k, s.buffer.size = k + 1 := ⟨s.buffer.size - 1, by omega⟩
  rw [same, valueAt, held] at computed
  cases computed
  have whole : ts = before ++ own ++ after := Except.ok.inj ((g.slots _ ts held).symm.trans split.scalars)
  have early : item.rank ≤ s.buffer.size + 1 := by
    have : item.rank < n + 1 := below
    omega
  have draws : y.Draws s.unit s.slots (· < .ref n) :=
    (orderly.value (orderly.early n) (fun _ _ => rfl) below early split.value).2
  refine ⟨y, split.value, split.registers (whole ▸ rfl), split.accepted accepted,
    fun {callees env ws} sized full evaluated vs read => ?_⟩
  have kept : ∀ i ts, s.slots[i]? = some ts → i < .ref n → Env.slot (env.insert (.ref n) ws) i ts = env.slot i ts := by
    intro i ts _ earlier
    refine Env.slot_insert_of_ne env ws ts ?_
    rintro rfl
    exact Nat.lt_irrefl _ earlier
  rw [draws.eval_congr callees kept, split.computes sized full evaluated, ← read, Expr.eval, Expr.eval,
    Env.slot_insert_self]
  rfl

end

end Scope

end ShaderForge.Native
