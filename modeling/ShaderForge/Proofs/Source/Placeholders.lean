import ShaderForge.Proofs.Source.Bypass
import ShaderForge.Source.Cpp

/-!
Placeholders in generated text. A function reads the same whether it names a placeholder or the
qualifier that the placeholder stands for, unless a read of a declared block reference starts there:
the placeholder is followed, the block is not.
-/

namespace ShaderForge

def Index.instead (p q i : Index) : Index := if i = p then q else i

/-- A construction without arguments that stands for a qualifier. -/
structure Buffer.StandsFor (b : Buffer) (p q : Index) : Prop where
  construct : b.get? p = some (.construct q .null .transient)
  qualifier : ∃ underlying kind number, b.get? q = some (.qualifier underlying kind number)

theorem Buffer.StandsFor.nonempty {b : Buffer} {p q : Index} (stands : b.StandsFor p q) : b.size ≠ 0 := by
  have construct := stands.construct
  cases p with
  | null => cases construct
  | ref n =>
    have := (Array.getElem?_eq_some_iff.1 construct).1
    unfold size
    omega

/-- The registry whose function of a number reads through a map of addresses. -/
def Registry.bypass (r : Registry) (id : FunctionId) (via : Index → Index) : Registry :=
  (r.get? id).elim r fun f => r.put (f.bypass via)

namespace Statement

open Buffer Linkage

variable {r : Registry} {entries : List FunctionId} {u : Linkage} {f g : Function} {id : FunctionId} {p q : Index}

theorem bypasses_instead (stands : f.buffer.StandsFor p q) :
    f.buffer.Bypasses (f.bypass (Index.instead p q)).buffer (Index.instead p q) := by
  refine ⟨fun i moved => ?_, rfl⟩
  by_cases here : i = p
  · obtain ⟨underlying, kind, number, qualifier⟩ := stands.qualifier
    rw [Index.instead, if_pos here, here]
    exact ⟨underlying, kind, number, stands.construct, qualifier⟩
  · rw [Index.instead, if_neg here] at moved
    exact (moved rfl).elim

/-- One function reads through a map of addresses, the others as they do. -/
def only (id : FunctionId) (via : Index → Index) (other : FunctionId) : Index → Index :=
  if other = id then via else fun i => i

theorem registered_bypass (known : r.get? id = some f) (stands : f.buffer.StandsFor p q) (other : FunctionId) :
    Option.Rel (Detours (only id (Index.instead p q))) (r.get? other)
      ((r.bypass id (Index.instead p q)).get? other) := by
  have own : f.id = id := r.keyed id f known
  subst own
  have pair : Detours (only f.id (Index.instead p q)) f (f.bypass (Index.instead p q)) :=
    detours_bypass (if_pos rfl) (bypasses_instead stands) stands.nonempty
  have others : ∀ g : Function, g.id ≠ f.id → Detours (only f.id (Index.instead p q)) g g :=
    fun g different => .refl fun i => by rw [only, if_neg different]
  have same : (f.bypass (Index.instead p q)).id = f.id := rfl
  unfold Registry.bypass
  rw [known, Option.elim_some]
  exact registered_put known same pair others other

theorem calls_beside {vias : FunctionId → Index → Index} {u' : Linkage} (beside : Linkage.Beside vias u u')
    {d : Dialect} (printed : d ∈ [Glsl.dialect, Cpp.dialect]) : d.call u' = d.call u := by
  have used : ∀ callee, u'.globalsUsed callee = u.globalsUsed callee := by
    intro callee
    unfold globalsUsed
    rw [beside.dependencies, beside.uses]
  simp only [List.mem_cons, List.not_mem_nil, or_false] at printed
  rcases printed with rfl | rfl
  · rfl
  · funext callee symbol args
    simp only [Cpp.dialect, Cpp.spelled, Cpp.resources, used]

/-- Placeholders are transparent in generated text. Whatever stands at a placeholder's operand positions may be
its qualifier instead: linking still succeeds, and the body is printed as before, in both dialects. The one
exception is a visible read that starts at a placeholder of a declared block reference. -/
theorem placeholder_transparent (linked : link r entries = .ok u) (known : r.get? id = some f)
    (found : u.function? id = some g) (stands : f.buffer.StandsFor p q)
    (unread : g.buffer.IsBlockReference q → ∀ i ∈ visibleAtoms g.buffer, ∀ a, g.buffer.get? i = some a →
      a.origin? ≠ some p) :
    ∃ u' g', link (r.bypass id (Index.instead p q)) entries = .ok u' ∧ u'.function? id = some g' ∧
      g'.buffer.atoms = g.buffer.atoms.map (·.bypass (Index.instead p q)) ∧
      ∀ d ∈ [Glsl.dialect, Cpp.dialect], ∀ text, body { unit := u, function := g, dialect := d } = .ok text →
        body { unit := u', function := g', dialect := d } = .ok text := by
  obtain ⟨u', linked', beside⟩ := link_beside (registered_bypass known stands) linked
  obtain ⟨g', found', bypasses⟩ := beside.paired.function?_some bypasses_alike found
  have closed := linked_of_link linked
  have member := List.mem_of_find?_eq_some found
  have prepared := (closed.made.coherent.placed g member).prepared
  have own : g.id = id := by simpa using List.find?_some found
  have via : only id (Index.instead p q) g.id = Index.instead p q := if_pos own
  obtain ⟨raw, registered, preparing, _⟩ := closed.records.prepared g member
  rw [own, known, Option.some.injEq] at registered
  subst registered
  have nonempty : g.buffer.size ≠ 0 := by
    unfold size
    rw [(Function.prepared_of_prepare preparing).2.2.2]
    exact stands.nonempty
  refine ⟨u', g', linked', found', via ▸ bypasses.buffer.atoms, fun d printed => ?_⟩
  have redirected : Redirected (only id (Index.instead p q)) { unit := u, function := g, dialect := d }
      { unit := u', function := g', dialect := d } :=
    { unit := beside
      function := bypasses
      typed := prepared.typed nonempty
      backward := prepared.backward
      dialect := rfl
      calls := calls_beside beside printed
      locals := rfl
      unnamed := fun i _ => ⟨by simp, by simp⟩
      origins := fun n a src shown there starts moved block => ?_ }
  · exact redirected.body
  · change only id (Index.instead p q) g.id src ≠ src at moved
    change g.buffer.IsBlockReference (only id (Index.instead p q) g.id src) at block
    rw [via] at moved block
    by_cases here : src = p
    · rw [here, Index.instead, if_pos rfl] at block
      exact unread block _ shown a there (here ▸ starts)
    · rw [Index.instead, if_neg here] at moved
      exact moved rfl

def body? (r : Registry) (id : FunctionId) (d : Dialect) : Option String := do
  let u ← (link r [id]).toOption
  let g ← u.function? id
  (body { unit := u, function := g, dialect := d }).toOption

/-- A block that is read by itself, and assigned and returned through a placeholder. -/
def assigned : Registry :=
  (Registry.empty.register "f" (Buffer.ofContent [.type .f32 .null .null, .qualifier (.ref 0) .storageBuffer 3,
    .construct (.ref 1) .null .transient, .load (.ref 1) (-1), .store (.ref 2) (.ref 3), .ret (.ref 2)] [] [])).2

theorem assigned_transparent :
    ∃ u' g', link (assigned.bypass 0 (Index.instead (.ref 2) (.ref 1))) [0] = .ok u' ∧ u'.function? 0 = some g' ∧
      g'.buffer.atoms[4]? = some (.store (.ref 1) (.ref 3)) ∧
      body { unit := u', function := g', dialect := Glsl.dialect } =
        .ok "    _buffer3.data = _buffer3.data;\n    return _buffer3.data;\n" ∧
      body { unit := u', function := g', dialect := Cpp.dialect } =
        .ok "    _buffer3 = _buffer3;\n    return _buffer3;\n" := by
  have passes : ((assigned.get? 0).any fun f => (link assigned [0]).toOption.any fun u =>
      (u.function? 0).any fun g => decide (f.buffer.get? (.ref 2) = some (.construct (.ref 1) .null .transient) ∧
        f.buffer.get? (.ref 1) = some (.qualifier (.ref 0) .storageBuffer 3) ∧
        (g.buffer.indexed.all fun p => p.2.origin? ≠ some (.ref 2)) = true ∧
        g.buffer.atoms[4]? = some (Atom.store (.ref 2) (.ref 3)) ∧
        (body { unit := u, function := g, dialect := Glsl.dialect }).toOption =
          some "    _buffer3.data = _buffer3.data;\n    return _buffer3.data;\n" ∧
        (body { unit := u, function := g, dialect := Cpp.dialect }).toOption =
          some "    _buffer3 = _buffer3;\n    return _buffer3;\n")) = true := by decide +kernel
  obtain ⟨f, known, passes⟩ := (Option.any_eq_true _ _).1 passes
  obtain ⟨u, linked, passes⟩ := (Option.any_eq_true _ _).1 passes
  obtain ⟨g, found, passes⟩ := (Option.any_eq_true _ _).1 passes
  rw [Except.toOption_eq_some_iff] at linked
  obtain ⟨construct, qualifier, reads, stored, glsl, cpp⟩ := of_decide_eq_true passes
  obtain ⟨u', g', linked', found', atoms, same⟩ := placeholder_transparent linked known found
    ⟨construct, _, _, _, qualifier⟩ fun _ i _ a there => by
      rw [List.all_eq_true] at reads
      cases i with
      | null => cases there
      | ref n => exact of_decide_eq_true (reads (.ref n, a) (mem_indexed.2 ⟨n, rfl, there⟩))
  refine ⟨u', g', linked', found', ?_, same _ (by simp) _ (Except.toOption_eq_some_iff.1 glsl),
    same _ (by simp) _ (Except.toOption_eq_some_iff.1 cpp)⟩
  rw [atoms, Array.getElem?_map, stored]
  rfl

/-- A block that is read through a placeholder. -/
def followed : Registry :=
  (Registry.empty.register "f" (Buffer.ofContent [.type .f32 .null .null, .qualifier (.ref 0) .storageBuffer 3,
    .construct (.ref 1) .null .transient, .load (.ref 2) (-1), .ret (.ref 3)] [] [])).2

/-- A read follows the placeholder of a block, and takes the block as it is. -/
theorem followed_not_transparent :
    (∃ f, followed.get? 0 = some f ∧ f.buffer.StandsFor (.ref 2) (.ref 1)) ∧
      body? followed 0 Glsl.dialect = some "    return _buffer3.data.data;\n" ∧
      body? (followed.bypass 0 (Index.instead (.ref 2) (.ref 1))) 0 Glsl.dialect =
        some "    return _buffer3.data;\n" ∧
      body? followed 0 Cpp.dialect = some "    return (*_buffer3);\n" ∧
      body? (followed.bypass 0 (Index.instead (.ref 2) (.ref 1))) 0 Cpp.dialect = some "    return _buffer3;\n" := by
  have passes : ((followed.get? 0).any fun f =>
      decide (f.buffer.get? (.ref 2) = some (.construct (.ref 1) .null .transient) ∧
        f.buffer.get? (.ref 1) = some (.qualifier (.ref 0) .storageBuffer 3))) = true := by decide +kernel
  obtain ⟨f, known, passes⟩ := (Option.any_eq_true _ _).1 passes
  obtain ⟨construct, qualifier⟩ := of_decide_eq_true passes
  exact ⟨⟨f, known, construct, _, _, _, qualifier⟩, by decide +kernel⟩

end Statement

end ShaderForge
