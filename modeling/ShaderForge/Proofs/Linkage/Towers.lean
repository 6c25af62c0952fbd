import ShaderForge.Proofs.Linkage.Wrappers

/-!
Images and samplers of a linked unit under their wrappers. Modifiers and formats take effect wherever
they stand in the chain; the length of an array is set just where the array stands directly on the
resource.
-/

namespace ShaderForge.Linkage

open Buffer

variable {f : Function} {u v : Linkage} {g : Global} {i : Index}

/-! ### Scanning -/

/-- A property of units that the chosen atoms take along one after another, and that the others leave
alone. -/
theorem declareAtoms_through (P : List Index → Linkage → Prop) (chosen : List Index) {items : List Index}
    (keep : ∀ i ∈ items, i ∉ chosen → ∀ done uses used u v, P done u →
      Succeeds (declareAtom f uses i) u used v → P done v)
    (take : ∀ i done uses used u v, done ++ [i] <+: chosen → P done u →
      Succeeds (declareAtom f uses i) u used v → P (done ++ [i]) v)
    (done : List Index) (rest : done ++ items.filter (· ∈ chosen) = chosen) {uses used : GlobalSet} (start : P done u)
    (ran : Succeeds (items.foldlM (declareAtom f) uses) u used v) : P chosen v := by
  induction items generalizing done uses u with
  | nil =>
    obtain ⟨_, rfl⟩ := Succeeds.of_pure.1 ran
    rw [List.filter_nil, List.append_nil] at rest
    exact rest ▸ start
  | cons i items ih =>
    rw [List.foldlM_cons] at ran
    obtain ⟨_, w, one, ran⟩ := Succeeds.bind_iff.1 ran
    have others := fun j member => keep j (List.mem_cons_of_mem i member)
    by_cases here : i ∈ chosen
    · rw [List.filter_cons_of_pos (by simpa using here), List.append_cons] at rest
      exact ih others _ rest (take i done _ _ _ _ ⟨_, rest⟩ start one) ran
    · rw [List.filter_cons_of_neg (by simpa using here)] at rest
      exact ih others _ rest (keep i List.mem_cons_self here done _ _ _ _ start one) ran

/-- The tables after a scan are those after declaring all visible atoms in order. -/
theorem scan_declares {callees : FunctionSet} (ran : Succeeds (scan f) u callees v) :
    ∃ w x used, w.globals = u.globals ∧ Succeeds ((shownAtoms f).foldlM (declareAtom f) ∅) w used x ∧
      v.globals = x.globals := by
  rw [scan_eq] at ran
  obtain ⟨⟨map, called⟩, w, scanned, ran⟩ := Succeeds.bind_iff.1 ran
  obtain ⟨_, w', stored, ran⟩ := Succeeds.bind_iff.1 ran
  obtain ⟨used, x, declared, ran⟩ := Succeeds.bind_iff.1 ran
  obtain ⟨_, _, stored', ran⟩ := Succeeds.bind_iff.1 ran
  obtain rfl := Succeeds.of_modify.1 stored'
  obtain ⟨_, rfl⟩ := Succeeds.of_pure.1 ran
  have same := (scanAll_confined f).keeps u
  rw [show outcome (scanAll f) u = (.ok (map, called), w) from scanned] at same
  simp only [outside, Prod.mk.injEq] at same
  refine ⟨w', x, used, ?_, declared, rfl⟩
  rw [← Succeeds.of_modify.1 stored]
  exact same.2.1

/-- A function of which no visible qualifier names a global. -/
def Silent (g : Global) (f : Function) : Prop := ∀ i ∈ visibleAtoms f.buffer, Global.resolve? f.buffer i ≠ some g

theorem declareAtom_entry (backward : f.buffer.Backward) (other : Global.resolve? f.buffer i ≠ some g)
    {uses used : GlobalSet} (ran : Succeeds (declareAtom f uses i) u used v) :
    v.globals.binding? g = u.globals.binding? g := by
  have kept := (declareAtom_keeps backward other uses).keeps u
  rw [show outcome (declareAtom f uses i) u = (.ok used, v) from ran] at kept
  exact kept

theorem scan_silent {callees : FunctionSet} (backward : f.buffer.Backward) (silent : Silent g f)
    (ran : Succeeds (scan f) u callees v) : v.globals.binding? g = u.globals.binding? g := by
  obtain ⟨w, x, used, start, declared, final⟩ := scan_declares ran
  rw [final, ← start]
  refine declareAtoms_through (fun _ x => x.globals.binding? g = w.globals.binding? g) []
    (fun i member _ done _ _ u v before one => ?_) (fun i done _ _ _ _ part => ?_) [] (by simp) rfl declared
  · exact (declareAtom_entry backward (silent i (Std.ExtTreeSet.mem_toList.1 member)) one).trans before
  · simp at part

/-! ### A resource under its wrappers -/

/-- An image or a sampler with its wrappers, the innermost first. -/
structure Tower where
  base : Index
  resource : Qualifier
  number : Int32
  top : Index
  wrappers : List (Index × Wrapper)

namespace Tower

variable {t : Tower}

def addresses (t : Tower) : List Index := t.base :: t.wrappers.map Prod.fst

def layers (t : Tower) : List Wrapper := t.wrappers.map Prod.snd

/-- A tower among the visible atoms of a function. -/
structure In (t : Tower) (f : Function) : Prop where
  declared : ∃ underlying, f.buffer.get? t.base = some (.qualifier underlying t.resource t.number)
  bindable : (t.resource.sampler?.isSome || t.resource.image?.isSome) = true
  chain : Chain f.buffer t.base t.top t.wrappers
  kinds : ∀ w ∈ t.layers, takes t.resource w.kind = true
  visible : t.top ∈ visibleAtoms f.buffer

/-- No visible qualifier of a function outside the tower names its binding. -/
def Alone (t : Tower) (f : Function) : Prop :=
  ∀ i ∈ visibleAtoms f.buffer, Global.resolve? f.buffer i = Global.ofQualifier? t.resource t.number.toInt → i ∈ t.addresses

theorem In.filter_shownAtoms (within : t.In f) (backward : f.buffer.Backward) :
    (shownAtoms f).filter (· ∈ t.addresses) = t.addresses := by
  obtain ⟨underlying, declared⟩ := within.declared
  have visible : ∀ i ∈ t.addresses, i ∈ visibleAtoms f.buffer := by
    have chain := within.chain
    unfold addresses
    cases base : t.base with
    | null =>
      rw [base] at declared
      cases declared
    | ref n =>
      rw [base] at chain
      exact chain.each (visibleAtoms_useClosed backward) within.visible
  have ascending : (shownAtoms f).Pairwise (· < ·) := Std.ExtTreeSet.ordered_toList.imp Index.compare_eq_lt.1
  refine eq_of_ascending id (ascending.filter _) (within.chain.ascending backward).1 fun i => ?_
  rw [List.mem_filter, decide_eq_true_iff]
  exact ⟨fun both => both.2, fun member => ⟨Std.ExtTreeSet.mem_toList.2 (visible i member), member⟩⟩

/-- What a scan has made of the binding of a tower when it has come to some of its addresses. -/
def Reaches (t : Tower) (origin : Origin) (g : Global) (done : List Index) (u : Linkage) : Prop :=
  done = [] ∧ u.globals.binding? g = none ∨
    ∃ ws, ws <+: t.wrappers ∧ done = t.base :: ws.map Prod.fst ∧
      u.globals.binding? g = wrapped t.resource origin (ws.map Prod.snd)

theorem In.take {uses used : GlobalSet} {done : List Index} (within : t.In f) (backward : f.buffer.Backward)
    (names : Global.ofQualifier? t.resource t.number.toInt = some g) (next : done ++ [i] <+: t.addresses)
    (reaches : t.Reaches ⟨f.id, t.base⟩ g done u) (ran : Succeeds (declareAtom f uses i) u used v) :
    t.Reaches ⟨f.id, t.base⟩ g (done ++ [i]) v := by
  obtain ⟨underlying, declared⟩ := within.declared
  rcases reaches with ⟨rfl, fresh⟩ | ⟨ws, part, rfl, entry⟩
  · obtain ⟨rfl, -⟩ := List.cons_prefix_cons.1 next
    obtain ⟨answer, ran⟩ := declareAtom_succeeds declared ran
    exact Or.inr ⟨[], List.nil_prefix, rfl, declare_fresh names within.bindable fresh ran⟩
  · obtain ⟨rest, whole⟩ := part
    have next : ws.map Prod.fst ++ [i] <+: t.wrappers.map Prod.fst := (List.cons_prefix_cons.1 next).2
    rw [← whole, List.map_append, List.prefix_append_right_inj] at next
    cases rest with
    | nil => simp at next
    | cons first rest =>
      obtain ⟨j, w⟩ := first
      obtain ⟨rfl, -⟩ := List.cons_prefix_cons.1 next
      have longer : ws ++ [(i, w)] <+: t.wrappers := ⟨rest, by rw [← whole, List.append_assoc]; rfl⟩
      obtain ⟨mid, chain, found⟩ := within.chain.step longer
      obtain ⟨answer, ran⟩ := declareAtom_succeeds found ran
      have kinds : ∀ x ∈ ws ++ [(i, w)], takes t.resource x.2.kind = true :=
        fun x member => within.kinds x.2 (List.mem_map_of_mem (longer.subset member))
      refine Or.inr ⟨ws ++ [(i, w)], longer, by simp, ?_⟩
      exact declare_wrapper backward declared chain (fun x member => kinds x (List.mem_append_left _ member))
        (kinds _ (List.mem_append_right _ (List.mem_singleton_self _))) names entry ran

theorem In.scan {callees : FunctionSet} (within : t.In f) (alone : t.Alone f) (backward : f.buffer.Backward)
    (names : Global.ofQualifier? t.resource t.number.toInt = some g) (fresh : u.globals.binding? g = none)
    (ran : Succeeds (scan f) u callees v) : v.globals.binding? g = wrapped t.resource ⟨f.id, t.base⟩ t.layers := by
  obtain ⟨w, x, used, start, declared, final⟩ := scan_declares ran
  -- the tower's own atoms move its binding one wrapper at a time, the others leave it alone
  have reached : t.Reaches ⟨f.id, t.base⟩ g t.addresses x := by
    refine declareAtoms_through _ t.addresses (fun i member other done _ _ u v before one => ?_)
      (fun i done _ _ _ _ next before one => within.take backward names next before one) []
      (within.filter_shownAtoms backward) (Or.inl ⟨rfl, start ▸ fresh⟩) declared
    have unnamed : Global.resolve? f.buffer i ≠ some g := fun resolved =>
      other (alone i (Std.ExtTreeSet.mem_toList.1 member) (resolved.trans names.symm))
    unfold Reaches
    rw [declareAtom_entry backward unnamed one]
    exact before
  rcases reached with ⟨none, _⟩ | ⟨ws, part, whole, entry⟩
  · cases none
  · have all : ws = t.wrappers := by
      refine part.eq_of_length ?_
      have same := congrArg List.length whole
      simpa [addresses] using same.symm
    rw [final, entry, all]
    rfl

end Tower

/-! ### Linking -/

/-- A unit whose functions have numbers of their own. -/
structure Numbered (u : Linkage) : Prop extends Coherent u where
  once : (u.functions.map (·.id)).Nodup

theorem numbered_fresh : Numbered {} := ⟨coherent_fresh, List.nodup_nil⟩

theorem Numbered.addOne {r : Registry} {needed : List Function} (numbered : Numbered u)
    (new : u.contains f.id = false) (h : Succeeds (addOne r f) u needed v) :
    Numbered v ∧ ∃ g callees w, v.functions = u.functions ++ [g] ∧ g ∉ u.functions ∧
      Succeeds (scan g) u callees w ∧ v.globals = w.globals := by
  have coherent := numbered.toCoherent.addOne new h
  obtain ⟨g, callees, w, preparing, scanning, _, rfl⟩ := addOne_succeeds.1 h
  have functions := (scan_frame scanning).1
  have same := (Function.prepared_of_prepare preparing).2.1
  have unlisted : g.id ∉ u.functions.map (·.id) := by
    intro listed
    obtain ⟨other, member, clash⟩ := List.mem_map.1 listed
    have known := numbered.recorded other member
    rw [clash, same, new] at known
    cases known
  refine ⟨⟨coherent, ?_⟩, g, callees, w, ?_, fun member => unlisted (List.mem_map_of_mem member), scanning, rfl⟩
  · show ((w.functions ++ [g]).map (·.id)).Nodup
    rw [functions, List.map_append, List.map_singleton, List.nodup_append]
    refine ⟨numbered.once, List.nodup_singleton _, fun id old other here clash => unlisted ?_⟩
    rw [← List.mem_singleton.1 here, ← clash]
    exact old
  · show w.functions ++ [g] = _
    rw [functions]

theorem function?_id {id : FunctionId} (found : u.function? id = some f) : f.id = id := by
  simpa using List.find?_some found

theorem Numbered.function? (numbered : Numbered u) (member : f ∈ u.functions) : u.function? f.id = some f := by
  cases found : u.function? f.id with
  | none => exact absurd (List.find?_eq_none.1 found f member) (by simp)
  | some other =>
    rw [List.inj_on_of_nodup_map numbered.once (function?_mem found) member (function?_id found)]

theorem arranged_sublist (u : Linkage) : ((arranged u).functions.map (·.id)).Sublist u.dependencies.place := by
  have each : ∀ ids : List FunctionId, ((ids.filterMap u.function?).map (·.id)).Sublist ids := by
    intro ids
    induction ids with
    | nil => exact .slnil
    | cons id rest ih =>
      cases found : u.function? id with
      | none =>
        rw [List.filterMap_cons_none found]
        exact ih.cons id
      | some g =>
        rw [List.filterMap_cons_some found, List.map_cons, function?_id found]
        exact ih.cons_cons id
  exact each _

theorem Numbered.sort (numbered : Numbered u) (h : Succeeds sort u ⟨⟩ v) :
    Numbered v ∧ (∀ f, f ∈ v.functions ↔ f ∈ u.functions) ∧ v.globals = u.globals := by
  have coherent := numbered.toCoherent.sort h
  rcases sort_cases u with ⟨sorted, closed, acyclic⟩ | ⟨⟨names, failed⟩, _⟩
  · have same : v = arranged u := by
      have both := h.symm.trans sorted
      simpa using both
    subst same
    refine ⟨⟨coherent, ?_⟩, fun f => ⟨fun member => ?_, fun member => ?_⟩, rfl⟩
    · exact (CallGraph.placeFrom_nodup _ _ _).sublist (arranged_sublist u)
    · obtain ⟨id, _, found⟩ := List.mem_filterMap.1 member
      exact function?_mem found
    · have known : f.id ∈ u.dependencies := Std.ExtTreeMap.contains_iff_mem.1 (numbered.recorded f member)
      exact List.mem_filterMap.2 ⟨f.id, CallGraph.place_complete closed acyclic f.id known, numbered.function? member⟩
  · rw [Succeeds, failed] at h
    cases h

/-- The binding of a tower in a unit where no other function names it: nothing as long as the tower's
function is not there, then what the tower makes of it. -/
structure Holds (t : Tower) (f : Function) (g : Global) (u : Linkage) : Prop extends Numbered u where
  entry : (∀ h ∈ u.functions, h = f ∨ Silent g h) →
    f ∉ u.functions ∧ u.globals.binding? g = none ∨
      f ∈ u.functions ∧ u.globals.binding? g = wrapped t.resource ⟨f.id, t.base⟩ t.layers

section

variable {t : Tower} {r : Registry}

theorem Holds.addOne {h : Function} {needed : List Function} (within : t.In f) (alone : t.Alone f)
    (names : Global.ofQualifier? t.resource t.number.toInt = some g) (holds : Holds t f g u)
    (new : u.contains h.id = false) (added : Succeeds (addOne r h) u needed v) : Holds t f g v := by
  obtain ⟨numbered, k, callees, w, functions, unlisted, scanned, globals⟩ := holds.toNumbered.addOne new added
  refine ⟨numbered, fun each => ?_⟩
  have listed : k ∈ v.functions := by simp [functions]
  have backward := (numbered.placed k listed).prepared.backward
  have before := holds.entry fun other member => each other (by simp [functions, member])
  rw [globals]
  -- the function of the tower is added once, to a unit that has nothing at its binding yet
  by_cases here : k = f
  · subst here
    have fresh := (before.resolve_right fun there => unlisted there.1).2
    exact Or.inr ⟨listed, within.scan alone backward names fresh scanned⟩
  · rw [scan_silent backward ((each k listed).resolve_left here) scanned, functions, List.mem_append,
      List.mem_singleton, or_iff_left (Ne.symm here)]
    exact before

theorem Holds.sort (holds : Holds t f g u) (sorted : Succeeds sort u ⟨⟩ v) : Holds t f g v := by
  obtain ⟨numbered, members, globals⟩ := holds.toNumbered.sort sorted
  refine ⟨numbered, fun each => ?_⟩
  rw [members, globals]
  exact holds.entry fun h member => each h ((members h).2 member)

theorem Reached.holds (reached : Reached r u) (within : t.In f) (alone : t.Alone f)
    (names : Global.ofQualifier? t.resource t.number.toInt = some g) : Holds t f g u := by
  have empty : Globals.binding? {} g = none := by cases g <;> simp [Globals.binding?]
  refine reached.keeps ⟨numbered_fresh, fun _ => Or.inl ⟨List.not_mem_nil, empty⟩⟩ ?_ ?_
  · intro h u needed v holds new added
    exact holds.addOne within alone names new added
  · intro u v holds sorted
    exact holds.sort sorted

/-- A tower in a function of a unit, at a binding that nothing else names. -/
structure Tower.Placed (t : Tower) (f : Function) (u : Linkage) : Prop where
  member : f ∈ u.functions
  within : t.In f
  alone : t.Alone f
  sole : ∀ h ∈ u.functions, h ≠ f → ∀ i ∈ visibleAtoms h.buffer,
    Global.resolve? h.buffer i ≠ Global.ofQualifier? t.resource t.number.toInt

theorem Tower.Placed.entry {entries : List FunctionId} (linked : link r entries = .ok u) (placed : t.Placed f u)
    (names : Global.ofQualifier? t.resource t.number.toInt = some g) :
    u.globals.binding? g = wrapped t.resource ⟨f.id, t.base⟩ t.layers := by
  have holds := (Reached.of_link linked).holds placed.within placed.alone names
  have each : ∀ h ∈ u.functions, h = f ∨ Silent g h := by
    intro h member
    by_cases here : h = f
    · exact Or.inl here
    · exact Or.inr fun i shown => names ▸ placed.sole h member here i shown
  exact ((holds.entry each).resolve_left fun absent => absent.1 placed.member).2

/-! ### Chains in another order -/

def Direct (ws : List Wrapper) : Prop := ∃ w, ws.head? = some w ∧ w.kind = .arrays

/-- At most one format and one array; access modifiers say the same however often they come. -/
def Unrepeated (ws : List Wrapper) : Prop :=
  ws.countP (·.kind.format?.isSome) ≤ 1 ∧ ws.countP (·.kind = .arrays) ≤ 1

theorem eq_of_perm_short {α : Type} {items others : List α} (perm : others.Perm items) (short : items.length ≤ 1) :
    others = items := by
  cases items with
  | nil => exact List.perm_nil.1 perm
  | cons x rest =>
    have single : rest = [] := by simpa using short
    subst single
    exact List.perm_singleton.1 perm

section

variable {ws ws' : List Wrapper} {origin origin' : Origin} {texel : Prim} {dim : Nat}

theorem arrayLength_isSome_iff : (arrayLength ws).isSome = true ↔ Direct ws := by
  unfold Direct arrayLength
  cases ws with
  | nil => simp
  | cons w rest => by_cases array : w.kind = .arrays <;> simp [array]

theorem arrayLength_of_direct (direct : Direct ws) :
    arrayLength ws = (ws.filter (·.kind = .arrays)).head?.map (·.number.toInt) := by
  obtain ⟨w, head, array⟩ := direct
  cases ws with
  | nil => cases head
  | cons first rest =>
    cases head
    simp [arrayLength, array]

theorem arrayLength_perm (perm : ws'.Perm ws) (once : ws.countP (·.kind = .arrays) ≤ 1) :
    arrayLength ws' = arrayLength ws ↔ (Direct ws' ↔ Direct ws) := by
  have arrays : ws'.filter (·.kind = .arrays) = ws.filter (·.kind = .arrays) := by
    refine eq_of_perm_short (perm.filter _) ?_
    rw [← List.countP_eq_length_filter]
    exact once
  constructor
  · intro same
    rw [← arrayLength_isSome_iff, ← arrayLength_isSome_iff, same]
  · intro both
    by_cases direct : Direct ws
    · rw [arrayLength_of_direct direct, arrayLength_of_direct (both.2 direct), arrays]
    · have absent : ∀ {layers : List Wrapper}, ¬ Direct layers → arrayLength layers = none := by
        intro layers indirect
        rw [← arrayLength_isSome_iff, Option.not_isSome_iff_eq_none] at indirect
        exact indirect
      rw [absent direct, absent fun direct' => direct (both.1 direct')]

/-- Wrappers in another order make an entry that differs in its length at most. -/
theorem wrappedImage_perm (perm : ws'.Perm ws) (once : ws.countP (·.kind.format?.isSome) ≤ 1) :
    { wrappedImage origin' texel dim ws' with count := arrayLength ws, origin } = wrappedImage origin texel dim ws := by
  have formats : ws'.filterMap (·.kind.format?) = ws.filterMap (·.kind.format?) := by
    refine eq_of_perm_short (perm.filterMap _) ?_
    rw [List.length_filterMap_eq_countP]
    exact once
  simp [wrappedImage, formats, perm.any_eq]

/-- What the entry of an image tells of the wrappers over it. -/
structure Shows (e : ImageBinding) (ws : List Wrapper) : Prop where
  readOnly : e.readOnly = true ↔ ∃ w ∈ ws, w.kind = .readOnly
  writeOnly : e.writeOnly = true ↔ ∃ w ∈ ws, w.kind = .writeOnly
  format : e.format.isSome = true ↔ ∃ w ∈ ws, w.kind.format?.isSome = true
  count : e.count.isSome = true ↔ Direct ws

theorem shows_wrappedImage : Shows (wrappedImage origin texel dim ws) ws := by
  refine ⟨by simp [wrappedImage], by simp [wrappedImage], ?_, arrayLength_isSome_iff⟩
  show ((ws.filterMap (·.kind.format?)).getLast?).isSome = true ↔ _
  rw [Option.isSome_iff_ne_none, ne_eq, List.getLast?_eq_none_iff, List.filterMap_eq_nil_iff]
  simp [Option.isSome_iff_ne_none]

end

variable {entries : List FunctionId} {c : Channel} {d : Dimension}

theorem Tower.Placed.image (linked : link r entries = .ok u) (placed : t.Placed f u) (kind : t.resource = .image c d) :
    u.globals.images[t.number.toInt]? = some (wrappedImage ⟨f.id, t.base⟩ c.texel d.toNat t.layers) := by
  have entry := placed.entry linked (g := .image t.number.toInt) (by rw [kind]; rfl)
  rw [kind] at entry
  simpa [Globals.binding?, wrapped] using entry

theorem Tower.Placed.sampler (linked : link r entries = .ok u) (placed : t.Placed f u)
    (kind : t.resource = .sampler c d) :
    u.globals.samplers[t.number.toInt]? = some (wrappedSampler ⟨f.id, t.base⟩ c.texel d.toNat t.layers) := by
  have entry := placed.entry linked (g := .sampler t.number.toInt) (by rw [kind]; rfl)
  rw [kind] at entry
  simpa [Globals.binding?, wrapped] using entry

/-- A sampler takes arrays only, so one of them stands directly on it. -/
theorem Tower.In.direct_iff (within : t.In f) (kind : t.resource = .sampler c d) :
    Direct t.layers ↔ ∃ w ∈ t.layers, w.kind = .arrays := by
  have arrays : ∀ w ∈ t.layers, w.kind = .arrays := by
    intro w member
    have taken := within.kinds w member
    rw [kind] at taken
    cases array : w.kind <;> rw [array] at taken <;> first | rfl | cases taken
  constructor
  · rintro ⟨w, head, array⟩
    exact ⟨w, List.mem_of_head? head, array⟩
  · rintro ⟨w, member, _⟩
    cases layers : t.layers with
    | nil => simp [layers] at member
    | cons first rest => exact ⟨first, rfl, arrays first (by simp [layers])⟩

/-- After linking, the entry of an image tells its modifiers and its format wherever they stand in the
chain, but its length only from an array directly on it; a sampler, which takes arrays only, always has
its length. So a chain in another order changes nothing but the length, and that just when an array comes
to stand on the image or no longer does. -/
theorem Tower.Placed.wrappers_shown (linked : link r entries = .ok u) (placed : t.Placed f u) :
    (∀ c d, t.resource = .image c d → ∃ e, u.globals.images[t.number.toInt]? = some e ∧
      e = wrappedImage ⟨f.id, t.base⟩ c.texel d.toNat t.layers ∧ Shows e t.layers) ∧
    (∀ c d, t.resource = .sampler c d → ∃ e, u.globals.samplers[t.number.toInt]? = some e ∧
      e = wrappedSampler ⟨f.id, t.base⟩ c.texel d.toNat t.layers ∧
      (e.count.isSome = true ↔ ∃ w ∈ t.layers, w.kind = .arrays)) ∧
    ∀ (r' : Registry) (entries' : List FunctionId) (u' : Linkage) (f' : Function) (t' : Tower),
      link r' entries' = .ok u' → t'.Placed f' u' → t'.resource = t.resource → t'.number = t.number →
      t'.layers.Perm t.layers → Unrepeated t.layers →
      (∀ c d, t.resource = .image c d → ∃ e e', u.globals.images[t.number.toInt]? = some e ∧
        u'.globals.images[t.number.toInt]? = some e' ∧ { e' with count := e.count, origin := e.origin } = e ∧
        (e'.count = e.count ↔ (Direct t'.layers ↔ Direct t.layers))) ∧
      ∀ c d, t.resource = .sampler c d → ∃ e e', u.globals.samplers[t.number.toInt]? = some e ∧
        u'.globals.samplers[t.number.toInt]? = some e' ∧ { e' with origin := e.origin } = e := by
  refine ⟨fun c d kind => ?_, fun c d kind => ?_, fun r' entries' u' f' t' linked' placed' resource number perm once => ?_⟩
  · exact ⟨_, placed.image linked kind, rfl, shows_wrappedImage⟩
  · refine ⟨_, placed.sampler linked kind, rfl, ?_⟩
    rw [← placed.within.direct_iff kind]
    exact arrayLength_isSome_iff
  · rw [← number]
    refine ⟨fun c d kind => ?_, fun c d kind => ?_⟩
    · refine ⟨_, _, number ▸ placed.image linked kind, placed'.image linked' (resource.trans kind), ?_, ?_⟩
      · exact wrappedImage_perm perm once.1
      · exact arrayLength_perm perm once.2
    · refine ⟨_, _, number ▸ placed.sampler linked kind, placed'.sampler linked' (resource.trans kind), ?_⟩
      have same : arrayLength t'.layers = arrayLength t.layers := by
        rw [arrayLength_perm perm once.2, placed.within.direct_iff kind,
          placed'.within.direct_iff (resource.trans kind)]
        simp only [perm.mem_iff]
      simp [wrappedSampler, same]

end

/-- A procedure that shows nothing but an image under two wrappers. -/
def pictured (inner outer : Wrapper) : Registry :=
  (Registry.empty.register "f" (.ofContent [.qualifier .null (.image .float .two) 0,
    .qualifier (.ref 0) inner.kind inner.number, .qualifier (.ref 1) outer.kind outer.number, .ret .null]
    [.ref 2] [])).2

def picture (inner outer : Wrapper) : Tower where
  base := .ref 0
  resource := .image .float .two
  number := 0
  top := .ref 2
  wrappers := [(.ref 1, inner), (.ref 2, outer)]

/-- Whether a unit has one function, and that shows the image and no other use of its binding. -/
def holdsPicture (inner outer : Wrapper) (u : Linkage) : Bool :=
  match u.functions with
  | [f] =>
    f.buffer.get? (.ref 0) = some (.qualifier .null (.image .float .two) 0) ∧
      f.buffer.get? (.ref 1) = some (.qualifier (.ref 0) inner.kind inner.number) ∧
      f.buffer.get? (.ref 2) = some (.qualifier (.ref 1) outer.kind outer.number) ∧
      ([inner, outer].all fun w => takes (.image .float .two) w.kind) = true ∧
      .ref 2 ∈ visibleAtoms f.buffer ∧
      ((visibleAtoms f.buffer).toList.all fun i =>
        Global.resolve? f.buffer i != some (.image 0) || (picture inner outer).addresses.contains i) = true
  | _ => false

theorem placed_picture {inner outer : Wrapper} {u : Linkage} (holds : holdsPicture inner outer u = true) :
    ∃ f, (picture inner outer).Placed f u := by
  unfold holdsPicture at holds
  split at holds
  · rename_i f only
    obtain ⟨base, first, second, kinds, visible, alone⟩ := of_decide_eq_true holds
    rw [List.all_eq_true] at kinds alone
    refine ⟨f, by simp [only], ⟨⟨_, base⟩, rfl, ?_, kinds, visible⟩, fun i shown named => ?_, fun h member other => ?_⟩
    · exact .wrap (w := outer) (.wrap (w := inner) .bare first) second
    · change Global.resolve? f.buffer i = some (.image 0) at named
      simpa [named] using alone i (Std.ExtTreeSet.mem_toList.2 shown)
    · rw [only, List.mem_singleton] at member
      exact absurd member other
  · cases holds

theorem exists_pictured (inner outer : Wrapper) (P : Linkage → Bool)
    (passes : ((link (pictured inner outer) [0]).toOption.any fun u => holdsPicture inner outer u && P u) = true) :
    ∃ u f, link (pictured inner outer) [0] = .ok u ∧ (picture inner outer).Placed f u ∧ P u = true := by
  obtain ⟨u, linked, checked⟩ := (Option.any_eq_true _ _).1 passes
  rw [Except.toOption_eq_some_iff] at linked
  rw [Bool.and_eq_true] at checked
  obtain ⟨f, placed⟩ := placed_picture checked.1
  exact ⟨u, f, linked, placed, checked.2⟩

/-- An array on an image under a modifier, and the two exchanged. -/
theorem exchanged_shown :
    ∃ u v e e', link (pictured ⟨.arrays, 4⟩ ⟨.readOnly, 0⟩) [0] = .ok u ∧
      link (pictured ⟨.readOnly, 0⟩ ⟨.arrays, 4⟩) [0] = .ok v ∧ u.globals.images[(0 : Int)]? = some e ∧
      v.globals.images[(0 : Int)]? = some e' ∧ Shows e [⟨.arrays, 4⟩, ⟨.readOnly, 0⟩] ∧
      { e' with count := e.count, origin := e.origin } = e ∧ e'.count ≠ e.count := by
  obtain ⟨u, f, linked, placed, -⟩ := exists_pictured ⟨.arrays, 4⟩ ⟨.readOnly, 0⟩ (fun _ => true) (by decide +kernel)
  obtain ⟨v, h, linked', placed', -⟩ := exists_pictured ⟨.readOnly, 0⟩ ⟨.arrays, 4⟩ (fun _ => true) (by decide +kernel)
  obtain ⟨images, _, permuted⟩ := placed.wrappers_shown linked
  obtain ⟨e, found, -, tells⟩ := images .float .two rfl
  have once : Unrepeated [⟨.arrays, 4⟩, ⟨.readOnly, 0⟩] := ⟨by decide, by decide⟩
  obtain ⟨_, e', found', there, same, length⟩ :=
    (permuted _ _ v h _ linked' placed' rfl rfl (.swap _ _ _) once).1 .float .two rfl
  obtain rfl := Option.some.inj (found.symm.trans found')
  refine ⟨u, v, e, e', linked, linked', found, there, tells, same, fun equal => ?_⟩
  obtain ⟨w, head, array⟩ := (length.1 equal).2 ⟨_, rfl, rfl⟩
  cases head
  cases array

/-- An array over a modifier sets no length. -/
theorem array_over_modifier_unset :
    ∃ (u : Linkage) (f : Function) (t : Tower) (e : ImageBinding),
      link (pictured ⟨.readOnly, 0⟩ ⟨.arrays, 4⟩) [0] = .ok u ∧ t.Placed f u ∧
      (∃ w ∈ t.layers, w.kind = .arrays) ∧ u.globals.images[t.number.toInt]? = some e ∧ e.count = none := by
  obtain ⟨u, f, linked, placed, unset⟩ := exists_pictured ⟨.readOnly, 0⟩ ⟨.arrays, 4⟩
    (fun u => (u.globals.images[(0 : Int)]?).any fun e => e.count.isNone) (by decide +kernel)
  obtain ⟨e, found, none⟩ := (Option.any_eq_true _ _).1 unset
  exact ⟨u, f, _, e, linked, placed, ⟨⟨.arrays, 4⟩, by simp [picture, Tower.layers], rfl⟩, found,
    Option.isNone_iff_eq_none.1 none⟩

end ShaderForge.Linkage
