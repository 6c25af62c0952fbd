import Mathlib.Algebra.BigOperators.Group.Finset.Piecewise
import ShaderForge.Linkage.Global
import Std.Data.String.ToInt

/-!
Redefinition of blocks. However declarations and modifiers of uniform and storage blocks follow each
other, the entry of a key is the first declaration of its last run of one shape, with the modifiers that
came after it; each change of shape is warned of once.
-/

namespace ShaderForge

theorem Table.get?_insert {α : Type} {table : Table α} {n m : Int} {a : α} :
    (table.insert n a)[m]? = if m = n then some a else table[m]? := by
  rw [Std.ExtTreeMap.getElem?_insert]
  exact ite_congr (propext (Std.LawfulEqCmp.compare_eq_iff_eq.trans eq_comm)) (fun _ => rfl) fun _ => rfl

theorem Globals.get?_adjust {α : Type} {table : Table α} {n m : Int} {f : α → α} :
    (adjust table n f)[m]? = if m = n then table[m]?.map f else table[m]? := by
  unfold adjust
  by_cases same : m = n
  · subst same
    cases found : table[m]? <;> simp [found]
  · cases table[n]? <;> simp [Table.get?_insert, same]

inductive BlockKind where
  | uniform
  | storage
deriving DecidableEq

namespace BlockKind

/-- The qualifier that declares a block. -/
def target : BlockKind → Qualifier
  | uniform => .uniformBuffer
  | storage => .storageBuffer

/-- How warnings call the table. -/
def category : BlockKind → String
  | uniform => "uniform buffer"
  | storage => "storage buffer"

end BlockKind

/-- A table of blocks and a binding. -/
structure BlockKey where
  kind : BlockKind
  binding : Int
deriving DecidableEq

def BlockKey.redefined (k : BlockKey) : Warning := .redefined k.kind.category (toString k.binding)

theorem BlockKey.redefined_inj {k j : BlockKey} : k.redefined = j.redefined ↔ k = j := by
  refine ⟨fun same => ?_, congrArg _⟩
  obtain ⟨categories, numbers⟩ := Warning.redefined.inj same
  rw [Int.toString_eq_repr, Int.toString_eq_repr] at numbers
  have bindings := Int.repr_inj.1 numbers
  obtain ⟨kind, n⟩ := k
  obtain ⟨kind', m⟩ := j
  have kinds : kind = kind' := by
    cases kind <;> cases kind' <;> simp [BlockKind.category] at categories ⊢
  rw [kinds, show n = m from bindings]

def Globals.block? (t : Globals) (k : BlockKey) : Option BufferBinding :=
  match k.kind with
  | .uniform => t.uniforms[k.binding]?
  | .storage => t.buffers[k.binding]?

/-- A block as a function declares it: no modifier is part of that. -/
structure BlockDecl where
  ty : LinkedTy
  origin : Origin
deriving DecidableEq

def BlockDecl.entry (d : BlockDecl) : BufferBinding := { ty := d.ty, origin := d.origin }

/-- What is done to the tables: a block is declared, or a modifier applied to a qualifier of a number. -/
inductive BlockStep where
  | define (k : BlockKey) (d : BlockDecl)
  | modify (modifier target : Qualifier) (binding : Int)
deriving DecidableEq

namespace BlockStep

def apply (s : BlockStep) (t : Globals) : Globals × List Warning :=
  match s with
  | define ⟨.uniform, n⟩ d =>
    let (uniforms, ws) := t.uniforms.define "uniform buffer" n d.entry
    ({ t with uniforms }, ws)
  | define ⟨.storage, n⟩ d =>
    let (buffers, ws) := t.buffers.define "storage buffer" n d.entry
    ({ t with buffers }, ws)
  | modify modifier target n => t.applyModifier modifier target n

/-- The tables after some steps, and the warnings that they gave. -/
def run (t : Globals) (steps : List BlockStep) : Globals × List Warning :=
  steps.foldl (fun (t, ws) s => ((s.apply t).1, ws ++ (s.apply t).2)) (t, [])

theorem run_append (t : Globals) (steps : List BlockStep) (s : BlockStep) :
    run t (steps ++ [s]) = ((s.apply (run t steps).1).1, (run t steps).2 ++ (s.apply (run t steps).1).2) := by
  simp only [run, List.foldl_append, List.foldl_cons, List.foldl_nil]

def declares? (k : BlockKey) : BlockStep → Option BlockDecl
  | define j d => if j = k then some d else none
  | modify .. => none

def declared (k : BlockKey) (steps : List BlockStep) : List BlockDecl := steps.filterMap (declares? k)

def onBlock (modifier : Qualifier) (k : BlockKey) : BlockStep := modify modifier k.kind.target k.binding

/-! ### One step -/

variable {t : Globals} {k j : BlockKey} {d : BlockDecl} {modifier target : Qualifier} {n : Int}

theorem block?_define :
    ((define k d).apply t).1.block? j =
      if j = k then some (redeclare k.redefined (t.block? k) d.entry).1 else t.block? j := by
  obtain ⟨kind, n⟩ := k
  obtain ⟨kind', m⟩ := j
  cases kind <;> cases kind' <;>
    simp [apply, Globals.block?, Table.define, BlockKey.redefined, BlockKind.category, Table.get?_insert]

theorem notes_define : ((define k d).apply t).2 = (redeclare k.redefined (t.block? k) d.entry).2 := by
  obtain ⟨kind, n⟩ := k
  cases kind <;> rfl

theorem block?_modify :
    ((modify modifier target n).apply t).1.block? j =
      if modify modifier target n = onBlock modifier j then (t.block? j).map (Globals.modifyBlock modifier)
      else t.block? j := by
  obtain ⟨kind, m⟩ := j
  show (t.applyModifier modifier target n).1.block? _ = _
  unfold Globals.applyModifier
  split
  case h_1 | h_2 =>
    cases kind <;> simp [Globals.block?, onBlock, BlockKind.target, Globals.get?_adjust, eq_comm (a := n)]
  case h_3 =>
    split <;> cases kind <;> simp [Globals.block?, onBlock, BlockKind.target]
  case h_4 =>
    cases kind <;> simp [Globals.block?, onBlock, BlockKind.target]
  case h_5 other other' _ _ =>
    have off : modify modifier target n ≠ onBlock modifier ⟨kind, m⟩ := by
      intro same
      cases kind
      · exact other' (modify.inj same).2.1
      · exact other (modify.inj same).2.1
    rw [if_neg off]

theorem notes_modify : ∀ w ∈ ((modify modifier target n).apply t).2, w = .noEffect modifier target := by
  show ∀ w ∈ (t.applyModifier modifier target n).2, _
  unfold Globals.applyModifier
  split
  case h_3 => split <;> simp
  all_goals simp

/-! ### The entry at a key -/

variable {steps since : List BlockStep} {first : BlockDecl} {s : BlockStep}

/-- Steps in which the last run of declarations of one shape at a key begins with `first`: the declaration
before it, if any, has another shape, and all later ones have the same. -/
structure LastRun (k : BlockKey) (steps : List BlockStep) (first : BlockDecl) (since : List BlockStep) : Prop where
  begins : ∃ before, steps = before ++ define k first :: since ∧
    ∀ d, (declared k before).getLast? = some d → d.ty ≠ first.ty
  same : ∀ d ∈ declared k since, d.ty = first.ty

theorem declared_append (more : List BlockStep) : declared k (steps ++ more) = declared k steps ++ declared k more :=
  List.filterMap_append

theorem declared_define : declared k [define j d] = if j = k then [d] else [] := by
  by_cases same : j = k <;> simp [declared, declares?, same]

theorem LastRun.extend (last : LastRun k steps first since) (goes_on : ∀ d ∈ declared k [s], d.ty = first.ty) :
    LastRun k (steps ++ [s]) first (since ++ [s]) := by
  obtain ⟨⟨before, rfl, changes⟩, same⟩ := last
  refine ⟨⟨before, by simp, changes⟩, fun d member => ?_⟩
  rw [declared_append] at member
  exact (List.mem_append.1 member).elim (same d) (goes_on d)

theorem LastRun.begin (changes : ∀ d', (declared k steps).getLast? = some d' → d'.ty ≠ d.ty) :
    LastRun k (steps ++ [define k d]) d [] :=
  ⟨⟨steps, rfl, changes⟩, fun _ member => absurd member List.not_mem_nil⟩

theorem LastRun.declared_ne_nil (last : LastRun k steps first since) : declared k steps ≠ [] := by
  obtain ⟨⟨before, rfl, _⟩, _⟩ := last
  rw [declared_append]
  simp [declared, declares?]

theorem LastRun.unique {first' : BlockDecl} {since' : List BlockStep} (last : LastRun k steps first since)
    (last' : LastRun k steps first' since') : first = first' ∧ since = since' := by
  -- if one of two runs began later, the declaration before it would be in the other one
  have shorter : ∀ {first first' : BlockDecl} {since since' : List BlockStep}, LastRun k steps first since →
      LastRun k steps first' since' → since.length ≤ since'.length := by
    intro first first' since since' last last'
    obtain ⟨⟨before, split, _⟩, same⟩ := last
    obtain ⟨⟨before', split', changes⟩, _⟩ := last'
    by_contra longer
    rw [split] at split'
    rcases List.append_eq_append_iff.1 split' with ⟨inner, rfl, tail⟩ | ⟨inner, rfl, tail⟩
    · cases inner with
      | nil =>
        simp only [List.nil_append, List.cons.injEq] at tail
        exact longer (Nat.le_of_eq (congrArg List.length tail.2))
      | cons step inner =>
        simp only [List.cons_append, List.cons.injEq] at tail
        obtain ⟨rfl, rfl⟩ := tail
        have all : ∀ d ∈ declared k (define k first :: inner), d.ty = first'.ty := by
          have one : first'.ty = first.ty := same first' (by simp [declared, declares?])
          intro d member
          rw [one]
          rcases List.mem_cons.1 (show d ∈ first :: declared k inner by
            simpa [declared, declares?] using member) with rfl | member
          · rfl
          · exact same d (by rw [declared_append]; exact List.mem_append_left _ member)
        obtain ⟨d, final⟩ : ∃ d, (declared k (define k first :: inner)).getLast? = some d := by
          simp [declared, declares?, List.getLast?_cons]
        refine changes d ?_ (all d (List.mem_of_getLast? final))
        rw [declared_append, List.getLast?_append, final]
        rfl
    · have lengths := congrArg List.length tail
      simp only [List.length_cons, List.length_append] at lengths
      omega
  have lengths := Nat.le_antisymm (shorter last last') (shorter last' last)
  obtain ⟨⟨before, split, _⟩, _⟩ := last
  obtain ⟨⟨before', split', _⟩, _⟩ := last'
  have tails := (List.append_inj' (split.symm.trans split') (by simp [lengths])).2
  obtain ⟨here, rest⟩ := List.cons.inj tails
  exact ⟨(define.inj here).2, rest⟩

/-- The block of a run: its first declaration, with the modifiers applied since. -/
def block (k : BlockKey) (first : BlockDecl) (since : List BlockStep) : BufferBinding where
  ty := first.ty
  readOnly := decide (onBlock .readOnly k ∈ since)
  writeOnly := decide (onBlock .writeOnly k ∈ since)
  scalar := decide (onBlock .scalarLayout k ∈ since)
  origin := first.origin

theorem block_congr {since' : List BlockStep}
    (same : ∀ modifier ∈ [Qualifier.readOnly, .writeOnly, .scalarLayout],
      (onBlock modifier k ∈ since' ↔ onBlock modifier k ∈ since)) : block k first since' = block k first since := by
  have three := List.forall_mem_cons.1 same
  have two := List.forall_mem_cons.1 three.2
  simp only [block, three.1, two.1, two.2 _ (List.mem_singleton_self _)]

theorem block_define : block k first (since ++ [define j d]) = block k first since :=
  block_congr fun modifier _ => by simp [onBlock]

theorem block_modify_off (off : modify modifier target n ≠ onBlock modifier k) :
    block k first (since ++ [modify modifier target n]) = block k first since := by
  refine block_congr fun other _ => ?_
  have different : onBlock other k ≠ modify modifier target n := by
    intro same
    obtain ⟨rfl, rest⟩ := modify.inj same
    exact off same.symm
  simp [different]

theorem block_modify_on :
    block k first (since ++ [onBlock modifier k]) = Globals.modifyBlock modifier (block k first since) := by
  have one : ∀ other, onBlock other k ∈ since ++ [onBlock modifier k] ↔ onBlock other k ∈ since ∨ other = modifier := by
    intro other
    simp [onBlock]
  unfold Globals.modifyBlock
  split
  case h_4 reads writes lays_out =>
    refine block_congr fun other member => ?_
    have different : other ≠ modifier := by
      rintro rfl
      simp only [List.mem_cons, List.not_mem_nil, or_false] at member
      exact member.elim reads (Or.rec writes lays_out)
    simp [one, different]
  all_goals simp [block, one]

/-- What stands at a key after some steps, when nothing stood there before. -/
def Settled (k : BlockKey) (steps : List BlockStep) (entry : Option BufferBinding) : Prop :=
  (declared k steps = [] ∧ entry = none) ∨
    ∃ first since, LastRun k steps first since ∧ entry = some (block k first since)

theorem Settled.ty {entry : Option BufferBinding} (settled : Settled k steps entry) :
    entry.map BufferBinding.ty = (declared k steps).getLast?.map BlockDecl.ty := by
  rcases settled with ⟨none, rfl⟩ | ⟨first, since, ⟨⟨before, rfl, _⟩, same⟩, rfl⟩
  · rw [none]
    rfl
  · have all : ∀ d ∈ first :: declared k since, d.ty = first.ty := by
      intro d member
      rcases List.mem_cons.1 member with rfl | member
      · rfl
      · exact same d member
    obtain ⟨d, final⟩ : ∃ d, (first :: declared k since).getLast? = some d := by simp [List.getLast?_cons]
    have tail : declared k (define k first :: since) = first :: declared k since := by simp [declared, declares?]
    rw [declared_append, tail, List.getLast?_append, final]
    simp [block, all d (List.mem_of_getLast? final)]

theorem Settled.apply (settled : Settled k steps (t.block? k)) :
    Settled k (steps ++ [s]) ((s.apply t).1.block? k) := by
  have shape := settled.ty
  cases s with
  | modify modifier target n =>
    rw [block?_modify]
    have nothing : declared k [modify modifier target n] = [] := rfl
    rcases settled with ⟨none, missing⟩ | ⟨first, since, last, found⟩
    · refine Or.inl ⟨by rw [declared_append, none, nothing, List.append_nil], ?_⟩
      simp [missing]
    · refine Or.inr ⟨first, since ++ [modify modifier target n], last.extend (by simp [nothing]), ?_⟩
      split
      · rename_i on
        rw [on, block_modify_on, found, Option.map_some]
      · rename_i off
        rw [block_modify_off off, found]
  | define j d =>
    rw [block?_define]
    by_cases here : k = j
    · subst here
      rw [if_pos rfl]
      rcases settled with ⟨none, missing⟩ | ⟨first, since, last, found⟩
      · refine Or.inr ⟨d, [], .begin (by simp [none]), ?_⟩
        rw [missing]
        rfl
      · rw [found] at shape ⊢
        by_cases same : d.ty = first.ty
        · refine Or.inr ⟨first, since ++ [define k d], last.extend (by simp [declared_define, same]), ?_⟩
          rw [block_define]
          simp [redeclare, Declaration.sameShape, block, BlockDecl.entry, same]
        · refine Or.inr ⟨d, [], .begin fun d' final => ?_, ?_⟩
          · rw [final] at shape
            have old : first.ty = d'.ty := Option.some.inj shape
            exact fun equal => same (equal ▸ old.symm ▸ rfl)
          · simp [redeclare, Declaration.sameShape, block, BlockDecl.entry, Ne.symm same, onBlock]
    · rw [if_neg here]
      have nothing : declared k [define j d] = [] := by rw [declared_define, if_neg fun same => here same.symm]
      rcases settled with ⟨none, missing⟩ | ⟨first, since, last, found⟩
      · exact Or.inl ⟨by rw [declared_append, none, nothing, List.append_nil], missing⟩
      · refine Or.inr ⟨first, since ++ [define j d], last.extend (by simp [nothing]), ?_⟩
        rw [block_define, found]

theorem settled_run (fresh : t.block? k = none) (steps : List BlockStep) :
    Settled k steps ((run t steps).1.block? k) := by
  induction steps using List.reverseRecOn with
  | nil => exact Or.inl ⟨rfl, fresh⟩
  | append_singleton steps s ih =>
    rw [run_append]
    exact ih.apply

/-! ### Warnings -/

/-- How often the shape changes from one declaration to the next. -/
def shapeChanges : List BlockDecl → Nat
  | d :: e :: rest => (if d.ty = e.ty then 0 else 1) + shapeChanges (e :: rest)
  | _ => 0

theorem shapeChanges_append (ds : List BlockDecl) (d : BlockDecl) :
    shapeChanges (ds ++ [d]) = shapeChanges ds + if ∃ e, ds.getLast? = some e ∧ e.ty ≠ d.ty then 1 else 0 := by
  fun_induction shapeChanges ds with
  | case1 first second rest ih =>
    rw [List.getLast?_cons_cons, Nat.add_assoc, ← ih]
    rfl
  | case2 ds short =>
    match ds with
    | [] => simp [shapeChanges]
    | [e] => by_cases same : e.ty = d.ty <;> simp [shapeChanges, same]
    | first :: second :: rest => exact absurd rfl (short first second rest)

theorem notes_define_eq {shape : Option LinkedTy} (before : (t.block? k).map BufferBinding.ty = shape) :
    ((define k d).apply t).2 = if ∃ ty, shape = some ty ∧ ty ≠ d.ty then [k.redefined] else [] := by
  rw [notes_define, ← before]
  cases t.block? k with
  | none => simp [redeclare]
  | some b => by_cases same : b.ty = d.ty <;> simp [redeclare, Declaration.sameShape, BlockDecl.entry, same]

theorem count_run (fresh : t.block? k = none) (steps : List BlockStep) :
    (run t steps).2.count k.redefined = shapeChanges (declared k steps) := by
  induction steps using List.reverseRecOn with
  | nil => rfl
  | append_singleton steps s ih =>
    have shape := (settled_run fresh steps).ty
    rw [run_append, List.count_append, ih, declared_append]
    cases s with
    | modify modifier target n =>
      have none : ((modify modifier target n).apply (run t steps).1).2.count k.redefined = 0 := by
        rw [List.count_eq_zero]
        intro member
        cases notes_modify _ member
      rw [none, show declared k [modify modifier target n] = [] from rfl, List.append_nil, Nat.add_zero]
    | define j d =>
      rw [declared_define]
      by_cases here : j = k
      · subst here
        rw [if_pos rfl, shapeChanges_append, notes_define_eq shape]
        simp only [Option.map_eq_some_iff, exists_exists_and_eq_and]
        split <;> simp
      · have other : j.redefined ≠ k.redefined := fun same => here (BlockKey.redefined_inj.1 same)
        rw [if_neg here, List.append_nil, notes_define_eq rfl]
        split <;> simp [other]

def keys (steps : List BlockStep) : Finset BlockKey :=
  (steps.filterMap fun | define k _ => some k | modify .. => none).toFinset

theorem mem_keys : k ∈ keys steps ↔ ∃ d, define k d ∈ steps := by
  simp only [keys, List.mem_toFinset, List.mem_filterMap]
  constructor
  · rintro ⟨s, member, found⟩
    cases s with
    | define j d =>
      obtain rfl := Option.some.inj found
      exact ⟨d, member⟩
    | modify => cases found
  · rintro ⟨d, member⟩
    exact ⟨define k d, member, rfl⟩

/-- Whether a warning is one of a redefinition. -/
def isRedefinition : Warning → Bool
  | .redefined .. => true
  | _ => false

theorem redefined_run (t : Globals) (steps : List BlockStep) :
    ∀ w ∈ (run t steps).2, isRedefinition w = true → ∃ k ∈ keys steps, w = k.redefined := by
  induction steps using List.reverseRecOn with
  | nil => exact fun w member => absurd member List.not_mem_nil
  | append_singleton steps s ih =>
    intro w member redefines
    rw [run_append] at member
    rcases List.mem_append.1 member with old | new
    · obtain ⟨k, known, same⟩ := ih w old redefines
      obtain ⟨d, member⟩ := mem_keys.1 known
      exact ⟨k, mem_keys.2 ⟨d, List.mem_append_left _ member⟩, same⟩
    · cases s with
      | modify =>
        rw [notes_modify w new] at redefines
        cases redefines
      | define k d =>
        rw [notes_define_eq rfl] at new
        split at new
        · exact ⟨k, mem_keys.2 ⟨d, by simp⟩, List.mem_singleton.1 new⟩
        · cases new

theorem countP_isRedefinition {ws : List Warning} {ks : Finset BlockKey}
    (known : ∀ w ∈ ws, isRedefinition w = true → ∃ k ∈ ks, w = k.redefined) :
    ws.countP isRedefinition = ∑ k ∈ ks, ws.count k.redefined := by
  induction ws with
  | nil => simp
  | cons w ws ih =>
    have rest := ih fun w member => known w (List.mem_cons_of_mem _ member)
    simp only [List.countP_cons, List.count_cons, Finset.sum_add_distrib, rest]
    congr 1
    by_cases redefines : isRedefinition w = true
    · obtain ⟨k, member, rfl⟩ := known w List.mem_cons_self redefines
      simp only [redefines, if_true, beq_iff_eq, BlockKey.redefined_inj]
      rw [Finset.sum_ite_eq, if_pos member]
    · have other : ∀ k : BlockKey, w ≠ k.redefined := by
        rintro k rfl
        exact redefines rfl
      simp [redefines, other]

/-! ### What is left alone -/

def Touches (k : BlockKey) (s : BlockStep) : Prop := (∃ d, s = define k d) ∨ ∃ modifier, s = onBlock modifier k

theorem block?_run_of_untouched (untouched : ∀ s ∈ steps, ¬ Touches k s) : (run t steps).1.block? k = t.block? k := by
  induction steps using List.reverseRecOn with
  | nil => rfl
  | append_singleton steps s ih =>
    have here := untouched s (by simp)
    rw [run_append, ← ih fun s member => untouched s (List.mem_append_left _ member)]
    cases s with
    | define j d =>
      rw [block?_define, if_neg]
      rintro rfl
      exact here (Or.inl ⟨d, rfl⟩)
    | modify modifier target n =>
      rw [block?_modify, if_neg]
      intro same
      exact here (Or.inr ⟨modifier, same⟩)

/-- Tables that differ in blocks at most, and in references and images that modifiers were applied to. -/
structure Beside (steps : List BlockStep) (t t' : Globals) : Prop where
  inputs : t'.inputs = t.inputs
  outputs : t'.outputs = t.outputs
  pushConstant : t'.pushConstant = t.pushConstant
  shared : t'.shared = t.shared
  samplers : t'.samplers = t.samplers
  special : t'.special = t.special
  builtins : t'.builtins = t.builtins
  references : ∀ n, modify .scalarLayout .bufferReference n ∉ steps → t'.references[n]? = t.references[n]?
  images : ∀ n, (∀ modifier c d, modify modifier (.image c d) n ∉ steps) → t'.images[n]? = t.images[n]?

theorem beside_apply : Beside [s] t (s.apply t).1 := by
  cases s with
  | define k d =>
    obtain ⟨kind, n⟩ := k
    cases kind <;> exact ⟨rfl, rfl, rfl, rfl, rfl, rfl, rfl, fun _ _ => rfl, fun _ _ => rfl⟩
  | modify modifier target n =>
    show Beside _ t (t.applyModifier modifier target n).1
    unfold Globals.applyModifier
    split
    case h_3 =>
      split
      · rename_i scalar
        refine ⟨rfl, rfl, rfl, rfl, rfl, rfl, rfl, fun m untouched => ?_, fun _ _ => rfl⟩
        rw [Globals.get?_adjust, if_neg]
        rintro rfl
        exact untouched (by simp [scalar])
      · exact ⟨rfl, rfl, rfl, rfl, rfl, rfl, rfl, fun _ _ => rfl, fun _ _ => rfl⟩
    case h_4 c d =>
      refine ⟨rfl, rfl, rfl, rfl, rfl, rfl, rfl, fun _ _ => rfl, fun m untouched => ?_⟩
      rw [Globals.get?_adjust, if_neg]
      rintro rfl
      exact untouched modifier c d (by simp)
    all_goals exact ⟨rfl, rfl, rfl, rfl, rfl, rfl, rfl, fun _ _ => rfl, fun _ _ => rfl⟩

theorem beside_run (t : Globals) (steps : List BlockStep) : Beside steps t (run t steps).1 := by
  induction steps using List.reverseRecOn with
  | nil => exact ⟨rfl, rfl, rfl, rfl, rfl, rfl, rfl, fun _ _ => rfl, fun _ _ => rfl⟩
  | append_singleton steps s ih =>
    rw [run_append]
    have one : Beside [s] (run t steps).1 (s.apply (run t steps).1).1 := beside_apply
    refine ⟨one.inputs.trans ih.inputs, one.outputs.trans ih.outputs, one.pushConstant.trans ih.pushConstant,
      one.shared.trans ih.shared, one.samplers.trans ih.samplers, one.special.trans ih.special,
      one.builtins.trans ih.builtins, fun n untouched => ?_, fun n untouched => ?_⟩
    · exact (one.references n fun member => untouched (List.mem_append_right _ member)).trans
        (ih.references n fun member => untouched (List.mem_append_left _ member))
    · exact (one.images n fun m c d member => untouched m c d (List.mem_append_right _ member)).trans
        (ih.images n fun m c d member => untouched m c d (List.mem_append_left _ member))

/-- Declarations and modifiers in any order. The entry of a key is the first declaration of its last run of
one shape, and has just the modifiers applied since; a redefinition is warned of for each change of shape at
a key, and nothing else is touched. -/
theorem redefinition_policy (t : Globals) (steps : List BlockStep) :
    (∀ k, t.block? k = none →
      (declared k steps = [] → (run t steps).1.block? k = none) ∧
      (declared k steps ≠ [] → ∃ first since, LastRun k steps first since) ∧
      (∀ first since, LastRun k steps first since → ∃ b, (run t steps).1.block? k = some b ∧
        b.ty = first.ty ∧ b.origin = first.origin ∧ (b.readOnly = true ↔ onBlock .readOnly k ∈ since) ∧
        (b.writeOnly = true ↔ onBlock .writeOnly k ∈ since) ∧ (b.scalar = true ↔ onBlock .scalarLayout k ∈ since)) ∧
      (run t steps).2.count k.redefined = shapeChanges (declared k steps)) ∧
    ((∀ k, t.block? k = none) →
      (run t steps).2.countP isRedefinition = ∑ k ∈ keys steps, shapeChanges (declared k steps)) ∧
    (∀ k, (∀ s ∈ steps, ¬ Touches k s) → (run t steps).1.block? k = t.block? k) ∧
    Beside steps t (run t steps).1 := by
  refine ⟨fun k fresh => ?_, fun fresh => ?_, fun k => block?_run_of_untouched, beside_run t steps⟩
  · have counted := count_run fresh steps
    rcases settled_run fresh steps with ⟨none, missing⟩ | ⟨first, since, last, found⟩
    · exact ⟨fun _ => missing, fun some => absurd none some, fun _ _ last => absurd none last.declared_ne_nil, counted⟩
    · refine ⟨fun none => absurd none last.declared_ne_nil, fun _ => ⟨first, since, last⟩, fun _ _ last' => ?_, counted⟩
      obtain ⟨rfl, rfl⟩ := last.unique last'
      exact ⟨_, found, rfl, rfl, decide_eq_true_iff, decide_eq_true_iff, decide_eq_true_iff⟩
  · rw [countP_isRedefinition (redefined_run t steps)]
    exact Finset.sum_congr rfl fun k _ => count_run (fresh k) steps

/-- A storage block read by one function, declared alike by a second, and as something else by two more. -/
def rebound : List BlockStep :=
  let k : BlockKey := ⟨.storage, 2⟩
  [define k ⟨.prim .f32, ⟨0, .ref 1⟩⟩, onBlock .readOnly k, define k ⟨.prim .f32, ⟨1, .ref 1⟩⟩,
    define k ⟨.prim .vec4, ⟨2, .ref 1⟩⟩, onBlock .scalarLayout k, define k ⟨.prim .vec4, ⟨3, .ref 1⟩⟩]

theorem rebound_settled :
    (∃ b, (run {} rebound).1.block? ⟨.storage, 2⟩ = some b ∧ b.ty = .prim .vec4 ∧ b.origin = ⟨2, .ref 1⟩ ∧
      ¬ b.readOnly = true ∧ b.scalar = true) ∧ (run {} rebound).2.countP isRedefinition = 1 := by
  have fresh : ∀ k, ({} : Globals).block? k = none := by
    rintro ⟨kind, n⟩
    cases kind <;> simp [Globals.block?]
  obtain ⟨entries, total, _, _⟩ := redefinition_policy {} rebound
  obtain ⟨_, _, settled, _⟩ := entries ⟨.storage, 2⟩ (fresh _)
  have last : LastRun ⟨.storage, 2⟩ rebound ⟨.prim .vec4, ⟨2, .ref 1⟩⟩ (rebound.drop 4) :=
    ⟨⟨rebound.take 3, rfl, by decide +kernel⟩, by decide +kernel⟩
  obtain ⟨b, found, ty, origin, reads, _, scalar⟩ := settled _ _ last
  have changes : ∑ k ∈ keys rebound, shapeChanges (declared k rebound) = 1 := by decide +kernel
  refine ⟨⟨b, found, ty, origin, ?_, scalar.2 (by decide +kernel)⟩, (total fresh).trans changes⟩
  rw [reads]
  decide +kernel

end BlockStep

end ShaderForge
