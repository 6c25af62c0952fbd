import ShaderForge.Proofs.Function.Fold
import ShaderForge.Proofs.Linkage.Lockstep
import ShaderForge.Proofs.Linkage.Restated

/-!
Linking along a fold. Where the functions of a registry go over to those of another, the same
functions are linked in the same order.
-/

namespace ShaderForge

open Buffer

namespace Function

variable {f g : Function} {fold : Index → Index} {i : Index}

theorem FoldsTo.kept_of_visible (folds : f.FoldsTo g fold)
    (shown : i ∈ Linkage.visibleAtoms f.buffer) : Kept fold i :=
  Linkage.visibleAtoms_least folds.kept folds.folds.closed i shown

theorem FoldsTo.visible (folds : f.FoldsTo g fold) (shown : i ∈ Linkage.visibleAtoms f.buffer) :
    fold i ∈ Linkage.visibleAtoms g.buffer := by
  refine (Linkage.visibleAtoms_least
    (P := fun i => fold i ∈ Linkage.visibleAtoms g.buffer ∧ Kept fold i) ?_ ?_ i shown).1
  · intro j marked
    exact ⟨Linkage.mem_visibleAtoms_of_marked ((folds.marked _).2 ⟨j, marked, rfl⟩),
      folds.kept j marked⟩
  · rintro n a ⟨seen, kept⟩ found o used
    obtain ⟨k, place, image⟩ := folds.folds.atom_at found kept
    rw [place] at seen
    refine ⟨Linkage.visibleAtoms_useClosed folds.folds.backward k _ seen image _ ?_,
      folds.folds.closed n a kept found o used⟩
    rw [folds.folds.operands found kept]
    exact List.mem_map_of_mem used

theorem FoldsTo.visible_source (folds : f.FoldsTo g fold) (backward : f.buffer.Backward)
    (present : ∀ i ∈ Linkage.visibleAtoms f.buffer, ∃ a, f.buffer.get? i = some a)
    (shown : i ∈ Linkage.visibleAtoms g.buffer) :
    ∃ j ∈ Linkage.visibleAtoms f.buffer, fold j = i := by
  refine Linkage.visibleAtoms_least
    (P := fun i => ∃ j ∈ Linkage.visibleAtoms f.buffer, fold j = i) ?_ ?_ i shown
  · intro k marked
    obtain ⟨j, before, place⟩ := (folds.marked k).1 marked
    exact ⟨j, Linkage.mem_visibleAtoms_of_marked before, place⟩
  · rintro k a' ⟨j, seen, place⟩ image o' used
    obtain ⟨a, found⟩ := present j seen
    cases j with
    | null => cases found
    | ref n =>
      have kept := folds.kept_of_visible seen
      have image' := folds.folds.atoms n a found kept
      rw [place, get?_ref, image, Option.some.injEq] at image'
      rw [image', folds.folds.operands found kept] at used
      obtain ⟨o, before, rfl⟩ := List.mem_map.1 used
      exact ⟨o, Linkage.visibleAtoms_useClosed backward n a seen found o before, rfl⟩

end Function

namespace Linkage

variable {f g : Function} {fold : Index → Index}

theorem restates_of_folds (prepared : f.Prepared) (present : ∀ i ∈ visibleAtoms f.buffer, ∃ a, f.buffer.get? i = some a)
    (goes : f.FoldsTo g fold) : Restates f g fold (Kept fold) where
  source k a' shown found := by
    obtain ⟨j, shown', place⟩ := goes.visible_source prepared.backward present shown
    obtain ⟨a, there⟩ := present j shown'
    cases j with
    | null => cases there
    | ref n =>
      have image := goes.folds.atoms n a there (kept_of_place place)
      rw [place, get?_ref, found, Option.some.injEq] at image
      exact ⟨n, a, shown', there, image⟩
  used n a shown found := goes.folds.kept_address found (goes.kept_of_visible shown) (Or.inl rfl)
  items args items kept listed := ⟨goes.folds.expandList kept listed, goes.folds.kept_items kept listed⟩
  literals i v kept found := by
    cases i with
    | null => cases found
    | ref n => exact goes.folds.atoms n _ found kept
  qualifiers i underlying kind number kept found := by
    cases i with
    | null => cases found
    | ref n => exact ⟨goes.folds.atoms n _ found kept, goes.folds.kept_address found kept (Or.inl rfl)⟩
  values i ty d kept known value given := by
    refine ⟨_, d.rename fold, goes.types _ ty kept known, by rw [Ty.data?_rename, value]; rfl, ?_⟩
    cases d with
    | prim p => exact given
    | struct head => simp [Data.rename]

theorem Scannable.along (scannable : Scannable f) (prepared : f.Prepared) (goes : f.FoldsTo g fold) :
    Scannable g := by
  refine scannable.restated (restates_of_folds prepared scannable.present goes) goes.folds.backward fun i shown => ?_
  obtain ⟨j, shown', rfl⟩ := goes.visible_source prepared.backward scannable.present shown
  obtain ⟨a, there⟩ := scannable.present j shown'
  cases j with
  | null => cases there
  | ref n => exact ⟨_, goes.folds.atoms n a there (goes.kept_of_visible shown')⟩

theorem Calls.along {callees : FunctionSet} (calls : Calls f callees) (scannable : Scannable f)
    (prepared : f.Prepared) (goes : f.FoldsTo g fold) : Calls g callees := by
  intro id
  rw [calls id]
  constructor
  · rintro ⟨i, shown, ty, args, there⟩
    cases i with
    | null => cases there
    | ref n =>
      exact ⟨_, goes.visible shown, fold ty, fold args,
        goes.folds.atoms n _ there (goes.kept_of_visible shown)⟩
  · rintro ⟨i, shown, ty, args, there⟩
    obtain ⟨j, shown', rfl⟩ := goes.visible_source prepared.backward scannable.present shown
    obtain ⟨a, found⟩ := scannable.present j shown'
    cases j with
    | null => cases found
    | ref n =>
      have image := goes.folds.atoms n a found (goes.kept_of_visible shown')
      rw [there, Option.some.injEq] at image
      cases a with
      | call id' ty' args' =>
        cases image
        exact ⟨_, shown', ty', args', found⟩
      | _ => cases image

/-! ### Units side by side -/

def Follows (f g : Function) : Prop := ∃ fold, f.FoldsTo g fold

theorem follows_alike : Alike Follows := by
  rintro f g ⟨fold, goes⟩
  exact ⟨goes.id, goes.name⟩

abbrev Parallel (u u' : Linkage) : Prop := Abreast Follows u u'

/-! ### Registries -/

/-- A function stands for another one: prepared, the one goes over to the other. -/
structure StandsFor (f' f : Function) : Prop where
  id : f'.id = f.id
  prepared : ∀ g, Succeeds Function.prepare f () g →
    ∃ g' fold, Succeeds Function.prepare f' () g' ∧ g.FoldsTo g' fold

/-- Every function of a registry has one that stands for it under the same number. -/
def Echoes (r r' : Registry) : Prop := ∀ id, Option.Rel (fun f f' => StandsFor f' f) (r.get? id) (r'.get? id)

theorem companions_follows : Companions (fun f f' => StandsFor f' f) Follows where
  id _ _ stands := stands.id
  prepare _ _ g stands prepared := by
    obtain ⟨g', fold, prepared', goes⟩ := stands.prepared g prepared
    exact ⟨g', prepared', fold, goes⟩
  alike := follows_alike
  scannable _ _ follows prepared _ scannable := by
    obtain ⟨fold, goes⟩ := follows
    exact scannable.along prepared goes
  calls _ _ _ follows prepared _ scannable calls := by
    obtain ⟨fold, goes⟩ := follows
    exact calls.along scannable prepared goes

theorem link_parallel {r r' : Registry} {u : Linkage} (echoes : Echoes r r') {entries : List FunctionId}
    (linked : link r entries = .ok u) : ∃ u', link r' entries = .ok u' ∧ Parallel u u' :=
  companions_follows.link echoes linked

end Linkage

end ShaderForge
