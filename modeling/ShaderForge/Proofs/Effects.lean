import Mathlib.Data.List.Forall2
import ShaderForge.Buffer.Edit

/-!
Computations that may fail and keep a state. `Succeeds x s a t` says that `x` started in
`s` answers `a` and leaves `t`; the lemmas take a successful run apart step by step.
-/

namespace ShaderForge

variable {ε σ α β : Type}

def outcome (x : ExceptT ε (StateM σ) α) (s : σ) : Except ε α × σ := x.run.run s

theorem outcome_bind (x : ExceptT ε (StateM σ) α) (f : α → ExceptT ε (StateM σ) β) (s : σ) :
    outcome (x >>= f) s =
      match outcome x s with
      | (.ok a, u) => outcome (f a) u
      | (.error e, u) => (.error e, u) := by
  rcases run : outcome x s with ⟨answer, u⟩
  have opened : outcome (x >>= f) s =
      (ExceptT.bindCont f (outcome x s).1 : StateM σ (Except ε β)).run (outcome x s).2 := rfl
  rw [opened, run]
  cases answer <;> rfl

theorem outcome_get_bind (f : σ → ExceptT ε (StateM σ) α) (s : σ) :
    outcome (get >>= f) s = outcome (f s) s := rfl

def Succeeds (x : ExceptT ε (StateM σ) α) (s : σ) (a : α) (t : σ) : Prop :=
  outcome x s = (.ok a, t)

namespace Succeeds

theorem of_pure {a b : α} {s t : σ} :
    Succeeds (pure a : ExceptT ε (StateM σ) α) s b t ↔ a = b ∧ s = t := by
  change ((Except.ok a, s) : Except ε α × σ) = (.ok b, t) ↔ _
  simp

theorem bind_iff {x : ExceptT ε (StateM σ) α} {f : α → ExceptT ε (StateM σ) β} {s t : σ} {b : β} :
    Succeeds (x >>= f) s b t ↔ ∃ a u, Succeeds x s a u ∧ Succeeds (f a) u b t := by
  unfold Succeeds
  rw [outcome_bind]
  rcases outcome x s with ⟨answer, u⟩
  cases answer with
  | error e => simp
  | ok a =>
    constructor
    · intro h
      exact ⟨a, u, rfl, h⟩
    · rintro ⟨a', u', same, h⟩
      simp only [Prod.mk.injEq, Except.ok.injEq] at same
      obtain ⟨rfl, rfl⟩ := same
      exact h

theorem of_throw {e : ε} {s t : σ} {a : α} :
    ¬ Succeeds (throw e : ExceptT ε (StateM σ) α) s a t := by
  change ((Except.error e, s) : Except ε α × σ) ≠ (.ok a, t)
  simp

theorem of_get {s t u : σ} :
    Succeeds (get : ExceptT ε (StateM σ) σ) s u t ↔ s = u ∧ s = t := by
  change ((Except.ok s, s) : Except ε σ × σ) = (.ok u, t) ↔ _
  simp

theorem get_bind {f : σ → ExceptT ε (StateM σ) α} {s t : σ} {a : α} :
    Succeeds (get >>= f) s a t ↔ Succeeds (f s) s a t := by
  unfold Succeeds
  rw [outcome_get_bind]

theorem of_set {s t u : σ} {a : PUnit} :
    Succeeds (set u : ExceptT ε (StateM σ) PUnit) s a t ↔ u = t := by
  change ((Except.ok ⟨⟩, u) : Except ε PUnit × σ) = (.ok a, t) ↔ _
  simp

theorem of_modify {f : σ → σ} {s t : σ} {a : PUnit} :
    Succeeds (modify f : ExceptT ε (StateM σ) PUnit) s a t ↔ f s = t := by
  change ((Except.ok ⟨⟩, f s) : Except ε PUnit × σ) = (.ok a, t) ↔ _
  simp

theorem of_answer {answer : Except ε α} {s t : σ} {a : α} :
    Succeeds (ExceptT.mk (pure answer) : ExceptT ε (StateM σ) α) s a t ↔
      answer = .ok a ∧ s = t := by
  change ((answer, s) : Except ε α × σ) = (.ok a, t) ↔ _
  simp

theorem of_lift_run {x : ExceptT ε (StateM σ) α} {s t : σ} {r : Except ε α} :
    Succeeds (ExceptT.lift x.run : ExceptT ε (StateM σ) (Except ε α)) s r t ↔
      outcome x s = (r, t) := by
  have opened : outcome (ExceptT.lift x.run : ExceptT ε (StateM σ) (Except ε α)) s = (.ok (outcome x s).1, (outcome x s).2) := rfl
  unfold Succeeds
  rw [opened]
  rcases outcome x s with ⟨answer, u⟩
  simp

theorem mapM_iff {f : α → ExceptT ε (StateM σ) β} {R : α → β → Prop} {s : σ}
    (asks : ∀ a b t, Succeeds (f a) s b t ↔ s = t ∧ R a b) {items : List α} {answers : List β} {t : σ} :
    Succeeds (items.mapM f) s answers t ↔ s = t ∧ List.Forall₂ R items answers := by
  induction items generalizing answers with
  | nil =>
    rw [List.mapM_nil, of_pure, List.forall₂_nil_left_iff, and_comm, eq_comm (a := answers)]
  | cons a rest ih =>
    rw [List.mapM_cons, bind_iff]
    simp only [asks, bind_iff, of_pure]
    constructor
    · rintro ⟨b, _, ⟨rfl, first⟩, others, _, later, rfl, rfl⟩
      obtain ⟨rfl, each⟩ := ih.1 later
      exact ⟨rfl, .cons first each⟩
    · rintro ⟨rfl, each⟩
      obtain ⟨b, others, first, later, rfl⟩ := List.forall₂_cons_left_iff.1 each
      exact ⟨b, s, ⟨rfl, first⟩, others, s, ih.2 ⟨rfl, later⟩, rfl, rfl⟩

/-- Questions in a row keep an invariant that says how far they have come. -/
theorem mapM_inv {f : α → ExceptT ε (StateM σ) β} (inv : Nat → σ → Prop) {items : List α} {answers : List β}
    {s t : σ} (start : inv 0 s)
    (step : ∀ (k : Nat) (x : α) (b : β) (s t : σ), items[k]? = some x → answers[k]? = some b → inv k s →
      Succeeds (f x) s b t → inv (k + 1) t)
    (h : Succeeds (items.mapM f) s answers t) : inv items.length t := by
  induction items generalizing answers s inv with
  | nil =>
    obtain ⟨_, rfl⟩ := of_pure.1 h
    exact start
  | cons x rest ih =>
    rw [List.mapM_cons] at h
    obtain ⟨b, u, first, h⟩ := bind_iff.1 h
    obtain ⟨later, v, others, h⟩ := bind_iff.1 h
    obtain ⟨rfl, rfl⟩ := of_pure.1 h
    exact ih (fun k => inv (k + 1)) (step 0 x b s u rfl rfl start first)
      (fun k y b s t found given => step (k + 1) y b s t found given) others

theorem foldlM_each {f : β → α → ExceptT ε (StateM σ) β} {items : List α} {b c : β} {s t : σ}
    (h : Succeeds (items.foldlM f b) s c t) :
    ∀ item ∈ items, ∃ b' s' c' t', Succeeds (f b' item) s' c' t' := by
  induction items generalizing b s with
  | nil => intro item member; cases member
  | cons first rest ih =>
    rw [List.foldlM_cons] at h
    obtain ⟨b', s', ran, h⟩ := bind_iff.1 h
    intro item member
    rcases List.mem_cons.1 member with rfl | later
    · exact ⟨b, s, b', s', ran⟩
    · exact ih h item later

end Succeeds

theorem outcome_bind_error {x : ExceptT ε (StateM σ) α} {f : α → ExceptT ε (StateM σ) β} {s t : σ} {e : ε}
    (h : outcome (x >>= f) s = (.error e, t)) :
    outcome x s = (.error e, t) ∨ ∃ a u, Succeeds x s a u ∧ outcome (f a) u = (.error e, t) := by
  rw [outcome_bind] at h
  split at h
  · rename_i a u begun
    exact Or.inr ⟨a, u, begun, h⟩
  · rename_i failed
    cases h
    exact Or.inl failed

theorem outcome_mapM_error {f : α → ExceptT ε (StateM σ) β} {s : σ}
    (asks : ∀ a b t, Succeeds (f a) s b t → t = s) {items : List α} {e : ε} {t : σ}
    (h : outcome (items.mapM f) s = (.error e, t)) : ∃ a ∈ items, outcome (f a) s = (.error e, t) := by
  induction items with
  | nil => cases h
  | cons a rest ih =>
    rw [List.mapM_cons] at h
    rcases outcome_bind_error h with failed | ⟨b, u, answered, later⟩
    · exact ⟨a, List.mem_cons_self, failed⟩
    · obtain rfl := asks a b u answered
      rcases outcome_bind_error later with failed | ⟨_, _, _, done⟩
      · obtain ⟨a', member, blame⟩ := ih failed
        exact ⟨a', List.mem_cons_of_mem _ member, blame⟩
      · cases done

/-- From every state with a property the run succeeds, and the property is kept. -/
def Runs (P : σ → Prop) (x : ExceptT ε (StateM σ) α) : Prop :=
  ∀ s, P s → ∃ a t, Succeeds x s a t ∧ P t

namespace Runs

variable {P : σ → Prop}

theorem of_pure (a : α) : Runs P (pure a : ExceptT ε (StateM σ) α) :=
  fun s holds => ⟨a, s, Succeeds.of_pure.2 ⟨rfl, rfl⟩, holds⟩

theorem of_bind {x : ExceptT ε (StateM σ) α} {f : α → ExceptT ε (StateM σ) β} (first : Runs P x)
    (later : ∀ a, Runs P (f a)) : Runs P (x >>= f) := by
  intro s holds
  obtain ⟨a, u, ran, holds⟩ := first s holds
  obtain ⟨b, t, ran', holds⟩ := later a u holds
  exact ⟨b, t, Succeeds.bind_iff.2 ⟨a, u, ran, ran'⟩, holds⟩

theorem of_get {f : σ → ExceptT ε (StateM σ) β} (later : ∀ s, P s → Runs P (f s)) :
    Runs P (get >>= f) := by
  intro s holds
  obtain ⟨b, t, ran, kept⟩ := later s holds s holds
  exact ⟨b, t, Succeeds.bind_iff.2 ⟨s, s, Succeeds.of_get.2 ⟨rfl, rfl⟩, ran⟩, kept⟩

theorem of_modify {f : σ → σ} (keeps : ∀ s, P s → P (f s)) :
    Runs P (modify f : ExceptT ε (StateM σ) PUnit) :=
  fun s holds => ⟨⟨⟩, f s, Succeeds.of_modify.2 rfl, keeps s holds⟩

theorem of_answer {answer : Except ε α} {a : α} (known : answer = .ok a)
    {f : α → ExceptT ε (StateM σ) β} (later : Runs P (f a)) :
    Runs P ((ExceptT.mk (pure answer) : ExceptT ε (StateM σ) α) >>= f) := by
  intro s holds
  obtain ⟨b, t, ran, kept⟩ := later s holds
  exact ⟨b, t, Succeeds.bind_iff.2 ⟨a, s, Succeeds.of_answer.2 ⟨known, rfl⟩, ran⟩, kept⟩

theorem of_foldlM {f : β → α → ExceptT ε (StateM σ) β} {items : List α}
    (step : ∀ item ∈ items, ∀ b, Runs P (f b item)) (b : β) : Runs P (items.foldlM f b) := by
  induction items generalizing b with
  | nil => exact of_pure b
  | cons item rest ih =>
    rw [List.foldlM_cons]
    exact of_bind (step item List.mem_cons_self b)
      (ih fun x member => step x (List.mem_cons_of_mem _ member))

theorem of_mapM {f : α → ExceptT ε (StateM σ) β} {items : List α}
    (step : ∀ item ∈ items, Runs P (f item)) : Runs P (items.mapM f) := by
  induction items with
  | nil => exact of_pure []
  | cons item rest ih =>
    rw [List.mapM_cons]
    exact of_bind (step item List.mem_cons_self) fun b =>
      of_bind (ih fun x member => step x (List.mem_cons_of_mem _ member)) fun bs => of_pure _

end Runs

/-- Whatever a run answers, it leaves what a view of the state shows, and it fails for certain reasons
only. -/
structure Confined {τ : Type} (view : σ → τ) (reason : ε → Prop) (x : ExceptT ε (StateM σ) α) : Prop where
  keeps : ∀ s, view (outcome x s).2 = view s
  fails : ∀ s e, (outcome x s).1 = .error e → reason e

namespace Confined

variable {τ : Type} {view : σ → τ} {reason : ε → Prop}

theorem of_answer {answer : Except ε α} (fails : ∀ e, answer = .error e → reason e) :
    Confined view reason (ExceptT.mk (pure answer) : ExceptT ε (StateM σ) α) :=
  ⟨fun _ => rfl, fun _ => fails⟩

theorem of_pure (a : α) : Confined view reason (pure a : ExceptT ε (StateM σ) α) :=
  of_answer fun _ failed => nomatch failed

theorem of_throw {e : ε} (given : reason e) : Confined view reason (throw e : ExceptT ε (StateM σ) α) :=
  of_answer fun _ failed => Except.error.inj failed ▸ given

theorem of_get : Confined view reason (get : ExceptT ε (StateM σ) σ) :=
  ⟨fun _ => rfl, fun _ _ failed => nomatch failed⟩

theorem of_modify {f : σ → σ} (keeps : ∀ s, view (f s) = view s) :
    Confined view reason (modify f : ExceptT ε (StateM σ) PUnit) :=
  ⟨keeps, fun _ _ failed => nomatch failed⟩

theorem of_bind {x : ExceptT ε (StateM σ) α} {f : α → ExceptT ε (StateM σ) β}
    (first : Confined view reason x) (later : ∀ a, Confined view reason (f a)) :
    Confined view reason (x >>= f) := by
  constructor
  · intro s
    have kept := first.keeps s
    rw [outcome_bind]
    generalize outcome x s = result at kept
    obtain ⟨answer, u⟩ := result
    cases answer with
    | error e => exact kept
    | ok a => exact ((later a).keeps u).trans kept
  · intro s e failed
    rcases outcome_bind_error (Prod.ext failed rfl) with begun | ⟨a, u, _, failed⟩
    · exact first.fails s e (congrArg Prod.fst begun)
    · exact (later a).fails u e (congrArg Prod.fst failed)

theorem of_foldlM {f : β → α → ExceptT ε (StateM σ) β} (step : ∀ b a, Confined view reason (f b a))
    (items : List α) (b : β) : Confined view reason (items.foldlM f b) := by
  induction items generalizing b with
  | nil => exact of_pure b
  | cons item rest ih =>
    rw [List.foldlM_cons]
    exact of_bind (step b item) ih

theorem comp {υ : Type} {x : ExceptT ε (StateM σ) α} (confined : Confined view reason x) (part : τ → υ) :
    Confined (fun s => part (view s)) reason x :=
  ⟨fun s => congrArg part (confined.keeps s), confined.fails⟩

end Confined

/-- However a run ends: with an answer and a state as `Q` says, or failed in a state as `R` says. -/
structure Ends (x : ExceptT ε (StateM σ) α) (s : σ) (Q : α → σ → Prop) (R : σ → Prop) : Prop where
  succeeds : ∀ a t, Succeeds x s a t → Q a t
  fails : ∀ e t, outcome x s = (.error e, t) → R t

namespace Ends

variable {s : σ} {Q : α → σ → Prop} {R : σ → Prop}

theorem of_pure {a : α} (holds : Q a s) : Ends (pure a : ExceptT ε (StateM σ) α) s Q R := by
  refine ⟨fun b t h => ?_, fun e t h => nomatch h⟩
  obtain ⟨rfl, rfl⟩ := Succeeds.of_pure.1 h
  exact holds

theorem of_throw {e : ε} (holds : R s) : Ends (throw e : ExceptT ε (StateM σ) α) s Q R :=
  ⟨fun _ _ h => (Succeeds.of_throw h).elim, fun _ _ h => (Prod.mk.inj h).2 ▸ holds⟩

theorem of_answer {answer : Except ε α} (known : ∀ a, answer = .ok a → Q a s) (holds : R s) :
    Ends (ExceptT.mk (pure answer) : ExceptT ε (StateM σ) α) s Q R := by
  refine ⟨fun b t h => ?_, fun _ _ h => (Prod.mk.inj h).2 ▸ holds⟩
  obtain ⟨found, rfl⟩ := Succeeds.of_answer.1 h
  exact known b found

theorem of_modify {f : σ → σ} {Q : PUnit → σ → Prop} (holds : Q ⟨⟩ (f s)) :
    Ends (modify f : ExceptT ε (StateM σ) PUnit) s Q R := by
  refine ⟨fun b t h => ?_, fun _ _ h => nomatch h⟩
  obtain rfl := Succeeds.of_modify.1 h
  exact holds

theorem of_bind {x : ExceptT ε (StateM σ) β} {f : β → ExceptT ε (StateM σ) α} {M : β → σ → Prop}
    (first : Ends x s M R) (later : ∀ b t, M b t → Ends (f b) t Q R) : Ends (x >>= f) s Q R := by
  refine ⟨fun a v h => ?_, fun e v h => ?_⟩
  · obtain ⟨b, t, ran, h⟩ := Succeeds.bind_iff.1 h
    exact (later b t (first.succeeds b t ran)).succeeds a v h
  · rcases outcome_bind_error h with failed | ⟨b, t, ran, failed⟩
    · exact first.fails e v failed
    · exact (later b t (first.succeeds b t ran)).fails e v failed

theorem of_get {f : σ → ExceptT ε (StateM σ) α} (later : Ends (f s) s Q R) : Ends (get >>= f) s Q R :=
  ⟨fun a t h => later.succeeds a t (Succeeds.get_bind.1 h), fun e t h => later.fails e t h⟩

theorem imp {x : ExceptT ε (StateM σ) α} {Q' : α → σ → Prop} {R' : σ → Prop} (ends : Ends x s Q R)
    (answered : ∀ a t, Q a t → Q' a t) (failed : ∀ t, R t → R' t) : Ends x s Q' R' :=
  ⟨fun a t h => answered a t (ends.succeeds a t h), fun e t h => failed t (ends.fails e t h)⟩

end Ends

/-- Two runs side by side: from related states, whatever the first one answers the second one has a
related answer, and they leave related states. -/
def Shadows {γ : Type} (R : σ → σ → Prop) (Q : α → γ → Prop) (x : ExceptT ε (StateM σ) α)
    (y : ExceptT ε (StateM σ) γ) : Prop :=
  ∀ s s' a t, R s s' → Succeeds x s a t → ∃ b t', Succeeds y s' b t' ∧ Q a b ∧ R t t'

namespace Shadows

variable {γ δ : Type} {R : σ → σ → Prop} {Q : α → γ → Prop} {P : β → δ → Prop}

theorem of_pure {a : α} {b : γ} (holds : Q a b) :
    Shadows R Q (pure a : ExceptT ε (StateM σ) α) (pure b) := by
  intro s s' a' t related h
  obtain ⟨rfl, rfl⟩ := Succeeds.of_pure.1 h
  exact ⟨b, s', Succeeds.of_pure.2 ⟨rfl, rfl⟩, holds, related⟩

theorem of_throw {e : ε} {y : ExceptT ε (StateM σ) γ} : Shadows R Q (throw e : ExceptT ε (StateM σ) α) y :=
  fun _ _ _ _ _ h => (Succeeds.of_throw h).elim

theorem of_answer {x : Except ε α} {y : Except ε γ} (known : ∀ a, x = .ok a → ∃ b, y = .ok b ∧ Q a b) :
    Shadows R Q (ExceptT.mk (pure x) : ExceptT ε (StateM σ) α) (ExceptT.mk (pure y)) := by
  intro s s' a t related h
  obtain ⟨answer, rfl⟩ := Succeeds.of_answer.1 h
  obtain ⟨b, other, holds⟩ := known a answer
  exact ⟨b, s', Succeeds.of_answer.2 ⟨other, rfl⟩, holds, related⟩

theorem of_modify {f g : σ → σ} (keeps : ∀ s s', R s s' → R (f s) (g s')) :
    Shadows R Eq (modify f : ExceptT ε (StateM σ) PUnit) (modify g) := by
  intro s s' a t related h
  obtain rfl := Succeeds.of_modify.1 h
  exact ⟨⟨⟩, g s', Succeeds.of_modify.2 rfl, rfl, keeps s s' related⟩

theorem of_set {u u' : σ} (holds : R u u') : Shadows R Eq (set u : ExceptT ε (StateM σ) PUnit) (set u') := by
  intro s s' a t _ h
  obtain rfl := Succeeds.of_set.1 h
  exact ⟨⟨⟩, u', Succeeds.of_set.2 rfl, rfl, holds⟩

theorem of_bind {x : ExceptT ε (StateM σ) α} {y : ExceptT ε (StateM σ) γ} {f : α → ExceptT ε (StateM σ) β}
    {g : γ → ExceptT ε (StateM σ) δ} (first : Shadows R Q x y)
    (later : ∀ a b, Q a b → Shadows R P (f a) (g b)) : Shadows R P (x >>= f) (y >>= g) := by
  intro s s' c t related h
  obtain ⟨a, u, ran, h⟩ := Succeeds.bind_iff.1 h
  obtain ⟨b, u', ran', holds, related⟩ := first s s' a u related ran
  obtain ⟨d, t', rest, holds, related⟩ := later a b holds u u' c t related h
  exact ⟨d, t', Succeeds.bind_iff.2 ⟨b, u', ran', rest⟩, holds, related⟩

theorem of_bind_eq {x y : ExceptT ε (StateM σ) α} {f : α → ExceptT ε (StateM σ) β}
    {g : α → ExceptT ε (StateM σ) δ} (first : Shadows R Eq x y) (later : ∀ a, Shadows R P (f a) (g a)) :
    Shadows R P (x >>= f) (y >>= g) := by
  refine of_bind first ?_
  rintro a _ rfl
  exact later a

theorem of_get {f : σ → ExceptT ε (StateM σ) β} {g : σ → ExceptT ε (StateM σ) δ}
    (later : ∀ s s', R s s' → Shadows R P (f s) (g s')) : Shadows R P (get >>= f) (get >>= g) := by
  intro s s' c t related h
  obtain ⟨d, t', ran, holds⟩ := later s s' related s s' c t related (Succeeds.get_bind.1 h)
  exact ⟨d, t', Succeeds.get_bind.2 ran, holds⟩

theorem of_asked {x y : Except ε α} {f : α → ExceptT ε (StateM σ) β} {g : α → ExceptT ε (StateM σ) δ}
    (same : ∀ a, x = .ok a → y = .ok a) (later : ∀ a, x = .ok a → Shadows R P (f a) (g a)) :
    Shadows R P (ExceptT.mk (pure x) >>= f) (ExceptT.mk (pure y) >>= g) := by
  have asked : Shadows R (fun a b => a = b ∧ x = .ok a) (ExceptT.mk (pure x) : ExceptT ε (StateM σ) α)
      (ExceptT.mk (pure y)) :=
    of_answer fun a known => ⟨a, same a known, rfl, known⟩
  refine of_bind asked ?_
  rintro a _ ⟨rfl, known⟩
  exact later a known

theorem of_mapM {f g : α → ExceptT ε (StateM σ) β} {items : List α}
    (each : ∀ a ∈ items, Shadows R Eq (f a) (g a)) : Shadows R Eq (items.mapM f) (items.mapM g) := by
  induction items with
  | nil => exact of_pure rfl
  | cons a rest ih =>
    rw [List.mapM_cons, List.mapM_cons]
    exact of_bind_eq (each a List.mem_cons_self) fun b =>
      of_bind_eq (ih fun x member => each x (List.mem_cons_of_mem _ member)) fun _ => of_pure rfl

theorem of_foldlM_filter {f g : β → α → ExceptT ε (StateM σ) β} {items : List α} {keep : α → Bool}
    (kept : ∀ a ∈ items, keep a = true → ∀ b, Shadows R Eq (f b a) (g b a))
    (skipped : ∀ a ∈ items, keep a = false → ∀ b, Shadows R Eq (f b a) (pure b : ExceptT ε (StateM σ) β))
    (b : β) : Shadows R Eq (items.foldlM f b) ((items.filter keep).foldlM g b) := by
  induction items generalizing b with
  | nil => exact of_pure rfl
  | cons a rest ih =>
    have later := ih (fun x member => kept x (List.mem_cons_of_mem _ member))
      fun x member => skipped x (List.mem_cons_of_mem _ member)
    rw [List.foldlM_cons, List.filter_cons]
    cases here : keep a with
    | true =>
      rw [if_pos rfl, List.foldlM_cons]
      exact of_bind_eq (kept a List.mem_cons_self here b) later
    | false =>
      rw [if_neg Bool.false_ne_true]
      intro s s' c t related h
      obtain ⟨b', u, ran, h⟩ := Succeeds.bind_iff.1 h
      obtain ⟨_, u', ran', rfl, related⟩ := skipped a List.mem_cons_self here b s s' b' u related ran
      obtain ⟨rfl, rfl⟩ := Succeeds.of_pure.1 ran'
      exact later _ _ _ c t related h

end Shadows

/-- Where one computation answers, so does the other, and the same. -/
def Entails (x y : Except ε α) : Prop := ∀ a, x = .ok a → y = .ok a

namespace Entails

theorem refl (x : Except ε α) : Entails x x := fun _ answer => answer

theorem of_error (e : ε) (y : Except ε α) : Entails (.error e) y := by
  intro a answer
  cases answer

theorem bind_along {γ : Type} {x : Except ε α} {y : Except ε γ} {along : α → γ} {f : α → Except ε β}
    {g : γ → Except ε β} (first : ∀ a, x = .ok a → y = .ok (along a))
    (later : ∀ a, x = .ok a → Entails (f a) (g (along a))) : Entails (x >>= f) (y >>= g) := by
  cases x with
  | error e => exact of_error e _
  | ok a =>
    rw [first a rfl]
    exact later a rfl

theorem bind {x y : Except ε α} {f g : α → Except ε β} (first : Entails x y)
    (later : ∀ a, x = .ok a → Entails (f a) (g a)) : Entails (x >>= f) (y >>= g) :=
  bind_along first later

theorem ite {c : Prop} [Decidable c] {x x' y y' : Except ε α} (first : Entails x x') (second : Entails y y') :
    Entails (if c then x else y) (if c then x' else y') := by
  split
  · exact first
  · exact second

theorem mapM {γ : Type} {f : α → Except ε β} {g : γ → Except ε β} {via : α → γ} {items : List α}
    (each : ∀ a ∈ items, Entails (f a) (g (via a))) : Entails (items.mapM f) ((items.map via).mapM g) := by
  induction items with
  | nil => exact refl _
  | cons a rest ih =>
    rw [List.map_cons, List.mapM_cons, List.mapM_cons]
    exact bind (each a List.mem_cons_self) fun _ _ =>
      bind (ih fun x member => each x (List.mem_cons_of_mem _ member)) fun _ _ => refl _

end Entails

theorem Except.bind_ok {x : Except ε α} {f : α → Except ε β} {b : β} (h : x >>= f = .ok b) :
    ∃ a, x = .ok a ∧ f a = .ok b := by
  cases x with
  | error e => cases h
  | ok a => exact ⟨a, rfl, h⟩

theorem Except.bind_congr {x : Except ε α} {f g : α → Except ε β} (same : ∀ a, x = .ok a → f a = g a) :
    x >>= f = x >>= g := by
  cases x with
  | error e => rfl
  | ok a => exact same a rfl

theorem Except.ok_bind (a : α) (f : α → Except ε β) : (Except.ok a >>= f) = f a := rfl

theorem Except.foldlM_inv {f : β → α → Except ε β} (inv : Nat → β → Prop)
    {items : List α} {b c : β} (start : inv 0 b)
    (step : ∀ (k : Nat) (x : α) (b c : β), items[k]? = some x → inv k b → f b x = .ok c → inv (k + 1) c)
    (h : items.foldlM f b = .ok c) : inv items.length c := by
  induction items generalizing b inv with
  | nil =>
    cases h
    exact start
  | cons x rest ih =>
    rw [List.foldlM_cons] at h
    obtain ⟨d, first, h⟩ := Except.bind_ok h
    exact ih (fun k => inv (k + 1)) (step 0 x b d rfl start first)
      (fun k y b c found => step (k + 1) y b c found) h

theorem Except.mapM_ok_iff {f : α → Except ε β} {items : List α} {results : List β} :
    items.mapM f = .ok results ↔ List.Forall₂ (fun x y => f x = .ok y) items results := by
  induction items generalizing results with
  | nil =>
    simp only [List.mapM_nil, List.forall₂_nil_left_iff]
    exact ⟨fun h => (Except.ok.inj h).symm, fun h => h ▸ rfl⟩
  | cons x rest ih =>
    rw [List.mapM_cons, List.forall₂_cons_left_iff]
    constructor
    · intro h
      obtain ⟨y, first, h⟩ := Except.bind_ok h
      obtain ⟨ys, later, h⟩ := Except.bind_ok h
      cases h
      exact ⟨y, ys, first, ih.1 later, rfl⟩
    · rintro ⟨y, ys, first, later, rfl⟩
      rw [first, ih.2 later]
      rfl

theorem Except.mapM_congr {γ : Type} {f : α → Except ε γ} {g : β → Except ε γ} {items : List α}
    {others : List β} (same : List.Forall₂ (fun x y => f x = g y) items others) :
    items.mapM f = others.mapM g := by
  induction same with
  | nil => rfl
  | cons first _ ih => rw [List.mapM_cons, List.mapM_cons, first, ih]

theorem Except.mapM_each {f : α → Except ε β} {items : List α} {results : List β}
    (h : items.mapM f = .ok results) : ∀ x ∈ items, ∃ y, f x = .ok y := by
  have each := Except.mapM_ok_iff.1 h
  clear h
  induction each with
  | nil => exact fun x member => absurd member List.not_mem_nil
  | cons first _ ih =>
    intro x member
    rcases List.mem_cons.1 member with rfl | later
    · exact ⟨_, first⟩
    · exact ih x later

theorem Except.exists_mapM {f : α → Except ε β} {R : α → β → Prop} {items : List α}
    (each : ∀ x ∈ items, ∃ y, f x = .ok y ∧ R x y) :
    ∃ results, items.mapM f = .ok results ∧ List.Forall₂ R items results := by
  induction items with
  | nil => exact ⟨[], rfl, .nil⟩
  | cons x rest ih =>
    obtain ⟨y, first, holds⟩ := each x List.mem_cons_self
    obtain ⟨ys, later, hold⟩ := ih fun z member => each z (List.mem_cons_of_mem x member)
    refine ⟨y :: ys, ?_, .cons holds hold⟩
    rw [List.mapM_cons, first, later]
    rfl

theorem Except.toOption_eq_some_iff {x : Except ε α} {a : α} : x.toOption = some a ↔ x = .ok a := by
  cases x <;> simp [Except.toOption]

/-- Questions with the same answers differ at most in why they fail. -/
theorem Except.toOption_congr {x y : Except ε α} (same : ∀ a, x = .ok a ↔ y = .ok a) :
    x.toOption = y.toOption := by
  apply Option.ext
  intro a
  rw [Except.toOption_eq_some_iff, Except.toOption_eq_some_iff, same]

theorem Except.toOption_bind (x : Except ε α) (f : α → Except ε β) :
    (x >>= f).toOption = x.toOption.bind fun a => (f a).toOption := by
  cases x <;> rfl

theorem Except.foldlM_congr {f g : β → α → Except ε β} {items : List α}
    (same : ∀ b, ∀ x ∈ items, f b x = g b x) (b : β) : items.foldlM f b = items.foldlM g b := by
  induction items generalizing b with
  | nil => rfl
  | cons x rest ih =>
    rw [List.foldlM_cons, List.foldlM_cons, same b x List.mem_cons_self]
    exact Except.bind_congr fun c _ => ih (fun b y member => same b y (List.mem_cons_of_mem x member)) c

theorem Except.toOption_foldlM_congr {f g : β → α → Except ε β} {items : List α}
    (same : ∀ x ∈ items, ∀ b, (f b x).toOption = (g b x).toOption) (b : β) :
    (items.foldlM f b).toOption = (items.foldlM g b).toOption := by
  induction items generalizing b with
  | nil => rfl
  | cons x rest ih =>
    rw [List.foldlM_cons, List.foldlM_cons, Except.toOption_bind, Except.toOption_bind,
      same x List.mem_cons_self]
    exact congrArg _ (funext (ih fun y member => same y (List.mem_cons_of_mem x member)))

theorem Except.exists_foldlM {f : β → α → Except ε β} {items : List α}
    (each : ∀ x ∈ items, ∀ b, ∃ c, f b x = .ok c) (b : β) : ∃ c, items.foldlM f b = .ok c := by
  induction items generalizing b with
  | nil => exact ⟨b, rfl⟩
  | cons x rest ih =>
    obtain ⟨c, first⟩ := each x List.mem_cons_self b
    obtain ⟨d, later⟩ := ih (fun y member => each y (List.mem_cons_of_mem x member)) c
    exact ⟨d, by rw [List.foldlM_cons, first, Except.ok_bind, later]⟩

theorem Except.foldlM_each {f : β → α → Except ε β} {items : List α} {b c : β}
    (h : items.foldlM f b = .ok c) : ∀ x ∈ items, ∃ b' c', f b' x = .ok c' := by
  induction items generalizing b with
  | nil => intro x member; cases member
  | cons y rest ih =>
    rw [List.foldlM_cons] at h
    obtain ⟨d, first, h⟩ := Except.bind_ok h
    intro x member
    rcases List.mem_cons.1 member with rfl | later
    · exact ⟨b, d, first⟩
    · exact ih h x later

/-- An answer, or an error for certain reasons only. -/
def FailsFor (reason : ε → Prop) (x : Except ε α) : Prop := ∀ e, x = .error e → reason e

namespace FailsFor

variable {reason : ε → Prop}

theorem of_ok (a : α) : FailsFor reason (.ok a : Except ε α) := nofun

theorem of_error {e : ε} (given : reason e) : FailsFor reason (.error e : Except ε α) :=
  fun _ same => Except.error.inj same ▸ given

theorem bind {x : Except ε α} {f : α → Except ε β} (first : FailsFor reason x)
    (later : ∀ a, x = .ok a → FailsFor reason (f a)) : FailsFor reason (x >>= f) := by
  cases x with
  | error e => exact of_error (first e rfl)
  | ok a => exact later a rfl

theorem foldlM {f : β → α → Except ε β} {items : List α} (step : ∀ item ∈ items, ∀ b, FailsFor reason (f b item))
    (b : β) : FailsFor reason (items.foldlM f b) := by
  induction items generalizing b with
  | nil => exact of_ok b
  | cons item rest ih =>
    rw [List.foldlM_cons]
    exact bind (step item List.mem_cons_self b) fun b _ =>
      ih (fun x member => step x (List.mem_cons_of_mem _ member)) b

theorem mapM {f : α → Except ε β} {items : List α} (each : ∀ item ∈ items, FailsFor reason (f item)) :
    FailsFor reason (items.mapM f) := by
  induction items with
  | nil => exact of_ok []
  | cons item rest ih =>
    rw [List.mapM_cons]
    exact bind (each item List.mem_cons_self) fun b _ =>
      bind (ih fun x member => each x (List.mem_cons_of_mem _ member)) fun bs _ => of_ok _

end FailsFor

theorem Edit.outcome_query (f : Buffer → Except Fault α) (b : Buffer) :
    outcome (Edit.query f) b = (f b, b) := by
  unfold Edit.query
  rw [outcome_get_bind]
  cases f b <;> rfl

theorem Edit.query_succeeds {f : Buffer → Except Fault α} {b c : Buffer} {a : α} :
    Succeeds (Edit.query f) b a c ↔ f b = .ok a ∧ b = c := by
  unfold Succeeds
  rw [Edit.outcome_query, Prod.mk.injEq]

theorem Edit.query_bind {f : Buffer → Except Fault α} {g : α → Edit β} {b c : Buffer} {x : β} :
    Succeeds (Edit.query f >>= g) b x c ↔ ∃ a, f b = .ok a ∧ Succeeds (g a) b x c := by
  rw [Succeeds.bind_iff]
  constructor
  · rintro ⟨a, _, asked, h⟩
    obtain ⟨found, rfl⟩ := Edit.query_succeeds.1 asked
    exact ⟨a, found, h⟩
  · rintro ⟨a, found, h⟩
    exact ⟨a, b, Edit.query_succeeds.2 ⟨found, rfl⟩, h⟩

/-- Puts another buffer in place, unless there is nothing to do. -/
theorem Edit.replace_unless {done : Prop} [Decidable done] {next : Buffer → Except Fault Buffer}
    {b c : Buffer} {changed : Bool} :
    Succeeds (if done then pure false else do
      set (← Edit.query next)
      return true : Edit Bool) b changed c ↔
      if done then changed = false ∧ c = b else changed = true ∧ next b = .ok c := by
  split
  · rw [Succeeds.of_pure, eq_comm, eq_comm (a := b)]
  · rw [Edit.query_bind]
    simp only [Succeeds.bind_iff, Succeeds.of_set, Succeeds.of_pure]
    constructor
    · rintro ⟨d, found, _, _, rfl, rfl, rfl⟩
      exact ⟨rfl, found⟩
    · rintro ⟨rfl, found⟩
      exact ⟨c, found, ⟨⟩, c, rfl, rfl, rfl⟩

theorem Edit.exec_ok_iff {e : Edit α} {b c : Buffer} : e.exec b = .ok c ↔ ∃ a, Succeeds e b a c := by
  unfold Succeeds Edit.exec
  rw [show e.apply b = outcome e b from rfl]
  rcases outcome e b with ⟨answer, d⟩
  cases answer <;> simp

end ShaderForge
