import Mathlib.Data.List.Forall2

/-!
Computations that may fail, taken apart.

A sequence succeeds exactly when its parts do, and a traversal succeeds exactly when it does so on
every element, so that a result can be read as a relation between inputs and outputs.
-/

set_option autoImplicit false
set_option relaxedAutoImplicit false

namespace TrackFusion

variable {ε α β : Type}

theorem bind_eq_ok_iff {first : Except ε α} {next : α → Except ε β} {b : β} :
    first >>= next = .ok b ↔ ∃ a, first = .ok a ∧ next a = .ok b := by
  cases first <;> simp [Bind.bind, Except.bind]

theorem bind_eq_error_iff {first : Except ε α} {next : α → Except ε β} {e : ε} :
    first >>= next = .error e ↔ first = .error e ∨ ∃ a, first = .ok a ∧ next a = .error e := by
  cases first <;> simp [Bind.bind, Except.bind]

theorem ok_bind (a : α) (next : α → Except ε β) : (Except.ok a >>= next) = next a :=
  rfl

theorem pure_eq_ok_iff {a b : α} : (pure a : Except ε α) = .ok b ↔ a = b := by
  simp [pure, Except.pure]

theorem pure_ne_error {a : α} {e : ε} : (pure a : Except ε α) ≠ .error e :=
  nofun

theorem bind_eq_map {first : Except ε α} {next : α → Except ε β} {g : α → β}
    (each : ∀ a, next a = .ok (g a)) : (first >>= next) = first.map g := by
  cases first with
  | error e => rfl
  | ok a => exact each a

/-- A computation commutes with a map if each of its steps does. -/
theorem map_bind_eq_map {α' β' : Type} {first : Except ε α} {f : α → α'} {next' : α' → Except ε β'}
    {next : α → Except ε β} {g : β → β'}
    (each : ∀ a, first = .ok a → next' (f a) = (next a).map g) :
    (first.map f >>= next') = (first >>= next).map g := by
  cases first with
  | error e => rfl
  | ok a => exact each a rfl

theorem mapM_eq_ok_iff {f : α → Except ε β} {xs : List α} {ys : List β} :
    xs.mapM f = .ok ys ↔ List.Forall₂ (fun x y => f x = .ok y) xs ys := by
  induction xs generalizing ys with
  | nil => cases ys <;> simp [pure, Except.pure]
  | cons x xs ih =>
    simp only [List.mapM_cons, bind_eq_ok_iff, pure_eq_ok_iff, ih]
    constructor
    · rintro ⟨y, first, rest, others, rfl⟩
      exact .cons first others
    · rintro (_ | ⟨first, others⟩)
      exact ⟨_, first, _, others, rfl⟩

theorem exists_mapM_eq_ok {f : α → Except ε β} {xs : List α}
    (succeeds : ∀ x ∈ xs, ∃ y, f x = .ok y) : ∃ ys, xs.mapM f = .ok ys := by
  induction xs with
  | nil => exact ⟨[], rfl⟩
  | cons x xs ih =>
    obtain ⟨y, first⟩ := succeeds x List.mem_cons_self
    obtain ⟨ys, others⟩ := ih fun z member => succeeds z (List.mem_cons_of_mem x member)
    exact ⟨y :: ys, mapM_eq_ok_iff.mpr (.cons first (mapM_eq_ok_iff.mp others))⟩

theorem exists_mem_of_forall₂ {R : α → β → Prop} {xs : List α} {ys : List β}
    (related : List.Forall₂ R xs ys) {y : β} (member : y ∈ ys) : ∃ x ∈ xs, R x y := by
  induction related with
  | nil => exact absurd member List.not_mem_nil
  | cons first _ ih =>
    rcases List.mem_cons.mp member with rfl | later
    · exact ⟨_, List.mem_cons_self, first⟩
    · obtain ⟨x, listed, holds⟩ := ih later
      exact ⟨x, List.mem_cons_of_mem _ listed, holds⟩

theorem mapM_map_eq_map {α' β' : Type} {f : α → Except ε β} {f' : α' → Except ε β'} {g : α → α'}
    {h : β → β'} {xs : List α} (each : ∀ x ∈ xs, f' (g x) = (f x).map h) :
    (xs.map g).mapM f' = (xs.mapM f).map (List.map h) := by
  induction xs with
  | nil => rfl
  | cons x xs ih =>
    have others := ih fun z member => each z (List.mem_cons_of_mem x member)
    rw [List.map_cons, List.mapM_cons, List.mapM_cons, each x List.mem_cons_self, others]
    exact map_bind_eq_map fun y _ => map_bind_eq_map fun ys _ => rfl

variable {σ : Type} {step : σ → α → Except ε σ} {P : σ → Prop}

/-- What every step that returns preserves holds after a run that returns. -/
theorem foldlM_preserves (preserved : ∀ s x s', P s → step s x = .ok s' → P s') {xs : List α}
    {s s' : σ} (initial : P s) (returned : xs.foldlM step s = .ok s') : P s' := by
  induction xs generalizing s with
  | nil =>
    obtain rfl := pure_eq_ok_iff.mp returned
    exact initial
  | cons x xs ih =>
    rw [List.foldlM_cons] at returned
    obtain ⟨middle, first, rest⟩ := bind_eq_ok_iff.mp returned
    exact ih (preserved s x middle initial first) rest

theorem exists_foldlM_eq_ok (succeeds : ∀ s x, P s → ∃ s', step s x = .ok s' ∧ P s') (xs : List α)
    {s : σ} (initial : P s) : ∃ s', xs.foldlM step s = .ok s' := by
  induction xs generalizing s with
  | nil => exact ⟨s, rfl⟩
  | cons x xs ih =>
    obtain ⟨middle, first, kept⟩ := succeeds s x initial
    obtain ⟨s', rest⟩ := ih kept
    rw [List.foldlM_cons]
    exact ⟨s', bind_eq_ok_iff.mpr ⟨middle, first, rest⟩⟩

end TrackFusion
