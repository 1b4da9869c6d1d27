import Mathlib.Control.Monad.Basic

/-!
# Computations that succeed

A computation that can fail succeeds exactly if all its steps do.  Whether two of them are equal
is decided by an instance of the library that is imported here.

* `bind_eq_ok` — two steps, one after the other.
* `mapM_cons_eq_ok`, `mapM_cons_eq_some` — one step for each member of a list.
* `mem_of_mapM_eq_ok`, `mem_of_mapM_eq_some` — what is made is made by one of the steps.
* `map_eq_of_mapM_eq_ok` — what each step keeps.
* `exists_mapM_eq_some`, `mapM_map_eq_pure` — steps that all succeed.
* `foldlM_invariant` — what each step preserves holds in the end.
-/

namespace MettaSchema

variable {ε α β : Type}

theorem bind_eq_ok {x : Except ε α} {f : α → Except ε β} {b : β} :
    (x >>= f) = .ok b ↔ ∃ a, x = .ok a ∧ f a = .ok b := by
  cases x with
  | error e => simp [bind, Except.bind]
  | ok a => simp [bind, Except.bind]

theorem pure_eq_ok {a b : α} : (pure a : Except ε α) = .ok b ↔ a = b := by
  simp [pure, Except.pure]

theorem mapM_cons_eq_ok {f : α → Except ε β} {x : α} {xs : List α} {ys : List β} :
    (x :: xs).mapM f = .ok ys ↔ ∃ y rest, f x = .ok y ∧ xs.mapM f = .ok rest ∧ ys = y :: rest := by
  simp only [List.mapM_cons, bind_eq_ok, pure_eq_ok]
  constructor
  · rintro ⟨y, hy, rest, hrest, rfl⟩
    exact ⟨y, rest, hy, hrest, rfl⟩
  · rintro ⟨y, rest, hy, hrest, rfl⟩
    exact ⟨y, hy, rest, hrest, rfl⟩

theorem mapM_cons_eq_some {f : α → Option β} {x : α} {xs : List α} {ys : List β} :
    (x :: xs).mapM f = some ys
      ↔ ∃ y rest, f x = some y ∧ xs.mapM f = some rest ∧ ys = y :: rest := by
  simp only [List.mapM_cons, Option.bind_eq_bind, Option.bind_eq_some_iff, Option.pure_def,
    Option.some.injEq]
  constructor
  · rintro ⟨y, hy, rest, hrest, rfl⟩
    exact ⟨y, rest, hy, hrest, rfl⟩
  · rintro ⟨y, rest, hy, hrest, rfl⟩
    exact ⟨y, hy, rest, hrest, rfl⟩

/-- What is made from a list is made from its members. -/
theorem mem_of_mapM_eq_ok {f : α → Except ε β} {xs : List α} {ys : List β}
    (h : xs.mapM f = .ok ys) {y : β} (hy : y ∈ ys) : ∃ x ∈ xs, f x = .ok y := by
  induction xs generalizing ys with
  | nil =>
    rw [List.mapM_nil, pure_eq_ok] at h
    subst h
    cases hy
  | cons x xs ih =>
    obtain ⟨first, rest, hfirst, hrest, rfl⟩ := mapM_cons_eq_ok.1 h
    rcases List.mem_cons.1 hy with rfl | hy
    · exact ⟨x, by simp, hfirst⟩
    · obtain ⟨x', hx', hf⟩ := ih hrest hy
      exact ⟨x', List.mem_cons_of_mem x hx', hf⟩

/-- What each step keeps of the member that it is for is kept of the list. -/
theorem map_eq_of_mapM_eq_ok {γ : Type} {f : α → Except ε β} {g : α → γ} {k : β → γ} {xs : List α}
    {ys : List β} (h : xs.mapM f = .ok ys) (hstep : ∀ x y, f x = .ok y → k y = g x) :
    ys.map k = xs.map g := by
  induction xs generalizing ys with
  | nil =>
    cases h
    rfl
  | cons x xs ih =>
    obtain ⟨first, rest, hfirst, hrest, rfl⟩ := mapM_cons_eq_ok.1 h
    rw [List.map_cons, List.map_cons, hstep x first hfirst, ih hrest]

/-- What is made from a list is made from its members. -/
theorem mem_of_mapM_eq_some {f : α → Option β} {xs : List α} {ys : List β}
    (h : xs.mapM f = some ys) {y : β} (hy : y ∈ ys) : ∃ x ∈ xs, f x = some y := by
  induction xs generalizing ys with
  | nil =>
    cases h
    cases hy
  | cons x xs ih =>
    obtain ⟨first, rest, hfirst, hrest, rfl⟩ := mapM_cons_eq_some.1 h
    rcases List.mem_cons.1 hy with rfl | hy
    · exact ⟨x, by simp, hfirst⟩
    · obtain ⟨x', hx', hf⟩ := ih hrest hy
      exact ⟨x', List.mem_cons_of_mem x hx', hf⟩

/-- What is in one of the lists that are made from the members of a list is made from a member. -/
theorem mem_flatten_of_mapM_eq_some {f : α → Option (List β)} {xs : List α}
    {lists : List (List β)} (h : xs.mapM f = some lists) {y : β} (hy : y ∈ lists.flatten) :
    ∃ x ∈ xs, ∃ ys, f x = some ys ∧ y ∈ ys := by
  obtain ⟨ys, hys, hy⟩ := List.mem_flatten.1 hy
  obtain ⟨x, hx, hf⟩ := mem_of_mapM_eq_some h hys
  exact ⟨x, hx, ys, hf, hy⟩

/-- Steps that all succeed have a list of results. -/
theorem exists_mapM_eq_some {f : α → Option β} {xs : List α} (h : ∀ x ∈ xs, ∃ y, f x = some y) :
    ∃ ys, xs.mapM f = some ys := by
  induction xs with
  | nil => exact ⟨[], rfl⟩
  | cons x xs ih =>
    obtain ⟨⟨y, hy⟩, hxs⟩ := List.forall_mem_cons.1 h
    obtain ⟨ys, hys⟩ := ih hxs
    exact ⟨y :: ys, by simp [hy, hys]⟩

/-- Steps that all succeed give a list of results. -/
theorem mapM_map_eq_pure {m : Type → Type} [Monad m] [LawfulMonad m] {γ : Type} {f : β → m γ}
    {g : α → β} {k : α → γ} {xs : List α} (h : ∀ x ∈ xs, f (g x) = pure (k x)) :
    (xs.map g).mapM f = pure (xs.map k) := by
  induction xs with
  | nil => simp
  | cons x xs ih =>
    have hxs := ih fun y hy => h y (by simp [hy])
    simp [h x (by simp), hxs]

/-- What holds at first and is kept by every step holds in the end. -/
theorem foldlM_invariant {P : β → Prop} {step : β → α → Except ε β} {xs : List α}
    (hstep : ∀ b x b', x ∈ xs → P b → step b x = .ok b' → P b') {b b' : β} (hb : P b)
    (h : xs.foldlM step b = .ok b') : P b' := by
  induction xs generalizing b with
  | nil =>
    rw [List.foldlM_nil, pure_eq_ok] at h
    exact h ▸ hb
  | cons x xs ih =>
    rw [List.foldlM_cons, bind_eq_ok] at h
    obtain ⟨b₁, hb₁, h⟩ := h
    exact ih (fun b x b' hx => hstep b x b' (by simp [hx])) (hstep b x b₁ (by simp) hb hb₁) h

end MettaSchema
