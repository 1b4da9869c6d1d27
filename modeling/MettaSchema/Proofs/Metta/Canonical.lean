import MettaSchema.Metta.FunctionType

/-!
# Flat and curried types

Every type of functions has a flat and a curried form.  Both take its parameters in their order and
end with its result, and nothing else of a type is left in them.

* `FunctionType.Chain`, `FunctionType.Curried`, `FunctionType.Flat` — the forms, said by the shape
  of a type.
* `FunctionType.curry_build`, `FunctionType.uncurry_build` — the two types of one function.
* `FunctionType.eq_curry_iff`, `FunctionType.eq_uncurry_iff` — among the types with some parameters
  and some result there is one of each form.
* `FunctionType.curry_uncurry_canonical` — how the two forms go over into each other.
-/

namespace MettaSchema

namespace FunctionType

/-! ## The types of a function -/

theorem params_chain (ps : List Param) (r : String) : (chain ps r).params = ps := by
  induction ps with
  | nil => rfl
  | cons p ps ih => exact congrArg (p :: ·) ih

theorem result_chain (ps : List Param) (r : String) : (chain ps r).result = r := by
  induction ps with
  | nil => rfl
  | cons p ps ih => exact ih

/-- Both types of a function take its parameters. -/
@[simp] theorem params_build (ps : List Param) (r : String) (curried : Bool) :
    (build ps r curried).params = ps := by
  unfold build
  split
  · exact params_chain ps r
  · simp [params]

/-- Both types of a function end with its result. -/
@[simp] theorem result_build (ps : List Param) (r : String) (curried : Bool) :
    (build ps r curried).result = r := by
  unfold build
  split
  · exact result_chain ps r
  · rfl

theorem curry_build (ps : List Param) (r : String) (curried : Bool) :
    (build ps r curried).curry = build ps r true := by
  rw [curry, params_build, result_build]

theorem uncurry_build (ps : List Param) (r : String) (curried : Bool) :
    (build ps r curried).uncurry = build ps r false := by
  rw [uncurry, params_build, result_build]

/-- The parameters and the result of a function are seen in its type. -/
theorem build_inj {ps ps' : List Param} {r r' : String} {curried : Bool} :
    build ps r curried = build ps' r' curried ↔ ps = ps' ∧ r = r' := by
  constructor
  · intro h
    have hparams := congrArg params h
    have hresult := congrArg result h
    rw [params_build, params_build] at hparams
    rw [result_build, result_build] at hresult
    exact ⟨hparams, hresult⟩
  · rintro ⟨rfl, rfl⟩
    rfl

/-! ## The two forms -/

/-- A chain of arrows with one parameter each, up to an atom. -/
inductive Chain : FunctionType → Prop where
  /-- The end of a chain. -/
  | atom (name : String) : Chain (.atom name)
  /-- One arrow more. -/
  | arrow (p : Param) {rest : FunctionType} (h : rest.Chain) : Chain (.arrow [p] rest)

/-- The curried form. -/
inductive Curried : FunctionType → Prop where
  /-- Without parameters there is an arrow all the same. -/
  | constant (name : String) : Curried (.arrow [] (.atom name))
  /-- Otherwise there is one arrow for each parameter. -/
  | function (p : Param) {rest : FunctionType} (h : rest.Chain) : Curried (.arrow [p] rest)

/-- The flat form: one arrow for all parameters. -/
inductive Flat : FunctionType → Prop where
  /-- The arrow. -/
  | function (ps : List Param) (name : String) : Flat (.arrow ps (.atom name))

theorem isChain_chain (ps : List Param) (r : String) : (chain ps r).Chain := by
  induction ps with
  | nil => exact .atom r
  | cons p ps ih => exact .arrow p ih

theorem curried_build (ps : List Param) (r : String) : (build ps r true).Curried := by
  cases ps with
  | nil => exact .constant r
  | cons p ps => exact .function p (isChain_chain ps r)

theorem flat_build (ps : List Param) (r : String) : (build ps r false).Flat :=
  .function ps r

/-- A chain is made from its parameters and its result. -/
theorem Chain.chain_eq {t : FunctionType} (h : t.Chain) : chain t.params t.result = t := by
  induction h with
  | atom name => rfl
  | arrow p _ ih => exact congrArg (FunctionType.arrow [p]) ih

/-- A type in curried form is its own curried form. -/
theorem Curried.curry_eq {t : FunctionType} (h : t.Curried) : t.curry = t := by
  cases h with
  | constant name => rfl
  | function p hrest => exact (Chain.arrow p hrest).chain_eq

/-- A type in flat form is its own flat form. -/
theorem Flat.uncurry_eq {t : FunctionType} (h : t.Flat) : t.uncurry = t := by
  cases h with
  | function ps name => simp [uncurry, params, result, build]

/-- The curried form of a type is the only curried type with its parameters and its result. -/
theorem eq_curry_iff {t u : FunctionType} :
    u = t.curry ↔ u.Curried ∧ u.params = t.params ∧ u.result = t.result := by
  constructor
  · rintro rfl
    exact ⟨curried_build _ _, params_build _ _ _, result_build _ _ _⟩
  · rintro ⟨hcurried, hparams, hresult⟩
    rw [curry, ← hparams, ← hresult]
    exact hcurried.curry_eq.symm

/-- The flat form of a type is the only flat type with its parameters and its result. -/
theorem eq_uncurry_iff {t u : FunctionType} :
    u = t.uncurry ↔ u.Flat ∧ u.params = t.params ∧ u.result = t.result := by
  constructor
  · rintro rfl
    exact ⟨flat_build _ _, params_build _ _ _, result_build _ _ _⟩
  · rintro ⟨hflat, hparams, hresult⟩
    rw [uncurry, ← hparams, ← hresult]
    exact hflat.uncurry_eq.symm

/-! ## Going from one form to the other -/

theorem arity_eq {t u : FunctionType} (h : t.params = u.params) : t.arity = u.arity :=
  congrArg List.length h

/-- Currying and uncurrying keep the parameters with their labels, their number and the result of a
type; each one undoes the other and does nothing more when it is repeated; they turn the two types
of a function into each other; and types have the same form exactly if they have the same parameters
and the same result.  The forms are canonical: there is one curried and one flat type with given
parameters and a given result. -/
theorem curry_uncurry_canonical :
    (∀ t : FunctionType,
      (t.curry.params = t.params ∧ t.curry.arity = t.arity ∧ t.curry.result = t.result)
      ∧ (t.uncurry.params = t.params ∧ t.uncurry.arity = t.arity ∧ t.uncurry.result = t.result)
      ∧ (t.curry.curry = t.curry ∧ t.uncurry.uncurry = t.uncurry)
      ∧ (t.curry.uncurry = t.uncurry ∧ t.uncurry.curry = t.curry))
    ∧ (∀ (ps : List Param) (r : String),
      (build ps r false).curry = build ps r true ∧ (build ps r true).uncurry = build ps r false)
    ∧ (∀ t u : FunctionType,
      (t.curry = u.curry ↔ t.uncurry = u.uncurry)
      ∧ (t.uncurry = u.uncurry ↔ t.params = u.params ∧ t.result = u.result))
    ∧ ∀ t u : FunctionType,
      (u = t.curry ↔ u.Curried ∧ u.params = t.params ∧ u.result = t.result)
      ∧ (u = t.uncurry ↔ u.Flat ∧ u.params = t.params ∧ u.result = t.result) := by
  refine ⟨fun t => ?_, fun ps r => ?_, fun t u => ?_, fun t u => ⟨eq_curry_iff, eq_uncurry_iff⟩⟩
  · obtain ⟨hcurried, hparams, hresult⟩ := eq_curry_iff.1 (rfl : t.curry = t.curry)
    obtain ⟨hflat, hparams', hresult'⟩ := eq_uncurry_iff.1 (rfl : t.uncurry = t.uncurry)
    refine ⟨⟨hparams, arity_eq hparams, hresult⟩, ⟨hparams', arity_eq hparams', hresult'⟩, ?_, ?_⟩
    · exact ⟨hcurried.curry_eq, hflat.uncurry_eq⟩
    · exact ⟨uncurry_build _ _ true, curry_build _ _ false⟩
  · exact ⟨curry_build ps r false, uncurry_build ps r true⟩
  · have hcurry : t.curry = u.curry ↔ t.params = u.params ∧ t.result = u.result := build_inj
    have huncurry : t.uncurry = u.uncurry ↔ t.params = u.params ∧ t.result = u.result := build_inj
    exact ⟨hcurry.trans huncurry.symm, huncurry⟩

end FunctionType

end MettaSchema
