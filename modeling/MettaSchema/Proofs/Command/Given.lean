import MettaSchema.Command.Arguments
import MettaSchema.Proofs.Success

/-!
# What a command line gives

The arguments of a translation are the values and the flags that are in the words: each value goes
to the parameter in front of it, or is the input.  The marks are taken one by one, and a step keeps
what all marks together give, so nothing is lost and nothing is made up.

* `Mark.given`, `Mark.valuesOf` — the values in some marks.
* `Arguments.Given` — to be what some marks give.
* `Reading.total` — the values that have been taken over and those in the marks to come.
* `Reading.Step`, `Reading.take_cons_eq_ok` — what is done with one mark.
* `Reading.take_eq_translate`, `Request.given_of_read` — what is done with all of them.
* `Request.exists_translate_of_read` — a translation is asked for unless the help or the version is.
-/

namespace MettaSchema

/-! ## Values -/

namespace Mark

/-- The values in some marks, each with its parameter.  A plain word behind a parameter without a
value is its value; other words stand for the input. -/
def given : List Mark → List (Parameter × String)
  | [] => []
  | .parameter p (some value) :: marks => (p, value) :: given marks
  | .parameter p none :: .plain value :: marks => (p, value) :: given marks
  | .plain value :: marks => (.input, value) :: given marks
  | .operand value :: marks => (.input, value) :: given marks
  | _ :: marks => given marks

/-- The values of one parameter in some marks. -/
def valuesOf (p : Parameter) (marks : List Mark) : List String :=
  ((given marks).filter (·.1 == p)).map (·.2)

end Mark

namespace Arguments

/-- The arguments are made of the values of the parameters, of whether curried types are asked for,
and of how often it is asked for saying more. -/
structure MadeOf (arguments : Arguments) (values : Parameter → List String) (curried : Prop)
    (verbosity : Nat) : Prop where
  /-- There is one input. -/
  input : values .input = [arguments.input]
  /-- There is at most one output. -/
  output : values .output = arguments.output.toList
  /-- There is at most one prefix, and without one it is empty. -/
  symbolPrefix : values .symbolPrefix = [arguments.symbolPrefix]
    ∨ values .symbolPrefix = [] ∧ arguments.symbolPrefix = ""
  /-- There can be any number of include paths, and their order is kept. -/
  includePaths : values .includePath = arguments.includePaths
  /-- Constructors get curried types if that is asked for. -/
  curried : arguments.curried = true ↔ curried
  /-- It is counted how often it is asked for saying more. -/
  verbosity : arguments.verbosity = verbosity

/-- The arguments are what the marks give. -/
def Given (arguments : Arguments) (marks : List Mark) : Prop :=
  arguments.MadeOf (Mark.valuesOf · marks) (.flag .curried ∈ marks) (marks.count (.flag .verbose))

theorem MadeOf.congr {arguments : Arguments} {values values' : Parameter → List String}
    {curried curried' : Prop} {verbosity verbosity' : Nat}
    (h : arguments.MadeOf values curried verbosity) (hvalues : ∀ p, values' p = values p)
    (hcurried : curried' ↔ curried) (hverbosity : verbosity' = verbosity) :
    arguments.MadeOf values' curried' verbosity' := by
  obtain rfl : values' = values := funext hvalues
  obtain rfl : curried' = curried := propext hcurried
  subst hverbosity
  exact h

end Arguments

/-! ## One mark -/

namespace Reading

/-- The values of a parameter that have been taken over. -/
def held (reading : Reading) : Parameter → List String
  | .input => reading.input.toList
  | .output => reading.output.toList
  | .symbolPrefix => reading.symbolPrefix.toList
  | .includePath => reading.includePaths

/-- The last parameter as a mark, as long as it has not been checked. -/
def unsettled (reading : Reading) : List Mark :=
  reading.pending.toList.map fun p => .parameter p.1 p.2

/-- The values of a parameter that have been taken over, that wait to be checked, or that are in
the marks to come. -/
def total (reading : Reading) (p : Parameter) (marks : List Mark) : List String :=
  reading.held p ++ Mark.valuesOf p (reading.unsettled ++ marks)

/-- What is done with a mark. -/
structure Step (reading : Reading) (mark : Mark) (reading' : Reading) : Prop where
  /-- The values of each parameter remain the same altogether. -/
  total : ∀ p marks, reading'.total p marks = reading.total p (mark :: marks)
  /-- The flag for curried types is noted. -/
  curried : reading'.curried = true ↔ reading.curried = true ∨ mark = .flag .curried
  /-- The flag for saying more is counted. -/
  verbosity : reading'.verbosity = reading.verbosity + [mark].count (.flag .verbose)

/-- What is done when the last parameter is checked. -/
structure Settled (reading settled : Reading) : Prop where
  /-- No parameter waits. -/
  pending : settled.pending = none
  /-- The values of each parameter remain the same altogether. -/
  total : ∀ p marks, settled.held p ++ Mark.valuesOf p marks = reading.total p marks
  /-- Nothing is done about curried types. -/
  curried : settled.curried = reading.curried
  /-- Nothing is done about saying more. -/
  verbosity : settled.verbosity = reading.verbosity

theorem held_assign (reading : Reading) {parameter : Parameter}
    (h : reading.isGiven parameter = false) (value : String) (p : Parameter) :
    (reading.assign parameter value).held p
      = reading.held p ++ if parameter = p then [value] else [] := by
  cases parameter <;> cases p <;> simp_all [isGiven, assign, held]

theorem settled_of_settle {reading settled : Reading} (h : reading.settle = .ok settled) :
    reading.Settled settled := by
  unfold settle at h
  split at h
  · rename_i hpending
    cases h
    exact ⟨hpending, fun p marks => by simp [total, unsettled, hpending], rfl, rfl⟩
  · cases h
  · rename_i parameter value hpending
    split at h
    · cases h
    · rename_i hgiven
      split at h
      · cases h
      · cases h
        have hheld := reading.held_assign (by simpa using hgiven) value
        refine ⟨rfl, fun p marks => ?_, ?_, ?_⟩
        · have hvalues : Mark.valuesOf p (reading.unsettled ++ marks)
              = (if parameter = p then [value] else []) ++ Mark.valuesOf p marks := by
            by_cases hp : parameter = p <;>
              simp [unsettled, hpending, Mark.valuesOf, Mark.given, hp]
          rw [total, hvalues, ← List.append_assoc, ← hheld p]
          cases p <;> rfl
        · cases parameter <;> rfl
        · cases parameter <;> rfl

/-- Once the last parameter has been checked, a mark whose values are known can be taken. -/
theorem Settled.step {reading settled reading' : Reading} {mark : Mark}
    (h : reading.Settled settled) (hheld : ∀ p, reading'.held p = settled.held p)
    (hvalues : ∀ p marks,
      Mark.valuesOf p (reading'.unsettled ++ marks) = Mark.valuesOf p (mark :: marks))
    (hcurried : reading'.curried = true ↔ settled.curried = true ∨ mark = .flag .curried)
    (hverbosity : reading'.verbosity = settled.verbosity + [mark].count (.flag .verbose)) :
    reading.Step mark reading' where
  total p marks := by rw [Reading.total, hheld, hvalues, h.total]
  curried := by rw [hcurried, h.curried]
  verbosity := by rw [hverbosity, h.verbosity]

theorem step_of_operand {reading reading' : Reading} {text : String} {mark : Mark}
    (hmark : mark = .plain text ∨ mark = .operand text)
    (h : reading.operand text = .ok reading') : reading.Step mark reading' := by
  unfold operand at h
  split at h
  · cases h
  · obtain ⟨settled, hsettle, hreading⟩ := bind_eq_ok.1 h
    obtain rfl := pure_eq_ok.1 hreading
    rcases hmark with rfl | rfl
    all_goals
      refine (settled_of_settle hsettle).step (fun p => ?_) (fun p marks => ?_) ?_ rfl
      · cases p <;> rfl
      · simp [unsettled, Mark.valuesOf, Mark.given]
      · simp

theorem step_of_plain {reading reading' : Reading} {text : String}
    (h : reading.plain text = .ok reading') : reading.Step (.plain text) reading' := by
  unfold plain at h
  split at h
  · rename_i parameter hpending
    cases h
    refine ⟨fun p marks => ?_, by simp, rfl⟩
    have hvalues : Mark.valuesOf p (.parameter parameter (some text) :: marks)
        = Mark.valuesOf p (.parameter parameter none :: .plain text :: marks) := rfl
    simp only [total, unsettled, hpending, Option.toList_some, List.map_cons, List.map_nil,
      List.cons_append, List.nil_append, hvalues]
    cases p <;> rfl
  · exact step_of_operand (.inl rfl) h

/-- A mark ends the reading with an answer, or it is taken and the other marks are read. -/
theorem take_cons_eq_ok {reading : Reading} {mark : Mark} {marks : List Mark} {request : Request}
    (h : reading.take (mark :: marks) = .ok request) :
    (mark = .flag .help ∧ request = .help) ∨ (mark = .flag .version ∧ request = .version)
      ∨ ∃ reading', reading'.take marks = .ok request ∧ reading.Step mark reading' := by
  cases mark with
  | flag flag =>
    cases flag with
    | help =>
      rw [take] at h
      cases hsettle : reading.settle <;> rw [hsettle] at h <;> cases h
      exact .inl ⟨rfl, rfl⟩
    | version =>
      rw [take] at h
      cases hsettle : reading.settle <;> rw [hsettle] at h <;> cases h
      exact .inr (.inl ⟨rfl, rfl⟩)
    | verbose =>
      obtain ⟨settled, hsettle, htake⟩ := bind_eq_ok.1 h
      have hsettled := settled_of_settle hsettle
      refine .inr (.inr ⟨_, htake, hsettled.step (fun p => ?_) (fun p marks => ?_) ?_ rfl⟩)
      · cases p <;> rfl
      · simp [unsettled, hsettled.pending, Mark.valuesOf, Mark.given]
      · simp
    | curried =>
      obtain ⟨settled, hsettle, htake⟩ := bind_eq_ok.1 h
      have hsettled := settled_of_settle hsettle
      split at htake
      · cases htake
      · refine .inr (.inr ⟨_, htake, hsettled.step (fun p => ?_) (fun p marks => ?_) ?_ rfl⟩)
        · cases p <;> rfl
        · simp [unsettled, hsettled.pending, Mark.valuesOf, Mark.given]
        · simp
  | parameter parameter value =>
    obtain ⟨settled, hsettle, htake⟩ := bind_eq_ok.1 h
    have hsettled := settled_of_settle hsettle
    refine .inr (.inr ⟨_, htake, hsettled.step (fun p => ?_) (fun p marks => rfl) ?_ rfl⟩)
    · cases p <;> rfl
    · simp
  | plain text =>
    obtain ⟨reading', hplain, htake⟩ := bind_eq_ok.1 h
    exact .inr (.inr ⟨reading', htake, step_of_plain hplain⟩)
  | operand text =>
    obtain ⟨reading', hoperand, htake⟩ := bind_eq_ok.1 h
    exact .inr (.inr ⟨reading', htake, step_of_operand (.inr rfl) hoperand⟩)
  | refused error => cases h

/-! ## All marks -/

/-- The arguments are made from what has been taken over. -/
theorem finish_eq_ok {reading : Reading} {request : Request} (h : reading.finish = .ok request) :
    ∃ (settled : Reading) (input : String), reading.Settled settled ∧ settled.input = some input
      ∧ request = .translate
        { input
          output := settled.output
          symbolPrefix := settled.symbolPrefix.getD ""
          curried := settled.curried
          includePaths := settled.includePaths
          verbosity := settled.verbosity } := by
  obtain ⟨settled, hsettle, h⟩ := bind_eq_ok.1 h
  split at h <;> cases h
  rename_i input hinput
  exact ⟨settled, input, settled_of_settle hsettle, hinput, rfl⟩

/-- The arguments are what has been given and what the marks will give. -/
def Reads (reading : Reading) (marks : List Mark) (arguments : Arguments) : Prop :=
  arguments.MadeOf (reading.total · marks) (reading.curried = true ∨ .flag .curried ∈ marks)
    (reading.verbosity + marks.count (.flag .verbose))

theorem reads_of_finish {reading : Reading} {arguments : Arguments}
    (h : reading.finish = .ok (.translate arguments)) : reading.Reads [] arguments := by
  obtain ⟨settled, input, hsettled, hinput, hrequest⟩ := finish_eq_ok h
  cases hrequest
  have htotal (p : Parameter) : reading.total p [] = settled.held p := by
    rw [← hsettled.total]
    exact List.append_nil _
  constructor
  · rw [htotal, held, hinput]
    rfl
  · exact htotal _
  · rw [htotal, held]
    cases settled.symbolPrefix with
    | none => exact .inr ⟨rfl, rfl⟩
    | some text => exact .inl rfl
  · exact htotal _
  · simp [hsettled.curried]
  · simp [hsettled.verbosity]

theorem Step.reads {reading reading' : Reading} {mark : Mark} {marks : List Mark}
    {arguments : Arguments} (h : reading.Step mark reading') (hreads : reading'.Reads marks arguments) :
    reading.Reads (mark :: marks) arguments := by
  have hcount : (mark :: marks).count (.flag .verbose)
      = [mark].count (.flag .verbose) + marks.count (.flag .verbose) := by
    rw [← List.singleton_append, List.count_append]
  refine hreads.congr (fun p => (h.total p marks).symm) ?_ ?_
  · rw [h.curried, List.mem_cons, or_assoc, eq_comm (a := mark)]
  · rw [h.verbosity, hcount, Nat.add_assoc]

/-- Marks that are read as the arguments of a translation give these arguments. -/
theorem take_eq_translate {reading : Reading} {marks : List Mark} {arguments : Arguments}
    (h : reading.take marks = .ok (.translate arguments)) : reading.Reads marks arguments := by
  induction marks generalizing reading with
  | nil => exact reads_of_finish h
  | cons mark marks ih =>
    obtain ⟨-, hrequest⟩ | ⟨-, hrequest⟩ | ⟨reading', htake, hstep⟩ := take_cons_eq_ok h
    · cases hrequest
    · cases hrequest
    · exact hstep.reads (ih htake)

/-- Marks without a question for the help or the version ask for a translation, if they can be
read. -/
theorem exists_translate_of_take {reading : Reading} {marks : List Mark} {request : Request}
    (hhelp : .flag .help ∉ marks) (hversion : .flag .version ∉ marks)
    (h : reading.take marks = .ok request) : ∃ arguments, request = .translate arguments := by
  induction marks generalizing reading with
  | nil =>
    obtain ⟨_, _, _, _, hrequest⟩ := finish_eq_ok h
    exact ⟨_, hrequest⟩
  | cons mark marks ih =>
    obtain ⟨hhelp₀, hhelp⟩ := not_or.1 (mt List.mem_cons.2 hhelp)
    obtain ⟨hversion₀, hversion⟩ := not_or.1 (mt List.mem_cons.2 hversion)
    obtain ⟨hmark, -⟩ | ⟨hmark, -⟩ | ⟨reading', htake, -⟩ := take_cons_eq_ok h
    · exact absurd hmark.symm hhelp₀
    · exact absurd hmark.symm hversion₀
    · exact ih hhelp hversion htake

end Reading

/-! ## Command lines -/

namespace Request

/-- The arguments of a translation are what the words give. -/
theorem given_of_read {words : List String} {arguments : Arguments}
    (h : read words = .ok (.translate arguments)) : arguments.Given (Mark.ofWords words) :=
  -- nothing has been given in front of the first word
  (Reading.take_eq_translate h).congr (fun p => by cases p <;> rfl) (by simp) (Nat.zero_add _).symm

/-- Words that are accepted ask for a translation, if they do not ask for the help or the
version. -/
theorem exists_translate_of_read {words : List String} {request : Request}
    (hhelp : .flag .help ∉ Mark.ofWords words) (hversion : .flag .version ∉ Mark.ofWords words)
    (h : read words = .ok request) : ∃ arguments, request = .translate arguments :=
  Reading.exists_translate_of_take hhelp hversion h

end Request

end MettaSchema
