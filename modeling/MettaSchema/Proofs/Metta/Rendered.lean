import MettaSchema.Proofs.Metta.Meaning

/-!
# What a written type says

A type that is written on one line and a type that is written on several lines are read as the same
form, whether or not arrows with one parameter begin on the line of the parameter.  The form tells
the type, except for the labels of its parameters.

* `Form.read_of_scan_lineEnd` — a text can be read as if a line ended behind it.
* `FunctionType.read_line`, `FunctionType.read_block` — written types are read as what they say.
* `FunctionType.unlabelled`, `FunctionType.form_eq_iff` — what is lost of a type in its form.
* `FunctionType.read_written` — all of it together.
-/

namespace MettaSchema

open Form

/-! ## The end of a text -/

namespace Form

/-- A text is read as one form if it has the tokens of the form in front of the end of a line. -/
theorem read_of_scan_lineEnd {text : String} {form : Form}
    (h : scan .between (text.toList ++ '\n' :: []) = form.tokens ++ scan .between ['\n']) :
    read text = some [form] := by
  apply read_of_scan
  rw [← scan_lineEnd, h]
  rfl

end Form

namespace FunctionType

/-! ## Reading written types -/

theorem read_line {t : FunctionType} (h : t.Legible) : read t.line = some [t.form] :=
  read_of_scan_lineEnd (scan_line h rfl [])

theorem read_block (chained : Bool) {t : FunctionType} (h : t.Legible) :
    read (t.block chained) = some [t.form] :=
  read_of_scan_lineEnd (scan_block chained h rfl [])

/-! ## The type behind a form -/

/-- A type without the labels of its parameters. -/
def unlabelled : FunctionType → FunctionType
  | atom name => atom name
  | arrow ps rest => arrow (ps.map fun p => ⟨p.type, ""⟩) rest.unlabelled

/-- Parameters are told apart by what shows their types. -/
theorem map_type_eq_iff {α : Type} {f : String → α} (hf : Function.Injective f)
    {ps qs : List Param} :
    ps.map (fun p => f p.type) = qs.map (fun p => f p.type)
      ↔ ps.map (·.type) = qs.map (·.type) := by
  have hmap (ps : List Param) : ps.map (fun p => f p.type) = (ps.map (·.type)).map f := by
    rw [List.map_map]
    rfl
  rw [hmap, hmap]
  exact (List.map_injective_iff.2 hf).eq_iff

/-- Types say the same exactly if they are equal up to labels. -/
theorem form_eq_iff {t u : FunctionType} : t.form = u.form ↔ t.unlabelled = u.unlabelled := by
  induction t generalizing u with
  | atom name => cases u <;> simp [form, unlabelled]
  | arrow ps rest ih =>
    cases u with
    | atom name => simp [form, unlabelled]
    | arrow qs rest' =>
      have hatom : Function.Injective Form.atom := fun _ _ h => Form.atom.inj h
      have hparam : Function.Injective fun type => (⟨type, ""⟩ : Param) :=
        fun _ _ h => congrArg Param.type h
      have hforms : (arrow ps rest).form = (arrow qs rest').form
          ↔ ps.map (fun p => Form.atom p.type) = qs.map (fun p => Form.atom p.type)
            ∧ rest.form = rest'.form := by
        simp only [form, Form.list.injEq, List.cons.injEq, true_and]
        constructor
        · intro h
          obtain ⟨hps, hrest⟩ := List.append_inj' h rfl
          exact ⟨hps, List.singleton_inj.1 hrest⟩
        · rintro ⟨hps, hrest⟩
          rw [hps, hrest]
      rw [hforms, map_type_eq_iff hatom, ih, ← map_type_eq_iff hparam, unlabelled, unlabelled,
        arrow.injEq]

/-- A type is read as the same form, whether it is written on one line or added to a buffer on
several lines, in either layout; what was in the buffer stays there.  Other types are read as that
form exactly if they are equal up to labels. -/
theorem read_written (t : FunctionType) (h : t.Legible) :
    read t.line = some [t.form]
    ∧ (∀ (buffer : String) (chained : Bool), ∃ added,
        t.appendBlock buffer chained = buffer ++ added ∧ read added = some [t.form])
    ∧ ∀ u : FunctionType, t.form = u.form ↔ t.unlabelled = u.unlabelled := by
  refine ⟨read_line h, fun buffer chained => ?_, fun u => form_eq_iff⟩
  exact ⟨t.block chained, rfl, read_block chained h⟩

/-- A type with an arrow without parameters at its end, and a label that has to be a comment. -/
theorem read_written_labelled :
    let t : FunctionType := arrow [⟨"A", ") (; x"⟩, ⟨"B", ""⟩] (arrow [] (atom "R"))
    t.Legible ∧ read t.line = some [t.form]
      ∧ ∃ added, t.appendBlock "; x" true = "; x" ++ added ∧ read added = some [t.form] := by
  intro t
  have hlegible : t.Legible := by
    refine ⟨?_, nofun, (by decide : Word "R")⟩
    simp only [List.forall_mem_cons]
    exact ⟨by decide, by decide, nofun⟩
  obtain ⟨hline, hblock, -⟩ := read_written t hlegible
  exact ⟨hlegible, hline, hblock "; x" true⟩

end FunctionType

end MettaSchema
