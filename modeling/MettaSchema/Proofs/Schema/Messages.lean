import Mathlib.Data.List.Forall2
import MettaSchema.Schema.Nested
import MettaSchema.Proofs.Schema.Keyed
import MettaSchema.Proofs.Schema.Stages

/-!
# The messages of a schema

What is inside some messages is inside one of them, and no field of a message is lost when it is
built.

* `Message.mem_withNestedAll`, `Message.mem_nestedEnums` — what is inside messages.
* `Message.nestedInduction`, `Message.Everywhere` — proofs about messages and those inside them.
* `Message.insertField_perm` — a field with a new number is added to the others.
* `FieldDecl.buildAll_perm` — no field is lost and none is added.
-/

namespace MettaSchema

namespace Message

/-! ## Nested definitions -/

theorem mem_withNestedAll {m : Message} {ms : List (String × Message)} :
    m ∈ withNestedAll ms ↔ ∃ p ∈ ms, m ∈ p.2.withNested := by
  induction ms with
  | nil => simp [withNestedAll]
  | cons p ms ih => simp [withNestedAll, ih]

theorem mem_nestedEnums {e : EnumType} {ms : List (String × Message)} :
    e ∈ nestedEnums ms ↔ ∃ p ∈ ms, e ∈ p.2.allEnums := by
  induction ms with
  | nil => simp [nestedEnums]
  | cons p ms ih => simp [nestedEnums, ih]

theorem mem_withNested {n m : Message} :
    n ∈ m.withNested ↔ n = m ∨ ∃ p ∈ m.messages, n ∈ p.2.withNested := by
  cases m
  simp [withNested, mem_withNestedAll]

mutual

theorem of_inner {P : Message → Prop} (h : ∀ m, (∀ p ∈ m.messages, P p.2) → P m) : ∀ m, P m
  | ⟨name, fullName, fields, messages, enums, ascending⟩ =>
    h ⟨name, fullName, fields, messages, enums, ascending⟩ (of_inner_all h messages)

theorem of_inner_all {P : Message → Prop} (h : ∀ m, (∀ p ∈ m.messages, P p.2) → P m) :
    ∀ ms : List (String × Message), ∀ p ∈ ms, P p.2
  | [] => nofun
  | (key, m) :: rest => by
    have hm := of_inner h m
    have hrest := of_inner_all h rest
    rintro p (_ | ⟨_, hp⟩)
    · exact hm
    · exact hrest p hp

end

/-- What holds of a message whenever it holds of those directly inside it holds of all messages. -/
@[elab_as_elim]
theorem nestedInduction {P : Message → Prop} (m : Message)
    (inner : ∀ m, (∀ p ∈ m.messages, P p.2) → P m) : P m :=
  of_inner inner m

/-- The message and all messages inside it have a property. -/
def Everywhere (P : Message → Prop) (m : Message) : Prop :=
  ∀ n ∈ m.withNested, P n

theorem Everywhere.self {P : Message → Prop} {m : Message} (h : m.Everywhere P) : P m :=
  h m (mem_withNested.2 (.inl rfl))

theorem Everywhere.inner {P : Message → Prop} {m : Message} (h : m.Everywhere P)
    {p : String × Message} (hp : p ∈ m.messages) : p.2.Everywhere P :=
  fun n hn => h n (mem_withNested.2 (.inr ⟨p, hp, hn⟩))

/-! ## Fields -/

/-- A field with a new number is added to the others. -/
theorem insertField_perm {field : Field} {fields : List Field}
    (h : ∀ f ∈ fields, f.number ≠ field.number) :
    (insertField field fields).Perm (field :: fields) := by
  induction fields with
  | nil => exact .refl _
  | cons g rest ih =>
    have hg : ¬field.number = g.number := (h g (by simp)).symm
    have hrest := ih fun f hf => h f (by simp [hf])
    unfold insertField
    rw [if_neg hg]
    split
    · exact .refl _
    · exact (hrest.cons g).trans (.swap field g rest)

/-- A field with a greater number than all others goes last. -/
theorem insertField_eq_append {field : Field} {fields : List Field}
    (h : ∀ f ∈ fields, f.number < field.number) : insertField field fields = fields ++ [field] := by
  induction fields with
  | nil => rfl
  | cons g rest ih =>
    have hg : g.number < field.number := h g (by simp)
    have hrest := ih fun f hf => h f (by simp [hf])
    unfold insertField
    rw [if_neg (by omega), if_neg (by omega), hrest, List.cons_append]

end Message

/-! ## Schemas that were built -/

/-- The fields that are built are those that were there and the new ones, each resolved. -/
theorem FieldDecl.buildAll_perm {table : SymbolTable} {scope : String} (decls : List FieldDecl) :
    ∀ {fields built : Fields}, FieldDecl.buildAll table scope fields decls = .ok built →
      ∃ resolved, List.Forall₂ (fun decl field => decl.resolve table scope = .ok field) decls resolved
        ∧ built.1.Perm (fields.1 ++ resolved) := by
  induction decls with
  | nil =>
    intro fields built h
    cases h
    exact ⟨[], .nil, by simp⟩
  | cons decl rest ih =>
    intro fields built h
    obtain ⟨field, hfield, hnew, h⟩ := buildAll_cons_eq_ok.1 h
    obtain ⟨resolved, hresolved, hperm⟩ := ih h
    have hinsert := (Message.insertField_perm hnew).append_right resolved
    exact ⟨field :: resolved, .cons hfield hresolved,
      (hperm.trans hinsert).trans List.perm_middle.symm⟩

end MettaSchema
