import MettaSchema.Proofs.Schema.References

/-!
# When a schema cannot be built

Building a schema makes checks, one after another: the types of fields and of methods have to be
declared, and no message may use a field number twice.  The schema is built exactly if all checks
pass, and otherwise the first one that fails gives the error.

* `Check`, `Check.Passes`, `Check.error` — the checks.
* `FileDecl.checks` — the checks for a file, in the order in which they are made.
* `Check.Settle` — a computation succeeds or fails as some checks say.
* `FileDecl.settle_build` — building a schema does so.
* `FileDecl.Buildable` — what it means for a file that all checks pass.
* `FileDecl.build_outcome` — both together.
-/

namespace MettaSchema

/-! ## Checks -/

/-- Something that has to hold for a schema to be built. -/
inductive Check where
  /-- The type of a field, as it is written in the message with the given full name, is declared. -/
  | fieldType (name scope : String)
  /-- None of the earlier fields of the message with the given full name has the number. -/
  | fieldNumber (number : Nat) (earlier : List Nat) (scope : String)
  /-- What a method takes or returns, as it is written in the service with the given full name, is
  declared as a message. -/
  | methodType (name scope : String)

namespace Check

/-- What the check asks for. -/
def Passes (table : SymbolTable) : Check → Prop
  | fieldType name scope => ∃ ref, table.resolve anySymbol scope name = some ref
  | fieldNumber number earlier _ => number ∉ earlier
  | methodType name scope =>
    ∃ fullName, table.resolve messagesOnly scope name = some (fullName, .message)

/-- The error if the check fails. -/
def error : Check → SchemaError
  | fieldType name scope => .unresolvedType name scope
  | fieldNumber number _ scope => .duplicateFieldNumber scope number
  | methodType name scope => .unresolvedType name scope

end Check

/-- The check for the type of a field. -/
def TypeExpr.checks (scope : String) : TypeExpr → List Check
  | scalar _ => []
  | group _ => []
  | named name => [.fieldType name scope]

/-- The checks for fields, where some numbers are in use already: field by field, the type before
the number. -/
def FieldDecl.checks (scope : String) : (earlier : List Nat) → List FieldDecl → List Check
  | _, [] => []
  | earlier, field :: rest =>
    field.type.checks scope ++ [.fieldNumber field.number earlier scope]
      ++ FieldDecl.checks scope (field.number :: earlier) rest

mutual

/-- The checks for a message: what is inside it before its fields. -/
def MessageDecl.checks (scope : String) : MessageDecl → List Check
  | ⟨name, fields, messages, _⟩ =>
    MessageDecl.checksAll (qualify scope name) messages
      ++ FieldDecl.checks (qualify scope name) [] fields

/-- The checks for some messages. -/
def MessageDecl.checksAll (scope : String) : List MessageDecl → List Check
  | [] => []
  | m :: rest => m.checks scope ++ MessageDecl.checksAll scope rest

end

/-- The checks for a method: what it takes before what it returns. -/
def MethodDecl.checks (scope : String) (method : MethodDecl) : List Check :=
  [.methodType method.input scope, .methodType method.output scope]

/-- The checks for a service. -/
def ServiceDecl.checks (scope : String) (service : ServiceDecl) : List Check :=
  service.methods.flatMap (MethodDecl.checks (qualify scope service.name))

/-- The checks for a file: the messages before the services. -/
def FileDecl.checks (file : FileDecl) : List Check :=
  MessageDecl.checksAll file.scope file.messages
    ++ file.services.flatMap (ServiceDecl.checks file.scope)

/-! ## Computations that are settled by checks -/

namespace Check

variable {α β : Type} {table : SymbolTable}

/-- A computation succeeds if all of some checks pass, and otherwise fails with the error of the
first one that does not. -/
inductive Settle (table : SymbolTable) : List Check → Except SchemaError α → Prop
  /-- All checks pass. -/
  | pass {checks : List Check} (a : α) (h : ∀ c ∈ checks, c.Passes table) :
      Settle table checks (.ok a)
  /-- A check fails and those before it pass. -/
  | fail {before : List Check} {check : Check} (after : List Check)
      (hbefore : ∀ c ∈ before, c.Passes table) (hcheck : ¬ check.Passes table) :
      Settle table (before ++ check :: after) (.error check.error)

theorem Settle.pure (a : α) : Settle table [] (pure a) :=
  .pass a nofun

/-- The first check of all fails. -/
theorem Settle.first {check : Check} (after : List Check) (h : ¬ check.Passes table) :
    Settle table (check :: after) (.error check.error : Except SchemaError α) := by
  have hfail : Settle table ([] ++ check :: after) (.error check.error : Except SchemaError α) :=
    .fail after nofun h
  exact hfail

/-- A check that is made alone. -/
theorem Settle.one {check : Check} {x : Except SchemaError α}
    (hok : check.Passes table → ∃ a, x = .ok a)
    (herror : ¬ check.Passes table → x = .error check.error) : Settle table [check] x := by
  by_cases h : check.Passes table
  · obtain ⟨a, rfl⟩ := hok h
    exact .pass a (by simpa using h)
  · rw [herror h]
    exact .first [] h

/-- Of two computations one after the other, the checks of the first are made first. -/
theorem Settle.bind {checks more : List Check} {x : Except SchemaError α}
    {f : α → Except SchemaError β} (hx : Settle table checks x)
    (hf : ∀ a, x = .ok a → Settle table more (f a)) :
    Settle table (checks ++ more) (x >>= f) := by
  cases hx with
  | pass a h =>
    have hfa := hf a rfl
    show Settle table (checks ++ more) (f a)
    generalize f a = y at hfa
    cases hfa with
    | pass b h' => exact .pass b (List.forall_mem_append.2 ⟨h, h'⟩)
    | fail after hbefore hcheck =>
      rw [← List.append_assoc]
      exact .fail after (List.forall_mem_append.2 ⟨h, hbefore⟩) hcheck
  | fail after hbefore hcheck =>
    rw [List.append_assoc, List.cons_append]
    exact .fail (after ++ more) hbefore hcheck

/-- What is made of the result asks for nothing more. -/
theorem Settle.map {checks : List Check} {x : Except SchemaError α} {f : α → β}
    (hx : Settle table checks x) : Settle table checks (do let a ← x; Pure.pure (f a)) := by
  rw [← List.append_nil checks]
  exact hx.bind fun a _ => .pure (f a)

/-- The checks for the members of a list are made in the order of the list. -/
theorem Settle.mapM {f : α → Except SchemaError β} {checks : α → List Check} {xs : List α}
    (h : ∀ x ∈ xs, Settle table (checks x) (f x)) :
    Settle table (xs.flatMap checks) (xs.mapM f) := by
  induction xs with
  | nil => exact .pure []
  | cons x xs ih =>
    rw [List.flatMap_cons, List.mapM_cons]
    refine (h x (by simp)).bind fun b _ => ?_
    exact (ih fun y hy => h y (by simp [hy])).map

/-- The first check that fails is determined by the checks. -/
theorem first_unique {before before' after after' : List Check} {check check' : Check}
    (h : before ++ check :: after = before' ++ check' :: after')
    (hbefore : ∀ c ∈ before, c.Passes table) (hcheck : ¬ check.Passes table)
    (hbefore' : ∀ c ∈ before', c.Passes table) (hcheck' : ¬ check'.Passes table) :
    check = check' := by
  rcases List.append_eq_append_iff.1 h with ⟨between, hsplit, htail⟩ | ⟨between, hsplit, htail⟩
  · cases between with
    | nil => exact (List.cons.inj htail).1
    | cons c between =>
      obtain ⟨rfl, -⟩ := List.cons.inj htail
      exact absurd (hbefore' check (by simp [hsplit])) hcheck
  · cases between with
    | nil => exact (List.cons.inj htail).1.symm
    | cons c between =>
      obtain ⟨rfl, -⟩ := List.cons.inj htail
      exact absurd (hbefore check' (by simp [hsplit])) hcheck'

/-- The computation succeeds exactly if all checks pass. -/
theorem Settle.ok_iff {checks : List Check} {x : Except SchemaError α}
    (hx : Settle table checks x) : (∃ a, x = .ok a) ↔ ∀ c ∈ checks, c.Passes table := by
  cases hx with
  | pass a h => exact ⟨fun _ => h, fun _ => ⟨a, rfl⟩⟩
  | @fail before check after hbefore hcheck =>
    constructor
    · rintro ⟨a, ha⟩
      cases ha
    · intro h
      exact absurd (h check (by simp)) hcheck

/-- The computation fails exactly with the error of the first check that fails. -/
theorem Settle.error_iff {checks : List Check} {x : Except SchemaError α}
    (hx : Settle table checks x) (e : SchemaError) :
    x = .error e ↔ ∃ before check after, checks = before ++ check :: after
      ∧ (∀ c ∈ before, c.Passes table) ∧ ¬ check.Passes table ∧ e = check.error := by
  cases hx with
  | pass a h =>
    constructor
    · intro ha
      cases ha
    · rintro ⟨before, check, after, rfl, -, hcheck, -⟩
      exact absurd (h check (by simp)) hcheck
  | @fail before check after hbefore hcheck =>
    constructor
    · intro he
      cases he
      exact ⟨before, check, after, rfl, hbefore, hcheck, rfl⟩
    · rintro ⟨before', check', after', hchecks, hbefore', hcheck', rfl⟩
      rw [first_unique hchecks hbefore hcheck hbefore' hcheck']

end Check

open Check

/-! ## Building -/

theorem TypeExpr.settle_resolve (table : SymbolTable) (scope : String) (type : TypeExpr) :
    Settle table (type.checks scope) (type.resolve table scope) := by
  cases type with
  | scalar kind => exact .pass _ nofun
  | group name => exact .pass _ nofun
  | named name =>
    refine .one ?_ ?_
    · rintro ⟨⟨fullName, kind⟩, href⟩
      cases kind <;> simp [resolve, href]
    · intro hnone
      have hresolve : table.resolve anySymbol scope name = none := by
        rw [← Option.not_isSome_iff_eq_none, Option.isSome_iff_exists]
        exact hnone
      simp [resolve, hresolve, Check.error]

/-- The numbers in use after a field has been put in. -/
theorem Message.number_mem_insertField {n : Nat} {field : Field} {fields : List Field} :
    n ∈ (insertField field fields).map (·.number)
      ↔ n = field.number ∨ n ∈ fields.map (·.number) := by
  induction fields with
  | nil => simp [insertField]
  | cons g rest ih =>
    unfold insertField
    split
    · simp
    · split
      · rename_i heq
        simp [heq]
      · rw [List.map_cons, List.mem_cons, ih, List.map_cons, List.mem_cons]
        exact or_left_comm

theorem FieldDecl.settle_buildAll (table : SymbolTable) (scope : String) (decls : List FieldDecl) :
    ∀ {fields : Fields} {earlier : List Nat},
      (∀ n, n ∈ earlier ↔ n ∈ fields.1.map (·.number)) →
      Settle table (FieldDecl.checks scope earlier decls)
        (FieldDecl.buildAll table scope fields decls) := by
  induction decls with
  | nil =>
    intro fields earlier _
    exact .pass fields nofun
  | cons decl rest ih =>
    intro fields earlier hearlier
    rw [FieldDecl.checks, List.append_assoc, buildAll]
    refine (TypeExpr.settle_resolve table scope decl.type).map.bind fun field hfield => ?_
    have hnumber : field.number = decl.number := by
      obtain ⟨type, -, hpure⟩ := bind_eq_ok.1 hfield
      rw [pure_eq_ok] at hpure
      rw [← hpure]
    have hused : fields.1.any (·.number == field.number) = true ↔ decl.number ∈ earlier := by
      rw [hearlier, hnumber]
      simp
    by_cases hmem : decl.number ∈ earlier
    · rw [if_pos (hused.2 hmem), List.singleton_append, hnumber]
      exact .first _ fun hpass => hpass hmem
    · rw [if_neg (mt hused.1 hmem)]
      have hmore : ∀ n, n ∈ decl.number :: earlier
          ↔ n ∈ (fields.insert field).1.map (·.number) := by
        intro n
        rw [Fields.val_insert, Message.number_mem_insertField, List.mem_cons, hearlier, hnumber]
      have hpass : Settle table [.fieldNumber decl.number earlier scope]
          (.ok () : Except SchemaError Unit) := .pass () (by simpa [Passes] using hmem)
      exact hpass.bind fun _ _ => ih hmore

mutual

theorem MessageDecl.settle_build (table : SymbolTable) :
    ∀ (decl : MessageDecl) (scope : String),
      Settle table (decl.checks scope) (decl.build table scope)
  | ⟨name, fields, messages, enums⟩, scope => by
    rw [checks, build]
    refine (MessageDecl.settle_buildAll table messages _).bind fun inner _ => ?_
    exact (FieldDecl.settle_buildAll table _ fields (by simp)).map

theorem MessageDecl.settle_buildAll (table : SymbolTable) :
    ∀ (decls : List MessageDecl) (scope : String),
      Settle table (checksAll scope decls) (MessageDecl.buildAll table scope decls)
  | [], scope => .pass [] nofun
  | decl :: rest, scope => by
    rw [checksAll, buildAll]
    refine (MessageDecl.settle_build table decl scope).bind fun message _ => ?_
    exact (MessageDecl.settle_buildAll table rest scope).map

end

theorem settle_resolveMessage (table : SymbolTable) (scope name : String) :
    Settle table [.methodType name scope] (resolveMessage table scope name) := by
  refine .one ?_ ?_
  · rintro ⟨fullName, href⟩
    simp [resolveMessage, href]
  · intro hnone
    have hresolve : table.resolve messagesOnly scope name = none := by
      rw [Option.eq_none_iff_forall_ne_some]
      rintro ⟨fullName, kind⟩ href
      -- Only messages are accepted.
      obtain ⟨-, haccept⟩ := SymbolTable.resolve_find? href
      cases kind with
      | message => exact hnone ⟨fullName, href⟩
      | enum => cases haccept
    simp [resolveMessage, hresolve, Check.error]

theorem MethodDecl.settle_build (table : SymbolTable) (scope : String) (decl : MethodDecl) :
    Settle table (decl.checks scope) (decl.build table scope) := by
  refine (settle_resolveMessage table scope decl.input).bind fun input _ => ?_
  exact (settle_resolveMessage table scope decl.output).map

theorem ServiceDecl.settle_build (table : SymbolTable) (scope : String) (decl : ServiceDecl) :
    Settle table (decl.checks scope) (decl.build table scope) := by
  have hmethods : Settle table (decl.checks scope)
      (decl.methods.mapM (MethodDecl.build table (qualify scope decl.name))) :=
    .mapM fun method _ => MethodDecl.settle_build table _ method
  exact hmethods.map

/-- Building a schema succeeds or fails as the checks for its file say. -/
theorem FileDecl.settle_build (table : SymbolTable) (file : FileDecl) :
    Settle table file.checks (file.build table) := by
  rw [checks, build]
  refine (MessageDecl.settle_buildAll table file.messages file.scope).bind fun messages _ => ?_
  have hservices : Settle table (file.services.flatMap (ServiceDecl.checks file.scope))
      (file.services.mapM (ServiceDecl.build table file.scope)) :=
    .mapM fun service _ => ServiceDecl.settle_build table _ service
  exact hservices.map

/-! ## Files that can be built -/

mutual

/-- A message and the messages inside it, at any depth, with their full names. -/
def MessageDecl.withNested (scope : String) : MessageDecl → List (String × MessageDecl)
  | ⟨name, fields, messages, enums⟩ =>
    (qualify scope name, ⟨name, fields, messages, enums⟩)
      :: MessageDecl.withNestedAll (qualify scope name) messages

/-- Some messages and the messages inside them, at any depth, with their full names. -/
def MessageDecl.withNestedAll (scope : String) : List MessageDecl → List (String × MessageDecl)
  | [] => []
  | m :: rest => m.withNested scope ++ MessageDecl.withNestedAll scope rest

end

/-- All messages of a file, at any depth, with their full names. -/
def FileDecl.allMessages (file : FileDecl) : List (String × MessageDecl) :=
  MessageDecl.withNestedAll file.scope file.messages

/-- The fields of a message with the given full name are fine: no two have one number, and all
types are declared. -/
structure MessageDecl.FieldsFine (table : SymbolTable) (message : String × MessageDecl) : Prop where
  /-- The numbers differ. -/
  numbers : (message.2.fields.map (·.number)).Nodup
  /-- The types that are named are declared. -/
  types : ∀ field ∈ message.2.fields, ∀ name, field.type = .named name →
    ∃ ref, table.resolve anySymbol message.1 name = some ref

/-- The schema of a file can be built. -/
structure FileDecl.Buildable (table : SymbolTable) (file : FileDecl) : Prop where
  /-- The fields of all messages are fine. -/
  fields : ∀ message ∈ file.allMessages, MessageDecl.FieldsFine table message
  /-- What methods take and return is declared as a message. -/
  methods : ∀ service ∈ file.services, ∀ method ∈ service.methods,
    ∀ name ∈ [method.input, method.output], ∃ fullName,
      table.resolve messagesOnly (qualify file.scope service.name) name = some (fullName, .message)

theorem FieldDecl.pass_checks_iff {table : SymbolTable} {scope : String} (decls : List FieldDecl) :
    ∀ earlier : List Nat, (∀ c ∈ FieldDecl.checks scope earlier decls, c.Passes table) ↔
      (decls.map (·.number)).Nodup ∧ (∀ field ∈ decls, field.number ∉ earlier)
        ∧ ∀ field ∈ decls, ∀ name, field.type = .named name →
          ∃ ref, table.resolve anySymbol scope name = some ref := by
  induction decls with
  | nil => simp [FieldDecl.checks]
  | cons decl rest ih =>
    intro earlier
    have htype : (∀ c ∈ decl.type.checks scope, c.Passes table) ↔
        ∀ name, decl.type = .named name → ∃ ref, table.resolve anySymbol scope name = some ref := by
      cases decl.type <;> simp [TypeExpr.checks, Passes]
    have hnumber : (∀ c ∈ [Check.fieldNumber decl.number earlier scope], c.Passes table) ↔
        decl.number ∉ earlier := by simp [Passes]
    rw [FieldDecl.checks, List.forall_mem_append, List.forall_mem_append, htype, hnumber, ih,
      List.map_cons, List.nodup_cons, List.forall_mem_cons, List.forall_mem_cons]
    simp only [List.mem_map, List.mem_cons, not_or, not_exists, not_and]
    constructor
    · rintro ⟨⟨hdecl, hearlier⟩, hnodup, hlater, hrest⟩
      exact ⟨⟨fun f hf => (hlater f hf).1, hnodup⟩, ⟨hearlier, fun f hf => (hlater f hf).2⟩, hdecl,
        hrest⟩
    · rintro ⟨⟨hlater, hnodup⟩, ⟨hearlier, hothers⟩, hdecl, hrest⟩
      exact ⟨⟨hdecl, hearlier⟩, hnodup, fun f hf => ⟨hlater f hf, hothers f hf⟩, hrest⟩

mutual

theorem MessageDecl.pass_checks_iff {table : SymbolTable} :
    ∀ (decl : MessageDecl) (scope : String), (∀ c ∈ decl.checks scope, c.Passes table) ↔
      ∀ message ∈ decl.withNested scope, FieldsFine table message
  | ⟨name, fields, messages, enums⟩, scope => by
    have hinner : (∀ c ∈ checksAll (qualify scope name) messages, c.Passes table) ↔
        ∀ message ∈ withNestedAll (qualify scope name) messages, FieldsFine table message :=
      MessageDecl.pass_checksAll_iff messages (qualify scope name)
    have hfields : FieldsFine table (qualify scope name, ⟨name, fields, messages, enums⟩)
        ↔ ∀ c ∈ FieldDecl.checks (qualify scope name) [] fields, c.Passes table := by
      rw [FieldDecl.pass_checks_iff]
      exact ⟨fun h => ⟨h.numbers, by simp, h.types⟩, fun h => ⟨h.1, h.2.2⟩⟩
    simp only [checks, withNested, List.forall_mem_append, List.forall_mem_cons, hinner, hfields]
    exact and_comm

theorem MessageDecl.pass_checksAll_iff {table : SymbolTable} :
    ∀ (decls : List MessageDecl) (scope : String),
      (∀ c ∈ checksAll scope decls, c.Passes table) ↔
        ∀ message ∈ withNestedAll scope decls, FieldsFine table message
  | [], scope => by simp [checksAll, withNestedAll]
  | decl :: rest, scope => by
    simp only [checksAll, withNestedAll, List.forall_mem_append,
      MessageDecl.pass_checks_iff decl scope, MessageDecl.pass_checksAll_iff rest scope]

end

/-- All checks for a file pass exactly if its schema can be built. -/
theorem FileDecl.pass_checks_iff {table : SymbolTable} {file : FileDecl} :
    (∀ c ∈ file.checks, c.Passes table) ↔ file.Buildable table := by
  have hmethods : (∀ c ∈ file.services.flatMap (ServiceDecl.checks file.scope), c.Passes table) ↔
      ∀ service ∈ file.services, ∀ method ∈ service.methods,
        ∀ name ∈ [method.input, method.output], ∃ fullName,
          table.resolve messagesOnly (qualify file.scope service.name) name
            = some (fullName, .message) := by
    simp only [ServiceDecl.checks, MethodDecl.checks, List.forall_mem_flatMap,
      List.forall_mem_cons, Passes]
    simp only [List.not_mem_nil, false_implies, implies_true]
  rw [checks, List.forall_mem_append, hmethods, MessageDecl.pass_checksAll_iff]
  exact ⟨fun h => ⟨h.1, h.2⟩, fun h => ⟨h.fields, h.methods⟩⟩

/-- The schema of a file is built exactly if no message uses a field number twice, all types of
fields are declared, and what methods take and return is declared as a message.  Otherwise the
error is that of the first check that fails. -/
theorem FileDecl.build_outcome (table : SymbolTable) (file : FileDecl) :
    ((∃ schema, file.build table = .ok schema) ↔ file.Buildable table) ∧
      ∀ e, file.build table = .error e ↔ ∃ before check after,
        file.checks = before ++ check :: after ∧ (∀ c ∈ before, c.Passes table)
          ∧ ¬ check.Passes table ∧ e = check.error := by
  have hsettle := settle_build table file
  exact ⟨hsettle.ok_iff.trans pass_checks_iff, hsettle.error_iff⟩

end MettaSchema
