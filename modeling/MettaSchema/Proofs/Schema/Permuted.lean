import Mathlib.Data.List.Perm.Basic
import MettaSchema.Proofs.Schema.Counted
import MettaSchema.Proofs.Schema.Definitions
import MettaSchema.Proofs.Schema.Identified
import MettaSchema.Proofs.Schema.Lookup
import MettaSchema.Proofs.Schema.Names
import MettaSchema.Proofs.Schema.Violations

/-!
# The order of declarations

In which order messages, enums, services, imports and the fields of a message are declared does not
matter, provided that no two siblings have the same name: the same schema is built, with its parts
listed in another order.

* `MessageDecl.Permuted`, `FileDecl.Permuted` — declarations in another order, at any depth.
* `Message.Permuted`, `Schema.Permuted` — what is built, listed in another order.  The fields of
  each message are the same.
* `FieldDecl.buildAll_of_perm` — the fields of a message do not depend on their order.
* `FileDecl.Permuted.find?_ofFiles` — the same types are found.
* `FileDecl.Permuted.build` — the same schema is built.
-/

namespace MettaSchema

/-! ## Other orders -/

/-- Messages in another order.  So are their fields, and what is declared inside them. -/
inductive MessageDecl.Permuted : List MessageDecl → List MessageDecl → Prop
  | nil : Permuted [] []
  | cons {name : String} {fields fields' : List FieldDecl} {messages messages' : List MessageDecl}
      {enums enums' : List EnumDecl} {rest rest' : List MessageDecl} (hfields : fields.Perm fields')
      (hmessages : Permuted messages messages') (henums : enums.Perm enums')
      (hrest : Permuted rest rest') :
      Permuted (⟨name, fields, messages, enums⟩ :: rest)
        (⟨name, fields', messages', enums'⟩ :: rest')
  | swap (m m' : MessageDecl) (rest : List MessageDecl) :
      Permuted (m' :: m :: rest) (m :: m' :: rest)
  | trans {ms₁ ms₂ ms₃ : List MessageDecl} (h₁ : Permuted ms₁ ms₂) (h₂ : Permuted ms₂ ms₃) :
      Permuted ms₁ ms₃

/-- What a body declares, in another order. -/
structure Body.Permuted (body body' : Body) : Prop where
  /-- The fields. -/
  fields : body.fields.Perm body'.fields
  /-- The messages. -/
  messages : MessageDecl.Permuted body.messages body'.messages
  /-- The enums. -/
  enums : body.enums.Perm body'.enums

/-- What a file declares, in another order. -/
structure FileDecl.Permuted (file file' : FileDecl) : Prop where
  /-- The name of the file. -/
  name_eq : file'.name = file.name
  /-- The dialect. -/
  dialect_eq : file'.dialect = file.dialect
  /-- The package. -/
  package_eq : file'.package = file.package
  /-- The imports. -/
  imports : file.imports.Perm file'.imports
  /-- The messages. -/
  messages : MessageDecl.Permuted file.messages file'.messages
  /-- The enums. -/
  enums : file.enums.Perm file'.enums
  /-- The services. -/
  services : file.services.Perm file'.services

/-- Messages that are listed in another order.  So are the messages and the enums inside them; their
fields are the same. -/
inductive Message.Permuted : List (String × Message) → List (String × Message) → Prop
  | nil : Permuted [] []
  | cons {key name fullName : String} {fields : List Field}
      {ascending : fields.Pairwise (·.number < ·.number)}
      {messages messages' : List (String × Message)} {enums enums' : List (String × EnumType)}
      {rest rest' : List (String × Message)}
      (hmessages : Permuted messages messages') (henums : enums.Perm enums')
      (hrest : Permuted rest rest') :
      Permuted ((key, ⟨name, fullName, fields, messages, enums, ascending⟩) :: rest)
        ((key, ⟨name, fullName, fields, messages', enums', ascending⟩) :: rest')
  | swap (p p' : String × Message) (rest : List (String × Message)) :
      Permuted (p' :: p :: rest) (p :: p' :: rest)
  | trans {ps₁ ps₂ ps₃ : List (String × Message)} (h₁ : Permuted ps₁ ps₂) (h₂ : Permuted ps₂ ps₃) :
      Permuted ps₁ ps₃

/-- Schemas that differ in the order in which messages, enums, services and imports are listed. -/
structure Schema.Permuted (schema schema' : Schema) : Prop where
  /-- The name of the file. -/
  name_eq : schema'.name = schema.name
  /-- The dialect. -/
  dialect_eq : schema'.dialect = schema.dialect
  /-- The package. -/
  package_eq : schema'.package = schema.package
  /-- The imports. -/
  imports : schema.imports.Perm schema'.imports
  /-- The messages. -/
  messages : Message.Permuted schema.messages schema'.messages
  /-- The enums. -/
  enums : schema.enums.Perm schema'.enums
  /-- The services. -/
  services : schema.services.Perm schema'.services

namespace MessageDecl.Permuted

theorem refl : ∀ ms : List MessageDecl, Permuted ms ms
  | [] => .nil
  | ⟨_, _, messages, _⟩ :: rest => .cons (.refl _) (refl messages) (.refl _) (refl rest)

theorem cons_same (m : MessageDecl) {ms ms' : List MessageDecl} (h : Permuted ms ms') :
    Permuted (m :: ms) (m :: ms') := by
  obtain ⟨name, fields, messages, enums⟩ := m
  exact .cons (.refl _) (refl messages) (.refl _) h

theorem append_left (ms : List MessageDecl) {more more' : List MessageDecl}
    (h : Permuted more more') : Permuted (ms ++ more) (ms ++ more') := by
  induction ms with
  | nil => exact h
  | cons m ms ih => exact ih.cons_same m

theorem append_right {ms ms' : List MessageDecl} (h : Permuted ms ms') (more : List MessageDecl) :
    Permuted (ms ++ more) (ms' ++ more) := by
  induction h with
  | nil => exact refl more
  | cons hfields hmessages henums _ _ ih => exact .cons hfields hmessages henums ih
  | swap m m' rest => exact .swap m m' (rest ++ more)
  | trans _ _ ih₁ ih₂ => exact ih₁.trans ih₂

theorem append {ms ms' more more' : List MessageDecl} (h : Permuted ms ms')
    (hmore : Permuted more more') : Permuted (ms ++ more) (ms' ++ more') :=
  (h.append_right more).trans (hmore.append_left ms')

theorem of_perm {ms ms' : List MessageDecl} (h : ms.Perm ms') : Permuted ms ms' := by
  induction h with
  | nil => exact .nil
  | cons m _ ih => exact ih.cons_same m
  | swap m m' rest => exact .swap m m' rest
  | trans _ _ ih₁ ih₂ => exact ih₁.trans ih₂

theorem names_perm {ms ms' : List MessageDecl} (h : Permuted ms ms') :
    (ms.map (·.name)).Perm (ms'.map (·.name)) := by
  induction h with
  | nil => exact .refl _
  | cons _ _ _ _ _ ih => exact ih.cons _
  | swap m m' rest => exact .swap _ _ _
  | trans _ _ ih₁ ih₂ => exact ih₁.trans ih₂

end MessageDecl.Permuted

theorem EnumDecl.Unrepeated.perm {enums enums' : List EnumDecl} (h : EnumDecl.Unrepeated enums)
    (hperm : enums.Perm enums') : EnumDecl.Unrepeated enums' :=
  ⟨(hperm.map _).nodup_iff.1 h.1, fun e he => h.2 e (hperm.mem_iff.2 he)⟩

/-- In another order there are no two siblings of one name either. -/
theorem MessageDecl.Permuted.unrepeatedInside {ms ms' : List MessageDecl} (h : Permuted ms ms') :
    UnrepeatedInside ms → UnrepeatedInside ms' := by
  induction h with
  | nil => exact id
  | cons _ hmessages henums _ ihmessages ihrest =>
    rintro ⟨⟨⟨hnodup, hinside⟩, hunrepeated⟩, hrest⟩
    exact ⟨⟨⟨hmessages.names_perm.nodup_iff.1 hnodup, ihmessages hinside⟩,
      hunrepeated.perm henums⟩, ihrest hrest⟩
  | swap m m' rest => exact fun ⟨h', h, hrest⟩ => ⟨h, h', hrest⟩
  | trans _ _ ih₁ ih₂ => exact fun h => ih₂ (ih₁ h)

/-! ## Fields -/

/-- The fields of a message do not depend on the order of their declarations. -/
theorem FieldDecl.buildAll_of_perm {table : SymbolTable} {scope : String}
    {decls decls' : List FieldDecl} (hperm : decls.Perm decls') {fields : Fields}
    (h : FieldDecl.buildAll table scope .empty decls = .ok fields) :
    FieldDecl.buildAll table scope .empty decls' = .ok fields := by
  have hsettle (decls : List FieldDecl) : Check.Settle table (FieldDecl.checks scope [] decls)
      (FieldDecl.buildAll table scope .empty decls) := settle_buildAll table scope decls (by simp)
  obtain ⟨fields', h'⟩ : ∃ fields', FieldDecl.buildAll table scope .empty decls' = .ok fields' := by
    have hchecks := (hsettle decls).ok_iff.1 ⟨fields, h⟩
    rw [pass_checks_iff] at hchecks
    rw [(hsettle decls').ok_iff, pass_checks_iff]
    obtain ⟨hnumbers, -, htypes⟩ := hchecks
    exact ⟨(hperm.map _).nodup_iff.1 hnumbers, by simp,
      fun field hfield => htypes field (hperm.mem_iff.2 hfield)⟩
  obtain ⟨resolved, hresolved, hfields⟩ := buildAll_perm decls h
  obtain ⟨resolved', hresolved', hfields'⟩ := buildAll_perm decls' h'
  have hunique : Relator.RightUnique fun (decl : FieldDecl) field =>
      decl.resolve table scope = .ok field := by
    intro decl field field' hfield hfield'
    rw [hfield] at hfield'
    exact Except.ok.inj hfield'
  have hsame : resolved.Perm resolved' := List.rel_perm_imp hunique hresolved hresolved' hperm
  rw [Fields.val_empty, List.nil_append] at hfields hfields'
  have heq := Field.eq_of_perm ((hfields.trans hsame).trans hfields'.symm) fields.2 fields'.2
  rw [h', Subtype.ext heq]

/-! ## Building -/

/-- Enums are built in the order in which they are declared. -/
theorem EnumDecl.buildAll_of_perm (scope : String) {enums enums' : List EnumDecl}
    (hperm : enums.Perm enums') (h : EnumDecl.Unrepeated enums) :
    (EnumDecl.buildAll scope enums).Perm (EnumDecl.buildAll scope enums') := by
  have hself {decls : List EnumDecl} (h : EnumDecl.Unrepeated decls) :
      EnumDecl.buildAll scope decls = decls.map fun decl => (decl.name, decl.build scope) := by
    refine Keyed.ofList_eq_self ?_
    simpa [Keyed.keys, Function.comp_def] using h.1
  rw [hself h, hself (h.perm hperm)]
  exact hperm.map _

/-- Messages of distinct names are all kept when they are gathered by name. -/
theorem MessageDecl.Permuted.ofList {table : SymbolTable} {scope : String}
    {ms ms' : List MessageDecl} (h : Permuted ms ms') (hnodup : (ms.map (·.name)).Nodup)
    {built built' : List (String × Message)}
    (hbuilt : MessageDecl.buildAll table scope ms = .ok built)
    (hbuilt' : MessageDecl.buildAll table scope ms' = .ok built')
    (hpermuted : Message.Permuted built built') :
    Message.Permuted (Keyed.ofList built) (Keyed.ofList built') := by
  have hnodup' := h.names_perm.nodup_iff.1 hnodup
  rw [← (losslessIff_buildAll ms hbuilt).1] at hnodup
  rw [← (losslessIff_buildAll ms' hbuilt').1] at hnodup'
  rwa [Keyed.ofList_eq_self hnodup, Keyed.ofList_eq_self hnodup']

/-- Messages in another order are built in another order. -/
theorem MessageDecl.Permuted.buildAll {table : SymbolTable} {ms ms' : List MessageDecl}
    (h : Permuted ms ms') : ∀ {scope : String} {built : List (String × Message)},
      UnrepeatedInside ms → MessageDecl.buildAll table scope ms = .ok built →
      ∃ built', MessageDecl.buildAll table scope ms' = .ok built'
        ∧ Message.Permuted built built' := by
  induction h with
  | nil =>
    intro scope built _ hbuilt
    cases hbuilt
    exact ⟨[], rfl, .nil⟩
  | @cons name fields fields' messages messages' enums enums' rest rest' hfields hmessages henums _
      ihmessages ihrest =>
    intro scope built hunrepeated hbuilt
    obtain ⟨⟨⟨hnodup, hinside⟩, hunrepeatedEnums⟩, hrest⟩ := hunrepeated
    obtain ⟨m, more, hm, hmore, rfl⟩ := MessageDecl.buildAll_cons_eq_ok.1 hbuilt
    obtain ⟨inner, resolved, hinner, hresolved, rfl⟩ := MessageDecl.build_eq_ok.1 hm
    obtain ⟨inner', hinner', hpermuted⟩ := ihmessages hinside hinner
    obtain ⟨more', hmore', hpermutedMore⟩ := ihrest hrest hmore
    have hmessagesBuilt := hmessages.ofList hnodup hinner hinner' hpermuted
    have henumsBuilt := EnumDecl.buildAll_of_perm (qualify scope name) henums hunrepeatedEnums
    have hresolved' := FieldDecl.buildAll_of_perm hfields hresolved
    have hm' := (@MessageDecl.build_eq_ok table scope name fields' messages' enums' _).2
      ⟨inner', resolved, hinner', hresolved', rfl⟩
    exact ⟨_, MessageDecl.buildAll_cons_eq_ok.2 ⟨_, more', hm', hmore', rfl⟩,
      .cons hmessagesBuilt henumsBuilt hpermutedMore⟩
  | swap m m' rest =>
    intro scope built _ hbuilt
    obtain ⟨b', _, hb', hrest, rfl⟩ := MessageDecl.buildAll_cons_eq_ok.1 hbuilt
    obtain ⟨b, more, hb, hmore, rfl⟩ := MessageDecl.buildAll_cons_eq_ok.1 hrest
    have hbuilt' := MessageDecl.buildAll_cons_eq_ok.2 ⟨b', more, hb', hmore, rfl⟩
    exact ⟨_, MessageDecl.buildAll_cons_eq_ok.2 ⟨b, _, hb, hbuilt', rfl⟩, .swap _ _ more⟩
  | trans h₁ _ ih₁ ih₂ =>
    intro scope built hunrepeated hbuilt
    obtain ⟨built₂, hbuilt₂, hpermuted⟩ := ih₁ hunrepeated hbuilt
    obtain ⟨built₃, hbuilt₃, hpermuted'⟩ := ih₂ (h₁.unrepeatedInside hunrepeated) hbuilt₂
    exact ⟨built₃, hbuilt₃, hpermuted.trans hpermuted'⟩

/-- Steps that succeed one by one. -/
theorem mapM_eq_ok_iff {α β : Type} {f : α → Except SchemaError β} {xs : List α} {ys : List β} :
    xs.mapM f = .ok ys ↔ List.Forall₂ (fun x y => f x = .ok y) xs ys := by
  induction xs generalizing ys with
  | nil => rw [List.mapM_nil, pure_eq_ok, List.forall₂_nil_left_iff, eq_comm]
  | cons x xs ih =>
    simp only [mapM_cons_eq_ok, List.forall₂_cons_left_iff, ih]

/-- Services are built in the order in which they are declared. -/
theorem ServiceDecl.mapM_of_perm {table : SymbolTable} {scope : String}
    {decls decls' : List ServiceDecl} (hperm : decls.Perm decls') (h : Unrepeated decls)
    {services : List Service} (hservices : decls.mapM (build table scope) = .ok services) :
    ∃ services', decls'.mapM (build table scope) = .ok services'
      ∧ (Keyed.ofList (services.map fun s => (s.name, s))).Perm
        (Keyed.ofList (services'.map fun s => (s.name, s))) := by
  obtain ⟨services', hservices', hsame⟩ :=
    List.perm_comp_forall₂ hperm.symm (mapM_eq_ok_iff.1 hservices)
  rw [← mapM_eq_ok_iff] at hservices'
  have hself {decls : List ServiceDecl} {services : List Service}
      (hservices : decls.mapM (build table scope) = .ok services)
      (hnodup : (decls.map (·.name)).Nodup) : Keyed.ofList (services.map fun s => (s.name, s))
        = services.map fun s => (s.name, s) := by
    have hnames := map_eq_of_mapM_eq_ok (g := ServiceDecl.name) (k := Service.name) hservices
      fun _ _ hservice => (losslessIff_build hservice).1
    refine Keyed.ofList_eq_self ?_
    simpa [Keyed.keys, Function.comp_def, hnames] using hnodup
  refine ⟨services', hservices', ?_⟩
  rw [hself hservices h.1, hself hservices' ((hperm.map _).nodup_iff.1 h.1)]
  exact (hsame.map _).symm

theorem FileDecl.Permuted.scope_eq {file file' : FileDecl} (h : file.Permuted file') :
    file'.scope = file.scope := by
  rw [scope, h.package_eq, scope]

/-- A file in another order is built in another order. -/
theorem FileDecl.Permuted.build {table : SymbolTable} {file file' : FileDecl}
    (h : file.Permuted file') (hunrepeated : file.Unrepeated) {schema : Schema}
    (hschema : file.build table = .ok schema) :
    ∃ schema', file'.build table = .ok schema' ∧ schema.Permuted schema' := by
  obtain ⟨built, services, hbuilt, hservices, rfl⟩ := FileDecl.build_eq_ok.1 hschema
  obtain ⟨built', hbuilt', hpermuted⟩ := h.messages.buildAll hunrepeated.inside hbuilt
  obtain ⟨services', hservices', hsame⟩ :=
    ServiceDecl.mapM_of_perm h.services hunrepeated.services hservices
  refine ⟨_, by simp only [FileDecl.build, h.scope_eq, hbuilt', hservices']; rfl, ?_⟩
  exact ⟨h.name_eq, h.dialect_eq, h.package_eq, h.imports,
    h.messages.ofList hunrepeated.messages hbuilt hbuilt' hpermuted,
    EnumDecl.buildAll_of_perm _ h.enums hunrepeated.enums, hsame⟩

/-! ## Types in reach -/

/-- Messages in another order declare the same full names. -/
theorem MessageDecl.Permuted.symbols {ms ms' : List MessageDecl} (h : Permuted ms ms') :
    ∀ scope, (symbolsAll scope ms).Perm (symbolsAll scope ms') := by
  induction h with
  | nil => exact fun _ => .refl _
  | cons _ _ henums _ ihmessages ihrest =>
    intro scope
    simp only [symbolsAll, MessageDecl.symbols]
    exact (((ihmessages _).append (henums.map _)).append_right _).append (ihrest scope)
  | swap m m' rest =>
    intro scope
    simp only [symbolsAll, ← List.append_assoc]
    exact List.perm_append_comm.append_right _
  | trans _ _ ih₁ ih₂ => exact fun scope => (ih₁ scope).trans (ih₂ scope)

theorem FileDecl.Permuted.symbols {file file' : FileDecl} (h : file.Permuted file') :
    file.symbols.Perm file'.symbols := by
  rw [FileDecl.symbols, FileDecl.symbols, h.scope_eq]
  exact (h.messages.symbols _).append (h.enums.map _)

/-- Of one full name the enum is declared behind the message. -/
def EnumsLast (symbols : List (String × SymbolKind)) : Prop :=
  symbols.Pairwise fun a b => a.2 = .enum → b.2 = .message → a.1 ≠ b.1

/-- Then the enum is found under the name, if there is one. -/
theorem EnumsLast.lookup {symbols : List (String × SymbolKind)} (h : EnumsLast symbols)
    (n : String) : symbols.reverse.lookup n = if (n, .enum) ∈ symbols then some .enum
      else if (n, .message) ∈ symbols then some .message else none := by
  have hreverse := List.pairwise_reverse.2 h
  have hmem (entry : String × SymbolKind) : entry ∈ symbols ↔ entry ∈ symbols.reverse :=
    List.mem_reverse.symm
  simp only [hmem]
  clear hmem
  generalize symbols.reverse = entries at hreverse
  induction entries with
  | nil => rfl
  | cons entry entries ih =>
    obtain ⟨hentry, hrest⟩ := List.pairwise_cons.1 hreverse
    obtain ⟨n', kind⟩ := entry
    by_cases hn : n = n'
    · subst hn
      cases kind with
      | enum => simp
      | message =>
        -- there is no enum of this name in front
        have hno : (n, SymbolKind.enum) ∉ entries := fun hmem => hentry _ hmem rfl rfl rfl
        simp [hno]
    · have hbeq : (n == n') = false := by simpa using hn
      simp [List.lookup_cons, hbeq, hn, ih hrest]

/-- So nothing else is found when the same is declared in another order. -/
theorem EnumsLast.lookup_congr {symbols symbols' : List (String × SymbolKind)}
    (h : EnumsLast symbols) (h' : EnumsLast symbols') (hperm : symbols.Perm symbols') (n : String) :
    symbols'.reverse.lookup n = symbols.reverse.lookup n := by
  simp only [h.lookup, h'.lookup, hperm.mem_iff]

/-- What is declared inside a scope has a full name that begins with the scope. -/
theorem scopeStart_qualify (scope : String) {name : String} (h : Identifier name) :
    scopeStart (qualify scope name) = scopeStart scope ++ (name.toList ++ ['.']) := by
  have hne : qualify scope name ≠ "" := by
    intro hempty
    have hnil := congrArg String.toList hempty
    rw [toList_qualify] at hnil
    exact h.1 (String.toList_injective (List.append_eq_nil_iff.1 hnil).2)
  rw [scopeStart, if_neg hne, toList_qualify, List.append_assoc]

/-- It is longer than the name of the scope. -/
theorem ne_of_scopeStart {scope name fullName : String} (h : Identifier name) {x : List Char}
    (hx : fullName.toList = scopeStart (qualify scope name) ++ x) :
    fullName ≠ qualify scope name := by
  rintro rfl
  have hlength := congrArg List.length hx
  rw [toList_qualify, scopeStart_qualify scope h] at hlength
  simp at hlength

mutual

/-- The full names that a message declares go through its name. -/
theorem MessageDecl.symbols_start : ∀ (m : MessageDecl) {scope : String},
    (∀ n ∈ m.names, Identifier n) → ∀ symbol ∈ m.symbols scope,
      ∃ x, IsTail x ∧ symbol.1.toList = scopeStart scope ++ (m.name.toList ++ x)
  | ⟨name, fields, messages, enums⟩, scope, h => by
    simp only [names, List.forall_mem_cons, List.forall_mem_append] at h
    obtain ⟨hname, ⟨-, hmessages⟩, henums⟩ := h
    have hinside {fullName y : List Char} (hy : fullName = scopeStart (qualify scope name) ++ y) :
        ∃ x, IsTail x ∧ fullName = scopeStart scope ++ (name.toList ++ x) := by
      refine ⟨'.' :: y, .inr ⟨y, rfl⟩, ?_⟩
      rw [hy, scopeStart_qualify scope hname]
      simp
    simp only [symbols, List.forall_mem_append, List.forall_mem_map, List.forall_mem_singleton]
    refine ⟨⟨fun symbol hsymbol => ?_, fun e _ => ?_⟩, [], .inl rfl, ?_⟩
    · obtain ⟨m, -, x, -, hx⟩ := MessageDecl.symbolsAll_start messages hmessages symbol hsymbol
      exact hinside hx
    · exact hinside (toList_qualify (qualify scope name) e.name)
    · rw [toList_qualify, List.append_nil]

/-- The full names that some messages declare go through the name of one of them. -/
theorem MessageDecl.symbolsAll_start : ∀ (ms : List MessageDecl) {scope : String},
    (∀ n ∈ namesAll ms, Identifier n) → ∀ symbol ∈ symbolsAll scope ms,
      ∃ m ∈ ms, ∃ x, IsTail x ∧ symbol.1.toList = scopeStart scope ++ (m.name.toList ++ x)
  | [], _, _ => by simp [symbolsAll]
  | m :: rest, scope, h => by
    obtain ⟨hm, hrest⟩ := List.forall_mem_append.1 h
    intro symbol hsymbol
    rcases List.mem_append.1 hsymbol with hsymbol | hsymbol
    · exact ⟨m, by simp, MessageDecl.symbols_start m hm symbol hsymbol⟩
    · obtain ⟨m', hm', hx⟩ := MessageDecl.symbolsAll_start rest hrest symbol hsymbol
      exact ⟨m', by simp [hm'], hx⟩

end

theorem MessageDecl.name_mem_names (m : MessageDecl) : m.name ∈ m.names := by
  cases m
  exact List.mem_cons_self

theorem MessageDecl.mem_namesAll {m : MessageDecl} {ms : List MessageDecl} (h : m ∈ ms) :
    ∀ n ∈ m.names, n ∈ namesAll ms := by
  intro n hn
  induction ms with
  | nil => cases h
  | cons m' ms ih =>
    rw [namesAll, List.mem_append]
    rcases List.mem_cons.1 h with rfl | h
    · exact .inl hn
    · exact .inr (ih h)

/-- Enums alone stand behind what is declared before. -/
theorem EnumsLast.append_enums {symbols : List (String × SymbolKind)} (h : EnumsLast symbols)
    (scope : String) (enums : List EnumDecl) :
    EnumsLast (symbols ++ enums.map fun e => (qualify scope e.name, .enum)) := by
  have henum (a : String × SymbolKind) :
      ∀ b ∈ enums.map fun e => (qualify scope e.name, SymbolKind.enum),
        a.2 = .enum → b.2 = .message → a.1 ≠ b.1 := by
    simp
  exact List.pairwise_append.2 ⟨h, List.pairwise_of_forall_mem_list fun a _ => henum a,
    fun a _ => henum a⟩

mutual

/-- A message declares no full name first for an enum and then for a message. -/
theorem MessageDecl.enumsLast_symbols : ∀ (m : MessageDecl) {scope : String},
    (∀ n ∈ m.names, Identifier n) → m.Unrepeated → EnumsLast (m.symbols scope)
  | ⟨name, fields, messages, enums⟩, scope, hnames, h => by
    simp only [names, List.forall_mem_cons, List.forall_mem_append] at hnames
    obtain ⟨hname, ⟨-, hmessages⟩, -⟩ := hnames
    obtain ⟨⟨hnodup, hinside⟩, -⟩ := h
    have hinner : EnumsLast (symbolsAll (qualify scope name) messages) :=
      MessageDecl.enumsLast_symbolsAll messages hmessages hnodup hinside
    rw [symbols]
    refine List.pairwise_append.2 ⟨hinner.append_enums _ _, List.pairwise_singleton _ _, ?_⟩
    intro a ha b hb _ _
    obtain rfl := List.mem_singleton.1 hb
    rcases List.mem_append.1 ha with ha | ha
    · obtain ⟨m, -, x, -, hx⟩ := MessageDecl.symbolsAll_start messages hmessages a ha
      exact ne_of_scopeStart hname hx
    · obtain ⟨e, -, rfl⟩ := List.mem_map.1 ha
      exact ne_of_scopeStart hname (toList_qualify _ _)

/-- Neither do messages of distinct names. -/
theorem MessageDecl.enumsLast_symbolsAll : ∀ (ms : List MessageDecl) {scope : String},
    (∀ n ∈ namesAll ms, Identifier n) → (ms.map (·.name)).Nodup → UnrepeatedInside ms →
      EnumsLast (symbolsAll scope ms)
  | [], _, _, _, _ => .nil
  | m :: rest, scope, hnames, hnodup, h => by
    obtain ⟨hm, hrest⟩ := List.forall_mem_append.1 hnames
    obtain ⟨hnew, hnodup⟩ := List.nodup_cons.1 hnodup
    refine List.pairwise_append.2 ⟨MessageDecl.enumsLast_symbols m hm h.1,
      MessageDecl.enumsLast_symbolsAll rest hrest hnodup h.2, fun a ha b hb _ _ heq => ?_⟩
    obtain ⟨x, hx, ha⟩ := MessageDecl.symbols_start m hm a ha
    obtain ⟨m', hm', y, hy, hb⟩ := MessageDecl.symbolsAll_start rest hrest b hb
    rw [heq, hb] at ha
    have hname : Identifier m.name := hm _ m.name_mem_names
    have hname' : Identifier m'.name := hrest _ (mem_namesAll hm' _ m'.name_mem_names)
    have hsame := name_unique hname'.dot_not_mem hname.dot_not_mem hy hx
      (List.append_cancel_left ha)
    exact hnew (List.mem_map.2 ⟨m', hm', String.toList_injective hsame⟩)

end

theorem FileDecl.Unrepeated.enumsLast {file : FileDecl} (h : file.Unrepeated)
    (hnames : file.Identified) : EnumsLast file.symbols :=
  (MessageDecl.enumsLast_symbolsAll file.messages hnames.messages h.messages
    h.inside).append_enums _ _

/-- In another order there are no two siblings of one name in a file either. -/
theorem FileDecl.Permuted.unrepeated {file file' : FileDecl} (h : file.Permuted file')
    (hunrepeated : file.Unrepeated) : file'.Unrepeated where
  messages := h.messages.names_perm.nodup_iff.1 hunrepeated.messages
  inside := h.messages.unrepeatedInside hunrepeated.inside
  enums := hunrepeated.enums.perm h.enums
  services := ⟨(h.services.map _).nodup_iff.1 hunrepeated.services.1,
    fun s hs => hunrepeated.services.2 s (h.services.mem_iff.2 hs)⟩

/-- The same types are found when a file declares them in another order, together with the bundled
files that it imports. -/
theorem FileDecl.Permuted.find?_ofFiles {file file' : FileDecl} (h : file.Permuted file')
    (hunrepeated : file.Unrepeated) (hnames : file.Identified) (hnames' : file'.Identified) :
    (SymbolTable.ofFiles (file' :: file'.imports.filterMap Bundled.file?)).find?
      = (SymbolTable.ofFiles (file :: file.imports.filterMap Bundled.file?)).find? := by
  have hbundled : (SymbolTable.ofFiles (file'.imports.filterMap Bundled.file?)).find?
      = (SymbolTable.ofFiles (file.imports.filterMap Bundled.file?)).find? := by
    refine SymbolTable.find?_bundled_congr (fun f => (h.imports.filterMap _).mem_iff.symm) ?_
    intro f hf
    obtain ⟨path, -, hfound⟩ := List.mem_filterMap.1 hf
    exact List.mem_of_find?_eq_some hfound
  funext n
  rw [SymbolTable.find?_ofFiles_cons file', SymbolTable.find?_ofFiles_cons file, hbundled]
  have hfile := (hunrepeated.enumsLast hnames).lookup_congr
    ((h.unrepeated hunrepeated).enumsLast hnames') h.symbols n
  simp only [SymbolTable.find?, SymbolTable.ofFiles, List.flatMap_singleton, hfile]

end MettaSchema
