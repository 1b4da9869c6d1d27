import MettaSchema.Proofs.Schema.Identified
import MettaSchema.Proofs.Schema.Scoping

/-!
# Files in a package

The schema of a file does not change when the file is moved into a package, except that all full
names begin with the name of the package.  A name is looked for in more scopes than before, but it
is found where it was: nothing is declared outside of the package.

* `Schema.inPackage` — the schema of a file that is moved into a package.
* `FileDecl.Relative` — no name of a type in the file is a full name.
* `enclosing_innerScope` — the scopes around a scope in a package.
* `SymbolTable.resolve_inPackage` — what a name stands for.
* `FileDecl.build_inPackage` — the schema of the moved file.
-/

namespace MettaSchema

/-! ## Schemas in a package -/

/-- A full name with the name of a package in front. -/
def behindDot (package fullName : String) : String := package ++ "." ++ fullName

/-- A reference to what is moved into a package. -/
def TypeRef.inPackage (package : String) (ref : TypeRef) : TypeRef :=
  { ref with fullName := behindDot package ref.fullName }

/-- The type of a field when all types are moved into a package. -/
def FieldType.inPackage (package : String) : FieldType → FieldType
  | scalar kind => scalar kind
  | message ref => message (ref.inPackage package)
  | enum ref => enum (ref.inPackage package)
  | group ref => group (ref.inPackage package)

/-- A field when all types are moved into a package. -/
def Field.inPackage (package : String) (field : Field) : Field :=
  { field with type := field.type.inPackage package }

/-- Fields when all types are moved into a package. -/
def Fields.inPackage (package : String) (fields : Fields) : Fields :=
  ⟨fields.1.map (Field.inPackage package), List.pairwise_map.2 fields.2⟩

/-- An enum that is moved into a package. -/
def EnumType.inPackage (package : String) (enum : EnumType) : EnumType :=
  { enum with fullName := behindDot package enum.fullName }

mutual

/-- A message that is moved into a package. -/
def Message.inPackage (package : String) : Message → Message
  | ⟨name, fullName, fields, messages, enums, ascending⟩ =>
    ⟨name, behindDot package fullName, fields.map (Field.inPackage package),
      Message.allInPackage package messages,
      enums.map (fun e => (e.1, e.2.inPackage package)), List.pairwise_map.2 ascending⟩

/-- Messages that are moved into a package. -/
def Message.allInPackage (package : String) : List (String × Message) → List (String × Message)
  | [] => []
  | (name, message) :: rest =>
    (name, message.inPackage package) :: Message.allInPackage package rest

end

/-- A method when all types are moved into a package. -/
def Method.inPackage (package : String) (method : Method) : Method :=
  { method with input := method.input.inPackage package, output := method.output.inPackage package }

/-- A service that is moved into a package. -/
def Service.inPackage (package : String) (service : Service) : Service :=
  { service with
    fullName := behindDot package service.fullName
    methods := service.methods.map fun m => (m.1, m.2.inPackage package) }

/-- The schema of a file that is moved into a package: all full names begin with the name of the
package, and the rest is as it was. -/
def Schema.inPackage (package : String) (schema : Schema) : Schema :=
  { schema with
    package := some package
    messages := Message.allInPackage package schema.messages
    enums := schema.enums.map fun e => (e.1, e.2.inPackage package)
    services := schema.services.map fun s => (s.1, s.2.inPackage package) }

theorem Message.allInPackage_eq_map (package : String) (messages : List (String × Message)) :
    allInPackage package messages = messages.map fun m => (m.1, m.2.inPackage package) := by
  induction messages with
  | nil => rfl
  | cons m messages ih => simp [allInPackage, ih]

/-! ## Names of types -/

/-- The name of the type is no full name. -/
def TypeExpr.Relative : TypeExpr → Prop
  | named name => RelativeName name
  | _ => True

mutual

/-- No name of a type in the message is a full name. -/
def MessageDecl.Relative : MessageDecl → Prop
  | ⟨_, fields, messages, _⟩ =>
    (∀ field ∈ fields, field.type.Relative) ∧ MessageDecl.RelativeAll messages

/-- No name of a type in the messages is a full name. -/
def MessageDecl.RelativeAll : List MessageDecl → Prop
  | [] => True
  | m :: rest => m.Relative ∧ MessageDecl.RelativeAll rest

end

/-- No name of a type in the file is a full name. -/
structure FileDecl.Relative (file : FileDecl) : Prop where
  /-- The types of fields. -/
  messages : MessageDecl.RelativeAll file.messages
  /-- What methods take and return. -/
  services : ∀ service ∈ file.services, ∀ method ∈ service.methods,
    RelativeName method.input ∧ RelativeName method.output

/-! ## Scopes in a package -/

/-- A path of identifiers is not empty and has no leading dot. -/
theorem Identifier.Path.not_dot {fullName : String} (h : Path fullName) :
    fullName ≠ "" ∧ RelativeName fullName := by
  have hstart : ∃ c s, fullName.toList = c :: s ∧ c ≠ '.' := by
    induction h with
    | @one name h =>
      cases hname : name.toList with
      | nil => exact absurd (String.toList_injective hname) h.1
      | cons c s =>
        refine ⟨c, s, rfl, ?_⟩
        rintro rfl
        exact h.dot_not_mem (by simp [hname])
    | @dot scope name _ _ ih =>
      obtain ⟨c, s, hs, hc⟩ := ih
      exact ⟨c, s ++ '.' :: name.toList, by simp [hs], hc⟩
  obtain ⟨c, s, hs, hc⟩ := hstart
  refine ⟨?_, fun r hr => ?_⟩
  · rintro rfl
    cases hs
  · rw [hs] at hr
    exact hc (List.cons.inj hr).1

/-- A scope of a file that is moved into a package. -/
def innerScope (package scope : String) : String :=
  if scope = "" then package else behindDot package scope

section

variable {package : String}

theorem toList_behindDot (package fullName : String) :
    (behindDot package fullName).toList = package.toList ++ '.' :: fullName.toList := by
  simp [behindDot]

theorem behindDot_ne_empty (package fullName : String) : behindDot package fullName ≠ "" := by
  intro h
  have hnil := congrArg String.toList h
  rw [toList_behindDot] at hnil
  simp at hnil

theorem behindDot_inj {a b : String} (h : behindDot package a = behindDot package b) : a = b := by
  have hlist := congrArg String.toList h
  rw [toList_behindDot, toList_behindDot, List.append_cancel_left_eq] at hlist
  exact String.toList_injective (List.cons.inj hlist).2

theorem innerScope_of_ne {scope : String} (h : scope ≠ "") :
    innerScope package scope = behindDot package scope := if_neg h

theorem qualify_innerScope (hpackage : package ≠ "") (scope name : String) :
    qualify (innerScope package scope) name = behindDot package (qualify scope name) := by
  unfold qualify
  split
  · rename_i hempty
    unfold innerScope at hempty
    split at hempty
    · exact absurd hempty hpackage
    · exact absurd hempty (behindDot_ne_empty package scope)
  · unfold innerScope
    split
    · rfl
    · simp [behindDot, String.append_assoc]

/-- The scopes around a scope in a package are those that were around it, in the package, and
further ones. -/
theorem enclosing_innerScope {scope : String} (hne : scope ≠ "") (hdot : ∀ r, scope.toList ≠ '.' :: r) :
    ∃ outer, enclosing (innerScope package scope)
      = (enclosing scope).map (innerScope package) ++ outer := by
  have hinner : ∀ u ∈ (beforeDots scope.toList).reverse,
      String.ofList (package.toList ++ '.' :: u) = innerScope package (String.ofList u) := by
    intro u hu
    have hu' : String.ofList u ≠ "" := by
      intro h
      obtain rfl : u = [] := by simpa using h
      obtain ⟨r, hr⟩ := mem_beforeDots.1 (List.mem_reverse.1 hu)
      exact hdot r hr
    rw [innerScope_of_ne hu']
    apply String.toList_injective
    simp [toList_behindDot]
  refine ⟨((beforeDots package.toList).reverse ++ [[]]).map String.ofList, ?_⟩
  rw [innerScope_of_ne hne, enclosing, enclosing, toList_behindDot, beforeDots_append]
  have hroot : innerScope package (String.ofList []) = String.ofList package.toList := by
    rw [String.ofList_toList]
    exact if_pos rfl
  have hmap := List.map_congr_left hinner
  simp only [List.map_cons, innerScope_of_ne hne, List.reverse_append, List.reverse_cons,
    ← List.map_reverse, List.map_append, List.map_map, List.map_nil, List.append_assoc,
    List.cons_append, List.nil_append, hroot]
  simp only [Function.comp_def, hmap]

/-! ## Symbols in a package -/

/-- The types of a file that is moved into a package. -/
def SymbolTable.inPackage (package : String) (table : SymbolTable) : SymbolTable :=
  ⟨table.entries.map fun entry => (behindDot package entry.1, entry.2)⟩

namespace SymbolTable

variable (package) (table : SymbolTable)

theorem find?_inPackage (fullName : String) :
    (table.inPackage package).find? (behindDot package fullName) = table.find? fullName := by
  unfold find? inPackage
  induction table.entries with
  | nil => rfl
  | cons entry entries ih =>
    obtain ⟨name, kind⟩ := entry
    by_cases h : fullName = name
    · simp [h]
    · have h' : behindDot package fullName ≠ behindDot package name := fun heq => h (behindDot_inj heq)
      have hbeq : (fullName == name) = false := by simpa using h
      have hbeq' : (behindDot package fullName == behindDot package name) = false := by simpa using h'
      rw [List.map_cons, List.lookup_cons, List.lookup_cons, hbeq, hbeq', ih]

theorem accepted?_inPackage (accept : SymbolKind → Bool) (fullName : String) :
    (table.inPackage package).accepted? accept (behindDot package fullName)
      = (table.accepted? accept fullName).map fun found => (behindDot package found.1, found.2) := by
  unfold accepted?
  rw [find?_inPackage]
  cases table.find? fullName with
  | none => rfl
  | some kind => cases h : accept kind <;> simp [h]

theorem findSome?_map_of_some {α β γ δ : Type} {f : α → Option γ} {g : β → Option δ} {i : α → β}
    {k : γ → δ} (h : ∀ a, g (i a) = (f a).map k) {xs : List α} {c : γ}
    (hc : xs.findSome? f = some c) (ys : List β) : (xs.map i ++ ys).findSome? g = some (k c) := by
  have hcomp : g ∘ i = Option.map k ∘ f := funext h
  rw [List.findSome?_append, List.findSome?_map, hcomp, ← List.map_findSome?, hc]
  rfl

/-- A name stands for the same type in the package. -/
theorem resolve_inPackage (hpackage : package ≠ "") {scope name : String}
    (hscope : ∀ r, scope.toList ≠ '.' :: r) (hname : RelativeName name) {accept : SymbolKind → Bool}
    {fullName : String} {kind : SymbolKind}
    (h : table.resolve accept scope name = some (fullName, kind)) :
    (table.inPackage package).resolve accept (innerScope package scope) name
      = some (behindDot package fullName, kind) := by
  rw [resolve_of_relative _ hname] at h ⊢
  have hstep (outer : String) :
      (table.inPackage package).accepted? accept (qualify (innerScope package outer) name)
        = (table.accepted? accept (qualify outer name)).map
          fun found => (behindDot package found.1, found.2) := by
    rw [qualify_innerScope hpackage, accepted?_inPackage]
  by_cases hne : scope = ""
  · -- around the root there is nothing but the root
    subst hne
    have hfound : table.accepted? accept (qualify "" name) = some (fullName, kind) := by
      rw [enclosing_root] at h
      cases hroot : table.accepted? accept (qualify "" name) <;> simp_all
    rw [enclosing, List.findSome?_cons, hstep, hfound]
    rfl
  · obtain ⟨outer, houter⟩ := @enclosing_innerScope package _ hne hscope
    rw [houter]
    exact findSome?_map_of_some (i := innerScope package)
      (g := fun outer => (table.inPackage package).accepted? accept (qualify outer name))
      (k := fun found => (behindDot package found.1, found.2)) hstep h outer

end SymbolTable

/-! ## Building in a package -/

theorem TypeRef.ofFullName_inPackage (fullName : String) :
    ofFullName (behindDot package fullName) = (ofFullName fullName).inPackage package := by
  have hlast : afterLastDot (behindDot package fullName) = afterLastDot fullName := by
    unfold afterLastDot
    have hreverse : (package.toList ++ '.' :: fullName.toList).reverse
        = fullName.toList.reverse ++ '.' :: package.toList.reverse := by simp
    rw [toList_behindDot, hreverse, List.takeWhile_append]
    split
    · rename_i hall
      have hself := (List.takeWhile_sublist (l := fullName.toList.reverse) (· != '.')).eq_of_length hall
      rw [hself]
      simp
    · rfl
  rw [ofFullName, hlast, ofFullName, inPackage]

variable {table : SymbolTable}

theorem TypeExpr.resolve_inPackage (hpackage : package ≠ "") {scope : String} (hscope : ∀ r, scope.toList ≠ '.' :: r)
    {type : TypeExpr} (htype : type.Relative) {resolved : FieldType}
    (h : type.resolve table scope = .ok resolved) :
    type.resolve (table.inPackage package) (innerScope package scope)
      = .ok (resolved.inPackage package) := by
  cases type with
  | scalar kind =>
    cases h
    rfl
  | group name =>
    cases h
    simp only [resolve, qualify_innerScope hpackage, TypeRef.ofFullName_inPackage,
      FieldType.inPackage]
  | named name =>
    simp only [resolve] at h ⊢
    cases hfound : table.resolve anySymbol scope name with
    | none => simp [hfound] at h
    | some found =>
      obtain ⟨fullName, kind⟩ := found
      rw [hfound] at h
      rw [table.resolve_inPackage package hpackage hscope htype hfound]
      cases kind <;> cases h <;>
        simp only [TypeRef.ofFullName_inPackage, FieldType.inPackage]

theorem FieldDecl.resolve_inPackage (hpackage : package ≠ "") {scope : String} (hscope : ∀ r, scope.toList ≠ '.' :: r)
    {decl : FieldDecl} (hdecl : decl.type.Relative) {field : Field}
    (h : decl.resolve table scope = .ok field) :
    decl.resolve (table.inPackage package) (innerScope package scope)
      = .ok (field.inPackage package) := by
  obtain ⟨type, htype, rfl⟩ := resolve_eq_ok.1 h
  exact resolve_eq_ok.2 ⟨_, TypeExpr.resolve_inPackage hpackage hscope hdecl htype, rfl⟩

theorem Message.insertField_inPackage (field : Field) (fields : List Field) :
    insertField (field.inPackage package) (fields.map (Field.inPackage package))
      = (insertField field fields).map (Field.inPackage package) := by
  induction fields with
  | nil => rfl
  | cons g rest ih =>
    simp only [List.map_cons, insertField, Field.inPackage] at ih ⊢
    split
    · rfl
    · split
      · rfl
      · rw [ih]; rfl

theorem Fields.insert_inPackage (field : Field) (fields : Fields) :
    (fields.inPackage package).insert (field.inPackage package)
      = (fields.insert field).inPackage package :=
  Subtype.ext (Message.insertField_inPackage field fields.1)

theorem FieldDecl.buildAll_inPackage (hpackage : package ≠ "") {scope : String} (hscope : ∀ r, scope.toList ≠ '.' :: r)
    {decls : List FieldDecl} (hdecls : ∀ decl ∈ decls, decl.type.Relative) {fields built : Fields}
    (h : buildAll table scope fields decls = .ok built) :
    buildAll (table.inPackage package) (innerScope package scope) (fields.inPackage package) decls
      = .ok (built.inPackage package) := by
  induction decls generalizing fields with
  | nil =>
    cases h
    rfl
  | cons decl rest ih =>
    obtain ⟨field, hfield, hnew, h⟩ := buildAll_cons_eq_ok.1 h
    have hfield' := FieldDecl.resolve_inPackage hpackage hscope (hdecls decl (by simp)) hfield
    have hrest := ih (fun decl hdecl => hdecls decl (by simp [hdecl])) h
    rw [← Fields.insert_inPackage] at hrest
    exact buildAll_cons_eq_ok.2 ⟨_, hfield', List.forall_mem_map.2 hnew, hrest⟩

theorem EnumDecl.buildAll_inPackage (hpackage : package ≠ "") (scope : String) (decls : List EnumDecl) :
    buildAll (innerScope package scope) decls
      = (buildAll scope decls).map fun e => (e.1, e.2.inPackage package) := by
  rw [buildAll, buildAll, ← Keyed.ofList_map, List.map_map]
  simp only [Function.comp_def, build, EnumType.inPackage, qualify_innerScope hpackage]

mutual

/-- A message in a package. -/
theorem MessageDecl.build_inPackage (hpackage : package ≠ "") :
    ∀ (m : MessageDecl) {scope : String}, (scope = "" ∨ Identifier.Path scope) →
      (∀ n ∈ m.names, Identifier n) → m.Relative → ∀ {built : Message},
      m.build table scope = .ok built →
      m.build (table.inPackage package) (innerScope package scope) = .ok (built.inPackage package)
  | ⟨name, fields, messages, enums⟩, scope, hscope, hnames, hrelative, built, h => by
    simp only [names, List.forall_mem_cons, List.forall_mem_append] at hnames
    obtain ⟨hname, ⟨-, hmessages⟩, -⟩ := hnames
    obtain ⟨hfields, hinner⟩ := hrelative
    obtain ⟨inner, resolved, hbuilt, hresolved, rfl⟩ := build_eq_ok.1 h
    have hpath := Identifier.Path.qualify hscope hname
    obtain ⟨hne, hdot⟩ := hpath.not_dot
    have hfull : qualify (innerScope package scope) name = innerScope package (qualify scope name) := by
      rw [qualify_innerScope hpackage, innerScope_of_ne hne]
    rw [build_eq_ok, hfull]
    refine ⟨_, _, MessageDecl.buildAll_inPackage hpackage messages (.inr hpath) hmessages hinner hbuilt,
      FieldDecl.buildAll_inPackage hpackage hdot hfields hresolved, ?_⟩
    rw [EnumDecl.buildAll_inPackage hpackage, innerScope_of_ne hne, Message.allInPackage_eq_map,
      Keyed.ofList_map]
    simp only [Message.inPackage, Message.allInPackage_eq_map, Fields.inPackage]

/-- Messages in a package. -/
theorem MessageDecl.buildAll_inPackage (hpackage : package ≠ "") :
    ∀ (ms : List MessageDecl) {scope : String}, (scope = "" ∨ Identifier.Path scope) →
      (∀ n ∈ namesAll ms, Identifier n) → RelativeAll ms → ∀ {built : List (String × Message)},
      buildAll table scope ms = .ok built →
      buildAll (table.inPackage package) (innerScope package scope) ms
        = .ok (Message.allInPackage package built)
  | [], _, _, _, _, _, h => by
    cases h
    rfl
  | m :: rest, scope, hscope, hnames, hrelative, built, h => by
    obtain ⟨hm, hrest⟩ := List.forall_mem_append.1 hnames
    obtain ⟨message, more, hmessage, hmore, rfl⟩ := buildAll_cons_eq_ok.1 h
    refine buildAll_cons_eq_ok.2 ⟨_, _,
      MessageDecl.build_inPackage hpackage m hscope hm hrelative.1 hmessage,
      MessageDecl.buildAll_inPackage hpackage rest hscope hrest hrelative.2 hmore, ?_⟩
    cases message
    rfl

end

theorem resolveMessage_inPackage (hpackage : package ≠ "") {scope name : String} (hscope : ∀ r, scope.toList ≠ '.' :: r)
    (hname : RelativeName name) {ref : TypeRef} (h : resolveMessage table scope name = .ok ref) :
    resolveMessage (table.inPackage package) (innerScope package scope) name
      = .ok (ref.inPackage package) := by
  obtain ⟨fullName, kind, hfound, rfl⟩ := resolveMessage_eq_ok.1 h
  exact resolveMessage_eq_ok.2 ⟨_, kind,
    table.resolve_inPackage package hpackage hscope hname hfound, by rw [TypeRef.ofFullName_inPackage]⟩

theorem MethodDecl.build_inPackage (hpackage : package ≠ "") {scope : String} (hscope : ∀ r, scope.toList ≠ '.' :: r)
    {decl : MethodDecl} (hdecl : RelativeName decl.input ∧ RelativeName decl.output) {method : Method}
    (h : decl.build table scope = .ok method) :
    decl.build (table.inPackage package) (innerScope package scope)
      = .ok (method.inPackage package) := by
  obtain ⟨input, output, hinput, houtput, rfl⟩ := build_eq_ok.1 h
  exact build_eq_ok.2 ⟨_, _, resolveMessage_inPackage hpackage hscope hdecl.1 hinput,
    resolveMessage_inPackage hpackage hscope hdecl.2 houtput, rfl⟩

/-- What is made from each member of a list is mapped if each is. -/
theorem mapM_map_eq_ok {ε α β γ : Type} {f : α → Except ε β} {g : α → Except ε γ} {k : β → γ} {xs : List α}
    (hstep : ∀ x ∈ xs, ∀ y, f x = .ok y → g x = .ok (k y)) {ys : List β} (h : xs.mapM f = .ok ys) :
    xs.mapM g = .ok (ys.map k) := by
  induction xs generalizing ys with
  | nil =>
    cases h
    rfl
  | cons x xs ih =>
    obtain ⟨y, rest, hy, hrest, rfl⟩ := mapM_cons_eq_ok.1 h
    have hk := ih (fun z hz => hstep z (by simp [hz])) hrest
    exact mapM_cons_eq_ok.2 ⟨k y, rest.map k, hstep x (by simp) y hy, hk, rfl⟩

theorem ServiceDecl.build_inPackage (hpackage : package ≠ "") {scope : String} (hscope : scope = "" ∨ Identifier.Path scope)
    {decl : ServiceDecl} (hname : Identifier decl.name)
    (hdecl : ∀ method ∈ decl.methods, RelativeName method.input ∧ RelativeName method.output)
    {service : Service} (h : decl.build table scope = .ok service) :
    decl.build (table.inPackage package) (innerScope package scope)
      = .ok (service.inPackage package) := by
  obtain ⟨methods, hmethods, rfl⟩ := build_eq_ok.1 h
  obtain ⟨hne, hdot⟩ := (Identifier.Path.qualify hscope hname).not_dot
  have hfull : qualify (innerScope package scope) decl.name
      = innerScope package (qualify scope decl.name) := by
    rw [qualify_innerScope hpackage, innerScope_of_ne hne]
  rw [build_eq_ok, hfull]
  refine ⟨_, mapM_map_eq_ok (fun m hm _ => MethodDecl.build_inPackage hpackage hdot (hdecl m hm))
    hmethods, ?_⟩
  have hkeyed := Keyed.ofList_map (Method.inPackage package) (methods.map fun m => (m.name, m))
  rw [List.map_map] at hkeyed ⊢
  rw [Service.inPackage, innerScope_of_ne hne, ← hkeyed]
  rfl

/-! ## Files in a package -/

mutual

theorem MessageDecl.symbols_innerScope (hpackage : package ≠ "") :
    ∀ (m : MessageDecl) {scope : String}, (scope = "" ∨ Identifier.Path scope) →
      (∀ n ∈ m.names, Identifier n) →
      m.symbols (innerScope package scope)
        = (m.symbols scope).map fun symbol => (behindDot package symbol.1, symbol.2)
  | ⟨name, fields, messages, enums⟩, scope, hscope, hnames => by
    simp only [names, List.forall_mem_cons, List.forall_mem_append] at hnames
    obtain ⟨hname, ⟨-, hmessages⟩, -⟩ := hnames
    have hpath := Identifier.Path.qualify hscope hname
    have hfull : qualify (innerScope package scope) name = innerScope package (qualify scope name) := by
      rw [qualify_innerScope hpackage, innerScope_of_ne hpath.not_dot.1]
    rw [symbols, hfull, MessageDecl.symbolsAll_innerScope hpackage messages (.inr hpath) hmessages,
      symbols]
    simp only [qualify_innerScope hpackage, List.map_append, List.map_map, List.map_cons,
      List.map_nil, Function.comp_def]
    rw [innerScope_of_ne hpath.not_dot.1]

theorem MessageDecl.symbolsAll_innerScope (hpackage : package ≠ "") :
    ∀ (ms : List MessageDecl) {scope : String}, (scope = "" ∨ Identifier.Path scope) →
      (∀ n ∈ namesAll ms, Identifier n) →
      symbolsAll (innerScope package scope) ms
        = (symbolsAll scope ms).map fun symbol => (behindDot package symbol.1, symbol.2)
  | [], _, _, _ => rfl
  | m :: rest, scope, hscope, hnames => by
    obtain ⟨hm, hrest⟩ := List.forall_mem_append.1 hnames
    rw [symbolsAll, symbolsAll, MessageDecl.symbols_innerScope hpackage m hscope hm,
      MessageDecl.symbolsAll_innerScope hpackage rest hscope hrest, List.map_append]

end

/-- The file in a package. -/
def FileDecl.inPackage (package : String) (file : FileDecl) : FileDecl :=
  { file with package := some package }

theorem FileDecl.ofFiles_inPackage (hpackage : package ≠ "") {file : FileDecl} (h : file.Identified)
    (hnone : file.package = none) :
    SymbolTable.ofFiles [file.inPackage package] = (SymbolTable.ofFiles [file]).inPackage package := by
  have hscope : file.scope = "" := by rw [scope, hnone]; rfl
  have hroot : innerScope package "" = package := if_pos rfl
  have hscope' : (file.inPackage package).scope = innerScope package "" := by rw [hroot]; rfl
  simp only [SymbolTable.ofFiles, SymbolTable.inPackage, List.flatMap_singleton, List.map_reverse]
  rw [symbols, symbols, hscope, hscope']
  simp only [inPackage, MessageDecl.symbolsAll_innerScope hpackage _ (.inl rfl) h.messages,
    List.map_append, List.map_map, Function.comp_def, qualify_innerScope hpackage]

/-- The schema of a file that is moved into a package. -/
theorem FileDecl.build_inPackage (hpackage : package ≠ "") {file : FileDecl} (h : file.Identified)
    (hnone : file.package = none) (hrelative : file.Relative) {schema : Schema}
    (hbuild : file.build (.ofFiles [file]) = .ok schema) :
    (file.inPackage package).build (.ofFiles [file.inPackage package])
      = .ok (schema.inPackage package) := by
  have hscope : file.scope = "" := by rw [scope, hnone]; rfl
  have hroot : innerScope package "" = package := if_pos rfl
  have hscope' : (file.inPackage package).scope = innerScope package "" := by rw [hroot]; rfl
  rw [build_eq_ok, hscope] at hbuild
  rw [build_eq_ok, hscope', ofFiles_inPackage hpackage h hnone]
  obtain ⟨messages, services, hmessages, hservices, rfl⟩ := hbuild
  have hservice : ∀ decl ∈ file.services, ∀ service,
      decl.build (.ofFiles [file]) "" = .ok service →
      decl.build ((SymbolTable.ofFiles [file]).inPackage package) (innerScope package "")
        = .ok (service.inPackage package) := by
    intro decl hdecl service
    refine ServiceDecl.build_inPackage hpackage (.inl rfl) ?_ (hrelative.services decl hdecl)
    exact h.services _ (List.mem_flatMap.2 ⟨decl, hdecl, List.mem_cons_self⟩)
  refine ⟨_, _, MessageDecl.buildAll_inPackage hpackage file.messages (.inl rfl) h.messages
    hrelative.messages hmessages, mapM_map_eq_ok hservice hservices, ?_⟩
  have hkeyed := Keyed.ofList_map (Service.inPackage package) (services.map fun s => (s.name, s))
  have hmessages' := Keyed.ofList_map (Message.inPackage package) messages
  rw [List.map_map] at hkeyed ⊢
  simp only [Schema.inPackage, ← hkeyed, Message.allInPackage_eq_map, ← hmessages']
  simp only [inPackage, EnumDecl.buildAll_inPackage hpackage, Function.comp_def, Service.inPackage]

end

end MettaSchema
