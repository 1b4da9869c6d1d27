import MettaSchema.Proofs.Import.Written
import MettaSchema.Proofs.Schema.References

/-!
# What a schema depends on

A schema depends on the types in reach only by what is found under their full names.  Files that
declare the same types in another order, or more than once, are as good, provided that no full name
is given to a message and to an enum.

* `SymbolTable.lookup_congr` — what is found does not depend on the order of declaration.
* `SymbolTable.find?_ofFiles_cons` — what is found in several files.
* `SymbolTable.find?_bundled_congr` — what is found in bundled files.
* `FileDecl.build_congr` — tables in which the same is found build the same schema.
* `FileDecl.build_withImports` — the imports of a file are only passed on to its schema.
-/

namespace MettaSchema

/-! ## Looking up -/

/-- If all entries under a key agree, they are what is found under it. -/
theorem lookup_eq_some_of_unique {entries : List (String × SymbolKind)} {n : String}
    {kind : SymbolKind} (h : (n, kind) ∈ entries)
    (hu : ∀ kind', (n, kind') ∈ entries → kind' = kind) : entries.lookup n = some kind := by
  cases hfind : entries.lookup n with
  | none =>
    have hother := List.lookup_eq_none_iff.1 hfind (n, kind) h
    simp at hother
  | some kind' =>
    obtain ⟨l, r, hentries, -⟩ := List.lookup_eq_some_iff.1 hfind
    rw [hu kind' (by simp [hentries])]

namespace SymbolTable

variable {table table' : SymbolTable}

/-- Tables with the same entries find the same, if no full name has two kinds. -/
theorem lookup_congr (h : ∀ symbol, symbol ∈ table'.entries ↔ symbol ∈ table.entries)
    (hunique : ∀ n kind kind', (n, kind) ∈ table.entries → (n, kind') ∈ table.entries →
      kind' = kind) : table'.find? = table.find? := by
  funext n
  cases hfind : table.find? n with
  | some kind =>
    have hmem := find?_mem hfind
    refine lookup_eq_some_of_unique ((h _).2 hmem) ?_
    intro kind' hkind'
    exact hunique n kind kind' hmem ((h _).1 hkind')
  | none =>
    cases hfind' : table'.find? n with
    | none => rfl
    | some kind =>
      have hother := List.lookup_eq_none_iff.1 hfind _ ((h _).1 (find?_mem hfind'))
      simp at hother

theorem resolve_congr (h : table'.find? = table.find?) : table'.resolve = table.resolve := by
  have haccepted : table'.accepted? = table.accepted? := by
    funext accept fullName
    simp only [accepted?, h]
  funext accept scope name
  simp only [resolve, haccepted]

/-- A later file comes before an earlier one. -/
theorem find?_ofFiles_cons (file : FileDecl) (files : List FileDecl)
    (fullName : String) :
    (ofFiles (file :: files)).find? fullName
      = ((ofFiles files).find? fullName).or ((ofFiles [file]).find? fullName) := by
  simp [ofFiles, find?, List.lookup_append]

end SymbolTable

/-- The bundled files do not differ in what a full name is given to. -/
theorem Bundled.kind_unique : ∀ file ∈ files, ∀ file' ∈ files, ∀ symbol ∈ file.symbols,
    ∀ symbol' ∈ file'.symbols, symbol'.1 = symbol.1 → symbol'.2 = symbol.2 := by
  decide +kernel

/-- Of bundled files only the set matters. -/
theorem SymbolTable.find?_bundled_congr {files files' : List FileDecl}
    (h : ∀ file, file ∈ files' ↔ file ∈ files) (hbundled : ∀ file ∈ files, file ∈ Bundled.files) :
    (ofFiles files').find? = (ofFiles files).find? := by
  refine lookup_congr ?_ ?_
  · intro symbol
    simp only [mem_ofFiles, h]
  · intro fullName kind kind' hkind hkind'
    obtain ⟨file, hfile, hsymbol⟩ := mem_ofFiles.1 hkind
    obtain ⟨file', hfile', hsymbol'⟩ := mem_ofFiles.1 hkind'
    exact Bundled.kind_unique file (hbundled file hfile) file' (hbundled file' hfile') _ hsymbol _
      hsymbol' rfl

/-! ## Building -/

section

variable {table table' : SymbolTable}

theorem FieldDecl.resolve_congr (h : table'.find? = table.find?) :
    FieldDecl.resolve table' = FieldDecl.resolve table := by
  have htype : TypeExpr.resolve table' = TypeExpr.resolve table := by
    funext scope type
    cases type with
    | named name => simp only [TypeExpr.resolve, SymbolTable.resolve_congr h]
    | _ => rfl
  funext scope decl
  simp only [resolve, htype]

theorem FieldDecl.buildAll_congr (h : table'.find? = table.find?) (scope : String)
    (decls : List FieldDecl) :
    ∀ fields, buildAll table' scope fields decls = buildAll table scope fields decls := by
  induction decls with
  | nil => exact fun _ => rfl
  | cons decl rest ih =>
    intro fields
    simp only [buildAll, FieldDecl.resolve_congr h, ih]

mutual

theorem MessageDecl.build_congr (h : table'.find? = table.find?) :
    ∀ (decl : MessageDecl) (scope : String), decl.build table' scope = decl.build table scope
  | ⟨name, fields, messages, enums⟩, scope => by
    have hinner := MessageDecl.buildAll_congr h messages (qualify scope name)
    simp only [build, hinner, FieldDecl.buildAll_congr h]

theorem MessageDecl.buildAll_congr (h : table'.find? = table.find?) :
    ∀ (decls : List MessageDecl) (scope : String),
      buildAll table' scope decls = buildAll table scope decls
  | [], scope => rfl
  | decl :: rest, scope => by
    simp only [buildAll, MessageDecl.build_congr h decl scope,
      MessageDecl.buildAll_congr h rest scope]

end

theorem ServiceDecl.build_congr (h : table'.find? = table.find?) :
    ServiceDecl.build table' = ServiceDecl.build table := by
  have hmethod : MethodDecl.build table' = MethodDecl.build table := by
    funext scope decl
    simp only [MethodDecl.build, resolveMessage, SymbolTable.resolve_congr h]
  funext scope decl
  simp only [build, hmethod]

/-- Tables in which the same is found build the same schema. -/
theorem FileDecl.build_congr (h : table'.find? = table.find?) (file : FileDecl) :
    file.build table' = file.build table := by
  simp only [build, MessageDecl.buildAll_congr h, ServiceDecl.build_congr h]

end

theorem FileDecl.imports_build {table : SymbolTable} {file : FileDecl} {schema : Schema}
    (h : file.build table = .ok schema) : schema.imports = file.imports := by
  obtain ⟨messages, services, -, -, rfl⟩ := build_eq_ok.1 h
  rfl

/-- The imports of a file are only passed on to its schema. -/
theorem FileDecl.build_withImports {table : SymbolTable} {file : FileDecl} {schema : Schema}
    (imports : List String) (h : file.build table = .ok schema) :
    (file.withImports imports).build table = .ok { schema with imports } := by
  obtain ⟨messages, services, hmessages, hservices, rfl⟩ := build_eq_ok.1 h
  exact build_eq_ok.2 ⟨messages, services, hmessages, hservices, rfl⟩

end MettaSchema
