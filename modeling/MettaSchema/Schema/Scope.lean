import MettaSchema.Declaration

/-!
# Scopes

Which type a name stands for depends on where it is used.  A name is looked for in
the scope where it stands, then in the scopes around that one, from the inside out,
down to the root.  A name with a leading dot is a full name already.

* `qualify` — the full name of something declared in a scope.
* `enclosing` — a scope and the scopes around it, the innermost first.
* `FileDecl.symbols` — the full names that a file declares.
* `SymbolTable.resolve` — the type that a name stands for in a scope.
-/

namespace MettaSchema

/-- The full name of what is declared under a name in a scope.  The root scope has no
name and adds nothing. -/
def qualify (scope name : String) : String :=
  if scope = "" then name else scope ++ "." ++ name

/-- The parts of a text before each of its dots, the shortest first. -/
def beforeDots : List Char → List (List Char)
  | [] => []
  | c :: s =>
    let longer := (beforeDots s).map (c :: ·)
    if c = '.' then [] :: longer else longer

/-- A scope and the scopes around it, the innermost first and the root last. -/
def enclosing (scope : String) : List String :=
  scope :: ((beforeDots scope.toList).reverse ++ [[]]).map String.ofList

/-! ## Symbols -/

/-- What a symbol names. -/
inductive SymbolKind where
  /-- A message. -/
  | message
  /-- An enum. -/
  | enum
  deriving DecidableEq, Repr, Inhabited

mutual

/-- The full names that a message declares in a scope: those of what is inside it
first, its own last. -/
def MessageDecl.symbols (scope : String) : MessageDecl → List (String × SymbolKind)
  | ⟨name, _, messages, enums⟩ =>
    MessageDecl.symbolsAll (qualify scope name) messages
      ++ enums.map (fun e => (qualify (qualify scope name) e.name, .enum))
      ++ [(qualify scope name, .message)]

/-- The full names that some messages declare in a scope. -/
def MessageDecl.symbolsAll (scope : String) : List MessageDecl → List (String × SymbolKind)
  | [] => []
  | m :: rest => m.symbols scope ++ MessageDecl.symbolsAll scope rest

end

namespace FileDecl

/-- The scope of a file: its package, or the root. -/
def scope (file : FileDecl) : String :=
  file.package.getD ""

/-- The full names that a file declares. -/
def symbols (file : FileDecl) : List (String × SymbolKind) :=
  MessageDecl.symbolsAll file.scope file.messages
    ++ file.enums.map fun e => (qualify file.scope e.name, .enum)

end FileDecl

/-- The types that are declared, under their full names. -/
structure SymbolTable where
  /-- What was declared, the latest first. -/
  entries : List (String × SymbolKind)
  deriving DecidableEq, Repr, Inhabited

namespace SymbolTable

/-- The types that some files declare.  Of two declarations of one name the later one
counts. -/
def ofFiles (files : List FileDecl) : SymbolTable :=
  ⟨(files.flatMap FileDecl.symbols).reverse⟩

/-- What is declared under a full name. -/
def find? (table : SymbolTable) (fullName : String) : Option SymbolKind :=
  table.entries.lookup fullName

/-- What is declared under a full name, provided it is acceptable. -/
def accepted? (table : SymbolTable) (accept : SymbolKind → Bool) (fullName : String) :
    Option (String × SymbolKind) :=
  match table.find? fullName with
  | some kind => if accept kind then some (fullName, kind) else none
  | none => none

/-- The acceptable type that a name stands for in a scope: the one in the innermost
scope that has one, or for a name with a leading dot the one of that full name. -/
def resolve (table : SymbolTable) (accept : SymbolKind → Bool) (scope name : String) :
    Option (String × SymbolKind) :=
  match name.toList with
  | '.' :: fullName => table.accepted? accept (String.ofList fullName)
  | _ => (enclosing scope).findSome? fun outer => table.accepted? accept (qualify outer name)

end SymbolTable

end MettaSchema
