import MettaSchema.File.Access
import MettaSchema.Import.Bundled
import MettaSchema.Schema.Build

/-!
# Imports

The schema of a file on the disk.  Its imports, and the imports of those files in turn,
add the types that they declare; nothing else of them counts.

* `Search` — the directories that are searched first.
* `Search.candidates` — where an import is looked for: in those directories, in the
  directory of the file that imports it, in the directory of the root file; then it may
  be bundled.
* `Worklist` — the imports still to be looked up.  They are looked up in the order in
  which they are met, and each import path only once.
* `Search.loadM` — loads a file, wherever files can be read.
* `Search.load` — the schema of a file of a tree.
* `Search.fetch_eq`, `Search.collect_succ`, `Search.load_eq` — how it is made: loading only reads.
-/

namespace MettaSchema

/-- Where imported files are searched. -/
structure Search where
  /-- The directories that are searched before all others. -/
  includePaths : List String
  deriving DecidableEq, Repr, Inhabited

/-- The declarations of the text that was found at a path, named after the file. -/
def FileDecl.ofText (path : String) : Except FileError String → Except SchemaError FileDecl
  | .error e => .error (.unreadable path e)
  | .ok text => FileDecl.parse ((Path.fileName? path).getD path) text

/-! ## The imports still to be looked up -/

/-- An import that is to be looked up. -/
structure Wanted where
  /-- The path that the import names. -/
  path : String
  /-- The file that imports it. -/
  importer : String
  /-- The directory of that file, unless it is bundled. -/
  directory : Option String
  deriving DecidableEq, Repr, Inhabited

/-- The state of loading a file with its imports. -/
structure Worklist where
  /-- The imports that were met, the earliest first. -/
  queue : List Wanted
  /-- The paths that have been looked up. -/
  seen : List String
  /-- The files that have been loaded, the root first. -/
  files : List FileDecl
  deriving Inhabited

namespace Worklist

/-- The imports of a file. -/
def wantedBy (file : FileDecl) (importer : String) (directory : Option String) : List Wanted :=
  file.imports.map fun path => ⟨path, importer, directory⟩

/-- The state in which only the root file has been loaded. -/
def start (root : FileDecl) (directory : String) : Worklist :=
  { queue := wantedBy root root.name (some directory), seen := [], files := [root] }

/-- The next import that has not been looked up, and the state without it. -/
def next? (work : Worklist) : Option (Wanted × Worklist) :=
  match work.queue.dropWhile fun wanted => work.seen.contains wanted.path with
  | [] => none
  | wanted :: queue => some (wanted, { work with queue, seen := wanted.path :: work.seen })

/-- Adds the file that an import stands for. -/
def add (work : Worklist) (wanted : Wanted) (file : FileDecl) (directory : Option String) :
    Worklist :=
  { work with
    queue := work.queue ++ wantedBy file wanted.path directory
    files := work.files ++ [file] }

end Worklist

/-! ## Loading -/

namespace Search

open FileAccess

/-- The paths at which an import can be, the preferred one first. -/
def candidates (search : Search) (rootDirectory : String) (wanted : Wanted) : List String :=
  (search.includePaths ++ wanted.directory.toList ++ [rootDirectory]).map fun directory =>
    Path.join directory wanted.path

/-- The file that an import stands for and its directory, given the path at which a file
was found and the text there, if there was one. -/
def choose (wanted : Wanted) :
    Option (String × Except FileError String) → Except SchemaError (FileDecl × Option String)
  | some (path, text) => do
    let file ← FileDecl.ofText path text
    return (file, Path.parent? path)
  | none =>
    match Bundled.file? wanted.path with
    | some file => .ok (file, none)
    | none => .error (.importNotFound wanted.path wanted.importer)

/-- The directory of a path; a path without one is in the working directory. -/
def directoryOf (path : String) : String :=
  (Path.parent? path).getD ""

section

variable {m : Type → Type} [Monad m] [FileAccess m]

/-- Looks for the file that an import stands for, and for its directory. -/
def fetchM (search : Search) (rootDirectory : String) (wanted : Wanted) :
    ExceptT SchemaError m (FileDecl × Option String) := do
  match ← (search.candidates rootDirectory wanted).findM? isFile with
  | some path => choose wanted (some (path, ← readText path))
  | none => choose wanted none

/-- Looks up imports until none is left, at most `bound` of them. -/
def collectM (search : Search) (rootDirectory : String) :
    Nat → Worklist → ExceptT SchemaError m Worklist
  | 0, work => return work
  | bound + 1, work =>
    match work.next? with
    | none => return work
    | some (wanted, rest) => do
      let (file, directory) ← search.fetchM rootDirectory wanted
      search.collectM rootDirectory bound (rest.add wanted file directory)

/-- Loads the schema of a file.  Each import path that is looked up is written in some file, so
there are fewer of them than bytes. -/
def loadM (search : Search) (path : String) : ExceptT SchemaError m Schema := do
  let root ← FileDecl.ofText path (← readText path)
  let directory := directoryOf path
  let work ← search.collectM directory (← capacity) (.start root directory)
  root.build (.ofFiles work.files)

end

/-! ## Loading from a tree of files -/

section

variable (search : Search) (tree : FileTree) (rootDirectory : String)

/-- The file that an import stands for and its directory. -/
def fetch (wanted : Wanted) : Except SchemaError (FileDecl × Option String) :=
  resultOn tree (search.fetchM rootDirectory wanted)

/-- Looks up imports until none is left, at most `bound` of them. -/
def collect (bound : Nat) (work : Worklist) : Except SchemaError Worklist :=
  resultOn tree (search.collectM rootDirectory bound work)

/-- The schema of a file. -/
def load (path : String) : Except SchemaError Schema :=
  resultOn tree (search.loadM path)

/-- To fetch a file, files are only read. -/
theorem gives_fetchM (wanted : Wanted) :
    Gives (search.fetchM rootDirectory wanted) tree
      (choose wanted <| ((search.candidates rootDirectory wanted).find? tree.isFile).map fun path =>
        (path, tree.readText path)) := by
  refine (gives_findM? _).bind fun found =>
    (?_ : Gives _ tree (choose wanted (found.map fun path => (path, tree.readText path))))
  cases found with
  | none => exact gives_lift _
  | some path => exact (gives_readText path).bind fun _ => gives_lift _

theorem fetch_eq (wanted : Wanted) :
    search.fetch tree rootDirectory wanted
      = choose wanted (((search.candidates rootDirectory wanted).find? tree.isFile).map fun path =>
          (path, tree.readText path)) :=
  (search.gives_fetchM tree rootDirectory wanted).result_eq

/-- If the lookups after the first one only read files, so do all together. -/
theorem gives_collectM_succ {bound : Nat}
    (h : ∀ work, Gives (search.collectM rootDirectory bound work) tree
      (search.collect tree rootDirectory bound work)) (work : Worklist) :
    Gives (search.collectM rootDirectory (bound + 1) work) tree
      (match work.next? with
        | none => .ok work
        | some (wanted, rest) =>
          search.fetch tree rootDirectory wanted >>= fun (file, directory) =>
            search.collect tree rootDirectory bound (rest.add wanted file directory)) := by
  unfold collectM
  cases work.next? with
  | none => exact gives_pure work
  | some next =>
    dsimp only
    rw [fetch_eq]
    exact (search.gives_fetchM tree rootDirectory next.1).bind fun _ => h _

theorem gives_collectM (bound : Nat) : ∀ work : Worklist,
    Gives (search.collectM rootDirectory bound work) tree
      (search.collect tree rootDirectory bound work) := by
  induction bound with
  | zero => exact gives_pure
  | succ bound ih =>
    intro work
    have h := search.gives_collectM_succ tree rootDirectory ih work
    rwa [collect, h.result_eq]

theorem collect_zero (work : Worklist) : search.collect tree rootDirectory 0 work = .ok work := rfl

theorem collect_succ (bound : Nat) (work : Worklist) :
    search.collect tree rootDirectory (bound + 1) work
      = match work.next? with
        | none => .ok work
        | some (wanted, rest) =>
          search.fetch tree rootDirectory wanted >>= fun (file, directory) =>
            search.collect tree rootDirectory bound (rest.add wanted file directory) :=
  (search.gives_collectM_succ tree rootDirectory (search.gives_collectM tree rootDirectory bound)
    work).result_eq

variable (path : String)

/-- To load a schema, files are only read. -/
theorem gives_loadM : Gives (search.loadM path) tree
    (FileDecl.ofText path (tree.readText path) >>= fun root =>
      search.collect tree (directoryOf path) tree.size (.start root (directoryOf path))
        >>= fun work => root.build (.ofFiles work.files)) :=
  (gives_readText path).bind fun _ => (gives_lift _).bind fun _ => gives_capacity.bind fun _ =>
    (search.gives_collectM tree _ _ _).bind fun _ => gives_lift _

theorem load_eq : search.load tree path
    = FileDecl.ofText path (tree.readText path) >>= fun root =>
      search.collect tree (directoryOf path) tree.size (.start root (directoryOf path))
        >>= fun work => root.build (.ofFiles work.files) :=
  (search.gives_loadM tree path).result_eq

end

end Search

end MettaSchema
