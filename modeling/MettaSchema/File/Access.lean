import MettaSchema.File.Tree

/-!
# Access to files

What a program may do with files.  What is written against this interface runs on the disk as well
as on a tree of files.

* `FileAccess` — how files are read and written.
* the instance for `StateM FileTree` — on a tree, which is a state.
* `FileAccess.resultOn`, `FileAccess.Gives` — the result of a program on a tree, and what it gives
  on a tree that it leaves as it is.
-/

namespace MettaSchema

/-- How files are read and written. -/
class FileAccess (m : Type → Type) where
  /-- Whether a path leads to a file. -/
  isFile (path : String) : m Bool
  /-- The content of a file as text. -/
  readText (path : String) : m (Except FileError String)
  /-- Writes a text to a file, which is made if it is not there. -/
  writeText (path text : String) : m (Except FileError Unit)
  /-- All files together have at most as many bytes. -/
  capacity : m Nat

namespace FileAccess

/-- On a tree of files. -/
instance : FileAccess (StateM FileTree) where
  isFile path tree := (tree.isFile path, tree)
  readText path tree := (tree.readText path, tree)
  writeText path text tree :=
    match tree.writeText path text with
    | .ok tree' => (.ok (), tree')
    | .error e => (.error e, tree)
  capacity tree := (tree.size, tree)

theorem run_writeText (tree : FileTree) (path text : String) :
    (writeText path text : StateM FileTree _).run tree = match tree.writeText path text with
      | .ok tree' => (.ok (), tree')
      | .error e => (.error e, tree) :=
  rfl

/-- After a program on a tree, another one goes on with its result and with the tree that it
leaves. -/
theorem run_bind_of_run {α β : Type} {tree tree' : FileTree} {x : StateM FileTree α}
    {f : α → StateM FileTree β} {a : α} (h : x.run tree = (a, tree')) :
    (x >>= f).run tree = (f a).run tree' := by
  rw [StateT.run_bind, h]
  rfl

/-- Where something else can fail, files are read and written as before. -/
instance {m : Type → Type} [Monad m] [FileAccess m] {ε : Type} : FileAccess (ExceptT ε m) where
  isFile path := ExceptT.lift (isFile path)
  readText path := ExceptT.lift (readText path)
  writeText path text := ExceptT.lift (writeText path text)
  capacity := ExceptT.lift capacity

/-! ## Programs that only read -/

variable {ε α β : Type} {tree : FileTree}

/-- On a tree a program gives a result and leaves the tree as it is. -/
def Gives (x : ExceptT ε (StateM FileTree) α) (tree : FileTree) (result : Except ε α) : Prop :=
  x.run.run tree = (result, tree)

/-- The result of a program on a tree. -/
def resultOn (tree : FileTree) (x : ExceptT ε (StateM FileTree) α) : Except ε α :=
  (x.run.run tree).1

theorem Gives.result_eq {x : ExceptT ε (StateM FileTree) α} {result : Except ε α}
    (h : Gives x tree result) : resultOn tree x = result :=
  congrArg Prod.fst h

theorem gives_pure (a : α) : Gives (ε := ε) (pure a) tree (.ok a) := rfl

theorem gives_lift (result : Except ε α) : Gives (liftM result) tree result := rfl

theorem gives_isFile (path : String) :
    Gives (ε := ε) (isFile path) tree (.ok (tree.isFile path)) :=
  rfl

theorem gives_readText (path : String) :
    Gives (ε := ε) (readText path) tree (.ok (tree.readText path)) :=
  rfl

theorem gives_capacity : Gives (ε := ε) capacity tree (.ok tree.size) := rfl

/-- If all steps of a program only read, so does the program. -/
theorem Gives.bind {x : ExceptT ε (StateM FileTree) α} {f : α → ExceptT ε (StateM FileTree) β}
    {result : Except ε α} {next : α → Except ε β} (h : Gives x tree result)
    (hf : ∀ a, Gives (f a) tree (next a)) : Gives (x >>= f) tree (result >>= next) := by
  unfold Gives at h
  rw [Gives, ExceptT.run_bind, StateT.run_bind, h]
  cases result with
  | error e => rfl
  | ok a => exact hf a

theorem gives_findM? (paths : List String) :
    Gives (ε := ε) (paths.findM? isFile) tree (.ok (paths.find? tree.isFile)) := by
  induction paths with
  | nil => rfl
  | cons path paths ih =>
    rw [List.findM?, List.find?_cons]
    refine (gives_isFile path).bind fun found =>
      (?_ : Gives _ tree (.ok (match found with
        | true => some path
        | false => paths.find? tree.isFile)))
    cases found with
    | true => rfl
    | false => exact ih

end FileAccess

end MettaSchema
