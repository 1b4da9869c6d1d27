import MettaSchema.Error
import MettaSchema.File.Path

/-!
# File trees

The files and directories of a file system, and what a path leads to in it.  A path starts
at the root or at the working directory and is followed part by part: a missing name ends
the way, and only a directory can be passed through.

* `FileTree` — the files and directories, and the working directory.
* `FileTree.follow` — what a path leads to.
* `FileTree.readText`, `FileTree.isFile`, `FileTree.writeText`, `FileTree.remove` — the
  operations.
* `FileTree.put` — places a node, and the directories above it.
-/

namespace MettaSchema

/-- What can stand at a place. -/
inductive Node where
  /-- A file and its content. -/
  | file (content : ByteArray)
  /-- A directory. -/
  | directory
  deriving Inhabited

namespace Node

/-- Files are equal if their bytes are. -/
instance : DecidableEq Node
  | file ⟨a⟩, file ⟨b⟩ =>
    if h : a = b then .isTrue (congrArg (fun bytes => file ⟨bytes⟩) h)
    else .isFalse fun e => by cases e; exact h rfl
  | directory, directory => .isTrue rfl
  | file _, directory => .isFalse nofun
  | directory, file _ => .isFalse nofun

/-- How many bytes stand there. -/
def size : Node → Nat
  | file content => content.size
  | directory => 0

end Node

/-- The names that lead from the root to a place. -/
abbrev Way := List (List Char)

/-- The files and directories of a file system, and its working directory. -/
structure FileTree where
  /-- The way of the working directory. -/
  workingDirectory : Way
  /-- The files and directories, each with its way. -/
  entries : List (Way × Node)
  deriving DecidableEq, Inhabited

namespace FileTree

/-- The tree without any file, with a working directory below the root. -/
def empty (workingDirectory : Way := ["work".toList]) : FileTree := ⟨workingDirectory, []⟩

/-- How many bytes all files have together. -/
def size (tree : FileTree) : Nat :=
  tree.entries.foldr (fun entry bytes => entry.2.size + bytes) 0

/-! ## Following paths -/

/-- What stands at a way.  The working directory is always there, and so is all above it. -/
def node? (tree : FileTree) (way : Way) : Option Node :=
  if way <+: tree.workingDirectory then some .directory else tree.entries.lookup way

/-- Follows one part of a path from a place.  The place has to be a directory.  Above the root
there is the root again. -/
def step (tree : FileTree) (way : Way) (part : List Char) : Except FileError Way :=
  match tree.node? way with
  | some .directory =>
    if Path.isIdle part then .ok way
    else if part = ['.', '.'] then .ok way.dropLast
    else if (tree.node? (way ++ [part])).isSome then .ok (way ++ [part])
    else .error .notFound
  | some (.file _) => .error .notDirectory
  | none => .error .notFound

/-- Where a path starts: at the root, or at the working directory. -/
def origin (tree : FileTree) (path : String) : Way :=
  if Path.isAbsolute path then [] else tree.workingDirectory

/-- The place that a path leads to.  The empty path leads nowhere. -/
def follow (tree : FileTree) (path : String) : Except FileError Way :=
  if path = "" then .error .notFound
  else (Path.parts path).foldlM (step tree) (tree.origin path)

/-! ## Reading -/

/-- The content of a file. -/
def read (tree : FileTree) (path : String) : Except FileError ByteArray :=
  match follow tree path with
  | .error e => .error e
  | .ok way =>
    match tree.node? way with
    | some (.file content) => .ok content
    | some .directory => .error .isDirectory
    | none => .error .notFound

/-- The content of a file as text. -/
def readText (tree : FileTree) (path : String) : Except FileError String :=
  match tree.read path with
  | .error e => .error e
  | .ok content =>
    match String.fromUTF8? content with
    | some text => .ok text
    | none => .error .notText

/-- Whether a path leads to a file. -/
def isFile (tree : FileTree) (path : String) : Bool :=
  match tree.read path with
  | .ok _ => true
  | .error _ => false

/-! ## Changing -/

/-- Puts a node at a way, in place of what stands there. -/
def set (tree : FileTree) (way : Way) (node : Node) : FileTree :=
  { tree with entries := go tree.entries }
where
  /-- Puts the node into the list of entries. -/
  go : List (Way × Node) → List (Way × Node)
    | [] => [(way, node)]
    | entry :: rest => if entry.1 = way then (way, node) :: rest else entry :: go rest

/-- The place where a new file would stand.  Its directory has to be there. -/
def newPlace (tree : FileTree) (path : String) : Except FileError Way :=
  let parts := Path.parts path
  let named := (parts.reverse.dropWhile (· == [])).reverse
  match named.getLast? with
  | none => .error .notFound
  | some name =>
    match named.dropLast.foldlM (step tree) (tree.origin path) with
    | .error e => .error e
    | .ok way =>
      match tree.node? way with
      | some .directory =>
        if Path.isIdle name || name == ['.', '.'] then .error .notFound
        else if named.length < parts.length then .error .isDirectory
        else .ok (way ++ [name])
      | some (.file _) => .error .notDirectory
      | none => .error .notFound

/-- Writes a text to a file, which is made if it is not there. -/
def writeText (tree : FileTree) (path text : String) : Except FileError FileTree :=
  match follow tree path with
  | .ok way =>
    match tree.node? way with
    | some (.file _) => .ok (tree.set way (.file text.toUTF8))
    | _ => .error .isDirectory
  | .error .notFound =>
    match tree.newPlace path with
    | .ok way => .ok (tree.set way (.file text.toUTF8))
    | .error e => .error e
  | .error e => .error e

/-- Takes a file away. -/
def remove (tree : FileTree) (path : String) : FileTree :=
  match follow tree path with
  | .ok way =>
    match tree.node? way with
    | some (.file _) => { tree with entries := tree.entries.filter (·.1 != way) }
    | _ => tree
  | .error _ => tree

/-- Makes a directory unless something stands there. -/
def makeDirectory (tree : FileTree) (way : Way) : FileTree :=
  if (tree.node? way).isSome then tree else tree.set way .directory

/-- Where a path leads if all directories on it are there. -/
def target (tree : FileTree) (path : String) : Way :=
  (Path.parts path).foldl
    (fun way part =>
      if Path.isIdle part then way else if part = ['.', '.'] then way.dropLast else way ++ [part])
    (tree.origin path)

/-- Places a node at a path and makes the directories above it. -/
def put (tree : FileTree) (path : String) (node : Node) : FileTree :=
  let way := tree.target path
  (((List.range way.length).map way.take).foldl makeDirectory tree).set way node

/-- The files below the working directory that are new in a tree or differ from those of an earlier
tree, under their paths. -/
def changedFrom (tree earlier : FileTree) : List (String × ByteArray) :=
  tree.entries.filterMap fun (way, node) =>
    match node with
    | .file content =>
      if earlier.node? way = some node || !tree.workingDirectory.isPrefixOf way then none
      else some (String.ofList (Path.unite (way.drop tree.workingDirectory.length)), content)
    | .directory => none

end FileTree

end MettaSchema
