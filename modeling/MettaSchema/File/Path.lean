/-!
# Paths

A path is a text; slashes separate its parts.  Empty parts and single dots count for
nothing, except that a path can begin with a dot.  Nothing here looks at the disk.

* `Path.parts` — the texts between the slashes.
* `Path.fileName?`, `Path.parent?` — the last part, and the path without it.
* `Path.join` — a path in a directory.
* `Path.withExtension` — the path with another extension of the last part.
-/

namespace MettaSchema

namespace Path

/-- The texts between the slashes of a path. -/
def split : List Char → List (List Char)
  | [] => [[]]
  | c :: s =>
    match split s with
    | [] => [[c]]
    | part :: more => if c = '/' then [] :: part :: more else (c :: part) :: more

/-- Texts with slashes in between. -/
def unite : List (List Char) → List Char
  | [] => []
  | [part] => part
  | part :: next :: more => part ++ '/' :: unite (next :: more)

/-- The texts between the slashes of a path. -/
def parts (path : String) : List (List Char) :=
  split path.toList

/-- Whether a path starts at the root of all directories. -/
def isAbsolute (path : String) : Bool :=
  path.toList.head? == some '/'

/-- Whether a part counts for nothing. -/
def isIdle (part : List Char) : Bool :=
  part == [] || part == ['.']

/-- The parts of a path without idle ones at its end. -/
def dropIdleEnd (parts : List (List Char)) : List (List Char) :=
  (parts.reverse.dropWhile isIdle).reverse

/-- The last part of a path, if that names a file. -/
def fileName? (path : String) : Option String :=
  match (dropIdleEnd (parts path)).getLast? with
  | none => none
  | some part => if part = ['.', '.'] then none else some (String.ofList part)

/-- A path without its last part, if it has one.  A path that begins with a slash or
with a dot keeps that. -/
def parent? (path : String) : Option String :=
  match parts path with
  | first :: body =>
    if isAbsolute path then
      match dropIdleEnd body with
      | [] => none
      | kept => some (String.ofList ('/' :: unite (dropIdleEnd kept.dropLast)))
    else if first = ['.'] then
      match dropIdleEnd body with
      | [] => some ""
      | kept => some (String.ofList (unite (['.'] :: dropIdleEnd kept.dropLast)))
    else
      match dropIdleEnd (first :: body) with
      | [] => none
      | kept => some (String.ofList (unite (dropIdleEnd kept.dropLast)))
  | [] => none

/-- A path in a directory.  An absolute path stands for itself, and so does any path in
the directory without a name. -/
def join (directory path : String) : String :=
  if isAbsolute path || directory == "" then path
  else if directory.toList.getLast? == some '/' then directory ++ path
  else directory ++ "/" ++ path

/-- The part of a file name before its last dot.  A name without a dot, or with only a
leading one, has no extension. -/
def stem (name : List Char) : List Char :=
  match (name.reverse.dropWhile (· != '.')).drop 1 with
  | [] => name
  | kept => kept.reverse

/-- The path with another extension of its last part. -/
def withExtension (path extension : String) : String :=
  match fileName? path with
  | none => path
  | some name =>
    let kept := (dropIdleEnd (parts path)).dropLast
    String.ofList (unite (kept ++ [stem name.toList ++ '.' :: extension.toList]))

end Path

end MettaSchema
