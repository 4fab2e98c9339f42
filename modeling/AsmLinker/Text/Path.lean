/-!
# File paths

Paths are plain text with `/` between components. This module joins two paths and replaces the
extension of a path's last component, on the text alone.
-/

namespace AsmLinker.Path

/-- `path` taken relative to `dir`: an absolute path stands for itself, and otherwise a `/` is put
between the two unless `dir` is empty or ends in one. -/
def join (dir path : String) : String :=
  if path.toList.head? = some '/' then path
  else if dir = "" ∨ dir.toList.getLast? = some '/' then dir ++ path
  else dir ++ "/" ++ path

/-- Drops trailing `/` and trailing `.` components that stand behind a `/`. The list is the path
read backwards. -/
def dropTrailing : List Char → List Char
  | '/' :: rest => dropTrailing rest
  | '.' :: '/' :: rest => dropTrailing rest
  | cs => cs

/-- The text of a path up to its file name, and the file name: the last component, trailing `/` and
`/.` ignored. There is none when the last component is missing, `..`, or the path is only `.`. -/
def splitFileName (path : String) : Option (List Char × List Char) :=
  let backwards := dropTrailing path.toList.reverse
  let name := (backwards.takeWhile (· ≠ '/')).reverse
  let front := (backwards.dropWhile (· ≠ '/')).reverse
  if name = [] ∨ name = ['.'] ∨ name = ['.', '.'] then none else some (front, name)

/-- A file name without its extension: the part before its last `.`, unless that `.` is missing or
is the first character. -/
def stem (name : List Char) : List Char :=
  match (name.reverse.dropWhile (· ≠ '.')).reverse.dropLast with
  | [] => name
  | front => front

/-- The path with the extension of its file name replaced, or added when it has none; a path
without a file name stays as it is. The old extension goes first: a path that ends in a name with
the stem `.` becomes one that ends in `..`, which names no file and takes no extension. -/
def withExtension (path extension : String) : String :=
  match splitFileName path with
  | none => path
  | some (front, name) =>
    if stem name = ['.'] ∧ front ++ name = path.toList then String.ofList front ++ ".."
    else String.ofList (front ++ stem name) ++ "." ++ extension

end AsmLinker.Path
