import AsmLinker.Token.Source

/-!
# File trees

The files and directories that the program can see, as a finite map from locations. A path is
resolved to a location component by component, and every directory on the way has to be there.
Paths and their components are limited in length.
-/

namespace AsmLinker

/-- What stands at a location. -/
inductive FileNode where
  | file (contents : List UInt8)
  | directory
deriving DecidableEq

/-- Why a file cannot be used. -/
inductive FileFault where
  | notFound
  | notDirectory
  | isDirectory
  | nameTooLong
  | notUtf8
deriving DecidableEq

/-- The wording of a fault. -/
def FileFault.message : FileFault → String
  | .notFound => "No such file or directory (os error 2)"
  | .notDirectory => "Not a directory (os error 20)"
  | .isDirectory => "Is a directory (os error 21)"
  | .nameTooLong => "File name too long (os error 36)"
  | .notUtf8 => "stream did not contain valid UTF-8"

/-- Files and directories by location. A location lists the components of a path from the working
directory; an absolute one has `/` in front, and `..` in front leads out of the working
directory. -/
structure FileTree where
  /-- What is known of each location. Directories on the way to one need no entry. -/
  entries : List (List String × FileNode)
deriving DecidableEq

namespace FileTree

/-- The tree without files. -/
def empty : FileTree :=
  ⟨[]⟩

/-- Cuts a text at every slash. -/
def splitSlashes : List Char → List (List Char)
  | [] => [[]]
  | c :: rest =>
    match splitSlashes rest with
    | [] => [[c]]
    | part :: parts => if c = '/' then [] :: part :: parts else (c :: part) :: parts

/-- The components of a path, between its slashes. -/
def components (path : String) : List String :=
  (splitSlashes path.toList).map String.ofList

/-- Directories that are always there: the working directory, those above it, and the root. -/
def isRoot (location : List String) : Bool :=
  location.all (· == "..") || location == ["/"]

/-- What stands at a location. -/
def node? (t : FileTree) (location : List String) : Option FileNode :=
  match t.entries.lookup location with
  | some node => some node
  | none =>
    if isRoot location || t.entries.any (fun entry => location.isPrefixOf entry.1) then
      some .directory
    else none

/-- Puts something at a location. -/
def put (t : FileTree) (location : List String) (node : FileNode) : FileTree :=
  ⟨t.entries.filter (fun entry => entry.1 ≠ location) ++ [(location, node)]⟩

/-- The directory above a location. -/
def parent (location : List String) : List String :=
  if location.all (· == "..") then location ++ [".."]
  else if location = ["/"] then location
  else location.dropLast

/-- The location that a component leads to from another, whatever stands there. -/
def step (location : List String) (name : String) : List String :=
  if name = "" ∨ name = "." then location
  else if name = ".." then parent location
  else location ++ [name]

/-- The most bytes that a component of a path can have. -/
def maxNameSize : Nat :=
  255

/-- The most bytes that a path can have. -/
def maxPathSize : Nat :=
  4095

/-- Whether a location is a directory, and if not, what is wrong with going on from it. -/
def expectDirectory (t : FileTree) (location : List String) : Except FileFault Unit :=
  match t.node? location with
  | none => .error .notFound
  | some (.file _) => .error .notDirectory
  | some .directory => .ok ()

/-- Goes from a location, which must be a directory, to one of its components. -/
def enter (t : FileTree) (location : List String) (name : String) :
    Except FileFault (List String) :=
  match t.expectDirectory location with
  | .error fault => .error fault
  | .ok () =>
    if maxNameSize < name.utf8ByteSize then .error .nameTooLong else .ok (step location name)

/-- Goes from a location through components. -/
def walk (t : FileTree) : List String → List String → Except FileFault (List String)
  | location, [] => .ok location
  | location, name :: names =>
    match t.enter location name with
    | .error fault => .error fault
    | .ok location => walk t location names

/-- Where a path starts, and the components behind that. -/
def start (path : String) : List String × List String :=
  match components path with
  | "" :: names => (["/"], names)
  | names => ([], names)

/-- What is wrong with a path as a text: it must not be empty nor too long. -/
def pathFault? (path : String) : Option FileFault :=
  if path = "" then some .notFound
  else if maxPathSize < path.utf8ByteSize then some .nameTooLong
  else none

/-- The location of a path. -/
def locate (t : FileTree) (path : String) : Except FileFault (List String) :=
  match pathFault? path with
  | some fault => .error fault
  | none =>
    let (location, names) := start path
    t.walk location names

/-- What stands at a path. -/
def find (t : FileTree) (path : String) : Except FileFault FileNode :=
  match t.locate path with
  | .error fault => .error fault
  | .ok location =>
    match t.node? location with
    | none => .error .notFound
    | some node => .ok node

/-- Whether a file stands at a path. -/
def isFile (t : FileTree) (path : String) : Bool :=
  match t.find path with
  | .ok (.file _) => true
  | _ => false

/-- The text of a file. -/
def readText (t : FileTree) (path : String) : Except FileFault String :=
  match t.find path with
  | .error fault => .error fault
  | .ok .directory => .error .isDirectory
  | .ok (.file contents) =>
    match String.fromUTF8? ⟨contents.toArray⟩ with
    | some text => .ok text
    | none => .error .notUtf8

/-- The bytes at a path as a source. A directory can be opened, but the first read of it fails. -/
def source (t : FileTree) (path : String) : Except FileFault Source :=
  match t.find path with
  | .error fault => .error fault
  | .ok .directory => .ok { rest := [.fault FileFault.isDirectory.message] }
  | .ok (.file contents) => .ok (.ofBytes contents)

/-- The location at which a file of the given path would be made: its directory must be there, and
no directory may be in its place. A path that can only name a directory is refused before its last
component is looked at. -/
def creatable (t : FileTree) (path : String) : Except FileFault (List String) :=
  match pathFault? path with
  | some fault => .error fault
  | none =>
    let (location, names) := start path
    match names.reverse.dropWhile (· == "") with
    | [] => .error .isDirectory
    | last :: front =>
      match t.walk location front.reverse with
      | .error fault => .error fault
      | .ok directory =>
        match t.expectDirectory directory with
        | .error fault => .error fault
        | .ok () =>
          if names.getLast? = some "" ∨ last = "." ∨ last = ".." then .error .isDirectory
          else
            match t.enter directory last with
            | .error fault => .error fault
            | .ok location =>
              if t.node? location = some .directory then .error .isDirectory else .ok location

/-- Makes a directory at a location where nothing stands. -/
def ensureDirectory (t : FileTree) (location : List String) : FileTree :=
  if t.node? location = none then t.put location .directory else t

/-- Goes from a location through components and makes the directories that are missing on the way.
Answers the tree with them and the location that was reached. -/
def makeDirectories (t : FileTree) : List String → List String → FileTree × List String
  | location, [] => (t, location)
  | location, name :: names =>
    makeDirectories (t.ensureDirectory (step location name)) (step location name) names

/-- Puts something at a path, with the directories on the way to it. -/
def add (t : FileTree) (path : String) (node : FileNode) : FileTree :=
  let (location, names) := start path
  let (t, directory) := t.makeDirectories location names.dropLast
  t.put (step directory (names.getLastD "")) node

/-- Puts something at each of a list of paths. -/
def addAll (t : FileTree) (nodes : List (String × FileNode)) : FileTree :=
  nodes.foldl (fun t (path, node) => t.add path node) t

end FileTree

end AsmLinker
