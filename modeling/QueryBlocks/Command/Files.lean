import QueryBlocks.Command.Path

/-! Files as a command sees them, and files that are only in memory. -/
namespace QueryBlocks

structure FileAccess (m : Type → Type) where
  exists? : String → m Bool
  read : String → m (Except FileError String)
  write : String → String → m (Except FileError Unit)

/-- Where something is: the names on the way from the root. -/
abbrev Place := List String

/-- The place that a name leads to. The root is its own parent. -/
def Place.next (here : Place) : String → Place
  | "." => here
  | ".." => here.dropLast
  | name => here ++ [name]

/-- What is found at a place. -/
inductive Node where
  | file (content : String)
  | directory
  /-- A device that is always empty and keeps nothing that is written to it. -/
  | null
deriving DecidableEq, Repr

/-- Files in memory. A directory is there if the working directory or a file is below it. -/
structure Disk where
  /-- The working directory. -/
  home : Place
  files : List (Place × String)

namespace Disk

/-- Put files into a working directory; their names begin there. -/
def ofFiles (home : Place) (files : List (String × String)) : Disk where
  home
  files := files.map fun (name, content) =>
    (((name.splitOn "/").filter (· != "")).foldl Place.next home, content)

def nullDevice : Place := ["dev", "null"]

def node? (d : Disk) (place : Place) : Option Node :=
  match d.files.lookup place with
  | some content => some (.file content)
  | none =>
    if place = nullDevice then some .null
    else if (d.home :: nullDevice :: d.files.map (·.1)).any place.isPrefixOf then some .directory
    else none

/-- Look a name up in the directory `here`. -/
def step (here : Place) (name : String) : Except FileError Place :=
  if name.utf8ByteSize > Path.maxNameSize then .error .nameTooLong else .ok (here.next name)

/-- Walk on into a directory. -/
def enter (d : Disk) (here : Place) (name : String) : Except FileError Place := do
  let place ← step here name
  match d.node? place with
  | some .directory => return place
  | some _ => throw .notDirectory
  | none => throw .missing

/-- The directory in which the last name of a path is looked up. -/
def parent (d : Disk) (path : Path) : Except FileError Place :=
  path.folders.foldlM d.enter (if path.fromRoot then [] else d.home)

/-- What a path leads to. -/
def find (d : Disk) (text : String) : Except FileError Node := do
  let path ← Path.read text
  let place ← step (← d.parent path) path.last
  match d.node? place with
  | some .directory => return .directory
  | some node => if path.closed then throw .notDirectory else return node
  | none => throw .missing

def exists? (d : Disk) (text : String) : Bool := (d.find text).isOk

def read (d : Disk) (text : String) : Except FileError String := do
  match ← d.find text with
  | .file content => return content
  | .directory => throw .directory
  | .null => return ""

/-- Put a file at a place, instead of one that is there. -/
def put (d : Disk) (place : Place) (content : String) : Disk :=
  { d with files := d.files.filter (·.1 != place) ++ [(place, content)] }

/-- Write a file, which may be a new one. A path that a slash ends is refused as a directory
whether there is one or not. -/
def write (d : Disk) (text content : String) : Except FileError Disk := do
  let path ← Path.read text
  let parent ← d.parent path
  if path.closed then throw .directory
  let place ← step parent path.last
  match d.node? place with
  | some .directory => throw .directory
  | some .null => return d
  | some (.file _) | none => return d.put place content

/-- The files that are directly in the working directory. -/
def listing (d : Disk) : List (String × String) :=
  d.files.filterMap fun (place, content) =>
    match d.home.isPrefixOf? place with
    | some [name] => some (name, content)
    | _ => none

/-- Access to the files in memory. -/
def access : FileAccess (StateM Disk) where
  exists? text := return (← get).exists? text
  read text := return (← get).read text
  write text content := do
    match (← get).write text content with
    | .ok d => set d; return .ok ()
    | .error e => return .error e

end Disk

end QueryBlocks
