import ControlStore.Text

/-! A tree of files, directories and symbolic links, how a path is followed through it, and the
operations on it. Each operation either changes the tree as a whole or refuses and leaves it as it
was. -/
namespace ControlStore

inductive FileFault
  | notFound
  | busy
  | alreadyExists
  | notDirectory
  | isDirectory
  | invalid
  | nameTooLong
  | notEmpty
  | tooManyLinks
  | notRegular
  | nulInName
  | other (text : String)
  deriving DecidableEq, Repr

namespace FileFault

def message : FileFault → String
  | notFound => "No such file or directory (os error 2)"
  | busy => "Device or resource busy (os error 16)"
  | alreadyExists => "File exists (os error 17)"
  | notDirectory => "Not a directory (os error 20)"
  | isDirectory => "Is a directory (os error 21)"
  | invalid => "Invalid argument (os error 22)"
  | nameTooLong => "File name too long (os error 36)"
  | notEmpty => "Directory not empty (os error 39)"
  | tooManyLinks => "Too many levels of symbolic links (os error 40)"
  | notRegular => "not a regular file"
  | nulInName => "file name contained an unexpected NUL byte"
  | other text => text

end FileFault

/-- The names from the root down to an entry. -/
abbrev Location : Type := List String

/-- Contents are compared as machine arrays. -/
instance (priority := 1100) decidableEqContents : DecidableEq ByteArray := ByteArray.decEq

inductive Entry
  | file (contents : ByteArray)
  | directory
  | link (target : String)
  deriving DecidableEq

/-- The entries below the root, and the directory where relative paths start. -/
structure FileTree where
  entries : List (Location × Entry) := []
  start : Location := []
  deriving DecidableEq

namespace FileTree

/-- What a location holds. The root is always a directory. -/
def find? (t : FileTree) (l : Location) : Option Entry :=
  if l = [] then some .directory else t.entries.lookup l

def erase (t : FileTree) (l : Location) : FileTree :=
  { t with entries := t.entries.filter (·.1 ≠ l) }

def insert (t : FileTree) (l : Location) (e : Entry) : FileTree :=
  { t with entries := (l,e) :: (t.erase l).entries }

/-- The location that `l` has once `old` is called `new`. -/
def rebase (old new l : Location) : Location :=
  if old.isPrefixOf l then new ++ l.drop old.length else l

/-- Move an entry, with all that lies below it, onto a location. -/
def move (t : FileTree) (old new : Location) : FileTree :=
  { t with entries := (t.erase new).entries.map fun (l,e) => (rebase old new l,e) }

def isEmptyAt (t : FileTree) (l : Location) : Bool :=
  t.entries.all fun (l',_) => l' = l || !l.isPrefixOf l'

end FileTree

namespace Path

def isAbsolute (path : String) : Bool :=
  path.toList.head? = some '/'

def endsInSlash (path : String) : Bool :=
  path.toList.getLast? = some '/'

def names (path : String) : List String :=
  ((path.toList.splitOn '/').filter (· ≠ [])).map String.ofList

/-- The names along a path, with an empty one at the end of a path that ends in a slash. -/
def steps (path : String) : List String :=
  names path ++ if endsInSlash path then [""] else []

/-- A path in bytes and a name in bytes have these greatest lengths. -/
def maxLength : Nat := 4095

def maxNameLength : Nat := 255

def check (path : String) : Except FileFault Unit :=
  if path.toList.contains '\x00' then .error .nulInName
  else if path.isEmpty then .error .notFound
  else if maxLength < path.utf8ByteSize then .error .nameTooLong
  else .ok ()

def maxLinks : Nat := 40

end Path

/-- What becomes of the last name of a path. -/
inductive Walk
  /-- Follow a link. -/
  | follow
  /-- Stop at a link. -/
  | keepLink
  /-- Follow a link, and refuse a name that is written as a directory. -/
  | create
  deriving DecidableEq, Repr

/-- Where a path leads: to an entry, or to a free name in a directory. -/
inductive Ending
  | present (location : Location)
  | absent (location : Location)
  deriving DecidableEq, Repr

namespace FileTree

/-- Follow the names of a path from a location. `jump` continues at the target of a link. -/
def walkWith (t : FileTree) (walk : Walk)
    (jump : Location → List String → Except FileFault Ending) :
    Location → List String → Except FileFault Ending
  | here, [] => .ok (.present here)
  | here, name :: rest =>
    if t.find? here ≠ some .directory then .error .notDirectory
    else if name = "" ∨ name = "." then t.walkWith walk jump here rest
    else if name = ".." then t.walkWith walk jump here.dropLast rest
    else if walk = .create ∧ rest = [""] then .error .isDirectory
    else if Path.maxNameLength < name.utf8ByteSize then .error .nameTooLong
    else
      match t.find? (here ++ [name]) with
      | none => if rest = [] then .ok (.absent (here ++ [name])) else .error .notFound
      | some (.link target) =>
        if rest = [] ∧ walk = .keepLink then .ok (.present (here ++ [name]))
        else jump (if Path.isAbsolute target then [] else here) (Path.steps target ++ rest)
      | some _ => t.walkWith walk jump (here ++ [name]) rest

def walkFrom (t : FileTree) (walk : Walk) : (links : Nat) →
    Location → List String → Except FileFault Ending
  | 0 => t.walkWith walk fun _ _ => .error .tooManyLinks
  | links + 1 => t.walkWith walk (t.walkFrom walk links)

def origin (t : FileTree) (path : String) : Location :=
  if Path.isAbsolute path then [] else t.start

def resolve (t : FileTree) (walk : Walk) (path : String) : Except FileFault Ending := do
  Path.check path
  t.walkFrom walk Path.maxLinks (t.origin path) (Path.steps path)

end FileTree

/-- The directory that holds the last name of a path, and that name, unless the path ends in a dot
name or is the root. -/
structure Slot where
  directory : Location
  name : Option String
  slash : Bool
  deriving DecidableEq, Repr

namespace FileTree

def lastName? (path : String) : Option String :=
  (Path.names path).getLast?.filter fun name => name ≠ "." ∧ name ≠ ".."

/-- Find the directory of the last name of a path, without looking at what that name holds. -/
def slot (t : FileTree) (path : String) : Except FileFault Slot := do
  Path.check path
  match ← t.walkFrom .follow Path.maxLinks (t.origin path) ((Path.names path).dropLast ++ [""]) with
  | .present directory => return ⟨directory,lastName? path,Path.endsInSlash path⟩
  | .absent _ => throw .notFound

def entryAt (t : FileTree) (directory : Location) (name : String) :
    Except FileFault (Option Entry) :=
  if Path.maxNameLength < name.utf8ByteSize then .error .nameTooLong
  else .ok (t.find? (directory ++ [name]))

/-- What a path leads to, links not followed. -/
def entryOf (t : FileTree) (path : String) : Except FileFault Entry := do
  match ← t.resolve .keepLink path with
  | .absent _ => throw .notFound
  | .present l =>
    match t.find? l with
    | none => throw .notFound
    | some e => return e

def isPresent (t : FileTree) (path : String) : Bool :=
  match t.resolve .follow path with
  | .ok (.present _) => true
  | _ => false

/-- Open a path and read what it leads to. A directory opens, but cannot be read. -/
def read (t : FileTree) (path : String) : Except FileFault (Except FileFault ByteArray) := do
  match ← t.resolve .follow path with
  | .absent _ => throw .notFound
  | .present l =>
    match t.find? l with
    | some (.file contents) => return .ok contents
    | some .directory => return .error .isDirectory
    | _ => throw .notFound

/-- Replace the contents of a file, or create it. A link is written through. -/
def write (t : FileTree) (path : String) (contents : ByteArray) : Except FileFault FileTree := do
  match ← t.resolve .create path with
  | .absent l => return t.insert l (.file contents)
  | .present l =>
    if t.find? l = some .directory then throw .isDirectory
    else return t.insert l (.file contents)

def remove (t : FileTree) (path : String) : Except FileFault FileTree := do
  let s ← t.slot path
  match s.name with
  | none => throw .isDirectory
  | some name =>
    match ← t.entryAt s.directory name with
    | none => throw .notFound
    | some .directory => throw .isDirectory
    | some _ => if s.slash then throw .notDirectory else return t.erase (s.directory ++ [name])

/-- Whether an entry may take the place of another: files and links replace each other, and a
directory replaces an empty directory. -/
def checkReplace (t : FileTree) (entry : Entry) (new : Location) :
    Option Entry → Except FileFault Unit
  | none => .ok ()
  | some .directory =>
    if entry ≠ .directory then .error .isDirectory
    else if t.isEmptyAt new then .ok ()
    else .error .notEmpty
  | some _ => if entry = .directory then .error .notDirectory else .ok ()

/-- Give an entry a new path, in place of what the new path holds. A link is moved itself. -/
def rename (t : FileTree) (oldPath newPath : String) : Except FileFault FileTree := do
  if newPath.toList.contains '\x00' then throw .nulInName
  let old ← t.slot oldPath
  let new ← t.slot newPath
  match old.name, new.name with
  | some oldName, some newName =>
    let source := old.directory ++ [oldName]
    let target := new.directory ++ [newName]
    match ← t.entryAt old.directory oldName with
    | none => throw .notFound
    | some entry =>
      let occupant ← t.entryAt new.directory newName
      if entry ≠ .directory ∧ (old.slash ∨ new.slash) then throw .notDirectory
      if source.isPrefixOf new.directory then throw .invalid
      if target.isPrefixOf old.directory then throw .notEmpty
      if source = target then return t
      t.checkReplace entry target occupant
      return t.move source target
  | _, _ => throw .busy

end FileTree
end ControlStore
