import ControlStore.Compile

/-! Writing the two artifacts together. Both are staged beside their targets and then swapped in; if
one swap fails, the earlier ones are taken back. This is written for any surroundings that have
files, an input and a log; a tree of files in memory is one of them. -/
namespace ControlStore

/-- Surroundings with files, an input and a log. Opening and reading a file fail apart. -/
class Storage (m : Type → Type) where
  /-- Whether a path leads to a regular file, links not followed. -/
  isRegular (path : String) : m (Except FileFault Bool)
  /-- Whether a path leads anywhere, links followed. -/
  isPresent (path : String) : m Bool
  read (path : String) : m (Except FileFault (Except FileFault ByteArray))
  write (path contents : String) : m (Except FileFault Unit)
  rename (oldPath newPath : String) : m (Except FileFault Unit)
  remove (path : String) : m (Except FileFault Unit)
  standardInput : m (Except FileFault ByteArray)
  report (event : Event) : m Unit

/-- Surroundings in memory: a tree of files, the bytes of the input, and the log so far. -/
structure World where
  files : FileTree
  input : ByteArray := .empty
  events : List Event := []

namespace World

def change (w : World) : Except FileFault FileTree → Except FileFault Unit × World
  | .ok files => (.ok (),{ w with files })
  | .error fault => (.error fault,w)

end World

def Entry.isFile : Entry → Bool
  | file _ => true
  | directory | link _ => false

instance : Storage (StateM World) where
  isRegular path w := ((w.files.entryOf path).map (·.isFile),w)
  isPresent path w := (w.files.isPresent path,w)
  read path w := (w.files.read path,w)
  write path contents w := w.change (w.files.write path contents.toUTF8)
  rename oldPath newPath w := w.change (w.files.rename oldPath newPath)
  remove path w := w.change (w.files.remove path)
  standardInput w := (.ok w.input,w)
  report event w := ((),{ w with events := w.events ++ [event] })

namespace Output

variable {m : Type → Type} [Monad m] [Storage m]

/-- The name under which new contents wait. -/
def stagingPath (path : String) : String := path ++ ".tmp"

/-- The name under which old contents are kept until all swaps are done. -/
def backupPath (path : String) : String := path ++ ".bak"

/-- A target may be missing or a regular file; nothing else can be replaced. -/
def checkTarget (path : String) : m (Except Error Unit) := do
  match ← Storage.isRegular path with
  | .ok true => return .ok ()
  | .ok false => return .error (.file path .notRegular)
  | .error .notFound => return .ok ()
  | .error fault => return .error (.file path fault)

def checkTargets : List String → m (Except Error Unit)
  | [] => return .ok ()
  | path :: paths => do
    match ← checkTarget path with
    | .error e => return .error e
    | .ok () => checkTargets paths

def discard (path : String) : m Unit := do
  match ← Storage.remove path with
  | .ok () | .error .notFound => return ()
  | .error fault => Storage.report (.notRemoved path fault)

def restore (path backup : String) : m Unit := do
  match ← Storage.rename backup path with
  | .ok () => return ()
  | .error fault => Storage.report (.notRestored path fault)

/-- Keep what a target holds under its backup name, and tell that name. -/
def moveAside (path : String) : m (Except Error (Option String)) := do
  if ← Storage.isPresent path then
    match ← Storage.rename path (backupPath path) with
    | .ok () => return .ok (some (backupPath path))
    | .error fault => return .error (.file path fault)
  else return .ok none

/-- Move staged contents onto their target, and tell the backup of what the target held. -/
def swapIn (staged path : String) : m (Except Error (Option String)) := do
  match ← moveAside path with
  | .error e => return .error e
  | .ok backup =>
    match ← Storage.rename staged path with
    | .ok () => return .ok backup
    | .error fault =>
      match backup with
      | none => return .error (.file path fault)
      | some b =>
        restore path b
        return .error (.file path fault)

def undo (path : String) : Option String → m Unit
  | none => discard path
  | some backup => restore path backup

/-- Swap in the rest of a batch, of which `done` has been swapped in, latest first. -/
def commitFrom (done : List (String × Option String)) :
    List (String × String) → m (Except Error Unit)
  | [] => do
    done.reverse.forM fun (_,backup) => backup.forM discard
    return .ok ()
  | (staged,path) :: rest => do
    match ← swapIn staged path with
    | .ok backup => commitFrom ((path,backup) :: done) rest
    | .error e =>
      discard staged
      rest.forM fun (staged,_) => discard staged
      done.forM fun (path,backup) => undo path backup
      return .error e

def commit (batch : List (String × String)) : m (Except Error Unit) :=
  commitFrom [] batch

/-- Stage the rest of the contents, of which `done` is staged already. -/
def stageFrom (done : List (String × String)) :
    List (String × String) → m (Except Error (List (String × String)))
  | [] => return .ok done
  | (path,contents) :: rest => do
    match ← Storage.write (stagingPath path) contents with
    | .ok () => stageFrom (done ++ [(stagingPath path,path)]) rest
    | .error fault =>
      discard (stagingPath path)
      done.forM fun (staged,_) => discard staged
      return .error (.file (stagingPath path) fault)

def stage (outputs : List (String × String)) : m (Except Error (List (String × String))) :=
  stageFrom [] outputs

structure Paths where
  image : String
  table : String
  deriving DecidableEq, Repr

def Paths.ofStem (stem : String) : Paths := ⟨stem ++ ".hex",stem ++ ".sv"⟩

/-- Write image and table under a stem, both or none. -/
def writeArtifacts (stem image table : String) : m (Except Error Paths) := do
  let paths := Paths.ofStem stem
  match ← checkTargets [paths.image,paths.table] with
  | .error e => return .error e
  | .ok () =>
    match ← stage [(paths.image,image),(paths.table,table)] with
    | .error e => return .error e
    | .ok batch =>
      match ← commit batch with
      | .error e => return .error e
      | .ok () =>
        Storage.report (.wrote paths.image)
        Storage.report (.wrote paths.table)
        return .ok paths

end Output
end ControlStore
