import ControlStore.Run

/-! The command line program: the surroundings of a run are the files, the input and the error
stream of the process. -/
namespace ControlStore
namespace Main

/-- A run on the disk, whose log goes down to a level. -/
abbrev OnDisk : Type → Type := ReaderT Level IO

def faultOf : IO.Error → FileFault
  | .noFileOrDirectory .. => .notFound
  | .alreadyExists .. => .alreadyExists
  | .resourceBusy .. => .busy
  | .unsatisfiedConstraints .. => .notEmpty
  | .inappropriateType _ 20 _ => .notDirectory
  | .inappropriateType _ 21 _ => .isDirectory
  | e => .other (toString e)

def attempt {α : Type} (act : IO α) : OnDisk (Except FileFault α) := do
  match ← act.toBaseIO with
  | .ok a => return .ok a
  | .error e => return .error (faultOf e)

def readFile (path : String) : OnDisk (Except FileFault (Except FileFault ByteArray)) := do
  match ← attempt (IO.FS.Handle.mk path .read) with
  | .error fault => return .error fault
  | .ok h => return .ok (← attempt h.readBinToEnd)

partial def readStream (s : IO.FS.Stream) (seen : ByteArray) : IO ByteArray := do
  let more ← s.read 65536
  if more.isEmpty then return seen else readStream s (seen ++ more)

/-- The path of the directory that holds the last name of a path. -/
def parentPath (path : String) : String :=
  match path.toList.reverse.dropWhile (· ≠ '/') with
  | [] => "."
  | front => String.ofList front.reverse

/-- Whether a path is the name of a file that can be read, and not of a link to one. -/
def isPlainFile (path : String) : OnDisk (Except FileFault Bool) := do
  match ← readFile path with
  | .error fault => return .error fault
  | .ok (.error _) => return .ok false
  | .ok (.ok _) =>
    attempt do
      let whole := toString (← IO.FS.realPath path)
      let parent := toString (← IO.FS.realPath (parentPath path))
      return Path.names whole = Path.names parent ++ (Path.names path).getLast?.toList

instance : Storage OnDisk where
  isRegular := isPlainFile
  isPresent path := return (← readFile path).toBool
  read := readFile
  write path contents := attempt (IO.FS.writeFile path contents)
  rename oldPath newPath := attempt (IO.FS.rename oldPath newPath)
  remove path := attempt (IO.FS.removeFile path)
  standardInput := attempt (do readStream (← IO.getStdin) .empty)
  report event := do
    if event.level.isShownAt (← read) then IO.eprintln event.record

def explain : Usage → String
  | .help => CommandLine.helpText
  | .version => CommandLine.versionText
  | .unknownArgument => "error: unexpected argument"
  | .missingValue => "error: a value is required"
  | .unexpectedValue => "error: unexpected value"
  | .badValue => "error: invalid value"
  | .conflict => "error: arguments cannot be used together or more than once"

end Main
end ControlStore

open ControlStore in
def main (args : List String) : IO UInt32 := do
  match CommandLine.parse args with
  | .error usage =>
    if usage.exitStatus = 0 then IO.print (Main.explain usage)
    else IO.eprintln (Main.explain usage)
    return usage.exitStatus.toUInt32
  | .ok c =>
    match ← (run c : Main.OnDisk _).run c.logLevel with
    | .ok text =>
      IO.print text
      return 0
    | .error e =>
      IO.eprintln e.message
      return e.exitStatus.toUInt32
