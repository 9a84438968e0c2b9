import ControlStore.ControlUnit
import ControlStore.Files

/-! Microcode source. A line is cut at the first `#` and trimmed; its first character says what it
is, without regard to the lines before it. A reader takes in lines one by one and can be fed a source
in pieces; what it accepted before an error stays. -/
namespace ControlStore
namespace Source

inductive ReadFault
  | notText
  | device (fault : FileFault)
  deriving DecidableEq, Repr

namespace ReadFault

def message : ReadFault → String
  | notText => "stream did not contain valid UTF-8"
  | device fault => fault.message

end ReadFault

/-- The markers whose lines need a name. -/
inductive Marker
  | declaration
  | reset
  | program
  deriving DecidableEq, Repr

namespace Marker

def char : Marker → Char
  | declaration => '@'
  | reset => '!'
  | program => ':'

def noun : Marker → String
  | declaration => "control line"
  | reset => "reset signal"
  | program => "program name"

end Marker

inductive NameKind
  | signal
  | program
  deriving DecidableEq, Repr

namespace NameKind

def noun : NameKind → String
  | signal => "control line"
  | program => "program"

end NameKind

inductive Fault
  | unreadable (fault : ReadFault)
  | unknownMarker (c : Char)
  | missingName (marker : Marker)
  | severalNames (marker : Marker)
  | notIdentifier (kind : NameKind) (name : String)
  | badBit (bit name : String)
  | secondReset (existing : String)
  | repeatedProgram (name : String)
  | stepBeforeProgram
  deriving DecidableEq, Repr

namespace Fault

def message : Fault → String
  | unreadable fault => s!"Failed to read line: {fault.message}"
  | unknownMarker c => s!"Invalid line start '{c}'"
  | missingName marker => s!"Missing {marker.noun} after '{marker.char}'"
  | severalNames marker => s!"Expected a single {marker.noun} after '{marker.char}'"
  | notIdentifier kind name => s!"Invalid {kind.noun} name '{name}', must be an identifier"
  | badBit bit name => s!"Invalid bit index '{bit}' for control line '{name}'"
  | secondReset existing => s!"Reset signal already designated as '{existing}'"
  | repeatedProgram name => s!"Program '{name}' defined more than once"
  | stepBeforeProgram => "Step defined before any program"

end Fault

/-- Why a line is refused: it is malformed, or it declares a control line that the registry
refuses. -/
inductive Defect
  | malformed (fault : Fault)
  | registration (error : RegisterError)
  deriving DecidableEq, Repr

namespace Defect

def message : Defect → String
  | malformed fault => fault.message
  | registration error => error.message

end Defect

/-- The first line that is refused, counted from one, and its defect. -/
structure Error where
  line : Nat
  defect : Defect
  deriving DecidableEq, Repr

namespace Error

def message (e : Error) : String :=
  s!"Error on line {e.line}: {e.defect.message}"

end Error

/-- One line of source. The terms of a declaration are read one by one when they take effect. -/
inductive Statement
  | blank
  | declare (terms : List String)
  | reset (name : String)
  | program (name : String)
  | step (signals : Step)
  deriving DecidableEq, Repr

structure Declaration where
  name : String
  bit : Option Nat
  deriving DecidableEq, Repr

def bitLimit : Nat := UInt32.size

def checkName (kind : NameKind) (name : String) : Except Fault Unit :=
  if Text.isIdentifier name then .ok () else .error (.notIdentifier kind name)

/-- Read a term of a declaration, `name` or `name:digits`. The bit is checked before the name. -/
def Declaration.read (term : String) : Except Fault Declaration :=
  match Text.cut ':' term.toList with
  | none => do
    checkName .signal term
    return ⟨term,none⟩
  | some (name,digits) =>
    match (Text.readDigits 10 digits).filter (· < bitLimit) with
    | none => .error (.badBit (String.ofList digits) (String.ofList name))
    | some bit => do
      checkName .signal (String.ofList name)
      return ⟨String.ofList name,some bit⟩

def names (cs : List Char) : List String :=
  (Text.words cs).map String.ofList

def singleName (marker : Marker) (kind : NameKind) (cs : List Char) : Except Fault String :=
  match names cs with
  | [] => .error (.missingName marker)
  | [name] => do
    checkName kind name
    return name
  | _ => .error (.severalNames marker)

def content (line : String) : List Char :=
  Text.trim (line.toList.takeWhile (· ≠ '#'))

def Statement.read (line : String) : Except Fault Statement :=
  match content line with
  | [] => .ok .blank
  | '@' :: rest =>
    match names rest with
    | [] => .error (.missingName .declaration)
    | terms => .ok (.declare terms)
  | '!' :: rest => .reset <$> singleName .reset .signal rest
  | ':' :: rest => .program <$> singleName .program .program rest
  | '=' :: rest => do
    (names rest).forM (checkName .signal)
    return .step (names rest)
  | c :: _ => .error (.unknownMarker c)

/-- What has been read so far. `nextBit` is the bit of a control line declared without one. -/
structure Reader where
  lineCount : Nat := 0
  registry : Registry := .empty
  nextBit : Nat := 0
  catalog : Catalog := .empty
  reset : Option String := none
  deriving DecidableEq

namespace Reader

def declare (r : Reader) (term : String) : Except Defect Reader :=
  match Declaration.read term with
  | .error fault => .error (.malformed fault)
  | .ok d =>
    let bit := d.bit.getD r.nextBit
    match r.registry.register d.name bit with
    | .error e => .error (.registration e)
    | .ok registry => .ok { r with registry, nextBit := bit + 1 }

/-- Take in terms up to the first that is refused. -/
def declareAll (r : Reader) : List String → Reader × Except Defect Unit
  | [] => (r,.ok ())
  | term :: terms =>
    match r.declare term with
    | .error d => (r,.error d)
    | .ok r' => r'.declareAll terms

def setReset (r : Reader) (name : String) : Except Fault Reader :=
  match r.reset with
  | some existing => .error (.secondReset existing)
  | none => .ok { r with reset := some name }

def startProgram (r : Reader) (name : String) : Except Fault Reader :=
  match r.catalog.push ⟨name,[]⟩ with
  | .error _ => .error (.repeatedProgram name)
  | .ok catalog => .ok { r with catalog }

def addStep (r : Reader) (step : Step) : Except Fault Reader :=
  if r.catalog.programs = [] then .error .stepBeforeProgram
  else .ok { r with catalog := r.catalog.appendStep step }

/-- The state after a change that either happens or leaves everything as it was. -/
def orElse (r : Reader) : Except Fault Reader → Reader × Except Defect Unit
  | .ok r' => (r',.ok ())
  | .error fault => (r,.error (.malformed fault))

/-- Take in a statement. Of a declaration, the terms before the refused one stay. -/
def apply (r : Reader) : Statement → Reader × Except Defect Unit
  | .blank => (r,.ok ())
  | .declare terms => r.declareAll terms
  | .reset name => r.orElse (r.setReset name)
  | .program name => r.orElse (r.startProgram name)
  | .step step => r.orElse (r.addStep step)

/-- Take in the text of a line, or the news that it cannot be read. -/
def take (r : Reader) (line : Except ReadFault String) : Reader × Except Defect Unit :=
  match line with
  | .error fault => (r,.error (.malformed (.unreadable fault)))
  | .ok text =>
    match Statement.read text with
    | .error fault => (r,.error (.malformed fault))
    | .ok statement => r.apply statement

def readLine (r : Reader) (line : Except ReadFault String) : Reader × Except Error Unit :=
  let counted := { r with lineCount := r.lineCount + 1 }
  let (r',result) := counted.take line
  (r',result.mapError (⟨counted.lineCount,·⟩))

/-- Take in lines up to the first that is refused. -/
def readLines (r : Reader) : List (Except ReadFault String) → Reader × Except Error Unit
  | [] => (r,.ok ())
  | line :: rest =>
    match r.readLine line with
    | (r',.error e) => (r',.error e)
    | (r',.ok ()) => r'.readLines rest

def controlUnit (r : Reader) : ControlUnit :=
  ⟨r.registry,r.catalog,r.reset⟩

end Reader

/-- A line of bytes as text, if it is UTF-8. -/
def decodeLine (bytes : List UInt8) : Except ReadFault String :=
  match String.fromUTF8? bytes.toByteArray with
  | some text => .ok text
  | none => .error .notText

def decodeLines (bytes : ByteArray) : List (Except ReadFault String) :=
  (Text.byteLines bytes.toList).map decodeLine

def Reader.feed (r : Reader) (bytes : ByteArray) : Reader × Except Error Unit :=
  r.readLines (decodeLines bytes)

def readUnit (lines : List (Except ReadFault String)) : Except Error ControlUnit :=
  let (r,result) := Reader.readLines {} lines
  result.map fun _ => r.controlUnit

end Source
end ControlStore
