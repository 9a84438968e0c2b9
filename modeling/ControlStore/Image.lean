import ControlStore.Allocation

/-! The image for the simulator: one line per program, holding its words in step order. A line may
end in a comment, which the reader skips. -/
namespace ControlStore
namespace Image

def note (p : Placement) : String :=
  s!" // {p.name} @ {p.base}"

def line (program : EncodedProgram) (placement : Option Placement) : String :=
  " ".intercalate (program.words.map (·.hex)) ++ (placement.map note).getD ""

/-- Write the image, annotated if an allocation is given. -/
def render (programs : List EncodedProgram) (annotations : Option Allocation) : String :=
  Text.unlines <| programs.zipIdx.map fun (program,i) =>
    line program (annotations.bind (·.placements[i]?))

inductive Fault
  | notEightDigits (word : String)
  | notHexadecimal (word : String)
  deriving DecidableEq, Repr

namespace Fault

def message : Fault → String
  | notEightDigits word => s!"Word '{word}' is not 8 hex digits"
  | notHexadecimal word => s!"Invalid hex word '{word}'"

end Fault

/-- The fault of a line, counted from one. -/
structure Error where
  line : Nat
  fault : Fault
  deriving DecidableEq, Repr

namespace Error

def message (e : Error) : String :=
  s!"Error on line {e.line}: {e.fault.message}"

end Error

def byteCount (cs : List Char) : Nat :=
  (String.ofList cs).utf8ByteSize

/-- Read one word of eight bytes. -/
def readWord (cs : List Char) : Except Fault ControlWord :=
  if byteCount cs ≠ 8 then .error (.notEightDigits (String.ofList cs))
  else
    match ControlWord.ofHex? cs with
    | none => .error (.notHexadecimal (String.ofList cs))
    | some w => .ok w

/-- Read the words before the comment of a line. -/
def readLine (cs : List Char) : Except Fault (List ControlWord) :=
  (Text.words (Text.before "//".toList cs)).mapM readWord

def read (text : String) : Except Error (List (List ControlWord)) :=
  ((Text.lines text).zipIdx 1).mapM fun (cs,n) => (readLine cs).mapError (⟨n,·⟩)

end Image
end ControlStore
