import ControlStore.Output
import ControlStore.Rv32i

/-! The command line, and the run it asks for: read a control unit, compile it, write its artifacts.
Arguments are read from left to right. A value that follows its option as a separate argument is
examined when the next option or the end is reached. -/
namespace ControlStore

structure CommandLine where
  input : Option String := none
  builtin : Bool := false
  output : String := "microcode"
  options : Options := {}
  listing : Bool := false
  verbosity : Nat := 0
  deriving DecidableEq, Repr

/-- Why arguments do not start a run. Help and version are asked for, the rest are mistakes. -/
inductive Usage
  | help
  | version
  | unknownArgument
  | missingValue
  | unexpectedValue
  | badValue
  | conflict
  deriving DecidableEq, Repr

namespace Usage

def exitStatus : Usage → UInt8
  | help | version => 0
  | _ => 2

end Usage

namespace CommandLine

/-- Options that take a value. -/
inductive Setting
  | input
  | output
  | resetSignal
  | addressBits
  | moduleName
  deriving DecidableEq, Repr

/-- Options that take none. -/
inductive Switch
  | builtin
  | annotate
  | listing
  | verbose
  | help
  | version
  deriving DecidableEq, Repr

inductive Flag
  | setting (s : Setting)
  | switch (s : Switch)
  deriving DecidableEq, Repr

namespace Flag

def ofName? : String → Option Flag
  | "input" => some (.setting .input)
  | "output" => some (.setting .output)
  | "reset-signal" => some (.setting .resetSignal)
  | "address-bits" => some (.setting .addressBits)
  | "module-name" => some (.setting .moduleName)
  | "builtin" => some (.switch .builtin)
  | "annotate" => some (.switch .annotate)
  | "listing" => some (.switch .listing)
  | "verbose" => some (.switch .verbose)
  | "help" => some (.switch .help)
  | "version" => some (.switch .version)
  | _ => none

def ofLetter? : Char → Option Flag
  | 'i' => some (.setting .input)
  | 'o' => some (.setting .output)
  | 'v' => some (.switch .verbose)
  | 'h' => some (.switch .help)
  | 'V' => some (.switch .version)
  | _ => none

end Flag

/-- What the arguments have settled so far. `pending` is the last option whose value stands apart,
with the value once it has come; after `closed` no option follows. -/
structure Draft where
  input : Option String := none
  output : Option String := none
  resetSignal : Option String := none
  addressBits : Option Nat := none
  moduleName : Option String := none
  builtin : Bool := false
  annotate : Bool := false
  listing : Bool := false
  verbosity : Nat := 0
  pending : Option (Setting × Option String) := none
  closed : Bool := false

def maxVerbosity : Nat := 255

/-- A number of address lines that a memory may have. -/
def readAddressBits (value : String) : Option Nat :=
  (Text.readNumber 10 17 value.toList).filter (1 ≤ ·)

namespace Draft

def isSet (d : Draft) : Setting → Bool
  | .input => d.input.isSome
  | .output => d.output.isSome
  | .resetSignal => d.resetSignal.isSome
  | .addressBits => d.addressBits.isSome
  | .moduleName => d.moduleName.isSome

def assign (d : Draft) (s : Setting) (value : String) : Except Usage Draft :=
  if d.isSet s then .error .conflict
  else
    match s with
    | .input => if value = "" then .error .missingValue else .ok { d with input := some value }
    | .output => if value = "" then .error .missingValue else .ok { d with output := some value }
    | .resetSignal => .ok { d with resetSignal := some value }
    | .addressBits =>
      match readAddressBits value with
      | none => .error .badValue
      | some bits => .ok { d with addressBits := some bits }
    | .moduleName =>
      if Text.isIdentifier value then .ok { d with moduleName := some value }
      else .error .badValue

/-- Examine the option whose value stands apart. -/
def settle (d : Draft) : Except Usage Draft :=
  match d.pending with
  | none => .ok d
  | some (_,none) => .error .missingValue
  | some (s,some value) => { d with pending := none }.assign s value

/-- Turn a switch on. All but the verbosity may be given once. -/
def flip (d : Draft) : Switch → Except Usage Draft
  | .builtin => if d.builtin then .error .conflict else .ok { d with builtin := true }
  | .annotate => if d.annotate then .error .conflict else .ok { d with annotate := true }
  | .listing => if d.listing then .error .conflict else .ok { d with listing := true }
  | .verbose => .ok { d with verbosity := min maxVerbosity (d.verbosity + 1) }
  | .help => .error .help
  | .version => .error .version

def takeSwitch (d : Draft) (s : Switch) : Except Usage Draft := do
  (← d.settle).flip s

def takeValue (d : Draft) (s : Setting) (value : String) : Except Usage Draft := do
  (← d.settle).assign s value

def await (d : Draft) (s : Setting) : Except Usage Draft := do
  return { ← d.settle with pending := some (s,none) }

/-- Take in a long option, with its value after an equals sign if there is one. -/
def takeLong (d : Draft) (body : List Char) : Except Usage Draft :=
  let (name,value) :=
    match Text.cut '=' body with
    | none => (body,none)
    | some (name,value) => (name,some value)
  match Flag.ofName? (String.ofList name), value with
  | none, _ => .error .unknownArgument
  | some (.switch s), none => d.takeSwitch s
  | some (.switch _), some _ => .error .unexpectedValue
  | some (.setting s), none => d.await s
  | some (.setting s), some value => d.takeValue s (String.ofList value)

/-- Take in letters written together. The first that takes a value takes the rest as its value. -/
def takeLetters (d : Draft) : List Char → Except Usage Draft
  | [] => .ok d
  | c :: cs =>
    match Flag.ofLetter? c, cs with
    | none, _ => .error .unknownArgument
    | some (.switch s), _ => do (← d.takeSwitch s).takeLetters cs
    | some (.setting s), [] => d.await s
    | some (.setting s), '=' :: value => d.takeValue s (String.ofList value)
    | some (.setting s), value => d.takeValue s (String.ofList value)

/-- Take in an argument that is no option: the value that is waited for, or a mistake. -/
def takePlain (d : Draft) (arg : String) : Except Usage Draft :=
  match d.pending with
  | some (s,none) => .ok { d with pending := some (s,some arg) }
  | _ => .error .unknownArgument

def take (d : Draft) (arg : String) : Except Usage Draft :=
  if d.closed then .error .unknownArgument
  else
    match arg.toList with
    | ['-','-'] => .ok { d with closed := true }
    | '-' :: '-' :: body => d.takeLong body
    | '-' :: c :: cs => d.takeLetters (c :: cs)
    | _ => d.takePlain arg

def finish (d : Draft) : Except Usage CommandLine := do
  let d ← d.settle
  if d.builtin ∧ d.input.isSome then throw .conflict
  let standard : Options := {}
  return {
    input := d.input
    builtin := d.builtin
    output := d.output.getD "microcode"
    options := {
      reset := d.resetSignal
      addressBits := d.addressBits.getD standard.addressBits
      moduleName := d.moduleName.getD standard.moduleName
      annotate := d.annotate }
    listing := d.listing
    verbosity := d.verbosity }

end Draft

def parse (args : List String) : Except Usage CommandLine := do
  (← args.foldlM Draft.take {}).finish

def logLevel (c : CommandLine) : Level :=
  match c.verbosity with
  | 0 => .warn
  | 1 => .info
  | _ => .debug

def versionText : String := "Microcode Compiler 1.0\n"

def helpText : String := Text.unlines [
  "Compiles control-unit microcode into a simulator image and a SystemVerilog lookup table",
  "",
  "Usage: microcode [OPTIONS]",
  "",
  "Options:",
  "  -i, --input <INPUT>                Input file (defaults to stdin)",
  "      --builtin                      Compile the built-in RV32I control unit instead of a source file",
  "  -o, --output <OUTPUT>              Output file prefix; writes <prefix>.hex and <prefix>.sv [default: microcode]",
  "      --reset-signal <RESET_SIGNAL>  Signal that returns the sequencer to address 0 [source '!' line, else micro_reset]",
  "      --address-bits <ADDRESS_BITS>  Width of the microcode address bus [default: 8]",
  "      --module-name <MODULE_NAME>    Name of the generated SystemVerilog module [default: microcode_rom]",
  "      --annotate                     Append program/address comments to the simulation image",
  "      --listing                      Print the program allocation table to stdout",
  "  -v, --verbose...                   Increase log verbosity (-v info, -vv debug)",
  "  -h, --help                         Print help",
  "  -V, --version                      Print version"]

end CommandLine

variable {m : Type → Type} [Monad m] [Storage m]

/-- The lines of an input. One that cannot be read is a single line that says so. -/
def inputLines : Except FileFault ByteArray → List (Except Source.ReadFault String)
  | .ok bytes => Source.decodeLines bytes
  | .error fault => [.error (.device fault)]

def readSource (input : Except FileFault ByteArray) : Except Error ControlUnit :=
  (Source.readUnit (inputLines input)).mapError .source

/-- The unit to compile: the built-in one, or that of a file or of standard input. -/
def loadUnit (c : CommandLine) : m (Except Error ControlUnit) := do
  if c.builtin then return .ok Rv32i.controlUnit
  else
    match c.input with
    | none => return readSource (← Storage.standardInput)
    | some path =>
      match ← Storage.read path with
      | .error fault => return .error (.file path fault)
      | .ok input => return readSource input

/-- Run a command line. On success, tell what goes to standard output. -/
def run (c : CommandLine) : m (Except Error String) := do
  match ← loadUnit c with
  | .error e => return .error e
  | .ok unit =>
    let compiled := compile unit c.options
    compiled.events.forM Storage.report
    match compiled.result with
    | .error e => return .error e
    | .ok artifacts =>
      match ← Output.writeArtifacts c.output artifacts.image artifacts.table with
      | .error e => return .error e
      | .ok paths =>
        Storage.report (.finished artifacts.allocation.total
          artifacts.allocation.placements.length paths.image paths.table)
        return .ok (if c.listing then artifacts.allocation.listing else "")

end ControlStore
