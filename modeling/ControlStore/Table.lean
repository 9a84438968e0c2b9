import Std.Data.ExtTreeMap
import ControlStore.Allocation

/-! The lookup table of a synthesizable control store: a combinational block that gives the control
word of every address. Its text is a header of comments, the module with its address and word, and
one case entry per step, grouped by program. Only the range of the address input, the entries and
the default carry meaning for the reader; all other lines are passed over. -/
namespace ControlStore

/-- The address map that the text of a table describes. Addresses that it does not list have the
default word. -/
structure Table where
  width : Nat := 0
  entries : Std.ExtTreeMap Nat ControlWord := ∅
  default : Option ControlWord := none

namespace Table

/-- The least width of at least one bit whose addresses reach `total` entries. A total past the
last power of two that is an address has no such width. -/
def addressWidth (total : Nat) : Except Overflow Nat :=
  if total ≤ 1 <<< 63 then .ok (Nat.log2 (max total 2 - 1) + 1) else .error .add

/-- The header: what the table holds and which line drives which bit. -/
def header (total width : Nat) (registry : Registry) : List String :=
  [s!"// Microcode lookup table: {total} steps, {width}-bit address.",
    "// Generated by microcode; do not edit.",
    "//"] ++
  registry.byBit.map fun s => s!"// bit {Text.padLeft 2 (toString s.bit.val)}: {s.name}"

def opening (moduleName : String) (width : Nat) : List String :=
  [s!"module {moduleName} (",
    s!"    input  logic [{width - 1}:0] addr,",
    s!"    output logic [{wordWidth - 1}:0] word",
    ");",
    "    always_comb begin",
    "        case (addr)"]

def literal (w : ControlWord) : String :=
  s!"{wordWidth}'h{w.hex}"

def caption (p : Placement) : String :=
  let steps := if p.length = 1 then "step" else "steps"
  match p.offset with
  | none => s!"            // {p.name}: prologue, {p.length} {steps}"
  | some offset => s!"            // {p.name}: relative offset {offset}, {p.length} {steps}"

def entry (width address : Nat) (w : ControlWord) : String :=
  s!"            {width}'d{address}: word = {literal w};"

def programEntries (width base : Nat) (words : List ControlWord) : Except Overflow (List String) :=
  words.zipIdx.mapM fun (w,step) => (entry width · w) <$> addAddress base step

def block (width : Nat) (program : EncodedProgram) (p : Placement) :
    Except Overflow (List String) :=
  (caption p :: ·) <$> programEntries width p.base program.words

/-- Every address that is not listed raises no line. -/
def closing : List String :=
  [s!"            default: word = {literal 0};",
    "        endcase",
    "    end",
    "endmodule"]

/-- Write the table. Programs and placements correspond by position. -/
def render (programs : List EncodedProgram) (allocation : Allocation) (registry : Registry)
    (moduleName : String) : Except Overflow String := do
  let width ← addressWidth allocation.total
  let blocks ← (programs.zip allocation.placements).mapM fun (program,p) => block width program p
  return Text.unlines
    (header allocation.total width registry ++ opening moduleName width ++ blocks.flatten ++
      closing)

inductive Fault
  | badRange
  | badEntry (line : String)
  | badAddress (literal : String)
  | wrongWidth (literal : String) (width : Nat)
  | badAssignment (text : String)
  | repeatedAddress (address : Nat)
  deriving DecidableEq, Repr

namespace Fault

def message : Fault → String
  | badRange => "Invalid address port"
  | badEntry line => s!"Invalid table entry '{line}'"
  | badAddress literal => s!"Invalid address literal '{literal}'"
  | wrongWidth literal width =>
    s!"Address literal '{literal}' does not match the {width}-bit port"
  | badAssignment text => s!"Invalid assignment '{text}'"
  | repeatedAddress address => s!"Address {address} listed more than once"

end Fault

/-- Why a table cannot be read: a line, counted from one, or a width out of bounds. -/
inductive Error
  | fault (line : Nat) (fault : Fault)
  | overflow (overflow : Overflow)
  deriving DecidableEq, Repr

def widthLimit : Nat := UInt32.size

/-- The width of the range `[high:0]` in a line: one more than its upper index. -/
def rangeWidth (line : List Char) : Except Overflow (Option Nat) :=
  match Text.cutAt ":0]".toList line with
  | none => .ok none
  | some (front,_) =>
    match Text.cut '[' front with
    | none => .ok none
    | some (_,index) =>
      match Text.readNumber 10 widthLimit index with
      | none => .ok none
      | some high => if high + 1 < widthLimit then .ok (some (high + 1)) else .error .add

def assignment (text : List Char) : Except Fault ControlWord :=
  let word := do
    let (_,digits) ← Text.cutAt "'h".toList text
    ControlWord.ofHex? (Text.trimEnd ';' (Text.trim digits))
  match word with
  | some w => .ok w
  | none => .error (.badAssignment (String.ofList (Text.trim text)))

/-- The address and the word of an entry, whose literal has to be as wide as the address input. -/
def readEntry (width : Nat) (line : List Char) : Except Fault (Nat × ControlWord) :=
  match Text.cut ':' line with
  | none => .error (.badEntry (String.ofList line))
  | some (lit,rest) =>
    match Text.cutAt "'d".toList lit with
    | none => .error (.badAddress (String.ofList lit))
    | some (bits,digits) =>
      if Text.readNumber 10 widthLimit bits ≠ some width then
        .error (.wrongWidth (String.ofList lit) width)
      else
        match Text.readNumber 10 addressLimit digits with
        | none => .error (.badAddress (String.ofList lit))
        | some address => (assignment rest).map (address,·)

def readLine (t : Table) (n : Nat) (line : List Char) : Except Error Table :=
  if "//".toList.isPrefixOf line then .ok t
  else if "input".toList.isPrefixOf line then
    match rangeWidth line with
    | .error e => .error (.overflow e)
    | .ok none => .error (.fault n .badRange)
    | .ok (some width) => .ok { t with width }
  else if "default:".toList.isPrefixOf line then
    match assignment (line.drop "default:".length) with
    | .error f => .error (.fault n f)
    | .ok w => .ok { t with default := some w }
  else if line.head?.any Char.isDigit then
    match readEntry t.width line with
    | .error f => .error (.fault n f)
    | .ok (address,w) =>
      if address ∈ t.entries then .error (.fault n (.repeatedAddress address))
      else .ok { t with entries := t.entries.insert address w }
  else .ok t

def read (text : String) : Except Error Table :=
  ((Text.lines text).zipIdx 1).foldlM (fun t (line,n) => t.readLine n (Text.trim line)) {}

end Table
end ControlStore
