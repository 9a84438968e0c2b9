import ControlStore.Report

/-! Compiling a control unit into the texts of its two artifacts. Before they are handed out, both
are read back and compared with the allocation, from their texts alone, so a caller sees a matching
pair or an error. -/
namespace ControlStore
namespace Agreement

def require (condition : Bool) (d : Disagreement) : Except Error Unit :=
  if condition then .ok () else .error (.disagreement d)

def readImage (text : String) : Except Error (List (List ControlWord)) :=
  (Image.read text).mapError fun e => .disagreement (.imageUnreadable e)

def readTable (text : String) : Except Error Table :=
  (Table.read text).mapError fun
    | .fault line fault => .disagreement (.tableUnreadable line fault)
    | .overflow o => .overflow o

def liftOverflow {α : Type} (x : Except Overflow α) : Except Error α :=
  x.mapError .overflow

/-- The word of a step in the image is the word of its address in the table. -/
def checkStep (table : Table) (p : Placement) (step : Nat) (w : ControlWord) :
    Except Error Unit := do
  let address ← liftOverflow (addAddress p.base step)
  match table.entries[address]? with
  | none => .error (.disagreement (.missing address p.name step))
  | some w' => require (w' = w) (.word address p.name step w w')

def checkProgram (table : Table) (ws : List ControlWord) (p : Placement) : Except Error Unit := do
  require (ws.length = p.length) (.wordCount p.name ws.length p.length)
  ws.zipIdx.forM fun (w,step) => checkStep table p step w

/-- An address of the table holds a step. -/
def checkAddress (allocation : Allocation) (address : Nat) : Except Error Unit := do
  let place ← liftOverflow (allocation.locate address)
  require place.isSome (.stray address)

/-- Check that both texts describe the steps of an allocation, and nothing else. -/
def check (image table : String) (allocation : Allocation) : Except Error Unit := do
  let image ← readImage image
  let table ← readTable table
  require (table.default = some 0) .defaultNotZero
  let width ← liftOverflow (Table.addressWidth allocation.total)
  require (table.width = width) (.width table.width width)
  require (table.entries.size = allocation.total) (.entryCount table.entries.size allocation.total)
  require (image.length = allocation.placements.length)
    (.lineCount image.length allocation.placements.length)
  (image.zip allocation.placements).forM fun (ws,p) => checkProgram table ws p
  table.entries.keys.forM (checkAddress allocation)

end Agreement

def defaultReset : String := "micro_reset"

/-- Choices of a compilation. The reset line given here wins over the one the unit names. -/
structure Options where
  reset : Option String := none
  addressBits : Nat := 8
  moduleName : String := "microcode_rom"
  annotate : Bool := false
  deriving DecidableEq, Repr

structure Artifacts where
  allocation : Allocation
  image : String
  table : String
  deriving DecidableEq

/-- The name of the reset line in force. -/
def resetName (unit : ControlUnit) (options : Options) : String :=
  (options.reset <|> unit.reset).getD defaultReset

/-- An opcode program has to raise the reset line in its last step. An earlier reset cuts the
program short, which is worth a warning. -/
def checkReset (program : EncodedProgram) (bit : Nat) (reset : String) : Logged Unit :=
  match program.words.getLast? with
  | none => .ofExcept (.error (.missingReset program.name reset))
  | some last =>
    match last.hasBit bit with
    | .error o => .ofExcept (.error (.overflow o))
    | .ok false => .ofExcept (.error (.missingReset program.name reset))
    | .ok true =>
      match program.words.dropLast.findIdx? (·.getLsbD bit) with
      | none => .log []
      | some early => .log [.unreachable program.name reset early program.words.length]

/-- Encode a program and check how it ends, unless it is the fetch prologue. -/
def encodeChecked (registry : Registry) (bit : Fin wordWidth) (reset : String)
    (program : Program) : Logged EncodedProgram := do
  let encoded ← .ofExcept ((program.encode registry).mapError .undefinedSignal)
  unless program.isFetch do checkReset encoded bit reset
  return encoded

def allocateWithin (catalog : Catalog) (bits : Nat) : Except Error Allocation := do
  let allocation := catalog.allocate
  let room ← (capacity bits).mapError .overflow
  if allocation.total ≤ room then return allocation
  else throw (.tooManySteps allocation.total bits room)

def assemble (registry : Registry) (programs : List EncodedProgram) (allocation : Allocation)
    (options : Options) : Except Error Artifacts := do
  let image := Image.render programs (if options.annotate then some allocation else none)
  let table ← (Table.render programs allocation registry options.moduleName).mapError .overflow
  Agreement.check image table allocation
  return ⟨allocation,image,table⟩

def compile (unit : ControlUnit) (options : Options) : Logged Artifacts := do
  .ofExcept (unit.catalog.validate.mapError .catalog)
  let reset := resetName unit options
  match unit.registry.bit? reset with
  | none => .ofExcept (.error (.undefinedReset reset))
  | some bit =>
    let programs ← unit.catalog.programs.mapM (encodeChecked unit.registry bit reset)
    let allocation ← .ofExcept (allocateWithin unit.catalog options.addressBits)
    .log (.counts unit.registry.size allocation.placements.length allocation.total ::
      allocation.placements.map .placed)
    .ofExcept (assemble unit.registry programs allocation options)

end ControlStore
