import ControlStore.ControlUnit

/-! The built-in control unit of an RV32I core. Its control lines are a closed type, so a step
cannot name a line that does not exist. -/
namespace ControlStore
namespace Rv32i

inductive Line
  | memoryRead
  | memoryWrite
  | memAddrPc
  | memAddrLoad
  | memAddrStore
  | wordSizeSrc
  | iImmediate
  | uImmediate
  | incrementPc
  | incrementPc2
  | microReset
  | writeLowerInstr
  | writeUpperInstr
  | registerInputImm
  | op2Immediate
  | registersWrite
  deriving DecidableEq, Repr

namespace Line

/-- All control lines in the order of their bits. -/
def all : List Line :=
  [memoryRead,memoryWrite,memAddrPc,memAddrLoad,memAddrStore,wordSizeSrc,iImmediate,
    uImmediate,incrementPc,incrementPc2,microReset,writeLowerInstr,writeUpperInstr,
    registerInputImm,op2Immediate,registersWrite]

def name : Line → String
  | memoryRead => "memory_read"
  | memoryWrite => "memory_write"
  | memAddrPc => "mem_addr_pc"
  | memAddrLoad => "mem_addr_load"
  | memAddrStore => "mem_addr_store"
  | wordSizeSrc => "word_size_src"
  | iImmediate => "i_immediate"
  | uImmediate => "u_immediate"
  | incrementPc => "increment_pc"
  | incrementPc2 => "increment_pc2"
  | microReset => "micro_reset"
  | writeLowerInstr => "write_lower_instr"
  | writeUpperInstr => "write_upper_instr"
  | registerInputImm => "register_input_imm"
  | op2Immediate => "op2_immediate"
  | registersWrite => "registers_write"

def bit : Line → Fin wordWidth
  | memoryRead => 0
  | memoryWrite => 1
  | memAddrPc => 2
  | memAddrLoad => 3
  | memAddrStore => 4
  | wordSizeSrc => 5
  | iImmediate => 6
  | uImmediate => 7
  | incrementPc => 8
  | incrementPc2 => 9
  | microReset => 10
  | writeLowerInstr => 11
  | writeUpperInstr => 12
  | registerInputImm => 13
  | op2Immediate => 14
  | registersWrite => 15

def signal (l : Line) : Signal := ⟨l.name,l.bit⟩

end Line

def registry : Registry where
  signals := Line.all.map (·.signal)

def program (name : String) (steps : List (List Line)) : Program :=
  ⟨name,steps.map fun step => step.map (·.name)⟩

open Line in
/-- The fetch prologue reads the two halves of an instruction in consecutive cycles; the opcode
programs take one cycle each. -/
def catalog : Catalog where
  programs :=
    [program fetchName
      [[memAddrPc,incrementPc2],[memAddrPc,writeLowerInstr,incrementPc2],[writeUpperInstr]],
      program "op_fence" [[microReset]],
      program "op_ai" [[op2Immediate,registersWrite,microReset]],
      program "op_a" [[registersWrite,microReset]],
      program "op_lui" [[registerInputImm,registersWrite,microReset]],
      program "op_e" [[microReset]]]

def controlUnit : ControlUnit :=
  ⟨registry,catalog,some Line.microReset.name⟩

end Rv32i
end ControlStore
