import ControlStore.Text

/-! What a compilation starts from: control words with one bit per control line, the registry that
gives each line its bit, and the catalog of microcode programs. Names and bits are both unique in a
registry, so a line is known by either. The order of a catalog is the order of the addresses, and
the shared prologue that fetches an instruction has to come first.

Addresses and shift amounts are bounded by the width of a machine word. An operation that leaves the
range stops with an `Overflow`. -/
namespace ControlStore

inductive Overflow
  | shiftLeft
  | add
  deriving DecidableEq, Repr

namespace Overflow

def message : Overflow → String
  | shiftLeft => "attempt to shift left with overflow"
  | add => "attempt to add with overflow"

end Overflow

/-- Addresses, counts and offsets lie below this bound. -/
def addressLimit : Nat := UInt64.size

/-- The sum of two addresses, as long as it is an address. -/
def addAddress (a b : Nat) : Except Overflow Nat :=
  if a + b < addressLimit then .ok (a + b) else .error .add

def capacity (bits : Nat) : Except Overflow Nat :=
  if bits < 64 then .ok (1 <<< bits) else .error .shiftLeft

abbrev wordWidth : Nat := 32

/-- The control lines raised in one cycle. -/
abbrev ControlWord : Type := BitVec wordWidth

namespace ControlWord

/-- Whether the line at `bit` is raised; asking beyond the word is an overflow. -/
def hasBit (w : ControlWord) (bit : Nat) : Except Overflow Bool :=
  if bit < wordWidth then .ok (w.getLsbD bit) else .error .shiftLeft

def raise (w : ControlWord) (bit : Fin wordWidth) : ControlWord :=
  w ||| BitVec.twoPow wordWidth bit

/-- The eight hexadecimal digits of a word, most significant first. -/
def digits (w : ControlWord) : List Char :=
  [7,6,5,4,3,2,1,0].map fun i => Nat.digitChar (w.toNat >>> (4 * i) % 16)

def hex (w : ControlWord) : String :=
  String.ofList w.digits

/-- Read hexadecimal digits of either case whose value fits a word. -/
def ofHex? (cs : List Char) : Option ControlWord :=
  (Text.readNumber 16 (1 <<< wordWidth) cs).map (BitVec.ofNat wordWidth)

end ControlWord

structure Signal where
  name : String
  bit : Fin wordWidth
  deriving DecidableEq, Repr

inductive RegisterError
  | outsideWord (name : String) (bit : Nat)
  | nameTaken (name : String)
  | bitTaken (name : String) (bit : Nat) (holder : String)
  deriving DecidableEq, Repr

namespace RegisterError

def message : RegisterError → String
  | outsideWord name bit =>
    s!"Bit {bit} of signal '{name}' is outside the {wordWidth}-bit control word"
  | nameTaken name => s!"Signal '{name}' defined more than once"
  | bitTaken name bit holder =>
    s!"Signal '{name}' reuses bit {bit} already assigned to '{holder}'"

end RegisterError

structure UndefinedSignal where
  name : String
  deriving DecidableEq, Repr

namespace UndefinedSignal

def message (e : UndefinedSignal) : String :=
  s!"Undefined signal '{e.name}'"

end UndefinedSignal

/-- The control lines of a unit in the order of their declaration. -/
structure Registry where
  signals : List Signal := []
  names_nodup : (signals.map (·.name)).Nodup := by decide
  bits_nodup : (signals.map (·.bit)).Nodup := by decide
  deriving DecidableEq

namespace Registry

def empty : Registry := {}

def size (r : Registry) : Nat := r.signals.length

/-- Add a control line. A bit outside the word is refused first, then a name that is in use, then
a bit that is in use. -/
def register (r : Registry) (name : String) (bit : Nat) : Except RegisterError Registry :=
  if hb : bit < wordWidth then
    if hn : name ∈ r.signals.map (·.name) then .error (.nameTaken name)
    else
      match hf : r.signals.find? (·.bit = ⟨bit,hb⟩) with
      | some holder => .error (.bitTaken name bit holder.name)
      | none => .ok
        { signals := r.signals ++ [⟨name,⟨bit,hb⟩⟩]
          names_nodup := by
            rw [List.map_append,List.nodup_append]
            refine ⟨r.names_nodup,by simp,?_⟩
            intro a ha b hb' hab
            simp only [List.map_cons,List.map_nil,List.mem_singleton] at hb'
            exact hn (hb' ▸ hab ▸ ha)
          bits_nodup := by
            rw [List.map_append,List.nodup_append]
            refine ⟨r.bits_nodup,by simp,?_⟩
            intro a ha b hb' hab
            simp only [List.map_cons,List.map_nil,List.mem_singleton] at hb'
            obtain ⟨s,hs,rfl⟩ := List.mem_map.mp ha
            have h := List.find?_eq_none.mp hf s hs
            exact h (by simp [hab,hb']) }
  else .error (.outsideWord name bit)

def bit? (r : Registry) (name : String) : Option (Fin wordWidth) :=
  (r.signals.find? (·.name = name)).map (·.bit)

def resolve (r : Registry) (name : String) : Except UndefinedSignal (Fin wordWidth) :=
  match r.bit? name with
  | some bit => .ok bit
  | none => .error ⟨name⟩

def byBit (r : Registry) : List Signal :=
  r.signals.mergeSort fun a b => a.bit ≤ b.bit

theorem byBit_perm (r : Registry) : r.byBit.Perm r.signals :=
  List.mergeSort_perm _ _

/-- The order of the bits is strict, because no two lines have one bit. -/
theorem pairwise_byBit (r : Registry) : r.byBit.Pairwise (fun a b => a.bit < b.bit) := by
  have hle : r.byBit.Pairwise (fun a b => decide (a.bit ≤ b.bit) = true) := by
    apply List.pairwise_mergeSort
    · intro a b c hab hbc
      simp only [decide_eq_true_eq] at hab hbc ⊢
      exact Fin.le_trans hab hbc
    · intro a b
      simpa using Fin.le_total a.bit b.bit
  have hnodup : (r.byBit.map (·.bit)).Nodup :=
    (r.byBit_perm.map (·.bit)).nodup_iff.mpr r.bits_nodup
  refine (hle.and (List.pairwise_map.mp hnodup)).imp ?_
  rintro a b ⟨hab,hne⟩
  exact Fin.lt_iff_le_and_ne.mpr ⟨of_decide_eq_true hab,hne⟩

end Registry

/-- The names of the control lines raised in one cycle, as written. -/
abbrev Step : Type := List String

/-- The control routine of one opcode class, or the fetch prologue. -/
structure Program where
  name : String
  steps : List Step
  deriving DecidableEq, Repr

def fetchName : String := "fetch"

namespace Program

def isFetch (p : Program) : Bool := p.name = fetchName

def appendStep (p : Program) (step : Step) : Program :=
  { p with steps := p.steps ++ [step] }

@[simp] theorem name_appendStep (p : Program) (step : Step) : (p.appendStep step).name = p.name :=
  rfl

end Program

inductive CatalogError
  | duplicateProgram (name : String)
  | missingFetch
  | fetchNotFirst (first : String)
  deriving DecidableEq, Repr

namespace CatalogError

def message : CatalogError → String
  | duplicateProgram name => s!"Program '{name}' defined more than once"
  | missingFetch => s!"No '{fetchName}' program defined"
  | fetchNotFirst first => s!"'{fetchName}' must be the first program, found '{first}' first"

end CatalogError

def appendToLast (step : Step) : List Program → List Program
  | [] => []
  | [p] => [p.appendStep step]
  | p :: q :: ps => p :: appendToLast step (q :: ps)

@[simp] theorem map_name_appendToLast (step : Step) (ps : List Program) :
    (appendToLast step ps).map (·.name) = ps.map (·.name) := by
  fun_induction appendToLast step ps <;> simp_all

/-- Programs in the order of their declaration, under distinct names. -/
structure Catalog where
  programs : List Program := []
  names_nodup : (programs.map (·.name)).Nodup := by decide
  deriving DecidableEq

namespace Catalog

def empty : Catalog := {}

def get? (c : Catalog) (name : String) : Option Program :=
  c.programs.find? (·.name = name)

/-- Add a program at the end, under a name that is not in use. -/
def push (c : Catalog) (p : Program) : Except CatalogError Catalog :=
  if h : p.name ∈ c.programs.map (·.name) then .error (.duplicateProgram p.name)
  else .ok
    { programs := c.programs ++ [p]
      names_nodup := by
        rw [List.map_append,List.nodup_append]
        refine ⟨c.names_nodup,by simp,?_⟩
        intro a ha b hb hab
        simp only [List.map_cons,List.map_nil,List.mem_singleton] at hb
        exact h (hb ▸ hab ▸ ha) }

/-- Add a step to the program declared last; an empty catalog stays empty. -/
def appendStep (c : Catalog) (step : Step) : Catalog where
  programs := appendToLast step c.programs
  names_nodup := by simpa using c.names_nodup

/-- The fetch prologue has to exist and to come first. -/
def validate (c : Catalog) : Except CatalogError Unit :=
  match c.programs with
  | [] => .error .missingFetch
  | first :: _ =>
    if first.isFetch then .ok ()
    else if (c.get? fetchName).isSome then .error (.fetchNotFirst first.name)
    else .error .missingFetch

end Catalog

/-- A control unit: its control lines, its programs, and the line that sends the sequencer back to
address zero, if the unit names one. -/
structure ControlUnit where
  registry : Registry
  catalog : Catalog
  reset : Option String
  deriving DecidableEq

end ControlStore
