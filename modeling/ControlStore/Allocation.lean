import ControlStore.ControlUnit

/-! Programs in the control store. A step becomes a control word by raising the bits of the lines it
names, in any order and however often it names them. Programs lie one after the other from address
zero, in catalog order; an opcode is dispatched by its distance past the end of the fetch prologue,
and a listing shows these places to whoever maintains the dispatch. -/
namespace ControlStore

structure EncodedProgram where
  name : String
  words : List ControlWord
  deriving DecidableEq

/-- A step of a program names a control line that is not registered. -/
structure EncodeError where
  signal : String
  program : String
  step : Nat
  deriving DecidableEq, Repr

namespace EncodeError

def message (e : EncodeError) : String :=
  s!"Undefined signal '{e.signal}' in step {e.step} of program '{e.program}'"

end EncodeError

namespace Registry

/-- The control word of a step; fails at the first name that is not registered. -/
def encode (r : Registry) (step : Step) : Except UndefinedSignal ControlWord :=
  step.foldlM (fun w name => (r.resolve name).map w.raise) 0

end Registry

namespace Program

def encode (r : Registry) (p : Program) : Except EncodeError EncodedProgram :=
  (EncodedProgram.mk p.name ·) <$> p.steps.zipIdx.mapM fun (step,i) =>
    (r.encode step).mapError fun e => ⟨e.name,p.name,i⟩

end Program

/-- Where a program lies. `offset` counts the steps of opcode programs before it; the fetch
prologue has none. -/
structure Placement where
  name : String
  base : Nat
  length : Nat
  offset : Option Nat
  deriving DecidableEq, Repr

structure Allocation where
  placements : List Placement
  total : Nat
  deriving DecidableEq, Repr

/-- Place programs from address `base` and dispatch offset `offset` on. -/
def placeFrom (base offset : Nat) : List Program → List Placement
  | [] => []
  | p :: ps =>
    if p.isFetch then
      ⟨p.name,base,p.steps.length,none⟩ :: placeFrom (base + p.steps.length) offset ps
    else
      ⟨p.name,base,p.steps.length,some offset⟩ ::
        placeFrom (base + p.steps.length) (offset + p.steps.length) ps

@[simp] theorem length_placeFrom (base offset : Nat) (ps : List Program) :
    (placeFrom base offset ps).length = ps.length := by
  induction ps generalizing base offset with
  | nil => rfl
  | cons p ps ih => simp only [placeFrom]; split <;> simp [ih]

def Catalog.allocate (c : Catalog) : Allocation where
  placements := placeFrom 0 0 c.programs
  total := (c.programs.flatMap (·.steps)).length

namespace Allocation

def address (a : Allocation) (program step : Nat) : Except Overflow (Option Nat) :=
  match a.placements[program]? with
  | none => .ok none
  | some p => if step < p.length then some <$> addAddress p.base step else .ok none

/-- The first of `placements` that holds an address, with its index counted from `i`. -/
def locateFrom (address i : Nat) : List Placement → Except Overflow (Option (Nat × Nat))
  | [] => .ok none
  | p :: ps =>
    if p.base ≤ address then
      match addAddress p.base p.length with
      | .error e => .error e
      | .ok stop =>
        if address < stop then .ok (some (i,address - p.base)) else locateFrom address (i + 1) ps
    else locateFrom address (i + 1) ps

def locate (a : Allocation) (address : Nat) : Except Overflow (Option (Nat × Nat)) :=
  locateFrom address 0 a.placements

end Allocation

/-- One line of four columns; the first is flush left, the others flush right. -/
def listingRow (name base steps offset : String) : String :=
  Text.padRight 16 name ++ " " ++ Text.padLeft 6 base ++ " " ++ Text.padLeft 6 steps ++ " " ++
    Text.padLeft 8 offset ++ "\n"

namespace Placement

/-- The dispatch offset in decimal, or a dash for the fetch prologue. -/
def offsetText (p : Placement) : String :=
  match p.offset with
  | none => "-"
  | some n => toString n

def row (p : Placement) : String :=
  listingRow p.name (toString p.base) (toString p.length) p.offsetText

end Placement

def Allocation.listing (a : Allocation) : String :=
  listingRow "program" "base" "steps" "offset" ++ String.join (a.placements.map (·.row))

end ControlStore
