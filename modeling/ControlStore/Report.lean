import ControlStore.Image
import ControlStore.Source
import ControlStore.Table

/-! What a run tells: why it fails, with the text and the exit status of each cause, and the events
that it reports while it works, each with a level, the part of the program that it comes from, and a
text. The events of a computation that stops are those reported before. -/
namespace ControlStore

/-- The first difference found between image, table and allocation. -/
inductive Disagreement
  | imageUnreadable (error : Image.Error)
  | tableUnreadable (line : Nat) (fault : Table.Fault)
  | defaultNotZero
  | width (found expected : Nat)
  | entryCount (found expected : Nat)
  | lineCount (found expected : Nat)
  | wordCount (program : String) (found expected : Nat)
  | word (address : Nat) (program : String) (step : Nat) (image table : ControlWord)
  | missing (address : Nat) (program : String) (step : Nat)
  | stray (address : Nat)
  deriving DecidableEq

namespace Disagreement

def message : Disagreement → String
  | imageUnreadable e => s!"simulation image unreadable: {e.message}"
  | tableUnreadable line fault =>
    s!"lookup table unreadable: Error on line {line}: {fault.message}"
  | defaultNotZero => "lookup table lacks an all-zero default"
  | width found expected => s!"lookup table uses a {found}-bit address, expected {expected}"
  | entryCount found expected => s!"lookup table has {found} entries for {expected} steps"
  | lineCount found expected => s!"simulation image has {found} lines for {expected} programs"
  | wordCount program found expected =>
    s!"program '{program}' has {found} words in the image, expected {expected}"
  | word address program step image table =>
    s!"address {address} ('{program}' step {step}) is {image.hex} in the image but " ++
      s!"{table.hex} in the table"
  | missing address program step =>
    s!"address {address} ('{program}' step {step}) missing from the table"
  | stray address => s!"lookup table lists address {address} that holds no step"

end Disagreement

inductive Error
  | source (error : Source.Error)
  | catalog (error : CatalogError)
  | undefinedSignal (error : EncodeError)
  | undefinedReset (name : String)
  | missingReset (program reset : String)
  | tooManySteps (steps bits capacity : Nat)
  | disagreement (disagreement : Disagreement)
  | file (path : String) (fault : FileFault)
  | overflow (overflow : Overflow)
  deriving DecidableEq

namespace Error

def message : Error → String
  | source e => e.message
  | catalog e => e.message
  | undefinedSignal e => e.message
  | undefinedReset name => s!"Reset signal '{name}' is not a defined control line"
  | missingReset program reset =>
    s!"Program '{program}' does not end with the reset signal '{reset}'"
  | tooManySteps steps bits capacity =>
    s!"{steps} microcode steps do not fit a {bits}-bit address bus ({capacity} entries)"
  | disagreement d => s!"Generated artifacts disagree: {d.message}"
  | file path fault => s!"File error on '{path}': {fault.message}"
  | overflow o => o.message

/-- The exit status of a process that fails for this cause. -/
def exitStatus : Error → UInt8
  | file .. => 1
  | source ⟨_,.malformed _⟩ => 2
  | source ⟨_,.registration _⟩ => 3
  | undefinedSignal _ | undefinedReset _ => 4
  | missingReset .. => 5
  | tooManySteps .. => 6
  | catalog _ => 7
  | disagreement _ => 8
  | overflow _ => 101

end Error

/-- How much a reader has to care, from the most to the least pressing. -/
inductive Level
  | warn
  | info
  | debug
  deriving DecidableEq, Repr

namespace Level

def rank : Level → Nat
  | warn => 0
  | info => 1
  | debug => 2

def name : Level → String
  | warn => "WARN"
  | info => "INFO"
  | debug => "DEBUG"

/-- Whether a log that goes down to level `most` keeps records of level `l`. -/
def isShownAt (l most : Level) : Bool :=
  l.rank ≤ most.rank

end Level

inductive Event
  /-- A program resets in `step`, before the last of its `length` steps. -/
  | unreachable (program reset : String) (step length : Nat)
  | counts (signals programs steps : Nat)
  | placed (placement : Placement)
  | wrote (path : String)
  | notRestored (path : String) (fault : FileFault)
  | notRemoved (path : String) (fault : FileFault)
  | finished (steps programs : Nat) (image table : String)
  deriving DecidableEq, Repr

namespace Event

def level : Event → Level
  | unreachable .. | notRestored .. | notRemoved .. => .warn
  | wrote .. | finished .. => .info
  | counts .. | placed .. => .debug

def origin : Event → String
  | unreachable .. | counts .. | placed .. => "microcode::compile"
  | wrote .. | notRestored .. | notRemoved .. => "microcode::output"
  | finished .. => "microcode"

/-- A dispatch offset as the log shows it. -/
def offsetText : Option Nat → String
  | none => "None"
  | some n => s!"Some({n})"

def message : Event → String
  | unreachable program reset step length =>
    s!"Program '{program}' raises '{reset}' in step {step}; " ++
      s!"steps {step + 1}..{length} are unreachable"
  | counts signals programs steps => s!"{signals} signals, {programs} programs, {steps} steps"
  | placed p =>
    s!"{p.name} at {p.base}..{p.base + p.length} (relative offset {offsetText p.offset})"
  | wrote path => s!"Wrote {path}"
  | notRestored path fault => s!"Could not restore {path}: {fault.message}"
  | notRemoved path fault => s!"Could not remove {path}: {fault.message}"
  | finished steps programs image table =>
    s!"{steps} steps in {programs} programs -> {image}, {table}"

/-- Indent every line of a text but the first. -/
def hang (s : String) : String :=
  String.ofList (s.toList.flatMap fun c => if c = '\n' then "\n    ".toList else [c])

def record (e : Event) : String :=
  s!"[{Text.padRight 5 e.level.name} {e.origin}] {hang e.message}"

end Event

/-- The events of a computation in order, and how it ended. -/
structure Logged (α : Type) where
  events : List Event
  result : Except Error α

namespace Logged

def log (events : List Event) : Logged Unit := ⟨events,.ok ()⟩

def ofExcept {α : Type} (result : Except Error α) : Logged α := ⟨[],result⟩

instance : Monad Logged where
  pure a := ⟨[],.ok a⟩
  bind x f :=
    match x.result with
    | .error e => ⟨x.events,.error e⟩
    | .ok a =>
      let y := f a
      ⟨x.events ++ y.events,y.result⟩

protected theorem id_map {α : Type} (x : Logged α) : id <$> x = x := by
  obtain ⟨events,result⟩ := x
  cases result <;> simp [Functor.map]

protected theorem pure_bind {α β : Type} (a : α) (f : α → Logged β) : pure a >>= f = f a := by
  show (⟨[] ++ (f a).events,(f a).result⟩ : Logged β) = f a
  simp

protected theorem bind_assoc {α β γ : Type} (x : Logged α) (f : α → Logged β) (g : β → Logged γ) :
    x >>= f >>= g = x >>= fun a => f a >>= g := by
  obtain ⟨events,result⟩ := x
  cases result with
  | error e => rfl
  | ok a =>
    simp only [bind]
    split <;> simp_all

instance : LawfulMonad Logged :=
  LawfulMonad.mk' Logged Logged.id_map Logged.pure_bind Logged.bind_assoc

end Logged
end ControlStore
