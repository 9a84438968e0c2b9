import ControlStore.Proofs.Assembly
import ControlStore.Proofs.Encoding
import ControlStore.Rv32i

/-! What a compilation decides and what it means. It succeeds exactly on well-formed units, and the
artifacts it hands out describe the steps of the unit. -/
namespace ControlStore

open Checks Text

namespace Logged

variable {α β : Type}

@[simp] theorem result_pure (a : α) : (pure a : Logged α).result = .ok a := rfl

@[simp] theorem result_log (events : List Event) : (log events).result = .ok () := rfl

@[simp] theorem result_ofExcept (x : Except Error α) : (ofExcept x).result = x := rfl

@[simp] theorem result_bind (x : Logged α) (f : α → Logged β) :
    (x >>= f).result = x.result >>= fun a => (f a).result := by
  obtain ⟨events,result⟩ := x
  cases result with
  | error e => rfl
  | ok a => rfl

theorem result_mapM (xs : List α) (f : α → Logged β) :
    (xs.mapM f).result = xs.mapM fun a => (f a).result := by
  induction xs with
  | nil => rfl
  | cons x xs ih => simp only [List.mapM_cons,result_bind,result_pure,ih]; rfl

end Logged

/-- What is asked of a unit: fetch comes first, all names are registered, every opcode program
ends by raising the reset line in force, and the address lines reach all steps. -/
structure WellFormed (unit : ControlUnit) (options : Options) : Prop where
  fetch_first : unit.catalog.programs.head?.map (·.name) = some fetchName
  reset_registered : unit.registry.Registered (resetName unit options)
  names_registered : ∀ p ∈ unit.catalog.programs, ∀ step ∈ p.steps, ∀ name ∈ step,
    unit.registry.Registered name
  ends_in_reset : ∀ p ∈ unit.catalog.programs, p.name ≠ fetchName →
    ∃ last ∈ p.steps.getLast?, ∃ bit ∈ unit.registry.bit? (resetName unit options),
      unit.registry.Raises last bit
  fits : unit.catalog.allocate.total ≤ 2^options.addressBits

instance (unit : ControlUnit) (options : Options) : Decidable (WellFormed unit options) :=
  decidable_of_iff (unit.catalog.programs.head?.map (·.name) = some fetchName ∧
    unit.registry.Registered (resetName unit options) ∧
    (∀ p ∈ unit.catalog.programs, ∀ step ∈ p.steps, ∀ name ∈ step,
      unit.registry.Registered name) ∧
    (∀ p ∈ unit.catalog.programs, p.name ≠ fetchName →
      ∃ last ∈ p.steps.getLast?, ∃ bit ∈ unit.registry.bit? (resetName unit options),
        unit.registry.Raises last bit) ∧
    unit.catalog.allocate.total ≤ 2^options.addressBits)
    ⟨fun h => ⟨h.1,h.2.1,h.2.2.1,h.2.2.2.1,h.2.2.2.2⟩,fun h => ⟨h.fetch_first,
      h.reset_registered,h.names_registered,h.ends_in_reset,h.fits⟩⟩

theorem Catalog.validate_eq_ok_iff {c : Catalog} :
    c.validate = .ok () ↔ c.programs.head?.map (·.name) = some fetchName := by
  rw [validate]
  cases c.programs with
  | nil => simp
  | cons first rest =>
    by_cases hfetch : first.name = fetchName
    · simp [Program.isFetch,hfetch]
    · simp only [Program.isFetch,hfetch,decide_false,Bool.false_eq_true,if_false,List.head?_cons,
        Option.map_some,Option.some.injEq,iff_false]
      intro hok
      split at hok <;> cases hok

section Forall₂

variable {α β : Type} {R : α → β → Prop} {xs : List α} {ys : List β}

theorem exists_getLast?_iff {P : α → Prop} {Q : β → Prop} (h : List.Forall₂ R xs ys)
    (hPQ : ∀ x y, R x y → (Q y ↔ P x)) :
    (∃ y, ys.getLast? = some y ∧ Q y) ↔ ∃ x, xs.getLast? = some x ∧ P x := by
  induction h with
  | nil => simp
  | cons hxy htail ih =>
    cases htail with
    | nil => simp [hPQ _ _ hxy]
    | cons _ _ => simpa only [List.getLast?_cons_cons] using ih

end Forall₂

section Encode

variable {r : Registry} {bit : Fin wordWidth} {reset : String} {p : Program} {e : EncodedProgram}

def EncodedProgram.EndsIn (e : EncodedProgram) (bit : Fin wordWidth) : Prop :=
  ∃ last, e.words.getLast? = some last ∧ last.getLsbD bit = true

theorem checkReset_eq_ok (h : e.EndsIn bit) : (checkReset e bit reset).result = .ok () := by
  obtain ⟨last,hlast,hset⟩ := h
  have hbit : last.hasBit bit = .ok true := by rw [ControlWord.hasBit,if_pos bit.isLt,hset]
  simp only [checkReset,hlast,hbit]
  split <;> rfl

/-- A program that does not end in a reset is refused in silence, even if it resets earlier. -/
theorem checkReset_of_not_endsIn (h : ¬e.EndsIn bit) :
    checkReset e bit reset = .ofExcept (.error (.missingReset e.name reset)) := by
  rw [checkReset]
  cases hlast : e.words.getLast? with
  | none => rfl
  | some last =>
    have hclear : last.getLsbD bit = false := by
      by_contra hset
      exact h ⟨last,hlast,by simpa using hset⟩
    have hbit : last.hasBit bit = .ok false := by
      rw [ControlWord.hasBit,if_pos bit.isLt,hclear]
    simp only [hbit]

theorem checkReset_eq_error (h : ¬e.EndsIn bit) :
    (checkReset e bit reset).result = .error (.missingReset e.name reset) := by
  rw [checkReset_of_not_endsIn h]
  rfl

theorem result_encodeChecked :
    (encodeChecked r bit reset p).result = (do
      let encoded ← (p.encode r).mapError .undefinedSignal
      if p.isFetch then return encoded
      (checkReset encoded bit reset).result
      return encoded) := by
  simp only [encodeChecked,Logged.result_bind,Logged.result_ofExcept]
  congr 1
  funext encoded
  cases p.isFetch with
  | true => rfl
  | false => exact Logged.result_bind _ _

theorem encodeChecked_eq_ok_iff :
    (encodeChecked r bit reset p).result = .ok e ↔
      p.encode r = .ok e ∧ (p.name ≠ fetchName → e.EndsIn bit) := by
  rw [result_encodeChecked,bind_eq_ok]
  by_cases hfetch : p.name = fetchName
  · have hp : p.isFetch = true := by simp [Program.isFetch,hfetch]
    simp [hp,hfetch]
  · have hp : p.isFetch = false := by simp [Program.isFetch,hfetch]
    simp only [hp,mapError_eq_ok,Bool.false_eq_true,if_false,bind_eq_ok,pure_eq_ok]
    constructor
    · intro h
      obtain ⟨e',he,u,hreset,rfl⟩ := h
      refine ⟨he,fun _ => ?_⟩
      by_contra hends
      rw [checkReset_eq_error hends] at hreset
      cases hreset
    · intro h
      exact ⟨e,h.1,(),checkReset_eq_ok (h.2 hfetch),rfl⟩

/-- A program passes exactly when its names are registered and its last step raises the reset
line, from which the fetch prologue is exempt. -/
theorem exists_encodeChecked_iff :
    (∃ e, (encodeChecked r bit reset p).result = .ok e) ↔
      (∀ step ∈ p.steps, ∀ name ∈ step, r.Registered name) ∧
        (p.name ≠ fetchName → ∃ last, p.steps.getLast? = some last ∧ r.Raises last bit) := by
  have hends {e : EncodedProgram} (he : p.encode r = .ok e) : e.EndsIn bit ↔
      ∃ last, p.steps.getLast? = some last ∧ r.Raises last bit := by
    apply exists_getLast?_iff (Program.encode_eq_ok_iff.mp he).2
    intro step w hw
    exact (Registry.encode_eq_ok_iff.mp hw).2 bit
  constructor
  · intro h
    obtain ⟨e,he⟩ := h
    obtain ⟨hencode,hlast⟩ := encodeChecked_eq_ok_iff.mp he
    refine ⟨?_,fun hfetch => (hends hencode).mp (hlast hfetch)⟩
    intro step hstep
    obtain ⟨w,-,hw⟩ := exists_of_forall₂ (Program.encode_eq_ok_iff.mp hencode).2 hstep
    exact (Registry.encode_eq_ok_iff.mp hw).1
  · intro h
    obtain ⟨e,he⟩ := Program.exists_encode h.1
    exact ⟨e,encodeChecked_eq_ok_iff.mpr ⟨he,fun hfetch => (hends he).mpr (h.2 hfetch)⟩⟩

end Encode

section Allocate

variable {c : Catalog} {bits : Nat}

theorem allocateWithin_eq (c : Catalog) (hbits : bits < 64) :
    allocateWithin c bits = if c.allocate.total ≤ 2^bits then .ok c.allocate
      else .error (.tooManySteps c.allocate.total bits (2^bits)) := by
  rw [allocateWithin,capacity,if_pos hbits,Nat.one_shiftLeft]
  rfl

theorem allocateWithin_eq_ok_iff {a : Allocation} :
    allocateWithin c bits = .ok a ↔ bits < 64 ∧ c.allocate.total ≤ 2^bits ∧ c.allocate = a := by
  by_cases hbits : bits < 64
  · rw [allocateWithin_eq c hbits]
    by_cases hfit : c.allocate.total ≤ 2^bits
    · rw [if_pos hfit]
      simp only [hbits,hfit,true_and,Except.ok.injEq]
    · rw [if_neg hfit]
      simp only [hfit,false_and,and_false,reduceCtorEq]
  · simp [allocateWithin,capacity,bind_eq_ok,hbits]

end Allocate

section Compile

variable {unit : ControlUnit} {options : Options}

theorem compile_of_catalog_error {e : CatalogError} (h : unit.catalog.validate = .error e) :
    compile unit options = .ofExcept (.error (.catalog e)) := by
  rw [compile,h]
  rfl

theorem compile_of_undefined_reset (hvalid : unit.catalog.validate = .ok ())
    (hbit : unit.registry.bit? (resetName unit options) = none) :
    compile unit options = .ofExcept (.error (.undefinedReset (resetName unit options))) := by
  rw [compile,hvalid]
  simp only [hbit]
  rfl

theorem compile_of_bit {bit : Fin wordWidth} (hvalid : unit.catalog.validate = .ok ())
    (hbit : unit.registry.bit? (resetName unit options) = some bit) :
    compile unit options = (do
      let programs ← unit.catalog.programs.mapM
        (encodeChecked unit.registry bit (resetName unit options))
      let allocation ← .ofExcept (allocateWithin unit.catalog options.addressBits)
      .log (.counts unit.registry.size allocation.placements.length allocation.total ::
        allocation.placements.map .placed)
      .ofExcept (assemble unit.registry programs allocation options)) := by
  rw [compile,hvalid]
  simp only [hbit]
  exact Logged.pure_bind () _

/-- A compilation succeeds when each of its stages does. -/
theorem compile_eq_ok_iff {artifacts : Artifacts} :
    (compile unit options).result = .ok artifacts ↔
      unit.catalog.programs.head?.map (·.name) = some fetchName ∧
        ∃ bit es, unit.registry.bit? (resetName unit options) = some bit ∧
        List.Forall₂ (fun p e =>
          (encodeChecked unit.registry bit (resetName unit options) p).result = .ok e)
          unit.catalog.programs es ∧
        options.addressBits < 64 ∧ unit.catalog.allocate.total ≤ 2^options.addressBits ∧
        assemble unit.registry es unit.catalog.allocate options = .ok artifacts := by
  simp only [compile,Logged.result_bind,Logged.result_ofExcept,bind_eq_ok,mapError_eq_ok]
  cases hbit : unit.registry.bit? (resetName unit options) with
  | none => simp
  | some bit =>
    simp only [Logged.result_bind,Logged.result_mapM,Logged.result_ofExcept,Logged.result_log,
      bind_eq_ok,mapM_eq_ok,allocateWithin_eq_ok_iff,Option.some.injEq]
    constructor
    · intro h
      obtain ⟨u,hvalid,es,hes,a,⟨hbits,hfit,rfl⟩,v,-,hassemble⟩ := h
      exact ⟨Catalog.validate_eq_ok_iff.mp hvalid,bit,es,rfl,hes,hbits,hfit,hassemble⟩
    · intro h
      obtain ⟨hfirst,bit',es,rfl,hes,hbits,hfit,hassemble⟩ := h
      exact ⟨(),Catalog.validate_eq_ok_iff.mpr hfirst,es,hes,_,⟨hbits,hfit,rfl⟩,(),trivial,
        hassemble⟩

theorem sameLengths_of_encodeChecked {r : Registry} {bit : Fin wordWidth} {reset : String}
    {ps : List Program} {es : List EncodedProgram}
    (h : List.Forall₂ (fun p e => (encodeChecked r bit reset p).result = .ok e) ps es) :
    SameLengths ps es := by
  apply h.imp
  intro p e he
  have hsteps := (Program.encode_eq_ok_iff.mp (encodeChecked_eq_ok_iff.mp he).1).2
  exact hsteps.length_eq.symm

theorem le_of_le_two_pow {total bits : Nat} (hbits : bits < 64) (h : total ≤ 2^bits) :
    total ≤ 2^63 :=
  le_trans h (Nat.pow_le_pow_right (by decide) (by omega))

/-- The units that compile are the well-formed ones. -/
theorem exists_compile_iff (hnames : SingleLine unit options) (hbits : options.addressBits < 64) :
    (∃ artifacts, (compile unit options).result = .ok artifacts) ↔ WellFormed unit options := by
  constructor
  · intro h
    obtain ⟨artifacts,hartifacts⟩ := h
    obtain ⟨hfirst,bit,es,hbit,hes,-,hfit,-⟩ := compile_eq_ok_iff.mp hartifacts
    have hpass : ∀ p ∈ unit.catalog.programs, ∃ e,
        (encodeChecked unit.registry bit (resetName unit options) p).result = .ok e := by
      intro p hp
      obtain ⟨e,-,he⟩ := exists_of_forall₂ hes hp
      exact ⟨e,he⟩
    refine ⟨hfirst,Registry.exists_bit?_iff.mp ⟨bit,hbit⟩,?_,?_,hfit⟩
    · intro p hp
      exact (exists_encodeChecked_iff.mp (hpass p hp)).1
    · intro p hp hfetch
      obtain ⟨last,hlast,hraises⟩ := (exists_encodeChecked_iff.mp (hpass p hp)).2 hfetch
      exact ⟨last,hlast,bit,hbit,hraises⟩
  · intro h
    obtain ⟨bit,hbit⟩ := Registry.exists_bit?_iff.mpr h.reset_registered
    have hpass : ∀ p ∈ unit.catalog.programs, ∃ e,
        (encodeChecked unit.registry bit (resetName unit options) p).result = .ok e := by
      intro p hp
      refine exists_encodeChecked_iff.mpr ⟨h.names_registered p hp,?_⟩
      intro hfetch
      obtain ⟨last,hlast,bit',hbit',hraises⟩ := h.ends_in_reset p hp hfetch
      obtain rfl : bit = bit' := by simpa [hbit] using hbit'
      exact ⟨last,hlast,hraises⟩
    obtain ⟨es,hes⟩ := exists_mapM_eq_ok hpass
    rw [mapM_eq_ok] at hes
    obtain ⟨artifacts,t,hassemble,-⟩ := exists_assemble hnames
      (sameLengths_of_encodeChecked hes) (le_of_le_two_pow hbits h.fits)
    exact ⟨artifacts,compile_eq_ok_iff.mpr
      ⟨h.fetch_first,bit,es,hbit,hes,hbits,h.fits,hassemble⟩⟩

end Compile

/-- Address `a` is that of step `s` of program `i`: it counts the steps before this one. -/
def Catalog.StepAt (c : Catalog) (a i s : Nat) (step : Step) : Prop :=
  ∃ p, c.programs[i]? = some p ∧ p.steps[s]? = some step ∧ a = stepsBefore c.programs i + s

/-- Artifacts mean the steps of a unit. The table gives the word of each step at the address of the
step and zero at every other address; the image gives the same words, a line for each program. -/
structure Describes (unit : ControlUnit) (allocation : Allocation)
    (image : List (List ControlWord)) (t : Table) : Prop where
  lines : image.map List.length = unit.catalog.programs.map (·.steps.length)
  addresses : ∀ a i s step, unit.catalog.StepAt a i s step →
    allocation.address i s = .ok (some a) ∧ a < 2^t.width
  words : ∀ a i s step, unit.catalog.StepAt a i s step →
    ∃ w, unit.registry.Spells step w ∧ t.value a = some w ∧ (image[i]?.bind (·[s]?)) = some w
  elsewhere : ∀ a, (∀ i s step, ¬unit.catalog.StepAt a i s step) → t.value a = some 0

theorem exists_spelled {r : Registry} {ps : List Program} {es : List EncodedProgram}
    (h : List.Forall₂ (fun p e => p.encode r = .ok e) ps es) {i s : Nat} {p : Program} {step : Step}
    (hp : ps[i]? = some p) (hstep : p.steps[s]? = some step) :
    ∃ w, r.Spells step w ∧ (es[i]?.bind (·.words[s]?)) = some w := by
  obtain ⟨hi,rfl⟩ := List.getElem?_eq_some_iff.mp hp
  have hi' : i < es.length := h.length_eq ▸ hi
  have hsteps := (Program.encode_eq_ok_iff.mp (h.get hi hi')).2
  obtain ⟨hs,rfl⟩ := List.getElem?_eq_some_iff.mp hstep
  have hs' : s < es[i].words.length := hsteps.length_eq ▸ hs
  have hword := hsteps.get hs hs'
  exact ⟨es[i].words[s],(Registry.encode_eq_ok_iff.mp hword).2,by simp [hi',hs']⟩

/-- Behind a compilation that succeeds stand encoded programs that both artifacts hold. -/
theorem exists_lists_of_compile {unit : ControlUnit} {options : Options} {artifacts : Artifacts}
    (hnames : SingleLine unit options) (h : (compile unit options).result = .ok artifacts) :
    ∃ bit es t, unit.registry.bit? (resetName unit options) = some bit ∧
      List.Forall₂ (fun p e =>
        (encodeChecked unit.registry bit (resetName unit options) p).result = .ok e)
        unit.catalog.programs es ∧
      unit.catalog.allocate.total ≤ 2^63 ∧ artifacts.allocation = unit.catalog.allocate ∧
      Image.read artifacts.image = .ok (es.map (·.words)) ∧ Table.read artifacts.table = .ok t ∧
      Lists unit.catalog es t := by
  obtain ⟨-,bit,es,hbit,hes,hbits,hfit,hassemble⟩ := compile_eq_ok_iff.mp h
  have htotal := le_of_le_two_pow hbits hfit
  obtain ⟨artifacts',t,hassemble',hallocation,himage,htable,hlists⟩ :=
    exists_assemble hnames (sameLengths_of_encodeChecked hes) htotal
  obtain rfl : artifacts' = artifacts := by simpa [hassemble'] using hassemble
  exact ⟨bit,es,t,hbit,hes,htotal,hallocation,himage,htable,hlists⟩

/-- Artifacts that a compilation hands out can be read, and mean the steps of the unit. -/
theorem compile_describes {unit : ControlUnit} {options : Options} {artifacts : Artifacts}
    (hnames : SingleLine unit options) (h : (compile unit options).result = .ok artifacts) :
    ∃ t image, Table.read artifacts.table = .ok t ∧ Image.read artifacts.image = .ok image ∧
      Describes unit artifacts.allocation image t := by
  obtain ⟨bit,es,t,-,hes,htotal,hallocation,himage,htable,hlists⟩ :=
    exists_lists_of_compile hnames h
  have hlengths := sameLengths_of_encodeChecked hes
  have hencode : List.Forall₂ (fun p e => p.encode unit.registry = .ok e)
      unit.catalog.programs es := hes.imp fun p e he => (encodeChecked_eq_ok_iff.mp he).1
  have hlimit : unit.catalog.allocate.total ≤ addressLimit := le_trans htotal (by decide)
  refine ⟨t,es.map (·.words),htable,himage,?_,?_,?_,?_⟩
  · exact (hlists.agrees hlengths).lengths
  · intro a i s step hstep
    obtain ⟨p,hp,hs,rfl⟩ := hstep
    have hlt : s < p.steps.length := (List.getElem?_eq_some_iff.mp hs).1
    have hle := stepsBefore_add_length_le hp
    have hwidth := Table.total_le_two_pow hlists.width
    rw [Catalog.total_allocate] at hwidth
    rw [hallocation]
    exact ⟨Catalog.address_allocate hp hlt hlimit,by omega⟩
  · intro a i s step hstep
    obtain ⟨p,hp,hs,rfl⟩ := hstep
    obtain ⟨w,hspells,hw⟩ := exists_spelled hencode hp hs
    exact ⟨w,hspells,hlists.value_step hw,by rw [getElem?_words,hw]⟩
  · intro a hfree
    apply hlists.value_free hlengths
    by_contra hlt
    obtain ⟨i,p,s,hp,hs,ha⟩ := exists_step_of_lt (Nat.lt_of_not_le hlt)
    exact hfree i s p.steps[s] ⟨p,hp,List.getElem?_eq_getElem hs,ha⟩

theorem rv32i_describes : ∃ artifacts t image,
    (compile Rv32i.controlUnit { addressBits := 3, annotate := true }).result = .ok artifacts ∧
      Table.read artifacts.table = .ok t ∧ Image.read artifacts.image = .ok image ∧
      Describes Rv32i.controlUnit artifacts.allocation image t := by
  have hnames : SingleLine Rv32i.controlUnit { addressBits := 3, annotate := true } := by decide
  obtain ⟨artifacts,h⟩ := (exists_compile_iff hnames (by decide)).mpr (by decide)
  obtain ⟨t,image,htable,himage,hdescribes⟩ := compile_describes hnames h
  exact ⟨artifacts,t,image,h,htable,himage,hdescribes⟩

end ControlStore
