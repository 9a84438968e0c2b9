import ControlStore.Proofs.Defects
import ControlStore.Proofs.Warnings

/-! What is reported about a unit that is refused. The error is its first defect. The warnings are
those about the programs that passed before the defect was found, and nothing else is reported. -/
namespace ControlStore

open Checks

/-- The programs that have passed when a unit is refused. None is looked at if the catalog or the
reset line is at fault; those before the program at fault have passed; all have if there are too many
steps. -/
inductive PassedBefore (unit : ControlUnit) (options : Options) : Error → List Program → Prop
  | catalog (e : CatalogError) : PassedBefore unit options (.catalog e) []
  | reset (name : String) : PassedBefore unit options (.undefinedReset name) []
  | program {bit : Fin wordWidth} {front rest : List Program} {p : Program} {e : Error}
      (hbit : unit.registry.bit? (resetName unit options) = some bit)
      (hprograms : unit.catalog.programs = front ++ p :: rest)
      (hfront : ∀ q ∈ front, unit.registry.Passes bit q)
      (hp : unit.registry.Faults bit (resetName unit options) p e) :
      PassedBefore unit options e front
  | size (steps bits room : Nat) :
      PassedBefore unit options (.tooManySteps steps bits room) unit.catalog.programs

def ControlUnit.warnings (unit : ControlUnit) (options : Options) (ps : List Program) :
    List Event :=
  match unit.registry.bit? (resetName unit options) with
  | none => []
  | some bit => unit.registry.warnings bit (resetName unit options) ps

namespace ControlUnit

variable {unit : ControlUnit} {options : Options}

@[simp] theorem warnings_nil : unit.warnings options [] = [] := by
  rw [warnings]
  split <;> rfl

theorem warnings_of_bit {bit : Fin wordWidth} (ps : List Program)
    (hbit : unit.registry.bit? (resetName unit options) = some bit) :
    unit.warnings options ps = unit.registry.warnings bit (resetName unit options) ps := by
  rw [warnings,hbit]

theorem level_of_mem_warnings {ps : List Program} {event : Event}
    (h : event ∈ unit.warnings options ps) : event.level = .warn := by
  rw [warnings] at h
  split at h
  · simp at h
  · exact ControlStore.level_of_mem_warnings h

end ControlUnit

section Program

variable {r : Registry} {bit : Fin wordWidth} {reset : String} {p : Program} {e : EncodedProgram}
  {err : Error}

theorem events_encodeChecked_of_error (h : (encodeChecked r bit reset p).result = .error err) :
    (encodeChecked r bit reset p).events = [] := by
  cases hencode : p.encode r with
  | error fault =>
    have hstop : (Logged.ofExcept ((p.encode r).mapError Error.undefinedSignal)).result =
        .error (.undefinedSignal fault) := by
      rw [hencode]
      rfl
    rw [encodeChecked,Logged.events_bind_of_error hstop,Logged.events_ofExcept]
  | ok e =>
    have hgo : (Logged.ofExcept ((p.encode r).mapError Error.undefinedSignal)).result = .ok e := by
      rw [hencode]
      rfl
    have hends : p.name ≠ fetchName ∧ ¬e.EndsIn bit := by
      by_contra hpass
      rw [not_and_not_right] at hpass
      rw [encodeChecked_eq_ok_iff.mpr ⟨hencode,hpass⟩] at h
      cases h
    have hfetch : p.isFetch = false := by simpa [Program.isFetch] using hends.1
    rw [encodeChecked,Logged.events_bind_of_ok hgo,Logged.events_ofExcept,List.nil_append,hfetch]
    exact (Logged.events_bind_of_error (checkReset_eq_error hends.2) _).trans
      (by rw [checkReset_of_not_endsIn hends.2,Logged.events_ofExcept])

end Program

section Compile

variable {unit : ControlUnit} {options : Options} {err : Error} {bit : Fin wordWidth}

theorem exists_encodeChecked_of_passes {ps : List Program} {r : Registry} (reset : String)
    (h : ∀ p ∈ ps, r.Passes bit p) :
    ∃ es, List.Forall₂ (fun p e => (encodeChecked r bit reset p).result = .ok e) ps es := by
  obtain ⟨es,hes⟩ := exists_mapM_eq_ok fun p hp => exists_encodeChecked_iff_passes.mpr (h p hp)
  exact ⟨es,mapM_eq_ok.mp hes⟩

/-- Before a unit is refused for its first defect, it is warned about the programs that passed. -/
theorem FirstDefect.exists_passed (h : FirstDefect unit options err)
    (hbits : options.addressBits < 64) :
    ∃ passed, PassedBefore unit options err passed ∧
      (compile unit options).events = unit.warnings options passed := by
  cases h with
  | noFetch hnone =>
    have hvalid := Catalog.validate_eq_error_iff.mpr (.inl ⟨hnone,rfl⟩)
    exact ⟨[],.catalog _,by rw [compile_of_catalog_error hvalid,ControlUnit.warnings_nil]; rfl⟩
  | lateFetch hprograms hfirst hrest =>
    have hvalid := Catalog.validate_eq_error_iff.mpr (.inr ⟨_,_,hprograms,hfirst,hrest,rfl⟩)
    exact ⟨[],.catalog _,by rw [compile_of_catalog_error hvalid,ControlUnit.warnings_nil]; rfl⟩
  | reset hfetch hreset =>
    have hstop := compile_of_undefined_reset (Catalog.validate_eq_ok_iff.mpr hfetch)
      (Registry.bit?_eq_none_iff.mpr hreset)
    exact ⟨[],.reset _,by rw [hstop,ControlUnit.warnings_nil]; rfl⟩
  | @program bit front rest p _ hfetch hbit hprograms hfront hp =>
    refine ⟨front,.program hbit hprograms hfront hp,?_⟩
    obtain ⟨es,hes⟩ := exists_encodeChecked_of_passes (resetName unit options) hfront
    have hfault := encodeChecked_eq_error_iff.mpr hp
    have hstop : (unit.catalog.programs.mapM
        (encodeChecked unit.registry bit (resetName unit options))).result = .error err := by
      rw [Logged.result_mapM,hprograms]
      exact mapM_eq_error.mpr ⟨front,p,rest,rfl,
        fun q hq => exists_encodeChecked_iff_passes.mpr (hfront q hq),hfault⟩
    rw [compile_of_bit (Catalog.validate_eq_ok_iff.mpr hfetch) hbit,
      Logged.events_bind_of_error hstop,hprograms,Logged.events_mapM_of_error hes hfault,
      events_encodeChecked_of_error hfault,List.append_nil,flatMap_events_encodeChecked hes,
      ControlUnit.warnings_of_bit _ hbit]
  | @size bit hfetch hbit hpass htotal =>
    refine ⟨unit.catalog.programs,.size _ _ _,?_⟩
    obtain ⟨es,hes⟩ := exists_encodeChecked_of_passes (resetName unit options) hpass
    have hgo : (unit.catalog.programs.mapM
        (encodeChecked unit.registry bit (resetName unit options))).result = .ok es := by
      rw [Logged.result_mapM]
      exact mapM_eq_ok.mpr hes
    have hstop : (Logged.ofExcept (allocateWithin unit.catalog options.addressBits)).result =
        .error (.tooManySteps unit.catalog.allocate.total options.addressBits
          (2^options.addressBits)) := by
      rw [Logged.result_ofExcept,allocateWithin_eq _ hbits,if_neg (Nat.not_le_of_lt htotal)]
    rw [compile_of_bit (Catalog.validate_eq_ok_iff.mpr hfetch) hbit,Logged.events_bind_of_ok hgo,
      Logged.events_bind_of_error hstop,Logged.events_ofExcept,List.append_nil,
      Logged.events_mapM hes,flatMap_events_encodeChecked hes,ControlUnit.warnings_of_bit _ hbit]

end Compile

/-- A unit is refused for its first defect. Before that, exactly the programs that passed are warned
about, each at most once, and no other record is written. -/
theorem compile_refuses_first_defect {unit : ControlUnit} {options : Options}
    (hnames : SingleLine unit options) (hbits : options.addressBits ≤ 63) (err : Error) :
    ((compile unit options).result = .error err ↔ FirstDefect unit options err) ∧
      ((compile unit options).result = .error err →
        ∃ passed, PassedBefore unit options err passed ∧
          (compile unit options).events = unit.warnings options passed ∧
          (compile unit options).events.filter (·.level = .warn) =
            unit.warnings options passed) := by
  have hlt : options.addressBits < 64 := by omega
  refine ⟨compile_eq_error_iff hnames hlt,fun h => ?_⟩
  obtain ⟨passed,hpassed,hevents⟩ := ((compile_eq_error_iff hnames hlt).mp h).exists_passed hlt
  refine ⟨passed,hpassed,hevents,?_⟩
  rw [hevents,List.filter_eq_self]
  intro event hevent
  exact decide_eq_true (ControlUnit.level_of_mem_warnings hevent)

/-- The third program has a name that is not registered behind one that is, and does not end in a
reset; the fourth is empty. -/
def flawed : ControlUnit where
  registry := Rv32i.registry
  catalog := { programs := [⟨"fetch",[["memory_read"]]⟩,
    ⟨"op",[["micro_reset"],["memory_read","micro_reset"]]⟩,
    ⟨"bad",[["micro_reset"],["memory_read","ghost","spook"]]⟩,⟨"worse",[]⟩] }
  reset := none

theorem compile_refuses_first_defect_flawed : SingleLine flawed {} ∧
    (compile flawed {}).result = .error (.undefinedSignal ⟨"ghost","bad",1⟩) ∧
    FirstDefect flawed {} (.undefinedSignal ⟨"ghost","bad",1⟩) ∧
    ∃ passed, PassedBefore flawed {} (.undefinedSignal ⟨"ghost","bad",1⟩) passed ∧
      flawed.warnings {} passed = [.unreachable "op" "micro_reset" 0 2] := by
  have hnames : SingleLine flawed {} := by decide
  have hrefused : (compile flawed {}).result = .error (.undefinedSignal ⟨"ghost","bad",1⟩) := by rfl
  have hwarned : (compile flawed {}).events = [.unreachable "op" "micro_reset" 0 2] := by decide
  obtain ⟨hiff,hlog⟩ := compile_refuses_first_defect hnames (by decide)
    (.undefinedSignal ⟨"ghost","bad",1⟩)
  obtain ⟨passed,hpassed,hevents,-⟩ := hlog hrefused
  exact ⟨hnames,hrefused,hiff.mp hrefused,passed,hpassed,hevents.symm.trans hwarned⟩

end ControlStore
