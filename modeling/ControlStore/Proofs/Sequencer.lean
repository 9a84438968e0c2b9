import ControlStore.Proofs.Warnings

/-! Runs of the control store. The sequencer executes the word at an address and goes on to the
next address, or back to zero if the word raises the reset line. Dispatched to an opcode program, it
executes the steps of that program up to the first reset and never leaves it before. -/
namespace ControlStore

open Checks

namespace Table

variable {t : Table} {bit : Fin wordWidth} {a start r : Nat}

def raises (t : Table) (bit : Fin wordWidth) (a : Nat) : Bool :=
  (t.value a).any (·.getLsbD bit)

/-- The address that the sequencer executes after `a`, with the reset line at `bit`. -/
def next (t : Table) (bit : Fin wordWidth) (a : Nat) : Nat :=
  if t.raises bit a then 0 else a+1

def run (t : Table) (bit : Fin wordWidth) (start k : Nat) : Nat := (t.next bit)^[k] start

theorem run_succ (t : Table) (bit : Fin wordWidth) (start k : Nat) :
    t.run bit start (k+1) = t.next bit (t.run bit start k) :=
  Function.iterate_succ_apply' (t.next bit) k start

theorem next_of_reset (h : t.raises bit a = true) : t.next bit a = 0 := by
  rw [next,if_pos h]

theorem next_of_no_reset (h : t.raises bit a = false) : t.next bit a = a+1 := by
  rw [next,h]
  rfl

theorem run_of_no_reset (h : ∀ k < r, t.raises bit (start+k) = false) {k : Nat} (hk : k ≤ r) :
    t.run bit start k = start+k := by
  induction k with
  | zero => rfl
  | succ k ih =>
    have hrun := ih (by omega)
    rw [run_succ,hrun,next_of_no_reset (h k (by omega)),Nat.add_assoc]

theorem run_of_reset (h : ∀ k < r, t.raises bit (start+k) = false)
    (hreset : t.raises bit (start+r) = true) : t.run bit start (r+1) = 0 := by
  rw [run_succ,run_of_no_reset h le_rfl,next_of_reset hreset]

end Table

/-- A run of the sequencer from `start` through the program at position `i`, whose first reset is in
step `r`. It executes the steps up to `r` in order, all of them at addresses of the program, and
then goes back to zero. -/
structure RunsThrough (allocation : Allocation) (t : Table) (bit : Fin wordWidth) (i start r : Nat)
    (place : Placement) : Prop where
  inside : ∀ k ≤ r, place.base ≤ t.run bit start k ∧
    t.run bit start k < place.base+place.length
  executes : ∀ k ≤ r, allocation.address i k = .ok (some (t.run bit start k))
  resets : ∀ k ≤ r, t.raises bit (t.run bit start k) = true ↔ k = r
  returns : t.run bit start (r+1) = 0

theorem raises_step {unit : ControlUnit} {es : List EncodedProgram} {t : Table}
    (hencode : List.Forall₂ (fun p e => p.encode unit.registry = .ok e) unit.catalog.programs es)
    (hlists : Lists unit.catalog es t) {i s : Nat} {p : Program} {bit : Fin wordWidth}
    (hp : unit.catalog.programs[i]? = some p) (hs : s < p.steps.length) :
    t.raises bit (stepsBefore unit.catalog.programs i + s) =
      decide (unit.registry.Raises p.steps[s] bit) := by
  obtain ⟨w,hspells,hw⟩ := exists_spelled hencode hp (List.getElem?_eq_getElem hs)
  rw [Table.raises,hlists.value_step hw,Bool.eq_iff_iff,decide_eq_true_iff]
  exact hspells bit

theorem exists_firstReset {r : Registry} {bit : Fin wordWidth} {p : Program} {last : Step}
    (hlast : p.steps.getLast? = some last) (hraises : r.Raises last bit) :
    ∃ step, r.firstReset bit p = some step := by
  rw [← Option.isSome_iff_exists,Registry.firstReset,List.findIdx?_isSome,List.any_eq_true]
  exact ⟨last,List.mem_of_getLast? hlast,decide_eq_true hraises⟩

/-- From its first address on, a program runs up to its first reset. -/
theorem runsThrough_of_lists {unit : ControlUnit} {es : List EncodedProgram} {t : Table}
    (hencode : List.Forall₂ (fun p e => p.encode unit.registry = .ok e) unit.catalog.programs es)
    (hlists : Lists unit.catalog es t) {i r : Nat} {p : Program} {bit : Fin wordWidth}
    {place : Placement} (hp : unit.catalog.programs[i]? = some p)
    (hplace : unit.catalog.allocate.placements[i]? = some place)
    (hr : unit.registry.firstReset bit p = some r) :
    r+1 ≤ p.steps.length ∧ RunsThrough unit.catalog.allocate t bit i place.base r place := by
  obtain ⟨hlt,hreset,hbefore⟩ := List.findIdx?_eq_some_iff_getElem.mp hr
  rw [Catalog.getElem?_placements_allocate,hp,Option.map_some] at hplace
  obtain rfl := Option.some.inj hplace
  have hclear : ∀ k < r, t.raises bit (stepsBefore unit.catalog.programs i + k) = false := by
    intro k hk
    rw [raises_step hencode hlists hp (by omega)]
    simpa using hbefore k hk
  have hset : t.raises bit (stepsBefore unit.catalog.programs i + r) = true := by
    rw [raises_step hencode hlists hp hlt]
    exact hreset
  have hlimit := (Table.total_lt_addressLimit hlists.width).le
  refine ⟨hlt,?_,?_,?_,Table.run_of_reset hclear hset⟩
  · intro k hk
    rw [Table.run_of_no_reset hclear hk]
    dsimp only
    omega
  · intro k hk
    rw [Table.run_of_no_reset hclear hk]
    exact Catalog.address_allocate hp (by omega) hlimit
  · intro k hk
    rw [Table.run_of_no_reset hclear hk]
    constructor
    · intro hk'
      by_contra hne
      rw [hclear k (by omega)] at hk'
      cases hk'
    · intro hkr
      rw [hkr]
      exact hset

/-- Control never leaves an opcode program before it resets, and the warnings tell exactly which
steps are never executed. -/
theorem compile_runs_and_warns {unit : ControlUnit} {options : Options} {artifacts : Artifacts}
    (hnames : SingleLine unit options) (h : (compile unit options).result = .ok artifacts) :
    ∃ t bit fetch, Table.read artifacts.table = .ok t ∧
      unit.registry.bit? (resetName unit options) = some bit ∧
      unit.catalog.programs.head? = some fetch ∧ fetch.name = fetchName ∧
      (∀ i p, unit.catalog.programs[i]? = some p → p.name ≠ fetchName →
        ∃ place offset r, artifacts.allocation.placements[i]? = some place ∧
          place.name = p.name ∧ place.length = p.steps.length ∧ place.offset = some offset ∧
          unit.registry.firstReset bit p = some r ∧ r+1 ≤ p.steps.length ∧
          RunsThrough artifacts.allocation t bit i (fetch.steps.length+offset) r place) ∧
      (compile unit options).events.filter (·.level = .warn) =
        unit.registry.warnings bit (resetName unit options) unit.catalog.programs ∧
      ((compile unit options).events.filter (·.level = .warn)).map (·.message) =
        (unit.catalog.programs.filter (·.name ≠ fetchName)).filterMap
          (unit.registry.warningText bit (resetName unit options)) := by
  obtain ⟨bit,es,t,hbit,hes,-,hallocation,-,htable,hlists⟩ := exists_lists_of_compile hnames h
  obtain ⟨fetch,hfirst,hfetch⟩ := Option.map_eq_some_iff.mp (compile_eq_ok_iff.mp h).1
  have hwarn := filter_warn_events_compile h hbit
  refine ⟨t,bit,fetch,htable,hbit,hfirst,hfetch,?_,hwarn,?_⟩
  · intro i p hp hopcode
    have hencode : List.Forall₂ (fun p e => p.encode unit.registry = .ok e)
        unit.catalog.programs es := hes.imp fun p e he => (encodeChecked_eq_ok_iff.mp he).1
    obtain ⟨e,-,he⟩ := exists_of_forall₂ hes (List.mem_of_getElem? hp)
    obtain ⟨last,hlast,hraises⟩ := (exists_encodeChecked_iff.mp ⟨e,he⟩).2 hopcode
    obtain ⟨r,hr⟩ := exists_firstReset hlast hraises
    have hfetch' : p.isFetch = false := by simp [Program.isFetch,hopcode]
    have hstart := Catalog.stepsBefore_of_fetch_first hfirst (by simp [Program.isFetch,hfetch]) hp
      hfetch'
    have hplace := Catalog.getElem?_placements_allocate unit.catalog i
    rw [hp,Option.map_some,hfetch'] at hplace
    obtain ⟨hlt,hruns⟩ := runsThrough_of_lists hencode hlists hp hplace hr
    rw [hallocation]
    exact ⟨_,_,r,hplace,rfl,rfl,rfl,hr,hlt,hstart ▸ hruns⟩
  · have htexts : (fun p => (unit.registry.warning bit (resetName unit options) p).map (·.message)) =
        unit.registry.warningText bit (resetName unit options) := by
      funext p
      exact Registry.map_message_warning ..
    rw [hwarn,Registry.warnings,List.map_filterMap,htexts]

/-- An opcode program of four steps that resets in the second. -/
def shortcut : ControlUnit where
  registry := Rv32i.registry
  catalog := { programs := [Rv32i.program "fetch" [[.memoryRead]],
    Rv32i.program "op" [[.incrementPc],[.microReset],[],[.incrementPc,.microReset]]] }
  reset := none

/-- Dispatched past the one step of fetch, the program executes two steps, and a warning tells that
the other two are unreachable. -/
theorem shortcut_runs_and_warns : ∃ artifacts t,
    (compile shortcut {}).result = .ok artifacts ∧ Table.read artifacts.table = .ok t ∧
      RunsThrough artifacts.allocation t Rv32i.Line.microReset.bit 1 1 1 ⟨"op",1,4,some 0⟩ ∧
      (compile shortcut {}).events.filter (·.level = .warn) =
        [.unreachable "op" "micro_reset" 1 4] := by
  have hnames : SingleLine shortcut {} := by decide
  obtain ⟨artifacts,h⟩ := (exists_compile_iff hnames (by decide)).mpr (by decide)
  obtain ⟨t,bit,fetch,htable,hbit,hfirst,-,hruns,hwarn,-⟩ := compile_runs_and_warns hnames h
  obtain rfl : Rv32i.Line.microReset.bit = bit := Option.some.inj hbit
  obtain rfl : Rv32i.program "fetch" [[.memoryRead]] = fetch := Option.some.inj hfirst
  obtain ⟨place,offset,r,hplace,-,-,hoffset,hr,-,hrun⟩ := hruns 1 _ rfl (by decide)
  obtain rfl : 1 = r := Option.some.inj hr
  have hallocation : artifacts.allocation = shortcut.catalog.allocate := by
    obtain ⟨_,_,_,-,-,-,hallocation,-⟩ := exists_lists_of_compile hnames h
    exact hallocation
  rw [hallocation] at hplace
  obtain rfl : ⟨"op",1,4,some 0⟩ = place := Option.some.inj hplace
  obtain rfl : 0 = offset := Option.some.inj hoffset
  exact ⟨artifacts,t,h,htable,hrun,hwarn⟩

end ControlStore
