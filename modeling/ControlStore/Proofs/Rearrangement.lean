import Mathlib.Data.List.Perm.Basic
import ControlStore.Proofs.Compile

/-! The order in which control lines are declared, and the way in which steps list their names,
leave no trace in the artifacts. What is looked up depends on the set of control lines, words depend
on sets of names, and the table prints the lines sorted by their bits, which are distinct. -/
namespace ControlStore

open Checks

/-- Two steps name the same control lines, in whatever order and however often. -/
def SameNames (step step' : Step) : Prop := ∀ name, name ∈ step ↔ name ∈ step'

def Registry.SameSignals (r r' : Registry) : Prop := ∀ s, s ∈ r.signals ↔ s ∈ r'.signals

structure Program.Rearranges (p p' : Program) : Prop where
  name : p.name = p'.name
  steps : List.Forall₂ SameNames p.steps p'.steps

/-- Two units declare the same control lines and the same programs and have the same reset line. -/
structure ControlUnit.Rearranges (unit unit' : ControlUnit) : Prop where
  registry : unit.registry.SameSignals unit'.registry
  programs : List.Forall₂ Program.Rearranges unit.catalog.programs unit'.catalog.programs
  reset : unit.reset = unit'.reset

namespace Registry.SameSignals

variable {r r' : Registry} {step step' : Step} {w : ControlWord}

theorem bit?_eq (h : r.SameSignals r') (name : String) : r.bit? name = r'.bit? name := by
  apply Option.ext
  intro bit
  rw [bit?_eq_some_iff,bit?_eq_some_iff]
  simp only [h _]

/-- Sorting by bits forgets the order of declaration, because no two lines have one bit. -/
theorem byBit_eq (h : r.SameSignals r') : r.byBit = r'.byBit := by
  have hperm : r.signals.Perm r'.signals :=
    (List.perm_ext_iff_of_nodup r.names_nodup.of_map r'.names_nodup.of_map).mpr h
  refine List.Perm.eq_of_pairwise ?_ r.pairwise_byBit r'.pairwise_byBit
    (r.byBit_perm.trans (hperm.trans r'.byBit_perm.symm))
  intro a b _ _ hab hba
  exact absurd hba (Fin.lt_asymm hab)

theorem encode_iff (h : r.SameSignals r') (hnames : SameNames step step') :
    r.encode step = .ok w ↔ r'.encode step' = .ok w := by
  rw [encode_eq_ok_iff,encode_eq_ok_iff]
  simp only [Spells,Raises,Registered,h _,hnames _]

theorem assemble_eq (h : r.SameSignals r') (es : List EncodedProgram) (allocation : Allocation)
    (options : Options) : assemble r es allocation options = assemble r' es allocation options := by
  have htable : Table.render es allocation r options.moduleName =
      Table.render es allocation r' options.moduleName := by
    simp only [Table.render,Table.header,h.byBit_eq]
  rw [assemble,assemble,htable]

end Registry.SameSignals

namespace Program.Rearranges

variable {p p' : Program} {r r' : Registry}

theorem isFetch_eq (h : p.Rearranges p') : p.isFetch = p'.isFetch := by
  rw [isFetch,isFetch,h.name]

theorem length_steps_eq (h : p.Rearranges p') : p.steps.length = p'.steps.length :=
  h.steps.length_eq

theorem encode_iff (h : p.Rearranges p') (hr : r.SameSignals r') (e : EncodedProgram) :
    p.encode r = .ok e ↔ p'.encode r' = .ok e := by
  rw [encode_eq_ok_iff,encode_eq_ok_iff,h.name]
  refine and_congr_right fun _ => ?_
  exact forall₂_iff_of_forall₂ h.steps fun step step' hnames w => hr.encode_iff hnames

theorem encodeChecked_iff (h : p.Rearranges p') (hr : r.SameSignals r') (bit : Fin wordWidth)
    (reset : String) (e : EncodedProgram) :
    (encodeChecked r bit reset p).result = .ok e ↔
      (encodeChecked r' bit reset p').result = .ok e := by
  rw [encodeChecked_eq_ok_iff,encodeChecked_eq_ok_iff,h.encode_iff hr,h.name]

end Program.Rearranges

theorem placeFrom_eq {ps ps' : List Program} (h : List.Forall₂ Program.Rearranges ps ps')
    (base offset : Nat) : placeFrom base offset ps = placeFrom base offset ps' := by
  induction h generalizing base offset with
  | nil => rfl
  | cons hp _ ih => simp only [placeFrom,hp.isFetch_eq,hp.name,hp.length_steps_eq,ih]

theorem length_flatMap_steps_eq {ps ps' : List Program}
    (h : List.Forall₂ Program.Rearranges ps ps') :
    (ps.flatMap (·.steps)).length = (ps'.flatMap (·.steps)).length := by
  induction h with
  | nil => rfl
  | cons hp _ ih =>
    rw [List.flatMap_cons,List.flatMap_cons,List.length_append,List.length_append,
      hp.length_steps_eq,ih]

theorem Catalog.allocate_eq {c c' : Catalog}
    (h : List.Forall₂ Program.Rearranges c.programs c'.programs) : c.allocate = c'.allocate := by
  rw [allocate,allocate,placeFrom_eq h,length_flatMap_steps_eq h]

theorem head?_name_eq {ps ps' : List Program} (h : List.Forall₂ Program.Rearranges ps ps') :
    ps.head?.map (·.name) = ps'.head?.map (·.name) := by
  cases h with
  | nil => rfl
  | cons hp _ => simp [hp.name]

/-- Two units that differ in the order of their declarations and in the way their steps are written
compile alike: either both are refused, or both give the same allocation and the same texts. -/
theorem compile_of_rearranged {unit unit' : ControlUnit} (h : unit.Rearranges unit')
    (options : Options) (artifacts : Artifacts) :
    (compile unit options).result = .ok artifacts ↔
      (compile unit' options).result = .ok artifacts := by
  have hreset : resetName unit options = resetName unit' options := by
    rw [resetName,resetName,h.reset]
  rw [compile_eq_ok_iff,compile_eq_ok_iff,head?_name_eq h.programs,hreset,h.registry.bit?_eq,
    Catalog.allocate_eq h.programs]
  simp only [h.registry.assemble_eq]
  refine and_congr_right fun _ => exists_congr fun bit => exists_congr fun es => ?_
  refine and_congr_right fun _ => and_congr_left fun _ => ?_
  exact forall₂_iff_of_forall₂ h.programs fun p p' hp e => hp.encodeChecked_iff h.registry bit _ e

/-- Two ways to write down a unit: control lines declared in another order, and names of a step
repeated and exchanged. -/
theorem compile_rearranged_pair : ∃ unit unit' : ControlUnit, unit ≠ unit' ∧
    unit.Rearranges unit' ∧ ∃ artifacts,
      (compile unit { addressBits := 2, annotate := true }).result = .ok artifacts ∧
      (compile unit' { addressBits := 2, annotate := true }).result = .ok artifacts := by
  let unit : ControlUnit := ⟨{ signals := [⟨"load",7⟩,⟨"halt",0⟩] },
    { programs := [⟨"fetch",[[]]⟩,⟨"op",[["load","load"],["load","halt"]]⟩] },some "halt"⟩
  let unit' : ControlUnit := ⟨{ signals := [⟨"halt",0⟩,⟨"load",7⟩] },
    { programs := [⟨"fetch",[[]]⟩,⟨"op",[["load"],["halt","load","halt"]]⟩] },some "halt"⟩
  have hsteps : unit.Rearranges unit' := by
    refine ⟨fun s => ?_,?_,rfl⟩
    · simp [unit,unit',or_comm]
    · refine .cons ⟨rfl,.cons (fun _ => .rfl) .nil⟩ (.cons ⟨rfl,.cons ?_ (.cons ?_ .nil)⟩ .nil)
      · intro name
        simp
      · intro name
        simp [or_comm]
  have hnames : SingleLine unit { addressBits := 2, annotate := true } := by decide
  obtain ⟨artifacts,hcompile⟩ := (exists_compile_iff hnames (by decide)).mpr (by decide)
  exact ⟨unit,unit',by decide,hsteps,artifacts,hcompile,
    (compile_of_rearranged hsteps _ artifacts).mp hcompile⟩

end ControlStore
