import Mathlib.Logic.Relation
import ControlStore.Proofs.Checks
import ControlStore.Proofs.Text.Pieces
import ControlStore.Source

/-! What reading a source can do to a reader. Every line comes down to a few moves, each of which
takes in identifiers only, so a fact about the names of a unit is a fact about these moves. -/
namespace ControlStore

open Checks Text

theorem Text.not_mem_of_isIdentifier {name : String} {c : Char} (h : isIdentifier name = true)
    (hc : (c.isAlphanum || c = '_') = false) : c ∉ name.toList := by
  rw [isIdentifier] at h
  intro hmem
  cases hname : name.toList with
  | nil => simp [hname] at hmem
  | cons d ds =>
    simp only [hname,Bool.and_eq_true,List.all_eq_true] at h
    rw [hname] at hmem
    rcases List.mem_cons.mp hmem with rfl | hds
    · have hfirst := h.1
      simp_all [Char.isAlphanum]
    · rw [h.2 c hds] at hc
      cases hc

theorem Text.isLine_of_isIdentifier {name : String} (h : isIdentifier name = true) :
    IsLine name :=
  not_mem_of_isIdentifier h (by decide)

theorem Registry.signals_of_register {r r' : Registry} {name : String} {bit : Nat}
    (h : r.register name bit = .ok r') :
    ∃ hbit : bit < wordWidth, r'.signals = r.signals ++ [⟨name,⟨bit,hbit⟩⟩] := by
  rw [register] at h
  split at h
  · rename_i hbit
    refine ⟨hbit,?_⟩
    split at h
    · cases h
    · split at h
      · cases h
      · cases h
        rfl
  · cases h

theorem Catalog.programs_of_push {c c' : Catalog} {p : Program} (h : c.push p = .ok c') :
    c'.programs = c.programs ++ [p] := by
  rw [push] at h
  split at h
  · cases h
  · cases h
    rfl

namespace Source

section Names

variable {kind : NameKind} {marker : Marker} {name : String}

theorem checkName_eq_ok {u : Unit} : checkName kind name = .ok u ↔ isIdentifier name = true := by
  rw [checkName]
  split <;> simp_all

theorem isIdentifier_of_declaration {term : String} {d : Declaration}
    (h : Declaration.read term = .ok d) : isIdentifier d.name = true := by
  rw [Declaration.read] at h
  split at h
  · obtain ⟨u,hname,hd⟩ := bind_eq_ok.mp h
    cases hd
    exact checkName_eq_ok.mp hname
  · split at h
    · cases h
    · obtain ⟨u,hname,hd⟩ := bind_eq_ok.mp h
      cases hd
      exact checkName_eq_ok.mp hname

theorem isIdentifier_of_singleName {cs : List Char} (h : singleName marker kind cs = .ok name) :
    isIdentifier name = true := by
  rw [singleName] at h
  split at h
  · cases h
  · obtain ⟨u,hcheck,hname⟩ := bind_eq_ok.mp h
    cases hname
    exact checkName_eq_ok.mp hcheck
  · cases h

/-- The names that a statement brings along are identifiers. -/
theorem isIdentifier_of_statement {line : String} {statement : Statement}
    (h : Statement.read line = .ok statement) :
    match statement with
    | .blank | .declare _ => True
    | .reset name | .program name => isIdentifier name = true
    | .step names => ∀ name ∈ names, isIdentifier name = true := by
  rw [Statement.read] at h
  split at h
  · cases h
    trivial
  · split at h
    · cases h
    · cases h
      trivial
  · obtain ⟨name,hname,rfl⟩ := map_eq_ok.mp h
    exact isIdentifier_of_singleName hname
  · obtain ⟨name,hname,rfl⟩ := map_eq_ok.mp h
    exact isIdentifier_of_singleName hname
  · obtain ⟨u,hnames,hstep⟩ := bind_eq_ok.mp h
    cases hstep
    intro name hname
    exact checkName_eq_ok.mp (forM_eq_ok.mp hnames name hname)
  · cases h

end Names

namespace Reader

inductive Moves : Reader → Reader → Prop
  | count (r : Reader) : Moves r { r with lineCount := r.lineCount+1 }
  | declare {r : Reader} {name : String} {bit : Nat} {registry : Registry}
      (hname : isIdentifier name = true) (h : r.registry.register name bit = .ok registry) :
      Moves r { r with registry, nextBit := bit+1 }
  | reset {r : Reader} {name : String} (hname : isIdentifier name = true) (h : r.reset = none) :
      Moves r { r with reset := some name }
  | program {r : Reader} {name : String} {catalog : Catalog} (hname : isIdentifier name = true)
      (h : r.catalog.push ⟨name,[]⟩ = .ok catalog) : Moves r { r with catalog }
  | step {r : Reader} {step : Step} (hstep : ∀ name ∈ step, isIdentifier name = true)
      (h : r.catalog.programs ≠ []) : Moves r { r with catalog := r.catalog.appendStep step }

abbrev Reaches : Reader → Reader → Prop := Relation.ReflTransGen Moves

theorem moves_of_declare {r r' : Reader} {term : String} (h : r.declare term = .ok r') :
    Moves r r' := by
  rw [Reader.declare] at h
  split at h
  · cases h
  · rename_i d hd
    dsimp only at h
    split at h
    · cases h
    · rename_i registry hregistry
      cases h
      exact .declare (isIdentifier_of_declaration hd) hregistry

theorem reaches_declareAll (r : Reader) (terms : List String) :
    Reaches r (r.declareAll terms).1 := by
  induction terms generalizing r with
  | nil => exact .refl
  | cons term terms ih =>
    rw [declareAll]
    split
    · exact .refl
    · rename_i r' hr'
      exact .head (moves_of_declare hr') (ih r')

theorem reaches_orElse {r : Reader} {x : Except Fault Reader}
    (h : ∀ r', x = .ok r' → Moves r r') : Reaches r (r.orElse x).1 := by
  cases x with
  | error fault => exact .refl
  | ok r' => exact .single (h r' rfl)

theorem moves_of_setReset {r r' : Reader} {name : String} (hname : isIdentifier name = true)
    (h : r.setReset name = .ok r') : Moves r r' := by
  rw [setReset] at h
  split at h
  · cases h
  · rename_i hnone
    cases h
    exact .reset hname hnone

theorem moves_of_startProgram {r r' : Reader} {name : String} (hname : isIdentifier name = true)
    (h : r.startProgram name = .ok r') : Moves r r' := by
  rw [startProgram] at h
  split at h
  · cases h
  · rename_i catalog hcatalog
    cases h
    exact .program hname hcatalog

theorem moves_of_addStep {r r' : Reader} {step : Step}
    (hstep : ∀ name ∈ step, isIdentifier name = true) (h : r.addStep step = .ok r') :
    Moves r r' := by
  rw [addStep] at h
  split at h
  · cases h
  · rename_i hne
    cases h
    exact .step hstep hne

theorem reaches_take (r : Reader) (line : Except ReadFault String) :
    Reaches r (r.take line).1 := by
  cases line with
  | error fault => exact .refl
  | ok text =>
    simp only [Reader.take]
    cases hread : Statement.read text with
    | error fault => exact .refl
    | ok statement =>
      have hnames := isIdentifier_of_statement hread
      cases statement with
      | blank => exact .refl
      | declare terms => exact reaches_declareAll r terms
      | reset name => exact reaches_orElse fun r' => moves_of_setReset hnames
      | program name => exact reaches_orElse fun r' => moves_of_startProgram hnames
      | step names => exact reaches_orElse fun r' => moves_of_addStep hnames

theorem reaches_readLine (r : Reader) (line : Except ReadFault String) :
    Reaches r (r.readLine line).1 :=
  .head (.count r) (reaches_take _ line)

/-- Reading lines, whether it ends with an error or not, comes down to moves. -/
theorem reaches_readLines (r : Reader) (lines : List (Except ReadFault String)) :
    Reaches r (r.readLines lines).1 := by
  induction lines generalizing r with
  | nil => exact .refl
  | cons line lines ih =>
    have hline := reaches_readLine r line
    rw [readLines]
    split
    · rename_i r' e hr'
      rwa [hr'] at hline
    · rename_i r' hr'
      rw [hr'] at hline
      exact hline.trans (ih r')

/-- Every control line and every program has an identifier for its name. -/
structure Named (r : Reader) : Prop where
  signals : ∀ s ∈ r.registry.signals, isIdentifier s.name = true
  programs : ∀ name ∈ r.catalog.programs.map (·.name), isIdentifier name = true

theorem Named.of_moves {r r' : Reader} (h : Moves r r') (hr : r.Named) : r'.Named := by
  cases h with
  | count => exact ⟨hr.signals,hr.programs⟩
  | declare hname hregister =>
    obtain ⟨hbit,hsignals⟩ := Registry.signals_of_register hregister
    refine ⟨?_,hr.programs⟩
    intro s hs
    rw [hsignals] at hs
    rcases List.mem_append.mp hs with hs | hs
    · exact hr.signals s hs
    · rw [List.mem_singleton.mp hs]
      exact hname
  | reset => exact ⟨hr.signals,hr.programs⟩
  | program hname hpush =>
    refine ⟨hr.signals,?_⟩
    intro name hmem
    rw [Catalog.programs_of_push hpush,List.map_append,List.mem_append] at hmem
    rcases hmem with hmem | hmem
    · exact hr.programs name hmem
    · rw [List.mem_singleton.mp hmem]
      exact hname
  | step =>
    refine ⟨hr.signals,?_⟩
    intro name hmem
    exact hr.programs name (by simpa [Catalog.appendStep] using hmem)

theorem Named.of_reaches {r r' : Reader} (h : Reaches r r') (hr : r.Named) : r'.Named := by
  induction h with
  | refl => exact hr
  | tail _ hmove ih => exact ih.of_moves hmove

end Reader

/-- The names of a unit that was read are identifiers. -/
theorem named_of_readUnit {lines : List (Except ReadFault String)} {unit : ControlUnit}
    (h : readUnit lines = .ok unit) :
    (∀ s ∈ unit.registry.signals, isIdentifier s.name = true) ∧
      ∀ p ∈ unit.catalog.programs, isIdentifier p.name = true := by
  have hstart : Reader.Named {} := ⟨by simp [Registry.empty],by simp [Catalog.empty]⟩
  have hnamed := hstart.of_reaches (Reader.reaches_readLines {} lines)
  rw [readUnit] at h
  cases hread : Reader.readLines {} lines with
  | mk r result =>
    rw [hread] at h hnamed
    cases result with
    | error e => cases h
    | ok u =>
      cases h
      exact ⟨hnamed.signals,fun p hp => hnamed.programs p.name (List.mem_map_of_mem hp)⟩

end Source
end ControlStore
