import Mathlib.Data.List.Nodup
import ControlStore.Proofs.Source.Grammar

/-! Which sources are legal and what they mean. Both are said of the whole list of clauses, without
a reader: declarations have to fit into the word, the reset line is named at most once, programs have
distinct names, and a step has a program to belong to. A reader accepts exactly the legal sources and
holds what they denote. -/
namespace ControlStore

open Checks Text

/-- Names and bits that a registry can hold: no name and no bit twice, and all bits in the word. -/
structure Assignable (pairs : List (String × Nat)) : Prop where
  names : (pairs.map (·.1)).Nodup
  bits : (pairs.map (·.2)).Nodup
  inWord : ∀ pair ∈ pairs, pair.2 < wordWidth

theorem Assignable.left {pairs more : List (String × Nat)} (h : Assignable (pairs ++ more)) :
    Assignable pairs where
  names := (List.nodup_append.mp (List.map_append ▸ h.names)).1
  bits := (List.nodup_append.mp (List.map_append ▸ h.bits)).1
  inWord pair hpair := h.inWord pair (List.mem_append_left _ hpair)

namespace Registry

variable {r r' : Registry} {name : String} {bit : Nat}

def pairs (r : Registry) : List (String × Nat) :=
  r.signals.map fun s => (s.name,s.bit.val)

theorem assignable_pairs (r : Registry) : Assignable r.pairs where
  names := by simpa [pairs,Function.comp_def] using r.names_nodup
  bits := by
    have hbits : r.pairs.map (·.2) = (r.signals.map (·.bit)).map Fin.val := by
      simp [pairs,Function.comp_def]
    rw [hbits]
    exact r.bits_nodup.map fun _ _ => Fin.ext
  inWord := by
    intro pair hpair
    obtain ⟨s,-,rfl⟩ := List.mem_map.mp hpair
    exact s.bit.isLt

theorem pairs_injective : Function.Injective pairs := by
  intro r r' h
  have hsignal : Function.Injective fun s : Signal => (s.name,s.bit.val) := by
    rintro ⟨name,bit⟩ ⟨name',bit'⟩ hs
    simpa [Fin.ext_iff] using hs
  have hsignals : r.signals = r'.signals := hsignal.list_map h
  cases r
  cases r'
  cases hsignals
  rfl

theorem exists_pairs_eq {pairs : List (String × Nat)} (h : Assignable pairs) :
    ∃ r : Registry, r.pairs = pairs := by
  let signals : List Signal := pairs.pmap (fun pair hpair => ⟨pair.1,pair.2,hpair⟩) h.inWord
  have hnames : signals.map (·.name) = pairs.map (·.1) := by simp [signals,List.map_pmap]
  have hbits : (signals.map (·.bit)).map Fin.val = pairs.map (·.2) := by
    simp [signals,List.map_pmap]
  refine ⟨⟨signals,hnames ▸ h.names,.of_map Fin.val (hbits ▸ h.bits)⟩,?_⟩
  simp [Registry.pairs,signals,List.map_pmap]

theorem register_eq_ok : r.register name bit = .ok r' ↔ r'.pairs = r.pairs ++ [(name,bit)] := by
  constructor
  · intro h
    obtain ⟨hbit,hsignals⟩ := signals_of_register h
    simp [pairs,hsignals]
  · intro h
    have hassignable := h ▸ r'.assignable_pairs
    have hbit : bit < wordWidth := hassignable.inWord (name,bit) (by simp)
    have hname : name ∉ r.signals.map (·.name) := by
      have hnames := hassignable.names
      rw [List.map_append,List.map_singleton,List.nodup_append] at hnames
      intro hmem
      exact hnames.2.2 name (by simpa [pairs] using hmem) name (by simp) rfl
    have hfind : r.signals.find? (·.bit = ⟨bit,hbit⟩) = none := by
      have hbits := hassignable.bits
      rw [List.map_append,List.map_singleton,List.nodup_append] at hbits
      refine List.find?_eq_none.mpr fun s hs hsbit => ?_
      have hval : s.bit.val = bit := congrArg Fin.val (of_decide_eq_true hsbit)
      exact hbits.2.2 bit (List.mem_map.mpr ⟨(s.name,s.bit.val),List.mem_map_of_mem hs,hval⟩) bit
        (by simp) rfl
    rw [register,dif_pos hbit,dif_neg hname]
    split
    · rename_i holder hholder
      rw [hfind] at hholder
      cases hholder
    · refine congrArg _ (pairs_injective ?_)
      rw [h]
      simp [pairs]

end Registry

theorem Catalog.push_eq_ok {c c' : Catalog} {p : Program} :
    c.push p = .ok c' ↔ c'.programs = c.programs ++ [p] := by
  refine ⟨programs_of_push,?_⟩
  intro h
  have hname : p.name ∉ c.programs.map (·.name) := by
    have hnames := c'.names_nodup
    rw [h,List.map_append,List.map_singleton,List.nodup_append] at hnames
    intro hmem
    exact hnames.2.2 p.name hmem p.name (by simp) rfl
  rw [push,dif_neg hname]
  cases c'
  cases h
  rfl

namespace Source

def Clause.declarations : Clause → List Declaration
  | .declare ds => ds
  | _ => []

def Clause.reset? : Clause → Option String
  | .reset name => some name
  | _ => none

def Clause.program? : Clause → Option String
  | .program name => some name
  | _ => none

def Clause.steps : Clause → List Step
  | .step signals => [signals]
  | _ => []

/-- Names with their bits. A bit that is not given is `next`, the one after that of the declaration
before. -/
def assign (next : Nat) : List Declaration → List (String × Nat)
  | [] => []
  | d :: ds => (d.name,d.bit.getD next) :: assign (d.bit.getD next+1) ds

def signals (clauses : List Clause) : List (String × Nat) :=
  assign 0 (clauses.flatMap Clause.declarations)

def resets (clauses : List Clause) : List String :=
  clauses.filterMap Clause.reset?

def programNames (clauses : List Clause) : List String :=
  clauses.filterMap Clause.program?

/-- The steps before the next program starts. -/
def stepsToNext : List Clause → List Step
  | [] => []
  | .program _ :: _ => []
  | .step step :: rest => step :: stepsToNext rest
  | _ :: rest => stepsToNext rest

/-- The programs, each with the steps up to the next one. -/
def programs : List Clause → List Program
  | [] => []
  | .program name :: rest => ⟨name,stepsToNext rest⟩ :: programs rest
  | _ :: rest => programs rest

example : signals [.declare [⟨"a",none⟩,⟨"b",some 5⟩],.blank,.declare [⟨"c",none⟩]] =
    [("a",0),("b",5),("c",6)] := by decide

structure Legal (clauses : List Clause) : Prop where
  signals : Assignable (signals clauses)
  resets : (resets clauses).length ≤ 1
  programs : (programNames clauses).Nodup
  steps : ∀ front step rest, clauses = front ++ .step step :: rest → programNames front ≠ []

structure Denotes (clauses : List Clause) (unit : ControlUnit) : Prop where
  signals : unit.registry.pairs = signals clauses
  reset : unit.reset = (resets clauses).head?
  programs : unit.catalog.programs = programs clauses

def nextAfter (next : Nat) (ds : List Declaration) : Nat :=
  ds.foldl (fun next d => d.bit.getD next+1) next

theorem assign_append (next : Nat) (ds ds' : List Declaration) :
    assign next (ds ++ ds') = assign next ds ++ assign (nextAfter next ds) ds' := by
  induction ds generalizing next with
  | nil => rfl
  | cons d ds ih =>
    rw [List.cons_append,assign,assign,ih]
    rfl

section Append

variable (front rest : List Clause)

theorem signals_append : signals (front ++ rest) =
    signals front ++ assign (nextAfter 0 (front.flatMap Clause.declarations))
      (rest.flatMap Clause.declarations) := by
  rw [signals,List.flatMap_append,assign_append,signals]

@[simp] theorem resets_append : resets (front ++ rest) = resets front ++ resets rest :=
  List.filterMap_append

@[simp] theorem programNames_append :
    programNames (front ++ rest) = programNames front ++ programNames rest :=
  List.filterMap_append

@[simp] theorem resets_singleton (c : Clause) : resets [c] = c.reset?.toList := by
  cases h : c.reset? <;> simp [resets,h]

theorem map_name_programs : (programs front).map (·.name) = programNames front := by
  induction front with
  | nil => rfl
  | cons c front ih =>
    cases c <;> simp_all [programs,programNames,Clause.program?,List.filterMap_cons]

end Append

theorem stepsToNext_concat (front : List Clause) (c : Clause) : stepsToNext (front ++ [c]) =
    stepsToNext front ++ if programNames front = [] then c.steps else [] := by
  induction front with
  | nil => cases c <;> rfl
  | cons d front ih =>
    cases d <;> simp_all [stepsToNext,programNames,Clause.program?,List.filterMap_cons]

/-- What a line does to the programs before it. -/
def Clause.extend (ps : List Program) : Clause → List Program
  | .program name => ps ++ [⟨name,[]⟩]
  | .step signals => appendToLast signals ps
  | _ => ps

theorem programs_concat (front : List Clause) (c : Clause) :
    programs (front ++ [c]) = c.extend (programs front) := by
  induction front with
  | nil => cases c <;> rfl
  | cons d front ih =>
    cases d with
    | program name =>
      rw [List.cons_append,programs,programs,ih,stepsToNext_concat,← map_name_programs]
      cases c with
      | step step =>
        cases programs front <;> simp [Clause.steps,Clause.extend,appendToLast,Program.appendStep]
      | _ => simp [Clause.steps,Clause.extend]
    | _ => exact ih

theorem Legal.left {front rest : List Clause} (h : Legal (front ++ rest)) : Legal front where
  signals := (signals_append front rest ▸ h.signals).left
  resets := by
    have hresets := h.resets
    rw [resets_append,List.length_append] at hresets
    omega
  programs := (List.nodup_append.mp (programNames_append front rest ▸ h.programs)).1
  steps before step after hsplit := h.steps before step (after ++ rest) (by simp [hsplit])

theorem Denotes.unique {clauses : List Clause} {unit unit' : ControlUnit}
    (h : Denotes clauses unit) (h' : Denotes clauses unit') : unit = unit' := by
  obtain ⟨registry,⟨programs,hnames⟩,reset⟩ := unit
  obtain ⟨registry',⟨programs',hnames'⟩,reset'⟩ := unit'
  obtain rfl : registry = registry' := Registry.pairs_injective (h.signals.trans h'.signals.symm)
  obtain rfl : programs = programs' := h.programs.trans h'.programs.symm
  obtain rfl : reset = reset' := h.reset.trans h'.reset.symm
  rfl

namespace Reader

variable {r r' : Reader}

/-- A reader that has taken in `clauses`. -/
structure Holds (r : Reader) (clauses : List Clause) : Prop extends
    Denotes clauses r.controlUnit where
  nextBit : r.nextBit = nextAfter 0 (clauses.flatMap Clause.declarations)

theorem holds_start : Holds {} [] where
  signals := rfl
  reset := rfl
  programs := rfl
  nextBit := rfl

theorem declare_eq_ok {term : String} : r.declare term = .ok r' ↔
    ∃ d registry, Declaration.read term = .ok d ∧
      r.registry.register d.name (d.bit.getD r.nextBit) = .ok registry ∧
      r' = { r with registry, nextBit := d.bit.getD r.nextBit+1 } := by
  rw [Reader.declare]
  split
  · rename_i fault hread
    simp [hread]
  · rename_i d hread
    dsimp only
    split
    · rename_i e hregister
      simp [hread,hregister]
    · rename_i registry hregister
      simp [hread,hregister,eq_comm]

theorem declareAll_eq_ok {terms : List String} : r.declareAll terms = (r',.ok ()) ↔
    ∃ ds registry, terms.mapM Declaration.read = .ok ds ∧
      registry.pairs = r.registry.pairs ++ assign r.nextBit ds ∧
      r' = { r with registry, nextBit := nextAfter r.nextBit ds } := by
  induction terms generalizing r with
  | nil =>
    constructor
    · intro h
      cases h
      exact ⟨[],r'.registry,rfl,by simp [assign],rfl⟩
    · rintro ⟨ds,registry,hread,hpairs,rfl⟩
      cases hread
      obtain rfl : registry = r.registry :=
        Registry.pairs_injective (by simpa [assign] using hpairs)
      rfl
  | cons term terms ih =>
    rw [declareAll]
    constructor
    · intro h
      split at h
      · cases h
      · rename_i r₁ hterm
        obtain ⟨d,registry₁,hread,hregister,rfl⟩ := declare_eq_ok.mp hterm
        obtain ⟨ds,registry,hreads,hpairs,rfl⟩ := ih.mp h
        refine ⟨d :: ds,registry,mapM_eq_ok.mpr (.cons hread (mapM_eq_ok.mp hreads)),?_,rfl⟩
        simpa [Registry.register_eq_ok.mp hregister,assign] using hpairs
    · rintro ⟨ds,registry,hreads,hpairs,rfl⟩
      obtain ⟨d,ds',hread,hreads',rfl⟩ := List.forall₂_cons_left_iff.mp (mapM_eq_ok.mp hreads)
      -- the first term leaves room for the others, so a registry can hold it alone
      rw [assign,List.append_cons] at hpairs
      obtain ⟨registry₁,hpairs₁⟩ := Registry.exists_pairs_eq (hpairs ▸ registry.assignable_pairs).left
      have hterm := declare_eq_ok.mpr ⟨d,registry₁,hread,Registry.register_eq_ok.mpr hpairs₁,rfl⟩
      rw [hterm]
      refine ih.mpr ⟨ds',registry,mapM_eq_ok.mpr hreads',?_,rfl⟩
      rw [hpairs,hpairs₁]

section Apply

variable {done : List Clause} {c : Clause} {statement : Statement}

theorem orElse_eq_ok {x : Except Fault Reader} : r.orElse x = (r',.ok ()) ↔ x = .ok r' := by
  cases x <;> simp [orElse]

theorem setReset_eq_ok {name : String} :
    r.setReset name = .ok r' ↔ r.reset = none ∧ r' = { r with reset := some name } := by
  rw [setReset]
  split <;> simp_all [eq_comm]

theorem startProgram_eq_ok {name : String} : r.startProgram name = .ok r' ↔
    ∃ catalog, catalog.programs = r.catalog.programs ++ [⟨name,[]⟩] ∧ r' = { r with catalog } := by
  rw [startProgram]
  split
  · rename_i e hpush
    simp [← Catalog.push_eq_ok,hpush]
  · rename_i catalog hpush
    simp [← Catalog.push_eq_ok,hpush,eq_comm]

theorem addStep_eq_ok {step : Step} : r.addStep step = .ok r' ↔
    r.catalog.programs ≠ [] ∧ r' = { r with catalog := r.catalog.appendStep step } := by
  rw [addStep]
  split <;> simp_all [eq_comm]

/-- One more clause is legal if a reader can hold it and the clause does not break the rules on
reset lines and steps. -/
theorem Holds.legal_concat (hr : r.Holds (done ++ [c])) (hdone : Legal done)
    (hreset : ∀ name, c = .reset name → resets done = [])
    (hstep : ∀ step, c = .step step → programNames done ≠ []) : Legal (done ++ [c]) where
  signals := hr.signals ▸ r.registry.assignable_pairs
  resets := by
    rw [resets_append,resets_singleton]
    cases c with
    | reset name => simp [hreset name rfl,Clause.reset?]
    | _ => simpa [Clause.reset?] using hdone.resets
  programs := by
    rw [← map_name_programs,← hr.programs]
    exact r.catalog.names_nodup
  steps := by
    intro front step rest hsplit
    rcases List.eq_nil_or_concat' rest with rfl | ⟨rest',last,rfl⟩
    · obtain ⟨rfl,hc⟩ := List.append_inj' hsplit rfl
      exact hstep step (List.singleton_inj.mp hc)
    · rw [← List.cons_append,← List.append_assoc] at hsplit
      obtain ⟨rfl,-⟩ := List.append_inj' hsplit rfl
      exact hdone.steps front step rest' rfl

theorem Holds.concat (hr : r.Holds done)
    (hsignals : r'.registry.pairs = r.registry.pairs ++ assign r.nextBit c.declarations)
    (hnext : r'.nextBit = nextAfter r.nextBit c.declarations)
    (hreset : r'.reset = r.reset.or c.reset?)
    (hprograms : r'.catalog.programs = c.extend r.catalog.programs) : r'.Holds (done ++ [c]) where
  signals := by
    have hpairs : r.registry.pairs = signals done := hr.signals
    rw [signals_append,← hr.nextBit,← hpairs,List.flatMap_singleton]
    exact hsignals
  reset := by
    have hold : r.reset = (resets done).head? := hr.reset
    rw [resets_append,resets_singleton,List.head?_append,← hold,Option.head?_toList]
    exact hreset
  programs := by
    have hold : r.catalog.programs = programs done := hr.programs
    rw [programs_concat,← hold]
    exact hprograms
  nextBit := by
    rw [hnext,hr.nextBit,List.flatMap_append,List.flatMap_singleton,nextAfter,nextAfter,nextAfter,
      List.foldl_append]

/-- An accepted statement is legal after what was read before, and the reader holds it. -/
theorem Holds.of_apply (hr : r.Holds done) (hdone : Legal done)
    (h : r.apply statement = (r',.ok ())) :
    ∃ c, statement.clause = .ok c ∧ Legal (done ++ [c]) ∧ r'.Holds (done ++ [c]) := by
  have hprograms : r.catalog.programs = programs done := hr.programs
  cases statement with
  | blank =>
    cases h
    have hr' : r.Holds (done ++ [.blank]) :=
      hr.concat (by simp [Clause.declarations,assign]) rfl (by simp [Clause.reset?]) rfl
    exact ⟨.blank,rfl,hr'.legal_concat hdone nofun nofun,hr'⟩
  | declare terms =>
    obtain ⟨ds,registry,hread,hpairs,rfl⟩ := declareAll_eq_ok.mp h
    have hr' : Holds { r with registry, nextBit := nextAfter r.nextBit ds }
        (done ++ [.declare ds]) := hr.concat hpairs rfl (by simp [Clause.reset?]) rfl
    exact ⟨.declare ds,map_eq_ok.mpr ⟨ds,hread,rfl⟩,hr'.legal_concat hdone nofun nofun,hr'⟩
  | reset name =>
    obtain ⟨hnone,rfl⟩ := setReset_eq_ok.mp (orElse_eq_ok.mp h)
    have hr' : Holds { r with reset := some name } (done ++ [.reset name]) :=
      hr.concat (by simp [Clause.declarations,assign]) rfl (by simp [hnone,Clause.reset?]) rfl
    have hresets : resets done = [] := List.head?_eq_none_iff.mp (hr.reset.symm.trans hnone)
    exact ⟨.reset name,rfl,hr'.legal_concat hdone (fun _ _ => hresets) nofun,hr'⟩
  | program name =>
    obtain ⟨catalog,hcatalog,rfl⟩ := startProgram_eq_ok.mp (orElse_eq_ok.mp h)
    have hr' : Holds { r with catalog } (done ++ [.program name]) :=
      hr.concat (by simp [Clause.declarations,assign]) rfl (by simp [Clause.reset?]) hcatalog
    exact ⟨.program name,rfl,hr'.legal_concat hdone nofun nofun,hr'⟩
  | step step =>
    obtain ⟨hne,rfl⟩ := addStep_eq_ok.mp (orElse_eq_ok.mp h)
    have hr' : Holds { r with catalog := r.catalog.appendStep step } (done ++ [.step step]) :=
      hr.concat (by simp [Clause.declarations,assign]) rfl (by simp [Clause.reset?]) rfl
    have hnames : programNames done ≠ [] := by
      simpa [← map_name_programs,hprograms] using hne
    exact ⟨.step step,rfl,hr'.legal_concat hdone nofun fun _ _ => hnames,hr'⟩

/-- A statement that is legal after what was read before is accepted. -/
theorem Holds.exists_apply (hr : r.Holds done) (hclause : statement.clause = .ok c)
    (h : Legal (done ++ [c])) : ∃ r', r.apply statement = (r',.ok ()) := by
  have hsignals : r.registry.pairs = signals done := hr.signals
  have hreset : r.reset = (resets done).head? := hr.reset
  have hprograms : r.catalog.programs = programs done := hr.programs
  cases statement with
  | blank => exact ⟨r,rfl⟩
  | declare terms =>
    obtain ⟨ds,hread,rfl⟩ := map_eq_ok.mp hclause
    have hassignable := h.signals
    rw [signals_append,← hsignals,← hr.nextBit,List.flatMap_singleton] at hassignable
    obtain ⟨registry,hpairs⟩ := Registry.exists_pairs_eq hassignable
    exact ⟨_,declareAll_eq_ok.mpr ⟨ds,registry,hread,hpairs,rfl⟩⟩
  | reset name =>
    cases hclause
    have hresets : resets done = [] := by
      have hlength := h.resets
      rw [resets_append,resets_singleton,List.length_append] at hlength
      exact List.eq_nil_of_length_eq_zero (Nat.le_zero.mp (Nat.le_of_succ_le_succ hlength))
    have hnone : r.reset = none := by rw [hreset,hresets,List.head?_nil]
    exact ⟨_,orElse_eq_ok.mpr (setReset_eq_ok.mpr ⟨hnone,rfl⟩)⟩
  | program name =>
    cases hclause
    have hnames := h.programs
    rw [← map_name_programs,programs_concat,← hprograms] at hnames
    exact ⟨_,orElse_eq_ok.mpr (startProgram_eq_ok.mpr ⟨⟨_,hnames⟩,rfl,rfl⟩)⟩
  | step step =>
    cases hclause
    have hne : r.catalog.programs ≠ [] := by
      have hnames := h.steps done step [] rfl
      simpa [← map_name_programs,hprograms] using hnames
    exact ⟨_,orElse_eq_ok.mpr (addStep_eq_ok.mpr ⟨hne,rfl⟩)⟩

end Apply

section Run

variable {done : List Clause} {c : Clause} {line : Except ReadFault String}
  {lines : List (Except ReadFault String)}

theorem readLine_eq_ok : r.readLine line = (r',.ok ()) ↔
    ∃ text statement, line = .ok text ∧ Statement.read text = .ok statement ∧
      apply { r with lineCount := r.lineCount+1 } statement = (r',.ok ()) := by
  cases line with
  | error fault => simp [readLine,Reader.take,Except.mapError]
  | ok text =>
    simp only [readLine,Reader.take]
    cases hread : Statement.read text with
    | error fault => simp [hread,Except.mapError]
    | ok statement => simp [hread,Prod.ext_iff]

theorem Holds.count (hr : r.Holds done) (n : Nat) : Holds { r with lineCount := n } done :=
  ⟨⟨hr.signals,hr.reset,hr.programs⟩,hr.nextBit⟩

theorem Holds.of_readLine (hr : r.Holds done) (hdone : Legal done)
    (h : r.readLine line = (r',.ok ())) :
    ∃ c, TextSays line c ∧ Legal (done ++ [c]) ∧ r'.Holds (done ++ [c]) := by
  obtain ⟨text,statement,hline,hread,happly⟩ := readLine_eq_ok.mp h
  obtain ⟨c,hclause,hlegal,hr'⟩ := (hr.count _).of_apply hdone happly
  exact ⟨c,⟨text,hline,lineSays_iff.mpr ⟨statement,hread,hclause⟩⟩,hlegal,hr'⟩

theorem Holds.exists_readLine (hr : r.Holds done) (hline : TextSays line c)
    (h : Legal (done ++ [c])) :
    ∃ r', r.readLine line = (r',.ok ()) ∧ r'.Holds (done ++ [c]) := by
  obtain ⟨text,htext,hsaid⟩ := hline
  obtain ⟨statement,hread,hclause⟩ := lineSays_iff.mp hsaid
  obtain ⟨r',happly⟩ := (hr.count (r.lineCount+1)).exists_apply hclause h
  obtain ⟨c',hclause',-,hr'⟩ := (hr.count (r.lineCount+1)).of_apply h.left happly
  obtain rfl : c = c' := Except.ok.inj (hclause.symm.trans hclause')
  exact ⟨r',readLine_eq_ok.mpr ⟨text,statement,htext,hread,happly⟩,hr'⟩

theorem readLines_cons_eq_ok : r.readLines (line :: lines) = (r',.ok ()) ↔
    ∃ r₁, r.readLine line = (r₁,.ok ()) ∧ r₁.readLines lines = (r',.ok ()) := by
  rw [readLines]
  split <;> simp_all

/-- Lines that are accepted after `done` are legal there, and the reader holds all of them. -/
theorem Holds.of_readLines (hr : r.Holds done) (hdone : Legal done)
    (h : r.readLines lines = (r',.ok ())) :
    ∃ clauses, List.Forall₂ TextSays lines clauses ∧ Legal (done ++ clauses) ∧
      r'.Holds (done ++ clauses) := by
  induction lines generalizing r done with
  | nil =>
    cases h
    exact ⟨[],.nil,by rwa [List.append_nil],by rwa [List.append_nil]⟩
  | cons line lines ih =>
    obtain ⟨r₁,hline,hlines⟩ := readLines_cons_eq_ok.mp h
    obtain ⟨c,hsaid,hlegal,hr₁⟩ := hr.of_readLine hdone hline
    obtain ⟨clauses,hrest,hlegal',hr'⟩ := ih hr₁ hlegal hlines
    rw [← List.append_cons] at hlegal' hr'
    exact ⟨c :: clauses,.cons hsaid hrest,hlegal',hr'⟩

/-- Lines that are legal after `done` are accepted there, and the reader holds all of them. -/
theorem Holds.exists_readLines {clauses : List Clause} (hr : r.Holds done)
    (hlines : List.Forall₂ TextSays lines clauses) (h : Legal (done ++ clauses)) :
    ∃ r', r.readLines lines = (r',.ok ()) ∧ r'.Holds (done ++ clauses) := by
  induction hlines generalizing r done with
  | nil => exact ⟨r,rfl,by rwa [List.append_nil]⟩
  | @cons line c lines clauses hline hlines ih =>
    rw [List.append_cons] at h ⊢
    obtain ⟨r₁,hread,hr₁⟩ := hr.exists_readLine hline h.left
    obtain ⟨r',hreads,hr'⟩ := ih hr₁ h
    exact ⟨r',readLines_cons_eq_ok.mpr ⟨r₁,hread,hreads⟩,hr'⟩

end Run

theorem legal_nil : Legal [] where
  signals := ⟨by decide,by decide,by simp [signals,assign]⟩
  resets := by decide
  programs := by decide
  steps := by simp

section Feed

variable {bytes : ByteArray} {clauses : List Clause}

theorem exists_legal_of_feed (h : (feed {} bytes).2 = .ok ()) :
    ∃ clauses, Spells bytes clauses ∧ Legal clauses ∧
      Denotes clauses (feed {} bytes).1.controlUnit := by
  obtain ⟨clauses,hspells,hlegal,hholds⟩ :=
    holds_start.of_readLines legal_nil (Prod.ext rfl h : feed {} bytes = (_,.ok ()))
  exact ⟨clauses,spells_iff.mpr hspells,hlegal,hholds.toDenotes⟩

theorem feed_of_legal (hspells : Spells bytes clauses) (hlegal : Legal clauses) :
    (feed {} bytes).2 = .ok () ∧ Denotes clauses (feed {} bytes).1.controlUnit := by
  obtain ⟨r,hread,hholds⟩ := holds_start.exists_readLines (spells_iff.mp hspells) hlegal
  rw [feed,hread]
  exact ⟨rfl,hholds.toDenotes⟩

end Feed

/-- A source is accepted exactly when it spells out legal clauses. The unit that was read is then the
one they denote, and there is no other. -/
theorem feed_accepts_iff_legal (bytes : ByteArray) :
    ((feed {} bytes).2 = .ok () ↔ ∃ clauses, Spells bytes clauses ∧ Legal clauses) ∧
      ∀ unit, ((feed {} bytes).2 = .ok () ∧ (feed {} bytes).1.controlUnit = unit) ↔
        ∃ clauses, Spells bytes clauses ∧ Legal clauses ∧ Denotes clauses unit := by
  refine ⟨⟨?_,?_⟩,fun unit => ⟨?_,?_⟩⟩
  · intro hok
    obtain ⟨clauses,hspells,hlegal,-⟩ := exists_legal_of_feed hok
    exact ⟨clauses,hspells,hlegal⟩
  · rintro ⟨clauses,hspells,hlegal⟩
    exact (feed_of_legal hspells hlegal).1
  · rintro ⟨hok,rfl⟩
    exact exists_legal_of_feed hok
  · rintro ⟨clauses,hspells,hlegal,hdenotes⟩
    obtain ⟨hok,hread⟩ := feed_of_legal hspells hlegal
    exact ⟨hok,hread.unique hdenotes⟩

end Reader

end Source
end ControlStore
