import ControlStore.Proofs.Source.Feeding
import ControlStore.Proofs.Source.Meaning

/-! Declarations, reset lines and programs do not interfere. A source is a shuffle of three strands
of lines, among blank lines and comments; whether it is accepted and what it denotes follows from
the three strands, so that a line may stand before or behind any line of another strand. -/
namespace ControlStore

open Checks Text

namespace Source

/-- The marks of the strands: declarations, reset lines, and programs with their steps. -/
def strands : List (List Char) := [['@'],['!'],[':','=']]

def isMarked (marks : List Char) (first : Option Char) : Bool := first.any (· ∈ marks)

def contents (text : String) : List (List Char) :=
  (Text.lines text).map fun l => content (String.ofList l)

/-- The lines of a text that belong to a strand, comments and surrounding blanks removed. -/
def strand (marks : List Char) (text : String) : List (List Char) :=
  (contents text).filter (isMarked marks ·.head?)

/-- Two texts have the same lines in each strand, and besides these only blank lines and
comments. -/
structure Interleaves (text text' : String) : Prop where
  strands_eq : ∀ marks ∈ strands, strand marks text = strand marks text'
  marked : ∀ cs ∈ contents text ++ contents text', cs ≠ [] →
    ∃ marks ∈ strands, isMarked marks cs.head? = true

instance (text text' : String) : Decidable (Interleaves text text') :=
  decidable_of_iff ((∀ marks ∈ strands, strand marks text = strand marks text') ∧
    ∀ cs ∈ contents text ++ contents text', cs ≠ [] →
      ∃ marks ∈ strands, isMarked marks cs.head? = true)
    ⟨fun h => ⟨h.1,h.2⟩,fun h => ⟨h.strands_eq,h.marked⟩⟩

theorem Interleaves.symm {text text' : String} (h : Interleaves text text') :
    Interleaves text' text where
  strands_eq marks hmarks := (h.strands_eq marks hmarks).symm
  marked cs hcs := h.marked cs (List.mem_append.mpr (List.mem_append.mp hcs).symm)

def Clause.mark : Clause → Option Char
  | .blank => none
  | .declare _ => some '@'
  | .reset _ => some '!'
  | .program _ => some ':'
  | .step _ => some '='

def clauseStrand (marks : List Char) (clauses : List Clause) : List Clause :=
  clauses.filter (isMarked marks ·.mark)

theorem clauseStrand_cons (marks : List Char) (c : Clause) (clauses : List Clause) :
    clauseStrand marks (c :: clauses) =
      if isMarked marks c.mark then c :: clauseStrand marks clauses
      else clauseStrand marks clauses :=
  List.filter_cons

section Strands

/-! What a source means depends on each strand for itself. -/

variable (clauses : List Clause)

theorem signals_clauseStrand : signals (clauseStrand ['@'] clauses) = signals clauses := by
  suffices h : (clauseStrand ['@'] clauses).flatMap Clause.declarations =
      clauses.flatMap Clause.declarations by rw [signals,signals,h]
  induction clauses with
  | nil => rfl
  | cons c clauses ih =>
    cases c <;> simp [clauseStrand_cons,isMarked,Clause.mark,Clause.declarations,ih]

theorem resets_clauseStrand : resets (clauseStrand ['!'] clauses) = resets clauses := by
  induction clauses with
  | nil => rfl
  | cons c clauses ih =>
    simp only [resets] at ih
    cases c <;>
      simp [clauseStrand_cons,isMarked,Clause.mark,resets,List.filterMap_cons,Clause.reset?,ih]

theorem stepsToNext_clauseStrand :
    stepsToNext (clauseStrand [':','='] clauses) = stepsToNext clauses := by
  induction clauses with
  | nil => rfl
  | cons c clauses ih =>
    cases c <;> simp [clauseStrand_cons,isMarked,Clause.mark,stepsToNext,ih]

theorem programs_clauseStrand :
    programs (clauseStrand [':','='] clauses) = programs clauses := by
  induction clauses with
  | nil => rfl
  | cons c clauses ih =>
    cases c <;>
      simp [clauseStrand_cons,isMarked,Clause.mark,programs,stepsToNext_clauseStrand,ih]

/-- Every step has a program before it exactly when there are no steps before the first program. -/
theorem forall_step_iff :
    (∀ front step rest, clauses = front ++ .step step :: rest → programNames front ≠ []) ↔
      stepsToNext clauses = [] := by
  have hpass (c : Clause) (clauses : List Clause) (hprogram : c.program? = none)
      (hstep : ∀ step, c ≠ .step step) :
      (∀ front step rest, c :: clauses = front ++ .step step :: rest → programNames front ≠ []) ↔
        ∀ front step rest, clauses = front ++ .step step :: rest → programNames front ≠ [] := by
    constructor
    · intro h front step rest hsplit
      have hnames := h (c :: front) step rest (by rw [hsplit,List.cons_append])
      simpa [programNames,hprogram] using hnames
    · intro h front step rest hsplit
      rcases List.cons_eq_append_iff.mp hsplit with ⟨-,hhead⟩ | ⟨front,rfl,hrest⟩
      · cases hhead
        exact absurd rfl (hstep step)
      · simpa [programNames,hprogram] using h front step rest hrest
  induction clauses with
  | nil => simp [stepsToNext]
  | cons c clauses ih =>
    cases c with
    | program name =>
      refine iff_of_true ?_ rfl
      intro front step rest hsplit
      rcases List.cons_eq_append_iff.mp hsplit with ⟨-,hhead⟩ | ⟨front,rfl,-⟩
      · cases hhead
      · simp [programNames,Clause.program?]
    | step step =>
      refine iff_of_false ?_ (by simp [stepsToNext])
      intro h
      exact h [] step clauses rfl rfl
    | blank => exact (hpass .blank clauses rfl (by simp)).trans ih
    | declare ds => exact (hpass (.declare ds) clauses rfl (by simp)).trans ih
    | reset name => exact (hpass (.reset name) clauses rfl (by simp)).trans ih

end Strands

section Clauses

variable {clauses clauses' : List Clause}
  (h : ∀ marks ∈ strands, clauseStrand marks clauses = clauseStrand marks clauses')

include h

theorem signals_eq_of_strands : signals clauses = signals clauses' := by
  rw [← signals_clauseStrand,h ['@'] (by simp [strands]),signals_clauseStrand]

theorem resets_eq_of_strands : resets clauses = resets clauses' := by
  rw [← resets_clauseStrand,h ['!'] (by simp [strands]),resets_clauseStrand]

theorem programs_eq_of_strands : programs clauses = programs clauses' := by
  rw [← programs_clauseStrand,h [':','='] (by simp [strands]),programs_clauseStrand]

theorem Legal.of_strands (hlegal : Legal clauses) : Legal clauses' where
  signals := signals_eq_of_strands h ▸ hlegal.signals
  resets := resets_eq_of_strands h ▸ hlegal.resets
  programs := by
    rw [← map_name_programs,← programs_eq_of_strands h,map_name_programs]
    exact hlegal.programs
  steps := by
    have hnone := (forall_step_iff clauses).mp hlegal.steps
    rw [← stepsToNext_clauseStrand,h [':','='] (by simp [strands]),
      stepsToNext_clauseStrand] at hnone
    exact (forall_step_iff clauses').mpr hnone

theorem Denotes.of_strands {unit : ControlUnit} (hdenotes : Denotes clauses unit) :
    Denotes clauses' unit where
  signals := hdenotes.signals.trans (signals_eq_of_strands h)
  reset := by rw [hdenotes.reset,resets_eq_of_strands h]
  programs := hdenotes.programs.trans (programs_eq_of_strands h)

end Clauses

section Texts

variable {text text' : String} {clauses clauses' : List Clause} {cs : List Char} {c c' : Clause}

theorem Says.head?_eq (h : Says cs c) : cs.head? = c.mark := by
  cases h <;> rfl

theorem IsTerm.unique {d d' : Declaration} (h : IsTerm cs d) (h' : IsTerm cs d') : d = d' := by
  rw [← String.toList_ofList (l := cs)] at h h'
  exact Except.ok.inj ((read_of_isTerm h).symm.trans (read_of_isTerm h'))

theorem Says.unique (h : Says cs c) (h' : Says cs c') : c = c' := by
  cases h with
  | blank =>
    cases h'
    rfl
  | declare hwords _ hterms =>
    cases h' with
    | declare hwords' _ hterms' =>
      obtain rfl := (hasWords_iff.mp hwords).symm.trans (hasWords_iff.mp hwords')
      have hunique : Relator.RightUnique IsTerm := fun _ _ _ => IsTerm.unique
      rw [hunique.forall₂ hterms hterms']
  | reset hwords =>
    cases h' with
    | reset hwords' =>
      have heq := (hasWords_iff.mp hwords).symm.trans (hasWords_iff.mp hwords')
      rw [String.toList_inj.mp (List.singleton_inj.mp heq)]
  | program hwords =>
    cases h' with
    | program hwords' =>
      have heq := (hasWords_iff.mp hwords).symm.trans (hasWords_iff.mp hwords')
      rw [String.toList_inj.mp (List.singleton_inj.mp heq)]
  | step hwords =>
    cases h' with
    | step hwords' =>
      rw [← hasWords_map_toList.mp hwords,hasWords_map_toList.mp hwords']

theorem spells_toUTF8 :
    Spells text.toUTF8 clauses ↔ List.Forall₂ Says (contents text) clauses := by
  rw [spells_iff,decodeLines_toUTF8,contents,List.forall₂_map_left_iff,List.forall₂_map_left_iff]
  have hline (l : List Char) (c : Clause) : TextSays (.ok (String.ofList l)) c ↔
      Says (content (String.ofList l)) c := by
    simp only [TextSays,LineSays,Except.ok.injEq,exists_eq_left',hasContent_iff]
    rfl
  simp only [hline]

theorem forall₂_clauseStrand (marks : List Char) (h : List.Forall₂ Says (contents text) clauses) :
    List.Forall₂ Says (strand marks text) (clauseStrand marks clauses) := by
  refine List.rel_filter ?_ h
  intro cs c hsaid
  simp only [hsaid.head?_eq]

theorem exists_forall₂_says {css : List (List Char)} (h : ∀ cs ∈ css, ∃ c, Says cs c) :
    ∃ clauses, List.Forall₂ Says css clauses := by
  induction css with
  | nil => exact ⟨[],.nil⟩
  | cons cs css ih =>
    rw [List.forall_mem_cons] at h
    obtain ⟨c,hc⟩ := h.1
    obtain ⟨clauses,hclauses⟩ := ih h.2
    exact ⟨c :: clauses,.cons hc hclauses⟩

/-- If one of two interleaved texts spells something out, so does the other, with the same
strands. -/
theorem Interleaves.exists_spells (h : Interleaves text text')
    (hspells : Spells text.toUTF8 clauses) :
    ∃ clauses', Spells text'.toUTF8 clauses' ∧
      ∀ marks ∈ strands, clauseStrand marks clauses = clauseStrand marks clauses' := by
  rw [spells_toUTF8] at hspells
  have hsays : ∀ cs ∈ contents text', ∃ c, Says cs c := by
    intro cs hcs
    by_cases hblank : cs = []
    · exact ⟨.blank,hblank ▸ .blank⟩
    -- a line that is not blank belongs to a strand, and the other text has it there
    · obtain ⟨marks,hmarks,hmarked⟩ := h.marked cs (List.mem_append_right _ hcs) hblank
      have hstrand : cs ∈ strand marks text := by
        rw [h.strands_eq marks hmarks]
        exact List.mem_filter.mpr ⟨hcs,hmarked⟩
      obtain ⟨c,-,hc⟩ := exists_of_forall₂ hspells (List.mem_filter.mp hstrand).1
      exact ⟨c,hc⟩
  obtain ⟨clauses',hspells'⟩ := exists_forall₂_says hsays
  refine ⟨clauses',spells_toUTF8.mpr hspells',?_⟩
  intro marks hmarks
  have hunique : Relator.RightUnique Says := fun _ _ _ => Says.unique
  have hclauses := forall₂_clauseStrand marks hspells
  rw [h.strands_eq marks hmarks] at hclauses
  exact hunique.forall₂ hclauses (forall₂_clauseStrand marks hspells')

end Texts

namespace Reader

theorem feed_eq_of_interleaves {text text' : String} (h : Interleaves text text')
    (hok : (feed {} text.toUTF8).2 = .ok ()) :
    (feed {} text'.toUTF8).2 = .ok () ∧
      (feed {} text.toUTF8).1.controlUnit = (feed {} text'.toUTF8).1.controlUnit := by
  obtain ⟨clauses,hspells,hlegal,hdenotes⟩ := exists_legal_of_feed hok
  obtain ⟨clauses',hspells',hstrands⟩ := h.exists_spells hspells
  obtain ⟨hok',hdenotes'⟩ := feed_of_legal hspells' (hlegal.of_strands hstrands)
  exact ⟨hok',(hdenotes.of_strands hstrands).unique hdenotes'⟩

/-- Texts that shuffle the same strands in different ways are read alike: both are refused, or both
are accepted and give the same unit. -/
theorem feed_of_interleaved {text text' : String} (h : Interleaves text text') :
    ((feed {} text.toUTF8).2 = .ok () ↔ (feed {} text'.toUTF8).2 = .ok ()) ∧
      ((feed {} text.toUTF8).2 = .ok () →
        (feed {} text.toUTF8).1.controlUnit = (feed {} text'.toUTF8).1.controlUnit) :=
  ⟨⟨fun hok => (feed_eq_of_interleaves h hok).1,
    fun hok => (feed_eq_of_interleaves h.symm hok).1⟩,fun hok => (feed_eq_of_interleaves h hok).2⟩

/-- Control lines are declared before the programs that use them, or between and after them. -/
theorem feed_interleaved_pair :
    Interleaves "@ a b:7\n! c\n@ c\n: fetch\n= b\n: op\n= c"
      "! c # reset\n: fetch\n\n  @ a b:7\n= b\r\n: op\n@ c\n= c # end\n" ∧
    (feed {} "@ a b:7\n! c\n@ c\n: fetch\n= b\n: op\n= c".toUTF8).2 = .ok () ∧
    (feed {} "! c # reset\n: fetch\n\n  @ a b:7\n= b\r\n: op\n@ c\n= c # end\n".toUTF8).2 = .ok () ∧
    (feed {} "@ a b:7\n! c\n@ c\n: fetch\n= b\n: op\n= c".toUTF8).1.controlUnit =
      (feed {}
        "! c # reset\n: fetch\n\n  @ a b:7\n= b\r\n: op\n@ c\n= c # end\n".toUTF8).1.controlUnit := by
  have h : Interleaves "@ a b:7\n! c\n@ c\n: fetch\n= b\n: op\n= c"
      "! c # reset\n: fetch\n\n  @ a b:7\n= b\r\n: op\n@ c\n= c # end\n" := by decide
  have hok : (feed {} "@ a b:7\n! c\n@ c\n: fetch\n= b\n: op\n= c".toUTF8).2 = .ok () := by
    rw [feed,decodeLines_toUTF8]
    rfl
  exact ⟨h,hok,(feed_of_interleaved h).1.mp hok,(feed_of_interleaved h).2 hok⟩

end Reader

end Source
end ControlStore
