import ControlStore.Proofs.Source.Feeding
import ControlStore.Proofs.Source.Meaning

/-! What a refused source is refused for. Lines are judged in order, each against the legal lines
before it, and so are the terms of a declaration. The first offence is said without a reader: it is
a line without a form or out of place, or a declaration that does not fit. -/
namespace ControlStore

open Checks Text

theorem Registry.exists_register_error_iff {r : Registry} {name : String} {bit : Nat} :
    (∃ e, r.register name bit = .error e) ↔
      wordWidth ≤ bit ∨ name ∈ r.pairs.map (·.1) ∨ bit ∈ r.pairs.map (·.2) := by
  have hnames : r.pairs.map (·.1) = r.signals.map (·.name) := by simp [pairs,Function.comp_def]
  rw [register,hnames]
  split
  · rename_i hbit
    split
    · rename_i hname
      simp only [hname,true_or,or_true,iff_true]
      exact ⟨_,rfl⟩
    · rename_i hname
      split
      · rename_i holder hfind
        refine iff_of_true ⟨_,rfl⟩ (.inr (.inr ?_))
        have hholder : holder.bit = ⟨bit,hbit⟩ := by simpa using List.find?_some hfind
        exact List.mem_map.mpr ⟨(holder.name,holder.bit.val),
          List.mem_map_of_mem (List.mem_of_find?_eq_some hfind),congrArg Fin.val hholder⟩
      · rename_i hfind
        refine iff_of_false (by simp) ?_
        rintro (hfar | htaken | htaken)
        · omega
        · exact hname htaken
        · obtain ⟨pair,hpair,rfl⟩ := List.mem_map.mp htaken
          obtain ⟨s,hs,rfl⟩ := List.mem_map.mp hpair
          exact List.find?_eq_none.mp hfind s hs (by simp)
  · rename_i hbit
    exact iff_of_true ⟨_,rfl⟩ (.inl (Nat.le_of_not_lt hbit))

namespace Source

/-- A term that has the form of a declaration, whatever bit it gives. -/
inductive IsDeclaration : List Char → Declaration → Prop
  | bare {name : String} (hname : isIdentifier name = true) : IsDeclaration name.toList ⟨name,none⟩
  | placed {name : String} {digits : List Char} (hname : isIdentifier name = true)
      (hne : digits ≠ []) (hdigits : ∀ c ∈ digits, c.isDigit = true) :
      IsDeclaration (name.toList ++ ':' :: digits) ⟨name,some (Nat.ofDigitChars 10 digits 0)⟩

/-- The terms are the declarations whose bits are in the range of bit indices. -/
theorem isTerm_iff {cs : List Char} {d : Declaration} :
    IsTerm cs d ↔ IsDeclaration cs d ∧ ∀ bit ∈ d.bit, bit < 2^32 := by
  constructor
  · intro h
    cases h with
    | bare hname => exact ⟨.bare hname,nofun⟩
    | placed hname hne hdigits hlt =>
      refine ⟨.placed hname hne hdigits,?_⟩
      rintro bit ⟨⟩
      exact hlt
  · rintro ⟨h,hlt⟩
    cases h with
    | bare hname => exact .bare hname
    | placed hname hne hdigits => exact .placed hname hne hdigits (hlt _ rfl)

theorem IsDeclaration.unique {cs : List Char} {d d' : Declaration} (h : IsDeclaration cs d)
    (h' : IsDeclaration cs d') : d = d' := by
  have hcolon {name : String} (hname : isIdentifier name = true) : ':' ∉ name.toList :=
    not_mem_of_isIdentifier hname (by decide)
  have hcut {name : String} {digits : List Char} (hname : isIdentifier name = true) :
      cut ':' (name.toList ++ ':' :: digits) = some (name.toList,digits) :=
    cut_append_cons (hcolon hname)
  generalize hcs : cs = cs' at h'
  cases h with
  | bare hname =>
    cases h' with
    | bare => rw [String.toList_inj.mp hcs]
    | placed =>
      refine absurd ?_ (hcolon hname)
      simp [hcs]
  | placed hname =>
    cases h' with
    | bare hname' =>
      refine absurd ?_ (hcolon hname')
      simp [← hcs]
    | placed hname' =>
      have heq := (hcut hname).symm.trans ((congrArg _ hcs).trans (hcut hname'))
      obtain ⟨hnames,hdigits⟩ := Prod.mk.inj (Option.some.inj heq)
      rw [String.toList_inj.mp hnames,hdigits]

inductive Offence
  /-- The line is not text, has no form or is out of place. -/
  | malformed
  /-- A declaration gives a bit outside the range of bit indices. -/
  | farBit
  /-- A declaration gives a bit outside the word, or a name or a bit that is in use. -/
  | clash
  deriving DecidableEq, Repr

/-- Behind `done`, a line declares `ds` and comes to a further term. -/
def AtTerm (done : List Clause) (text : String) (ds : List Declaration) (term : List Char) : Prop :=
  ∃ cs ws more, HasContent text.toList ('@' :: cs) ∧ HasWords cs (ws ++ term :: more) ∧
    List.Forall₂ IsTerm ws ds ∧ Legal (done ++ [.declare ds])

def bitBehind (done : List Clause) (d : Declaration) : Nat :=
  d.bit.getD (nextAfter 0 (done.flatMap Clause.declarations))

def Clashes (done : List Clause) (d : Declaration) : Prop :=
  wordWidth ≤ bitBehind done d ∨ d.name ∈ (signals done).map (·.1) ∨
    bitBehind done d ∈ (signals done).map (·.2)

/-- What is wrong with a line behind `done`. -/
inductive Offends (done : List Clause) : Except ReadFault String → Offence → Prop
  | unreadable {fault : ReadFault} : Offends done (.error fault) .malformed
  | form {text : String} {cs : List Char} (hcontent : HasContent text.toList cs)
      (hmark : cs.head? ≠ some '@') (hsaid : ∀ c, ¬Says cs c) : Offends done (.ok text) .malformed
  | noTerm {text : String} {cs : List Char} (hcontent : HasContent text.toList ('@' :: cs))
      (hwords : HasWords cs []) : Offends done (.ok text) .malformed
  | term {text : String} {ds : List Declaration} {term : List Char}
      (hterm : AtTerm done text ds term) (hform : ∀ d, ¬IsDeclaration term d) :
      Offends done (.ok text) .malformed
  | secondReset {text name : String} (hsaid : LineSays text (.reset name))
      (h : resets done ≠ []) : Offends done (.ok text) .malformed
  | repeatedProgram {text name : String} (hsaid : LineSays text (.program name))
      (h : name ∈ programNames done) : Offends done (.ok text) .malformed
  | looseStep {text : String} {step : Step} (hsaid : LineSays text (.step step))
      (h : programNames done = []) : Offends done (.ok text) .malformed
  | farBit {text : String} {ds : List Declaration} {term : List Char} {d : Declaration} {bit : Nat}
      (hterm : AtTerm done text ds term) (hform : IsDeclaration term d) (hbit : bit ∈ d.bit)
      (hfar : 2^32 ≤ bit) : Offends done (.ok text) .farBit
  | clash {text : String} {ds : List Declaration} {term : List Char} {d : Declaration}
      (hterm : AtTerm done text ds term) (hform : IsTerm term d)
      (hclash : Clashes (done ++ [.declare ds]) d) : Offends done (.ok text) .clash

/-- What the first line of a source that does not continue the legal lines before it is refused
for. -/
def FirstOffence (bytes : ByteArray) (o : Offence) : Prop :=
  ∃ front line rest done, decodeLines bytes = front ++ line :: rest ∧
    List.Forall₂ TextSays front done ∧ Legal done ∧ Offends done line o

/-- The defect under which an offence is reported. A bit outside the range of bit indices counts as
malformed. -/
inductive Reported : Offence → Defect → Prop
  | malformed (fault : Fault) : Reported .malformed (.malformed fault)
  | farBit (fault : Fault) : Reported .farBit (.malformed fault)
  | clash (e : RegisterError) : Reported .clash (.registration e)

section Lines

variable {text : String} {fault : Fault}

theorem hasWords_nil_iff {cs : List Char} : HasWords cs [] ↔ names cs = [] := by
  rw [← hasWords_map_toList]
  rfl

theorem read_eq_declare_iff {terms : List String} : Statement.read text = .ok (.declare terms) ↔
    terms ≠ [] ∧ ∃ cs, HasContent text.toList ('@' :: cs) ∧
      HasWords cs (terms.map String.toList) := by
  simp only [hasContent_iff,hasWords_map_toList]
  constructor
  · intro h
    rw [Statement.read] at h
    split at h
    · cases h
    · rename_i cs hcontent
      split at h
      · cases h
      · rename_i hne
        cases h
        exact ⟨hne,cs,hcontent,rfl⟩
    · obtain ⟨name,-,hname⟩ := map_eq_ok.mp h
      cases hname
    · obtain ⟨name,-,hname⟩ := map_eq_ok.mp h
      cases hname
    · obtain ⟨u,-,hstep⟩ := bind_eq_ok.mp h
      cases hstep
    · cases h
  · rintro ⟨hne,cs,hcontent,rfl⟩
    have hcontent : content text = '@' :: cs := hcontent
    obtain ⟨term,terms,hterms⟩ := List.exists_cons_of_ne_nil hne
    rw [Statement.read,hcontent]
    simp only [hterms]

theorem malformed_of_read_error {done : List Clause} (h : Statement.read text = .error fault) :
    Offends done (.ok text) .malformed := by
  have hcontent : HasContent text.toList (content text) := hasContent_iff.mpr rfl
  by_cases hmark : (content text).head? = some '@'
  · obtain ⟨cs,hcs⟩ := List.head?_eq_some_iff.mp hmark
    rw [hcs] at hcontent
    refine .noTerm hcontent (hasWords_nil_iff.mpr ?_)
    by_contra hne
    rw [read_eq_declare_iff.mpr ⟨hne,cs,hcontent,hasWords_map_toList.mpr rfl⟩] at h
    cases h
  · refine .form hcontent hmark fun c hsaid => ?_
    obtain ⟨statement,hread,-⟩ := exists_read_of_says hsaid
    rw [hread] at h
    cases h

theorem exists_read_error_of_form {cs : List Char} (hcontent : HasContent text.toList cs)
    (hmark : cs.head? ≠ some '@') (hsaid : ∀ c, ¬Says cs c) :
    ∃ fault, Statement.read text = .error fault := by
  cases hread : Statement.read text with
  | error fault => exact ⟨fault,rfl⟩
  | ok statement =>
    obtain rfl : content text = cs := hasContent_iff.mp hcontent
    cases statement with
    | declare terms =>
      obtain ⟨-,cs,hcs,-⟩ := read_eq_declare_iff.mp hread
      have hcs : content text = '@' :: cs := hasContent_iff.mp hcs
      exact absurd (by rw [hcs,List.head?_cons]) hmark
    | blank => exact absurd (says_of_read hread rfl) (hsaid _)
    | reset name => exact absurd (says_of_read hread rfl) (hsaid _)
    | program name => exact absurd (says_of_read hread rfl) (hsaid _)
    | step step => exact absurd (says_of_read hread rfl) (hsaid _)

theorem exists_read_error_of_noTerm {cs : List Char} (hcontent : HasContent text.toList ('@' :: cs))
    (hwords : HasWords cs []) : ∃ fault, Statement.read text = .error fault := by
  have hcontent : content text = '@' :: cs := hasContent_iff.mp hcontent
  have hnames : names cs = [] := hasWords_nil_iff.mp hwords
  exact ⟨.missingName .declaration,by rw [Statement.read,hcontent]; simp only [hnames]⟩

theorem read_of_lineSays (statement : Statement) {c : Clause} (hsaid : LineSays text c)
    (hclause : statement.clause = .ok c) (hc : ∀ ds, c ≠ .declare ds) :
    Statement.read text = .ok statement := by
  obtain ⟨statement',hread,hclause'⟩ := lineSays_iff.mp hsaid
  have hnot {terms : List String} (h : Statement.clause (.declare terms) = .ok c) : False := by
    obtain ⟨ds,-,rfl⟩ := map_eq_ok.mp h
    exact hc ds rfl
  rw [hread]
  cases statement with
  | declare terms => exact (hnot hclause).elim
  | _ =>
    cases statement' with
    | declare terms => exact (hnot hclause').elim
    | _ =>
      cases hclause
      simp_all [Statement.clause]

end Lines

namespace Reader

variable {r r' : Reader} {done : List Clause}

theorem declareAll_eq_error {terms : List String} {d : Defect} :
    r.declareAll terms = (r',.error d) ↔ ∃ front term rest, terms = front ++ term :: rest ∧
      r.declareAll front = (r',.ok ()) ∧ r'.declare term = .error d := by
  induction terms generalizing r with
  | nil => simp [declareAll]
  | cons term terms ih =>
    rw [declareAll]
    cases hterm : r.declare term with
    | error d' =>
      constructor
      · intro h
        cases h
        exact ⟨[],term,terms,rfl,rfl,hterm⟩
      · rintro ⟨front,term',rest,hsplit,hfront,hlast⟩
        rcases List.cons_eq_append_iff.mp hsplit with ⟨rfl,hhead⟩ | ⟨front,rfl,-⟩
        · cases hhead
          cases hfront
          rw [hterm] at hlast
          cases hlast
          rfl
        · simp [declareAll,hterm] at hfront
    | ok r₁ =>
      constructor
      · intro h
        obtain ⟨front,term',rest,rfl,hfront,hlast⟩ := ih.mp h
        exact ⟨term :: front,term',rest,rfl,by rw [declareAll,hterm]; exact hfront,hlast⟩
      · rintro ⟨front,term',rest,hsplit,hfront,hlast⟩
        rcases List.cons_eq_append_iff.mp hsplit with ⟨rfl,hhead⟩ | ⟨front,rfl,hrest⟩
        · cases hhead
          cases hfront
          rw [hterm] at hlast
          cases hlast
        · rw [declareAll,hterm] at hfront
          exact ih.mpr ⟨front,term',rest,hrest,hfront,hlast⟩

theorem declare_of_not_isTerm {term : String} (h : ∀ d, ¬IsTerm term.toList d) :
    ∃ fault, r.declare term = .error (.malformed fault) := by
  rw [Reader.declare]
  cases hread : Declaration.read term with
  | error fault => exact ⟨fault,rfl⟩
  | ok d => exact absurd (isTerm_of_read hread) (h d)

theorem Holds.exists_declare_error_iff (hr : r.Holds done) {term : String} {d : Declaration}
    (hterm : IsTerm term.toList d) :
    (∃ e, r.declare term = .error (.registration e)) ↔ Clashes done d := by
  have hpairs : r.registry.pairs = signals done := hr.signals
  rw [Clashes,← hpairs,← Registry.exists_register_error_iff,bitBehind,← hr.nextBit]
  simp only [Reader.declare,read_of_isTerm hterm]
  cases r.registry.register d.name (d.bit.getD r.nextBit) <;> simp

theorem Holds.of_declareAll (hr : r.Holds done) (hdone : Legal done) {terms : List String}
    (h : r.declareAll terms = (r',.ok ())) :
    ∃ ds, List.Forall₂ IsTerm (terms.map String.toList) ds ∧ Legal (done ++ [.declare ds]) ∧
      r'.Holds (done ++ [.declare ds]) := by
  have happly : r.apply (.declare terms) = (r',.ok ()) := h
  obtain ⟨c,hclause,hlegal,hr'⟩ := hr.of_apply hdone happly
  obtain ⟨ds,hread,rfl⟩ := map_eq_ok.mp hclause
  refine ⟨ds,?_,hlegal,hr'⟩
  exact List.forall₂_map_left_iff.mpr ((mapM_eq_ok.mp hread).imp fun _ _ => isTerm_of_read)

/-- A reader comes to a term of a line with the terms before it taken in, and is refused if the term
is. -/
theorem Holds.at_term (hr : r.Holds done) {text : String} {ds : List Declaration}
    {term : List Char} (h : AtTerm done text ds term) :
    ∃ r', r'.Holds (done ++ [.declare ds]) ∧ ∀ d, r'.declare (String.ofList term) = .error d →
      r.take (.ok text) = (r',.error d) := by
  obtain ⟨cs,ws,more,hcontent,hwords,hterms,hlegal⟩ := h
  have hread : Statement.read text =
      .ok (.declare (ws.map String.ofList ++ String.ofList term :: more.map String.ofList)) := by
    refine read_eq_declare_iff.mpr ⟨by simp,cs,hcontent,?_⟩
    simpa [Function.comp_def] using hwords
  have hclause : Statement.clause (.declare (ws.map String.ofList)) = .ok (.declare ds) := by
    refine map_eq_ok.mpr ⟨ds,mapM_eq_ok.mpr (List.forall₂_map_left_iff.mpr ?_),rfl⟩
    exact hterms.imp fun w d hterm => read_of_isTerm (by rwa [String.toList_ofList])
  obtain ⟨r',happly⟩ := hr.exists_apply hclause hlegal
  obtain ⟨c,hclause',-,hr'⟩ := hr.of_apply hlegal.left happly
  obtain rfl : .declare ds = c := Except.ok.inj (hclause.symm.trans hclause')
  refine ⟨r',hr',fun d hd => ?_⟩
  simp only [Reader.take,hread]
  exact declareAll_eq_error.mpr ⟨_,_,_,rfl,happly,hd⟩

section Refused

variable {line : Except ReadFault String} {o : Offence} {d : Defect}

theorem Holds.exists_offence_of_declareAll (hr : r.Holds done) (hdone : Legal done) {text : String}
    {terms : List String} (hread : Statement.read text = .ok (.declare terms))
    (h : r.declareAll terms = (r',.error d)) :
    ∃ o, Offends done (.ok text) o ∧ Reported o d := by
  obtain ⟨-,cs,hcontent,hwords⟩ := read_eq_declare_iff.mp hread
  obtain ⟨front,term,rest,rfl,hfront,hd⟩ := declareAll_eq_error.mp h
  obtain ⟨ds,hterms,hlegal,hr'⟩ := hr.of_declareAll hdone hfront
  have hterm : AtTerm done text ds term.toList :=
    ⟨cs,_,rest.map String.toList,hcontent,by simpa using hwords,hterms,hlegal⟩
  -- a term that is read can only be refused by the registry; one that is not read is none, though
  -- perhaps for the size of its bit alone
  cases hterm' : Declaration.read term with
  | ok declared =>
    have hform := isTerm_of_read hterm'
    obtain ⟨e,rfl⟩ : ∃ e, d = .registration e := by
      simp only [Reader.declare,hterm'] at hd
      split at hd <;> cases hd
      exact ⟨_,rfl⟩
    exact ⟨.clash,.clash hterm hform ((hr'.exists_declare_error_iff hform).mp ⟨e,hd⟩),.clash e⟩
  | error fault =>
    have hno (declared : Declaration) : ¬IsTerm term.toList declared := by
      intro hform
      rw [read_of_isTerm hform] at hterm'
      cases hterm'
    obtain ⟨fault',hfault⟩ := declare_of_not_isTerm (r := r') hno
    obtain rfl : .malformed fault' = d := Except.error.inj (hfault.symm.trans hd)
    by_cases hform : ∃ declared, IsDeclaration term.toList declared
    · obtain ⟨declared,hform⟩ := hform
      have hfar : ∃ bit ∈ declared.bit, 2^32 ≤ bit := by
        by_contra hnear
        push Not at hnear
        exact hno declared (isTerm_iff.mpr ⟨hform,hnear⟩)
      obtain ⟨bit,hbit,hfar⟩ := hfar
      exact ⟨.farBit,.farBit hterm hform hbit hfar,.farBit fault'⟩
    · exact ⟨.malformed,.term hterm (not_exists.mp hform),.malformed fault'⟩

theorem Holds.exists_setReset_error_iff (hr : r.Holds done) {name : String} :
    (∃ fault, r.setReset name = .error fault) ↔ resets done ≠ [] := by
  have hreset : r.reset = (resets done).head? := hr.reset
  rw [setReset,hreset]
  cases resets done <;> simp

theorem Holds.exists_startProgram_error_iff (hr : r.Holds done) {name : String} :
    (∃ fault, r.startProgram name = .error fault) ↔ name ∈ programNames done := by
  have hprograms : r.catalog.programs = programs done := hr.programs
  rw [← map_name_programs,← hprograms,startProgram,Catalog.push]
  by_cases hname : name ∈ r.catalog.programs.map (·.name)
  · simp only [dif_pos hname]
    exact iff_of_true ⟨_,rfl⟩ hname
  · simp only [dif_neg hname]
    exact iff_of_false (by simp) hname

theorem Holds.exists_addStep_error_iff (hr : r.Holds done) {step : Step} :
    (∃ fault, r.addStep step = .error fault) ↔ programNames done = [] := by
  have hprograms : r.catalog.programs = programs done := hr.programs
  rw [← map_name_programs,← hprograms,List.map_eq_nil_iff,addStep]
  split <;> simp_all

theorem orElse_eq_error {x : Except Fault Reader} :
    r.orElse x = (r',.error d) ↔ r' = r ∧ ∃ fault, x = .error fault ∧ d = .malformed fault := by
  cases x <;> simp [orElse,eq_comm]

/-- A line that is refused offends, and is refused for its offence. -/
theorem Holds.exists_offence (hr : r.Holds done) (hdone : Legal done)
    (h : r.take line = (r',.error d)) : ∃ o, Offends done line o ∧ Reported o d := by
  have hprograms : r.catalog.programs = programs done := hr.programs
  cases line with
  | error fault =>
    cases h
    exact ⟨.malformed,.unreadable,.malformed _⟩
  | ok text =>
    simp only [Reader.take] at h
    cases hread : Statement.read text with
    | error fault =>
      rw [hread] at h
      cases h
      exact ⟨.malformed,malformed_of_read_error hread,.malformed _⟩
    | ok statement =>
      rw [hread] at h
      have hsaid {c : Clause} (hclause : statement.clause = .ok c) : LineSays text c :=
        lineSays_iff.mpr ⟨statement,hread,hclause⟩
      cases statement with
      | blank => cases h
      | declare terms => exact hr.exists_offence_of_declareAll hdone hread h
      | reset name =>
        obtain ⟨-,fault,hset,rfl⟩ := orElse_eq_error.mp h
        have hresets := hr.exists_setReset_error_iff.mp ⟨fault,hset⟩
        exact ⟨.malformed,.secondReset (hsaid rfl) hresets,.malformed fault⟩
      | program name =>
        obtain ⟨-,fault,hstart,rfl⟩ := orElse_eq_error.mp h
        have hname := hr.exists_startProgram_error_iff.mp ⟨fault,hstart⟩
        exact ⟨.malformed,.repeatedProgram (hsaid rfl) hname,.malformed fault⟩
      | step step =>
        obtain ⟨-,fault,hadd,rfl⟩ := orElse_eq_error.mp h
        have hnames := hr.exists_addStep_error_iff.mp ⟨fault,hadd⟩
        exact ⟨.malformed,.looseStep (hsaid rfl) hnames,.malformed fault⟩

/-- A line that offends is refused for its offence. -/
theorem Holds.exists_refusal (hr : r.Holds done) (h : Offends done line o) :
    ∃ r' d, r.take line = (r',.error d) ∧ Reported o d := by
  -- apart from the terms of a declaration, a line is refused before anything changes
  have hunread {text : String} (hread : ∃ fault, Statement.read text = .error fault) :
      ∃ r' d, r.take (.ok text) = (r',.error d) ∧ Reported .malformed d := by
    obtain ⟨fault,hread⟩ := hread
    exact ⟨r,.malformed fault,by simp only [Reader.take,hread],.malformed fault⟩
  have hplace {text : String} {statement : Statement} {x : Except Fault Reader}
      (hread : Statement.read text = .ok statement) (happly : r.apply statement = r.orElse x)
      (hx : ∃ fault, x = .error fault) :
      ∃ r' d, r.take (.ok text) = (r',.error d) ∧ Reported .malformed d := by
    obtain ⟨fault,rfl⟩ := hx
    exact ⟨r,.malformed fault,by simp only [Reader.take,hread]; exact happly,.malformed fault⟩
  cases h with
  | unreadable => exact ⟨r,_,rfl,.malformed _⟩
  | form hcontent hmark hsaid => exact hunread (exists_read_error_of_form hcontent hmark hsaid)
  | noTerm hcontent hwords => exact hunread (exists_read_error_of_noTerm hcontent hwords)
  | @term text ds term hterm hform =>
    obtain ⟨r',-,hrefused⟩ := hr.at_term hterm
    have hno (d : Declaration) : ¬IsTerm (String.ofList term).toList d := by
      rw [String.toList_ofList]
      exact fun h => hform d (isTerm_iff.mp h).1
    obtain ⟨fault,hfault⟩ := declare_of_not_isTerm (r := r') hno
    exact ⟨r',_,hrefused _ hfault,.malformed fault⟩
  | secondReset hsaid hresets =>
    exact hplace (read_of_lineSays (.reset _) hsaid rfl (by simp)) rfl
      (hr.exists_setReset_error_iff.mpr hresets)
  | repeatedProgram hsaid hname =>
    exact hplace (read_of_lineSays (.program _) hsaid rfl (by simp)) rfl
      (hr.exists_startProgram_error_iff.mpr hname)
  | looseStep hsaid hnames =>
    exact hplace (read_of_lineSays (.step _) hsaid rfl (by simp)) rfl
      (hr.exists_addStep_error_iff.mpr hnames)
  | @farBit text ds term declared bit hterm hform hbit hfar =>
    obtain ⟨r',-,hrefused⟩ := hr.at_term hterm
    have hno (d : Declaration) : ¬IsTerm (String.ofList term).toList d := by
      rw [String.toList_ofList,isTerm_iff]
      rintro ⟨hform',hlt⟩
      obtain rfl := hform.unique hform'
      exact absurd (hlt bit hbit) (Nat.not_lt_of_le hfar)
    obtain ⟨fault,hfault⟩ := declare_of_not_isTerm (r := r') hno
    exact ⟨r',_,hrefused _ hfault,.farBit fault⟩
  | @clash text ds term declared hterm hform hclash =>
    obtain ⟨r',hr',hrefused⟩ := hr.at_term hterm
    rw [← String.toList_ofList (l := term)] at hform
    obtain ⟨e,he⟩ := (hr'.exists_declare_error_iff hform).mpr hclash
    exact ⟨r',_,hrefused _ he,.clash e⟩

theorem readLine_eq_error {e : Error} : r.readLine line = (r',.error e) ↔
    ∃ d, take { r with lineCount := r.lineCount+1 } line = (r',.error d) ∧
      e = ⟨r.lineCount+1,d⟩ := by
  rw [readLine]
  cases take { r with lineCount := r.lineCount+1 } line with
  | mk r₁ result => cases result <;> simp [Except.mapError,eq_comm]

/-- Lines are refused for the first that is, after those before it have been taken in. -/
theorem readLines_eq_error {lines : List (Except ReadFault String)} {e : Error} :
    r.readLines lines = (r',.error e) ↔ ∃ front line rest r₁, lines = front ++ line :: rest ∧
      r.readLines front = (r₁,.ok ()) ∧ r₁.readLine line = (r',.error e) := by
  constructor
  · intro h
    induction lines generalizing r with
    | nil => cases h
    | cons line lines ih =>
      rw [readLines] at h
      split at h
      · rename_i r₁ e₁ hline
        cases h
        exact ⟨[],line,lines,r,rfl,rfl,hline⟩
      · rename_i r₁ hline
        obtain ⟨front,line',rest,r₂,rfl,hfront,hlast⟩ := ih h
        exact ⟨line :: front,line',rest,r₂,rfl,readLines_cons_eq_ok.mpr ⟨r₁,hline,hfront⟩,hlast⟩
  · rintro ⟨front,line,rest,r₁,rfl,hfront,hline⟩
    rw [readLines_append,hfront]
    simp only [readLines,hline]

end Refused

end Reader

section Unit

variable {bytes : ByteArray} {o : Offence} {e : Error}

theorem readUnit_eq_error {lines : List (Except ReadFault String)} :
    readUnit lines = .error e ↔ ∃ r, Reader.readLines {} lines = (r,.error e) := by
  rw [readUnit]
  cases Reader.readLines {} lines with
  | mk r result => cases result <;> simp [Except.map]

theorem exists_firstOffence (h : readUnit (decodeLines bytes) = .error e) :
    ∃ o, FirstOffence bytes o ∧ Reported o e.defect := by
  obtain ⟨r,hlines⟩ := readUnit_eq_error.mp h
  obtain ⟨front,line,rest,r₁,hsplit,hfront,hline⟩ := Reader.readLines_eq_error.mp hlines
  obtain ⟨done,hsaid,hlegal,hr₁⟩ := Reader.holds_start.of_readLines Reader.legal_nil hfront
  obtain ⟨d,htake,rfl⟩ := Reader.readLine_eq_error.mp hline
  obtain ⟨o,hoffends,hreported⟩ := (hr₁.count _).exists_offence hlegal htake
  exact ⟨o,⟨front,line,rest,done,hsplit,hsaid,hlegal,hoffends⟩,hreported⟩

theorem FirstOffence.exists_error (h : FirstOffence bytes o) :
    ∃ e, readUnit (decodeLines bytes) = .error e ∧ Reported o e.defect := by
  obtain ⟨front,line,rest,done,hsplit,hsaid,hlegal,hoffends⟩ := h
  obtain ⟨r₁,hfront,hr₁⟩ := Reader.holds_start.exists_readLines hsaid hlegal
  obtain ⟨r',d,htake,hreported⟩ := (hr₁.count (r₁.lineCount+1)).exists_refusal hoffends
  refine ⟨⟨r₁.lineCount+1,d⟩,readUnit_eq_error.mpr ⟨r',?_⟩,hreported⟩
  exact Reader.readLines_eq_error.mpr
    ⟨front,line,rest,r₁,hsplit,hfront,Reader.readLine_eq_error.mpr ⟨d,htake,rfl⟩⟩

end Unit

end Source
end ControlStore
