import ControlStore.Proofs.Source.History
import ControlStore.Proofs.Source.Offences

/-! What a refused line leaves behind. The line is counted. Apart from that a reader stays as the
lines before have left it, with one exception: of a declaration that is refused half-way, the terms
before the offending one stay declared. -/
namespace ControlStore

open Checks Text

namespace Source

theorem nextAfter_eq (next : Nat) (ds : List Declaration) :
    nextAfter next ds = ((assign next ds).getLast?.map (·.2+1)).getD next := by
  induction ds generalizing next with
  | nil => rfl
  | cons d ds ih =>
    have hcons : nextAfter next (d :: ds) = nextAfter (d.bit.getD next+1) ds := rfl
    rw [hcons,ih,assign,List.getLast?_cons]
    cases (assign (d.bit.getD next+1) ds).getLast? <;> rfl

namespace Reader

def counted (r : Reader) : Reader := { r with lineCount := r.lineCount+1 }

/-- What declarations make of a reader: their names and bits follow those that were registered, the
next bit moves past the last of them, and nothing else changes. -/
structure Declares (r : Reader) (ds : List Declaration) (r' : Reader) : Prop where
  signals : r'.registry.pairs = r.registry.pairs ++ assign r.nextBit ds
  nextBit : r'.nextBit = ((assign r.nextBit ds).getLast?.map (·.2+1)).getD r.nextBit
  lineCount : r'.lineCount = r.lineCount
  catalog : r'.catalog = r.catalog
  reset : r'.reset = r.reset

/-- A term that a reader cannot declare: it has no form, or no registry holds its name and bit
besides those that are there. -/
def Offended (r : Reader) (term : List Char) : Prop :=
  ∀ d, IsTerm term d → ¬Assignable (r.registry.pairs ++ [(d.name,d.bit.getD r.nextBit)])

/-- What a line that is refused makes of a reader. -/
inductive StopsAt (r : Reader) : Except ReadFault String → Reader → Prop
  | unreadable (fault : ReadFault) : StopsAt r (.error fault) r.counted
  | other {text : String} {cs : List Char} (hcontent : HasContent text.toList cs)
      (hmark : cs.head? ≠ some '@') : StopsAt r (.ok text) r.counted
  | noTerm {text : String} {cs : List Char} (hcontent : HasContent text.toList ('@' :: cs))
      (hwords : HasWords cs []) : StopsAt r (.ok text) r.counted
  | term {text : String} {cs term : List Char} {ws more : List (List Char)}
      {ds : List Declaration} {r' : Reader} (hcontent : HasContent text.toList ('@' :: cs))
      (hwords : HasWords cs (ws ++ term :: more)) (hterms : List.Forall₂ IsTerm ws ds)
      (hdeclares : r.counted.Declares ds r') (hoffended : r'.Offended term) :
      StopsAt r (.ok text) r'

/-- A reader stops at line `k` of some lines, counted from zero: it has taken in those before, names
this one in its error, and is left as this one leaves it. -/
def StopsIn (r : Reader) (lines : List (Except ReadFault String)) (r' : Reader) (e : Error) : Prop :=
  ∃ k line before, lines[k]? = some line ∧ r.readLines (lines.take k) = (before,.ok ()) ∧
    before.lineCount = r.lineCount+k ∧ e.line = before.lineCount+1 ∧ before.StopsAt line r'

section Line

variable {r r' : Reader} {d : Defect}

theorem take_eq_self_of_other {text : String} (hmark : (content text).head? ≠ some '@')
    (h : r.take (.ok text) = (r',.error d)) : r' = r := by
  simp only [Reader.take] at h
  cases hread : Statement.read text with
  | error fault =>
    rw [hread] at h
    cases h
    rfl
  | ok statement =>
    rw [hread] at h
    cases statement with
    | blank => cases h
    | declare terms =>
      obtain ⟨-,cs,hcontent,-⟩ := read_eq_declare_iff.mp hread
      have hcs : content text = '@' :: cs := hasContent_iff.mp hcontent
      exact absurd (by rw [hcs,List.head?_cons]) hmark
    | reset name => exact (orElse_eq_error.mp h).1
    | program name => exact (orElse_eq_error.mp h).1
    | step step => exact (orElse_eq_error.mp h).1

theorem declares_of_declareAll {terms : List String} (h : r.declareAll terms = (r',.ok ())) :
    ∃ ds, List.Forall₂ IsTerm (terms.map String.toList) ds ∧ r.Declares ds r' := by
  obtain ⟨ds,registry,hreads,hpairs,rfl⟩ := declareAll_eq_ok.mp h
  have hterms := (mapM_eq_ok.mp hreads).imp fun _ _ => isTerm_of_read
  exact ⟨ds,List.forall₂_map_left_iff.mpr hterms,hpairs,nextAfter_eq _ _,rfl,rfl,rfl⟩

theorem offended_of_declare {term : String} (h : r.declare term = .error d) :
    r.Offended term.toList := by
  intro declared hterm hassignable
  obtain ⟨registry,hpairs⟩ := Registry.exists_pairs_eq hassignable
  have hregister := Registry.register_eq_ok.mpr hpairs
  rw [declare_eq_ok.mpr ⟨declared,registry,read_of_isTerm hterm,hregister,rfl⟩] at h
  cases h

theorem stopsAt_of_readLine {line : Except ReadFault String} {e : Error}
    (h : r.readLine line = (r',.error e)) : r.StopsAt line r' := by
  obtain ⟨d,htake,-⟩ := readLine_eq_error.mp h
  cases line with
  | error fault =>
    cases htake
    exact .unreadable fault
  | ok text =>
    have hcontent : HasContent text.toList (content text) := hasContent_iff.mpr rfl
    by_cases hmark : (content text).head? = some '@'
    · obtain ⟨cs,hcs⟩ := List.head?_eq_some_iff.mp hmark
      rw [hcs] at hcontent
      by_cases hterms : names cs = []
      · obtain ⟨fault,hread⟩ := exists_read_error_of_noTerm hcontent (hasWords_nil_iff.mpr hterms)
        simp only [Reader.take,hread] at htake
        cases htake
        exact .noTerm hcontent (hasWords_nil_iff.mpr hterms)
      · -- the terms before the refused one are declared, and it offends what they leave
        have hwords : HasWords cs ((names cs).map String.toList) := hasWords_map_toList.mpr rfl
        have hread := read_eq_declare_iff.mpr ⟨hterms,cs,hcontent,hwords⟩
        simp only [Reader.take,hread] at htake
        obtain ⟨front,term,rest,hsplit,hfront,hlast⟩ := declareAll_eq_error.mp htake
        obtain ⟨ds,hds,hdeclares⟩ := declares_of_declareAll hfront
        rw [hsplit,List.map_append,List.map_cons] at hwords
        exact .term hcontent hwords hds hdeclares (offended_of_declare hlast)
    · rw [take_eq_self_of_other hmark htake]
      exact .other hcontent hmark

end Line

theorem lineCount_of_accepted {r r' : Reader} {lines : List (Except ReadFault String)}
    (h : r.readLines lines = (r',.ok ())) : r'.lineCount = r.lineCount+lines.length := by
  induction lines generalizing r with
  | nil =>
    cases h
    rfl
  | cons line lines ih =>
    obtain ⟨r₁,hline,hlines⟩ := readLines_cons_eq_ok.mp h
    have hfirst : r₁.lineCount = r.lineCount+1 := by simpa [hline] using lineCount_readLine r line
    rw [ih hlines,hfirst,List.length_cons,Nat.add_assoc,Nat.add_comm 1]

/-- Whatever a reader holds, a source that it refuses leaves it as the lines before the refused one
have left it, with that line counted, and with the terms declared that come before an offending one
on that line. This holds of lines that come from anywhere, and so of the lines of a piece that is
fed. -/
theorem stops_at_refused_line (r r' : Reader) (e : Error) :
    (∀ lines, r.readLines lines = (r',.error e) → r.StopsIn lines r' e) ∧
      ∀ bytes, r.feed bytes = (r',.error e) → r.StopsIn (decodeLines bytes) r' e := by
  have hlines : ∀ lines, r.readLines lines = (r',.error e) → r.StopsIn lines r' e := by
    intro lines h
    obtain ⟨front,line,rest,before,rfl,hfront,hline⟩ := readLines_eq_error.mp h
    obtain ⟨d,-,rfl⟩ := readLine_eq_error.mp hline
    exact ⟨front.length,line,before,by simp,by simpa using hfront,lineCount_of_accepted hfront,rfl,
      stopsAt_of_readLine hline⟩
  exact ⟨hlines,fun bytes => hlines (decodeLines bytes)⟩

/-- The third line declares a control line before it comes to a bit that is taken; what follows has
no effect. -/
theorem stops_at_taken_bit : ∃ r',
    feed {} "@ a b:7\n: p\n@ c d:7 e\n= c\n".toUTF8 =
      (r',.error ⟨3,.registration (.bitTaken "d" 7 "b")⟩) ∧
    StopsIn {} (decodeLines "@ a b:7\n: p\n@ c d:7 e\n= c\n".toUTF8) r'
      ⟨3,.registration (.bitTaken "d" 7 "b")⟩ ∧
    r'.registry.pairs = [("a",0),("b",7),("c",8)] ∧ r'.nextBit = 9 ∧ r'.lineCount = 3 ∧
    r'.catalog.programs = [⟨"p",[]⟩] := by
  have hfeed : ∃ r', feed {} "@ a b:7\n: p\n@ c d:7 e\n= c\n".toUTF8 =
      (r',.error ⟨3,.registration (.bitTaken "d" 7 "b")⟩) ∧
      r'.registry.pairs = [("a",0),("b",7),("c",8)] ∧ r'.nextBit = 9 ∧ r'.lineCount = 3 ∧
      r'.catalog.programs = [⟨"p",[]⟩] := by
    simp only [feed,decodeLines_toUTF8]
    exact ⟨_,rfl,rfl,rfl,rfl,rfl⟩
  obtain ⟨r',hrefused,hheld⟩ := hfeed
  exact ⟨r',hrefused,(stops_at_refused_line {} r' _).2 _ hrefused,hheld⟩

end Reader
end Source
end ControlStore
