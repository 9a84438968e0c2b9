import ControlStore.Proofs.Source.Moves
import ControlStore.Proofs.Text.Layout

/-! What a reader holds after any history of feeding. Pieces may be refused half-way; whatever was
fed, the names are identifiers, the next bit follows the last control line, the lines read so far
are counted, and nothing that was taken in is ever lost. -/
namespace ControlStore

open Checks Text

def Registry.bitAfterLast (r : Registry) : Nat :=
  (r.signals.getLast?.map fun s => s.bit.val+1).getD 0

/-- A catalog that went on: the programs are still there, the last of them may have more steps at
its end, and others may follow. -/
def Catalog.Continues (c c' : Catalog) : Prop :=
  c.programs = [] ∨ ∃ front p more rest, c.programs = front ++ [p] ∧
    c'.programs = front ++ { p with steps := p.steps ++ more } :: rest

namespace Catalog

theorem Continues.refl (c : Catalog) : c.Continues c := by
  rcases List.eq_nil_or_concat' c.programs with h | ⟨front,p,h⟩
  · exact .inl h
  · exact .inr ⟨front,p,[],[],h,by simpa using h⟩

theorem Continues.trans {c c' c'' : Catalog} (h : c.Continues c') (h' : c'.Continues c'') :
    c.Continues c'' := by
  rcases h with h | ⟨front,p,more,rest,hold,hmiddle⟩
  · exact .inl h
  rcases h' with h' | ⟨front',q,more',rest',hmiddle',hnew⟩
  · rw [hmiddle] at h'
    simp at h'
  rw [hmiddle'] at hmiddle
  -- the program that went on first is the last one, or programs have followed it
  rcases List.eq_nil_or_concat' rest with rfl | ⟨between,last,rfl⟩
  · obtain ⟨rfl,hq⟩ := List.append_inj' hmiddle rfl
    obtain rfl := List.singleton_inj.mp hq
    exact .inr ⟨front',p,more ++ more',rest',hold,by simpa using hnew⟩
  · have hsplit : front' ++ [q] =
        (front ++ { p with steps := p.steps ++ more } :: between) ++ [last] := by
      simpa using hmiddle
    obtain ⟨rfl,hq⟩ := List.append_inj' hsplit rfl
    exact .inr ⟨front,p,more,between ++ { q with steps := q.steps ++ more' } :: rest',hold,
      by simpa using hnew⟩

theorem continues_of_push {c c' : Catalog} {p : Program} (h : c.push p = .ok c') :
    c.Continues c' := by
  have hprograms := programs_of_push h
  rcases List.eq_nil_or_concat' c.programs with hnil | ⟨front,q,hold⟩
  · exact .inl hnil
  · exact .inr ⟨front,q,[],[p],hold,by simp [hprograms,hold]⟩

end Catalog

theorem appendToLast_concat (step : Step) (front : List Program) (p : Program) :
    appendToLast step (front ++ [p]) = front ++ [p.appendStep step] := by
  induction front with
  | nil => rfl
  | cons q front ih =>
    cases front with
    | nil => rfl
    | cons q' front =>
      rw [List.cons_append,List.cons_append,appendToLast,← List.cons_append,ih]
      rfl

theorem Catalog.programs_appendStep {c : Catalog} {front : List Program} {p : Program}
    (h : c.programs = front ++ [p]) (step : Step) :
    (c.appendStep step).programs = front ++ [p.appendStep step] := by
  have hprograms : (c.appendStep step).programs = appendToLast step c.programs := rfl
  rw [hprograms,h,appendToLast_concat]

theorem Catalog.continues_appendStep (c : Catalog) (step : Step) :
    c.Continues (c.appendStep step) := by
  rcases List.eq_nil_or_concat' c.programs with hnil | ⟨front,p,hold⟩
  · exact .inl hnil
  · exact .inr ⟨front,p,[step],[],hold,programs_appendStep hold step⟩

namespace Source
namespace Reader

/-- All names that a reader holds are identifiers, and the next bit follows the last control line
within the word. -/
structure Consistent (r : Reader) : Prop extends r.Named where
  steps : ∀ p ∈ r.catalog.programs, ∀ step ∈ p.steps, ∀ name ∈ step, isIdentifier name = true
  reset : ∀ name ∈ r.reset, isIdentifier name = true
  nextBit : r.nextBit = r.registry.bitAfterLast
  nextBit_le : r.nextBit ≤ wordWidth

/-- A reader holds all that another holds, in the same order. -/
structure Grows (r r' : Reader) : Prop where
  signals : r.registry.signals <+: r'.registry.signals
  programs : r.catalog.Continues r'.catalog
  reset : ∀ name, r.reset = some name → r'.reset = some name

section Moves

variable {r r' r'' : Reader}

theorem Consistent.of_moves (h : Moves r r') (hr : r.Consistent) : r'.Consistent := by
  have hnamed := hr.toNamed.of_moves h
  cases h with
  | count => exact ⟨hnamed,hr.steps,hr.reset,hr.nextBit,hr.nextBit_le⟩
  | declare hname hregister =>
    obtain ⟨hbit,hsignals⟩ := Registry.signals_of_register hregister
    refine ⟨hnamed,hr.steps,hr.reset,?_,hbit⟩
    simp [Registry.bitAfterLast,hsignals]
  | reset hname =>
    refine ⟨hnamed,hr.steps,?_,hr.nextBit,hr.nextBit_le⟩
    intro name hreset
    obtain rfl := Option.some.inj hreset
    exact hname
  | program hname hpush =>
    refine ⟨hnamed,?_,hr.reset,hr.nextBit,hr.nextBit_le⟩
    intro p hp
    rw [Catalog.programs_of_push hpush] at hp
    rcases List.mem_append.mp hp with hp | hp
    · exact hr.steps p hp
    · simp [List.mem_singleton.mp hp]
  | @step step hstep hne =>
    refine ⟨hnamed,?_,hr.reset,hr.nextBit,hr.nextBit_le⟩
    obtain ⟨front,last,hold⟩ := (List.eq_nil_or_concat' r.catalog.programs).resolve_left hne
    intro p hp
    rw [Catalog.programs_appendStep hold] at hp
    rcases List.mem_append.mp hp with hp | hp
    · exact hr.steps p (by simp [hold,hp])
    · rw [List.mem_singleton.mp hp]
      intro step' hmem
      rcases List.mem_append.mp hmem with hmem | hmem
      · exact hr.steps last (by simp [hold]) step' hmem
      · rw [List.mem_singleton.mp hmem]
        exact hstep

theorem Consistent.of_reaches (h : Reaches r r') (hr : r.Consistent) : r'.Consistent := by
  induction h with
  | refl => exact hr
  | tail _ hmove ih => exact ih.of_moves hmove

theorem Grows.refl (r : Reader) : Grows r r :=
  ⟨List.prefix_rfl,.refl _,fun _ h => h⟩

theorem Grows.trans (h : Grows r r') (h' : Grows r' r'') : Grows r r'' :=
  ⟨h.signals.trans h'.signals,h.programs.trans h'.programs,
    fun name hname => h'.reset name (h.reset name hname)⟩

theorem grows_of_moves (h : Moves r r') : Grows r r' := by
  cases h with
  | count => exact ⟨List.prefix_rfl,.refl _,fun _ h => h⟩
  | declare _ hregister =>
    obtain ⟨hbit,hsignals⟩ := Registry.signals_of_register hregister
    refine ⟨?_,.refl _,fun _ h => h⟩
    rw [hsignals]
    exact List.prefix_append _ _
  | reset _ hnone =>
    refine ⟨List.prefix_rfl,.refl _,?_⟩
    intro name hname
    rw [hnone] at hname
    cases hname
  | program _ hpush => exact ⟨List.prefix_rfl,Catalog.continues_of_push hpush,fun _ h => h⟩
  | step => exact ⟨List.prefix_rfl,Catalog.continues_appendStep _ _,fun _ h => h⟩

theorem grows_of_reaches (h : Reaches r r') : Grows r r' := by
  induction h with
  | refl => exact .refl r
  | tail _ hmove ih => exact ih.trans (grows_of_moves hmove)

end Moves

section Count

/-- The number of lines that are read: a line is read if all lines before it are accepted. -/
def linesRead (r : Reader) (lines : List (Except ReadFault String)) : Nat :=
  (List.range lines.length).countP fun k => (r.readLines (lines.take k)).2.isOk

theorem linesRead_cons (r : Reader) (line : Except ReadFault String)
    (rest : List (Except ReadFault String)) :
    r.linesRead (line :: rest) =
      match r.readLine line with
      | (_,.error _) => 1
      | (r',.ok ()) => 1+r'.linesRead rest := by
  have hfirst : (r.readLines ((line :: rest).take 0)).2.isOk = true := rfl
  rw [linesRead,List.length_cons,List.range_succ_eq_map,List.countP_cons,List.countP_map,
    if_pos hfirst,Nat.add_comm]
  simp only [Function.comp_def,List.take_succ_cons,readLines]
  cases hline : r.readLine line with
  | mk r' result =>
    cases result with
    | error e => simp [Except.isOk,Except.toBool]
    | ok u => rfl

theorem lineCount_of_declare {r r' : Reader} {term : String} (h : r.declare term = .ok r') :
    r'.lineCount = r.lineCount := by
  rw [Reader.declare] at h
  split at h
  · cases h
  · dsimp only at h
    split at h <;> cases h
    rfl

theorem lineCount_declareAll (r : Reader) (terms : List String) :
    (r.declareAll terms).1.lineCount = r.lineCount := by
  induction terms generalizing r with
  | nil => rfl
  | cons term terms ih =>
    rw [declareAll]
    split
    · rfl
    · rename_i r' hr'
      rw [ih,lineCount_of_declare hr']

theorem lineCount_orElse {r : Reader} {x : Except Fault Reader}
    (h : ∀ r', x = .ok r' → r'.lineCount = r.lineCount) :
    (r.orElse x).1.lineCount = r.lineCount := by
  cases x with
  | error fault => rfl
  | ok r' => exact h r' rfl

theorem lineCount_apply (r : Reader) (statement : Statement) :
    (r.apply statement).1.lineCount = r.lineCount := by
  cases statement with
  | blank => rfl
  | declare terms => exact lineCount_declareAll r terms
  | reset name =>
    refine lineCount_orElse fun r' h => ?_
    rw [setReset] at h
    split at h <;> cases h
    rfl
  | program name =>
    refine lineCount_orElse fun r' h => ?_
    rw [startProgram] at h
    split at h <;> cases h
    rfl
  | step step =>
    refine lineCount_orElse fun r' h => ?_
    rw [addStep] at h
    split at h <;> cases h
    rfl

theorem lineCount_readLine (r : Reader) (line : Except ReadFault String) :
    (r.readLine line).1.lineCount = r.lineCount+1 := by
  cases line with
  | error fault => rfl
  | ok text =>
    simp only [readLine,Reader.take]
    cases Statement.read text with
    | error fault => rfl
    | ok statement => exact lineCount_apply _ statement

/-- Every line that is read is counted, the refused one included. -/
theorem lineCount_readLines (r : Reader) (lines : List (Except ReadFault String)) :
    (r.readLines lines).1.lineCount = r.lineCount+r.linesRead lines := by
  induction lines generalizing r with
  | nil => rfl
  | cons line rest ih =>
    have hcount := lineCount_readLine r line
    rw [readLines,linesRead_cons]
    cases hline : r.readLine line with
    | mk r' result =>
      rw [hline] at hcount
      cases result with
      | error e => exact hcount
      | ok u =>
        have hrest := ih r'
        rw [hcount,Nat.add_assoc] at hrest
        exact hrest

end Count

def feedAll (r : Reader) (pieces : List ByteArray) : Reader :=
  pieces.foldl (fun r bytes => (r.feed bytes).1) r

/-- Of pieces fed one after the other, so many lines are read. The lines of a piece are those that
its bytes are laid out in. -/
def HasRead (r : Reader) : List ByteArray → Nat → Prop
  | [], n => n = 0
  | bytes :: pieces, n => ∃ ls m, HasLines 10 13 bytes.toList ls ∧
      (r.feed bytes).1.HasRead pieces m ∧ n = r.linesRead (ls.map decodeLine)+m

def linesReadAll (r : Reader) : List ByteArray → Nat
  | [] => 0
  | bytes :: pieces => r.linesRead (decodeLines bytes)+(r.feed bytes).1.linesReadAll pieces

theorem hasRead_iff {r : Reader} {pieces : List ByteArray} {n : Nat} :
    r.HasRead pieces n ↔ n = r.linesReadAll pieces := by
  induction pieces generalizing r n with
  | nil => rfl
  | cons bytes pieces ih =>
    rw [HasRead,linesReadAll,decodeLines]
    constructor
    · rintro ⟨ls,m,hlines,hrest,rfl⟩
      obtain rfl := (hasLines_iff (by decide)).mp hlines
      rw [ih.mp hrest]
      rfl
    · rintro rfl
      exact ⟨byteLines bytes.toList,_,hasLines_linesWith 10 13 _,ih.mpr rfl,rfl⟩

theorem reaches_feedAll (r : Reader) (pieces : List ByteArray) : Reaches r (r.feedAll pieces) := by
  induction pieces generalizing r with
  | nil => exact .refl
  | cons bytes pieces ih => exact (reaches_readLines r (decodeLines bytes)).trans (ih _)

theorem lineCount_feedAll (r : Reader) (pieces : List ByteArray) :
    (r.feedAll pieces).lineCount = r.lineCount+r.linesReadAll pieces := by
  induction pieces generalizing r with
  | nil => rfl
  | cons bytes pieces ih =>
    have hfeed : (r.feed bytes).1.lineCount = r.lineCount+r.linesRead (decodeLines bytes) :=
      lineCount_readLines r (decodeLines bytes)
    rw [linesReadAll,← Nat.add_assoc,← hfeed]
    exact ih _

theorem consistent_start : Consistent {} where
  signals := by simp [Registry.empty]
  programs := by simp [Catalog.empty]
  steps := by simp [Catalog.empty]
  reset := by simp
  nextBit := rfl
  nextBit_le := by decide

/-- After any history of feeding a reader is consistent, has counted the lines it has read, and
still holds what it held at any earlier moment. -/
theorem feedAll_consistent_and_grows (earlier later : List ByteArray) :
    (feedAll {} (earlier ++ later)).Consistent ∧
      (∀ n, HasRead {} (earlier ++ later) n ↔ n = (feedAll {} (earlier ++ later)).lineCount) ∧
      Grows (feedAll {} earlier) (feedAll {} (earlier ++ later)) := by
  refine ⟨consistent_start.of_reaches (reaches_feedAll {} _),?_,?_⟩
  · intro n
    have hcount : (feedAll {} (earlier ++ later)).lineCount = 0+linesReadAll {} (earlier ++ later) :=
      lineCount_feedAll {} _
    rw [hasRead_iff,hcount,Nat.zero_add]
  · have hsplit : feedAll {} (earlier ++ later) = (feedAll {} earlier).feedAll later :=
      List.foldl_append
    rw [hsplit]
    exact grows_of_reaches (reaches_feedAll _ later)

end Reader
end Source
end ControlStore
