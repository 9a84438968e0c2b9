import ControlStore.Proofs.Allocation
import ControlStore.Proofs.Compile

/-! How opcodes are dispatched. In a catalog that is in order the prologue comes first, and a program
is reached by jumping its offset past the end of the prologue. Offsets do not count the prologue, so
a dispatch table that holds them survives any change to it. -/
namespace ControlStore

def opcodeSteps (ps : List Program) : Nat :=
  ((ps.filter (·.name ≠ fetchName)).map (·.steps.length)).sum

theorem opcodeStepsBefore_eq_opcodeSteps (ps : List Program) (i : Nat) :
    opcodeStepsBefore ps i = opcodeSteps (ps.take i) := by
  have hfilter : (ps.take i).filter (!·.isFetch) = (ps.take i).filter (·.name ≠ fetchName) := by
    congr 1
    funext p
    simp [Program.isFetch]
  rw [opcodeStepsBefore,hfilter,List.length_flatMap,opcodeSteps]

def Program.replaceFetch (p : Program) (steps : List Step) : Program :=
  if p.isFetch then { p with steps } else p

@[simp] theorem Program.name_replaceFetch (p : Program) (steps : List Step) :
    (p.replaceFetch steps).name = p.name := by
  rw [replaceFetch]
  split <;> rfl

/-- A place before and after the prologue grew or shrank from `old` to `new` steps: a dispatch table
need not change, and a program moves by as much as the prologue grew. -/
structure Placement.Moves (old new : Nat) (q q' : Placement) : Prop where
  name : q'.name = q.name
  offset : q'.offset = q.offset
  base : q.name ≠ fetchName → (q'.base : Int)-q.base = (new : Int)-old

/-- Opcode programs that are placed from another address on move as far as that address. -/
theorem placeFrom_moves {old new : Nat} {ps : List Program} (h : ∀ p ∈ ps, p.isFetch = false)
    (before offset : Nat) :
    List.Forall₂ (Placement.Moves old new) (placeFrom (old+before) offset ps)
      (placeFrom (new+before) offset ps) := by
  induction ps generalizing before offset with
  | nil => exact .nil
  | cons p ps ih =>
    have hp : p.isFetch = false := h p (by simp)
    have hps : ∀ q ∈ ps, q.isFetch = false := fun q hq => h q (by simp [hq])
    simp only [placeFrom,hp,Bool.false_eq_true,if_false,Nat.add_assoc]
    refine .cons ⟨rfl,rfl,fun _ => ?_⟩ (ih hps (before+p.steps.length) (offset+p.steps.length))
    push_cast
    omega

namespace Catalog

theorem exists_fetch_of_validate {c : Catalog} (h : c.validate = .ok ()) :
    ∃ fetch rest, c.programs = fetch :: rest ∧ fetch.isFetch = true := by
  have hfirst := validate_eq_ok_iff.mp h
  cases hprograms : c.programs with
  | nil => simp [hprograms] at hfirst
  | cons fetch rest =>
    have hname : fetch.name = fetchName := by simpa [hprograms] using hfirst
    exact ⟨fetch,rest,rfl,by simp [Program.isFetch,hname]⟩

/-- Every opcode program lies its offset past the end of the prologue, where the offset counts the
steps of the opcode programs before it. The prologue has no offset, and it alone. -/
structure Dispatches (c : Catalog) (fetch : Program) : Prop where
  opcode : ∀ (i : Nat) (p : Program), c.programs[i]? = some p → p.name ≠ fetchName →
    c.allocate.placements[i]? = some
      ⟨p.name,fetch.steps.length+opcodeSteps (c.programs.take i),p.steps.length,
        some (opcodeSteps (c.programs.take i))⟩
  prologue : c.allocate.placements.head? = some ⟨fetchName,0,fetch.steps.length,none⟩
  offset_eq_none_iff : ∀ q ∈ c.allocate.placements, q.offset = none ↔ q.name = fetchName

theorem dispatches_of_fetch_first {c : Catalog} {fetch : Program} {rest : List Program}
    (hprograms : c.programs = fetch :: rest) (hfetch : fetch.isFetch = true) :
    c.Dispatches fetch where
  opcode i p hp hopcode := by
    have hname : p.isFetch = false := by simpa [Program.isFetch] using hopcode
    have hbase := stepsBefore_of_fetch_first (by rw [hprograms,List.head?_cons]) hfetch hp hname
    rw [getElem?_placements_allocate,hp,hbase,opcodeStepsBefore_eq_opcodeSteps]
    simp [hname]
  prologue := by
    have hname : fetch.name = fetchName := by simpa [Program.isFetch] using hfetch
    simp [allocate,hprograms,placeFrom,hfetch,hname]
  offset_eq_none_iff q hq := by
    obtain ⟨i,hi⟩ := List.mem_iff_getElem?.mp hq
    rw [getElem?_placements_allocate,Option.map_eq_some_iff] at hi
    obtain ⟨p,-,rfl⟩ := hi
    by_cases hname : p.name = fetchName
    · simp [Program.isFetch,hname]
    · simp [Program.isFetch,hname]

def replaceFetch (c : Catalog) (steps : List Step) : Catalog where
  programs := c.programs.map (·.replaceFetch steps)
  names_nodup := by simpa [Function.comp_def] using c.names_nodup

theorem programs_replaceFetch {c : Catalog} {fetch : Program} {rest : List Program}
    (hprograms : c.programs = fetch :: rest) (hfetch : fetch.isFetch = true) (steps : List Step) :
    (c.replaceFetch steps).programs = { fetch with steps } :: rest := by
  have hrest := isFetch_eq_false_of_mem_rest hprograms hfetch
  have hsame : rest.map (·.replaceFetch steps) = rest := by
    calc rest.map (·.replaceFetch steps)
        = rest.map id := List.map_congr_left fun p hp => by simp [Program.replaceFetch,hrest p hp]
      _ = rest := List.map_id rest
  show c.programs.map (·.replaceFetch steps) = _
  rw [hprograms,List.map_cons,hsame,Program.replaceFetch,if_pos hfetch]

/-- In a catalog that is in order the offsets of opcode programs lead to them from the end of the
prologue. Whatever steps the prologue is given instead, every offset stays, and every opcode program
moves by as much as the prologue grew. -/
theorem dispatches_past_any_fetch {c : Catalog} (hvalid : c.validate = .ok ()) :
    ∃ fetch, c.get? fetchName = some fetch ∧ c.Dispatches fetch ∧
      ∀ steps, List.Forall₂ (Placement.Moves fetch.steps.length steps.length)
        c.allocate.placements (c.replaceFetch steps).allocate.placements := by
  obtain ⟨fetch,rest,hprograms,hfetch⟩ := exists_fetch_of_validate hvalid
  have hrest := isFetch_eq_false_of_mem_rest hprograms hfetch
  have hname : fetch.name = fetchName := by simpa [Program.isFetch] using hfetch
  refine ⟨fetch,by simp [get?,hprograms,hname],dispatches_of_fetch_first hprograms hfetch,?_⟩
  intro steps
  have hfetch' : Program.isFetch { fetch with steps } = true := hfetch
  simp only [allocate,hprograms,programs_replaceFetch hprograms hfetch steps,placeFrom,hfetch,
    hfetch',if_true,Nat.zero_add]
  exact .cons ⟨rfl,rfl,fun hopcode => absurd hname hopcode⟩ (placeFrom_moves hrest 0 0)

/-- The last program of a catalog with empty programs, before and after its prologue of two steps is
dropped. -/
theorem dispatches_past_any_fetch_withGaps : withGaps.validate = .ok () ∧
    withGaps.allocate.placements[3]? = some ⟨"halt",3,0,some 1⟩ ∧
    (withGaps.replaceFetch []).allocate.placements[3]? = some ⟨"halt",1,0,some 1⟩ ∧
    List.Forall₂ (Placement.Moves 2 0) withGaps.allocate.placements
      (withGaps.replaceFetch []).allocate.placements := by
  have hvalid : withGaps.validate = .ok () := by decide
  obtain ⟨fetch,hget,hdispatches,hmoves⟩ := dispatches_past_any_fetch hvalid
  obtain rfl : ⟨"fetch",[["load"],["next"]]⟩ = fetch := Option.some.inj hget
  exact ⟨hvalid,hdispatches.opcode 3 ⟨"halt",[]⟩ rfl (by decide),by decide,hmoves []⟩

end Catalog
end ControlStore
