import ControlStore.Proofs.Compile

/-! What a compilation reports. Every opcode program that resets before its last step gets one
warning, in catalog order; all other events of a compilation are for debugging. -/
namespace ControlStore

open Checks

namespace Logged

variable {α β : Type}

theorem events_bind_of_ok {x : Logged α} {a : α} (h : x.result = .ok a) (f : α → Logged β) :
    (x >>= f).events = x.events ++ (f a).events := by
  obtain ⟨events,result⟩ := x
  cases h
  rfl

theorem events_bind_of_error {x : Logged α} {e : Error} (h : x.result = .error e)
    (f : α → Logged β) : (x >>= f).events = x.events := by
  obtain ⟨events,result⟩ := x
  cases h
  rfl

@[simp] theorem events_pure (a : α) : (pure a : Logged α).events = [] := rfl

@[simp] theorem events_ofExcept (x : Except Error α) : (ofExcept x).events = [] := rfl

@[simp] theorem events_log (events : List Event) : (log events).events = events := rfl

theorem events_mapM {xs : List α} {f : α → Logged β} {ys : List β}
    (h : List.Forall₂ (fun x y => (f x).result = .ok y) xs ys) :
    (xs.mapM f).events = xs.flatMap fun x => (f x).events := by
  induction h with
  | nil => rfl
  | @cons x y xs ys hxy htail ih =>
    have hrest : (xs.mapM f).result = .ok ys := by
      rw [result_mapM]
      exact mapM_eq_ok.mpr htail
    rw [List.mapM_cons,events_bind_of_ok hxy,events_bind_of_ok hrest,events_pure,List.append_nil,ih,
      List.flatMap_cons]

/-- A sequence that stops has reported what its members up to the one that stops report. -/
theorem events_mapM_of_error {front rest : List α} {x : α} {f : α → Logged β} {ys : List β}
    {e : Error} (hfront : List.Forall₂ (fun x y => (f x).result = .ok y) front ys)
    (hx : (f x).result = .error e) :
    ((front ++ x :: rest).mapM f).events =
      (front.flatMap fun x => (f x).events) ++ (f x).events := by
  induction hfront with
  | nil =>
    rw [List.nil_append,List.mapM_cons,events_bind_of_error hx]
    rfl
  | @cons a b front ys hab htail ih =>
    have hrest : ((front ++ x :: rest).mapM f).result = .error e := by
      rw [result_mapM]
      refine mapM_eq_error.mpr ⟨front,x,rest,rfl,?_,hx⟩
      intro a ha
      obtain ⟨b,-,hb⟩ := exists_of_forall₂ htail ha
      exact ⟨b,hb⟩
    rw [List.cons_append,List.mapM_cons,events_bind_of_ok hab,events_bind_of_error hrest,ih,
      List.flatMap_cons,List.append_assoc]

end Logged

def Registry.firstReset (r : Registry) (bit : Fin wordWidth) (p : Program) : Option Nat :=
  p.steps.findIdx? fun step => r.Raises step bit

/-- The warning about a program: steps follow the first one that resets. -/
def Registry.warning (r : Registry) (bit : Fin wordWidth) (reset : String) (p : Program) :
    Option Event :=
  ((r.firstReset bit p).filter (·+1 < p.steps.length)).map fun step =>
    .unreachable p.name reset step p.steps.length

def Registry.warningText (r : Registry) (bit : Fin wordWidth) (reset : String) (p : Program) :
    Option String :=
  ((r.firstReset bit p).filter (·+1 < p.steps.length)).map fun step =>
    s!"Program '{p.name}' raises '{reset}' in step {step}; " ++
      s!"steps {step+1}..{p.steps.length} are unreachable"

theorem Registry.map_message_warning (r : Registry) (bit : Fin wordWidth) (reset : String)
    (p : Program) : (r.warning bit reset p).map (·.message) = r.warningText bit reset p := by
  rw [warning,warningText,Option.map_map]
  rfl

def Registry.warnings (r : Registry) (bit : Fin wordWidth) (reset : String) (ps : List Program) :
    List Event :=
  (ps.filter (·.name ≠ fetchName)).filterMap (r.warning bit reset)

/-- Without its last element a list holds the same first match, unless that is the last element. -/
theorem findIdx?_dropLast {α : Type} (p : α → Bool) (xs : List α) :
    xs.dropLast.findIdx? p = (xs.findIdx? p).filter (·+1 < xs.length) := by
  rcases List.eq_nil_or_concat' xs with rfl | ⟨front,x,rfl⟩
  · rfl
  · rw [List.dropLast_concat,List.findIdx?_append]
    cases hfront : front.findIdx? p with
    | some i =>
      have hi := (List.findIdx?_eq_some_iff_getElem.mp hfront).1
      simp [hi,Option.filter]
    | none => cases hx : p x <;> simp [List.findIdx?_cons,hx,Option.filter]

theorem findIdx?_of_forall₂ {α β : Type} {R : α → β → Prop} {xs : List α} {ys : List β}
    {p : α → Bool} {q : β → Bool} (h : List.Forall₂ R xs ys) (hpq : ∀ x y, R x y → q y = p x) :
    ys.findIdx? q = xs.findIdx? p := by
  induction h with
  | nil => rfl
  | cons hxy _ ih => rw [List.findIdx?_cons,List.findIdx?_cons,hpq _ _ hxy,ih]

section Program

variable {r : Registry} {bit : Fin wordWidth} {reset : String} {p : Program} {e : EncodedProgram}

theorem findIdx?_words (h : p.encode r = .ok e) :
    e.words.findIdx? (·.getLsbD bit) = r.firstReset bit p := by
  apply findIdx?_of_forall₂ (Program.encode_eq_ok_iff.mp h).2
  intro step w hw
  rw [Bool.eq_iff_iff,decide_eq_true_iff]
  exact (Registry.encode_eq_ok_iff.mp hw).2 bit

theorem events_checkReset (reset : String) (h : e.EndsIn bit) : (checkReset e bit reset).events =
    ((e.words.dropLast.findIdx? (·.getLsbD bit)).map fun early =>
      Event.unreachable e.name reset early e.words.length).toList := by
  obtain ⟨last,hlast,hset⟩ := h
  have hbit : last.hasBit bit = .ok true := by rw [ControlWord.hasBit,if_pos bit.isLt,hset]
  simp only [checkReset,hlast,hbit]
  cases e.words.dropLast.findIdx? (·.getLsbD bit) <;> rfl

theorem events_encodeChecked (h : (encodeChecked r bit reset p).result = .ok e) :
    (encodeChecked r bit reset p).events =
      if p.name = fetchName then [] else (r.warning bit reset p).toList := by
  obtain ⟨hencode,hends⟩ := encodeChecked_eq_ok_iff.mp h
  have hname := (Program.encode_eq_ok_iff.mp hencode).1
  have hlength := (Program.encode_eq_ok_iff.mp hencode).2.length_eq
  have hfirst : (Logged.ofExcept ((p.encode r).mapError .undefinedSignal)).result = .ok e := by
    simp [hencode]
  rw [encodeChecked,Logged.events_bind_of_ok hfirst,Logged.events_ofExcept,List.nil_append]
  by_cases hfetch : p.name = fetchName
  · have hp : p.isFetch = true := by simp [Program.isFetch,hfetch]
    rw [if_pos hfetch,hp]
    rfl
  · have hp : p.isFetch = false := by simp [Program.isFetch,hfetch]
    have hcheck : (checkReset e bit reset).result = .ok () := checkReset_eq_ok (hends hfetch)
    have hevents := events_checkReset reset (hends hfetch)
    rw [findIdx?_dropLast,findIdx?_words hencode,hname,← hlength] at hevents
    rw [if_neg hfetch,hp]
    simp only [Bool.false_eq_true,if_false]
    rw [Logged.events_bind_of_ok hcheck,Logged.events_pure,List.append_nil,hevents]
    rfl

end Program

/-- Programs that pass report their warnings and nothing else. -/
theorem flatMap_events_encodeChecked {r : Registry} {bit : Fin wordWidth} {reset : String}
    {ps : List Program} {es : List EncodedProgram}
    (h : List.Forall₂ (fun p e => (encodeChecked r bit reset p).result = .ok e) ps es) :
    (ps.flatMap fun p => (encodeChecked r bit reset p).events) = r.warnings bit reset ps := by
  induction h with
  | nil => rfl
  | @cons p e ps es hp _ ih =>
    rw [List.flatMap_cons,ih,events_encodeChecked hp,Registry.warnings,Registry.warnings]
    by_cases hfetch : p.name = fetchName
    · rw [if_pos hfetch,List.filter_cons_of_neg (by simpa using hfetch),List.nil_append]
    · rw [if_neg hfetch,List.filter_cons_of_pos (by simpa using hfetch),List.filterMap_cons]
      cases r.warning bit reset p <;> rfl

theorem level_of_mem_warnings {r : Registry} {bit : Fin wordWidth} {reset : String}
    {ps : List Program} {event : Event} (h : event ∈ r.warnings bit reset ps) :
    event.level = .warn := by
  obtain ⟨p,-,hp⟩ := List.mem_filterMap.mp h
  obtain ⟨step,-,rfl⟩ := Option.map_eq_some_iff.mp hp
  rfl

/-- What a compilation reports before it succeeds: the warnings, then events for debugging. -/
theorem events_compile {unit : ControlUnit} {options : Options} {artifacts : Artifacts}
    {bit : Fin wordWidth} (h : (compile unit options).result = .ok artifacts)
    (hbit : unit.registry.bit? (resetName unit options) = some bit) :
    (compile unit options).events =
      unit.registry.warnings bit (resetName unit options) unit.catalog.programs ++
        .counts unit.registry.size unit.catalog.allocate.placements.length
          unit.catalog.allocate.total :: unit.catalog.allocate.placements.map .placed := by
  obtain ⟨hfirst,bit',es,hbit',hes,hbits,hfit,hassemble⟩ := compile_eq_ok_iff.mp h
  obtain rfl : bit = bit' := by simpa [hbit] using hbit'
  have hencode : (unit.catalog.programs.mapM
      (encodeChecked unit.registry bit (resetName unit options))).result = .ok es := by
    rw [Logged.result_mapM]
    exact mapM_eq_ok.mpr hes
  have hallocate : (Logged.ofExcept (allocateWithin unit.catalog options.addressBits)).result =
      .ok unit.catalog.allocate := allocateWithin_eq_ok_iff.mpr ⟨hbits,hfit,rfl⟩
  rw [compile_of_bit (Catalog.validate_eq_ok_iff.mpr hfirst) hbit,
    Logged.events_bind_of_ok hencode,Logged.events_mapM hes,flatMap_events_encodeChecked hes,
    Logged.events_bind_of_ok hallocate,Logged.events_bind_of_ok (Logged.result_log _)]
  simp

theorem filter_warn_events_compile {unit : ControlUnit} {options : Options} {artifacts : Artifacts}
    {bit : Fin wordWidth} (h : (compile unit options).result = .ok artifacts)
    (hbit : unit.registry.bit? (resetName unit options) = some bit) :
    (compile unit options).events.filter (·.level = .warn) =
      unit.registry.warnings bit (resetName unit options) unit.catalog.programs := by
  rw [events_compile h hbit,List.filter_append,
    List.filter_eq_self.mpr fun event hevent => decide_eq_true (level_of_mem_warnings hevent),
    List.filter_eq_nil_iff.mpr,List.append_nil]
  intro event hevent
  rcases List.mem_cons.mp hevent with rfl | hplaced
  · simp [Event.level]
  · obtain ⟨place,-,rfl⟩ := List.mem_map.mp hplaced
    simp [Event.level]

end ControlStore
