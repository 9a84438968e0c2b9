import Mathlib.Algebra.BigOperators.Group.List.Basic
import Mathlib.Data.Prod.Lex
import ControlStore.Allocation
import ControlStore.Proofs.Checks

/-! Where programs lie. The address of a step is the number of steps before it in the catalog, so
addresses follow the order of the steps and leave no gap; `locate` finds the step of every address
below the total and of no other. -/
namespace ControlStore

def stepsBefore (ps : List Program) (i : Nat) : Nat :=
  ((ps.take i).flatMap (·.steps)).length

@[simp] theorem stepsBefore_zero (ps : List Program) : stepsBefore ps 0 = 0 := by
  simp [stepsBefore]

@[simp] theorem stepsBefore_cons_succ (p : Program) (ps : List Program) (i : Nat) :
    stepsBefore (p :: ps) (i+1) = p.steps.length + stepsBefore ps i := by
  simp [stepsBefore]

def opcodeStepsBefore (ps : List Program) (i : Nat) : Nat :=
  (((ps.take i).filter (!·.isFetch)).flatMap (·.steps)).length

@[simp] theorem opcodeStepsBefore_zero (ps : List Program) : opcodeStepsBefore ps 0 = 0 := by
  simp [opcodeStepsBefore]

theorem opcodeStepsBefore_cons_succ (p : Program) (ps : List Program) (i : Nat) :
    opcodeStepsBefore (p :: ps) (i+1) =
      (if p.isFetch then 0 else p.steps.length) + opcodeStepsBefore ps i := by
  cases h : p.isFetch <;> simp [opcodeStepsBefore,h]

theorem opcodeStepsBefore_le (ps : List Program) (i : Nat) :
    opcodeStepsBefore ps i ≤ stepsBefore ps i := by
  induction ps generalizing i with
  | nil => simp [opcodeStepsBefore]
  | cons p ps ih =>
    cases i with
    | zero => simp
    | succ i =>
      have h := ih i
      rw [opcodeStepsBefore_cons_succ,stepsBefore_cons_succ]
      split <;> omega

theorem opcodeStepsBefore_eq {ps : List Program} (h : ∀ p ∈ ps, p.isFetch = false) (i : Nat) :
    opcodeStepsBefore ps i = stepsBefore ps i := by
  have hfilter : (ps.take i).filter (!·.isFetch) = ps.take i := by
    apply List.filter_eq_self.mpr
    intro p hp
    simp [h p (List.mem_of_mem_take hp)]
  rw [opcodeStepsBefore,stepsBefore,hfilter]

theorem getElem?_placeFrom (base offset : Nat) (ps : List Program) (i : Nat) :
    (placeFrom base offset ps)[i]? = ps[i]?.map fun p =>
      ⟨p.name,base+stepsBefore ps i,p.steps.length,
        if p.isFetch then none else some (offset+opcodeStepsBefore ps i)⟩ := by
  induction ps generalizing base offset i with
  | nil => simp [placeFrom]
  | cons p ps ih =>
    cases i with
    | zero => cases h : p.isFetch <;> simp [placeFrom,h]
    | succ i =>
      cases h : p.isFetch <;>
        simp [placeFrom,h,ih,opcodeStepsBefore_cons_succ,Nat.add_assoc]

theorem placeFrom_cons (base offset : Nat) (p : Program) (ps : List Program) :
    ∃ offset' o, placeFrom base offset (p :: ps) =
      ⟨p.name,base,p.steps.length,o⟩ :: placeFrom (base+p.steps.length) offset' ps := by
  by_cases h : p.isFetch = true
  · exact ⟨offset,none,by simp [placeFrom,h]⟩
  · exact ⟨offset+p.steps.length,some offset,by simp [placeFrom,h]⟩

namespace Catalog

@[simp] theorem total_allocate (c : Catalog) :
    c.allocate.total = (c.programs.flatMap (·.steps)).length := rfl

@[simp] theorem length_placements_allocate (c : Catalog) :
    c.allocate.placements.length = c.programs.length := by
  simp [allocate]

theorem getElem?_placements_allocate (c : Catalog) (i : Nat) :
    c.allocate.placements[i]? = c.programs[i]?.map fun p =>
      ⟨p.name,stepsBefore c.programs i,p.steps.length,
        if p.isFetch then none else some (opcodeStepsBefore c.programs i)⟩ := by
  simp [allocate,getElem?_placeFrom]

theorem isFetch_eq_false_of_mem_rest {c : Catalog} {fetch : Program} {rest : List Program}
    (hprograms : c.programs = fetch :: rest) (hfetch : fetch.isFetch = true) :
    ∀ p ∈ rest, p.isFetch = false := by
  have hnodup := c.names_nodup
  rw [hprograms,List.map_cons,List.nodup_cons] at hnodup
  intro p hp
  simp only [Program.isFetch,decide_eq_true_eq,decide_eq_false_iff_not] at hfetch ⊢
  intro hname
  exact hnodup.1 (List.mem_map.mpr ⟨p,hp,hname.trans hfetch.symm⟩)

/-- If fetch comes first, an opcode program lies its offset past the end of fetch. -/
theorem stepsBefore_of_fetch_first {c : Catalog} {fetch p : Program} {i : Nat}
    (hfirst : c.programs.head? = some fetch) (hfetch : fetch.isFetch = true)
    (hp : c.programs[i]? = some p) (hopcode : p.isFetch = false) :
    stepsBefore c.programs i = fetch.steps.length + opcodeStepsBefore c.programs i := by
  obtain ⟨rest,hrest⟩ := List.head?_eq_some_iff.mp hfirst
  rw [hrest] at hp ⊢
  cases i with
  | zero =>
    obtain rfl : fetch = p := by simpa using hp
    simp [hfetch] at hopcode
  | succ i =>
    rw [stepsBefore_cons_succ,opcodeStepsBefore_cons_succ,if_pos hfetch,Nat.zero_add,
      opcodeStepsBefore_eq (isFetch_eq_false_of_mem_rest hrest hfetch)]

end Catalog

theorem stepsBefore_add_length_le {ps : List Program} {i : Nat} {p : Program}
    (hp : ps[i]? = some p) :
    stepsBefore ps i + p.steps.length ≤ (ps.flatMap (·.steps)).length := by
  induction ps generalizing i with
  | nil => simp at hp
  | cons q ps ih =>
    cases i with
    | zero => simp_all
    | succ i =>
      have h := ih (i:=i) (by simpa using hp)
      rw [stepsBefore_cons_succ,List.flatMap_cons,List.length_append]
      omega

theorem exists_step_of_lt {ps : List Program} {a : Nat}
    (ha : a < (ps.flatMap (·.steps)).length) :
    ∃ i p s, ps[i]? = some p ∧ s < p.steps.length ∧ a = stepsBefore ps i + s := by
  induction ps generalizing a with
  | nil => simp at ha
  | cons q ps ih =>
    rw [List.flatMap_cons,List.length_append] at ha
    by_cases hq : a < q.steps.length
    · exact ⟨0,q,a,by simp,hq,by simp⟩
    · obtain ⟨i,p,s,hp,hs,he⟩ := ih (a:=a-q.steps.length) (by omega)
      refine ⟨i+1,p,s,by simpa using hp,hs,?_⟩
      rw [stepsBefore_cons_succ]
      omega

namespace Catalog

theorem address_allocate {c : Catalog} {i s : Nat} {p : Program} (hp : c.programs[i]? = some p)
    (hs : s < p.steps.length) (hfit : c.allocate.total ≤ addressLimit) :
    c.allocate.address i s = .ok (some (stepsBefore c.programs i + s)) := by
  have hle := stepsBefore_add_length_le hp
  rw [total_allocate] at hfit
  have hlt : stepsBefore c.programs i + s < addressLimit := by omega
  simp [Allocation.address,getElem?_placements_allocate,hp,hs,addAddress,hlt,Functor.map,Except.map]

end Catalog

namespace Allocation

/-- Among programs placed from `base` on, an address is found in the one that holds it. -/
theorem locateFrom_placeFrom (a i base offset : Nat) (ps : List Program)
    (hfit : base + (ps.flatMap (·.steps)).length < addressLimit) :
    ∃ r, locateFrom a i (placeFrom base offset ps) = .ok r ∧
      ∀ j s, r = some (j,s) ↔ ∃ q p, j = i+q ∧ ps[q]? = some p ∧ s < p.steps.length ∧
        a = base + stepsBefore ps q + s := by
  induction ps generalizing i base offset with
  | nil => exact ⟨none,rfl,by simp⟩
  | cons p ps ih =>
    rw [List.flatMap_cons,List.length_append] at hfit
    obtain ⟨offset',o,hplace⟩ := placeFrom_cons base offset p ps
    obtain ⟨r,hr,hspec⟩ := ih (i+1) (base+p.steps.length) offset' (by omega)
    have hadd : addAddress base p.steps.length = .ok (base+p.steps.length) := by
      rw [addAddress,if_pos (by omega)]
    by_cases hin : base ≤ a ∧ a < base+p.steps.length
    · refine ⟨some (i,a-base),by simp [hplace,locateFrom,hadd,hin.1,hin.2],?_⟩
      intro j s
      constructor
      · intro h
        obtain ⟨rfl,rfl⟩ : i = j ∧ a-base = s := by simpa using h
        exact ⟨0,p,rfl,by simp,by omega,by simp; omega⟩
      · rintro ⟨q,p',rfl,hp',hs,he⟩
        cases q with
        | zero =>
          obtain rfl : p = p' := by simpa using hp'
          simp only [stepsBefore_zero] at he
          simp
          omega
        | succ q =>
          rw [stepsBefore_cons_succ] at he
          omega
    · refine ⟨r,?_,?_⟩
      · rw [hplace,locateFrom]
        simp only [hadd]
        split_ifs <;> first | exact hr | omega
      · intro j s
        rw [hspec]
        constructor
        · rintro ⟨q,p',rfl,hp',hs,he⟩
          refine ⟨q+1,p',by omega,by simpa using hp',hs,?_⟩
          rw [stepsBefore_cons_succ]
          omega
        · rintro ⟨q,p',rfl,hp',hs,he⟩
          cases q with
          | zero =>
            obtain rfl : p = p' := by simpa using hp'
            simp only [stepsBefore_zero] at he
            omega
          | succ q =>
            rw [stepsBefore_cons_succ] at he
            exact ⟨q,p',by omega,by simpa using hp',hs,by omega⟩

end Allocation

namespace Catalog

theorem locate_allocate (c : Catalog) (a : Nat) (hfit : c.allocate.total < addressLimit) :
    ∃ r, c.allocate.locate a = .ok r ∧
      ∀ j s, r = some (j,s) ↔ ∃ p, c.programs[j]? = some p ∧ s < p.steps.length ∧
        a = stepsBefore c.programs j + s := by
  obtain ⟨r,hr,hspec⟩ := Allocation.locateFrom_placeFrom a 0 0 0 c.programs (by simpa using hfit)
  refine ⟨r,hr,?_⟩
  intro j s
  rw [hspec]
  constructor
  · rintro ⟨q,p,rfl,hp,hs,he⟩
    exact ⟨p,by simpa using hp,hs,by simpa using he⟩
  · rintro ⟨p,hp,hs,he⟩
    exact ⟨j,p,by simp,hp,hs,by simpa using he⟩

/-- An address holds a step exactly when it lies below the total. -/
theorem isSome_locate_allocate (c : Catalog) (a : Nat) (hfit : c.allocate.total < addressLimit) :
    ∃ r, c.allocate.locate a = .ok r ∧ (r.isSome = true ↔ a < c.allocate.total) := by
  obtain ⟨r,hr,hspec⟩ := locate_allocate c a hfit
  refine ⟨r,hr,?_⟩
  rw [Option.isSome_iff_exists,total_allocate]
  constructor
  · rintro ⟨⟨j,s⟩,hjs⟩
    obtain ⟨p,hp,hs,he⟩ := (hspec j s).mp hjs
    have hle := stepsBefore_add_length_le hp
    omega
  · intro ha
    obtain ⟨i,p,s,hp,hs,he⟩ := exists_step_of_lt ha
    exact ⟨(i,s),(hspec i s).mpr ⟨p,hp,hs,he⟩⟩

end Catalog

theorem stepsBefore_add_length_le_of_lt {ps : List Program} {i j : Nat} {p : Program}
    (hp : ps[i]? = some p) (hij : i < j) : stepsBefore ps i + p.steps.length ≤ stepsBefore ps j := by
  have htake : (ps.take j)[i]? = some p := by rw [List.getElem?_take_of_lt hij,hp]
  have hbefore : stepsBefore (ps.take j) i = stepsBefore ps i := by
    rw [stepsBefore,List.take_take,Nat.min_eq_left hij.le,stepsBefore]
  have h := stepsBefore_add_length_le htake
  rwa [hbefore] at h

namespace Catalog

/-- A position of a catalog holds a step: there is such a program, and it is long enough. -/
def HasStep (c : Catalog) (i s : Nat) : Prop := ∃ p, c.programs[i]? = some p ∧ s < p.steps.length

section Address

variable {c : Catalog} {i s a : Nat}

theorem address_eq_ok_some (hfit : c.allocate.total ≤ addressLimit) :
    c.allocate.address i s = .ok (some a) ↔ c.HasStep i s ∧ a = stepsBefore c.programs i + s := by
  constructor
  · intro h
    cases hp : c.programs[i]? with
    | none => simp [Allocation.address,getElem?_placements_allocate,hp] at h
    | some p =>
      by_cases hs : s < p.steps.length
      · rw [address_allocate hp hs hfit] at h
        exact ⟨⟨p,hp,hs⟩,by simpa [eq_comm] using h⟩
      · simp [Allocation.address,getElem?_placements_allocate,hp,hs] at h
  · rintro ⟨⟨p,hp,hs⟩,rfl⟩
    exact address_allocate hp hs hfit

theorem address_eq_ok_none (hfit : c.allocate.total ≤ addressLimit) :
    c.allocate.address i s = .ok none ↔ ¬c.HasStep i s := by
  constructor
  · rintro h ⟨p,hp,hs⟩
    rw [address_allocate hp hs hfit] at h
    cases h
  · intro h
    cases hp : c.programs[i]? with
    | none => simp [Allocation.address,getElem?_placements_allocate,hp]
    | some p =>
      have hs : ¬s < p.steps.length := fun hs => h ⟨p,hp,hs⟩
      simp [Allocation.address,getElem?_placements_allocate,hp,hs]

theorem address_lt_of_lex {i' s' a' : Nat} (hfit : c.allocate.total ≤ addressLimit)
    (h : c.allocate.address i s = .ok (some a)) (h' : c.allocate.address i' s' = .ok (some a'))
    (hlex : toLex (i,s) < toLex (i',s')) : a < a' := by
  obtain ⟨⟨p,hp,hs⟩,rfl⟩ := (address_eq_ok_some hfit).mp h
  obtain ⟨-,rfl⟩ := (address_eq_ok_some hfit).mp h'
  have hlater : i < i' ∨ i = i' ∧ s < s' := Prod.Lex.toLex_lt_toLex.mp hlex
  rcases hlater with hi | ⟨rfl,hs'⟩
  · have hle := stepsBefore_add_length_le_of_lt hp hi
    omega
  · exact Nat.add_lt_add_left hs' _

theorem locate_eq_ok_some (hfit : c.allocate.total < addressLimit) :
    c.allocate.locate a = .ok (some (i,s)) ↔ c.allocate.address i s = .ok (some a) := by
  obtain ⟨r,hr,hspec⟩ := locate_allocate c a hfit
  rw [hr,Except.ok.injEq,hspec,address_eq_ok_some hfit.le]
  constructor
  · rintro ⟨p,hp,hs,ha⟩
    exact ⟨⟨p,hp,hs⟩,ha⟩
  · rintro ⟨⟨p,hp,hs⟩,ha⟩
    exact ⟨p,hp,hs,ha⟩

theorem locate_eq_ok_none (hfit : c.allocate.total < addressLimit) :
    c.allocate.locate a = .ok none ↔ c.allocate.total ≤ a := by
  obtain ⟨r,hr,hsome⟩ := isSome_locate_allocate c a hfit
  rw [hr,Except.ok.injEq,← Nat.not_lt,← hsome,Option.not_isSome_iff_eq_none]

end Address

/-- The steps of a catalog are numbered: each has its own address, later steps have greater ones, and
the addresses are those below the total. -/
structure Numbered (c : Catalog) : Prop where
  defined : ∀ i s, (∃ a, c.allocate.address i s = .ok (some a)) ↔ c.HasStep i s
  undefined : ∀ i s, c.allocate.address i s = .ok none ↔ ¬c.HasStep i s
  injective : ∀ i s i' s' a, c.allocate.address i s = .ok (some a) →
    c.allocate.address i' s' = .ok (some a) → i = i' ∧ s = s'
  increasing : ∀ i s a i' s' a', c.allocate.address i s = .ok (some a) →
    c.allocate.address i' s' = .ok (some a') → toLex (i,s) < toLex (i',s') → a < a'
  onto : ∀ a, (∃ i s, c.allocate.address i s = .ok (some a)) ↔ a < c.allocate.total

theorem numbered (c : Catalog) (hfit : c.allocate.total < addressLimit) : c.Numbered where
  defined i s := by
    constructor
    · rintro ⟨a,ha⟩
      exact ((address_eq_ok_some hfit.le).mp ha).1
    · intro h
      exact ⟨_,(address_eq_ok_some hfit.le).mpr ⟨h,rfl⟩⟩
  undefined i s := address_eq_ok_none hfit.le
  injective i s i' s' a h h' := by
    have heq := ((locate_eq_ok_some hfit).mpr h).symm.trans ((locate_eq_ok_some hfit).mpr h')
    simpa using heq
  increasing i s a i' s' a' h h' := address_lt_of_lex hfit.le h h'
  onto a := by
    -- `locate` finds something exactly below the total
    obtain ⟨r,hr,hsome⟩ := isSome_locate_allocate c a hfit
    rw [← hsome,Option.isSome_iff_exists]
    constructor
    · rintro ⟨i,s,h⟩
      have hfound := (locate_eq_ok_some hfit).mpr h
      rw [hr,Except.ok.injEq] at hfound
      exact ⟨(i,s),hfound⟩
    · rintro ⟨⟨i,s⟩,rfl⟩
      exact ⟨i,s,(locate_eq_ok_some hfit).mp hr⟩

/-- Addresses number the steps in order and without gaps, and `locate` leads back from every address
to its step, whichever programs are empty. There have to be fewer steps than addresses, as there are
in every memory. -/
theorem numbered_and_located (c : Catalog) (hfit : c.allocate.total < addressLimit) :
    c.Numbered ∧
      (∀ a i s, c.allocate.locate a = .ok (some (i,s)) ↔
        c.allocate.address i s = .ok (some a)) ∧
      ∀ a, c.allocate.locate a = .ok none ↔ c.allocate.total ≤ a :=
  ⟨numbered c hfit,fun _ _ _ => locate_eq_ok_some hfit,fun _ => locate_eq_ok_none hfit⟩

def withGaps : Catalog where
  programs := [⟨"fetch",[["load"],["next"]]⟩,⟨"nop",[]⟩,⟨"add",[["sum","reset"]]⟩,⟨"halt",[]⟩]

/-- An address that is the base of an empty program leads to the program after it. -/
theorem numbered_and_located_withGaps : withGaps.allocate.total < addressLimit ∧
    withGaps.allocate.locate 2 = .ok (some (2,0)) ∧ withGaps.allocate.locate 3 = .ok none := by
  have hfit : withGaps.allocate.total < addressLimit := by decide
  obtain ⟨-,hsome,hnone⟩ := numbered_and_located withGaps hfit
  exact ⟨hfit,(hsome 2 2 0).mpr (by decide),(hnone 3).mpr (by decide)⟩

end Catalog
end ControlStore
