import Mathlib.Data.Finset.Card
import Mathlib.Data.Finset.Range
import ControlStore.Compile
import ControlStore.Proofs.Allocation
import ControlStore.Proofs.Table.Lines

/-! The check of two artifacts against each other accepts exactly the pairs of texts that describe
one address map: the words of every step, at the address of the step, and nothing else. -/
namespace ControlStore

/-- An image and a table describe the steps of a catalog, each at its address, and no more. -/
structure Agrees (c : Catalog) (image : List (List ControlWord)) (t : Table) : Prop where
  lengths : image.map List.length = c.programs.map (·.steps.length)
  default_zero : t.default = some 0
  width : Table.addressWidth c.allocate.total = .ok t.width
  addresses : ∀ a, a ∈ t.entries ↔ a < c.allocate.total
  words : ∀ i s p, c.programs[i]? = some p → s < p.steps.length →
    ∃ a w, c.allocate.address i s = .ok (some a) ∧ t.entries[a]? = some w ∧
      (image[i]?.bind (·[s]?)) = some w

namespace Table

/-- A table that lists exactly the addresses below `n` has `n` entries. -/
theorem size_eq_of_mem_iff_lt {entries : Std.ExtTreeMap Nat ControlWord} {n : Nat}
    (h : ∀ a, a ∈ entries ↔ a < n) : entries.size = n := by
  have hkeys : entries.keys.toFinset = Finset.range n := by
    ext a
    rw [List.mem_toFinset,Std.ExtTreeMap.mem_keys,h,Finset.mem_range]
  calc entries.size = entries.keys.length := Std.ExtTreeMap.length_keys.symm
    _ = entries.keys.toFinset.card := (List.toFinset_card_of_nodup Std.ExtTreeMap.nodup_keys).symm
    _ = n := by rw [hkeys,Finset.card_range]

end Table

namespace Agreement

open Checks

@[simp] theorem require_eq_ok {b : Bool} {d : Disagreement} {u : Unit} :
    require b d = .ok u ↔ b = true := by
  cases b <;> simp [require]

@[simp] theorem liftOverflow_eq_ok {α : Type} {x : Except Overflow α} {a : α} :
    liftOverflow x = .ok a ↔ x = .ok a := by
  simp [liftOverflow]

@[simp] theorem readImage_eq_ok {text : String} {image : List (List ControlWord)} :
    readImage text = .ok image ↔ Image.read text = .ok image := by
  simp [readImage]

@[simp] theorem readTable_eq_ok {text : String} {t : Table} :
    readTable text = .ok t ↔ Table.read text = .ok t := by
  simp [readTable]

theorem checkStep_eq_ok {t : Table} {p : Placement} {s : Nat} {w : ControlWord} :
    checkStep t p s w = .ok () ↔ ∃ a, addAddress p.base s = .ok a ∧ t.entries[a]? = some w := by
  simp only [checkStep,bind_eq_ok,liftOverflow_eq_ok]
  apply exists_congr
  intro a
  apply and_congr Iff.rfl
  cases t.entries[a]? with
  | none => simp
  | some w' => simp

theorem checkProgram_eq_ok {t : Table} {ws : List ControlWord} {p : Placement} :
    checkProgram t ws p = .ok () ↔ ws.length = p.length ∧
      ∀ s w, ws[s]? = some w → ∃ a, addAddress p.base s = .ok a ∧ t.entries[a]? = some w := by
  simp only [checkProgram,bind_eq_ok,require_eq_ok,forM_eq_ok,decide_eq_true_eq,Prod.forall,
    List.mem_zipIdx_iff_getElem?,checkStep_eq_ok]
  constructor
  · rintro ⟨_,hlen,hall⟩
    exact ⟨hlen,fun s w hw => hall w s hw⟩
  · rintro ⟨hlen,hall⟩
    exact ⟨(),hlen,fun w s hw => hall s w hw⟩

theorem checkAddress_eq_ok {c : Catalog} {a : Nat} (hfit : c.allocate.total < addressLimit) :
    checkAddress c.allocate a = .ok () ↔ a < c.allocate.total := by
  obtain ⟨r,hr,hlt⟩ := Catalog.isSome_locate_allocate c a hfit
  simp [checkAddress,bind_eq_ok,hr,hlt]

/-- Two lists of the same length are checked against each other position by position. -/
theorem forall_mem_zip {α β : Type} {xs : List α} {ys : List β} {P : α → β → Prop} :
    (∀ x y, (x,y) ∈ xs.zip ys → P x y) ↔
      ∀ (i : Nat) x y, xs[i]? = some x → ys[i]? = some y → P x y := by
  constructor
  · intro h i x y hx hy
    apply h
    exact List.mem_iff_getElem?.mpr ⟨i,List.getElem?_zip_eq_some.mpr ⟨hx,hy⟩⟩
  · intro h x y hxy
    obtain ⟨i,hi⟩ := List.mem_iff_getElem?.mp hxy
    obtain ⟨hx,hy⟩ := List.getElem?_zip_eq_some.mp hi
    exact h i x y hx hy

/-- What remains to be compared once both texts are read. -/
structure Concurs (allocation : Allocation) (image : List (List ControlWord)) (t : Table) :
    Prop where
  default_zero : t.default = some 0
  width : Table.addressWidth allocation.total = .ok t.width
  size : t.entries.size = allocation.total
  lines : image.length = allocation.placements.length
  programs : ∀ (i : Nat) ws p, image[i]? = some ws → allocation.placements[i]? = some p →
    checkProgram t ws p = .ok ()
  strays : ∀ a ∈ t.entries, checkAddress allocation a = .ok ()

theorem check_eq_ok {image table : String} {allocation : Allocation} :
    check image table allocation = .ok () ↔ ∃ ws t, Image.read image = .ok ws ∧
      Table.read table = .ok t ∧ Concurs allocation ws t := by
  simp only [check,bind_eq_ok,require_eq_ok,readImage_eq_ok,readTable_eq_ok,liftOverflow_eq_ok,
    forM_eq_ok,decide_eq_true_eq,Prod.forall,forall_mem_zip,Std.ExtTreeMap.mem_keys]
  constructor
  · rintro ⟨ws,hws,t,ht,_,hd,width,hwidth,_,hw,_,hsize,_,hlines,_,hprograms,hstrays⟩
    exact ⟨ws,t,hws,ht,hd,hw ▸ hwidth,hsize,hlines,hprograms,hstrays⟩
  · rintro ⟨ws,t,hws,ht,h⟩
    exact ⟨ws,hws,t,ht,(),h.default_zero,t.width,h.width,(),rfl,(),h.size,(),h.lines,(),
      h.programs,h.strays⟩

theorem checkProgram_of_placement {c : Catalog} {t : Table} {i : Nat} {p : Program}
    {ws : List ControlWord} {place : Placement} (hfit : c.allocate.total ≤ addressLimit)
    (hp : c.programs[i]? = some p) (hplace : c.allocate.placements[i]? = some place) :
    checkProgram t ws place = .ok () ↔ ws.length = p.steps.length ∧
      ∀ s w, ws[s]? = some w → t.entries[stepsBefore c.programs i + s]? = some w := by
  rw [Catalog.getElem?_placements_allocate,hp,Option.map_some,Option.some.injEq] at hplace
  subst hplace
  rw [checkProgram_eq_ok]
  apply and_congr_right
  intro hlen
  have hlen' : ws.length = p.steps.length := hlen
  have hle := stepsBefore_add_length_le hp
  rw [Catalog.total_allocate] at hfit
  refine forall₃_congr fun s w hw => ?_
  have hs : s < ws.length := (List.getElem?_eq_some_iff.mp hw).1
  have hlt : stepsBefore c.programs i + s < addressLimit := by omega
  simp [addAddress,hlt]

section Concurs

variable {c : Catalog} {image : List (List ControlWord)} {t : Table} {i : Nat} {p : Program}
  (h : Concurs c.allocate image t)

include h

theorem Concurs.program {ws : List ControlWord} (hws : image[i]? = some ws)
    (hp : c.programs[i]? = some p) : ws.length = p.steps.length ∧
      ∀ s w, ws[s]? = some w → t.entries[stepsBefore c.programs i + s]? = some w := by
  have hfit := Table.total_lt_addressLimit h.width
  have hplace := Catalog.getElem?_placements_allocate c i
  rw [hp,Option.map_some] at hplace
  exact (checkProgram_of_placement hfit.le hp hplace).mp (h.programs i ws _ hws hplace)

theorem Concurs.exists_line (hp : c.programs[i]? = some p) : ∃ ws, image[i]? = some ws := by
  have hlines : image.length = c.programs.length := by simpa using h.lines
  have hi : i < image.length := by
    rw [hlines]
    exact (List.getElem?_eq_some_iff.mp hp).1
  exact ⟨image[i],List.getElem?_eq_getElem hi⟩

theorem Concurs.exists_word {s : Nat} (hp : c.programs[i]? = some p) (hs : s < p.steps.length) :
    ∃ w, t.entries[stepsBefore c.programs i + s]? = some w ∧
      (image[i]?.bind (·[s]?)) = some w := by
  obtain ⟨ws,hws⟩ := h.exists_line hp
  obtain ⟨hlen,hall⟩ := h.program hws hp
  have hword : ws[s]? = some ws[s] := List.getElem?_eq_getElem (by omega)
  exact ⟨ws[s],hall s _ hword,by rw [hws,Option.bind_some,hword]⟩

theorem Concurs.lengths : image.map List.length = c.programs.map (·.steps.length) := by
  apply List.ext_getElem?
  intro i
  rw [List.getElem?_map,List.getElem?_map]
  cases hp : c.programs[i]? with
  | none =>
    have hlines : image.length = c.programs.length := by simpa using h.lines
    have hi : image[i]? = none := by
      rw [List.getElem?_eq_none_iff] at hp ⊢
      omega
    rw [hi]
    rfl
  | some p =>
    obtain ⟨ws,hws⟩ := h.exists_line hp
    rw [hws,Option.map_some,Option.map_some,(h.program hws hp).1]

theorem Concurs.agrees : Agrees c image t := by
  have hfit := Table.total_lt_addressLimit h.width
  refine ⟨h.lengths,h.default_zero,h.width,?_,?_⟩
  · intro a
    constructor
    · intro ha
      exact (checkAddress_eq_ok hfit).mp (h.strays a ha)
    · intro ha
      obtain ⟨i,p,s,hp,hs,rfl⟩ := exists_step_of_lt ha
      obtain ⟨w,hw,-⟩ := h.exists_word hp hs
      rw [Std.ExtTreeMap.mem_iff_isSome_getElem?,hw]
      rfl
  · intro i s p hp hs
    obtain ⟨w,hw,himage⟩ := h.exists_word hp hs
    exact ⟨_,w,Catalog.address_allocate hp hs hfit.le,hw,himage⟩

end Concurs

theorem Concurs.of_agrees {c : Catalog} {image : List (List ControlWord)} {t : Table}
    (h : Agrees c image t) : Concurs c.allocate image t := by
  have hfit := Table.total_lt_addressLimit h.width
  refine ⟨h.default_zero,h.width,Table.size_eq_of_mem_iff_lt h.addresses,?_,?_,?_⟩
  · have hlen := congrArg List.length h.lengths
    simpa using hlen
  · intro i ws place hws hplace
    have hlen := congrArg (·[i]?) h.lengths
    simp only [List.getElem?_map,hws,Option.map_some] at hlen
    cases hp : c.programs[i]? with
    | none => simp [hp] at hlen
    | some p =>
      rw [hp,Option.map_some,Option.some.injEq] at hlen
      refine (checkProgram_of_placement hfit.le hp hplace).mpr ⟨hlen,?_⟩
      intro s w hw
      have hs : s < p.steps.length := hlen ▸ (List.getElem?_eq_some_iff.mp hw).1
      obtain ⟨a,w',ha,hw',himage⟩ := h.words i s p hp hs
      rw [Catalog.address_allocate hp hs hfit.le] at ha
      obtain rfl : stepsBefore c.programs i + s = a := by simpa using ha
      obtain rfl : w = w' := by simpa [hws,hw] using himage
      exact hw'
  · intro a ha
    exact (checkAddress_eq_ok hfit).mpr ((h.addresses a).mp ha)

/-- The check accepts two texts exactly when both can be read and what they say agrees. -/
theorem check_accepts_iff_agrees (c : Catalog) (image table : String) :
    check image table c.allocate = .ok () ↔ ∃ ws t, Image.read image = .ok ws ∧
      Table.read table = .ok t ∧ Agrees c ws t := by
  rw [check_eq_ok]
  constructor
  · rintro ⟨ws,t,hws,ht,h⟩
    exact ⟨ws,t,hws,ht,h.agrees⟩
  · rintro ⟨ws,t,hws,ht,h⟩
    exact ⟨ws,t,hws,ht,Concurs.of_agrees h⟩

end Agreement
end ControlStore
