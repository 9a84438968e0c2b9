import ControlStore.Compile
import ControlStore.Proofs.Agreement
import ControlStore.Proofs.Image
import ControlStore.Proofs.Table.RoundTrip

/-! Assembling encoded programs. As long as the total has a width and all names fit on one line,
both artifacts are written, both are read back, and they agree. -/
namespace ControlStore

open Checks Text

/-- Every name that reaches an artifact fits on one line. -/
structure SingleLine (unit : ControlUnit) (options : Options) : Prop where
  signals : ∀ s ∈ unit.registry.signals, IsLine s.name
  programs : ∀ p ∈ unit.catalog.programs, IsLine p.name
  moduleName : IsLine options.moduleName

instance (unit : ControlUnit) (options : Options) : Decidable (SingleLine unit options) :=
  decidable_of_iff ((∀ s ∈ unit.registry.signals, IsLine s.name) ∧
    (∀ p ∈ unit.catalog.programs, IsLine p.name) ∧ IsLine options.moduleName)
    ⟨fun h => ⟨h.1,h.2.1,h.2.2⟩,fun h => ⟨h.signals,h.programs,h.moduleName⟩⟩

/-- Encoded programs have a word for every step of the programs at their positions. -/
abbrev SameLengths (ps : List Program) (es : List EncodedProgram) : Prop :=
  List.Forall₂ (fun p e => e.words.length = p.steps.length) ps es

theorem SameLengths.map_length_eq {ps : List Program} {es : List EncodedProgram}
    (h : SameLengths ps es) :
    es.map (List.length ∘ EncodedProgram.words) = ps.map (·.steps.length) := by
  induction h with
  | nil => rfl
  | cons hlen _ ih => simp [hlen,ih]

namespace Table

/-- What a table says of an address, listed or not. -/
def value (t : Table) (a : Nat) : Option ControlWord := t.entries[a]?.or t.default

theorem map_fst_addressed (e : EncodedProgram) (p : Placement) :
    (addressed e p).map (·.1) = List.range' p.base e.words.length := by
  calc (addressed e p).map (·.1) = (e.words.zipIdx.map Prod.snd).map (p.base + ·) := by
        rw [addressed,List.map_map,List.map_map]
        rfl
    _ = List.range' p.base e.words.length := by
        rw [List.zipIdx_map_snd,List.map_add_range',Nat.add_zero]

/-- The addresses of programs placed one after the other are consecutive. -/
theorem map_fst_addressedAll (base offset : Nat) {ps : List Program} {es : List EncodedProgram}
    (h : SameLengths ps es) :
    (addressedAll (es.zip (placeFrom base offset ps))).map (·.1) =
      List.range' base (ps.flatMap (·.steps)).length := by
  induction h generalizing base offset with
  | nil => rfl
  | @cons p e ps es hlen _ ih =>
    obtain ⟨offset',o,hplace⟩ := placeFrom_cons base offset p ps
    have hrest := ih (base+p.steps.length) offset'
    have hcons : addressedAll ((e :: es).zip (placeFrom base offset (p :: ps))) =
        addressed e ⟨p.name,base,p.steps.length,o⟩ ++
          addressedAll (es.zip (placeFrom (base+p.steps.length) offset' ps)) := by
      rw [hplace]
      rfl
    rw [hcons,List.map_append,map_fst_addressed,hrest,hlen,List.flatMap_cons,List.length_append,
      ← List.range'_append_1]

section Addresses

variable {c : Catalog} {es : List EncodedProgram}

theorem nodup_addressedAll (h : SameLengths c.programs es) :
    ((addressedAll (es.zip c.allocate.placements)).map (·.1)).Nodup := by
  rw [Catalog.allocate,map_fst_addressedAll 0 0 h]
  exact List.nodup_range'

theorem lt_total_of_mem_addressedAll (h : SameLengths c.programs es) {q : Nat × ControlWord}
    (hq : q ∈ addressedAll (es.zip c.allocate.placements)) : q.1 < c.allocate.total := by
  have hmem := List.mem_map_of_mem (f := Prod.fst) hq
  rw [Catalog.allocate,map_fst_addressedAll 0 0 h,List.mem_range'_1] at hmem
  simpa using hmem.2

theorem lt_addressLimit_of_mem_addressedAll (h : SameLengths c.programs es)
    (htotal : c.allocate.total ≤ 2^63) {q : Nat × ControlWord}
    (hq : q ∈ addressedAll (es.zip c.allocate.placements)) : q.1 < addressLimit := by
  have hlt := lt_total_of_mem_addressedAll h hq
  have hlimit : 2^63 < addressLimit := by decide
  omega

theorem mem_addressed {e : EncodedProgram} {p : Placement} {a : Nat} {w : ControlWord} :
    (a,w) ∈ addressed e p ↔ ∃ s, e.words[s]? = some w ∧ a = p.base+s := by
  simp only [addressed,List.mem_map,Prod.exists,List.mem_zipIdx_iff_getElem?,Prod.mk.injEq]
  constructor
  · intro h
    obtain ⟨v,s,hv,ha,rfl⟩ := h
    exact ⟨s,hv,ha.symm⟩
  · intro h
    obtain ⟨s,hw,ha⟩ := h
    exact ⟨w,s,hw,ha.symm,rfl⟩

theorem mem_addressedAll_allocate (h : SameLengths c.programs es) {a : Nat} {w : ControlWord} :
    (a,w) ∈ addressedAll (es.zip c.allocate.placements) ↔
      ∃ i s, (es[i]?.bind (·.words[s]?)) = some w ∧ a = stepsBefore c.programs i + s := by
  rw [addressedAll,List.mem_flatMap]
  constructor
  · intro hmem
    obtain ⟨⟨e,p⟩,hzip,haddr⟩ := hmem
    obtain ⟨i,hi⟩ := List.mem_iff_getElem?.mp hzip
    obtain ⟨he,hp⟩ := List.getElem?_zip_eq_some.mp hi
    obtain ⟨s,hw,ha⟩ := mem_addressed.mp haddr
    rw [Catalog.getElem?_placements_allocate,Option.map_eq_some_iff] at hp
    obtain ⟨program,-,rfl⟩ := hp
    exact ⟨i,s,by simp [he,hw],ha⟩
  · intro hword
    obtain ⟨i,s,hw,ha⟩ := hword
    obtain ⟨e,he,hw⟩ := Option.bind_eq_some_iff.mp hw
    have hi : i < c.programs.length := by
      rw [h.length_eq]
      exact (List.getElem?_eq_some_iff.mp he).1
    have hp := Catalog.getElem?_placements_allocate c i
    rw [List.getElem?_eq_getElem hi,Option.map_some] at hp
    exact ⟨(e,_),List.mem_iff_getElem?.mpr ⟨i,List.getElem?_zip_eq_some.mpr ⟨he,hp⟩⟩,
      mem_addressed.mpr ⟨s,hw,ha⟩⟩

end Addresses
end Table

/-- A table lists the words of encoded programs at the addresses of a catalog, and zero elsewhere. -/
structure Lists (c : Catalog) (es : List EncodedProgram) (t : Table) : Prop where
  width : Table.addressWidth c.allocate.total = .ok t.width
  default_zero : t.default = some 0
  entries : ∀ a w, t.entries[a]? = some w ↔
    ∃ i s, (es[i]?.bind (·.words[s]?)) = some w ∧ a = stepsBefore c.programs i + s

section Lists

variable {c : Catalog} {es : List EncodedProgram} {t : Table}

theorem getElem?_words (es : List EncodedProgram) (i s : Nat) :
    (es.map (·.words))[i]?.bind (·[s]?) = es[i]?.bind (·.words[s]?) := by
  rw [List.getElem?_map]
  cases es[i]? <;> rfl

theorem exists_word (h : SameLengths c.programs es) {i s : Nat} {p : Program}
    (hp : c.programs[i]? = some p) (hs : s < p.steps.length) :
    ∃ w, (es[i]?.bind (·.words[s]?)) = some w := by
  obtain ⟨hi,rfl⟩ := List.getElem?_eq_some_iff.mp hp
  have hi' : i < es.length := h.length_eq ▸ hi
  have hlen : es[i].words.length = c.programs[i].steps.length := h.get hi hi'
  have hs' : s < es[i].words.length := by omega
  exact ⟨es[i].words[s],by simp [hi',hs']⟩

theorem Lists.mem_entries_iff (h : SameLengths c.programs es) (ht : Lists c es t) (a : Nat) :
    a ∈ t.entries ↔ a < c.allocate.total := by
  rw [Std.ExtTreeMap.mem_iff_isSome_getElem?,Option.isSome_iff_exists]
  constructor
  · intro hex
    obtain ⟨w,hw⟩ := hex
    have hmem := (Table.mem_addressedAll_allocate h).mpr ((ht.entries a w).mp hw)
    exact Table.lt_total_of_mem_addressedAll h hmem
  · intro ha
    obtain ⟨i,p,s,hp,hs,rfl⟩ := exists_step_of_lt ha
    obtain ⟨w,hw⟩ := exists_word h hp hs
    exact ⟨w,(ht.entries _ w).mpr ⟨i,s,hw,rfl⟩⟩

theorem Lists.agrees (h : SameLengths c.programs es) (ht : Lists c es t) :
    Agrees c (es.map (·.words)) t := by
  have hfit := Table.total_lt_addressLimit ht.width
  refine ⟨?_,ht.default_zero,ht.width,ht.mem_entries_iff h,?_⟩
  · rw [List.map_map]
    exact h.map_length_eq
  · intro i s p hp hs
    obtain ⟨w,hw⟩ := exists_word h hp hs
    refine ⟨_,w,Catalog.address_allocate hp hs hfit.le,(ht.entries _ w).mpr ⟨i,s,hw,rfl⟩,?_⟩
    rw [getElem?_words,hw]

theorem Lists.value_step (ht : Lists c es t) {i s : Nat} {w : ControlWord}
    (hw : (es[i]?.bind (·.words[s]?)) = some w) :
    t.value (stepsBefore c.programs i + s) = some w := by
  rw [Table.value,(ht.entries _ w).mpr ⟨i,s,hw,rfl⟩]
  rfl

theorem Lists.value_free (h : SameLengths c.programs es) (ht : Lists c es t) {a : Nat}
    (ha : c.allocate.total ≤ a) : t.value a = some 0 := by
  have hnone : t.entries[a]? = none := by
    by_contra hsome
    have hmem := Std.ExtTreeMap.mem_iff_isSome_getElem?.mpr (Option.isSome_iff_ne_none.mpr hsome)
    have hlt := (ht.mem_entries_iff h a).mp hmem
    omega
  rw [Table.value,hnone,ht.default_zero]
  rfl

theorem isLine_of_mem_placements {p : Placement} (h : ∀ program ∈ c.programs, IsLine program.name)
    (hp : p ∈ c.allocate.placements) : IsLine p.name := by
  obtain ⟨i,hi⟩ := List.mem_iff_getElem?.mp hp
  rw [Catalog.getElem?_placements_allocate,Option.map_eq_some_iff] at hi
  obtain ⟨program,hprogram,rfl⟩ := hi
  exact h program (List.mem_of_getElem? hprogram)

end Lists

/-- Programs whose total has a width are assembled: the image holds their words, the table lists
them, and nothing is left for the check to find. -/
theorem exists_assemble {unit : ControlUnit} {options : Options} {es : List EncodedProgram}
    (hnames : SingleLine unit options) (h : SameLengths unit.catalog.programs es)
    (htotal : unit.catalog.allocate.total ≤ 2^63) :
    ∃ artifacts t, assemble unit.registry es unit.catalog.allocate options = .ok artifacts ∧
      artifacts.allocation = unit.catalog.allocate ∧
      Image.read artifacts.image = .ok (es.map (·.words)) ∧
      Table.read artifacts.table = .ok t ∧ Lists unit.catalog es t := by
  have hplacements : ∀ p ∈ unit.catalog.allocate.placements, IsLine p.name :=
    fun p hp => isLine_of_mem_placements hnames.programs hp
  obtain ⟨text,t,hrender,hread,hwidth,hdefault,hentries⟩ :=
    Table.exists_read_render unit.registry options.moduleName htotal
      (fun q hq => Table.lt_addressLimit_of_mem_addressedAll h htotal hq)
      (Table.nodup_addressedAll h) hnames.signals hplacements hnames.moduleName
  have hlists : Lists unit.catalog es t := by
    refine ⟨hwidth,hdefault,?_⟩
    intro a w
    rw [hentries,Table.mem_addressedAll_allocate h]
  have himage := Image.read_of_render es
    (if options.annotate then some unit.catalog.allocate else none) (by
      intro a ha p hp
      cases hannotate : options.annotate with
      | false => simp [hannotate] at ha
      | true =>
        obtain rfl : unit.catalog.allocate = a := by simpa [hannotate] using ha
        exact hplacements p hp)
  have hcheck := Agreement.check_eq_ok.mpr
    ⟨_,t,himage,hread,Agreement.Concurs.of_agrees (hlists.agrees h)⟩
  refine ⟨⟨unit.catalog.allocate,_,text⟩,t,?_,rfl,himage,hread,hlists⟩
  rw [assemble,hrender]
  exact bind_eq_ok.mpr ⟨text,rfl,bind_eq_ok.mpr ⟨(),hcheck,rfl⟩⟩

end ControlStore
