import ControlStore.Proofs.Checks
import ControlStore.Proofs.Table.Lines

/-! A table is read back from its text. The reader takes in the lines of the text one by one; the
lines of a program add the entries of its steps, and the other lines leave the entries alone. -/
namespace ControlStore
namespace Table

open Checks Text

/-- Take in lines one after the other, the first of them being line `n`. -/
def takeLines (t : Table) (n : Nat) (ls : List String) : Except Error Table :=
  (ls.zipIdx n).foldlM (fun t (l,n) => t.readLine n (trim l.toList)) t

theorem read_unlines {ls : List String} (h : ∀ l ∈ ls, IsLine l) :
    read (unlines ls) = takeLines {} 1 ls := by
  rw [read,lines_unlines h,takeLines,List.zipIdx_map,List.foldlM_map]
  simp only [Prod.map_fst,Prod.map_snd,id_eq,trim_dropEnd_return]

theorem takeLines_append {t t' : Table} {n : Nat} {ls : List String} (ls' : List String)
    (h : t.takeLines n ls = .ok t') :
    t.takeLines n (ls ++ ls') = t'.takeLines (n+ls.length) ls' := by
  rw [takeLines] at h
  rw [takeLines,List.zipIdx_append,List.foldlM_append,h]
  rfl

theorem takeLines_cons {t t' : Table} {n : Nat} {l : String} (ls : List String)
    (h : t.readLine n (trim l.toList) = .ok t') :
    t.takeLines n (l :: ls) = t'.takeLines (n+1) ls := by
  simp only [takeLines,List.zipIdx_cons,List.foldlM_cons,h]
  rfl

theorem takeLines_passed (t : Table) (n : Nat) {ls : List String} (h : ∀ l ∈ ls, Passed l) :
    t.takeLines n ls = .ok t := by
  induction ls generalizing n with
  | nil => rfl
  | cons l ls ih =>
    rw [List.forall_mem_cons] at h
    rw [takeLines_cons ls (h.1 t n)]
    exact ih (n+1) h.2

def insertAll (t : Table) (pairs : List (Nat × ControlWord)) : Table :=
  { t with entries := pairs.foldl (fun m p => m.insert p.1 p.2) t.entries }

@[simp] theorem width_insertAll (t : Table) (pairs : List (Nat × ControlWord)) :
    (t.insertAll pairs).width = t.width := rfl

@[simp] theorem default_insertAll (t : Table) (pairs : List (Nat × ControlWord)) :
    (t.insertAll pairs).default = t.default := rfl

@[simp] theorem insertAll_nil (t : Table) : t.insertAll [] = t := rfl

theorem insertAll_append (t : Table) (pairs pairs' : List (Nat × ControlWord)) :
    t.insertAll (pairs ++ pairs') = (t.insertAll pairs).insertAll pairs' := by
  simp [insertAll]

theorem insertAll_cons (t : Table) (a : Nat) (w : ControlWord) (pairs : List (Nat × ControlWord)) :
    t.insertAll ((a,w) :: pairs) =
      { t with entries := t.entries.insert a w : Table }.insertAll pairs := rfl

theorem mem_insertAll {t : Table} {pairs : List (Nat × ControlWord)} {a : Nat} :
    a ∈ (t.insertAll pairs).entries ↔ a ∈ pairs.map (·.1) ∨ a ∈ t.entries := by
  induction pairs generalizing t with
  | nil => simp
  | cons p pairs ih =>
    rw [show p = (p.1,p.2) from rfl,insertAll_cons,ih]
    simp only [Std.ExtTreeMap.mem_insert,compare_eq_iff_eq,List.map_cons,List.mem_cons]
    constructor
    · rintro (h | h | h)
      · exact .inl (.inr h)
      · exact .inl (.inl h.symm)
      · exact .inr h
    · rintro ((h | h) | h)
      · exact .inr (.inl h.symm)
      · exact .inl h
      · exact .inr (.inr h)

theorem getElem?_insertAll {t : Table} {pairs : List (Nat × ControlWord)}
    (hnodup : (pairs.map (·.1)).Nodup) {a : Nat} {w : ControlWord} :
    (t.insertAll pairs).entries[a]? = some w ↔
      (a,w) ∈ pairs ∨ a ∉ pairs.map (·.1) ∧ t.entries[a]? = some w := by
  induction pairs generalizing t with
  | nil => simp
  | cons p pairs ih =>
    obtain ⟨b,v⟩ := p
    rw [List.map_cons,List.nodup_cons] at hnodup
    rw [insertAll_cons,ih hnodup.2]
    simp only [Std.ExtTreeMap.getElem?_insert,compare_eq_iff_eq,List.map_cons,List.mem_cons,
      Prod.mk.injEq]
    by_cases hb : b = a
    · subst hb
      have hfresh : (b,w) ∉ pairs := fun h => hnodup.1 (List.mem_map.mpr ⟨(b,w),h,rfl⟩)
      simp [hnodup.1,hfresh,eq_comm]
    · have hb' : a ≠ b := Ne.symm hb
      simp [hb,hb']

/-- Reading entries of addresses that are new adds them all. -/
theorem takeLines_entries {width : Nat} (hwidth : width < widthLimit)
    (pairs : List (Nat × ControlWord)) (t : Table) (n : Nat) (ht : t.width = width)
    (hbound : ∀ p ∈ pairs, p.1 < addressLimit) (hnodup : (pairs.map (·.1)).Nodup)
    (hnew : ∀ p ∈ pairs, p.1 ∉ t.entries) :
    t.takeLines n (pairs.map fun p => entry width p.1 p.2) = .ok (t.insertAll pairs) := by
  induction pairs generalizing t n with
  | nil => rfl
  | cons p pairs ih =>
    obtain ⟨a,w⟩ := p
    rw [List.forall_mem_cons] at hbound hnew
    rw [List.map_cons,List.nodup_cons] at hnodup
    have hentry := readLine_entry w t n ht hwidth hbound.1
    rw [if_neg hnew.1] at hentry
    rw [List.map_cons,takeLines_cons _ hentry]
    refine ih { t with entries := t.entries.insert a w } (n+1) ht hbound.2 hnodup.2 ?_
    intro q hq hmem
    rw [Std.ExtTreeMap.mem_insert,compare_eq_iff_eq] at hmem
    rcases hmem with rfl | hmem
    · exact hnodup.1 (List.mem_map.mpr ⟨q,hq,rfl⟩)
    · exact hnew.2 q hq hmem

/-- The addresses and words of a program that lies at a placement. -/
def addressed (program : EncodedProgram) (p : Placement) : List (Nat × ControlWord) :=
  program.words.zipIdx.map fun (w,s) => (p.base+s,w)

def blockLines (width : Nat) (program : EncodedProgram) (p : Placement) : List String :=
  caption p :: (addressed program p).map fun q => entry width q.1 q.2

theorem block_eq_ok (width : Nat) {program : EncodedProgram} {p : Placement}
    (hbound : ∀ q ∈ addressed program p, q.1 < addressLimit) :
    block width program p = .ok (blockLines width program p) := by
  have hentries : programEntries width p.base program.words =
      .ok ((addressed program p).map fun q => entry width q.1 q.2) := by
    rw [programEntries,addressed,List.map_map]
    apply mapM_eq_ok_map
    rintro ⟨w,s⟩ hws
    have hlt : p.base+s < addressLimit := hbound (p.base+s,w) (List.mem_map.mpr ⟨(w,s),hws,rfl⟩)
    simp [addAddress,hlt,Functor.map,Except.map]
  rw [block,hentries]
  rfl

theorem takeLines_block {width : Nat} (hwidth : width < widthLimit) {program : EncodedProgram}
    {p : Placement} (t : Table) (n : Nat) (ht : t.width = width)
    (hbound : ∀ q ∈ addressed program p, q.1 < addressLimit)
    (hnodup : ((addressed program p).map (·.1)).Nodup)
    (hnew : ∀ q ∈ addressed program p, q.1 ∉ t.entries) :
    t.takeLines n (blockLines width program p) = .ok (t.insertAll (addressed program p)) := by
  rw [blockLines,takeLines_cons _ ((isComment_caption p).passed t n)]
  exact takeLines_entries hwidth _ t (n+1) ht hbound hnodup hnew

def addressedAll (placed : List (EncodedProgram × Placement)) : List (Nat × ControlWord) :=
  placed.flatMap fun (program,p) => addressed program p

/-- Reading the lines of programs adds the entries of all their steps. -/
theorem takeLines_blocks {width : Nat} (hwidth : width < widthLimit)
    (placed : List (EncodedProgram × Placement)) (t : Table) (n : Nat) (ht : t.width = width)
    (hbound : ∀ q ∈ addressedAll placed, q.1 < addressLimit)
    (hnodup : ((addressedAll placed).map (·.1)).Nodup)
    (hnew : ∀ q ∈ addressedAll placed, q.1 ∉ t.entries) :
    t.takeLines n (placed.flatMap fun (program,p) => blockLines width program p) =
      .ok (t.insertAll (addressedAll placed)) := by
  induction placed generalizing t n with
  | nil => rfl
  | cons z placed ih =>
    obtain ⟨program,p⟩ := z
    have hcons : addressedAll ((program,p) :: placed) =
        addressed program p ++ addressedAll placed := rfl
    rw [hcons] at hbound hnodup hnew ⊢
    rw [List.map_append,List.nodup_append] at hnodup
    obtain ⟨hfirst,hrest,hdisjoint⟩ := hnodup
    rw [List.forall_mem_append] at hbound hnew
    rw [List.flatMap_cons,
      takeLines_append _ (takeLines_block hwidth t n ht hbound.1 hfirst hnew.1),insertAll_append]
    refine ih (t.insertAll (addressed program p)) _ (by simpa using ht) hbound.2 hrest ?_
    intro q hq hmem
    rcases mem_insertAll.mp hmem with hmem | hmem
    · exact hdisjoint q.1 hmem q.1 (List.mem_map_of_mem hq) rfl
    · exact hnew.2 q hq hmem

section Render

variable {programs : List EncodedProgram} {allocation : Allocation} {width : Nat}

def textLines (programs : List EncodedProgram) (allocation : Allocation) (registry : Registry)
    (moduleName : String) (width : Nat) : List String :=
  header allocation.total width registry ++ opening moduleName width ++
    (programs.zip allocation.placements).flatMap (fun (program,p) => blockLines width program p) ++
    closing

theorem render_eq_ok (registry : Registry) (moduleName : String)
    (hwidth : addressWidth allocation.total = .ok width)
    (hbound : ∀ q ∈ addressedAll (programs.zip allocation.placements), q.1 < addressLimit) :
    render programs allocation registry moduleName =
      .ok (unlines (textLines programs allocation registry moduleName width)) := by
  have hblocks : (programs.zip allocation.placements).mapM (fun (program,p) =>
      block width program p) = .ok ((programs.zip allocation.placements).map fun (program,p) =>
        blockLines width program p) := by
    apply mapM_eq_ok_map
    rintro ⟨program,p⟩ hmem
    apply block_eq_ok
    intro q hq
    exact hbound q (List.mem_flatMap.mpr ⟨(program,p),hmem,hq⟩)
  rw [render,hwidth]
  change (do
    let blocks ← (programs.zip allocation.placements).mapM fun (program,p) => block width program p
    return unlines _ : Except Overflow String) = _
  rw [hblocks]
  rfl

theorem isLine_of_mem_textLines {registry : Registry} {moduleName l : String}
    (hsignals : ∀ s ∈ registry.signals, IsLine s.name)
    (hplacements : ∀ p ∈ allocation.placements, IsLine p.name) (hmodule : IsLine moduleName)
    (hl : l ∈ textLines programs allocation registry moduleName width) : IsLine l := by
  simp only [textLines,List.mem_append,or_assoc] at hl
  rcases hl with hl | hl | hl | hl
  · exact isLine_of_mem_header hsignals hl
  · exact isLine_of_mem_opening hmodule hl
  · obtain ⟨⟨program,p⟩,hmem,hl⟩ := List.mem_flatMap.mp hl
    rcases List.mem_cons.mp hl with rfl | hl
    · exact isLine_caption p (hplacements p (List.of_mem_zip hmem).2)
    · obtain ⟨q,-,rfl⟩ := List.mem_map.mp hl
      exact isLine_entry q.2
  · exact isLine_of_mem_closing hl

theorem takeLines_opening (total : Nat) (registry : Registry) (moduleName : String)
    (hwidth : addressWidth allocation.total = .ok width) :
    takeLines {} 1 (header total width registry ++ opening moduleName width) = .ok { width } := by
  have hlt := addressWidth_lt_widthLimit hwidth
  have hpos := addressWidth_pos hwidth
  rw [takeLines_append _ (takeLines_passed _ _ fun l hl => (isComment_of_mem_header hl).passed),
    opening_eq,takeLines_cons _ (passed_module moduleName {} _),
    takeLines_cons _ (readLine_rangeLine _ _ hpos hlt)]
  exact takeLines_passed _ _ fun l hl => passed_of_mem_ports hl

theorem takeLines_textLines (registry : Registry) (moduleName : String)
    (hwidth : addressWidth allocation.total = .ok width)
    (hbound : ∀ q ∈ addressedAll (programs.zip allocation.placements), q.1 < addressLimit)
    (hnodup : ((addressedAll (programs.zip allocation.placements)).map (·.1)).Nodup) :
    takeLines {} 1 (textLines programs allocation registry moduleName width) =
      .ok { ({ width } : Table).insertAll (addressedAll (programs.zip allocation.placements)) with
        default := some 0 } := by
  have hblocks (n : Nat) := takeLines_blocks (addressWidth_lt_widthLimit hwidth)
    (programs.zip allocation.placements) { width } n rfl hbound hnodup (by simp)
  rw [textLines,List.append_assoc,
    takeLines_append _ (takeLines_opening allocation.total registry moduleName hwidth),
    takeLines_append _ (hblocks _),closing_eq,takeLines_cons _ (readLine_defaultLine _ _)]
  exact takeLines_passed _ _ fun l hl => passed_of_mem_ends hl

/-- The text of a table is read back: the width, the word of every step, and zero elsewhere. -/
theorem exists_read_render (registry : Registry) (moduleName : String)
    (htotal : allocation.total ≤ 2^63)
    (hbound : ∀ q ∈ addressedAll (programs.zip allocation.placements), q.1 < addressLimit)
    (hnodup : ((addressedAll (programs.zip allocation.placements)).map (·.1)).Nodup)
    (hsignals : ∀ s ∈ registry.signals, IsLine s.name)
    (hplacements : ∀ p ∈ allocation.placements, IsLine p.name) (hmodule : IsLine moduleName) :
    ∃ text t, render programs allocation registry moduleName = .ok text ∧ read text = .ok t ∧
      addressWidth allocation.total = .ok t.width ∧ t.default = some 0 ∧
      ∀ a w, t.entries[a]? = some w ↔ (a,w) ∈ addressedAll (programs.zip allocation.placements) := by
  obtain ⟨width,hwidth⟩ : ∃ width, addressWidth allocation.total = .ok width :=
    ⟨_,addressWidth_eq_ok htotal⟩
  have hread : read (unlines (textLines programs allocation registry moduleName width)) =
      takeLines {} 1 (textLines programs allocation registry moduleName width) :=
    read_unlines fun l hl => isLine_of_mem_textLines hsignals hplacements hmodule hl
  rw [takeLines_textLines registry moduleName hwidth hbound hnodup] at hread
  refine ⟨_,_,render_eq_ok registry moduleName hwidth hbound,hread,hwidth,rfl,?_⟩
  intro a w
  have h := getElem?_insertAll (t := { width }) hnodup (a := a) (w := w)
  simpa using h

end Render
end Table
end ControlStore
