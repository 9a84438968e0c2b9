import ControlStore.Proofs.Table.RoundTrip

/-! Tables in which an address may be listed twice. Placements that overlap give such tables; the text
of a table is read back if the addresses of its entries are distinct, and otherwise reading stops at
the first entry whose address was listed before. -/
namespace ControlStore
namespace Table

open Checks Text

/-- After `front`, in which no address is repeated, `q` repeats one of its addresses. -/
def FirstRepeat (pairs front : List (Nat × ControlWord)) (q : Nat × ControlWord) : Prop :=
  (∃ rest, pairs = front ++ q :: rest) ∧ (front.map (·.1)).Nodup ∧ q.1 ∈ front.map (·.1)

theorem exists_firstRepeat {pairs : List (Nat × ControlWord)} (h : ¬(pairs.map (·.1)).Nodup) :
    ∃ front q, FirstRepeat pairs front q := by
  induction pairs using List.reverseRecOn with
  | nil => exact absurd List.nodup_nil h
  | append_singleton pairs q ih =>
    by_cases hnodup : (pairs.map (·.1)).Nodup
    · refine ⟨pairs,q,⟨[],rfl⟩,hnodup,?_⟩
      by_contra hq
      apply h
      rw [List.map_append,List.map_singleton,List.nodup_append]
      refine ⟨hnodup,by simp,?_⟩
      rintro a ha b hb rfl
      exact hq (List.mem_singleton.mp hb ▸ ha)
    · obtain ⟨front,q',⟨rest,rfl⟩,hfront⟩ := ih hnodup
      exact ⟨front,q',⟨rest ++ [q],by simp⟩,hfront⟩

section Refused

variable {t : Table} {n : Nat} {e : Error}

theorem takeLines_cons_of_error {l : String} (ls : List String)
    (h : t.readLine n (trim l.toList) = .error e) : t.takeLines n (l :: ls) = .error e := by
  simp only [takeLines,List.zipIdx_cons,List.foldlM_cons,h]
  rfl

theorem takeLines_append_of_error {ls : List String} (ls' : List String)
    (h : t.takeLines n ls = .error e) : t.takeLines n (ls ++ ls') = .error e := by
  rw [takeLines] at h
  rw [takeLines,List.zipIdx_append,List.foldlM_append,h]
  rfl

end Refused

section Repeated

variable {width : Nat} {q : Nat × ControlWord} {front rest : List (Nat × ControlWord)}
  (hwidth : width < widthLimit)

include hwidth

theorem takeLines_repeated_entry (t : Table) (n : Nat) (ht : t.width = width)
    (hbound : ∀ p ∈ front ++ q :: rest, p.1 < addressLimit) (hnodup : (front.map (·.1)).Nodup)
    (hnew : ∀ p ∈ front, p.1 ∉ t.entries) (hlisted : q.1 ∈ front.map (·.1) ∨ q.1 ∈ t.entries) :
    t.takeLines n ((front ++ q :: rest).map fun p => entry width p.1 p.2) =
      .error (.fault (n+front.length) (.repeatedAddress q.1)) := by
  rw [List.forall_mem_append,List.forall_mem_cons] at hbound
  have hfront := takeLines_entries hwidth front t n ht hbound.1 hnodup hnew
  have hentry := readLine_entry q.2 (t.insertAll front) (n+front.length) (by simpa using ht) hwidth
    hbound.2.1
  rw [if_pos (mem_insertAll.mpr hlisted)] at hentry
  rw [List.map_append,takeLines_append _ hfront,List.length_map,List.map_cons]
  exact takeLines_cons_of_error _ hentry

/-- Reading programs stops at the first entry whose address is listed already. -/
theorem takeLines_repeated_block (placed : List (EncodedProgram × Placement)) (t : Table) (n : Nat)
    (ht : t.width = width) (hbound : ∀ q ∈ addressedAll placed, q.1 < addressLimit)
    (hsplit : addressedAll placed = front ++ q :: rest) (hnodup : (front.map (·.1)).Nodup)
    (hnew : ∀ p ∈ front, p.1 ∉ t.entries) (hlisted : q.1 ∈ front.map (·.1) ∨ q.1 ∈ t.entries) :
    ∃ k, (placed.flatMap fun (program,p) => blockLines width program p)[k]? =
        some (entry width q.1 q.2) ∧
      t.takeLines n (placed.flatMap fun (program,p) => blockLines width program p) =
        .error (.fault (n+k) (.repeatedAddress q.1)) := by
  induction placed generalizing t n front with
  | nil => simp [addressedAll] at hsplit
  | cons z placed ih =>
    obtain ⟨program,p⟩ := z
    have hcons : addressedAll ((program,p) :: placed) =
        addressed program p ++ addressedAll placed := rfl
    rw [hcons] at hbound hsplit
    -- the repetition is in a later program, or among the entries of this one
    have hcases : (∃ front', front = addressed program p ++ front' ∧
        addressedAll placed = front' ++ q :: rest) ∨
        ∃ back, addressed program p = front ++ q :: back := by
      rcases List.append_eq_append_iff.mp hsplit with ⟨front',hfront,hrest⟩ | ⟨back,hback,hrest⟩
      · exact .inl ⟨front',hfront,hrest⟩
      · cases back with
        | nil => exact .inl ⟨[],by simpa using hback.symm,by simpa using hrest.symm⟩
        | cons q' back =>
          obtain rfl : q = q' := by simpa using congrArg List.head? hrest
          exact .inr ⟨back,hback⟩
    rw [List.forall_mem_append] at hbound
    rw [List.flatMap_cons]
    rcases hcases with ⟨front',rfl,hrest⟩ | ⟨back,hback⟩
    · rw [List.map_append,List.nodup_append] at hnodup
      obtain ⟨hfirst,hlater,hdisjoint⟩ := hnodup
      rw [List.forall_mem_append] at hnew
      have hblock := takeLines_block hwidth t n ht hbound.1 hfirst hnew.1
      obtain ⟨k,hline,hrun⟩ := ih (t.insertAll (addressed program p))
        (n+(blockLines width program p).length) (by simpa using ht) hbound.2 hrest hlater
        (by
          intro r hr hmem
          rcases mem_insertAll.mp hmem with hmem | hmem
          · exact hdisjoint r.1 hmem r.1 (List.mem_map_of_mem hr) rfl
          · exact hnew.2 r hr hmem)
        (by
          rw [List.map_append,List.mem_append] at hlisted
          rw [mem_insertAll]
          rcases hlisted with (h | h) | h
          · exact .inr (.inl h)
          · exact .inl h
          · exact .inr (.inr h))
      refine ⟨(blockLines width program p).length+k,?_,?_⟩
      · rw [List.getElem?_append_right (Nat.le_add_right ..),Nat.add_sub_cancel_left]
        exact hline
      · rw [takeLines_append _ hblock,hrun,Nat.add_assoc]
    · rw [hback] at hbound
      have hblock : t.takeLines n (blockLines width program p) =
          .error (.fault (n+(front.length+1)) (.repeatedAddress q.1)) := by
        rw [blockLines,takeLines_cons _ ((isComment_caption p).passed t n),hback,
          takeLines_repeated_entry hwidth t (n+1) ht hbound.1 hnodup hnew hlisted,Nat.add_assoc,
          Nat.add_comm 1]
      exact ⟨front.length+1,by simp [blockLines,hback],takeLines_append_of_error _ hblock⟩

end Repeated

theorem dropEnd_entry (width address : Nat) (w : ControlWord) :
    dropEnd '\r' (entry width address w).toList = (entry width address w).toList := by
  apply dropEnd_of_getLast?_ne
  rw [toList_entry,entryBody,List.append_cons,← List.append_assoc,getLast?_append_assignmentText]
  decide

section Render

variable {programs : List EncodedProgram} {allocation : Allocation} {width : Nat}
  {front : List (Nat × ControlWord)} {q : Nat × ControlWord}

theorem takeLines_textLines_repeated (registry : Registry) (moduleName : String)
    (hwidth : addressWidth allocation.total = .ok width)
    (hbound : ∀ q ∈ addressedAll (programs.zip allocation.placements), q.1 < addressLimit)
    (hrepeat : FirstRepeat (addressedAll (programs.zip allocation.placements)) front q) :
    ∃ k, (textLines programs allocation registry moduleName width)[k]? =
        some (entry width q.1 q.2) ∧
      takeLines {} 1 (textLines programs allocation registry moduleName width) =
        .error (.fault (k+1) (.repeatedAddress q.1)) := by
  obtain ⟨⟨rest,hsplit⟩,hnodup,hlisted⟩ := hrepeat
  obtain ⟨before,hbefore⟩ : ∃ ls, ls = header allocation.total width registry ++
      opening moduleName width := ⟨_,rfl⟩
  have hopening : takeLines {} 1 before = .ok { width } := by
    rw [hbefore]
    exact takeLines_opening allocation.total registry moduleName hwidth
  obtain ⟨k,hline,hrun⟩ := takeLines_repeated_block (addressWidth_lt_widthLimit hwidth)
    (programs.zip allocation.placements) { width } (1+before.length) rfl hbound hsplit hnodup
    (by simp) (.inl hlisted)
  have htext : textLines programs allocation registry moduleName width = before ++
      ((programs.zip allocation.placements).flatMap (fun (program,p) => blockLines width program p) ++
        closing) := by rw [textLines,← hbefore,List.append_assoc]
  refine ⟨before.length+k,?_,?_⟩
  · have hk := (List.getElem?_eq_some_iff.mp hline).1
    rw [htext,List.getElem?_append_right (Nat.le_add_right ..),Nat.add_sub_cancel_left,
      List.getElem?_append_left hk]
    exact hline
  · have hnumber : 1+before.length+k = before.length+k+1 := by omega
    rw [htext,takeLines_append _ hopening,takeLines_append_of_error _ hrun,hnumber]

/-- Reading undoes writing, for programs that lie anywhere: the table has the width of the total, the
default zero and the words of all steps at their addresses. If an address is listed twice, reading
stops at the first entry that repeats one and names its address. -/
theorem reads_back_or_repeats (programs : List EncodedProgram) (allocation : Allocation)
    (registry : Registry) (moduleName : String) (htotal : allocation.total ≤ 2^63)
    (hbound : ∀ q ∈ addressedAll (programs.zip allocation.placements), q.1 < addressLimit)
    (hsignals : ∀ s ∈ registry.signals, IsLine s.name)
    (hplacements : ∀ p ∈ allocation.placements, IsLine p.name) (hmodule : IsLine moduleName) :
    ∃ text width, render programs allocation registry moduleName = .ok text ∧
      addressWidth allocation.total = .ok width ∧
      (((addressedAll (programs.zip allocation.placements)).map (·.1)).Nodup →
        ∃ t, read text = .ok t ∧ t.width = width ∧ t.default = some 0 ∧
          ∀ a w, t.entries[a]? = some w ↔
            (a,w) ∈ addressedAll (programs.zip allocation.placements)) ∧
      (¬((addressedAll (programs.zip allocation.placements)).map (·.1)).Nodup →
        ∃ front q k, FirstRepeat (addressedAll (programs.zip allocation.placements)) front q ∧
          (lines text)[k]? = some (entry width q.1 q.2).toList ∧
          read text = .error (.fault (k+1) (.repeatedAddress q.1)) ∧
          (Fault.repeatedAddress q.1).message = s!"Address {q.1} listed more than once") := by
  obtain ⟨width,hwidth⟩ : ∃ width, addressWidth allocation.total = .ok width :=
    ⟨_,addressWidth_eq_ok htotal⟩
  have hlines : ∀ l ∈ textLines programs allocation registry moduleName width, IsLine l :=
    fun l hl => isLine_of_mem_textLines hsignals hplacements hmodule hl
  refine ⟨_,width,render_eq_ok registry moduleName hwidth hbound,hwidth,?_,?_⟩
  · intro hnodup
    obtain ⟨text,t,hrender,hread,hwidth',hdefault,hentries⟩ := exists_read_render registry moduleName
      htotal hbound hnodup hsignals hplacements hmodule
    rw [render_eq_ok registry moduleName hwidth hbound,Except.ok.injEq] at hrender
    rw [hwidth,Except.ok.injEq] at hwidth'
    exact ⟨t,hrender ▸ hread,hwidth'.symm,hdefault,hentries⟩
  · intro hnot
    obtain ⟨front,q,hrepeat⟩ := exists_firstRepeat hnot
    obtain ⟨k,hline,hrun⟩ := takeLines_textLines_repeated registry moduleName hwidth hbound hrepeat
    refine ⟨front,q,k,hrepeat,?_,by rw [read_unlines hlines,hrun],rfl⟩
    rw [lines_unlines hlines,List.getElem?_map,hline,Option.map_some,dropEnd_entry]

end Render

/-- The second program lies on the last step of the first. -/
def overlapping : Allocation where
  placements := [⟨"fetch",0,2,none⟩,⟨"add",1,1,some 0⟩]
  total := 3

theorem reads_back_or_repeats_overlapping : overlapping.total ≤ 2^63 ∧
    ∃ text n, render [⟨"fetch",[1#32,2#32]⟩,⟨"add",[3#32]⟩] overlapping .empty "store" = .ok text ∧
      read text = .error (.fault n (.repeatedAddress 1)) := by
  have htotal : overlapping.total ≤ 2^63 := by decide
  obtain ⟨text,width,hrender,-,-,hrepeats⟩ := reads_back_or_repeats
    [⟨"fetch",[1#32,2#32]⟩,⟨"add",[3#32]⟩] overlapping .empty "store" htotal (by decide) (by decide)
    (by decide) (by decide)
  obtain ⟨front,q,k,⟨⟨rest,hsplit⟩,-,hlisted⟩,-,hread,-⟩ := hrepeats (by decide)
  refine ⟨htotal,text,k+1,hrender,?_⟩
  have haddress : q.1 = 1 := by
    have hpairs : [(0,1#32),(1,2#32),(1,3#32)] = front ++ q :: rest := hsplit
    rcases front with _ | ⟨a,_ | ⟨b,_ | ⟨c,front⟩⟩⟩
    · cases hlisted
    · obtain ⟨rfl,rfl,-⟩ : (0,1#32) = a ∧ (1,2#32) = q ∧ _ := by simpa using hpairs
      simp at hlisted
    · obtain ⟨-,-,rfl,-⟩ : (0,1#32) = a ∧ (1,2#32) = b ∧ (1,3#32) = q ∧ _ := by
        simpa using hpairs
      rfl
    · simp at hpairs
  rw [hread,haddress]

end Table
end ControlStore
