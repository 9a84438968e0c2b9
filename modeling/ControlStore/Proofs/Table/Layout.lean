import ControlStore.Proofs.Assembly

/-! How the text of a table is laid out. Reading a table forgets the order of its lines and passes
over its comments; here the lines are taken as they stand. Between the line that opens the case
statement and the one default line come the programs in catalog order, each with one comment and the
entries of its addresses below it, so that the entries count up from zero through the whole text. -/
namespace ControlStore
namespace Table

open Checks Text

def isEntry (l : List Char) : Bool := l.head?.any Char.isDigit

def isRemark (l : List Char) : Bool := "//".toList.isPrefixOf l

def isDefault (l : List Char) : Bool := "default:".toList.isPrefixOf l

def caseText : List Char := "case (addr)".toList

def defaultText : List Char := "default: word = 32'h00000000;".toList

/-- A line begins with the literal of an address: its width, its value, and a colon. -/
def ListsAddress (width address : Nat) (l : List Char) : Prop :=
  ∃ rest, l = Nat.toDigits 10 width ++ ['\'','d'] ++ Nat.toDigits 10 address ++ ':' :: rest

/-- What the comment of a program says: its name, the way it is reached, and the number of its
steps. -/
def remark (p : Program) (offset : Nat) : String :=
  let way := if p.name = fetchName then "prologue" else s!"relative offset {offset}"
  let steps := if p.steps.length = 1 then "step" else "steps"
  s!"// {p.name}: {way}, {p.steps.length} {steps}"

/-- The lines of the program at position `i`: its comment, and right below it an entry for each of
its addresses. -/
def IsBlock (c : Catalog) (width i : Nat) (p : Program) (ls : List (List Char)) : Prop :=
  ∃ entries, ls = (remark p (opcodeStepsBefore c.programs i)).toList :: entries ∧
    List.Forall₂ (ListsAddress width)
      (List.range' (stepsBefore c.programs i) p.steps.length) entries

/-- The lines of a table, without the blanks around them, are laid out for a catalog. -/
structure LaidOut (c : Catalog) (width : Nat) (ls : List (List Char)) : Prop where
  entries : List.Forall₂ (ListsAddress width) (List.range c.allocate.total) (ls.filter isEntry)
  fits : ∀ a < c.allocate.total, a < 2^width
  case_once : ls.filter (· = caseText) = [caseText]
  default_once : ls.filter isDefault = [defaultText]
  blocks : ∃ (front back : List (List Char)) (blocks : List (List (List Char))),
    ls = front ++ caseText :: (blocks.flatten ++ defaultText :: back) ∧
    blocks.length = c.programs.length ∧
    (∀ i p, c.programs[i]? = some p →
      ∃ block, blocks[i]? = some block ∧ IsBlock c width i p block) ∧
    blocks.flatten.filter isRemark =
      c.programs.mapIdx (fun i p => (remark p (opcodeStepsBefore c.programs i)).toList) ∧
    ∀ l ∈ back, isEntry l = false

section Kinds

variable {c : Char}

theorem isDefault_cons (rest : List Char) (h : c ≠ 'd') : isDefault (c :: rest) = false := by
  rw [Bool.eq_false_iff]
  simp [isDefault,h.symm]

theorem isRemark_cons (rest : List Char) (h : c ≠ '/') : isRemark (c :: rest) = false := by
  rw [Bool.eq_false_iff]
  simp [isRemark,h.symm]

theorem cons_ne_caseText (rest : List Char) (h : c ≠ 'c') : c :: rest ≠ caseText := by
  intro heq
  exact h (List.cons.inj heq).1

/-- A line of the frame around the programs: it is no entry, it is not the default, and it does not
open the case statement. -/
def IsFrame (l : List Char) : Prop := isEntry l = false ∧ isDefault l = false ∧ l ≠ caseText

instance (l : List Char) : Decidable (IsFrame l) := inferInstanceAs (Decidable (_ ∧ _ ∧ _))

theorem isFrame_cons (rest : List Char) (hdigit : c.isDigit = false) (hd : c ≠ 'd') (hc : c ≠ 'c') :
    IsFrame (c :: rest) :=
  ⟨hdigit,isDefault_cons rest hd,cons_ne_caseText rest hc⟩

end Kinds

def trimmed (ls : List String) : List (List Char) := ls.map (trim ·.toList)

theorem map_trim_lines_unlines {ls : List String} (h : ∀ l ∈ ls, IsLine l) :
    (lines (unlines ls)).map trim = trimmed ls := by
  rw [lines_unlines h,List.map_map]
  exact List.map_congr_left fun l _ => trim_dropEnd_return l.toList

section Frame

def frontLines (total width : Nat) (registry : Registry) (moduleName : String) : List String :=
  header total width registry ++
    [s!"module {moduleName} (",rangeLine width,"    output logic [31:0] word",");",
      "    always_comb begin"]

theorem isFrame_of_mem_front {total width : Nat} {registry : Registry} {moduleName : String}
    {l : List Char} (hl : l ∈ trimmed (frontLines total width registry moduleName)) :
    IsFrame l := by
  obtain ⟨s,hs,rfl⟩ := List.mem_map.mp hl
  rcases List.mem_append.mp hs with hs | hs
  · obtain ⟨rest,hrest⟩ := isComment_of_mem_header hs
    rw [hrest]
    exact isFrame_cons _ (by decide) (by decide) (by decide)
  · simp only [List.mem_cons,List.not_mem_nil,or_false] at hs
    rcases hs with rfl | rfl | rfl | rfl | rfl
    · obtain ⟨rest,hrest⟩ := @exists_trim_cons [] 'm'
        ("odule ".toList ++ moduleName.toList ++ " (".toList) (by simp) (by decide)
      have hmodule : s!"module {moduleName} (".toList =
          [] ++ 'm' :: ("odule ".toList ++ moduleName.toList ++ " (".toList) := by
        simp only [String.toList_append]
        rfl
      rw [hmodule,hrest]
      exact isFrame_cons _ (by decide) (by decide) (by decide)
    · rw [trim_toList_rangeLine]
      exact isFrame_cons _ (by decide) (by decide) (by decide)
    all_goals decide

theorem isFrame_of_mem_back {l : List Char}
    (hl : l ∈ trimmed ["        endcase","    end","endmodule"]) : IsFrame l := by
  revert l
  decide

end Frame

section Blocks

variable (width : Nat) (e : EncodedProgram) (p : Placement)

theorem caption_eq_append_remark (p : Program) (base offset : Nat) :
    caption ⟨p.name,base,p.steps.length,if p.isFetch then none else some offset⟩ =
      "            " ++ remark p offset := by
  apply String.toList_injective
  by_cases hname : p.name = fetchName
  · simp [caption,remark,Program.isFetch,hname,toString]
  · simp [caption,remark,Program.isFetch,hname,toString]

theorem trim_toList_caption (p : Program) (base offset : Nat) :
    trim (caption ⟨p.name,base,p.steps.length,if p.isFetch then none else some offset⟩).toList =
      (remark p offset).toList := by
  rw [caption_eq_append_remark,String.toList_append,trim_append_left (List.all_eq_true.mp rfl)]
  apply trim_eq_self
  · intro c hc
    obtain rfl : '/' = c := by simpa [remark,toString] using hc
    decide
  · intro c hc
    by_cases hone : p.steps.length = 1
    · obtain rfl : 'p' = c := by
        simpa [remark,hone,toString,List.getLast?_append,List.getLast?_cons] using hc
      decide
    · obtain rfl : 's' = c := by
        simpa [remark,hone,toString,List.getLast?_append,List.getLast?_cons] using hc
      decide

theorem trimmed_blockLines : trimmed (blockLines width e p) =
    trim (caption p).toList :: (addressed e p).map fun q => entryBody width q.1 q.2 := by
  simp [trimmed,blockLines,trim_toList_entry]

theorem forall₂_listsAddress (pairs : List (Nat × ControlWord)) :
    List.Forall₂ (ListsAddress width) (pairs.map (·.1))
      (pairs.map fun q => entryBody width q.1 q.2) := by
  rw [List.forall₂_map_left_iff,List.forall₂_map_right_iff,List.forall₂_same]
  intro q _
  exact ⟨assignmentText q.2,rfl⟩

theorem kinds_entryBody (address : Nat) (w : ControlWord) :
    isEntry (entryBody width address w) = true ∧ isRemark (entryBody width address w) = false ∧
      isDefault (entryBody width address w) = false ∧ entryBody width address w ≠ caseText := by
  obtain ⟨c,cs,hcs,hc⟩ := exists_entryBody_eq_cons width address w
  have hne {d : Char} (hd : d.isDigit = false) : c ≠ d := by
    rintro rfl
    rw [hc] at hd
    cases hd
  rw [hcs]
  exact ⟨hc,isRemark_cons cs (hne rfl),isDefault_cons cs (hne rfl),cons_ne_caseText cs (hne rfl)⟩

theorem kinds_caption :
    isRemark (trim (caption p).toList) = true ∧ IsFrame (trim (caption p).toList) := by
  obtain ⟨rest,hrest⟩ := isComment_caption p
  rw [hrest]
  exact ⟨rfl,isFrame_cons _ (by decide) (by decide) (by decide)⟩

theorem filter_isEntry_block : (trimmed (blockLines width e p)).filter isEntry =
    (addressed e p).map fun q => entryBody width q.1 q.2 := by
  have hcaption := (kinds_caption p).2.1
  rw [trimmed_blockLines,List.filter_cons_of_neg (by simp [hcaption]),List.filter_eq_self]
  intro l hl
  obtain ⟨q,-,rfl⟩ := List.mem_map.mp hl
  exact (kinds_entryBody width q.1 q.2).1

theorem filter_isRemark_block :
    (trimmed (blockLines width e p)).filter isRemark = [trim (caption p).toList] := by
  rw [trimmed_blockLines,List.filter_cons_of_pos (kinds_caption p).1,List.filter_eq_nil_iff.mpr]
  intro l hl
  obtain ⟨q,-,rfl⟩ := List.mem_map.mp hl
  simp [(kinds_entryBody width q.1 q.2).2.1]

theorem of_mem_block {l : List Char} (hl : l ∈ trimmed (blockLines width e p)) :
    isDefault l = false ∧ l ≠ caseText := by
  rw [trimmed_blockLines,List.mem_cons] at hl
  rcases hl with rfl | hl
  · exact (kinds_caption p).2.2
  · obtain ⟨q,-,rfl⟩ := List.mem_map.mp hl
    exact (kinds_entryBody width q.1 q.2).2.2

end Blocks

section Text

variable {c : Catalog} {es : List EncodedProgram} {width : Nat}

def blockTexts (width : Nat) (placed : List (EncodedProgram × Placement)) :
    List (List (List Char)) :=
  placed.map fun z => trimmed (blockLines width z.1 z.2)

theorem flatten_blockTexts (placed : List (EncodedProgram × Placement)) :
    (blockTexts width placed).flatten =
      placed.flatMap fun z => trimmed (blockLines width z.1 z.2) :=
  List.flatMap_def.symm

theorem trimmed_textLines (es : List EncodedProgram) (a : Allocation) (registry : Registry)
    (moduleName : String) (width : Nat) :
    trimmed (textLines es a registry moduleName width) =
      trimmed (frontLines a.total width registry moduleName) ++ caseText ::
        ((blockTexts width (es.zip a.placements)).flatten ++ defaultText ::
          trimmed ["        endcase","    end","endmodule"]) := by
  have hsplit : textLines es a registry moduleName width =
      frontLines a.total width registry moduleName ++ "        case (addr)" ::
        ((es.zip a.placements).flatMap (fun z => blockLines width z.1 z.2) ++ defaultLine ::
          ["        endcase","    end","endmodule"]) := by
    simp [textLines,frontLines,opening_eq,closing_eq]
  have hcase : trim "        case (addr)".toList = caseText := by decide
  have hdefault : trim defaultLine.toList = defaultText := by
    rw [trim_toList_defaultLine]
    decide
  rw [hsplit,trimmed,List.map_append,List.map_cons,List.map_append,List.map_cons,List.map_flatMap,
    hcase,hdefault,flatten_blockTexts]
  rfl

/-- Of the lines around the programs, a test that fails on the frame finds at most the one that
opens the case statement and the default. -/
theorem filter_around {front back : List (List Char)} (body : List (List Char))
    {q : List Char → Bool} (hfront : ∀ l ∈ front, q l = false) (hback : ∀ l ∈ back, q l = false) :
    (front ++ caseText :: (body ++ defaultText :: back)).filter q =
      [caseText].filter q ++ body.filter q ++ [defaultText].filter q := by
  have hnone {ls : List (List Char)} (h : ∀ l ∈ ls, q l = false) : ls.filter q = [] := by
    rw [List.filter_eq_nil_iff]
    intro l hl
    simp [h l hl]
  rw [List.filter_append,hnone hfront,List.nil_append,← List.singleton_append,List.filter_append,
    List.filter_append,← List.singleton_append (x := defaultText),List.filter_append,hnone hback,
    List.append_nil,List.append_assoc]

theorem filter_isEntry_blockTexts (placed : List (EncodedProgram × Placement)) :
    (blockTexts width placed).flatten.filter isEntry =
      (addressedAll placed).map fun q => entryBody width q.1 q.2 := by
  simp only [flatten_blockTexts,List.filter_flatMap,filter_isEntry_block,addressedAll,
    List.map_flatMap]

theorem filter_isRemark_blockTexts (placed : List (EncodedProgram × Placement)) :
    (blockTexts width placed).flatten.filter isRemark =
      placed.map fun z => trim (caption z.2).toList := by
  simp only [flatten_blockTexts,List.filter_flatMap,filter_isRemark_block]
  exact List.map_eq_flatMap.symm

theorem of_mem_blockTexts {placed : List (EncodedProgram × Placement)} {l : List Char}
    (hl : l ∈ (blockTexts width placed).flatten) : isDefault l = false ∧ l ≠ caseText := by
  obtain ⟨block,hblock,hl⟩ := List.mem_flatten.mp hl
  obtain ⟨z,-,rfl⟩ := List.mem_map.mp hblock
  exact of_mem_block width z.1 z.2 hl

theorem map_trim_captions (h : SameLengths c.programs es) :
    (es.zip c.allocate.placements).map (fun z => trim (caption z.2).toList) =
      c.programs.mapIdx (fun i p => (remark p (opcodeStepsBefore c.programs i)).toList) := by
  have hlength : c.allocate.placements.length ≤ es.length := by
    rw [Catalog.length_placements_allocate,h.length_eq]
  calc (es.zip c.allocate.placements).map (fun z => trim (caption z.2).toList)
      = ((es.zip c.allocate.placements).map Prod.snd).map (fun p => trim (caption p).toList) := by
        rw [List.map_map]
        rfl
    _ = c.allocate.placements.map (fun p => trim (caption p).toList) := by
        rw [List.map_snd_zip hlength]
    _ = c.programs.mapIdx (fun i p => (remark p (opcodeStepsBefore c.programs i)).toList) := by
        apply List.ext_getElem?
        intro i
        rw [List.getElem?_map,Catalog.getElem?_placements_allocate,List.getElem?_mapIdx,
          Option.map_map]
        congr 1
        funext p
        exact trim_toList_caption p _ _

theorem isBlock_blockLines (c : Catalog) (width i : Nat) {p : Program} {e : EncodedProgram}
    (hwords : e.words.length = p.steps.length) :
    IsBlock c width i p (trimmed (blockLines width e
      ⟨p.name,stepsBefore c.programs i,p.steps.length,
        if p.isFetch then none else some (opcodeStepsBefore c.programs i)⟩)) := by
  rw [trimmed_blockLines,trim_toList_caption]
  refine ⟨_,rfl,?_⟩
  rw [← hwords,← map_fst_addressed e ⟨_,stepsBefore c.programs i,_,_⟩]
  exact forall₂_listsAddress width _

theorem isBlock_blockTexts (h : SameLengths c.programs es) {i : Nat} {p : Program}
    (hp : c.programs[i]? = some p) :
    ∃ block, (blockTexts width (es.zip c.allocate.placements))[i]? = some block ∧
      IsBlock c width i p block := by
  obtain ⟨hi,rfl⟩ := List.getElem?_eq_some_iff.mp hp
  have hi' : i < es.length := h.length_eq ▸ hi
  have hplacement := Catalog.getElem?_placements_allocate c i
  rw [hp,Option.map_some] at hplacement
  have hzip : (es.zip c.allocate.placements)[i]? = some (es[i],_) :=
    List.getElem?_zip_eq_some.mpr ⟨List.getElem?_eq_getElem hi',hplacement⟩
  have hwords : es[i].words.length = c.programs[i].steps.length := h.get hi hi'
  refine ⟨_,?_,isBlock_blockLines c width i hwords⟩
  rw [blockTexts,List.getElem?_map,hzip,Option.map_some]

section Filters

variable (es : List EncodedProgram) (a : Allocation) (registry : Registry) (moduleName : String)
  (width : Nat)

theorem filter_isEntry_textLines :
    (trimmed (textLines es a registry moduleName width)).filter isEntry =
      (addressedAll (es.zip a.placements)).map fun q => entryBody width q.1 q.2 := by
  have hcase : [caseText].filter isEntry = [] := by decide
  have hdefault : [defaultText].filter isEntry = [] := by decide
  rw [trimmed_textLines,filter_around _ (fun l hl => (isFrame_of_mem_front hl).1)
    (fun l hl => (isFrame_of_mem_back hl).1),hcase,hdefault,List.nil_append,List.append_nil,
    filter_isEntry_blockTexts]

theorem filter_case_textLines :
    (trimmed (textLines es a registry moduleName width)).filter (· = caseText) = [caseText] := by
  have hcase : [caseText].filter (· = caseText) = [caseText] := by decide
  have hdefault : [defaultText].filter (· = caseText) = [] := by decide
  have hnone : (blockTexts width (es.zip a.placements)).flatten.filter (· = caseText) = [] :=
    List.filter_eq_nil_iff.mpr fun l hl => by simp [(of_mem_blockTexts hl).2]
  rw [trimmed_textLines,filter_around _ (fun l hl => by simp [(isFrame_of_mem_front hl).2.2])
    (fun l hl => by simp [(isFrame_of_mem_back hl).2.2]),hcase,hdefault,hnone,List.append_nil,
    List.append_nil]

theorem filter_isDefault_textLines :
    (trimmed (textLines es a registry moduleName width)).filter isDefault = [defaultText] := by
  have hcase : [caseText].filter isDefault = [] := by decide
  have hdefault : [defaultText].filter isDefault = [defaultText] := by decide
  have hnone : (blockTexts width (es.zip a.placements)).flatten.filter isDefault = [] :=
    List.filter_eq_nil_iff.mpr fun l hl => by simp [(of_mem_blockTexts hl).1]
  rw [trimmed_textLines,filter_around _ (fun l hl => (isFrame_of_mem_front hl).2.1)
    (fun l hl => (isFrame_of_mem_back hl).2.1),hcase,hdefault,hnone,List.append_nil,List.nil_append]

end Filters

theorem laidOut_textLines (h : SameLengths c.programs es) (registry : Registry)
    (moduleName : String) (hwidth : addressWidth c.allocate.total = .ok width) :
    LaidOut c width (trimmed (textLines es c.allocate registry moduleName width)) where
  entries := by
    have haddresses : (addressedAll (es.zip c.allocate.placements)).map (·.1) =
        List.range c.allocate.total := by
      rw [Catalog.allocate,map_fst_addressedAll 0 0 h,List.range_eq_range']
    rw [filter_isEntry_textLines,← haddresses]
    exact forall₂_listsAddress width _
  fits := by
    intro a ha
    exact lt_of_lt_of_le ha (total_le_two_pow hwidth)
  case_once := filter_case_textLines es c.allocate registry moduleName width
  default_once := filter_isDefault_textLines es c.allocate registry moduleName width
  blocks := by
    refine ⟨_,_,_,trimmed_textLines es c.allocate registry moduleName width,?_,
      fun i p hp => isBlock_blockTexts h hp,?_,fun l hl => (isFrame_of_mem_back hl).1⟩
    · rw [blockTexts,List.length_map,List.length_zip,Catalog.length_placements_allocate,
        ← h.length_eq,Nat.min_self]
    · rw [filter_isRemark_blockTexts,map_trim_captions h]

theorem exists_render_iff (h : SameLengths c.programs es) (registry : Registry)
    (moduleName : String) :
    (∃ text, render es c.allocate registry moduleName = .ok text) ↔ c.allocate.total ≤ 2^63 := by
  constructor
  · rintro ⟨text,htext⟩
    obtain ⟨width,hwidth,-⟩ := bind_eq_ok.mp htext
    exact total_le_of_addressWidth hwidth
  · intro htotal
    exact ⟨_,render_eq_ok registry moduleName (addressWidth_eq_ok htotal)
      fun q hq => lt_addressLimit_of_mem_addressedAll h htotal hq⟩

/-- A table is written as long as its addresses have a width, and its text is laid out for the
catalog, whichever of the programs are empty and whatever the names are. -/
theorem render_lays_out (h : SameLengths c.programs es) (registry : Registry) (moduleName : String)
    (hsignals : ∀ s ∈ registry.signals, IsLine s.name) (hprograms : ∀ p ∈ c.programs, IsLine p.name)
    (hmodule : IsLine moduleName) :
    ((∃ text, render es c.allocate registry moduleName = .ok text) ↔ c.allocate.total ≤ 2^63) ∧
      ∀ text, render es c.allocate registry moduleName = .ok text →
        ∃ width, addressWidth c.allocate.total = .ok width ∧
          LaidOut c width ((lines text).map trim) := by
  refine ⟨exists_render_iff h registry moduleName,?_⟩
  intro text htext
  have htotal := (exists_render_iff h registry moduleName).mp ⟨text,htext⟩
  have hwidth := addressWidth_eq_ok htotal
  have hrender := render_eq_ok registry moduleName hwidth
    fun q hq => lt_addressLimit_of_mem_addressedAll h htotal hq
  obtain rfl := Except.ok.inj (htext.symm.trans hrender)
  refine ⟨_,hwidth,?_⟩
  rw [map_trim_lines_unlines fun l hl => isLine_of_mem_textLines hsignals
    (fun p hp => isLine_of_mem_placements hprograms hp) hmodule hl]
  exact laidOut_textLines h registry moduleName hwidth

/-- The empty programs have their comments too, one between the entries and one below the last. -/
theorem render_lays_out_withGaps : ∃ text,
    render [⟨"fetch",[1#32,2#32]⟩,⟨"nop",[]⟩,⟨"add",[3#32]⟩,⟨"halt",[]⟩] Catalog.withGaps.allocate
      .empty "store" = .ok text ∧ LaidOut Catalog.withGaps 2 ((lines text).map trim) := by
  have h : SameLengths Catalog.withGaps.programs
      [⟨"fetch",[1#32,2#32]⟩,⟨"nop",[]⟩,⟨"add",[3#32]⟩,⟨"halt",[]⟩] := by
    simp [SameLengths,Catalog.withGaps]
  obtain ⟨hwritten,hlaid⟩ := render_lays_out h .empty "store" (by decide) (by decide) (by decide)
  obtain ⟨text,htext⟩ := hwritten.mpr (by decide)
  obtain ⟨width,hwidth,hlaid⟩ := hlaid text htext
  obtain rfl : 2 = width := Except.ok.inj hwidth
  exact ⟨text,htext,hlaid⟩

end Text

end Table
end ControlStore
