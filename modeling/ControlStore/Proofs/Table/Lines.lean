import Mathlib.Algebra.Order.Ring.Nat
import ControlStore.Proofs.Text.Numeral
import ControlStore.Proofs.Text.Pieces
import ControlStore.Table

/-! Single lines of a table: what the reader makes of each line that the printer writes. Entries
give their address and word, the range gives the width, the default gives its word, and all other
lines are passed over. The width is the least of at least one bit that reaches all entries. -/
namespace ControlStore
namespace Table

open Text

section Width

variable {total width : Nat}

theorem addressWidth_eq_ok (h : total ≤ 2^63) :
    addressWidth total = .ok (Nat.log2 (max total 2 - 1) + 1) := by
  rw [addressWidth,Nat.one_shiftLeft,if_pos h]

theorem total_le_of_addressWidth (h : addressWidth total = .ok width) : total ≤ 2^63 := by
  by_contra hlt
  rw [addressWidth,Nat.one_shiftLeft,if_neg hlt] at h
  cases h

theorem total_lt_addressLimit (h : addressWidth total = .ok width) : total < addressLimit :=
  lt_of_le_of_lt (total_le_of_addressWidth h) (by decide)

theorem eq_of_addressWidth (h : addressWidth total = .ok width) :
    width = Nat.log2 (max total 2 - 1) + 1 := by
  rw [addressWidth_eq_ok (total_le_of_addressWidth h)] at h
  exact (Except.ok.inj h).symm

theorem addressWidth_pos (h : addressWidth total = .ok width) : 0 < width := by
  rw [eq_of_addressWidth h]
  exact Nat.succ_pos _

theorem total_le_two_pow (h : addressWidth total = .ok width) : total ≤ 2^width := by
  have hne : max total 2 - 1 ≠ 0 := by omega
  have hlt : max total 2 - 1 < 2^width := (Nat.log2_lt hne).mp (by rw [eq_of_addressWidth h]; omega)
  omega

/-- No smaller width reaches all entries. -/
theorem addressWidth_le {v : Nat} (h : addressWidth total = .ok width) (hv : 0 < v)
    (htotal : total ≤ 2^v) : width ≤ v := by
  have hne : max total 2 - 1 ≠ 0 := by omega
  have htwo : 2 ≤ 2^v := Nat.le_self_pow hv.ne' 2
  have hlog : Nat.log2 (max total 2 - 1) < v := (Nat.log2_lt hne).mpr (by omega)
  rw [eq_of_addressWidth h]
  omega

theorem addressWidth_lt_widthLimit (h : addressWidth total = .ok width) : width < widthLimit := by
  have hle : width ≤ 63 := addressWidth_le h (by decide) (total_le_of_addressWidth h)
  have hlimit : 63 < widthLimit := by decide
  omega

end Width

section ReadLine

variable (t : Table) (n : Nat)

theorem readLine_comment (cs : List Char) : t.readLine n ('/' :: '/' :: cs) = .ok t := by
  simp [readLine]

/-- A line that starts with none of the marks is passed over. -/
theorem readLine_other {c : Char} (cs : List Char) (hslash : c ≠ '/') (hi : c ≠ 'i')
    (hd : c ≠ 'd') (hdigit : c.isDigit = false) : t.readLine n (c :: cs) = .ok t := by
  simp [readLine,hslash.symm,hi.symm,hd.symm,hdigit]

theorem readLine_digit {c : Char} (cs : List Char) (hc : c.isDigit = true) :
    t.readLine n (c :: cs) =
      match readEntry t.width (c :: cs) with
      | .error f => .error (.fault n f)
      | .ok (address,w) =>
        if address ∈ t.entries then .error (.fault n (.repeatedAddress address))
        else .ok { t with entries := t.entries.insert address w } := by
  have hne {d : Char} (hd : d.isDigit = false) : d ≠ c := by
    intro h
    rw [h,hc] at hd
    cases hd
  have hcomment : ¬"//".toList.isPrefixOf (c :: cs) = true := by simp [hne (d := '/') rfl]
  have hinput : ¬"input".toList.isPrefixOf (c :: cs) = true := by simp [hne (d := 'i') rfl]
  have hdefault : ¬"default:".toList.isPrefixOf (c :: cs) = true := by simp [hne (d := 'd') rfl]
  have hhead : (c :: cs).head?.any Char.isDigit = true := hc
  exact (if_neg hcomment).trans ((if_neg hinput).trans ((if_neg hdefault).trans (if_pos hhead)))

end ReadLine

/-- A line that carries no meaning for the reader. -/
def Passed (l : String) : Prop :=
  ∀ (t : Table) (n : Nat), t.readLine n (trim l.toList) = .ok t

def IsComment (l : String) : Prop := ∃ rest, trim l.toList = '/' :: '/' :: rest

theorem IsComment.passed {l : String} (h : IsComment l) : Passed l := by
  intro t n
  obtain ⟨rest,hrest⟩ := h
  rw [hrest]
  exact readLine_comment t n rest

section Passed

variable {l : String} {a rest : List Char}

theorem isComment_of_toList (hl : l.toList = a ++ (['/','/'] ++ rest))
    (hblank : a.all isBlank = true) : IsComment l := by
  have hslash : isBlank '/' = false := by decide
  obtain ⟨rest',hrest⟩ := exists_trim_append (a:=['/','/']) rest (by simp) (by simpa using hslash)
    (by simpa using hslash)
  rw [IsComment,hl,trim_append_left (List.all_eq_true.mp hblank),hrest]
  exact ⟨rest',rfl⟩

theorem passed_other {c : Char} (hl : l.toList = a ++ ([c] ++ rest))
    (hblank : a.all isBlank = true) (hc : isBlank c = false) (hslash : c ≠ '/')
    (hi : c ≠ 'i') (hd : c ≠ 'd') (hdigit : c.isDigit = false) : Passed l := by
  intro t n
  obtain ⟨rest',hrest⟩ := exists_trim_cons rest (List.all_eq_true.mp hblank) hc
  rw [hl,List.singleton_append,hrest]
  exact readLine_other t n rest' hslash hi hd hdigit

end Passed

def assignmentFront : List Char := [' ','w','o','r','d',' ','=',' ','3','2']

def assignmentText (w : ControlWord) : List Char :=
  assignmentFront ++ ['\'','h'] ++ (w.digits ++ [';'])

theorem getLast?_append_assignmentText (a : List Char) (w : ControlWord) :
    (a ++ assignmentText w).getLast? = some ';' := by
  simp [assignmentText,List.getLast?_append,List.getLast?_cons]

theorem trim_digits_semicolon (w : ControlWord) : trim (w.digits ++ [';']) = w.digits ++ [';'] := by
  have hne : w.digits ≠ [] := by simp [ControlWord.digits_eq]
  apply trim_eq_self
  · intro c hc
    rw [List.head?_append_of_ne_nil _ hne] at hc
    exact ControlWord.not_isBlank_of_mem_digits (List.mem_of_mem_head? hc)
  · intro c hc
    rw [List.getLast?_concat] at hc
    obtain rfl : ';' = c := by simpa using hc
    decide

theorem assignment_assignmentText (w : ControlWord) : assignment (assignmentText w) = .ok w := by
  have hmark : "'h".toList = ['\'','h'] := rfl
  have hfront : '\'' ∉ assignmentFront := by decide
  have hend : trimEnd ';' (w.digits ++ [';']) = w.digits :=
    trimEnd_concat (ControlWord.not_mem_digits (by decide))
  rw [assignment,assignmentText,hmark,cutAt_append hfront]
  simp only [Option.bind_eq_bind,Option.bind_some,trim_digits_semicolon,hend,
    ControlWord.ofHex?_digits]

theorem toList_literal (w : ControlWord) :
    (literal w).toList = ['3','2','\'','h'] ++ w.digits := by
  have h : literal w = "32'h" ++ String.ofList w.digits := by
    rw [literal,ControlWord.hex]
    rfl
  simp [h]

section Entry

variable (width address : Nat) (w : ControlWord)

def entryBody : List Char :=
  (Nat.toDigits 10 width ++ ['\'','d'] ++ Nat.toDigits 10 address) ++ ':' :: assignmentText w

theorem toList_entry :
    (entry width address w).toList = "            ".toList ++ entryBody width address w := by
  have h : entry width address w = "            " ++ width.repr ++ "'d" ++ address.repr ++
      ": word = " ++ literal w ++ ";" := rfl
  rw [h]
  simp [toList_literal,entryBody,assignmentText,assignmentFront]

theorem exists_entryBody_eq_cons :
    ∃ c cs, entryBody width address w = c :: cs ∧ c.isDigit = true := by
  obtain ⟨c,cs,hcs,hc⟩ := exists_toDigits_eq_cons width
  exact ⟨c,_,by rw [entryBody,hcs]; rfl,hc⟩

theorem trim_toList_entry : trim (entry width address w).toList = entryBody width address w := by
  obtain ⟨c,cs,hcs,hc⟩ := exists_entryBody_eq_cons width address w
  rw [toList_entry,trim_append_left (List.all_eq_true.mp rfl)]
  apply trim_eq_self
  · rw [hcs]
    intro d hd
    obtain rfl : c = d := by simpa using hd
    exact not_isBlank_of_isDigit hc
  · intro d hd
    have hlast : (entryBody width address w).getLast? = some ';' := by
      rw [entryBody,List.append_cons,getLast?_append_assignmentText]
    obtain rfl : ';' = d := by simpa [hlast] using hd
    decide

variable {width address}

theorem readEntry_entryBody (hwidth : width < widthLimit) (haddress : address < addressLimit) :
    readEntry width (entryBody width address w) = .ok (address,w) := by
  have hmark : "'d".toList = ['\'','d'] := rfl
  have hcolon : ':' ∉ Nat.toDigits 10 width ++ ['\'','d'] ++ Nat.toDigits 10 address := by
    simp [not_mem_toDigits (c := ':') (by decide)]
  have hquote : '\'' ∉ Nat.toDigits 10 width := not_mem_toDigits (by decide)
  rw [readEntry,entryBody,cut_append_cons hcolon]
  simp only [hmark,cutAt_append hquote,readNumber_toDigits hwidth,readNumber_toDigits haddress,
    assignment_assignmentText]
  simp [Except.map]

/-- An entry is taken in unless its address has been listed before. -/
theorem readLine_entry (t : Table) (n : Nat) (ht : t.width = width) (hwidth : width < widthLimit)
    (haddress : address < addressLimit) :
    t.readLine n (trim (entry width address w).toList) =
      if address ∈ t.entries then .error (.fault n (.repeatedAddress address))
      else .ok { t with entries := t.entries.insert address w } := by
  obtain ⟨c,cs,hcs,hc⟩ := exists_entryBody_eq_cons width address w
  rw [trim_toList_entry,hcs,readLine_digit t n cs hc,← hcs,ht,
    readEntry_entryBody w hwidth haddress]

theorem isLine_literal : IsLine (literal w) := by
  have hword : '\n' ∉ w.digits := ControlWord.not_mem_digits (by decide)
  simp [IsLine,toList_literal,hword]

theorem isLine_entry : IsLine (entry width address w) :=
  .append (.append (.append (.append (.append (.append (by decide) (isLine_toString width))
    (by decide)) (isLine_toString address)) (by decide)) (isLine_literal w)) (by decide)

end Entry

section Header

theorem isComment_of_mem_header {total width : Nat} {registry : Registry} {l : String}
    (hl : l ∈ header total width registry) : IsComment l := by
  have hnil : ([] : List Char).all isBlank = true := rfl
  rw [header,List.mem_append,List.mem_map] at hl
  rcases hl with hl | ⟨s,-,rfl⟩
  · simp only [List.mem_cons,List.not_mem_nil,or_false] at hl
    rcases hl with rfl | rfl | rfl
    · exact isComment_of_toList (by simp only [String.toList_append,List.append_assoc]; rfl) hnil
    · exact isComment_of_toList rfl hnil
    · exact isComment_of_toList rfl hnil
  · exact isComment_of_toList (by simp only [String.toList_append,List.append_assoc]; rfl) hnil

theorem isLine_padLeft {width : Nat} {s : String} (hs : IsLine s) : IsLine (padLeft width s) := by
  rw [IsLine] at hs
  simp [IsLine,padLeft,List.leftpad,List.mem_replicate,hs]

theorem isLine_of_mem_header {total width : Nat} {registry : Registry} {l : String}
    (hnames : ∀ s ∈ registry.signals, IsLine s.name) (hl : l ∈ header total width registry) :
    IsLine l := by
  rw [header,List.mem_append,List.mem_map] at hl
  rcases hl with hl | ⟨s,hs,rfl⟩
  · simp only [List.mem_cons,List.not_mem_nil,or_false] at hl
    rcases hl with rfl | rfl | rfl
    · exact .append (.append (.append (.append (by decide) (isLine_toString total)) (by decide))
        (isLine_toString width)) (by decide)
    · decide
    · decide
  · have hname : IsLine s.name := hnames s (by simpa [Registry.byBit,List.mem_mergeSort] using hs)
    exact .append (.append (.append (by decide) (isLine_padLeft (isLine_toString s.bit)))
      (by decide)) hname

end Header

section Opening

def rangeLine (width : Nat) : String :=
  s!"    input  logic [{width - 1}:0] addr,"

def rangeFront : List Char := ['i','n','p','u','t',' ',' ','l','o','g','i','c',' ']

def rangeBody (width : Nat) : List Char :=
  (rangeFront ++ '[' :: Nat.toDigits 10 (width - 1)) ++ [':','0',']'] ++ [' ','a','d','d','r',',']

theorem toList_rangeLine (width : Nat) :
    (rangeLine width).toList = "    ".toList ++ rangeBody width := by
  have h : rangeLine width = "    input  logic [" ++ (width - 1).repr ++ ":0] addr," := rfl
  rw [h]
  simp [rangeBody,rangeFront]

theorem rangeWidth_rangeBody {width : Nat} (hpos : 0 < width) (hwidth : width < widthLimit) :
    rangeWidth (rangeBody width) = .ok (some width) := by
  have hmark : ":0]".toList = [':','0',']'] := rfl
  have hcolon : ':' ∉ rangeFront ++ '[' :: Nat.toDigits 10 (width - 1) := by
    simp [rangeFront,not_mem_toDigits (c := ':') (by decide)]
  have hbracket : '[' ∉ rangeFront := by decide
  have hpred : width - 1 < widthLimit := by omega
  have hsucc : width - 1 + 1 = width := by omega
  rw [rangeWidth,rangeBody,hmark,cutAt_append hcolon]
  simp only [cut_append_cons hbracket,readNumber_toDigits hpred,hsucc,if_pos hwidth]

theorem trim_toList_rangeLine (width : Nat) : trim (rangeLine width).toList = rangeBody width := by
  rw [toList_rangeLine,trim_append_left (List.all_eq_true.mp rfl)]
  apply trim_eq_self
  · intro c hc
    obtain rfl : 'i' = c := by simpa [rangeBody,rangeFront] using hc
    decide
  · intro c hc
    have hlast : (rangeBody width).getLast? = some ',' := by
      rw [rangeBody,List.getLast?_append]
      rfl
    obtain rfl : ',' = c := by simpa [hlast] using hc
    decide

/-- The address input gives the width of the addresses. -/
theorem readLine_rangeLine (t : Table) (n : Nat) {width : Nat} (hpos : 0 < width)
    (hwidth : width < widthLimit) :
    t.readLine n (trim (rangeLine width).toList) = .ok { t with width } := by
  have hinput : "input".toList.isPrefixOf (rangeBody width) = true := by simp [rangeBody,rangeFront]
  have hslash : "//".toList.isPrefixOf (rangeBody width) = false := rfl
  rw [trim_toList_rangeLine,readLine]
  simp only [hslash,hinput,rangeWidth_rangeBody hpos hwidth]
  simp

theorem opening_eq (moduleName : String) (width : Nat) : opening moduleName width =
    s!"module {moduleName} (" :: rangeLine width ::
      ["    output logic [31:0] word",");","    always_comb begin","        case (addr)"] := rfl

theorem passed_module (moduleName : String) : Passed s!"module {moduleName} (" := by
  have h : s!"module {moduleName} (".toList =
      [] ++ (['m'] ++ ("odule ".toList ++ moduleName.toList ++ " (".toList)) := by
    simp only [String.toList_append]
    rfl
  exact passed_other h (by simp) (by decide) (by decide) (by decide) (by decide) (by decide)

theorem passed_of_mem_ports {l : String}
    (hl : l ∈ ["    output logic [31:0] word",");","    always_comb begin","        case (addr)"]) :
    Passed l := by
  simp only [List.mem_cons,List.not_mem_nil,or_false] at hl
  rcases hl with rfl | rfl | rfl | rfl
  · exact passed_other (a := "    ".toList) (c := 'o') rfl (by decide) (by decide) (by decide)
      (by decide) (by decide) (by decide)
  · exact passed_other (a := []) (c := ')') rfl (by decide) (by decide) (by decide)
      (by decide) (by decide) (by decide)
  · exact passed_other (a := "    ".toList) (c := 'a') rfl (by decide) (by decide) (by decide)
      (by decide) (by decide) (by decide)
  · exact passed_other (a := "        ".toList) (c := 'c') rfl (by decide) (by decide)
      (by decide) (by decide) (by decide) (by decide)

theorem isLine_of_mem_opening {moduleName : String} {width : Nat} {l : String}
    (hname : IsLine moduleName) (hl : l ∈ opening moduleName width) : IsLine l := by
  simp only [opening_eq,List.mem_cons,List.not_mem_nil,or_false] at hl
  rcases hl with rfl | rfl | rfl | rfl | rfl | rfl
  · exact .append (.append (by decide) hname) (by decide)
  · exact .append (.append (by decide) (isLine_toString (width - 1))) (by decide)
  all_goals decide

end Opening

section Caption

variable (p : Placement)

theorem isComment_caption : IsComment (caption p) := by
  have hblank : "            ".toList.all isBlank = true := by decide
  rw [caption]
  cases p.offset with
  | none =>
    exact isComment_of_toList (by simp only [String.toList_append,List.append_assoc]; rfl) hblank
  | some offset =>
    exact isComment_of_toList (by simp only [String.toList_append,List.append_assoc]; rfl) hblank

theorem isLine_caption (hname : IsLine p.name) : IsLine (caption p) := by
  have hsteps : IsLine (if p.length = 1 then "step" else "steps") := by split <;> decide
  rw [caption]
  cases p.offset with
  | none =>
    exact .append (.append (.append (.append (.append (by decide) hname) (by decide))
      (isLine_toString p.length)) (by decide)) hsteps
  | some offset =>
    exact .append (.append (.append (.append (.append (.append (.append (by decide) hname)
      (by decide)) (isLine_toString offset)) (by decide)) (isLine_toString p.length)) (by decide))
      hsteps

end Caption

section Closing

def defaultLine : String := s!"            default: word = {literal 0};"

theorem trim_toList_defaultLine : trim defaultLine.toList =
    ['d','e','f','a','u','l','t',':'] ++ assignmentText 0 := by
  have h : defaultLine = "            default: word = " ++ literal 0 ++ ";" := rfl
  have hlist : defaultLine.toList =
      "            ".toList ++ (['d','e','f','a','u','l','t',':'] ++ assignmentText 0) := by
    rw [h]
    simp [toList_literal,assignmentText,assignmentFront]
  rw [hlist,trim_append_left (List.all_eq_true.mp rfl)]
  apply trim_eq_self
  · intro c hc
    obtain rfl : 'd' = c := by simpa using hc
    decide
  · intro c hc
    rw [getLast?_append_assignmentText] at hc
    obtain rfl : ';' = c := by simpa using hc
    decide

theorem readLine_defaultLine (t : Table) (n : Nat) :
    t.readLine n (trim defaultLine.toList) = .ok { t with default := some 0 } := by
  have hdrop : (['d','e','f','a','u','l','t',':'] ++ assignmentText 0).drop "default:".length =
      assignmentText 0 := rfl
  rw [trim_toList_defaultLine,readLine,hdrop,assignment_assignmentText]
  rfl

theorem closing_eq : closing = defaultLine :: ["        endcase","    end","endmodule"] := rfl

theorem passed_of_mem_ends {l : String} (hl : l ∈ ["        endcase","    end","endmodule"]) :
    Passed l := by
  simp only [List.mem_cons,List.not_mem_nil,or_false] at hl
  rcases hl with rfl | rfl | rfl
  · exact passed_other (a := "        ".toList) (c := 'e') rfl (by decide) (by decide) (by decide)
      (by decide) (by decide) (by decide)
  · exact passed_other (a := "    ".toList) (c := 'e') rfl (by decide) (by decide) (by decide)
      (by decide) (by decide) (by decide)
  · exact passed_other (a := []) (c := 'e') rfl (by decide) (by decide) (by decide)
      (by decide) (by decide) (by decide)

theorem isLine_of_mem_closing {l : String} (hl : l ∈ closing) : IsLine l := by
  simp only [closing_eq,List.mem_cons,List.not_mem_nil,or_false] at hl
  rcases hl with rfl | rfl | rfl | rfl
  · exact .append (.append (by decide) (isLine_literal 0)) (by decide)
  all_goals decide

end Closing
end Table
end ControlStore
