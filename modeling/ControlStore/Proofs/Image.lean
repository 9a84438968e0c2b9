import ControlStore.Image
import ControlStore.Proofs.Checks
import ControlStore.Proofs.Text.Numeral
import ControlStore.Proofs.Text.Pieces

/-! An image is read back into the words it was written for, with notes or without. -/
namespace ControlStore
namespace Image

open Checks Text

def lineWords (ws : List ControlWord) : List Char :=
  [' '].intercalate (ws.map (·.digits))

theorem not_mem_lineWords {c : Char} (ws : List ControlWord) (hspace : c ≠ ' ')
    (hc : digit? 16 c = none) : c ∉ lineWords ws := by
  induction ws with
  | nil => simp [lineWords]
  | cons w ws ih =>
    cases ws with
    | nil => simpa [lineWords] using ControlWord.not_mem_digits hc
    | cons w' ws =>
      simp only [lineWords,List.map_cons,List.intercalate_cons_cons,List.mem_append,
        List.mem_singleton] at ih ⊢
      rintro ((h | h) | h)
      · exact ControlWord.not_mem_digits hc h
      · exact hspace h
      · exact ih h

theorem words_lineWords (ws : List ControlWord) : words (lineWords ws) = ws.map (·.digits) := by
  apply words_intercalate
  · intro cs hcs
    obtain ⟨w,-,rfl⟩ := List.mem_map.mp hcs
    simp [ControlWord.digits_eq]
  · intro cs hcs c hc
    obtain ⟨w,-,rfl⟩ := List.mem_map.mp hcs
    exact ControlWord.not_isBlank_of_mem_digits hc

theorem utf8Size_digitChar (d : Nat) : (Nat.digitChar d).utf8Size = 1 := by
  rcases Nat.lt_or_ge d 16 with hd | hd
  · interval_cases d <;> rfl
  · have h : Nat.digitChar d = '*' := by simpa using hd
    rw [h]
    rfl

@[simp] theorem readWord_digits (w : ControlWord) : readWord w.digits = .ok w := by
  have hcount : byteCount w.digits = 8 := by
    simp [byteCount,ControlWord.digits_eq,utf8Size_digitChar]
  simp [readWord,hcount,ControlWord.ofHex?_digits]

theorem mapM_readWord_digits (ws : List ControlWord) :
    (ws.map (·.digits)).mapM readWord = .ok ws := by
  rw [mapM_eq_ok,List.forall₂_map_left_iff,List.forall₂_same]
  exact fun w _ => readWord_digits w

theorem toList_note (p : Placement) : (note p).toList =
    ' ' :: ("//".toList ++ (' ' :: (p.name.toList ++ " @ ".toList ++ Nat.toDigits 10 p.base))) := by
  simp [note,toString]

theorem toList_line (program : EncodedProgram) (placement : Option Placement) :
    (line program placement).toList =
      lineWords program.words ++ ((placement.map note).getD "").toList := by
  simp [line,lineWords,String.toList_intercalate,ControlWord.hex,Function.comp_def]

theorem readLine_line (program : EncodedProgram) (placement : Option Placement) :
    readLine (line program placement).toList = .ok program.words := by
  have hmark : "//".toList = ['/','/'] := rfl
  have hslash : '/' ∉ lineWords program.words :=
    not_mem_lineWords _ (by decide) (by decide)
  rw [readLine,toList_line,hmark]
  cases placement with
  | none =>
    rw [Option.map_none,Option.getD_none,String.toList_empty,List.append_nil,
      before_eq_self hslash,words_lineWords,mapM_readWord_digits]
  | some p =>
    -- The space before the note is the last character that is read.
    have hsplit : lineWords program.words ++ (note p).toList =
        (lineWords program.words ++ [' ']) ++ ['/','/'] ++
          (' ' :: (p.name.toList ++ " @ ".toList ++ Nat.toDigits 10 p.base)) := by
      simp [toList_note]
    have hspace : '/' ∉ lineWords program.words ++ [' '] := by simp [hslash]
    rw [Option.map_some,Option.getD_some,hsplit,before_append hspace,
      words_append_blank _ (by decide),words_nil,List.append_nil,words_lineWords,
      mapM_readWord_digits]

theorem isLine_line (program : EncodedProgram) {placement : Option Placement}
    (h : ∀ p ∈ placement, IsLine p.name) : IsLine (line program placement) := by
  have hwords : '\n' ∉ lineWords program.words := not_mem_lineWords _ (by decide) (by decide)
  rw [IsLine,toList_line,List.mem_append,not_or]
  refine ⟨hwords,?_⟩
  cases placement with
  | none => simp
  | some p =>
    have hname : '\n' ∉ p.name.toList := h p rfl
    have hbase : '\n' ∉ Nat.toDigits 10 p.base := not_mem_toDigits (by decide)
    simp [toList_note,hname,hbase]

/-- No line ends in a return: its last character is a digit. -/
theorem dropEnd_line (program : EncodedProgram) (placement : Option Placement) :
    dropEnd '\r' (line program placement).toList = (line program placement).toList := by
  apply dropEnd_of_getLast?_ne
  rw [toList_line]
  cases placement with
  | none =>
    intro h
    have hmem : '\r' ∈ lineWords program.words := by
      simpa using List.mem_of_getLast? h
    exact not_mem_lineWords _ (by decide) (by decide) hmem
  | some p =>
    intro h
    have hlast : (Nat.toDigits 10 p.base).getLast? = some '\r' := by
      have hne := Nat.toDigits_ne_nil (b:=10) (n:=p.base)
      simpa [toList_note,List.getLast?_append,List.getLast?_cons,hne,
        List.getLast?_eq_some_getLast hne] using h
    exact not_mem_toDigits (by decide) (List.mem_of_getLast? hlast)

theorem lines_render (programs : List EncodedProgram) {annotations : Option Allocation}
    (h : ∀ a ∈ annotations, ∀ p ∈ a.placements, IsLine p.name) :
    lines (render programs annotations) = programs.zipIdx.map fun q =>
      (line q.1 (annotations.bind (·.placements[q.2]?))).toList := by
  have hlines : ∀ l ∈ programs.zipIdx.map fun q =>
      line q.1 (annotations.bind (·.placements[q.2]?)), IsLine l := by
    intro l hl
    obtain ⟨q,-,rfl⟩ := List.mem_map.mp hl
    apply isLine_line
    intro p hp
    obtain ⟨a,ha,hpa⟩ := Option.bind_eq_some_iff.mp hp
    exact h a ha p (List.mem_of_getElem? hpa)
  rw [render,lines_unlines hlines,List.map_map]
  apply List.map_congr_left
  rintro ⟨program,i⟩ -
  exact dropEnd_line program _

theorem read_of_render (programs : List EncodedProgram) (annotations : Option Allocation)
    (h : ∀ a ∈ annotations, ∀ p ∈ a.placements, IsLine p.name) :
    read (render programs annotations) = .ok (programs.map (·.words)) := by
  have hwords : programs.map (·.words) = programs.zipIdx.map (·.1.words) := by
    calc programs.map (·.words) = (programs.zipIdx.map Prod.fst).map (·.words) := by simp
      _ = programs.zipIdx.map (·.1.words) := List.map_map
  rw [read,lines_render programs h,
    mapM_zipIdx_eq_ok (g:=readLine) 1 (fun cs i ws => mapError_eq_ok),mapM_eq_ok,hwords]
  simp only [List.forall₂_map_left_iff,List.forall₂_map_right_iff,List.forall₂_same]
  rintro ⟨program,i⟩ -
  exact readLine_line program _

/-- Whatever the notes of an image say, as long as they stay on their lines, the image has a line for
each program, and reading gives the words of each program and nothing else. -/
theorem reads_back_words (programs : List EncodedProgram) (annotations : Option Allocation)
    (h : ∀ a ∈ annotations, ∀ p ∈ a.placements, IsLine p.name) :
    (lines (render programs annotations)).length = programs.length ∧
      read (render programs annotations) = .ok (programs.map (·.words)) := by
  refine ⟨?_,read_of_render programs annotations h⟩
  rw [lines_render programs h,List.length_map,List.length_zipIdx]

/-- A name that looks like a word and a comment. -/
def oddNotes : Allocation where
  placements := [⟨"00000001 // x\r",7,0,none⟩]
  total := 2

theorem reads_back_words_oddNotes :
    (∀ a ∈ some oddNotes, ∀ p ∈ a.placements, IsLine p.name) ∧
    read (render [⟨"fetch",[]⟩,⟨"add",[0xffffffff#32,0#32]⟩] (some oddNotes)) =
      .ok [[],[0xffffffff#32,0#32]] := by
  have h : ∀ a ∈ some oddNotes, ∀ p ∈ a.placements, IsLine p.name := by decide
  exact ⟨h,(reads_back_words [⟨"fetch",[]⟩,⟨"add",[0xffffffff#32,0#32]⟩] _ h).2⟩

end Image
end ControlStore
