import Mathlib.Data.List.DropRight
import Mathlib.Data.List.Induction
import ControlStore.Text

/-! Cutting undoes joining. Lines that were written are found again, and so are words between
blanks, the text between blanks at both ends, and the parts around the first mark. -/
namespace ControlStore
namespace Text

def IsLine (s : String) : Prop := '\n' ∉ s.toList

instance (s : String) : Decidable (IsLine s) := inferInstanceAs (Decidable (_ ∉ _))

theorem IsLine.append {s s' : String} (h : IsLine s) (h' : IsLine s') : IsLine (s ++ s') := by
  rw [IsLine,String.toList_append,List.mem_append]
  rintro (hs | hs)
  · exact h hs
  · exact h' hs

theorem toList_unlines (ls : List String) :
    (unlines ls).toList = ls.flatMap fun l => l.toList ++ ['\n'] := by
  simp [unlines,List.flatMap_map]

theorem splitOn_flatMap_append {α : Type} [DecidableEq α] {nl : α} {xss : List (List α)}
    (h : ∀ xs ∈ xss, nl ∉ xs) : (xss.flatMap (· ++ [nl])).splitOn nl = xss ++ [[]] := by
  induction xss with
  | nil => rfl
  | cons xs xss ih =>
    rw [List.forall_mem_cons] at h
    rw [List.flatMap_cons,List.append_assoc,List.singleton_append,
      List.splitOn_append_cons_self_of_not_mem h.1,ih h.2,List.cons_append]

/-- Written lines are read again; a return at the end of a line counts to its ending. -/
theorem lines_unlines {ls : List String} (h : ∀ l ∈ ls, IsLine l) :
    lines (unlines ls) = ls.map fun l => dropEnd '\r' l.toList := by
  have hsplit : (unlines ls).toList.splitOn '\n' = ls.map String.toList ++ [[]] := by
    rw [toList_unlines,← List.flatMap_map String.toList (· ++ ['\n'])]
    apply splitOn_flatMap_append
    intro xs hxs
    obtain ⟨l,hl,rfl⟩ := List.mem_map.mp hxs
    exact h l hl
  simp [lines,linesWith,hsplit]

theorem dropEnd_of_getLast?_ne {α : Type} [DecidableEq α] {x : α} {xs : List α}
    (h : xs.getLast? ≠ some x) : dropEnd x xs = xs := by
  simp [dropEnd,h]

section Trim

variable {cs front back : List Char}

theorem trim_append_left (h : ∀ c ∈ front, isBlank c = true) : trim (front ++ cs) = trim cs := by
  rw [trim,List.dropWhile_append_of_pos h,trim]

theorem trim_append_right (h : ∀ c ∈ back, isBlank c = true) : trim (cs ++ back) = trim cs := by
  rw [trim,List.dropWhile_append,trim]
  split
  · rename_i hcs
    have hback : back.dropWhile isBlank = [] := by
      simpa [List.dropWhile_eq_nil_iff] using h
    rw [hback,List.isEmpty_iff.mp hcs]
  · rw [List.reverse_append,List.dropWhile_append_of_pos]
    simpa using h

/-- A return before a line ending is blank, so it does not change the trimmed line. -/
theorem trim_dropEnd_return (cs : List Char) : trim (dropEnd '\r' cs) = trim cs := by
  rw [dropEnd]
  split
  · rename_i h
    obtain ⟨ys,rfl⟩ := List.getLast?_eq_some_iff.mp h
    rw [List.dropLast_concat]
    refine (trim_append_right ?_).symm
    intro c hc
    rw [List.mem_singleton.mp hc]
    decide
  · rfl

theorem trim_eq_self (hhead : ∀ c ∈ cs.head?, isBlank c = false)
    (hlast : ∀ c ∈ cs.getLast?, isBlank c = false) : trim cs = cs := by
  have hdrop {ds : List Char} (h : ∀ c ∈ ds.head?, isBlank c = false) :
      ds.dropWhile isBlank = ds := by
    cases ds with
    | nil => rfl
    | cons d ds => exact List.dropWhile_cons_of_neg (by simp [h d (by simp)])
  rw [trim,hdrop hhead,hdrop (by simpa using hlast),List.reverse_reverse]

theorem exists_trim_append {a : List Char} (rest : List Char) (hne : a ≠ [])
    (hhead : ∀ c ∈ a.head?, isBlank c = false) (hlast : ∀ c ∈ a.getLast?, isBlank c = false) :
    ∃ rest', trim (a ++ rest) = a ++ rest' := by
  induction rest using List.reverseRecOn with
  | nil => exact ⟨[],by rw [List.append_nil,trim_eq_self hhead hlast]⟩
  | append_singleton rest c ih =>
    by_cases hc : isBlank c = true
    · obtain ⟨rest',hrest⟩ := ih
      refine ⟨rest',?_⟩
      rw [← List.append_assoc,trim_append_right (by simpa using hc),hrest]
    · refine ⟨rest ++ [c],trim_eq_self ?_ ?_⟩
      · intro d hd
        rw [List.head?_append_of_ne_nil _ hne] at hd
        exact hhead d hd
      · intro d hd
        rw [← List.append_assoc,List.getLast?_concat] at hd
        obtain rfl : c = d := by simpa using hd
        simpa using hc

theorem exists_trim_cons {c : Char} (rest : List Char) (hfront : ∀ d ∈ front, isBlank d = true)
    (hc : isBlank c = false) : ∃ rest', trim (front ++ c :: rest) = c :: rest' := by
  have hhead : ∀ d ∈ [c].head?, isBlank d = false := by simpa using hc
  obtain ⟨rest',hrest⟩ := exists_trim_append (a:=[c]) rest (by simp) hhead (by simpa using hc)
  exact ⟨rest',by rw [trim_append_left hfront,← List.singleton_append,hrest,List.singleton_append]⟩

end Trim

section Words

variable {w rest : List Char}

@[simp] theorem words_nil : words [] = [] := rfl

theorem words_append_blank {c : Char} (cs : List Char) (hc : isBlank c = true) :
    words (cs ++ c :: rest) = words cs ++ words rest := by
  rw [words,List.splitOnP_append_cons _ _ hc,List.filter_append,words,words]

theorem words_eq_singleton (hne : w ≠ []) (hw : ∀ c ∈ w, isBlank c = false) : words w = [w] := by
  rw [words,List.splitOnP_eq_singleton hw]
  simp [hne]

theorem words_intercalate {ws : List (List Char)} (hne : ∀ w ∈ ws, w ≠ [])
    (hws : ∀ w ∈ ws, ∀ c ∈ w, isBlank c = false) : words ([' '].intercalate ws) = ws := by
  induction ws with
  | nil => rfl
  | cons w ws ih =>
    rw [List.forall_mem_cons] at hne hws
    cases ws with
    | nil => simpa using words_eq_singleton hne.1 hws.1
    | cons w' ws =>
      rw [List.intercalate_cons_cons,List.append_assoc,List.singleton_append,
        words_append_blank w (by decide),words_eq_singleton hne.1 hws.1,ih hne.2 hws.2,
        List.singleton_append]

end Words

section Cut

variable {α : Type} [DecidableEq α] {x : α} {xs front rest : List α}

theorem cut_append_cons (h : x ∉ front) : cut x (front ++ x :: rest) = some (front,rest) := by
  have hfront : ∀ y ∈ front, decide (y ≠ x) = true := by
    intro y hy
    rw [decide_eq_true_eq]
    rintro rfl
    exact h hy
  rw [cut,List.dropWhile_append_of_pos hfront,List.takeWhile_append_of_pos hfront]
  simp

theorem cutAtFrom_append {mark : List α} (seen : List α) (h : x ∉ front) :
    cutAtFrom (x :: mark) seen (front ++ (x :: mark) ++ rest) =
      some (seen.reverse ++ front,rest) := by
  induction front generalizing seen with
  | nil => simp [cutAtFrom]
  | cons y front ih =>
    rw [List.mem_cons,not_or] at h
    have hstep : cutAtFrom (x :: mark) seen (y :: front ++ (x :: mark) ++ rest) =
        cutAtFrom (x :: mark) (y :: seen) (front ++ (x :: mark) ++ rest) := by
      simp [cutAtFrom,h.1]
    rw [hstep,ih _ h.2]
    simp

/-- A mark is found where it stands if its first element does not occur before. -/
theorem cutAt_append {mark : List α} (h : x ∉ front) :
    cutAt (x :: mark) (front ++ (x :: mark) ++ rest) = some (front,rest) := by
  exact cutAtFrom_append [] h

theorem cutAtFrom_eq_none {mark : List α} (seen : List α) (h : x ∉ xs) :
    cutAtFrom (x :: mark) seen xs = none := by
  induction xs generalizing seen with
  | nil => rfl
  | cons y xs ih =>
    rw [List.mem_cons,not_or] at h
    simp [cutAtFrom,h.1,ih _ h.2]

theorem before_append {mark : List α} (h : x ∉ front) :
    before (x :: mark) (front ++ (x :: mark) ++ rest) = front := by
  rw [before,cutAt_append h]

theorem before_eq_self {mark : List α} (h : x ∉ xs) : before (x :: mark) xs = xs := by
  rw [before,cutAt,cutAtFrom_eq_none [] h]

theorem trimEnd_concat (h : x ∉ xs) : trimEnd x (xs ++ [x]) = xs := by
  have hlast : xs.reverse.head? ≠ some x := by
    intro hx
    exact h (by simpa using List.mem_of_mem_head? hx)
  rw [trimEnd,List.reverse_append,List.reverse_singleton,List.singleton_append,
    List.dropWhile_cons_of_pos (by simp)]
  cases hrev : xs.reverse with
  | nil => simpa using hrev
  | cons y ys =>
    have hy : y ≠ x := by simpa [hrev] using hlast
    rw [List.dropWhile_cons_of_neg (by simpa using hy),← hrev,List.reverse_reverse]

end Cut
end Text
end ControlStore
