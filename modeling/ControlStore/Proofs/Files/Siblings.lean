import ControlStore.Proofs.Files.Walk

/-! Paths made from one stem by adding an ending. They lead to siblings in one directory, and if a
longer ending is short enough for a name, so is every shorter one. -/
namespace ControlStore

/-- An ending that only lengthens the last name of a path and never makes it a dot name. -/
structure IsEnding (s : String) : Prop where
  no_slash : '/' ∉ s.toList
  no_nul : '\x00' ∉ s.toList
  long : 3 ≤ s.toList.length

instance (s : String) : Decidable (IsEnding s) :=
  decidable_of_iff ('/' ∉ s.toList ∧ '\x00' ∉ s.toList ∧ 3 ≤ s.toList.length)
    ⟨fun h => ⟨h.1,h.2.1,h.2.2⟩,fun h => ⟨h.no_slash,h.no_nul,h.long⟩⟩

namespace Path

theorem exists_splitOn_append {α : Type} [DecidableEq α] (x : α) (xs : List α) :
    ∃ front piece, ∀ ys, x ∉ ys → (xs ++ ys).splitOn x = front ++ [piece ++ ys] := by
  induction xs with
  | nil =>
    refine ⟨[],[],?_⟩
    intro ys hys
    rw [List.nil_append,List.splitOn_eq_singleton hys,List.nil_append]
  | cons y xs ih =>
    obtain ⟨front,piece,hsplit⟩ := ih
    by_cases hy : y = x
    · refine ⟨[] :: front,piece,?_⟩
      intro ys hys
      rw [List.cons_append,List.splitOn_cons_eq_if_modifyHead,if_pos (by simpa using hy),hsplit ys hys]
      rfl
    · cases front with
      | nil =>
        refine ⟨[],y :: piece,?_⟩
        intro ys hys
        rw [List.cons_append,List.splitOn_cons_eq_if_modifyHead,if_neg (by simpa using hy),
          hsplit ys hys]
        rfl
      | cons first front =>
        refine ⟨(y :: first) :: front,piece,?_⟩
        intro ys hys
        rw [List.cons_append,List.splitOn_cons_eq_if_modifyHead,if_neg (by simpa using hy),
          hsplit ys hys]
        rfl

theorem IsEnding.ne_nil {s : String} (hs : IsEnding s) : s.toList ≠ [] := by
  intro h
  have hlong := hs.long
  simp [h] at hlong

theorem exists_names_append (stem : String) :
    ∃ front piece, ∀ s, IsEnding s → names (stem ++ s) = front ++ [piece ++ s] := by
  obtain ⟨front,piece,hsplit⟩ := exists_splitOn_append '/' stem.toList
  refine ⟨(front.filter (· ≠ [])).map String.ofList,String.ofList piece,?_⟩
  intro s hs
  have hne : piece ++ s.toList ≠ [] := by
    intro h
    exact IsEnding.ne_nil hs (List.append_eq_nil_iff.mp h).2
  have hlast : [piece ++ s.toList].filter (· ≠ []) = [piece ++ s.toList] :=
    List.filter_eq_self.mpr (by simpa using hne)
  rw [names,String.toList_append,hsplit s.toList hs.no_slash,List.filter_append,List.map_append,
    hlast]
  simp [String.ofList_append]

theorem isAbsolute_append (stem : String) {s : String} (hs : IsEnding s) :
    isAbsolute (stem ++ s) = isAbsolute stem := by
  rw [isAbsolute,isAbsolute,String.toList_append]
  cases hstem : stem.toList with
  | nil =>
    have hhead : s.toList.head? ≠ some '/' := fun h => hs.no_slash (List.mem_of_mem_head? h)
    simpa using hhead
  | cons c cs => simp

theorem endsInSlash_append (stem : String) {s : String} (hs : IsEnding s) :
    endsInSlash (stem ++ s) = false := by
  rw [endsInSlash,String.toList_append,List.getLast?_append_of_ne_nil _ (IsEnding.ne_nil hs)]
  have hlast : s.toList.getLast? ≠ some '/' := fun h => hs.no_slash (List.mem_of_getLast? h)
  simpa using hlast

theorem check_append {stem s s' : String} (hs' : IsEnding s')
    (hsize : s'.utf8ByteSize ≤ s.utf8ByteSize) (h : check (stem ++ s) = .ok ()) :
    check (stem ++ s') = .ok () := by
  rw [check] at h ⊢
  split_ifs at h with hnul hempty hlong
  have hnul' : ¬(stem ++ s').toList.contains '\x00' = true := by
    have hstem : '\x00' ∉ stem.toList := by
      intro hmem
      exact hnul (by simp [hmem])
    simpa [hs'.no_nul] using hstem
  have hempty' : ¬(stem ++ s').isEmpty = true := by
    intro h
    have hnil : (stem ++ s').toList = [] := by simpa using h
    rw [String.toList_append] at hnil
    exact IsEnding.ne_nil hs' (List.append_eq_nil_iff.mp hnil).2
  have hlong' : ¬maxLength < (stem ++ s').utf8ByteSize := by
    rw [String.utf8ByteSize_append] at hlong ⊢
    omega
  rw [if_neg hnul',if_neg hempty',if_neg hlong']

end Path

namespace FileTree

open ControlStore.Path

theorem exists_endsInName_append (stem : String) :
    ∃ piece, ∀ s, IsEnding s → EndsInName (stem ++ s) (piece ++ s) := by
  obtain ⟨front,piece,hnames⟩ := exists_names_append stem
  refine ⟨piece,?_⟩
  intro s hs
  refine ⟨?_,endsInSlash_append stem hs⟩
  have hlong := hs.long
  have hdots : piece ++ s ≠ "." ∧ piece ++ s ≠ ".." := by
    constructor
    · intro h
      have hlength := congrArg (·.toList.length) h
      simp at hlength
      omega
    · intro h
      have hlength := congrArg (·.toList.length) h
      simp at hlength
      omega
  rw [lastName?,hnames s hs]
  simp [hdots]

/-- Paths of one stem lead to one directory. -/
theorem Denotes.siblings {t : FileTree} {stem s : String} {l : Location} (hs : IsEnding s)
    (h : t.Denotes (stem ++ s) l) :
    ∃ d piece, ∀ s', IsEnding s' → s'.utf8ByteSize ≤ s.utf8ByteSize →
      t.Denotes (stem ++ s') (d ++ [piece ++ s']) := by
  obtain ⟨d,name,hslot,hshort,-⟩ := h
  obtain ⟨hcheck,hwalk,hname,-⟩ := slot_eq_ok_iff.mp hslot
  obtain ⟨front,last,hnames⟩ := exists_names_append stem
  obtain ⟨piece,hends⟩ := exists_endsInName_append stem
  refine ⟨d,piece,?_⟩
  intro s' hs' hsize
  have hlast : some name = some (piece ++ s) := hname.trans (hends s hs).1
  obtain rfl : name = piece ++ s := by simpa using hlast
  have horigin : t.origin (stem ++ s') = t.origin (stem ++ s) := by
    rw [origin,origin,isAbsolute_append stem hs,isAbsolute_append stem hs']
  have hfront : (names (stem ++ s')).dropLast = (names (stem ++ s)).dropLast := by
    rw [hnames s hs,hnames s' hs',List.dropLast_concat,List.dropLast_concat]
  refine ⟨d,piece ++ s',slot_eq_ok_iff.mpr ⟨check_append hs' hsize hcheck,?_,?_,?_⟩,?_,rfl⟩
  · rw [horigin,hfront]
    exact hwalk
  · exact (hends s' hs').1.symm
  · exact (hends s' hs').2.symm
  · rw [String.utf8ByteSize_append] at hshort ⊢
    omega

end FileTree
end ControlStore
