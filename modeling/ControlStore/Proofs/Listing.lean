import ControlStore.Allocation
import ControlStore.Proofs.Text.Layout

/-! What the listing of an allocation shows. Columns have a least width, and a blank stands between
any two of them. So a row falls apart into the four words it was made of, also where one of them is
longer than its column, and the listing determines where the programs lie. -/
namespace ControlStore

open Text

namespace Text

/-- A name that is one word: it is not empty and holds no blank. -/
def IsWord (s : String) : Prop := s.toList ≠ [] ∧ ∀ c ∈ s.toList, isBlank c = false

instance (s : String) : Decidable (IsWord s) :=
  @instDecidableAnd _ _ _ (List.decidableBAll _ _)

theorem IsWord.words_eq {s : String} (h : IsWord s) : words s.toList = [s.toList] :=
  words_eq_singleton h.1 h.2

theorem isWord_toString (n : Nat) : IsWord (toString n) := by
  rw [IsWord,Nat.toString_eq_repr,Nat.toList_repr]
  exact ⟨Nat.toDigits_ne_nil,fun c hc => not_isBlank_of_isDigit (isDigit_of_mem_toDigits hc)⟩

theorem toDigits_injective : Function.Injective (Nat.toDigits 10) := by
  intro m n h
  have hread := congrArg (Nat.ofDigitChars 10 · 0) h
  simpa only [Nat.ofDigitChars_ten_toDigits] using hread

section Pad

variable (width : Nat) (s : String)

theorem isBlank_of_mem_replicate {n : Nat} {c : Char} (hc : c ∈ List.replicate n ' ') :
    isBlank c = true := by
  rw [List.eq_of_mem_replicate hc]
  decide

theorem words_padLeft : words (padLeft width s).toList = words s.toList := by
  rw [padLeft,String.toList_ofList,List.leftpad]
  exact words_gap_append (fun c hc => isBlank_of_mem_replicate hc) s.toList

theorem words_padRight : words (padRight width s).toList = words s.toList := by
  rw [padRight,String.toList_ofList,List.rightpad]
  cases hgap : List.replicate (width - s.toList.length) ' ' with
  | nil => rw [List.append_nil]
  | cons c gap =>
    have hblank : ∀ d ∈ c :: gap, isBlank d = true := by
      rw [← hgap]
      exact fun d hd => isBlank_of_mem_replicate hd
    rw [List.forall_mem_cons] at hblank
    have hnone : words gap = [] := by simpa using words_gap_append hblank.2 []
    rw [words_append_blank _ hblank.1,hnone,List.append_nil]

variable {width s} {c : Char}

theorem mem_padLeft (h : c ∈ (padLeft width s).toList) : c = ' ' ∨ c ∈ s.toList := by
  rw [padLeft,String.toList_ofList,List.leftpad,List.mem_append] at h
  exact h.imp_left List.eq_of_mem_replicate

theorem mem_padRight (h : c ∈ (padRight width s).toList) : c = ' ' ∨ c ∈ s.toList := by
  rw [padRight,String.toList_ofList,List.rightpad,List.mem_append] at h
  exact h.symm.imp_left List.eq_of_mem_replicate

end Pad
end Text

section Row

variable (name base steps offset : String)

def rowBody : String :=
  padRight 16 name ++ " " ++ padLeft 6 base ++ " " ++ padLeft 6 steps ++ " " ++ padLeft 8 offset

theorem toList_rowBody : (rowBody name base steps offset).toList =
    (padRight 16 name).toList ++ ' ' :: ((padLeft 6 base).toList ++
      ' ' :: ((padLeft 6 steps).toList ++ ' ' :: (padLeft 8 offset).toList)) := by
  simp [rowBody]

/-- The blanks between columns keep their words apart, and padding adds none. -/
theorem words_rowBody : words (rowBody name base steps offset).toList =
    words name.toList ++ (words base.toList ++ (words steps.toList ++ words offset.toList)) := by
  have hspace : isBlank ' ' = true := by decide
  rw [toList_rowBody,words_append_blank _ hspace,words_append_blank _ hspace,
    words_append_blank _ hspace,words_padRight,words_padLeft,words_padLeft,words_padLeft]

variable {name base steps offset}

theorem not_mem_rowBody (hname : IsWord name) (hbase : IsWord base) (hsteps : IsWord steps)
    (hoffset : IsWord offset) {c : Char} (hblank : isBlank c = true) (hc : c ≠ ' ') :
    c ∉ (rowBody name base steps offset).toList := by
  have hword {s : String} (hs : IsWord s) : c ∉ s.toList := by
    intro h
    rw [hs.2 c h] at hblank
    cases hblank
  intro h
  rw [toList_rowBody] at h
  simp only [List.mem_append,List.mem_cons,hc,false_or] at h
  rcases h with h | h | h | h
  · exact (mem_padRight h).elim hc (hword hname)
  · exact (mem_padLeft h).elim hc (hword hbase)
  · exact (mem_padLeft h).elim hc (hword hsteps)
  · exact (mem_padLeft h).elim hc (hword hoffset)

end Row

namespace Placement

variable {p : Placement}

/-- What a row shows: the name, the first address and the number of steps in decimal, and the
dispatch offset in decimal or a dash. -/
def columns (p : Placement) : List (List Char) :=
  [p.name.toList,Nat.toDigits 10 p.base,Nat.toDigits 10 p.length,
    p.offset.elim ['-'] (Nat.toDigits 10)]

def rowLine (p : Placement) : String :=
  rowBody p.name (toString p.base) (toString p.length) p.offsetText

theorem toList_offsetText (p : Placement) :
    p.offsetText.toList = p.offset.elim ['-'] (Nat.toDigits 10) := by
  rw [offsetText]
  cases p.offset with
  | none => rfl
  | some n => exact Nat.toList_repr

theorem isWord_offsetText (p : Placement) : IsWord p.offsetText := by
  rw [offsetText]
  cases p.offset with
  | none => decide
  | some n => exact isWord_toString n

theorem words_rowLine (hname : IsWord p.name) : words p.rowLine.toList = p.columns := by
  rw [rowLine,words_rowBody,hname.words_eq,(isWord_toString p.base).words_eq,
    (isWord_toString p.length).words_eq,p.isWord_offsetText.words_eq,toList_offsetText,columns]
  simp

theorem not_mem_rowLine (hname : IsWord p.name) {c : Char} (hblank : isBlank c = true)
    (hc : c ≠ ' ') : c ∉ p.rowLine.toList :=
  not_mem_rowBody hname (isWord_toString p.base) (isWord_toString p.length) p.isWord_offsetText
    hblank hc

/-- A dash is no number, so the columns tell whether there is an offset and which. -/
theorem columns_injective : Function.Injective columns := by
  rintro ⟨name,base,length,offset⟩ ⟨name',base',length',offset'⟩ h
  simp only [columns,List.cons.injEq,and_true,String.toList_inj,toDigits_injective.eq_iff] at h
  obtain ⟨rfl,rfl,rfl,hoffset⟩ := h
  have hdash (n : Nat) : ['-'] ≠ Nat.toDigits 10 n := by
    intro heq
    exact not_mem_toDigits (c := '-') (n := n) (by decide) (heq ▸ List.mem_singleton_self _)
  congr 1
  cases offset with
  | none =>
    cases offset' with
    | none => rfl
    | some n => exact absurd hoffset (hdash n)
  | some m =>
    cases offset' with
    | none => exact absurd hoffset.symm (hdash m)
    | some n => exact congrArg some (toDigits_injective hoffset)

end Placement

namespace Allocation

variable {a : Allocation}

def heading : String := "program            base  steps   offset"

def NamedByWords (a : Allocation) : Prop := ∀ p ∈ a.placements, IsWord p.name

instance (a : Allocation) : Decidable a.NamedByWords := List.decidableBAll _ _

theorem listing_eq_unlines (a : Allocation) :
    a.listing = unlines (heading :: a.placements.map (·.rowLine)) := by
  have hheading : listingRow "program" "base" "steps" "offset" = heading ++ "\n" := by decide
  have hrows : a.placements.map (·.row) = (a.placements.map (·.rowLine)).map (· ++ "\n") := by
    rw [List.map_map]
    rfl
  rw [listing,hheading,hrows,unlines,List.map_cons,String.join_cons]

theorem lines_listing (h : a.NamedByWords) :
    lines a.listing = heading.toList :: a.placements.map (·.rowLine.toList) := by
  have hmem : ∀ l ∈ heading :: a.placements.map (·.rowLine), '\n' ∉ l.toList ∧ '\r' ∉ l.toList := by
    rw [List.forall_mem_cons]
    refine ⟨by decide,?_⟩
    intro l hl
    obtain ⟨p,hp,rfl⟩ := List.mem_map.mp hl
    exact ⟨Placement.not_mem_rowLine (h p hp) (by decide) (by decide),
      Placement.not_mem_rowLine (h p hp) (by decide) (by decide)⟩
  have hkeep : ∀ l ∈ heading :: a.placements.map (·.rowLine), dropEnd '\r' l.toList = l.toList := by
    intro l hl
    apply dropEnd_of_getLast?_ne
    intro hlast
    exact (hmem l hl).2 (List.mem_of_getLast? hlast)
  rw [listing_eq_unlines,lines_unlines fun l hl => (hmem l hl).1,List.map_congr_left hkeep,
    List.map_cons,List.map_map]
  rfl

theorem map_words_lines_listing (h : a.NamedByWords) :
    (lines a.listing).tail.map words = a.placements.map (·.columns) := by
  rw [lines_listing h,List.tail_cons,List.map_map]
  apply List.map_congr_left
  intro p hp
  rw [Function.comp_apply,Placement.words_rowLine (h p hp)]

/-- A listing is a heading and a line for each placement, in order, whose words are the four columns
of the placement. So it loses nothing: placements with the same listing are the same. -/
theorem listing_shows_placements (h : a.NamedByWords) :
    (∃ rows, (∀ ls, HasLines '\n' '\r' a.listing.toList ls ↔ heading.toList :: rows = ls) ∧
      List.Forall₂ (fun p row => ∀ ws, HasWords row ws ↔ p.columns = ws) a.placements rows) ∧
    ∀ b : Allocation, b.NamedByWords → a.listing = b.listing → a.placements = b.placements := by
  refine ⟨⟨a.placements.map (·.rowLine.toList),?_,?_⟩,?_⟩
  · intro ls
    rw [hasLines_iff (by decide),← lines_listing h]
    rfl
  · rw [List.forall₂_map_right_iff,List.forall₂_same]
    intro p hp ws
    rw [hasWords_iff,Placement.words_rowLine (h p hp)]
  · intro b hb heq
    have hcolumns : a.placements.map (·.columns) = b.placements.map (·.columns) := by
      rw [← map_words_lines_listing h,← map_words_lines_listing hb,heq]
    exact Placement.columns_injective.list_map hcolumns

/-- One name is longer than its column, and so are the numbers beside it. -/
def crowded : Allocation where
  placements := [⟨"fetch",0,2,none⟩,
    ⟨"multiply_accumulate",18446744073709551615,12345678,some 1234567890⟩]
  total := 12345680

theorem listing_shows_placements_crowded : crowded.NamedByWords ∧ ∃ row row',
    HasLines '\n' '\r' crowded.listing.toList [heading.toList,row,row'] ∧
    HasWords row ["fetch".toList,['0'],['2'],['-']] ∧
    HasWords row' ["multiply_accumulate".toList,"18446744073709551615".toList,
      "12345678".toList,"1234567890".toList] := by
  have hnames : crowded.NamedByWords := by decide
  obtain ⟨⟨rows,hlines,hrows⟩,-⟩ := listing_shows_placements hnames
  obtain ⟨row,_,hrow,hrest,rfl⟩ := List.forall₂_cons_left_iff.mp hrows
  obtain ⟨row',_,hrow',hnil,rfl⟩ := List.forall₂_cons_left_iff.mp hrest
  obtain rfl := List.forall₂_nil_left_iff.mp hnil
  exact ⟨hnames,row,row',(hlines _).mpr rfl,(hrow _).mpr (by decide),(hrow' _).mpr (by decide)⟩

end Allocation
end ControlStore
