import ControlStore.Proofs.Table.Layout
import ControlStore.Proofs.Text.Layout

/-! What a table is read from. Lines of any text are of one of four kinds: the address input gives
the width, the default gives its word, an entry adds a word at its address, and all other lines are
passed over. A text is read exactly if all lines of the first three kinds are legible, and the table
then holds what its lines say and nothing else. -/
namespace ControlStore

open Checks Text

namespace Text

section Decimal

variable {limit n : Nat} {cs : List Char}

/-- A number below `limit` in decimal. One plus sign may stand before the digits. -/
def IsDecimal (limit : Nat) (cs : List Char) (n : Nat) : Prop :=
  ∃ ds, (cs = ds ∨ cs = '+' :: ds) ∧ ds ≠ [] ∧ (∀ c ∈ ds, c.isDigit = true) ∧
    Nat.ofDigitChars 10 ds 0 = n ∧ n < limit

theorem readNumber_ten_eq_some : readNumber 10 limit cs = some n ↔ IsDecimal limit cs n := by
  simp only [readNumber,Option.filter_eq_some_iff,readDigits_ten_eq_some,decide_eq_true_eq]
  constructor
  · rintro ⟨⟨hne,hdigits,hvalue⟩,hlt⟩
    refine ⟨dropPlus cs,?_,hne,hdigits,hvalue,hlt⟩
    by_cases hplus : cs.head? = some '+'
    · obtain ⟨rest,rfl⟩ := List.head?_eq_some_iff.mp hplus
      exact .inr rfl
    · exact .inl (dropPlus_of_head?_ne hplus).symm
  · rintro ⟨ds,hcs,hne,hdigits,hvalue,hlt⟩
    have hdrop : dropPlus cs = ds := by
      rcases hcs with rfl | rfl
      · apply dropPlus_of_head?_ne
        intro hplus
        exact absurd (hdigits '+' (List.mem_of_mem_head? hplus)) (by decide)
      · rfl
    rw [hdrop]
    exact ⟨⟨hne,hdigits,hvalue⟩,hlt⟩

theorem IsDecimal.not_mem {c : Char} (h : IsDecimal limit cs n) (hdigit : c.isDigit = false)
    (hplus : c ≠ '+') : c ∉ cs := by
  obtain ⟨ds,hcs,-,hdigits,-⟩ := h
  have hds : c ∉ ds := by
    intro hc
    rw [hdigits c hc] at hdigit
    cases hdigit
  rcases hcs with rfl | rfl
  · exact hds
  · simp [hplus,hds]

end Decimal

section Search

variable {α : Type} {mark front rest : List α} {x : α}

theorem prefix_of_prefix_append_cons (hx : x ∉ mark) (h : mark <+: front ++ x :: rest) :
    mark <+: front := by
  obtain ⟨back,hback⟩ := h
  rcases List.append_eq_append_iff.mp hback with ⟨more,hfront,-⟩ | ⟨more,hmark,hmore⟩
  · exact ⟨more,hfront.symm⟩
  · cases more with
    | nil => rw [hmark,List.append_nil]
    | cons y more =>
      obtain rfl : x = y := (List.cons.inj hmore).1
      exact absurd (by simp [hmark]) hx

variable [DecidableEq α]

/-- The search passes over a part without the mark, up to an element that the mark has not. -/
theorem cutAtFrom_append_cons (hmark : mark ≠ []) (hx : x ∉ mark) (hfront : ¬mark <:+: front)
    (seen : List α) : cutAtFrom mark seen (front ++ x :: rest) =
      cutAtFrom mark (x :: (front.reverse ++ seen)) rest := by
  induction front generalizing seen with
  | nil =>
    have hstart : ¬mark.isPrefixOf (x :: rest) = true := by
      rw [List.isPrefixOf_iff_prefix]
      intro h
      have hnil : mark <+: [] := prefix_of_prefix_append_cons hx h
      exact hmark (List.prefix_nil.mp hnil)
    rw [List.nil_append,cutAtFrom,if_neg hstart]
    rfl
  | cons y front ih =>
    rw [List.infix_cons_iff,not_or] at hfront
    have hstart : ¬mark.isPrefixOf (y :: (front ++ x :: rest)) = true := by
      rw [List.isPrefixOf_iff_prefix]
      intro h
      rw [← List.cons_append] at h
      exact hfront.1 (prefix_of_prefix_append_cons hx h)
    rw [List.cons_append,cutAtFrom,if_neg hstart,ih hfront.2]
    simp

end Search
end Text

namespace Table

def isInput (l : List Char) : Bool := "input".toList.isPrefixOf l

/-- The line of an input gives a width: one more than the upper index of its range. The range opens
at the first bracket, and nothing before it ends as a range does. -/
def GivesWidth (l : List Char) (width : Nat) : Prop :=
  ∃ front index back high, l = front ++ '[' :: (index ++ [':','0',']'] ++ back) ∧ '[' ∉ front ∧
    ¬[':','0',']'] <:+: front ∧ IsDecimal widthLimit index high ∧ width = high+1 ∧
    width < widthLimit

def GivesDefault (l : List Char) (d : Option ControlWord) : Prop :=
  ∃ rest w, l = "default:".toList ++ rest ∧ assignment rest = .ok w ∧ d = some w

/-- An entry as its parts. Before the first colon stand a width and an address with a mark between
them, and behind it a word is assigned. -/
def EntryOf (l : List Char) (width address : Nat) (w : ControlWord) : Prop :=
  ∃ bits digits rest, l = bits ++ ['\'','d'] ++ digits ++ ':' :: rest ∧
    ':' ∉ bits ++ ['\'','d'] ++ digits ∧ IsDecimal widthLimit bits width ∧
    IsDecimal addressLimit digits address ∧ assignment rest = .ok w

section Parts

variable {l : List Char} {width : Nat}

theorem givesWidth_of_rangeWidth : rangeWidth l = .ok (some width) → GivesWidth l width := by
  fun_cases rangeWidth l with
  | case1 => simp
  | case2 => simp
  | case3 => simp
  | case4 before back hcut front index hopen high hindex hlt =>
    intro h
    obtain rfl : high+1 = width := by simpa using h
    obtain ⟨rfl,hfront⟩ := cut_eq_some_iff.mp hopen
    obtain ⟨_,rfl,rfl,hfirst⟩ := exists_of_cutAtFrom hcut
    refine ⟨front,index,back,high,?_,hfront,?_,readNumber_ten_eq_some.mp hindex,rfl,hlt⟩
    · simp
    · -- the search would have found a mark in `front` first
      rintro ⟨front',rest',rfl⟩
      have hle := hfirst front' (rest' ++ '[' :: (index ++ [':','0',']'] ++ back)) (by simp)
      simp at hle
  | case5 => simp

theorem rangeWidth_of_givesWidth (h : GivesWidth l width) : rangeWidth l = .ok (some width) := by
  obtain ⟨front,index,back,high,rfl,hfront,hnone,hindex,rfl,hlt⟩ := h
  have hcolon : ':' ∉ index := hindex.not_mem (by decide) (by decide)
  have hcut : cutAt ":0]".toList (front ++ '[' :: (index ++ [':','0',']'] ++ back)) =
      some (front ++ '[' :: index,back) := by
    have hmark : ":0]".toList = [':','0',']'] := rfl
    rw [hmark,cutAt,cutAtFrom_append_cons (by simp) (by decide) hnone,cutAtFrom_append _ hcolon]
    simp
  simp only [rangeWidth,hcut,cut_append_cons hfront,readNumber_ten_eq_some.mpr hindex,if_pos hlt]

theorem entryOf_of_readEntry {address : Nat} {w : ControlWord} :
    readEntry width l = .ok (address,w) → EntryOf l width address w := by
  fun_cases readEntry width l with
  | case1 => simp
  | case2 => simp
  | case3 => simp
  | case4 => simp
  | case5 lit rest hcut bits digits hlit hbits address' hdigits =>
    intro h
    obtain ⟨w',hassign,hpair⟩ := map_eq_ok.mp h
    obtain ⟨rfl,rfl⟩ : address' = address ∧ w' = w := by simpa using hpair
    obtain ⟨rfl,hcolon⟩ := cut_eq_some_iff.mp hcut
    obtain ⟨_,rfl,rfl,-⟩ := exists_of_cutAtFrom hlit
    exact ⟨bits,digits,rest,rfl,hcolon,readNumber_ten_eq_some.mp (not_not.mp hbits),
      readNumber_ten_eq_some.mp hdigits,hassign⟩

theorem readEntry_of_entryOf {address : Nat} {w : ControlWord} (h : EntryOf l width address w) :
    readEntry width l = .ok (address,w) := by
  obtain ⟨bits,digits,rest,rfl,hcolon,hbits,hdigits,hassign⟩ := h
  have hmark : "'d".toList = ['\'','d'] := rfl
  have hquote : '\'' ∉ bits := hbits.not_mem (by decide) (by decide)
  rw [readEntry,cut_append_cons hcolon]
  simp only [hmark,cutAt_append hquote,readNumber_ten_eq_some.mpr hbits,
    readNumber_ten_eq_some.mpr hdigits,hassign]
  simp [Except.map]

theorem GivesWidth.unique {width' : Nat} (h : GivesWidth l width) (h' : GivesWidth l width') :
    width = width' := by
  have heq := (rangeWidth_of_givesWidth h).symm.trans (rangeWidth_of_givesWidth h')
  simpa using heq

theorem GivesDefault.unique {d d' : Option ControlWord} (h : GivesDefault l d)
    (h' : GivesDefault l d') : d = d' := by
  obtain ⟨rest,w,hl,hassign,rfl⟩ := h
  obtain ⟨rest',w',hl',hassign',rfl⟩ := h'
  obtain rfl : rest = rest' := List.append_cancel_left (hl.symm.trans hl')
  rw [Except.ok.inj (hassign.symm.trans hassign')]

theorem EntryOf.unique {width' address address' : Nat} {w w' : ControlWord}
    (h : EntryOf l width address w) (h' : EntryOf l width' address' w') :
    address = address' ∧ w = w' := by
  obtain ⟨bits,digits,rest,hl,hcolon,hbits,hdigits,hassign⟩ := h
  obtain ⟨bits',digits',rest',hl',hcolon',hbits',hdigits',hassign'⟩ := h'
  -- there is one first colon, and no digit before the mark could be taken for it
  have hcut := congrArg (cut ':') (hl.symm.trans hl')
  rw [cut_append_cons hcolon,cut_append_cons hcolon',Option.some.injEq,Prod.mk.injEq] at hcut
  obtain ⟨hlit,rfl⟩ := hcut
  have hmark := congrArg (cutAt ['\'','d']) hlit
  rw [cutAt_append (hbits.not_mem (by decide) (by decide)),
    cutAt_append (hbits'.not_mem (by decide) (by decide)),Option.some.injEq,Prod.mk.injEq] at hmark
  obtain ⟨-,rfl⟩ := hmark
  have haddress := (readNumber_ten_eq_some.mpr hdigits).symm.trans
    (readNumber_ten_eq_some.mpr hdigits')
  exact ⟨Option.some.inj haddress,Except.ok.inj (hassign.symm.trans hassign')⟩

end Parts

section Kinds

variable {l : List Char} {c : Char}

theorem isInput_cons (rest : List Char) (h : c ≠ 'i') : isInput (c :: rest) = false := by
  rw [Bool.eq_false_iff]
  simp [isInput,h.symm]

theorem exists_cons_of_isPrefixOf {mark : List Char} (h : (c :: mark).isPrefixOf l = true) :
    ∃ rest, l = c :: rest := by
  obtain ⟨rest,rfl⟩ := List.isPrefixOf_iff_prefix.mp h
  exact ⟨_,rfl⟩

theorem kinds_of_isInput (h : isInput l = true) :
    isRemark l = false ∧ isDefault l = false ∧ isEntry l = false := by
  obtain ⟨rest,rfl⟩ := exists_cons_of_isPrefixOf (c := 'i') h
  exact ⟨isRemark_cons rest (by decide),isDefault_cons rest (by decide),rfl⟩

theorem kinds_of_isDefault (h : isDefault l = true) :
    isRemark l = false ∧ isInput l = false ∧ isEntry l = false := by
  obtain ⟨rest,rfl⟩ := exists_cons_of_isPrefixOf (c := 'd') h
  exact ⟨isRemark_cons rest (by decide),isInput_cons rest (by decide),rfl⟩

theorem kinds_of_isRemark (h : isRemark l = true) :
    isInput l = false ∧ isDefault l = false ∧ isEntry l = false := by
  obtain ⟨rest,rfl⟩ := exists_cons_of_isPrefixOf (c := '/') h
  exact ⟨isInput_cons rest (by decide),isDefault_cons rest (by decide),rfl⟩

theorem kinds_of_isEntry (h : isEntry l = true) :
    isRemark l = false ∧ isInput l = false ∧ isDefault l = false := by
  cases l with
  | nil => cases h
  | cons c rest =>
    have hne {d : Char} (hd : d.isDigit = false) : c ≠ d := by
      rintro rfl
      exact Bool.eq_false_iff.mp hd h
    exact ⟨isRemark_cons rest (hne rfl),isInput_cons rest (hne rfl),isDefault_cons rest (hne rfl)⟩

theorem kind_cases (l : List Char) : isInput l = true ∨ isDefault l = true ∨ isEntry l = true ∨
    isInput l = false ∧ isDefault l = false ∧ isEntry l = false := by
  cases isInput l <;> cases isDefault l <;> cases isEntry l <;> simp

end Kinds

/-- What a line does to a table. -/
inductive Takes (t : Table) (l : List Char) : Table → Prop
  | input {width : Nat} (hl : isInput l = true) (h : GivesWidth l width) : Takes t l { t with width }
  | default {w : ControlWord} (hl : isDefault l = true) (h : GivesDefault l (some w)) :
      Takes t l { t with default := some w }
  | entry {address : Nat} {w : ControlWord} (hl : isEntry l = true)
      (h : EntryOf l t.width address w) (hnew : address ∉ t.entries) :
      Takes t l { t with entries := t.entries.insert address w }
  | other (hinput : isInput l = false) (hdefault : isDefault l = false) (hentry : isEntry l = false) :
      Takes t l t

section ReadLine

variable {t t' : Table} {n : Nat} {l : List Char}

theorem givesDefault_iff (hl : isDefault l = true) {w : ControlWord} :
    assignment (l.drop "default:".length) = .ok w ↔ GivesDefault l (some w) := by
  obtain ⟨rest,rfl⟩ := List.isPrefixOf_iff_prefix.mp hl
  have hdrop : ("default:".toList ++ rest).drop "default:".length = rest := List.drop_left
  rw [hdrop]
  constructor
  · intro h
    exact ⟨rest,w,rfl,h,rfl⟩
  · rintro ⟨rest',w',hrest,h,hw⟩
    rw [List.append_cancel_left hrest,h,Option.some.inj hw]

theorem takes_of_readLine : t.readLine n l = .ok t' → Takes t l t' := by
  fun_cases readLine t n l with
  | case1 hremark =>
    rintro ⟨⟩
    obtain ⟨hinput,hdefault,hentry⟩ := kinds_of_isRemark hremark
    exact .other hinput hdefault hentry
  | case4 _ hinput width hwidth =>
    rintro ⟨⟩
    exact .input hinput (givesWidth_of_rangeWidth hwidth)
  | case6 _ _ hdefault w hword =>
    rintro ⟨⟩
    exact .default hdefault ((givesDefault_iff hdefault).mp hword)
  | case9 _ _ _ hentry address w hread hnew =>
    rintro ⟨⟩
    exact .entry hentry (entryOf_of_readEntry hread) hnew
  | case10 _ hinput hdefault hentry =>
    rintro ⟨⟩
    exact .other (Bool.eq_false_iff.mpr hinput) (Bool.eq_false_iff.mpr hdefault)
      (Bool.eq_false_iff.mpr hentry)
  -- in all other branches the line is refused
  | case2 => simp
  | case3 => simp
  | case5 => simp
  | case7 => simp
  | case8 => simp

theorem readLine_of_takes (h : Takes t l t') : t.readLine n l = .ok t' := by
  cases h with
  | input hl h =>
    obtain ⟨hremark,-,-⟩ := kinds_of_isInput hl
    refine (if_neg (Bool.eq_false_iff.mp hremark)).trans ((if_pos hl).trans ?_)
    rw [rangeWidth_of_givesWidth h]
  | default hl h =>
    obtain ⟨hremark,hinput,-⟩ := kinds_of_isDefault hl
    refine (if_neg (Bool.eq_false_iff.mp hremark)).trans
      ((if_neg (Bool.eq_false_iff.mp hinput)).trans ((if_pos hl).trans ?_))
    rw [(givesDefault_iff hl).mpr h]
  | entry hl h hnew =>
    cases l with
    | nil => cases hl
    | cons c cs =>
      rw [readLine_digit t n cs hl,readEntry_of_entryOf h]
      exact if_neg hnew
  | other hinput hdefault hentry =>
    by_cases hremark : isRemark l = true
    · exact if_pos hremark
    · exact (if_neg hremark).trans ((if_neg (Bool.eq_false_iff.mp hinput)).trans
        ((if_neg (Bool.eq_false_iff.mp hdefault)).trans (if_neg (Bool.eq_false_iff.mp hentry))))

theorem readLine_eq_ok : t.readLine n l = .ok t' ↔ Takes t l t' :=
  ⟨takes_of_readLine,readLine_of_takes⟩

end ReadLine

section LastGives

variable {α : Type} {kind : List Char → Bool} {Gives : List Char → α → Prop} {initial x y : α}
  {ls : List (List Char)} {l : List Char}

/-- The last line of a kind gives a value, which is `initial` as long as there is no such line. -/
def LastGives (kind : List Char → Bool) (Gives : List Char → α → Prop) (initial : α)
    (ls : List (List Char)) (x : α) : Prop :=
  match (ls.filter kind).getLast? with
  | none => x = initial
  | some l => Gives l x

theorem lastGives_concat (hl : kind l = true) :
    LastGives kind Gives initial (ls ++ [l]) x ↔ Gives l x := by
  simp [LastGives,List.filter_append,hl]

theorem lastGives_concat_of_other (hl : kind l = false) :
    LastGives kind Gives initial (ls ++ [l]) x ↔ LastGives kind Gives initial ls x := by
  simp [LastGives,List.filter_append,hl]

theorem LastGives.unique (h : LastGives kind Gives initial ls x)
    (h' : LastGives kind Gives initial ls y) (hunique : ∀ l x y, Gives l x → Gives l y → x = y) :
    x = y := by
  rw [LastGives] at h h'
  cases hlast : (ls.filter kind).getLast? with
  | none =>
    simp only [hlast] at h h'
    rw [h,h']
  | some l =>
    simp only [hlast] at h h'
    exact hunique l x y h h'

end LastGives

/-- A line is legible below others. An address input gives a width and a default a word; the literal
of an entry has the width in force, and its address stands in no entry above. -/
structure Fits (above : List (List Char)) (l : List Char) : Prop where
  input : isInput l = true → ∃ width, GivesWidth l width
  default : isDefault l = true → ∃ w, GivesDefault l (some w)
  entry : isEntry l = true → ∃ width address w, LastGives isInput GivesWidth 0 above width ∧
    EntryOf l width address w ∧
    ∀ m ∈ above, isEntry m = true → ∀ width' w', ¬EntryOf m width' address w'

def Legible (ls : List (List Char)) : Prop :=
  ∀ above l below, ls = above ++ l :: below → Fits above l

def Enters (ls : List (List Char)) (address : Nat) (w : ControlWord) : Prop :=
  ∃ l ∈ ls, isEntry l = true ∧ ∃ width, EntryOf l width address w

/-- A table holds what lines say: the last width and the last default, and the words of all entries,
each at an address of its own. -/
structure Holds (t : Table) (ls : List (List Char)) : Prop where
  width : LastGives isInput GivesWidth 0 ls t.width
  default : LastGives isDefault GivesDefault none ls t.default
  entries : ∀ a w, t.entries[a]? = some w ↔ Enters ls a w
  size : t.entries.size = (ls.filter isEntry).length

section Lines

variable {t t' : Table} {ls : List (List Char)} {l : List Char}

theorem legible_nil : Legible [] := by
  intro above l below h
  simp at h

theorem legible_concat : Legible (ls ++ [l]) ↔ Legible ls ∧ Fits ls l := by
  constructor
  · intro h
    refine ⟨?_,h ls l [] rfl⟩
    rintro above m below rfl
    exact h above m (below ++ [l]) (by simp)
  · rintro ⟨hls,hl⟩ above m below heq
    rcases List.eq_nil_or_concat' below with rfl | ⟨below,m',rfl⟩
    · obtain ⟨rfl,hm⟩ := List.append_inj' heq rfl
      obtain rfl : l = m := by simpa using hm
      exact hl
    · rw [← List.cons_append,← List.append_assoc] at heq
      exact hls above m below (List.append_inj' heq rfl).1

theorem enters_concat {a : Nat} {w : ControlWord} (hl : isEntry l = true) :
    Enters (ls ++ [l]) a w ↔ Enters ls a w ∨ ∃ width, EntryOf l width a w := by
  simp [Enters,or_and_right,exists_or,hl]

theorem enters_concat_of_other {a : Nat} {w : ControlWord} (hl : isEntry l = false) :
    Enters (ls ++ [l]) a w ↔ Enters ls a w := by
  simp [Enters,or_and_right,exists_or,hl]

theorem holds_nil : Holds {} [] where
  width := rfl
  default := rfl
  entries a w := by simp [Enters]
  size := rfl

theorem Holds.mem_entries_iff (h : Holds t ls) {a : Nat} :
    a ∈ t.entries ↔ ∃ w, Enters ls a w := by
  rw [Std.ExtTreeMap.mem_iff_isSome_getElem?,Option.isSome_iff_exists]
  exact exists_congr (h.entries a)

theorem Holds.getElem?_insert (h : Holds t ls) {address : Nat} {w : ControlWord}
    (hl : isEntry l = true) (hentry : EntryOf l t.width address w) (hnew : address ∉ t.entries)
    (a : Nat) (w' : ControlWord) :
    (t.entries.insert address w)[a]? = some w' ↔ Enters (ls ++ [l]) a w' := by
  rw [enters_concat hl,← h.entries,Std.ExtTreeMap.getElem?_insert]
  by_cases ha : address = a
  · subst ha
    rw [if_pos (compare_eq_iff_eq.mpr rfl),Std.ExtTreeMap.getElem?_eq_none hnew]
    constructor
    · intro hw
      exact .inr ⟨t.width,Option.some.inj hw ▸ hentry⟩
    · rintro (hnone | ⟨width,hentry'⟩)
      · cases hnone
      · rw [(hentry.unique hentry').2]
  · rw [if_neg (mt compare_eq_iff_eq.mp ha)]
    constructor
    · exact .inl
    · rintro (hw | ⟨width,hentry'⟩)
      · exact hw
      · exact absurd (hentry.unique hentry').1 ha

theorem Holds.concat_of_other (h : Holds t ls) (hl : isEntry l = false)
    (hwidth : LastGives isInput GivesWidth 0 (ls ++ [l]) t'.width)
    (hdefault : LastGives isDefault GivesDefault none (ls ++ [l]) t'.default)
    (hentries : t'.entries = t.entries) : Holds t' (ls ++ [l]) where
  width := hwidth
  default := hdefault
  entries a w := by rw [hentries,h.entries,enters_concat_of_other hl]
  size := by
    rw [hentries,h.size]
    simp [List.filter_append,hl]

/-- What a table holds after one more line. -/
theorem Holds.concat (h : Holds t ls) (htakes : Takes t l t') : Holds t' (ls ++ [l]) := by
  cases htakes with
  | input hl hwidth =>
    obtain ⟨-,hdefault,hentry⟩ := kinds_of_isInput hl
    exact h.concat_of_other hentry ((lastGives_concat hl).mpr hwidth)
      ((lastGives_concat_of_other hdefault).mpr h.default) rfl
  | default hl hword =>
    obtain ⟨-,hinput,hentry⟩ := kinds_of_isDefault hl
    exact h.concat_of_other hentry ((lastGives_concat_of_other hinput).mpr h.width)
      ((lastGives_concat hl).mpr hword) rfl
  | entry hl hentry hnew =>
    obtain ⟨-,hinput,hdefault⟩ := kinds_of_isEntry hl
    refine ⟨(lastGives_concat_of_other hinput).mpr h.width,
      (lastGives_concat_of_other hdefault).mpr h.default,h.getElem?_insert hl hentry hnew,?_⟩
    rw [Std.ExtTreeMap.size_insert,if_neg (mt Std.ExtTreeMap.contains_iff_mem.mp hnew),h.size]
    simp [List.filter_append,hl]
  | other hinput hdefault hentry =>
    exact h.concat_of_other hentry ((lastGives_concat_of_other hinput).mpr h.width)
      ((lastGives_concat_of_other hdefault).mpr h.default) rfl

/-- The lines that a table takes in next are those that are legible below the lines it holds. -/
theorem Holds.fits_iff (h : Holds t ls) : Fits ls l ↔ ∃ t', Takes t l t' := by
  constructor
  · intro hfits
    rcases kind_cases l with hinput | hdefault | hentry | ⟨hinput,hdefault,hentry⟩
    · obtain ⟨width,hwidth⟩ := hfits.input hinput
      exact ⟨_,.input hinput hwidth⟩
    · obtain ⟨w,hword⟩ := hfits.default hdefault
      exact ⟨_,.default hdefault hword⟩
    · obtain ⟨width,address,w,hwidth,hparts,hnew⟩ := hfits.entry hentry
      obtain rfl : t.width = width := h.width.unique hwidth fun _ _ _ => GivesWidth.unique
      refine ⟨_,.entry hentry hparts ?_⟩
      intro hmem
      obtain ⟨w',m,hm,hkind,width',hparts'⟩ := h.mem_entries_iff.mp hmem
      exact hnew m hm hkind width' w' hparts'
    · exact ⟨t,.other hinput hdefault hentry⟩
  · rintro ⟨t',htakes⟩
    cases htakes with
    | input hl hwidth =>
      obtain ⟨-,hdefault,hentry⟩ := kinds_of_isInput hl
      exact ⟨fun _ => ⟨_,hwidth⟩,by simp [hdefault],by simp [hentry]⟩
    | default hl hword =>
      obtain ⟨-,hinput,hentry⟩ := kinds_of_isDefault hl
      exact ⟨by simp [hinput],fun _ => ⟨_,hword⟩,by simp [hentry]⟩
    | entry hl hparts hnew =>
      obtain ⟨-,hinput,hdefault⟩ := kinds_of_isEntry hl
      refine ⟨by simp [hinput],by simp [hdefault],fun _ => ⟨_,_,_,h.width,hparts,?_⟩⟩
      intro m hm hkind width' w' hparts'
      exact hnew (h.mem_entries_iff.mpr ⟨w',m,hm,hkind,width',hparts'⟩)
    | other hinput hdefault hentry => exact ⟨by simp [hinput],by simp [hdefault],by simp [hentry]⟩

theorem Holds.unique (h : Holds t ls) (h' : Holds t' ls) : t = t' := by
  have hwidth := h.width.unique h'.width fun _ _ _ => GivesWidth.unique
  have hdefault := h.default.unique h'.default fun _ _ _ => GivesDefault.unique
  have hentries : t.entries = t'.entries := by
    apply Std.ExtTreeMap.ext_getElem?
    intro a
    apply Option.ext
    intro w
    rw [h.entries,h'.entries]
  cases t
  cases t'
  cases hwidth
  cases hdefault
  cases hentries
  rfl

end Lines

section Scan

variable {t t' : Table} {ls : List (List Char)} {l : List Char}

def scan (ls : List (List Char)) : Except Error Table :=
  (ls.zipIdx 1).foldlM (fun t (l,n) => t.readLine n l) {}

theorem read_eq_scan (text : String) : read text = scan ((lines text).map trim) := by
  rw [read,scan,List.zipIdx_map,List.foldlM_map]
  rfl

theorem scan_concat_eq_ok : scan (ls ++ [l]) = .ok t' ↔ ∃ t, scan ls = .ok t ∧ Takes t l t' := by
  have hconcat : scan (ls ++ [l]) = scan ls >>= fun t => t.readLine (1+ls.length) l := by
    rw [scan,List.zipIdx_append,List.foldlM_append]
    simp [scan]
  simp only [hconcat,bind_eq_ok,readLine_eq_ok]

/-- What is read so far is legible, and the table holds it. -/
theorem legible_and_holds_of_scan (h : scan ls = .ok t) : Legible ls ∧ Holds t ls := by
  -- on the last line, as whether it is legible depends on all lines above it
  induction ls using List.reverseRecOn generalizing t with
  | nil =>
    obtain rfl := pure_eq_ok.mp h
    exact ⟨legible_nil,holds_nil⟩
  | append_singleton ls l ih =>
    obtain ⟨s,hs,htakes⟩ := scan_concat_eq_ok.mp h
    obtain ⟨hlegible,hholds⟩ := ih hs
    exact ⟨legible_concat.mpr ⟨hlegible,hholds.fits_iff.mpr ⟨t,htakes⟩⟩,hholds.concat htakes⟩

theorem exists_scan_of_legible (h : Legible ls) : ∃ t, scan ls = .ok t := by
  induction ls using List.reverseRecOn with
  | nil => exact ⟨{},rfl⟩
  | append_singleton ls l ih =>
    obtain ⟨hls,hl⟩ := legible_concat.mp h
    obtain ⟨t,ht⟩ := ih hls
    obtain ⟨t',htakes⟩ := (legible_and_holds_of_scan ht).2.fits_iff.mp hl
    exact ⟨t',scan_concat_eq_ok.mpr ⟨t,ht,htakes⟩⟩

end Scan

/-- A text is read as a table exactly if its lines are legible and the table holds what they say, so
that no entry is dropped and none is made up. -/
theorem read_iff_legible_and_holds (text : String) (t : Table) : read text = .ok t ↔
    Legible ((lines text).map trim) ∧ Holds t ((lines text).map trim) := by
  rw [read_eq_scan]
  constructor
  · exact legible_and_holds_of_scan
  · rintro ⟨hlegible,hholds⟩
    obtain ⟨t',ht'⟩ := exists_scan_of_legible hlegible
    rw [ht',hholds.unique (legible_and_holds_of_scan ht').2]

end Table
end ControlStore
