import Mathlib.Data.List.Forall2
import Mathlib.Data.Nat.Digits.Defs
import Mathlib.Tactic.Ring
import ControlStore.Proofs.Text.Numeral

/-! The layout of text, said without the functions that cut it: lines with their endings, words
between blanks, the content of a line beside its comment, the part before a mark, and the digits of
numbers. What cutting finds is laid out in this way, and nothing else is. -/
namespace ControlStore
namespace Text

section Lines

variable {α : Type} {newline ret : α} {xs line rest : List α} {ls : List (List α)}

/-- A sequence as its lines. A line ends with `newline`, which one `ret` may precede, and only the
last line may lack an ending. -/
inductive HasLines (newline ret : α) : List α → List (List α) → Prop
  | none : HasLines newline ret [] []
  | unended {line : List α} (hne : line ≠ []) (hline : newline ∉ line) :
      HasLines newline ret line [line]
  | newline {line rest : List α} {ls : List (List α)} (hline : newline ∉ line)
      (hret : line.getLast? ≠ some ret) (hrest : HasLines newline ret rest ls) :
      HasLines newline ret (line ++ newline :: rest) (line :: ls)
  | ret {line rest : List α} {ls : List (List α)} (hline : newline ∉ line)
      (hrest : HasLines newline ret rest ls) :
      HasLines newline ret (line ++ ret :: newline :: rest) (line :: ls)

variable [DecidableEq α]

@[simp] theorem linesWith_nil : linesWith newline ret [] = [] := by
  simp [linesWith]

theorem linesWith_of_not_mem (hne : xs ≠ []) (h : newline ∉ xs) :
    linesWith newline ret xs = [xs] := by
  simp [linesWith,List.splitOn_eq_singleton h,hne]

theorem linesWith_append_cons (h : newline ∉ line) :
    linesWith newline ret (line ++ newline :: rest) =
      dropEnd ret line :: linesWith newline ret rest := by
  have hne : rest.splitOn newline ≠ [] := List.splitOn_ne_nil newline rest
  rw [linesWith,linesWith,List.splitOn_append_cons_self_of_not_mem h]
  simp [List.dropLast_cons_of_ne_nil hne,List.getLast?_cons,List.getLast?_eq_some_getLast hne]

@[simp] theorem dropEnd_concat (x : α) (xs : List α) : dropEnd x (xs ++ [x]) = xs := by
  simp [dropEnd]

theorem HasLines.linesWith_eq (hne : newline ≠ ret) (h : HasLines newline ret xs ls) :
    linesWith newline ret xs = ls := by
  induction h with
  | none => exact linesWith_nil
  | unended hline hmem => exact linesWith_of_not_mem hline hmem
  | newline hline hret hrest ih =>
    rw [linesWith_append_cons hline,dropEnd_of_getLast?_ne hret,ih]
  | @ret line rest ls hline hrest ih =>
    have hmem : newline ∉ line ++ [ret] := by simp [hline,hne]
    rw [List.append_cons,linesWith_append_cons hmem,dropEnd_concat,ih]

theorem hasLines_linesWith (newline ret : α) (xs : List α) :
    HasLines newline ret xs (linesWith newline ret xs) := by
  induction hlength : xs.length using Nat.strongRecOn generalizing xs with
  | _ n ih =>
    by_cases hmem : newline ∈ xs
    · obtain ⟨line,rest,rfl,hline⟩ := List.eq_append_cons_of_mem hmem
      have hrest := ih rest.length (by simp at hlength; omega) rest rfl
      rw [linesWith_append_cons hline]
      by_cases hret : line.getLast? = some ret
      · obtain ⟨front,rfl⟩ := List.getLast?_eq_some_iff.mp hret
        have hfront : newline ∉ front := by
          intro h
          exact hline (List.mem_append_left _ h)
        rw [dropEnd_concat,List.append_assoc,List.singleton_append]
        exact .ret hfront hrest
      · rw [dropEnd_of_getLast?_ne hret]
        exact .newline hline hret hrest
    · by_cases hnil : xs = []
      · rw [hnil,linesWith_nil]
        exact .none
      · rw [linesWith_of_not_mem hnil hmem]
        exact .unended hnil hmem

/-- Cutting finds the lines of a sequence. -/
theorem hasLines_iff (hne : newline ≠ ret) :
    HasLines newline ret xs ls ↔ linesWith newline ret xs = ls := by
  refine ⟨HasLines.linesWith_eq hne,?_⟩
  rintro rfl
  exact hasLines_linesWith newline ret xs

end Lines

section Words

variable {cs gap w rest : List Char} {ws : List (List Char)}

/-- A text as its words. Blanks may stand at both ends, and some stand between two words. -/
inductive HasWords : List Char → List (List Char) → Prop
  | gap {gap : List Char} (hgap : ∀ c ∈ gap, isBlank c = true) : HasWords gap []
  | word {gap w rest : List Char} {ws : List (List Char)} (hgap : ∀ c ∈ gap, isBlank c = true)
      (hne : w ≠ []) (hw : ∀ c ∈ w, isBlank c = false)
      (hnext : ∀ c ∈ rest.head?, isBlank c = true) (hrest : HasWords rest ws) :
      HasWords (gap ++ w ++ rest) (w :: ws)

theorem words_gap_append (hgap : ∀ c ∈ gap, isBlank c = true) (rest : List Char) :
    words (gap ++ rest) = words rest := by
  induction gap with
  | nil => rfl
  | cons c gap ih =>
    rw [List.forall_mem_cons] at hgap
    have hcons : words (c :: (gap ++ rest)) = words (gap ++ rest) :=
      words_append_blank [] hgap.1
    rw [List.cons_append,hcons,ih hgap.2]

theorem words_word_append (hne : w ≠ []) (hw : ∀ c ∈ w, isBlank c = false)
    (hnext : ∀ c ∈ rest.head?, isBlank c = true) : words (w ++ rest) = w :: words rest := by
  cases rest with
  | nil => rw [List.append_nil,words_eq_singleton hne hw,words_nil]
  | cons c rest =>
    have hc : isBlank c = true := hnext c rfl
    have hcons : words (c :: rest) = words rest := words_append_blank [] hc
    rw [words_append_blank w hc,words_eq_singleton hne hw,hcons,List.singleton_append]

theorem HasWords.words_eq (h : HasWords cs ws) : words cs = ws := by
  induction h with
  | gap hgap => simpa using words_gap_append hgap []
  | word hgap hne hw hnext hrest ih =>
    rw [List.append_assoc,words_gap_append hgap,words_word_append hne hw hnext,ih]

theorem eq_false_of_mem_head?_dropWhile {p : Char → Bool} {c : Char}
    (h : c ∈ (cs.dropWhile p).head?) : p c = false := by
  have hne : cs.dropWhile p ≠ [] := by
    intro hnil
    simp [hnil] at h
  have hhead := List.head_dropWhile_not p hne
  rw [List.head?_eq_some_head hne] at h
  rwa [Option.mem_some.mp h] at hhead

theorem hasWords_words (cs : List Char) : HasWords cs (words cs) := by
  induction hlength : cs.length using Nat.strongRecOn generalizing cs with
  | _ n ih =>
    obtain ⟨gap,text,rfl,hgap,htext⟩ : ∃ gap text, cs = gap ++ text ∧
        (∀ c ∈ gap, isBlank c = true) ∧ ∀ c ∈ text.head?, isBlank c = false :=
      ⟨cs.takeWhile isBlank,cs.dropWhile isBlank,List.takeWhile_append_dropWhile.symm,
        fun c hc => List.mem_takeWhile_imp hc,fun c hc => eq_false_of_mem_head?_dropWhile hc⟩
    cases text with
    | nil =>
      rw [words_gap_append hgap,words_nil,List.append_nil]
      exact .gap hgap
    | cons c text =>
      obtain ⟨w,rest,hsplit,hw,hrest⟩ : ∃ w rest, text = w ++ rest ∧
          (∀ d ∈ w, isBlank d = false) ∧ ∀ d ∈ rest.head?, isBlank d = true :=
        ⟨text.takeWhile (!isBlank ·),text.dropWhile (!isBlank ·),
          List.takeWhile_append_dropWhile.symm,
          fun d hd => by simpa using List.mem_takeWhile_imp hd,
          fun d hd => by simpa using eq_false_of_mem_head?_dropWhile hd⟩
      have hword : ∀ d ∈ c :: w, isBlank d = false := List.forall_mem_cons.mpr ⟨htext c rfl,hw⟩
      have hwords := ih rest.length (by simp [hsplit] at hlength; omega) rest rfl
      rw [hsplit,← List.cons_append,words_gap_append hgap,
        words_word_append (List.cons_ne_nil c w) hword hrest,← List.append_assoc]
      exact .word hgap (List.cons_ne_nil c w) hword hrest hwords

theorem hasWords_iff : HasWords cs ws ↔ words cs = ws := by
  refine ⟨HasWords.words_eq,?_⟩
  rintro rfl
  exact hasWords_words cs

end Words

section Content

variable {line cs : List Char}

/-- A line as its content, with blanks around it and a comment behind, which starts at the first
`#`. -/
inductive HasContent : List Char → List Char → Prop
  | mk {front cs back comment : List Char} (hfront : ∀ c ∈ front, isBlank c = true)
      (hback : ∀ c ∈ back, isBlank c = true) (hcs : '#' ∉ cs)
      (hhead : ∀ c ∈ cs.head?, isBlank c = false) (hlast : ∀ c ∈ cs.getLast?, isBlank c = false)
      (hcomment : ∀ c ∈ comment.head?, c = '#') :
      HasContent (front ++ cs ++ back ++ comment) cs

theorem not_mem_of_blanks {gap : List Char} {c : Char} (hgap : ∀ c ∈ gap, isBlank c = true)
    (hc : isBlank c = false) : c ∉ gap := by
  intro h
  rw [hgap c h] at hc
  cases hc

theorem takeWhile_ne_append {x : Char} {front rest : List Char} (hfront : x ∉ front)
    (hrest : ∀ c ∈ rest.head?, c = x) : (front ++ rest).takeWhile (· ≠ x) = front := by
  have hall : ∀ c ∈ front, decide (c ≠ x) = true := by
    intro c hc
    simp only [ne_eq,decide_eq_true_eq]
    rintro rfl
    exact hfront hc
  rw [List.takeWhile_append_of_pos hall]
  cases rest with
  | nil => simp
  | cons c rest => simp [hrest c rfl]

theorem HasContent.trim_eq (h : HasContent line cs) : trim (line.takeWhile (· ≠ '#')) = cs := by
  cases h with
  | @mk front _ back comment hfront hback hcs hhead hlast hcomment =>
    have hmem : '#' ∉ front ++ cs ++ back := by
      have hhash : isBlank '#' = false := by decide
      simp [not_mem_of_blanks hfront hhash,not_mem_of_blanks hback hhash,hcs]
    rw [takeWhile_ne_append hmem hcomment,trim_append_right hback,trim_append_left hfront,
      trim_eq_self hhead hlast]

theorem exists_blanks_trim (cs : List Char) : ∃ front back, cs = front ++ trim cs ++ back ∧
    (∀ c ∈ front, isBlank c = true) ∧ ∀ c ∈ back, isBlank c = true := by
  refine ⟨cs.takeWhile isBlank,((cs.dropWhile isBlank).reverse.takeWhile isBlank).reverse,?_,?_,?_⟩
  · rw [trim,List.append_assoc,← List.reverse_append,List.takeWhile_append_dropWhile,
      List.reverse_reverse,List.takeWhile_append_dropWhile]
  · intro c hc
    exact List.mem_takeWhile_imp hc
  · intro c hc
    exact List.mem_takeWhile_imp (List.mem_reverse.mp hc)

theorem isBlank_of_mem_getLast?_trim {c : Char} (h : c ∈ (trim cs).getLast?) :
    isBlank c = false := by
  rw [trim,List.getLast?_reverse] at h
  exact eq_false_of_mem_head?_dropWhile h

theorem isBlank_of_mem_head?_trim {c : Char} (h : c ∈ (trim cs).head?) : isBlank c = false := by
  have hprefix : trim cs <+: cs.dropWhile isBlank := List.rdropWhile_prefix isBlank _
  obtain ⟨back,hback⟩ := hprefix
  have hhead : c ∈ (cs.dropWhile isBlank).head? := by
    rw [← hback,List.head?_append,Option.mem_def.mp h]
    rfl
  exact eq_false_of_mem_head?_dropWhile hhead

theorem hasContent_trim_append {text comment : List Char} (htext : '#' ∉ text)
    (hcomment : ∀ c ∈ comment.head?, c = '#') : HasContent (text ++ comment) (trim text) := by
  obtain ⟨front,back,hsplit,hfront,hback⟩ := exists_blanks_trim text
  have hhash : '#' ∉ trim text := by
    intro h
    exact htext (hsplit ▸ by simp [h])
  have hcontent : HasContent (front ++ trim text ++ back ++ comment) (trim text) :=
    .mk hfront hback hhash (fun c hc => isBlank_of_mem_head?_trim hc)
      (fun c hc => isBlank_of_mem_getLast?_trim hc) hcomment
  rwa [← hsplit] at hcontent

/-- Cutting off the comment and trimming finds the content of a line. -/
theorem hasContent_iff : HasContent line cs ↔ trim (line.takeWhile (· ≠ '#')) = cs := by
  refine ⟨HasContent.trim_eq,?_⟩
  rintro rfl
  have htext : '#' ∉ line.takeWhile (· ≠ '#') := by
    intro h
    simpa using List.mem_takeWhile_imp h
  have hcomment : ∀ c ∈ (line.dropWhile (· ≠ '#')).head?, c = '#' := by
    intro c hc
    simpa using eq_false_of_mem_head?_dropWhile hc
  have hcontent := hasContent_trim_append htext hcomment
  rwa [List.takeWhile_append_dropWhile] at hcontent

end Content

section Cut

variable {α : Type} [DecidableEq α] {x : α} {xs front rest : List α}

theorem cut_eq_none (h : x ∉ xs) : cut x xs = none := by
  have hdrop : xs.dropWhile (· ≠ x) = [] := by
    rw [List.dropWhile_eq_nil_iff]
    intro y hy
    simp only [ne_eq,decide_eq_true_eq]
    rintro rfl
    exact h hy
  rw [cut,hdrop]

theorem cut_eq_some_iff :
    cut x xs = some (front,rest) ↔ xs = front ++ x :: rest ∧ x ∉ front := by
  constructor
  · intro h
    by_cases hmem : x ∈ xs
    · obtain ⟨front',rest',rfl,hfront⟩ := List.eq_append_cons_of_mem hmem
      rw [cut_append_cons hfront] at h
      cases h
      exact ⟨rfl,hfront⟩
    · rw [cut_eq_none hmem] at h
      cases h
  · rintro ⟨rfl,hfront⟩
    exact cut_append_cons hfront

end Cut

section Mark

variable {α : Type} {mark xs front front' rest : List α}

/-- A sequence as the part before its first `mark`, which is everything if there is no mark. -/
inductive HasFront (mark : List α) : List α → List α → Prop
  | all {xs : List α} (h : ¬mark <:+: xs) : HasFront mark xs xs
  | cut {front rest : List α} (h : ∀ front' rest',
      front ++ mark ++ rest = front' ++ mark ++ rest' → front.length ≤ front'.length) :
      HasFront mark (front ++ mark ++ rest) front

theorem HasFront.unique (h : HasFront mark xs front) (h' : HasFront mark xs front') :
    front = front' := by
  cases h with
  | all hnone =>
    cases h' with
    | all => rfl
    | cut => exact absurd ⟨_,_,rfl⟩ hnone
  | @cut _ rest hfirst =>
    generalize hxs : front ++ mark ++ rest = ys at h' hfirst
    cases h' with
    | all hnone => exact absurd ⟨_,_,hxs⟩ hnone
    | cut hfirst' =>
      have hlength := Nat.le_antisymm (hfirst _ _ rfl) (hfirst' _ _ hxs.symm)
      rw [List.append_assoc,List.append_assoc] at hxs
      exact (List.append_inj hxs hlength).1

variable [DecidableEq α]

theorem not_infix_of_cutAtFrom (hmark : mark ≠ []) {seen : List α}
    (h : cutAtFrom mark seen xs = none) : ¬mark <:+: xs := by
  induction xs generalizing seen with
  | nil => simpa using hmark
  | cons x xs ih =>
    rw [cutAtFrom] at h
    split at h
    · cases h
    · rename_i hstart
      rw [List.infix_cons_iff,not_or]
      exact ⟨List.isPrefixOf_iff_prefix.not.mp hstart,ih h⟩

theorem exists_of_cutAtFrom {seen : List α} (h : cutAtFrom mark seen xs = some (front,rest)) :
    ∃ part, front = seen.reverse ++ part ∧ xs = part ++ mark ++ rest ∧
      ∀ part' rest', xs = part' ++ mark ++ rest' → part.length ≤ part'.length := by
  induction xs generalizing seen with
  | nil => cases h
  | cons x xs ih =>
    rw [cutAtFrom] at h
    split at h
    · rename_i hstart
      obtain ⟨rest',hrest⟩ := List.isPrefixOf_iff_prefix.mp hstart
      rw [← hrest,List.drop_left,Option.some.injEq,Prod.mk.injEq] at h
      obtain ⟨rfl,rfl⟩ := h
      exact ⟨[],by simp,by simpa using hrest.symm,by simp⟩
    · rename_i hstart
      obtain ⟨part,rfl,rfl,hfirst⟩ := ih h
      refine ⟨x :: part,by simp,rfl,?_⟩
      intro part' rest' heq
      -- The mark does not stand at the start, so what is before it has a first element.
      cases part' with
      | nil => exact absurd (List.isPrefixOf_iff_prefix.mpr ⟨rest',heq.symm⟩) hstart
      | cons y part' =>
        have hle := hfirst part' rest' (List.cons.inj heq).2
        simpa using hle

/-- Searching finds the first mark. -/
theorem hasFront_iff (hmark : mark ≠ []) : HasFront mark xs front ↔ before mark xs = front := by
  have hbefore : HasFront mark xs (before mark xs) := by
    rw [before,cutAt]
    cases hcut : cutAtFrom mark [] xs with
    | none => exact .all (not_infix_of_cutAtFrom hmark hcut)
    | some parts =>
      obtain ⟨front,rest⟩ := parts
      obtain ⟨part,rfl,rfl,hfirst⟩ := exists_of_cutAtFrom hcut
      exact .cut hfirst
  constructor
  · intro h
    exact hbefore.unique h
  · rintro rfl
    exact hbefore

end Mark

section Digits

theorem digit?_ten (c : Char) :
    digit? 10 c = if c.isDigit then some (c.toNat - '0'.toNat) else none := by
  have hval : c.isDigit = true ↔ '0' ≤ c ∧ c ≤ '9' := by
    simp [Char.isDigit,Char.le_def]
  rw [digit?]
  by_cases hc : '0' ≤ c ∧ c ≤ '9'
  · have hlt : c.toNat - '0'.toNat < 10 := by
      have hle : c.toNat ≤ '9'.toNat := hc.2
      exact Nat.lt_succ_of_le (Nat.sub_le_sub_right hle _)
    rw [if_pos hc,if_pos (hval.mpr hc),if_pos hlt]
  · rw [if_neg hc,if_neg (hval.not.mpr hc)]
    split <;> simp
    split <;> simp

theorem foldDigits_ten_eq_some {m n : Nat} {cs : List Char} : foldDigits 10 m cs = some n ↔
    (∀ c ∈ cs, c.isDigit = true) ∧ Nat.ofDigitChars 10 cs m = n := by
  induction cs generalizing m with
  | nil => simp
  | cons c cs ih =>
    have hcons : foldDigits 10 m (c :: cs) =
        ((digit? 10 c).map (10 * m + ·)).bind (foldDigits 10 · cs) := rfl
    rw [hcons,digit?_ten]
    by_cases hc : c.isDigit = true
    · simp [hc,ih,Nat.ofDigitChars_cons]
    · simp [hc]

theorem readDigits_ten_eq_some {n : Nat} {cs : List Char} : readDigits 10 cs = some n ↔
    cs ≠ [] ∧ (∀ c ∈ cs, c.isDigit = true) ∧ Nat.ofDigitChars 10 cs 0 = n := by
  by_cases hcs : cs = []
  · simp [hcs,readDigits]
  · rw [readDigits_eq_foldDigits hcs,foldDigits_ten_eq_some]
    simp [hcs]

/-- A character is the hexadecimal digit of a value, in either case. -/
def IsHexDigit (c : Char) (d : Nat) : Prop :=
  "0123456789abcdef".toList[d]? = some c ∨ "0123456789ABCDEF".toList[d]? = some c

theorem IsHexDigit.lt {c : Char} {d : Nat} (h : IsHexDigit c d) : d < 16 := by
  rcases h with h | h
  · exact (List.getElem?_eq_some_iff.mp h).1
  · exact (List.getElem?_eq_some_iff.mp h).1

theorem digit?_sixteen {c : Char} {d : Nat} : digit? 16 c = some d ↔ IsHexDigit c d := by
  constructor
  · intro h
    -- Only characters of the three ranges have a value below the base.
    have hrange : ('0' ≤ c ∧ c ≤ '9') ∨ ('a' ≤ c ∧ c ≤ 'f') ∨ 'A' ≤ c ∧ c ≤ 'F' := by
      by_contra hnone
      simp only [not_or] at hnone
      simp [digit?,hnone] at h
    have hcode : (48 ≤ c.toNat ∧ c.toNat ≤ 57) ∨ (97 ≤ c.toNat ∧ c.toNat ≤ 102) ∨
        65 ≤ c.toNat ∧ c.toNat ≤ 70 := hrange
    obtain ⟨n,hn⟩ : ∃ n, c.toNat = n := ⟨_,rfl⟩
    obtain rfl : Char.ofNat n = c := by rw [← hn,Char.ofNat_toNat]
    rw [hn] at hcode
    rcases hcode with ⟨hlow,hhigh⟩ | ⟨hlow,hhigh⟩ | ⟨hlow,hhigh⟩
    all_goals interval_cases n <;> cases h <;> simp [IsHexDigit]
  · intro h
    have hd := h.lt
    rcases h with h | h
    · interval_cases d <;> cases h <;> rfl
    · interval_cases d <;> cases h <;> rfl

theorem foldDigits_eq_some {base m n : Nat} {cs : List Char} : foldDigits base m cs = some n ↔
    ∃ ds, List.Forall₂ (fun c d => digit? base c = some d) cs ds ∧
      base^ds.length * m + Nat.ofDigits base ds.reverse = n := by
  induction cs generalizing m with
  | nil => simp
  | cons c cs ih =>
    have hcons : foldDigits base m (c :: cs) =
        ((digit? base c).map (base * m + ·)).bind (foldDigits base · cs) := rfl
    have hvalue (d : Nat) (ds : List Nat) :
        base^(d :: ds).length * m + Nat.ofDigits base (d :: ds).reverse =
          base^ds.length * (base * m + d) + Nat.ofDigits base ds.reverse := by
      rw [List.reverse_cons,Nat.ofDigits_append,Nat.ofDigits_singleton,List.length_reverse,
        List.length_cons]
      ring
    simp only [hcons,Option.bind_eq_some_iff,Option.map_eq_some_iff,ih,List.forall₂_cons_left_iff]
    constructor
    · rintro ⟨_,⟨d,hd,rfl⟩,ds,hds,hn⟩
      exact ⟨d :: ds,⟨d,ds,hd,hds,rfl⟩,(hvalue d ds).trans hn⟩
    · rintro ⟨_,⟨d,ds,hd,hds,rfl⟩,hn⟩
      exact ⟨_,⟨d,hd,rfl⟩,ds,hds,(hvalue d ds).symm.trans hn⟩

end Digits

end Text
end ControlStore
