import ControlStore.Image
import ControlStore.Proofs.Checks
import ControlStore.Proofs.Text.Layout

/-! Which texts are read as images. The tokens of a text are laid out line by line, each line up to
its comment. Reading takes the tokens that are words, and stops at the first one that is not. A word
has eight hexadecimal digits, and reading also takes one whose first digit is a plus sign. -/
namespace ControlStore
namespace Image

open Checks Text

def IsNumeral (cs : List Char) (w : ControlWord) : Prop :=
  ∃ ds, List.Forall₂ IsHexDigit cs ds ∧ Nat.ofDigits 16 ds.reverse = w.toNat

/-- The format of a word: eight digits. -/
def Spells (cs : List Char) (w : ControlWord) : Prop := cs.length = 8 ∧ IsNumeral cs w

/-- A plus sign stands for the first of the eight digits. -/
def SpellsSigned (cs : List Char) (w : ControlWord) : Prop :=
  ∃ rest, cs = '+' :: rest ∧ rest.length = 7 ∧ IsNumeral rest w

/-- A line as its tokens: the words before its comment, which starts at the first mark. -/
def HasTokens (line : List Char) (ts : List (List Char)) : Prop :=
  ∃ front, HasFront "//".toList line front ∧ HasWords front ts

def Tokenized (text : String) (tss : List (List (List Char))) : Prop :=
  ∃ ls, HasLines '\n' '\r' text.toList ls ∧ List.Forall₂ HasTokens ls tss

/-- What is said of a token that is not read. It is quoted, whether its length is wrong or one of
its characters. -/
def complaint (t : List Char) : Fault :=
  if byteCount t = 8 then .notHexadecimal (String.ofList t) else .notEightDigits (String.ofList t)

/-- The first token that is no word is `t`, on line `n`. -/
def FirstOffence (Word : List Char → ControlWord → Prop) (tss : List (List (List Char))) (n : Nat)
    (t : List Char) : Prop :=
  ∃ above front rest below, tss = above ++ (front ++ t :: rest) :: below ∧ n = above.length+1 ∧
    (∀ ts ∈ above, ∀ s ∈ ts, ∃ w, Word s w) ∧ (∀ s ∈ front, ∃ w, Word s w) ∧ ¬∃ w, Word t w

/-- A text with the given tokens is read as a format of words asks: it is accepted if every token is
a word, its words are those of the tokens in order, and otherwise the first token that is no word is
quoted with the number of its line. -/
structure Decodes (Word : List Char → ControlWord → Prop) (tss : List (List (List Char)))
    (result : Except Error (List (List ControlWord))) : Prop where
  accepted : (∃ wss, result = .ok wss) ↔ ∀ ts ∈ tss, ∀ t ∈ ts, ∃ w, Word t w
  values : ∀ wss, result = .ok wss ↔ List.Forall₂ (List.Forall₂ Word) tss wss
  refused : ∀ e, result = .error e ↔ ∃ t, FirstOffence Word tss e.line t ∧ e.fault = complaint t

section Words

variable {cs : List Char} {w : ControlWord}

theorem utf8Size_of_isHexDigit {c : Char} {d : Nat} (h : IsHexDigit c d) : c.utf8Size = 1 := by
  have hd := h.lt
  rcases h with h | h
  · interval_cases d <;> cases h <;> rfl
  · interval_cases d <;> cases h <;> rfl

theorem byteCount_cons (c : Char) (cs : List Char) :
    byteCount (c :: cs) = c.utf8Size + byteCount cs := by
  simp [byteCount]

theorem IsNumeral.byteCount_eq (h : IsNumeral cs w) : byteCount cs = cs.length := by
  obtain ⟨ds,hds,-⟩ := h
  induction hds with
  | nil => rfl
  | cons hd _ ih => rw [byteCount_cons,ih,utf8Size_of_isHexDigit hd,List.length_cons,Nat.add_comm]

theorem not_isNumeral_plus (rest : List Char) (w : ControlWord) : ¬IsNumeral ('+' :: rest) w := by
  rintro ⟨ds,hds,-⟩
  obtain ⟨d,-,hd,-⟩ := List.forall₂_cons_left_iff.mp hds
  exact absurd (digit?_sixteen.mpr hd) (by simp [digit?])

theorem readDigits_sixteen_eq_some {n : Nat} : readDigits 16 cs = some n ↔
    cs ≠ [] ∧ ∃ ds, List.Forall₂ IsHexDigit cs ds ∧ Nat.ofDigits 16 ds.reverse = n := by
  by_cases hcs : cs = []
  · simp [hcs,readDigits]
  · rw [readDigits_eq_foldDigits hcs,foldDigits_eq_some]
    simp [hcs,digit?_sixteen]

theorem ofHex?_eq_some :
    ControlWord.ofHex? cs = some w ↔ dropPlus cs ≠ [] ∧ IsNumeral (dropPlus cs) w := by
  have hlimit : 1 <<< wordWidth = 2^wordWidth := Nat.one_shiftLeft _
  simp only [ControlWord.ofHex?,readNumber,hlimit,Option.map_eq_some_iff,Option.filter_eq_some_iff,
    readDigits_sixteen_eq_some,decide_eq_true_eq]
  constructor
  · rintro ⟨n,⟨⟨hne,ds,hds,hn⟩,hlt⟩,rfl⟩
    exact ⟨hne,ds,hds,by rw [hn,BitVec.toNat_ofNat,Nat.mod_eq_of_lt hlt]⟩
  · rintro ⟨hne,ds,hds,hn⟩
    exact ⟨w.toNat,⟨⟨hne,ds,hds,hn⟩,w.isLt⟩,BitVec.ofNat_toNat ..⟩

theorem readWord_eq_ok : readWord cs = .ok w ↔ Spells cs w ∨ SpellsSigned cs w := by
  have hread : readWord cs = .ok w ↔ byteCount cs = 8 ∧ ControlWord.ofHex? cs = some w := by
    by_cases hcount : byteCount cs = 8
    · cases hword : ControlWord.ofHex? cs <;> simp [readWord,hcount,hword]
    · simp [readWord,hcount]
  rw [hread,ofHex?_eq_some]
  by_cases hplus : cs.head? = some '+'
  · obtain ⟨rest,rfl⟩ := List.head?_eq_some_iff.mp hplus
    have hdrop : dropPlus ('+' :: rest) = rest := rfl
    have hsize : '+'.utf8Size = 1 := rfl
    simp only [Spells,not_isNumeral_plus,and_false,false_or,SpellsSigned,hdrop,byteCount_cons,hsize]
    constructor
    · rintro ⟨hcount,-,h⟩
      rw [h.byteCount_eq] at hcount
      exact ⟨rest,rfl,by omega,h⟩
    · rintro ⟨_,⟨rfl⟩,hlength,h⟩
      exact ⟨by rw [h.byteCount_eq,hlength],List.ne_nil_of_length_pos (by omega),h⟩
  · have hsigned : ¬SpellsSigned cs w := by
      rintro ⟨rest,rfl,-⟩
      exact hplus rfl
    rw [dropPlus_of_head?_ne hplus,or_iff_left hsigned,Spells]
    constructor
    · rintro ⟨hcount,-,h⟩
      exact ⟨h.byteCount_eq ▸ hcount,h⟩
    · rintro ⟨hlength,h⟩
      exact ⟨h.byteCount_eq.trans hlength,List.ne_nil_of_length_pos (by omega),h⟩

theorem readWord_eq_error {fault : Fault} :
    readWord cs = .error fault ↔ (¬∃ w, readWord cs = .ok w) ∧ fault = complaint cs := by
  by_cases hcount : byteCount cs = 8
  · cases hword : ControlWord.ofHex? cs <;> simp [readWord,complaint,hcount,hword,eq_comm]
  · simp [readWord,complaint,hcount,eq_comm]

end Words

section Lines

variable {text : String} {tss : List (List (List Char))}

def tokens (line : List Char) : List (List Char) := words (before "//".toList line)

theorem hasTokens_iff {line : List Char} {ts : List (List Char)} :
    HasTokens line ts ↔ tokens line = ts := by
  simp [HasTokens,tokens,hasFront_iff,hasWords_iff]

theorem tokenized_iff : Tokenized text tss ↔ (lines text).map tokens = tss := by
  have hlines (ls : List (List Char)) : HasLines '\n' '\r' text.toList ls ↔ lines text = ls :=
    hasLines_iff (by decide)
  simp only [Tokenized,hlines,exists_eq_left']
  rw [← List.forall₂_eq_eq_eq,List.forall₂_map_left_iff]
  exact forall₂_iff_of_mem fun line _ ts => hasTokens_iff

def readTokens (tss : List (List (List Char))) : Except Error (List (List ControlWord)) :=
  (tss.zipIdx 1).mapM fun (ts,n) => (ts.mapM readWord).mapError (⟨n,·⟩)

theorem read_eq_readTokens (text : String) : read text = readTokens ((lines text).map tokens) := by
  rw [read,readTokens,List.zipIdx_map,List.mapM_map]
  rfl

theorem readTokens_eq_ok {wss : List (List ControlWord)} :
    readTokens tss = .ok wss ↔ tss.mapM (·.mapM readWord) = .ok wss :=
  mapM_zipIdx_eq_ok 1 fun _ _ _ => mapError_eq_ok

theorem readTokens_eq_error {e : Error} : readTokens tss = .error e ↔
    ∃ t, FirstOffence (readWord · = .ok ·) tss e.line t ∧ e.fault = complaint t := by
  rw [readTokens,mapM_zipIdx_eq_error (g:=(·.mapM readWord)) 1 fun _ _ _ => mapError_eq_ok]
  simp only [mapError_eq_error,mapM_eq_error,readWord_eq_error,exists_mapM_eq_ok_iff]
  constructor
  · rintro ⟨above,_,below,rfl,habove,_,⟨front,t,rest,rfl,hfront,ht,rfl⟩,rfl⟩
    exact ⟨t,⟨above,front,rest,below,rfl,Nat.add_comm ..,habove,hfront,ht⟩,rfl⟩
  · rintro ⟨t,⟨above,front,rest,below,rfl,hn,habove,hfront,ht⟩,hfault⟩
    refine ⟨above,_,below,rfl,habove,_,⟨front,t,rest,rfl,hfront,ht,rfl⟩,?_⟩
    rw [Nat.add_comm,← hn,← hfault]

theorem decodes_readTokens (tss : List (List (List Char))) :
    Decodes (readWord · = .ok ·) tss (readTokens tss) := by
  refine ⟨?_,?_,fun e => readTokens_eq_error⟩
  · simp only [readTokens_eq_ok,exists_mapM_eq_ok_iff]
  · intro wss
    simp only [readTokens_eq_ok,mapM_eq_ok]

end Lines

section Formats

variable {Word Word' : List Char → ControlWord → Prop} {tss : List (List (List Char))}

theorem FirstOffence.of_iff {n : Nat} {t : List Char} (hoffence : FirstOffence Word tss n t)
    (h : ∀ ts ∈ tss, ∀ t ∈ ts, ∀ w, Word t w ↔ Word' t w) : FirstOffence Word' tss n t := by
  obtain ⟨above,front,rest,below,rfl,hn,habove,hfront,ht⟩ := hoffence
  have hline : ∀ s ∈ front ++ t :: rest, (∃ w, Word s w) ↔ ∃ w, Word' s w := by
    intro s hs
    exact exists_congr (h _ (by simp) s hs)
  refine ⟨above,front,rest,below,rfl,hn,?_,?_,?_⟩
  · intro ts hts s hs
    exact (exists_congr (h ts (by simp [hts]) s hs)).mp (habove ts hts s hs)
  · intro s hs
    exact (hline s (by simp [hs])).mp (hfront s hs)
  · exact (hline t (by simp)).not.mp ht

theorem Decodes.of_iff {result : Except Error (List (List ControlWord))}
    (hdecodes : Decodes Word tss result)
    (h : ∀ ts ∈ tss, ∀ t ∈ ts, ∀ w, Word t w ↔ Word' t w) : Decodes Word' tss result := by
  refine ⟨?_,?_,?_⟩
  · rw [hdecodes.accepted]
    exact forall₂_congr fun ts hts => forall₂_congr fun t ht => exists_congr (h ts hts t ht)
  · intro wss
    rw [hdecodes.values]
    exact forall₂_iff_of_mem fun ts hts ws => forall₂_iff_of_mem (h ts hts)
  · intro e
    rw [hdecodes.refused]
    constructor
    · rintro ⟨t,hoffence,hfault⟩
      exact ⟨t,hoffence.of_iff h,hfault⟩
    · rintro ⟨t,hoffence,hfault⟩
      exact ⟨t,hoffence.of_iff fun ts hts t ht w => (h ts hts t ht w).symm,hfault⟩

end Formats

/-- Every text has its tokens, and reading takes exactly those that are words of eight digits or
have a plus sign for the first digit. A text without such a sign is accepted exactly if each of its
tokens has eight digits. -/
theorem read_decodes (text : String) : ∃ tss, (∀ tss', Tokenized text tss' ↔ tss = tss') ∧
    Decodes (fun t w => Spells t w ∨ SpellsSigned t w) tss (read text) ∧
    ((∀ ts ∈ tss, ∀ t ∈ ts, ¬∃ w, SpellsSigned t w) → Decodes Spells tss (read text)) := by
  have hread := decodes_readTokens ((lines text).map tokens)
  rw [← read_eq_readTokens] at hread
  refine ⟨_,fun tss' => tokenized_iff,hread.of_iff fun ts _ t _ w => readWord_eq_ok,?_⟩
  intro hsigned
  apply hread.of_iff
  intro ts hts t ht w
  rw [readWord_eq_ok,or_iff_left]
  intro h
  exact hsigned ts hts t ht ⟨w,h⟩

def shortWord : String := "DEADBEEF 00000001 // +0000001\r\n\t0000002 xyz"

theorem read_decodes_shortWord : read shortWord = .error ⟨2,.notEightDigits "0000002"⟩ ∧
    ∃ t, FirstOffence Spells
      [["DEADBEEF".toList,"00000001".toList],["0000002".toList,"xyz".toList]] 2 t ∧
      .notEightDigits "0000002" = complaint t := by
  have herror : read shortWord = .error ⟨2,.notEightDigits "0000002"⟩ := by decide
  obtain ⟨tss,htokens,-,hplain⟩ := read_decodes shortWord
  obtain rfl : tss = [["DEADBEEF".toList,"00000001".toList],["0000002".toList,"xyz".toList]] :=
    (htokens _).mp (tokenized_iff.mpr (by decide))
  have hdecodes := hplain (by simp [SpellsSigned])
  exact ⟨herror,(hdecodes.refused _).mp herror⟩

/-- A plus sign and seven digits are read, though the format has no sign. -/
theorem read_takes_plus_sign : Tokenized "+0000001" [["+0000001".toList]] ∧
    read "+0000001" = .ok [[1#32]] ∧ ¬Decodes Spells [["+0000001".toList]] (read "+0000001") := by
  have hread : read "+0000001" = .ok [[1#32]] := by decide
  refine ⟨tokenized_iff.mpr (by decide),hread,?_⟩
  intro hdecodes
  obtain ⟨w,hw⟩ := hdecodes.accepted.mp ⟨_,hread⟩ _ (List.mem_singleton_self _) _
    (List.mem_singleton_self _)
  exact not_isNumeral_plus _ w hw.2

end Image
end ControlStore
