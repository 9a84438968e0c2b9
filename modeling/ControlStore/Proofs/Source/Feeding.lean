import ControlStore.Proofs.Source.Grammar

/-! How a source reaches a reader. A text has the same lines whether it is cut before it is written
in UTF-8 or after, and a source that is cut at the end of a line may be fed in pieces: the lines of
the pieces are the lines of the whole, and reading stops at the same one. -/
namespace ControlStore

open Checks Text

namespace Text

section Append

variable {α : Type} {newline ret : α} {xs ys : List α} {ls ls' : List (List α)}

/-- A sequence ends with a line: it is empty, or its last element is a newline. -/
def EndsLine (newline : α) (xs : List α) : Prop := ∀ x ∈ xs.getLast?, x = newline

theorem EndsLine.right {x : α} (h : EndsLine newline (xs ++ x :: ys)) : EndsLine newline ys := by
  intro y hy
  apply h
  simp [List.getLast?_cons,Option.mem_def.mp hy]

theorem HasLines.append (h : HasLines newline ret xs ls) (hxs : EndsLine newline xs)
    (h' : HasLines newline ret ys ls') : HasLines newline ret (xs ++ ys) (ls ++ ls') := by
  induction h with
  | none => exact h'
  | @unended line hne hline =>
    have hlast := hxs _ (List.getLast?_eq_some_getLast hne)
    exact absurd (hlast ▸ List.getLast_mem hne) hline
  | @newline line rest ls hline hret _ ih =>
    rw [List.append_assoc,List.cons_append,List.cons_append]
    exact .newline hline hret (ih hxs.right)
  | @ret line rest ls hline _ ih =>
    rw [List.append_assoc,List.cons_append,List.cons_append,List.cons_append]
    rw [List.append_cons] at hxs
    exact .ret hline (ih hxs.right)

theorem linesWith_append [DecidableEq α] (hne : newline ≠ ret) (hxs : EndsLine newline xs) :
    linesWith newline ret (xs ++ ys) = linesWith newline ret xs ++ linesWith newline ret ys :=
  (hasLines_iff hne).mp
    ((hasLines_linesWith newline ret xs).append hxs (hasLines_linesWith newline ret ys))

end Append

section Encode

variable {c : Char} {cs : List Char} {ls : List (List Char)}

theorem utf8EncodeChar_cases (c : Char) :
    c.toNat < 128 ∧ String.utf8EncodeChar c = [UInt8.ofNat c.toNat] ∨
      128 ≤ c.toNat ∧ ∀ x ∈ String.utf8EncodeChar c, 128 ≤ x.toNat := by
  have hval : c.val.toNat = c.toNat := rfl
  rw [String.utf8EncodeChar]
  simp only [hval]
  by_cases hascii : c.toNat ≤ 127
  · exact .inl ⟨by omega,if_pos hascii⟩
  · refine .inr ⟨by omega,?_⟩
    rw [if_neg hascii]
    split_ifs <;> simp <;> omega

theorem utf8EncodeChar_ne_nil (c : Char) : String.utf8EncodeChar c ≠ [] := by
  rw [String.utf8EncodeChar]
  split_ifs <;> simp

/-- The byte of an ASCII character occurs in the bytes of this character alone. -/
theorem mem_utf8EncodeChar {x : UInt8} (hx : x.toNat < 128) :
    x ∈ String.utf8EncodeChar c ↔ c.toNat = x.toNat := by
  rcases utf8EncodeChar_cases c with ⟨hc,hbytes⟩ | ⟨hc,hbytes⟩
  · rw [hbytes,List.mem_singleton,← UInt8.toNat_inj,UInt8.toNat_ofNat']
    omega
  · constructor
    · intro hmem
      have := hbytes x hmem
      omega
    · intro heq
      omega

/-- Writing in UTF-8 keeps the lines of a text apart. -/
theorem HasLines.utf8 (h : HasLines '\n' '\r' cs ls) :
    HasLines 10 13 (cs.flatMap String.utf8EncodeChar)
      (ls.map fun l => l.flatMap String.utf8EncodeChar) := by
  have hnewline : String.utf8EncodeChar '\n' = [10] := by decide
  have hreturn : String.utf8EncodeChar '\r' = [13] := by decide
  have hmem {line : List Char} (hline : '\n' ∉ line) :
      (10 : UInt8) ∉ line.flatMap String.utf8EncodeChar := by
    intro hten
    obtain ⟨c,hc,hten⟩ := List.mem_flatMap.mp hten
    have hval : c.toNat = '\n'.toNat := (mem_utf8EncodeChar (by decide)).mp hten
    exact hline (Char.toNat_inj.mp hval ▸ hc)
  induction h with
  | none => exact .none
  | @unended line hne hline =>
    refine .unended ?_ (hmem hline)
    intro hnil
    obtain ⟨c,rest,rfl⟩ := List.exists_cons_of_ne_nil hne
    exact utf8EncodeChar_ne_nil c (List.flatMap_eq_nil_iff.mp hnil c (by simp))
  | @newline line rest ls hline hret _ ih =>
    rw [List.flatMap_append,List.flatMap_cons,hnewline]
    refine .newline (hmem hline) ?_ ih
    -- the last byte is one of the last character, which is no return
    rcases List.eq_nil_or_concat' line with rfl | ⟨front,c,rfl⟩
    · simp
    · rw [List.flatMap_append,List.flatMap_singleton,
        List.getLast?_append_of_ne_nil _ (utf8EncodeChar_ne_nil c)]
      intro hlast
      have hval : c.toNat = '\r'.toNat :=
        (mem_utf8EncodeChar (by decide)).mp (List.mem_of_getLast? hlast)
      exact hret (by simp [Char.toNat_inj.mp hval])
  | @ret line rest ls hline _ ih =>
    rw [List.flatMap_append,List.flatMap_cons,List.flatMap_cons,hnewline,hreturn]
    exact .ret (hmem hline) ih

end Encode

end Text

namespace Source

theorem toList_toUTF8 (text : String) :
    text.toUTF8.toList = text.toList.flatMap String.utf8EncodeChar := by
  refine (toByteArray_eq_iff.mp ?_).symm
  calc text.toList.utf8Encode = (String.ofList text.toList).toByteArray :=
        String.toByteArray_ofList.symm
    _ = text.toUTF8 := by rw [String.ofList_toList,String.toUTF8]

theorem decodeLines_toUTF8 (text : String) :
    decodeLines text.toUTF8 = (Text.lines text).map fun l => .ok (String.ofList l) := by
  have hlines : byteLines text.toUTF8.toList =
      (Text.lines text).map fun l => (String.ofList l).toUTF8.toList := by
    simp only [toList_toUTF8,String.toList_ofList]
    exact (hasLines_iff (by decide)).mp (hasLines_linesWith '\n' '\r' text.toList).utf8
  rw [decodeLines,hlines,List.map_map]
  exact List.map_congr_left fun l _ => decodeLine_eq_ok.mpr rfl

theorem decodeLines_append {a b : ByteArray} (ha : EndsLine 10 a.toList) :
    decodeLines (a ++ b) = decodeLines a ++ decodeLines b := by
  have hbytes : (a ++ b).toList = a.toList ++ b.toList := by
    simp [toList_eq_data_toList,ByteArray.data_append]
  rw [decodeLines,hbytes,byteLines,linesWith_append (by decide) ha,List.map_append]
  rfl

namespace Reader

/-- Lines are read up to the first that is refused, and those behind it only if none is. -/
theorem readLines_append (r : Reader) (front rest : List (Except ReadFault String)) :
    r.readLines (front ++ rest) =
      match r.readLines front with
      | (r',.error e) => (r',.error e)
      | (r',.ok ()) => r'.readLines rest := by
  induction front generalizing r with
  | nil => rfl
  | cons line front ih =>
    rw [List.cons_append,readLines,readLines]
    cases r.readLine line with
    | mk r' result =>
      cases result with
      | error e => rfl
      | ok u => exact ih r'

/-- A source that is cut at the end of a line is read alike in pieces and as a whole. If the first
piece is accepted, the second decides, from the state that the first leaves; if it is refused, the
second does not matter. -/
theorem feed_append (r : Reader) (a b : ByteArray) (ha : EndsLine 10 a.toList) :
    (∀ r', r.feed a = (r',.ok ()) → r.feed (a ++ b) = r'.feed b) ∧
      ∀ r' e, r.feed a = (r',.error e) → r.feed (a ++ b) = (r',.error e) := by
  have hfeed : r.feed (a ++ b) =
      match r.feed a with
      | (r',.error e) => (r',.error e)
      | (r',.ok ()) => r'.feed b := by
    rw [feed,decodeLines_append ha,readLines_append]
    rfl
  constructor
  · intro r' h
    rw [hfeed,h]
  · intro r' e h
    rw [hfeed,h]

/-- A declaration that is refused in the second piece is refused under its line of the whole, after
its first term was taken in; and nothing is read behind an unknown marker. -/
theorem feed_append_halves :
    (∃ r r', feed {} "@ a b:7\r\n! b\n".toUTF8 = (r,.ok ()) ∧
      r.feed "@ c a".toUTF8 = (r',.error ⟨3,.registration (.nameTaken "a")⟩) ∧
      feed {} ("@ a b:7\r\n! b\n".toUTF8 ++ "@ c a".toUTF8) =
        (r',.error ⟨3,.registration (.nameTaken "a")⟩)) ∧
    ∃ r, feed {} "@ a\n? b\n".toUTF8 = (r,.error ⟨2,.malformed (.unknownMarker '?')⟩) ∧
      feed {} ("@ a\n? b\n".toUTF8 ++ ": p".toUTF8) =
        (r,.error ⟨2,.malformed (.unknownMarker '?')⟩) := by
  have hends (text : String) (h : text.toList.getLast? = some '\n') :
      EndsLine 10 text.toUTF8.toList := by
    obtain ⟨front,hfront⟩ := List.getLast?_eq_some_iff.mp h
    intro x hx
    have hten : String.utf8EncodeChar '\n' = [10] := by decide
    rw [toList_toUTF8,hfront,List.flatMap_append,List.flatMap_singleton,hten] at hx
    simpa using hx.symm
  have hsecond : ∃ r r', feed {} "@ a b:7\r\n! b\n".toUTF8 = (r,.ok ()) ∧
      r.feed "@ c a".toUTF8 = (r',.error ⟨3,.registration (.nameTaken "a")⟩) := by
    simp only [feed,decodeLines_toUTF8]
    exact ⟨_,_,rfl,rfl⟩
  have hfirst : ∃ r, feed {} "@ a\n? b\n".toUTF8 =
      (r,.error ⟨2,.malformed (.unknownMarker '?')⟩) := by
    simp only [feed,decodeLines_toUTF8]
    exact ⟨_,rfl⟩
  obtain ⟨r,r',hread,hrefused⟩ := hsecond
  obtain ⟨r₁,hstop⟩ := hfirst
  refine ⟨⟨r,r',hread,hrefused,?_⟩,r₁,hstop,?_⟩
  · rw [(feed_append {} _ _ (hends _ (by decide))).1 r hread,hrefused]
  · exact (feed_append {} _ _ (hends _ (by decide))).2 r₁ _ hstop

end Reader

end Source
end ControlStore
