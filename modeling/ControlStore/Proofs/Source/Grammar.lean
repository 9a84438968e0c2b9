import ControlStore.Proofs.Source.Moves
import ControlStore.Proofs.Text.Layout

/-! The grammar of the source format, line by line. A line is text in UTF-8; what it says follows
from its content, without regard to the other lines. Reading a line succeeds exactly when the
grammar gives it a meaning, and finds that meaning. -/
namespace ControlStore

open Checks Text

section Bytes

theorem toList_loop (bytes : ByteArray) (i : Nat) (acc : List UInt8) :
    ByteArray.toList.loop bytes i acc = acc.reverse ++ bytes.data.toList.drop i := by
  fun_induction ByteArray.toList.loop bytes i acc with
  | case1 i acc h ih =>
    have hi : i < bytes.data.toList.length := h
    rw [ih,List.drop_eq_getElem_cons hi]
    simp [ByteArray.get!,h]
  | case2 i acc h =>
    have hi : bytes.data.toList.length ≤ i := Nat.le_of_not_lt h
    rw [List.drop_eq_nil_of_le hi,List.append_nil]

theorem toList_eq_data_toList (bytes : ByteArray) : bytes.toList = bytes.data.toList := by
  rw [ByteArray.toList,toList_loop]
  simp

theorem fromUTF8?_eq_some {bytes : ByteArray} {text : String} :
    String.fromUTF8? bytes = some text ↔ bytes = text.toUTF8 := by
  rw [String.fromUTF8?]
  split
  · rw [Option.some.injEq]
    constructor
    · rintro rfl
      rfl
    · rintro rfl
      rfl
  · rename_i hvalid
    constructor
    · intro h
      cases h
    · rintro rfl
      exact absurd text.isValidUTF8 hvalid

theorem toByteArray_eq_iff {bytes : List UInt8} {array : ByteArray} :
    bytes.toByteArray = array ↔ bytes = array.toList := by
  rw [toList_eq_data_toList]
  constructor
  · rintro rfl
    exact List.toList_data_toByteArray.symm
  · rintro rfl
    exact ByteArray.ext (Array.ext' List.toList_data_toByteArray)

theorem Source.decodeLine_eq_ok {bytes : List UInt8} {text : String} :
    Source.decodeLine bytes = .ok text ↔ bytes = text.toUTF8.toList := by
  rw [← toByteArray_eq_iff,← fromUTF8?_eq_some,decodeLine]
  split <;> simp_all

end Bytes

namespace Source

inductive Clause
  | blank
  | declare (ds : List Declaration)
  | reset (name : String)
  | program (name : String)
  | step (step : Step)
  deriving DecidableEq, Repr

/-- A term of a declaration: an identifier, which decimal digits of a bit may follow behind a
colon. -/
inductive IsTerm : List Char → Declaration → Prop
  | bare {name : String} (hname : isIdentifier name = true) : IsTerm name.toList ⟨name,none⟩
  | placed {name : String} {digits : List Char} (hname : isIdentifier name = true)
      (hne : digits ≠ []) (hdigits : ∀ c ∈ digits, c.isDigit = true)
      (hlt : Nat.ofDigitChars 10 digits 0 < 2^32) :
      IsTerm (name.toList ++ ':' :: digits) ⟨name,some (Nat.ofDigitChars 10 digits 0)⟩

/-- What the content of a line says. -/
inductive Says : List Char → Clause → Prop
  | blank : Says [] .blank
  | declare {cs : List Char} {ws : List (List Char)} {ds : List Declaration}
      (hwords : HasWords cs ws) (hne : ws ≠ []) (hterms : List.Forall₂ IsTerm ws ds) :
      Says ('@' :: cs) (.declare ds)
  | reset {cs : List Char} {name : String} (hwords : HasWords cs [name.toList])
      (hname : isIdentifier name = true) : Says ('!' :: cs) (.reset name)
  | program {cs : List Char} {name : String} (hwords : HasWords cs [name.toList])
      (hname : isIdentifier name = true) : Says (':' :: cs) (.program name)
  | step {cs : List Char} {step : Step} (hwords : HasWords cs (step.map String.toList))
      (hnames : ∀ name ∈ step, isIdentifier name = true) : Says ('=' :: cs) (.step step)

def LineSays (line : String) (c : Clause) : Prop :=
  ∃ cs, HasContent line.toList cs ∧ Says cs c

def TextSays (line : Except ReadFault String) (c : Clause) : Prop :=
  ∃ text, line = .ok text ∧ LineSays text c

/-- What a source says: its lines are text, and each of them says something. -/
def Spells (bytes : ByteArray) (clauses : List Clause) : Prop :=
  ∃ lines : List String, HasLines 10 13 bytes.toList (lines.map fun line => line.toUTF8.toList) ∧
    List.Forall₂ LineSays lines clauses

section Terms

variable {term : String} {d : Declaration}

theorem isTerm_of_read (h : Declaration.read term = .ok d) : IsTerm term.toList d := by
  rw [Declaration.read] at h
  split at h
  · obtain ⟨u,hname,hd⟩ := bind_eq_ok.mp h
    cases hd
    exact .bare (checkName_eq_ok.mp hname)
  · rename_i name digits hcut
    split at h
    · cases h
    · rename_i bit hbit
      obtain ⟨u,hname,hd⟩ := bind_eq_ok.mp h
      cases hd
      obtain ⟨hread,hlt⟩ := Option.filter_eq_some_iff.mp hbit
      obtain ⟨hne,hdigits,rfl⟩ := readDigits_ten_eq_some.mp hread
      have hterm := IsTerm.placed (checkName_eq_ok.mp hname) hne hdigits (of_decide_eq_true hlt)
      rwa [String.toList_ofList,← (cut_eq_some_iff.mp hcut).1] at hterm

theorem read_of_isTerm (h : IsTerm term.toList d) : Declaration.read term = .ok d := by
  generalize hterm : term.toList = cs at h
  cases h with
  | @bare name hname =>
    have hcut : cut ':' name.toList = none :=
      cut_eq_none (not_mem_of_isIdentifier hname (by decide))
    rw [Declaration.read,hterm,hcut,String.toList_inj.mp hterm]
    exact bind_eq_ok.mpr ⟨(),checkName_eq_ok.mpr hname,rfl⟩
  | @placed name digits hname hne hdigits hlt =>
    have hcut : cut ':' (name.toList ++ ':' :: digits) = some (name.toList,digits) :=
      cut_append_cons (not_mem_of_isIdentifier hname (by decide))
    have hbit : (readDigits 10 digits).filter (· < bitLimit) =
        some (Nat.ofDigitChars 10 digits 0) :=
      Option.filter_eq_some_iff.mpr
        ⟨readDigits_ten_eq_some.mpr ⟨hne,hdigits,rfl⟩,decide_eq_true hlt⟩
    rw [Declaration.read,hterm,hcut]
    simp only [hbit,String.ofList_toList]
    exact bind_eq_ok.mpr ⟨(),checkName_eq_ok.mpr hname,rfl⟩

end Terms

section Lines

variable {cs : List Char} {line : String} {c : Clause}

theorem hasWords_map_toList {ws : List String} :
    HasWords cs (ws.map String.toList) ↔ names cs = ws := by
  rw [hasWords_iff,names]
  constructor
  · intro h
    simp [h]
  · rintro rfl
    simp [Function.comp_def]

theorem singleName_eq_ok {marker : Marker} {kind : NameKind} {name : String} :
    singleName marker kind cs = .ok name ↔
      HasWords cs [name.toList] ∧ isIdentifier name = true := by
  have hwords : HasWords cs [name.toList] ↔ names cs = [name] := by
    rw [← hasWords_map_toList]
    rfl
  rw [hwords,singleName]
  split
  · rename_i hnames
    simp [hnames]
  · rename_i word hnames
    rw [hnames,List.singleton_inj,bind_eq_ok]
    constructor
    · rintro ⟨u,hcheck,hname⟩
      cases hname
      exact ⟨rfl,checkName_eq_ok.mp hcheck⟩
    · rintro ⟨rfl,hname⟩
      exact ⟨(),checkName_eq_ok.mpr hname,rfl⟩
  · rename_i hseveral
    constructor
    · intro h
      cases h
    · rintro ⟨hnames,-⟩
      exact absurd hnames (hseveral name)

/-- What a statement says once its terms are read. -/
def Statement.clause : Statement → Except Fault Clause
  | .blank => .ok .blank
  | .declare terms => .declare <$> terms.mapM Declaration.read
  | .reset name => .ok (.reset name)
  | .program name => .ok (.program name)
  | .step signals => .ok (.step signals)

theorem says_of_read {statement : Statement} (hread : Statement.read line = .ok statement)
    (hclause : statement.clause = .ok c) : Says (content line) c := by
  rw [Statement.read] at hread
  split at hread
  · rename_i hcontent
    cases hread
    cases hclause
    rw [hcontent]
    exact .blank
  · rename_i cs hcontent
    split at hread
    · cases hread
    · rename_i hne
      cases hread
      obtain ⟨ds,hds,rfl⟩ := map_eq_ok.mp hclause
      rw [hcontent]
      refine .declare (hasWords_map_toList.mpr rfl) (by simpa using hne) ?_
      exact List.forall₂_map_left_iff.mpr ((mapM_eq_ok.mp hds).imp fun _ _ => isTerm_of_read)
  · rename_i cs hcontent
    obtain ⟨name,hname,rfl⟩ := map_eq_ok.mp hread
    cases hclause
    obtain ⟨hwords,hid⟩ := singleName_eq_ok.mp hname
    rw [hcontent]
    exact .reset hwords hid
  · rename_i cs hcontent
    obtain ⟨name,hname,rfl⟩ := map_eq_ok.mp hread
    cases hclause
    obtain ⟨hwords,hid⟩ := singleName_eq_ok.mp hname
    rw [hcontent]
    exact .program hwords hid
  · rename_i cs hcontent
    obtain ⟨u,hnames,hstep⟩ := bind_eq_ok.mp hread
    cases hstep
    cases hclause
    rw [hcontent]
    refine .step (hasWords_map_toList.mpr rfl) fun name hname => ?_
    exact checkName_eq_ok.mp (forM_eq_ok.mp hnames name hname)
  · cases hread

theorem exists_read_of_says (h : Says (content line) c) :
    ∃ statement, Statement.read line = .ok statement ∧ statement.clause = .ok c := by
  generalize hcontent : content line = cs at h
  cases h with
  | blank => exact ⟨.blank,by rw [Statement.read,hcontent],rfl⟩
  | @declare cs ws ds hwords hne hterms =>
    have hnames : names cs = ws.map String.ofList := by rw [names,hasWords_iff.mp hwords]
    have hds : (ws.map String.ofList).mapM Declaration.read = .ok ds := by
      refine mapM_eq_ok.mpr (List.forall₂_map_left_iff.mpr (hterms.imp fun w d hterm => ?_))
      exact read_of_isTerm (by rwa [String.toList_ofList])
    refine ⟨.declare (ws.map String.ofList),?_,map_eq_ok.mpr ⟨ds,hds,rfl⟩⟩
    rw [Statement.read,hcontent]
    simp only [hnames]
    cases ws with
    | nil => exact absurd rfl hne
    | cons w ws => rfl
  | reset hwords hname =>
    refine ⟨.reset _,?_,rfl⟩
    rw [Statement.read,hcontent]
    exact map_eq_ok.mpr ⟨_,singleName_eq_ok.mpr ⟨hwords,hname⟩,rfl⟩
  | program hwords hname =>
    refine ⟨.program _,?_,rfl⟩
    rw [Statement.read,hcontent]
    exact map_eq_ok.mpr ⟨_,singleName_eq_ok.mpr ⟨hwords,hname⟩,rfl⟩
  | step hwords hnames =>
    obtain rfl := hasWords_map_toList.mp hwords
    refine ⟨.step _,?_,rfl⟩
    rw [Statement.read,hcontent]
    refine bind_eq_ok.mpr ⟨(),forM_eq_ok.mpr fun name hname => ?_,rfl⟩
    exact checkName_eq_ok.mpr (hnames name hname)

/-- A line is read exactly when it says something, and as what it says. -/
theorem lineSays_iff : LineSays line c ↔
    ∃ statement, Statement.read line = .ok statement ∧ statement.clause = .ok c := by
  constructor
  · rintro ⟨cs,hcontent,hsaid⟩
    rw [← hasContent_iff.mp hcontent] at hsaid
    exact exists_read_of_says hsaid
  · rintro ⟨statement,hread,hclause⟩
    exact ⟨content line,hasContent_iff.mpr rfl,says_of_read hread hclause⟩

theorem exists_map_eq_of_forall₂ {α β γ : Type} {f : γ → α} {R : γ → β → Prop} {xs : List α}
    {ys : List β} (h : List.Forall₂ (fun x y => ∃ z, x = f z ∧ R z y) xs ys) :
    ∃ zs, xs = zs.map f ∧ List.Forall₂ R zs ys := by
  induction h with
  | nil => exact ⟨[],rfl,.nil⟩
  | cons hxy hrest ih =>
    obtain ⟨z,rfl,hz⟩ := hxy
    obtain ⟨zs,rfl,hzs⟩ := ih
    exact ⟨z :: zs,rfl,.cons hz hzs⟩

/-- The lines of a source are found, and each is read, exactly when the source spells something
out. -/
theorem spells_iff {bytes : ByteArray} {clauses : List Clause} :
    Spells bytes clauses ↔ List.Forall₂ TextSays (decodeLines bytes) clauses := by
  rw [decodeLines,byteLines,List.forall₂_map_left_iff]
  constructor
  · rintro ⟨lines,hlines,hsaid⟩
    rw [(hasLines_iff (by decide)).mp hlines,List.forall₂_map_left_iff]
    exact hsaid.imp fun text c htext => ⟨text,decodeLine_eq_ok.mpr rfl,htext⟩
  · intro h
    simp only [TextSays,decodeLine_eq_ok] at h
    obtain ⟨lines,hlines,hsaid⟩ := exists_map_eq_of_forall₂ h
    exact ⟨lines,(hasLines_iff (by decide)).mpr hlines,hsaid⟩

end Lines

end Source
end ControlStore
