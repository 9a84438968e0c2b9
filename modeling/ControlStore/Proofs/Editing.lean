import ControlStore.Proofs.Defects
import ControlStore.Proofs.Source.History

/-! What a catalog holds after any history of edits. Programs stand in the order in which they were
pushed, under distinct names, and only the last of them grows. Because names are distinct, looking
for the first program of a name finds the only one, and a look at the first program is enough to
judge where the prologue stands. -/
namespace ControlStore

/-- A change to a catalog: a program is pushed, or a step is appended to the program pushed last. -/
inductive Edit
  | push (p : Program)
  | append (step : Step)

namespace Catalog

/-- The catalog after an edit. A push that is refused leaves it as it was. -/
def edit (c : Catalog) : Edit → Catalog
  | .push p =>
    match c.push p with
    | .ok c' => c'
    | .error _ => c
  | .append step => c.appendStep step

def editAll (c : Catalog) (es : List Edit) : Catalog := es.foldl edit c

/-- The name of the program that an edit brings in, if it does. -/
def brings (c : Catalog) : Edit → List String
  | .push p => if (c.push p).isOk then [p.name] else []
  | .append _ => []

def pushed (c : Catalog) : List Edit → List String
  | [] => []
  | e :: es => c.brings e ++ (c.edit e).pushed es

section Edit

variable (c : Catalog)

theorem push_cases (p : Program) :
    (p.name ∈ c.programs.map (·.name) ∧ c.push p = .error (.duplicateProgram p.name)) ∨
      p.name ∉ c.programs.map (·.name) ∧ ∃ c', c.push p = .ok c' ∧
        c'.programs = c.programs ++ [p] := by
  by_cases h : p.name ∈ c.programs.map (·.name)
  · exact .inl ⟨h,by rw [push,dif_pos h]⟩
  · exact .inr ⟨h,_,by rw [push,dif_neg h],rfl⟩

theorem append_cases (step : Step) :
    (c.programs = [] ∧ c.appendStep step = c) ∨
      ∃ front p, c.programs = front ++ [p] ∧
        (c.appendStep step).programs = front ++ [{ p with steps := p.steps ++ [step] }] := by
  rcases List.eq_nil_or_concat' c.programs with hnil | ⟨front,p,hlast⟩
  · refine .inl ⟨hnil,?_⟩
    cases c
    cases hnil
    rfl
  · exact .inr ⟨front,p,hlast,programs_appendStep hlast step⟩

theorem map_name_edit (e : Edit) :
    (c.edit e).programs.map (·.name) = c.programs.map (·.name) ++ c.brings e := by
  cases e with
  | push p =>
    rcases c.push_cases p with ⟨-,h⟩ | ⟨-,c',h,hprograms⟩
    · simp [edit,brings,h,Except.isOk,Except.toBool]
    · simp [edit,brings,h,hprograms,Except.isOk,Except.toBool]
  | append step => simp [edit,brings,appendStep]

theorem map_name_editAll (es : List Edit) :
    (c.editAll es).programs.map (·.name) = c.programs.map (·.name) ++ c.pushed es := by
  induction es generalizing c with
  | nil => simp [editAll,pushed]
  | cons e es ih =>
    have hcons : c.editAll (e :: es) = (c.edit e).editAll es := rfl
    rw [hcons,ih,map_name_edit,pushed,List.append_assoc]

theorem editAll_concat (es : List Edit) (e : Edit) :
    c.editAll (es ++ [e]) = (c.editAll es).edit e := by
  rw [editAll,List.foldl_append]
  rfl

end Edit

/-- The program at position `i` has the name, and no other has it. -/
structure OnlyAt (c : Catalog) (name : String) (i : Nat) (p : Program) : Prop where
  here : c.programs[i]? = some p
  named : p.name = name
  only : ∀ j q, c.programs[j]? = some q → q.name = name → j = i

section Names

variable {c : Catalog} {name : String} {i : Nat} {p : Program}

theorem onlyAt_of_getElem? (h : c.programs[i]? = some p) : c.OnlyAt p.name i p where
  here := h
  named := rfl
  only j q hq hname := by
    have hi : (c.programs.map (·.name))[i]? = some p.name := by simp [h]
    have hj : (c.programs.map (·.name))[j]? = some p.name := by simp [hq,hname]
    have hlt : j < (c.programs.map (·.name)).length := (List.getElem?_eq_some_iff.mp hj).1
    exact (List.getElem?_inj hlt c.names_nodup).mp (hj.trans hi.symm)

theorem exists_onlyAt_of_mem (h : p ∈ c.programs) : ∃ i, c.OnlyAt p.name i p := by
  obtain ⟨i,hi⟩ := List.mem_iff_getElem?.mp h
  exact ⟨i,onlyAt_of_getElem? hi⟩

theorem get?_eq_none_iff : c.get? name = none ↔ ∀ p ∈ c.programs, p.name ≠ name := by
  simp [get?]

theorem get?_eq_some_iff : c.get? name = some p ↔ ∃ i, c.OnlyAt name i p := by
  constructor
  · intro h
    have hname : p.name = name := by simpa using List.find?_some h
    exact hname ▸ exists_onlyAt_of_mem (List.mem_of_find?_eq_some h)
  · rintro ⟨i,hp⟩
    cases hget : c.get? name with
    | none => exact absurd hp.named (get?_eq_none_iff.mp hget p (List.mem_of_getElem? hp.here))
    | some q =>
      obtain ⟨j,hj⟩ := List.mem_iff_getElem?.mp (List.mem_of_find?_eq_some hget)
      have hji := hp.only j q hj (by simpa using List.find?_some hget)
      rw [← hj,hji,hp.here]

end Names

section Validate

variable {c : Catalog}

theorem validate_eq_ok_iff_onlyAt : c.validate = .ok () ↔ ∃ p, c.OnlyAt fetchName 0 p := by
  rw [validate_eq_ok_iff,Option.map_eq_some_iff,List.head?_eq_getElem?]
  constructor
  · rintro ⟨p,hp,hname⟩
    exact ⟨p,hname ▸ onlyAt_of_getElem? hp⟩
  · rintro ⟨p,hp⟩
    exact ⟨p,hp.here,hp.named⟩

theorem validate_eq_fetchNotFirst_iff {first : String} :
    c.validate = .error (.fetchNotFirst first) ↔
      c.programs.head?.map (·.name) = some first ∧ ∃ i p, 0 < i ∧ c.OnlyAt fetchName i p := by
  rw [validate_eq_error_iff]
  constructor
  · rintro (⟨-,h⟩ | ⟨q,rest,hprograms,-,⟨p,hp,hname⟩,h⟩)
    · cases h
    · cases h
      obtain ⟨k,hk⟩ := List.mem_iff_getElem?.mp hp
      have hat : c.programs[k+1]? = some p := by rw [hprograms,List.getElem?_cons_succ,hk]
      exact ⟨by rw [hprograms]; rfl,k+1,p,k.succ_pos,hname ▸ onlyAt_of_getElem? hat⟩
  · rintro ⟨hfirst,i,p,hi,hp⟩
    obtain ⟨q,hq,rfl⟩ := Option.map_eq_some_iff.mp hfirst
    obtain ⟨rest,hprograms⟩ := List.head?_eq_some_iff.mp hq
    obtain ⟨k,rfl⟩ := Nat.exists_eq_succ_of_ne_zero hi.ne'
    have hat := hp.here
    rw [hprograms,List.getElem?_cons_succ] at hat
    have hother : q.name ≠ fetchName := by
      intro hname
      exact absurd (hp.only 0 q (by rw [hprograms]; rfl) hname) k.succ_ne_zero.symm
    exact .inr ⟨q,rest,hprograms,hother,⟨p,List.mem_of_getElem? hat,hp.named⟩,rfl⟩

theorem validate_eq_missingFetch_iff :
    c.validate = .error .missingFetch ↔ ∀ p ∈ c.programs, p.name ≠ fetchName := by
  rw [validate_eq_error_iff]
  constructor
  · rintro (⟨h,-⟩ | ⟨q,rest,-,-,-,h⟩)
    · exact h
    · cases h
  · intro h
    exact .inl ⟨h,rfl⟩

end Validate

/-- A catalog answers by the only program of a name, and its verdict tells where the prologue
stands: first, later, or nowhere. -/
structure Answers (c : Catalog) : Prop where
  get_some : ∀ name p, c.get? name = some p ↔ ∃ i, c.OnlyAt name i p
  get_none : ∀ name, c.get? name = none ↔ ∀ p ∈ c.programs, p.name ≠ name
  fetch_first : c.validate = .ok () ↔ ∃ p, c.OnlyAt fetchName 0 p
  fetch_later : ∀ first, c.validate = .error (.fetchNotFirst first) ↔
    c.programs.head?.map (·.name) = some first ∧ ∃ i p, 0 < i ∧ c.OnlyAt fetchName i p
  fetch_nowhere : c.validate = .error .missingFetch ↔ ∀ p ∈ c.programs, p.name ≠ fetchName

theorem answers (c : Catalog) : c.Answers where
  get_some _ _ := get?_eq_some_iff
  get_none _ := get?_eq_none_iff
  fetch_first := validate_eq_ok_iff_onlyAt
  fetch_later _ := validate_eq_fetchNotFirst_iff
  fetch_nowhere := validate_eq_missingFetch_iff

/-- After any history of edits the programs have the names that were pushed with success, in this
order and all distinct. The next push adds its program at the end, or is refused for a name in use
and changes nothing; the next append adds its step at the end of the last program. In every such
state names are looked up, and the prologue is found in its place or missed. -/
theorem editAll_in_order (es : List Edit) :
    (empty.editAll es).programs.map (·.name) = empty.pushed es ∧ (empty.pushed es).Nodup ∧
    (∀ p, (p.name ∈ empty.pushed es ∧
          (empty.editAll es).push p = .error (.duplicateProgram p.name) ∧
          empty.editAll (es ++ [.push p]) = empty.editAll es) ∨
        p.name ∉ empty.pushed es ∧
          (empty.editAll es).push p = .ok (empty.editAll (es ++ [.push p])) ∧
          (empty.editAll (es ++ [.push p])).programs = (empty.editAll es).programs ++ [p]) ∧
    (∀ step, ((empty.editAll es).programs = [] ∧
          empty.editAll (es ++ [.append step]) = empty.editAll es) ∨
        ∃ front p, (empty.editAll es).programs = front ++ [p] ∧
          (empty.editAll (es ++ [.append step])).programs =
            front ++ [{ p with steps := p.steps ++ [step] }]) ∧
    (empty.editAll es).Answers := by
  have hnames : (empty.editAll es).programs.map (·.name) = empty.pushed es :=
    map_name_editAll empty es
  refine ⟨hnames,hnames ▸ (empty.editAll es).names_nodup,fun p => ?_,fun step => ?_,answers _⟩
  · rw [editAll_concat,edit,← hnames]
    rcases (empty.editAll es).push_cases p with ⟨hmem,h⟩ | ⟨hmem,c',h,hprograms⟩
    · exact .inl ⟨hmem,h,by rw [h]⟩
    · exact .inr ⟨hmem,by rw [h],by rw [h,hprograms]⟩
  · rw [editAll_concat]
    exact (empty.editAll es).append_cases step

end Catalog
end ControlStore
