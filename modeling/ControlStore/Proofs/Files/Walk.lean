import ControlStore.Files
import ControlStore.Proofs.Checks
import ControlStore.Proofs.Files.Tree

/-! Where paths lead. A path to a name in a directory leads where the path to the directory leads,
and then to the name. Directories and links alone decide the way, so a path keeps its meaning while
files come and go. -/
namespace ControlStore

structure IsName (name : String) : Prop where
  ne_empty : name ≠ ""
  ne_dot : name ≠ "."
  ne_dots : name ≠ ".."

namespace FileTree

open Checks

/-- Where a name leads when more names follow it: on to a location, or to the names of a link. -/
def turn (t : FileTree) (here : Location) (name : String) :
    Except FileFault (Location ⊕ Location × List String) :=
  if t.find? here ≠ some .directory then .error .notDirectory
  else if name = "" ∨ name = "." then .ok (.inl here)
  else if name = ".." then .ok (.inl here.dropLast)
  else if Path.maxNameLength < name.utf8ByteSize then .error .nameTooLong
  else
    match t.find? (here ++ [name]) with
    | none => .error .notFound
    | some (.link target) =>
      .ok (.inr (if Path.isAbsolute target then [] else here,Path.steps target))
    | some _ => .ok (.inl (here ++ [name]))

section Turn

variable {t : FileTree} {walk : Walk} {jump : Location → List String → Except FileFault Ending}

/-- A walk takes its turn at each name but the last. -/
theorem walkWith_cons (here : Location) (name : String) {rest : List String} (hrest : rest ≠ [])
    (hcreate : ¬(walk = .create ∧ rest = [""])) :
    t.walkWith walk jump here (name :: rest) =
      match t.turn here name with
      | .error fault => .error fault
      | .ok (.inl here') => t.walkWith walk jump here' rest
      | .ok (.inr (here',names)) => jump here' (names ++ rest) := by
  rw [walkWith,turn]
  by_cases hdir : t.find? here = some .directory
  · rw [if_neg (not_not.mpr hdir),if_neg (not_not.mpr hdir)]
    by_cases hdot : name = "" ∨ name = "."
    · rw [if_pos hdot,if_pos hdot]
    rw [if_neg hdot,if_neg hdot]
    by_cases hdots : name = ".."
    · rw [if_pos hdots,if_pos hdots]
    rw [if_neg hdots,if_neg hdots,if_neg hcreate]
    by_cases hlong : Path.maxNameLength < name.utf8ByteSize
    · rw [if_pos hlong,if_pos hlong]
    rw [if_neg hlong,if_neg hlong]
    cases t.find? (here ++ [name]) with
    | none => simp only [hrest,if_false]
    | some entry =>
      cases entry with
      | file contents => rfl
      | directory => rfl
      | link target => simp only [hrest,false_and,if_false]
  · rw [if_pos hdir,if_pos hdir]

end Turn

/-- How the walk to the last names of a path follows from the walk to the directory before them. -/
def Leads (t : FileTree) (walk : Walk) (tail : List String)
    (parent result : Except FileFault Ending) : Prop :=
  (∃ fault, parent = .error fault ∧ result = .error fault) ∨
    ∃ d links, parent = .ok (.present d) ∧ t.find? d = some .directory ∧
      result = t.walkFrom walk links d tail

section Leads

variable {t : FileTree} {walk : Walk} {tail : List String}

/-- The walk to the last names passes the same links as the walk to the directory before them. -/
theorem leads_walkWith {jump jump' : Location → List String → Except FileFault Ending} {k : Nat}
    (htail : tail ≠ []) (hcreate : ¬(walk = .create ∧ tail = [""]))
    (hlinks : t.walkFrom walk k = t.walkWith walk jump')
    (hjump : ∀ here xs, t.Leads walk tail (jump here (xs ++ [""])) (jump' here (xs ++ tail)))
    (here : Location) (xs : List String) :
    t.Leads walk tail (t.walkWith .follow jump here (xs ++ [""]))
      (t.walkWith walk jump' here (xs ++ tail)) := by
  induction xs generalizing here with
  | nil =>
    rw [List.nil_append,List.nil_append]
    by_cases hdir : t.find? here = some .directory
    · refine .inr ⟨here,k,?_,hdir,by rw [hlinks]⟩
      simp [walkWith,hdir]
    · obtain ⟨name,rest,rfl⟩ := List.exists_cons_of_ne_nil htail
      refine .inl ⟨.notDirectory,?_,?_⟩
      · rw [walkWith,if_pos hdir]
      · rw [walkWith,if_pos hdir]
  | cons x xs ih =>
    -- a walk that creates does not stop before the last names to ask for a directory
    have hcreate' : ¬(walk = .create ∧ xs ++ tail = [""]) := by
      rintro ⟨hwalk,heq⟩
      rcases List.append_eq_singleton_iff.mp heq with ⟨-,h⟩ | ⟨-,h⟩
      · exact hcreate ⟨hwalk,h⟩
      · exact htail h
    rw [List.cons_append,List.cons_append,walkWith_cons here x (by simp) (by simp),
      walkWith_cons here x (by simp [htail]) hcreate']
    cases t.turn here x with
    | error fault => exact .inl ⟨fault,rfl,rfl⟩
    | ok next =>
      cases next with
      | inl here' => exact ih here'
      | inr way =>
        have hway := hjump way.1 (way.2 ++ xs)
        rw [List.append_assoc,List.append_assoc] at hway
        exact hway

theorem leads_walkFrom (t : FileTree) (walk : Walk) (tail : List String) (htail : tail ≠ [])
    (hcreate : ¬(walk = .create ∧ tail = [""])) (links : Nat) (here : Location)
    (xs : List String) :
    t.Leads walk tail (t.walkFrom .follow links here (xs ++ [""]))
      (t.walkFrom walk links here (xs ++ tail)) := by
  induction links generalizing here xs with
  | zero => exact leads_walkWith (k := 0) htail hcreate rfl (fun _ _ => .inl ⟨_,rfl,rfl⟩) here xs
  | succ links ih => exact leads_walkWith (k := links+1) htail hcreate rfl ih here xs

end Leads

section Name

variable {t : FileTree} {d : Location} {name : String} (hname : IsName name)
  (hd : t.find? d = some .directory) (walk : Walk) (links : Nat)

include hname hd

theorem walkFrom_name_of_long (hlong : Path.maxNameLength < name.utf8ByteSize) :
    t.walkFrom walk links d [name] = .error .nameTooLong := by
  cases links <;> simp [walkFrom,walkWith,hd,hname.ne_empty,hname.ne_dot,hname.ne_dots,hlong]

theorem walkFrom_name_of_none (hshort : name.utf8ByteSize ≤ Path.maxNameLength)
    (h : t.find? (d ++ [name]) = none) :
    t.walkFrom walk links d [name] = .ok (.absent (d ++ [name])) := by
  cases links <;>
    simp [walkFrom,walkWith,hd,hname.ne_empty,hname.ne_dot,hname.ne_dots,hshort.not_gt,h]

theorem walkFrom_name_of_some (hshort : name.utf8ByteSize ≤ Path.maxNameLength) {e : Entry}
    (h : t.find? (d ++ [name]) = some e) (he : walk = .keepLink ∨ ∀ target, e ≠ .link target) :
    t.walkFrom walk links d [name] = .ok (.present (d ++ [name])) := by
  cases e with
  | link target =>
    obtain rfl : walk = .keepLink := he.resolve_right (by simp)
    cases links <;>
      simp [walkFrom,walkWith,hd,hname.ne_empty,hname.ne_dot,hname.ne_dots,hshort.not_gt,h]
  | file contents =>
    cases links <;>
      simp [walkFrom,walkWith,hd,hname.ne_empty,hname.ne_dot,hname.ne_dots,hshort.not_gt,h]
  | directory =>
    cases links <;>
      simp [walkFrom,walkWith,hd,hname.ne_empty,hname.ne_dot,hname.ne_dots,hshort.not_gt,h]

end Name

/-- A path leads to a location: to a name, short enough, in a directory that can be reached. -/
def Denotes (t : FileTree) (path : String) (l : Location) : Prop :=
  ∃ d name, t.slot path = .ok ⟨d,some name,false⟩ ∧ name.utf8ByteSize ≤ Path.maxNameLength ∧
    l = d ++ [name]

def EndsInName (path : String) (name : String) : Prop :=
  lastName? path = some name ∧ Path.endsInSlash path = false

section Slot

variable {t : FileTree} {path name : String} {d : Location}

theorem isName_of_lastName? (h : lastName? path = some name) : IsName name := by
  obtain ⟨hlast,hdots⟩ := Option.filter_eq_some_iff.mp h
  have hne : name ≠ "" := by
    have hmem := List.mem_of_getLast? hlast
    obtain ⟨cs,hcs,rfl⟩ := List.mem_map.mp hmem
    simpa using (List.mem_filter.mp hcs).2
  simp only [decide_eq_true_eq] at hdots
  exact ⟨hne,hdots.1,hdots.2⟩

theorem EndsInName.isName (h : EndsInName path name) : IsName name := isName_of_lastName? h.1

theorem steps_of_lastName? (h : lastName? path = some name) : Path.steps path =
    (Path.names path).dropLast ++ name :: if Path.endsInSlash path then [""] else [] := by
  obtain ⟨hlast,-⟩ := Option.filter_eq_some_iff.mp h
  rw [List.append_cons,List.dropLast_append_getLast? name hlast,Path.steps]

theorem EndsInName.steps_eq (h : EndsInName path name) :
    Path.steps path = (Path.names path).dropLast ++ [name] := by
  rw [steps_of_lastName? h.1,h.2]
  rfl

theorem slot_eq_ok_iff {s : Slot} : t.slot path = .ok s ↔ Path.check path = .ok () ∧
    t.walkFrom .follow Path.maxLinks (t.origin path) ((Path.names path).dropLast ++ [""]) =
      .ok (.present s.directory) ∧ s.name = lastName? path ∧ s.slash = Path.endsInSlash path := by
  simp only [slot,bind_eq_ok]
  constructor
  · intro h
    obtain ⟨u,hcheck,ending,hwalk,hs⟩ := h
    cases ending with
    | present d =>
      obtain rfl := pure_eq_ok.mp hs
      exact ⟨hcheck,hwalk,rfl,rfl⟩
    | absent l => cases hs
  · intro h
    obtain ⟨hcheck,hwalk,hname,hslash⟩ := h
    refine ⟨(),hcheck,_,hwalk,?_⟩
    rw [← hname,← hslash]
    rfl

/-- A path that ends in a name leads where its slot is, and fails as its slot does. -/
theorem resolve_of_endsInName (h : EndsInName path name) (walk : Walk) :
    (∃ fault, t.slot path = .error fault ∧ t.resolve walk path = .error fault) ∨
      ∃ d links, t.slot path = .ok ⟨d,some name,false⟩ ∧ t.find? d = some .directory ∧
        t.resolve walk path = t.walkFrom walk links d [name] := by
  rw [slot,resolve,h.steps_eq]
  cases hcheck : Path.check path with
  | error fault => exact .inl ⟨fault,rfl,rfl⟩
  | ok u =>
    rcases leads_walkFrom t walk [name] (by simp) (by simp [h.isName.ne_empty])
      Path.maxLinks (t.origin path) (Path.names path).dropLast with
        ⟨fault,hparent,hresult⟩ | ⟨d,links,hparent,hd,hresult⟩
    · refine .inl ⟨fault,?_,hresult⟩
      rw [hparent]
      rfl
    · refine .inr ⟨d,links,?_,hd,hresult⟩
      rw [hparent,h.1,h.2]
      rfl

theorem Denotes.exists_resolve {l : Location} (h : t.Denotes path l) :
    ∃ d name, l = d ++ [name] ∧ IsName name ∧ name.utf8ByteSize ≤ Path.maxNameLength ∧
      t.find? d = some .directory ∧ t.slot path = .ok ⟨d,some name,false⟩ ∧
      ∀ walk, ∃ links, t.resolve walk path = t.walkFrom walk links d [name] := by
  obtain ⟨d,name,hslot,hshort,hl⟩ := h
  have hends : EndsInName path name :=
    ⟨(slot_eq_ok_iff.mp hslot).2.2.1.symm,(slot_eq_ok_iff.mp hslot).2.2.2.symm⟩
  have hresolve (walk : Walk) : t.find? d = some .directory ∧
      ∃ links, t.resolve walk path = t.walkFrom walk links d [name] := by
    rcases resolve_of_endsInName (t := t) hends walk with ⟨fault,herror,-⟩ | ⟨d',links,hok,hd,hr⟩
    · rw [hslot] at herror
      cases herror
    · rw [hslot] at hok
      cases hok
      exact ⟨hd,links,hr⟩
  exact ⟨d,name,hl,hends.isName,hshort,(hresolve .follow).1,hslot,fun walk => (hresolve walk).2⟩

end Slot

/-- A tree has all directories and links of another. -/
structure Keeps (t t' : FileTree) : Prop where
  start : t'.start = t.start
  ways : ∀ l e, (∀ contents, e ≠ .file contents) → t.find? l = some e → t'.find? l = some e

section Keeps

variable {t t' : FileTree}

theorem Keeps.refl (t : FileTree) : Keeps t t := ⟨rfl,fun _ _ _ h => h⟩

theorem Keeps.trans {t'' : FileTree} (h : Keeps t t') (h' : Keeps t' t'') : Keeps t t'' :=
  ⟨h'.start.trans h.start,fun l e he hl => h'.ways l e he (h.ways l e he hl)⟩

theorem Keeps.directory (h : Keeps t t') {l : Location} (hl : t.find? l = some .directory) :
    t'.find? l = some .directory :=
  h.ways l .directory (by simp) hl

theorem Keeps.turn_eq (h : Keeps t t') {here : Location} {name : String}
    {next : Location ⊕ Location × List String} (hturn : t.turn here name = .ok next)
    (hnext : ∀ l, next = .inl l → t.find? l = some .directory) : t'.turn here name = .ok next := by
  rw [turn] at hturn ⊢
  by_cases hdir : t.find? here = some .directory
  · have hdir' := h.directory hdir
    rw [if_neg (not_not.mpr hdir)] at hturn
    rw [if_neg (not_not.mpr hdir')]
    split_ifs at hturn ⊢ with hdot hdots hlong
    · exact hturn
    · exact hturn
    · cases hentry : t.find? (here ++ [name]) with
      | none =>
        rw [hentry] at hturn
        cases hturn
      | some e =>
        rw [hentry] at hturn
        cases e with
        | link target =>
          rw [h.ways _ _ (by simp) hentry]
          exact hturn
        | directory =>
          rw [h.directory hentry]
          exact hturn
        | file contents =>
          cases hturn
          have hfile := hnext _ rfl
          rw [hentry] at hfile
          cases hfile
  · rw [if_pos hdir] at hturn
    cases hturn

theorem directory_of_walkWith {walk : Walk} {here l : Location} {xs : List String}
    {jump : Location → List String → Except FileFault Ending} (hxs : xs ≠ [])
    (h : t.walkWith walk jump here xs = .ok (.present l)) : t.find? here = some .directory := by
  cases xs with
  | nil => exact absurd rfl hxs
  | cons x xs =>
    by_contra hdir
    rw [walkWith,if_pos hdir] at h
    cases h

theorem Keeps.walkWith_eq (h : Keeps t t') {d : Location}
    {jump jump' : Location → List String → Except FileFault Ending}
    (hjump : ∀ here xs, jump here (xs ++ [""]) = .ok (.present d) →
      jump' here (xs ++ [""]) = .ok (.present d))
    {here : Location} {xs : List String}
    (hwalk : t.walkWith .follow jump here (xs ++ [""]) = .ok (.present d)) :
    t'.walkWith .follow jump' here (xs ++ [""]) = .ok (.present d) := by
  induction xs generalizing here with
  | nil =>
    have hdir := directory_of_walkWith (by simp) hwalk
    have hdir' := h.directory hdir
    simpa [walkWith,hdir,hdir'] using hwalk
  | cons x xs ih =>
    rw [List.cons_append,walkWith_cons here x (by simp) (by simp)] at hwalk ⊢
    cases hturn : t.turn here x with
    | error fault =>
      rw [hturn] at hwalk
      cases hwalk
    | ok next =>
      rw [hturn] at hwalk
      cases next with
      | inl here' =>
        have hdir := directory_of_walkWith (by simp) hwalk
        rw [h.turn_eq hturn (fun l hl => by cases hl; exact hdir)]
        exact ih hwalk
      | inr way =>
        rw [h.turn_eq hturn (fun l hl => by cases hl)]
        dsimp only at hwalk ⊢
        rw [← List.append_assoc] at hwalk ⊢
        exact hjump _ _ hwalk

theorem Keeps.walkFrom_eq (h : Keeps t t') {d : Location} {links : Nat} {here : Location}
    {xs : List String} (hwalk : t.walkFrom .follow links here (xs ++ [""]) = .ok (.present d)) :
    t'.walkFrom .follow links here (xs ++ [""]) = .ok (.present d) := by
  induction links generalizing here xs with
  | zero => exact h.walkWith_eq (fun _ _ hjump => by cases hjump) hwalk
  | succ links ih => exact h.walkWith_eq (fun _ _ hjump => ih hjump) hwalk

/-- Paths keep their meaning while directories and links stay. -/
theorem Denotes.keeps {path : String} {l : Location} (hpath : t.Denotes path l)
    (h : Keeps t t') : t'.Denotes path l := by
  obtain ⟨d,name,hslot,hshort,hl⟩ := hpath
  obtain ⟨hcheck,hwalk,hname,hslash⟩ := slot_eq_ok_iff.mp hslot
  refine ⟨d,name,slot_eq_ok_iff.mpr ⟨hcheck,?_,hname,hslash⟩,hshort,hl⟩
  have horigin : t'.origin path = t.origin path := by rw [origin,origin,h.start]
  rw [horigin]
  exact h.walkFrom_eq hwalk

end Keeps

/-- Two trees have the same directories and links. -/
structure SameWays (t t' : FileTree) : Prop where
  start : t'.start = t.start
  ways : ∀ l e, (∀ contents, e ≠ .file contents) → (t.find? l = some e ↔ t'.find? l = some e)

section SameWays

variable {t t' : FileTree}

theorem SameWays.refl (t : FileTree) : SameWays t t := ⟨rfl,fun _ _ _ => Iff.rfl⟩

theorem SameWays.symm (h : SameWays t t') : SameWays t' t :=
  ⟨h.start.symm,fun l e he => (h.ways l e he).symm⟩

theorem SameWays.trans {t'' : FileTree} (h : SameWays t t') (h' : SameWays t' t'') :
    SameWays t t'' :=
  ⟨h'.start.trans h.start,fun l e he => (h.ways l e he).trans (h'.ways l e he)⟩

theorem SameWays.keeps (h : SameWays t t') : Keeps t t' :=
  ⟨h.start,fun l e he hl => (h.ways l e he).mp hl⟩

theorem Denotes.sameWays {path : String} {l : Location} (hpath : t.Denotes path l)
    (h : SameWays t t') : t'.Denotes path l :=
  hpath.keeps h.keeps

end SameWays
end FileTree
end ControlStore
