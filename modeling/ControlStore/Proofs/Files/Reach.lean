import ControlStore.Proofs.Files.Operations
import ControlStore.Proofs.Files.Siblings

/-! Paths that denote no location. The way to the last name is blocked, the name is too long, or the
path is written as a directory, with a slash or a dot name at its end. Such a path leads to a
directory or nowhere; where it leads nowhere, nothing is read, moved or removed under it. -/
namespace ControlStore

theorem not_isName_iff {s : String} : ¬IsName s ↔ s = "" ∨ s = "." ∨ s = ".." := by
  constructor
  · intro h
    by_contra hne
    push Not at hne
    exact h ⟨hne.1,hne.2.1,hne.2.2⟩
  · rintro h ⟨hempty,hdot,hdots⟩
    tauto

namespace Path

theorem steps_ne_nil {path : String} (h : check path = .ok ()) : steps path ≠ [] := by
  intro hnil
  obtain ⟨hnames,hslash⟩ := List.append_eq_nil_iff.mp hnil
  rw [check] at h
  split_ifs at h with _ hempty _
  rcases List.eq_nil_or_concat path.toList with hpath | ⟨cs,c,hpath⟩
  · exact hempty (by simpa using hpath)
  · rw [List.concat_eq_append] at hpath
    have hc : c ≠ '/' := by
      rintro rfl
      simp [endsInSlash,hpath] at hslash
    -- the last character stands in the last piece between slashes
    obtain ⟨front,piece,hsplit⟩ := exists_splitOn_append '/' cs
    have hlast : piece ++ [c] ∈ (path.toList.splitOn '/').filter (· ≠ []) := by
      rw [hpath,hsplit [c] (by simpa using hc.symm)]
      simp
    rw [List.map_eq_nil_iff.mp hnames] at hlast
    cases hlast

theorem endsInName_or {path : String} (h : check path = .ok ()) :
    (∃ name, FileTree.EndsInName path name) ∨
      ∃ front last, steps path = front ++ [last] ∧ ¬IsName last := by
  cases hslash : endsInSlash path with
  | true => exact .inr ⟨names path,"",by simp [steps,hslash],fun h => h.ne_empty rfl⟩
  | false =>
    have hsteps : steps path = names path := by simp [steps,hslash]
    have hne : (names path).getLast? ≠ none := by
      rw [ne_eq,List.getLast?_eq_none_iff,← hsteps]
      exact steps_ne_nil h
    obtain ⟨last,hlast⟩ := Option.ne_none_iff_exists'.mp hne
    by_cases hdots : last ≠ "." ∧ last ≠ ".."
    · exact .inl ⟨last,Option.filter_eq_some_iff.mpr ⟨hlast,by simpa using hdots⟩,hslash⟩
    · refine .inr ⟨(names path).dropLast,last,?_,fun h => hdots ⟨h.ne_dot,h.ne_dots⟩⟩
      rw [hsteps,List.dropLast_append_getLast? last hlast]

end Path

namespace FileTree

open Checks

section AsDirectory

variable {t : FileTree} {path last : String} {front : List String}
  (hcheck : Path.check path = .ok ()) (hsteps : Path.steps path = front ++ [last])
  (hlast : ¬IsName last)

include hcheck hsteps hlast

/-- A path whose last step is no name leads to the directory before it, or to the one above. -/
theorem resolve_asDirectory (walk : Walk) (hwalk : walk ≠ .create) :
    (∃ fault, t.walkFrom .follow Path.maxLinks (t.origin path) (front ++ [""]) = .error fault ∧
      t.resolve walk path = .error fault) ∨
    ∃ d, t.walkFrom .follow Path.maxLinks (t.origin path) (front ++ [""]) = .ok (.present d) ∧
      t.find? d = some .directory ∧
      t.resolve walk path = .ok (.present (if last = ".." then d.dropLast else d)) := by
  have hresolve : t.resolve walk path =
      t.walkFrom walk Path.maxLinks (t.origin path) (front ++ [last]) := by
    rw [resolve,hcheck,hsteps]
    rfl
  rw [hresolve]
  rcases leads_walkFrom t walk [last] (by simp) (fun h => hwalk h.1) Path.maxLinks
    (t.origin path) front with ⟨fault,hparent,hresult⟩ | ⟨d,links,hparent,hd,hresult⟩
  · exact .inl ⟨fault,hparent,hresult⟩
  · refine .inr ⟨d,hparent,hd,?_⟩
    rw [hresult]
    rcases not_isName_iff.mp hlast with rfl | rfl | rfl
    all_goals cases links <;> simp [walkFrom,walkWith,hd]

theorem isPresent_asDirectory : t.isPresent path = true ↔
    ∃ d, t.walkFrom .follow Path.maxLinks (t.origin path) (front ++ [""]) = .ok (.present d) := by
  rcases resolve_asDirectory (t := t) hcheck hsteps hlast .follow (by simp) with
    ⟨fault,hparent,hr⟩ | ⟨d,hparent,-,hr⟩
  · simp [isPresent,hr,hparent]
  · simp [isPresent,hr,hparent]

theorem entryOf_asDirectory (ht : t.WellFormed) {e : Entry} :
    t.entryOf path = .ok e ↔ e = .directory ∧ t.isPresent path = true := by
  rw [isPresent_asDirectory hcheck hsteps hlast]
  rcases resolve_asDirectory (t := t) hcheck hsteps hlast .keepLink (by simp) with
    ⟨fault,hparent,hr⟩ | ⟨d,hparent,hd,hr⟩
  · simp [entryOf,hr,hparent,bind,Except.bind]
  · have habove : t.find? d.dropLast = some .directory := by
      rcases List.eq_nil_or_concat d with rfl | ⟨d',name,rfl⟩
      · exact ht.root
      · rw [List.concat_eq_append,List.dropLast_concat]
        apply ht.parent d' name
        rw [← List.concat_eq_append,hd]
        simp
    have hdir : t.find? (if last = ".." then d.dropLast else d) = some .directory := by
      split
      · exact habove
      · exact hd
    simp only [entryOf,hr,ok_bind,hdir,pure_eq_ok,hparent]
    simp [eq_comm]

end AsDirectory

section NotDenoted

variable {t t' : FileTree} {path : String} (hnot : ∀ l, ¬t.Denotes path l)

include hnot

theorem exists_fault_of_endsInName {name : String} (hends : EndsInName path name) :
    ∃ fault, ∀ walk, t.resolve walk path = .error fault := by
  cases hslot : t.slot path with
  | error fault =>
    refine ⟨fault,?_⟩
    intro walk
    rcases resolve_of_endsInName (t := t) hends walk with ⟨fault',hslot',hr⟩ | ⟨d,links,hslot',-⟩
    · rw [hslot] at hslot'
      cases hslot'
      exact hr
    · rw [hslot] at hslot'
      cases hslot'
  | ok s =>
    refine ⟨.nameTooLong,?_⟩
    intro walk
    rcases resolve_of_endsInName (t := t) hends walk with ⟨fault,hslot',-⟩ | ⟨d,links,hslot',hd,hr⟩
    · rw [hslot] at hslot'
      cases hslot'
    · have hlong : Path.maxNameLength < name.utf8ByteSize := by
        by_contra hshort
        exact hnot (d ++ [name]) ⟨d,name,hslot',Nat.le_of_not_lt hshort,rfl⟩
      rw [hr,walkFrom_name_of_long hends.isName hd _ _ hlong]

theorem isPresent_of_endsInName {name : String} (hends : EndsInName path name) :
    t.isPresent path = false := by
  obtain ⟨fault,hr⟩ := exists_fault_of_endsInName hnot hends
  rw [isPresent,hr]

theorem write_of_endsInName {name : String} (hends : EndsInName path name)
    (contents : ByteArray) : ∃ fault, t.write path contents = .error fault := by
  obtain ⟨fault,hr⟩ := exists_fault_of_endsInName hnot hends
  exact ⟨fault,by rw [write,hr]; rfl⟩

/-- A path that denotes no location leads to a directory, or nowhere. -/
theorem entryOf_of_not_denotes (ht : t.WellFormed) {e : Entry} :
    t.entryOf path = .ok e ↔ e = .directory ∧ t.isPresent path = true := by
  have hfault {fault : FileFault} (hr : ∀ walk, t.resolve walk path = .error fault) :
      t.entryOf path = .ok e ↔ e = .directory ∧ t.isPresent path = true := by
    simp [entryOf,isPresent,hr,bind,Except.bind]
  cases hcheck : Path.check path with
  | error fault =>
    apply hfault
    intro walk
    rw [resolve,hcheck]
    rfl
  | ok u =>
    rcases Path.endsInName_or hcheck with ⟨name,hends⟩ | ⟨front,last,hsteps,hlast⟩
    · obtain ⟨fault,hr⟩ := exists_fault_of_endsInName hnot hends
      exact hfault hr
    · exact entryOf_asDirectory hcheck hsteps hlast ht

/-- Whether such a path leads to a directory does not depend on files. -/
theorem SameWays.isPresent_eq (h : SameWays t t') : t'.isPresent path = t.isPresent path := by
  have hnot' : ∀ l, ¬t'.Denotes path l := fun l hl => hnot l (hl.sameWays h.symm)
  cases hcheck : Path.check path with
  | error fault =>
    have hr (t : FileTree) : t.resolve .follow path = .error fault := by
      rw [resolve,hcheck]
      rfl
    rw [isPresent,isPresent,hr,hr]
  | ok u =>
    rcases Path.endsInName_or hcheck with ⟨name,hends⟩ | ⟨front,last,hsteps,hlast⟩
    · rw [isPresent_of_endsInName hnot hends,isPresent_of_endsInName hnot' hends]
    · have horigin : t'.origin path = t.origin path := by rw [origin,origin,h.start]
      rw [Bool.eq_iff_iff,isPresent_asDirectory hcheck hsteps hlast,
        isPresent_asDirectory hcheck hsteps hlast,horigin]
      constructor
      · rintro ⟨d,hwalk⟩
        exact ⟨d,h.symm.keeps.walkFrom_eq hwalk⟩
      · rintro ⟨d,hwalk⟩
        exact ⟨d,h.keeps.walkFrom_eq hwalk⟩

end NotDenoted

/-- A path denotes a location, or it denotes none and leads nowhere. -/
def Reaches (t : FileTree) (path : String) : Option Location → Prop
  | some l => t.Denotes path l
  | none => (∀ l, ¬t.Denotes path l) ∧ t.isPresent path = false

def location? (t : FileTree) (path : String) : Option Location :=
  match t.slot path with
  | .ok ⟨d,some name,false⟩ =>
    if name.utf8ByteSize ≤ Path.maxNameLength then some (d ++ [name]) else none
  | _ => none

section Reaches

variable {t t' : FileTree} {path path' : String} {x : Option Location} {l : Location}

theorem location?_eq_some : t.location? path = some l ↔ t.Denotes path l := by
  rw [location?,Denotes]
  constructor
  · intro h
    split at h
    · rename_i d name hslot
      split_ifs at h with hshort
      exact ⟨d,name,hslot,hshort,by simpa [eq_comm] using h⟩
    · cases h
  · rintro ⟨d,name,hslot,hshort,rfl⟩
    simp only [hslot,if_pos hshort]

theorem location?_eq_none : t.location? path = none ↔ ∀ l, ¬t.Denotes path l := by
  rw [Option.eq_none_iff_forall_ne_some]
  simp only [ne_eq,location?_eq_some]

theorem reaches_none_of_endsInName {name : String} (hends : EndsInName path name)
    (hnot : ∀ l, ¬t.Denotes path l) : t.Reaches path none :=
  ⟨hnot,isPresent_of_endsInName hnot hends⟩

/-- A path that does not lead to a directory reaches its location. -/
theorem reaches_location? (ht : t.WellFormed) (h : t.entryOf path ≠ .ok .directory) :
    t.Reaches path (t.location? path) := by
  cases hx : t.location? path with
  | some l => exact location?_eq_some.mp hx
  | none =>
    have hnot := location?_eq_none.mp hx
    refine ⟨hnot,?_⟩
    by_contra hpresent
    exact h ((entryOf_of_not_denotes hnot ht).mpr ⟨rfl,by simpa using hpresent⟩)

theorem Reaches.sameWays (hx : t.Reaches path x) (h : SameWays t t') : t'.Reaches path x := by
  cases x with
  | some l => exact Denotes.sameWays hx h
  | none =>
    obtain ⟨hnot,hout⟩ := hx
    exact ⟨fun l hl => hnot l (hl.sameWays h.symm),(h.isPresent_eq hnot).trans hout⟩

theorem Reaches.entryOf_eq_ok_iff (hx : t.Reaches path x) (ht : t.WellFormed) {e : Entry} :
    t.entryOf path = .ok e ↔ x.bind t.find? = some e := by
  cases x with
  | some l => exact FileTree.entryOf_eq_ok_iff hx
  | none =>
    rw [entryOf_of_not_denotes hx.1 ht,hx.2]
    simp

theorem denotes_of_remove (h : t.remove path = .ok t') : ∃ l, t.Denotes path l := by
  rw [remove] at h
  obtain ⟨⟨d,name?,slash⟩,hslot,h⟩ := bind_eq_ok.mp h
  cases name? with
  | none => cases h
  | some name =>
    obtain ⟨e,he,h⟩ := bind_eq_ok.mp h
    have hshort : name.utf8ByteSize ≤ Path.maxNameLength := by
      by_contra hlong
      rw [entryAt,if_pos (Nat.lt_of_not_le hlong)] at he
      cases he
    cases slash with
    | false => exact ⟨d ++ [name],d,name,hslot,hshort,rfl⟩
    | true =>
      rcases e with _ | (_ | _ | _)
      all_goals cases h

theorem denotes_of_rename (h : t.rename path path' = .ok t') :
    ((∃ l, t.Denotes path l) ∧ ∃ l, t.Denotes path' l) ∨
      ∃ s name, t.slot path = .ok s ∧ s.name = some name ∧
        name.utf8ByteSize ≤ Path.maxNameLength ∧
        t.find? (s.directory ++ [name]) = some .directory := by
  rw [rename] at h
  split at h
  · cases h
  obtain ⟨⟨d,name?,slash⟩,hslot,h⟩ := bind_eq_ok.mp h
  obtain ⟨⟨d',name'?,slash'⟩,hslot',h⟩ := bind_eq_ok.mp h
  rcases name? with _ | name
  · cases h
  rcases name'? with _ | name'
  · cases h
  obtain ⟨e,he,h⟩ := bind_eq_ok.mp h
  have hentry {d : Location} {name : String} {e : Option Entry} (h : t.entryAt d name = .ok e) :
      name.utf8ByteSize ≤ Path.maxNameLength ∧ t.find? (d ++ [name]) = e := by
    rw [entryAt] at h
    split_ifs at h with hlong
    exact ⟨Nat.le_of_not_lt hlong,Except.ok.inj h⟩
  cases e with
  | none => cases h
  | some entry =>
    obtain ⟨e',he',h⟩ := bind_eq_ok.mp h
    by_cases hdir : entry = .directory
    · subst hdir
      exact .inr ⟨_,name,hslot,rfl,hentry he⟩
    · have hslash : ¬(slash = true ∨ slash' = true) := by
        intro hslash
        dsimp only at h
        rw [if_pos ⟨hdir,hslash⟩] at h
        cases h
      simp only [not_or,Bool.not_eq_true] at hslash
      obtain ⟨rfl,rfl⟩ := hslash
      exact .inl ⟨⟨_,d,name,hslot,(hentry he).1,rfl⟩,_,d',name',hslot',(hentry he').1,rfl⟩

theorem isPresent_of_slot {s : Slot} {name : String} (hslot : t.slot path = .ok s)
    (hname : s.name = some name) (hshort : name.utf8ByteSize ≤ Path.maxNameLength)
    (hdir : t.find? (s.directory ++ [name]) = some .directory) : t.isPresent path = true := by
  obtain ⟨hcheck,hwalk,hlast,-⟩ := slot_eq_ok_iff.mp hslot
  rw [hname,eq_comm] at hlast
  have hisName := isName_of_lastName? hlast
  have hresolve : t.resolve .follow path = .ok (.present (s.directory ++ [name])) := by
    rw [resolve,hcheck,steps_of_lastName? hlast]
    rcases leads_walkFrom t .follow (name :: if Path.endsInSlash path then [""] else []) (by simp)
      (by simp) Path.maxLinks (t.origin path) (Path.names path).dropLast with
        ⟨fault,hparent,-⟩ | ⟨d,links,hparent,hd,hr⟩
    · rw [hwalk] at hparent
      cases hparent
    · obtain rfl : s.directory = d := by simpa [hwalk] using hparent
      refine Eq.trans hr ?_
      cases Path.endsInSlash path <;> cases links <;>
        simp [walkFrom,walkWith,hd,hdir,hisName.ne_empty,hisName.ne_dot,hisName.ne_dots,
          hshort.not_gt]
  rw [isPresent,hresolve]

end Reaches

section OutOfReach

variable {t : FileTree} {path path' : String} {l : Location}

theorem remove_out_of_reach (hpath : t.Reaches path none) :
    ∃ fault, t.remove path = .error fault := by
  cases hremove : t.remove path with
  | error fault => exact ⟨fault,rfl⟩
  | ok t' =>
    obtain ⟨l,hl⟩ := denotes_of_remove hremove
    exact absurd hl (hpath.1 l)

theorem rename_from_out_of_reach (hpath : t.Reaches path none) (path' : String) :
    ∃ fault, t.rename path path' = .error fault := by
  cases hrename : t.rename path path' with
  | error fault => exact ⟨fault,rfl⟩
  | ok t' =>
    rcases denotes_of_rename hrename with ⟨⟨l,hl⟩,-⟩ | ⟨s,name,hslot,hname,hshort,hdir⟩
    · exact absurd hl (hpath.1 l)
    · have hpresent := isPresent_of_slot hslot hname hshort hdir
      rw [hpath.2] at hpresent
      cases hpresent

theorem rename_to_out_of_reach (hpath : t.Denotes path l) (hplain : Plain (t.find? l))
    (hpath' : t.Reaches path' none) : ∃ fault, t.rename path path' = .error fault := by
  cases hrename : t.rename path path' with
  | error fault => exact ⟨fault,rfl⟩
  | ok t' =>
    rcases denotes_of_rename hrename with ⟨-,l',hl'⟩ | ⟨s,name,hslot,hname,-,hdir⟩
    · exact absurd hl' (hpath'.1 l')
    · obtain ⟨d,name',hslot',-,rfl⟩ := hpath
      rw [hslot'] at hslot
      cases hslot
      cases hname
      exact absurd hdir hplain.ne_directory

end OutOfReach
end FileTree
end ControlStore
