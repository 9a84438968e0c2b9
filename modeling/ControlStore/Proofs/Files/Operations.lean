import ControlStore.Proofs.Files.Walk

/-! The operations on a tree, at paths that denote locations. Where a location holds nothing or a
file, each operation has one outcome, and it changes no location but those it is about. -/
namespace ControlStore

def Plain (x : Option Entry) : Prop := x = none ∨ ∃ contents, x = some (.file contents)

theorem Plain.none : Plain none := .inl rfl

theorem Plain.file (contents : ByteArray) : Plain (some (.file contents)) := .inr ⟨contents,rfl⟩

theorem Plain.ne_directory {x : Option Entry} (h : Plain x) : x ≠ some .directory := by
  rcases h with rfl | ⟨contents,rfl⟩
  · simp
  · simp

namespace FileTree

open Checks

/-- A tree after changes to its files: what it holds now, while its ways are the same. -/
structure Revised (t : FileTree) (view : Location → Option Entry) (t' : FileTree) : Prop where
  view : t'.find? = view
  wellFormed : t'.WellFormed
  sameWays : SameWays t t'

/-- A change from nothing or a file to nothing or a file keeps all ways. -/
theorem SameWays.of_update {t t' : FileTree} {l : Location} {x : Option Entry}
    (hstart : t'.start = t.start) (hview : t'.find? = Function.update t.find? l x)
    (hold : Plain (t.find? l)) (hnew : Plain x) : SameWays t t' := by
  refine ⟨hstart,?_⟩
  intro l' e he
  rw [hview]
  by_cases hl : l' = l
  · have hne {y : Option Entry} (hy : Plain y) : y ≠ some e := by
      rcases hy with rfl | ⟨contents,rfl⟩
      · simp
      · simpa using (he contents).symm
    rw [hl,Function.update_self]
    exact iff_of_false (hne hold) (hne hnew)
  · rw [Function.update_of_ne hl]

section Denoted

variable {t : FileTree} {path : String} {l : Location} (ht : t.WellFormed)
  (hpath : t.Denotes path l)

include hpath

theorem Denotes.ne_root : l ≠ [] := by
  obtain ⟨d,name,rfl,-⟩ := hpath.exists_resolve
  simp

theorem entryOf_of_some {e : Entry} (h : t.find? l = some e) : t.entryOf path = .ok e := by
  obtain ⟨d,name,rfl,hname,hshort,hd,-,hresolve⟩ := hpath.exists_resolve
  obtain ⟨links,hwalk⟩ := hresolve .keepLink
  rw [walkFrom_name_of_some hname hd _ _ hshort h (.inl rfl)] at hwalk
  simp only [entryOf,hwalk,ok_bind,h]
  rfl

theorem entryOf_of_none (h : t.find? l = none) : t.entryOf path = .error .notFound := by
  obtain ⟨d,name,rfl,hname,hshort,hd,-,hresolve⟩ := hpath.exists_resolve
  obtain ⟨links,hwalk⟩ := hresolve .keepLink
  rw [walkFrom_name_of_none hname hd _ _ hshort h] at hwalk
  rw [entryOf,hwalk]
  rfl

theorem entryOf_eq_ok_iff {e : Entry} : t.entryOf path = .ok e ↔ t.find? l = some e := by
  constructor
  · intro h
    cases hfind : t.find? l with
    | none =>
      rw [entryOf_of_none hpath hfind] at h
      cases h
    | some e' =>
      rw [entryOf_of_some hpath hfind] at h
      cases h
      rfl
  · exact entryOf_of_some hpath

theorem isPresent_of_file {contents : ByteArray} (h : t.find? l = some (.file contents)) :
    t.isPresent path = true := by
  obtain ⟨d,name,rfl,hname,hshort,hd,-,hresolve⟩ := hpath.exists_resolve
  obtain ⟨links,hwalk⟩ := hresolve .follow
  rw [walkFrom_name_of_some hname hd _ _ hshort h (.inr (by simp))] at hwalk
  rw [isPresent,hwalk]

theorem isPresent_of_none (h : t.find? l = none) : t.isPresent path = false := by
  obtain ⟨d,name,rfl,hname,hshort,hd,-,hresolve⟩ := hpath.exists_resolve
  obtain ⟨links,hwalk⟩ := hresolve .follow
  rw [walkFrom_name_of_none hname hd _ _ hshort h] at hwalk
  rw [isPresent,hwalk]

theorem read_of_file {contents : ByteArray} (h : t.find? l = some (.file contents)) :
    t.read path = .ok (.ok contents) := by
  obtain ⟨d,name,rfl,hname,hshort,hd,-,hresolve⟩ := hpath.exists_resolve
  obtain ⟨links,hwalk⟩ := hresolve .follow
  rw [walkFrom_name_of_some hname hd _ _ hshort h (.inr (by simp))] at hwalk
  simp only [FileTree.read,hwalk,ok_bind,h]
  rfl

theorem read_of_none (h : t.find? l = none) : t.read path = .error .notFound := by
  obtain ⟨d,name,rfl,hname,hshort,hd,-,hresolve⟩ := hpath.exists_resolve
  obtain ⟨links,hwalk⟩ := hresolve .follow
  rw [walkFrom_name_of_none hname hd _ _ hshort h] at hwalk
  rw [FileTree.read,hwalk]
  rfl

theorem write_of_directory (h : t.find? l = some .directory) (contents : ByteArray) :
    t.write path contents = .error .isDirectory := by
  obtain ⟨d,name,rfl,hname,hshort,hd,-,hresolve⟩ := hpath.exists_resolve
  obtain ⟨links,hwalk⟩ := hresolve .create
  rw [walkFrom_name_of_some hname hd _ _ hshort h (.inr (by simp))] at hwalk
  simp only [write,hwalk,ok_bind,h,if_true]
  rfl

theorem write_of_plain (h : Plain (t.find? l)) (contents : ByteArray) :
    t.write path contents = .ok (t.insert l (.file contents)) := by
  obtain ⟨d,name,rfl,hname,hshort,hd,-,hresolve⟩ := hpath.exists_resolve
  obtain ⟨links,hwalk⟩ := hresolve .create
  rcases h with h | ⟨old,h⟩
  · rw [walkFrom_name_of_none hname hd _ _ hshort h] at hwalk
    rw [write,hwalk]
    rfl
  · rw [walkFrom_name_of_some hname hd _ _ hshort h (.inr (by simp))] at hwalk
    simp only [write,hwalk,ok_bind,h,Option.some.injEq,reduceCtorEq,if_false]
    rfl

theorem remove_of_none (h : t.find? l = none) : t.remove path = .error .notFound := by
  obtain ⟨d,name,rfl,-,hshort,-,hslot,-⟩ := hpath.exists_resolve
  have hentry : t.entryAt d name = .ok none := by rw [entryAt,if_neg hshort.not_gt,h]
  simp only [remove,hslot,ok_bind,hentry]
  rfl

theorem remove_of_directory (h : t.find? l = some .directory) :
    t.remove path = .error .isDirectory := by
  obtain ⟨d,name,rfl,-,hshort,-,hslot,-⟩ := hpath.exists_resolve
  have hentry : t.entryAt d name = .ok (some .directory) := by
    rw [entryAt,if_neg hshort.not_gt,h]
  simp only [remove,hslot,ok_bind,hentry]
  rfl

theorem remove_of_some {e : Entry} (h : t.find? l = some e) (he : e ≠ .directory) :
    t.remove path = .ok (t.erase l) := by
  obtain ⟨d,name,rfl,-,hshort,-,hslot,-⟩ := hpath.exists_resolve
  have hentry : t.entryAt d name = .ok (some e) := by
    rw [entryAt,if_neg hshort.not_gt,h]
  simp only [remove,hslot,ok_bind,hentry]
  cases e with
  | directory => exact absurd rfl he
  | file contents => rfl
  | link target => rfl

include ht

theorem exists_write (h : Plain (t.find? l)) (contents : ByteArray) :
    ∃ t', t.write path contents = .ok t' ∧
      t.Revised (Function.update t.find? l (some (.file contents))) t' := by
  have hview := find?_insert t hpath.ne_root (.file contents)
  refine ⟨_,write_of_plain hpath h contents,hview,?_,
    .of_update (start_insert ..) hview h (.file contents)⟩
  obtain ⟨d,name,rfl,-,-,hd,-⟩ := hpath.exists_resolve
  rw [WellFormed,hview]
  exact IsTree.update_file ht hd h.ne_directory contents

theorem exists_remove {contents : ByteArray} (h : t.find? l = some (.file contents)) :
    ∃ t', t.remove path = .ok t' ∧ t.Revised (Function.update t.find? l none) t' := by
  have hview := find?_erase t hpath.ne_root
  have hplain : Plain (t.find? l) := .inr ⟨contents,h⟩
  refine ⟨_,remove_of_some hpath h (by simp),hview,?_,.of_update (start_erase ..) hview hplain .none⟩
  rw [WellFormed,hview]
  exact IsTree.update_none ht hplain.ne_directory

end Denoted

theorem read_eq_of_plain {t t' : FileTree} {path : String} {l : Location}
    (hpath : t.Denotes path l) (hpath' : t'.Denotes path l) (hplain : Plain (t.find? l))
    (hsame : t'.find? l = t.find? l) :
    t'.read path = t.read path ∧ t'.entryOf path = t.entryOf path := by
  rcases hplain with hnone | ⟨contents,hfile⟩
  · rw [read_of_none hpath hnone,read_of_none hpath' (hsame.trans hnone),
      entryOf_of_none hpath hnone,entryOf_of_none hpath' (hsame.trans hnone)]
    exact ⟨rfl,rfl⟩
  · rw [read_of_file hpath hfile,read_of_file hpath' (hsame.trans hfile),
      entryOf_of_some hpath hfile,entryOf_of_some hpath' (hsame.trans hfile)]
    exact ⟨rfl,rfl⟩

section Rename

variable {t : FileTree} {path path' : String} {l l' : Location} (hpath : t.Denotes path l)
  (hpath' : t.Denotes path' l')

theorem not_contains_nul_of_slot {s : Slot} (h : t.slot path = .ok s) :
    path.toList.contains '\x00' = false := by
  obtain ⟨hcheck,-⟩ := slot_eq_ok_iff.mp h
  by_contra hnul
  rw [Path.check,if_pos (by simpa using hnul)] at hcheck
  cases hcheck

/-- Nothing that is not a directory lies above a directory. -/
theorem not_isPrefixOf_of_directory (ht : t.WellFormed) (hl : t.find? l ≠ some .directory)
    (hl' : t.find? l' = some .directory) : l.isPrefixOf l' = false := by
  by_contra hprefix
  have hprefix' : l <+: l' := by simpa using hprefix
  obtain ⟨rest,rfl⟩ := hprefix'
  cases rest with
  | nil => exact hl (by simpa using hl')
  | cons n rest => exact hl (IsTree.directory_above ht (by rw [hl']; simp))

include hpath hpath'

theorem rename_of_none (h : t.find? l = none) : t.rename path path' = .error .notFound := by
  obtain ⟨d,name,rfl,-,hshort,-,hslot,-⟩ := hpath.exists_resolve
  obtain ⟨d',name',rfl,-,-,-,hslot',-⟩ := hpath'.exists_resolve
  have hentry : t.entryAt d name = .ok none := by rw [entryAt,if_neg hshort.not_gt,h]
  simp only [rename,not_contains_nul_of_slot hslot',Bool.false_eq_true,if_false,hslot,hslot',
    ok_bind,hentry]
  rfl

theorem rename_onto_directory {contents : ByteArray} (h : t.find? l = some (.file contents))
    (h' : t.find? l' = some .directory) : ∃ fault, t.rename path path' = .error fault := by
  obtain ⟨d,name,rfl,-,hshort,-,hslot,-⟩ := hpath.exists_resolve
  obtain ⟨d',name',rfl,-,hshort',-,hslot',-⟩ := hpath'.exists_resolve
  have hentry : t.entryAt d name = .ok (some (.file contents)) := by
    rw [entryAt,if_neg hshort.not_gt,h]
  have hentry' : t.entryAt d' name' = .ok (some .directory) := by
    rw [entryAt,if_neg hshort'.not_gt,h']
  have hne : d ++ [name] ≠ d' ++ [name'] := by
    intro heq
    rw [heq,h'] at h
    cases h
  have hreplace : t.checkReplace (.file contents) (d' ++ [name']) (some .directory) =
      .error .isDirectory := by simp [checkReplace]
  simp only [rename,not_contains_nul_of_slot hslot',Bool.false_eq_true,if_false,hslot,hslot',
    ok_bind,hentry,hentry',hne,hreplace]
  split_ifs
  all_goals exact ⟨_,rfl⟩

theorem rename_of_file (ht : t.WellFormed) {contents : ByteArray}
    (h : t.find? l = some (.file contents)) (h' : t.find? l' ≠ some .directory) (hne : l ≠ l') :
    t.rename path path' = .ok (t.move l l') := by
  obtain ⟨d,name,rfl,-,hshort,hd,hslot,-⟩ := hpath.exists_resolve
  obtain ⟨d',name',rfl,-,hshort',hd',hslot',-⟩ := hpath'.exists_resolve
  have hentry : t.entryAt d name = .ok (some (.file contents)) := by
    rw [entryAt,if_neg hshort.not_gt,h]
  have hentry' : t.entryAt d' name' = .ok (t.find? (d' ++ [name'])) := by
    rw [entryAt,if_neg hshort'.not_gt]
  have habove := not_isPrefixOf_of_directory ht (by rw [h]; simp) hd'
  have hbelow := not_isPrefixOf_of_directory ht h' hd
  have hreplace : t.checkReplace (.file contents) (d' ++ [name']) (t.find? (d' ++ [name'])) =
      .ok () := by
    cases hold : t.find? (d' ++ [name']) with
    | none => rfl
    | some e =>
      cases e with
      | directory => exact absurd hold h'
      | file old => simp [checkReplace]
      | link target => simp [checkReplace]
  simp only [rename,not_contains_nul_of_slot hslot',Bool.false_eq_true,if_false,hslot,hslot',
    ok_bind,hentry,hentry',hne,hreplace,habove,hbelow,or_self,and_false]
  rfl

/-- Moving a file onto anything but a directory takes it there. -/
theorem exists_rename_onto (ht : t.WellFormed) {contents : ByteArray}
    (h : t.find? l = some (.file contents)) (h' : t.find? l' ≠ some .directory) (hne : l ≠ l') :
    ∃ t', t.rename path path' = .ok t' ∧ t'.start = t.start ∧ t'.WellFormed ∧ t'.find? =
      Function.update (Function.update t.find? l' (some (.file contents))) l none := by
  have hview := find?_move ht h h' hne
  refine ⟨_,rename_of_file hpath hpath' ht h h' hne,start_move ..,?_,hview⟩
  obtain ⟨d',name',rfl,-,-,hd',-⟩ := hpath'.exists_resolve
  have hmiddle := IsTree.update_file ht hd' h' contents
  rw [WellFormed,hview]
  apply hmiddle.update_none
  rw [Function.update_of_ne hne,h]
  simp

theorem exists_rename (ht : t.WellFormed) {contents : ByteArray}
    (h : t.find? l = some (.file contents)) (h' : Plain (t.find? l')) (hne : l ≠ l') :
    ∃ t', t.rename path path' = .ok t' ∧
      t.Revised (Function.update (Function.update t.find? l' (some (.file contents))) l none) t' := by
  obtain ⟨t',hrename,hstart,hwellFormed,hview⟩ :=
    exists_rename_onto hpath hpath' ht h h'.ne_directory hne
  refine ⟨t',hrename,hview,hwellFormed,?_⟩
  -- through the tree that holds the file at both places
  have hmiddle := find?_insert t hpath'.ne_root (.file contents)
  have hfirst : SameWays t (t.insert l' (.file contents)) :=
    .of_update (start_insert ..) hmiddle h' (.file contents)
  have hsecond : SameWays (t.insert l' (.file contents)) t' := by
    refine .of_update (l := l) (x := none) hstart (by rw [hview,hmiddle]) ?_ .none
    rw [hmiddle,Function.update_of_ne hne,h]
    exact .file contents
  exact hfirst.trans hsecond

end Rename

end FileTree
end ControlStore
