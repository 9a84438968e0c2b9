import Mathlib.Data.List.Infix
import Mathlib.Logic.Equiv.Basic
import Mathlib.Logic.Function.Basic
import ControlStore.Files

/-! What changes do to a tree of files. A tree is seen through `find?`; putting, removing and moving
a file update this view at one or two locations and leave every other location alone. -/
namespace ControlStore

/-- A view of a path tree: the root is a directory, and so is whatever holds an entry. -/
structure IsTree (f : Location → Option Entry) : Prop where
  root : f [] = some .directory
  parent : ∀ l n, f (l ++ [n]) ≠ none → f l = some .directory

namespace IsTree

variable {f : Location → Option Entry} {l : Location}

theorem directory_above (hf : IsTree f) {n : String} {rest : List String}
    (h : f (l ++ n :: rest) ≠ none) : f l = some .directory := by
  induction rest using List.reverseRecOn generalizing n with
  | nil => exact hf.parent l n h
  | append_singleton rest m ih =>
    apply ih (n := n)
    have hparent := hf.parent (l ++ n :: rest) m (by simpa using h)
    rw [hparent]
    simp

theorem ne_root (hf : IsTree f) (hl : f l ≠ some .directory) : l ≠ [] := by
  intro h
  rw [h] at hl
  exact hl hf.root

theorem update_file (hf : IsTree f) {d : Location} {n : String} (hd : f d = some .directory)
    (hl : f (d ++ [n]) ≠ some .directory) (contents : ByteArray) :
    IsTree (Function.update f (d ++ [n]) (some (.file contents))) := by
  constructor
  · rw [Function.update_of_ne (by simp),hf.root]
  · intro l m h
    by_cases heq : l ++ [m] = d ++ [n]
    · obtain rfl := (List.append_inj' heq rfl).1
      rw [Function.update_of_ne (by simp),hd]
    · rw [Function.update_of_ne heq] at h
      have hdir := hf.parent l m h
      rw [Function.update_of_ne (by intro hl'; exact hl (hl' ▸ hdir)),hdir]

theorem update_none (hf : IsTree f) (hl : f l ≠ some .directory) :
    IsTree (Function.update f l none) := by
  constructor
  · rw [Function.update_of_ne (hf.ne_root hl).symm,hf.root]
  · intro l' m h
    by_cases heq : l' ++ [m] = l
    · rw [heq,Function.update_self] at h
      exact absurd rfl h
    · rw [Function.update_of_ne heq] at h
      have hdir := hf.parent l' m h
      rw [Function.update_of_ne (by intro hl'; exact hl (hl' ▸ hdir)),hdir]

end IsTree

namespace FileTree

section Lookup

variable {entries : List (Location × Entry)}

theorem lookup_filter_ne (l l' : Location) :
    (entries.filter (·.1 ≠ l)).lookup l' = if l' = l then none else entries.lookup l' := by
  induction entries with
  | nil => simp
  | cons p entries ih =>
    obtain ⟨k,e⟩ := p
    by_cases hk : k = l
    · rw [List.filter_cons_of_neg (by simpa using hk),ih]
      by_cases hl : l' = l
      · rw [if_pos hl,if_pos hl]
      · have hbeq : (l' == k) = false := by simpa [hk] using hl
        rw [if_neg hl,if_neg hl,List.lookup_cons,hbeq]
    · rw [List.filter_cons_of_pos (by simpa using hk),List.lookup_cons,List.lookup_cons,ih]
      by_cases hl : l' = l
      · have hbeq : (l' == k) = false := by simpa [hl] using Ne.symm hk
        rw [if_pos hl,if_pos hl,hbeq]
      · rw [if_neg hl,if_neg hl]

theorem lookup_map_location {g : Location → Location} {l l' : Location}
    (h : ∀ p ∈ entries, g p.1 = l' ↔ p.1 = l) :
    (entries.map fun (k,e) => (g k,e)).lookup l' = entries.lookup l := by
  induction entries with
  | nil => rfl
  | cons p entries ih =>
    obtain ⟨k,e⟩ := p
    rw [List.forall_mem_cons] at h
    rw [List.map_cons,List.lookup_cons,List.lookup_cons,ih h.2]
    have hk : (l' == g k) = (l == k) := by
      rw [Bool.eq_iff_iff,beq_iff_eq,beq_iff_eq,eq_comm,h.1,eq_comm]
    rw [hk]

end Lookup

section View

variable {t : FileTree} {l : Location}

theorem find?_of_ne {l : Location} (hl : l ≠ []) : t.find? l = t.entries.lookup l := by
  rw [find?,if_neg hl]

@[simp] theorem start_erase (t : FileTree) (l : Location) : (t.erase l).start = t.start := rfl

@[simp] theorem start_insert (t : FileTree) (l : Location) (e : Entry) :
    (t.insert l e).start = t.start := rfl

@[simp] theorem start_move (t : FileTree) (old new : Location) :
    (t.move old new).start = t.start := rfl

theorem find?_erase (t : FileTree) (hl : l ≠ []) :
    (t.erase l).find? = Function.update t.find? l none := by
  funext l'
  by_cases hroot : l' = []
  · subst hroot
    rw [Function.update_of_ne hl.symm]
    rfl
  · rw [find?_of_ne hroot,erase,lookup_filter_ne]
    by_cases hl' : l' = l
    · rw [if_pos hl',hl',Function.update_self]
    · rw [if_neg hl',Function.update_of_ne hl',find?_of_ne hroot]

theorem find?_insert (t : FileTree) (hl : l ≠ []) (e : Entry) :
    (t.insert l e).find? = Function.update t.find? l (some e) := by
  funext l'
  by_cases hl' : l' = l
  · subst hl'
    rw [find?_of_ne hl,insert,Function.update_self]
    simp
  · have herase := congrFun (find?_erase t hl) l'
    rw [Function.update_of_ne hl'] at herase
    rw [Function.update_of_ne hl',← herase,find?,find?,insert,List.lookup_cons]
    have hne : (l' == l) = false := by simpa using hl'
    rw [hne]

theorem find?_ne_none_of_mem {p : Location × Entry} (h : p ∈ t.entries) : t.find? p.1 ≠ none := by
  rw [find?]
  split
  · simp
  · intro hnone
    rw [List.lookup_eq_none_iff] at hnone
    exact absurd (hnone p h) (by simp)

/-- Nothing lies below a file, so a new name for it renames no other location. -/
theorem rebase_of_file {old new : Location} {contents : ByteArray} (ht : IsTree t.find?)
    (hold : t.find? old = some (.file contents)) {p : Location × Entry} (hp : p ∈ t.entries) :
    rebase old new p.1 = if p.1 = old then new else p.1 := by
  rw [rebase]
  by_cases hprefix : old <+: p.1
  · obtain ⟨rest,hrest⟩ := hprefix
    cases rest with
    | nil => simp [← hrest]
    | cons n rest =>
      have hfound : t.find? (old ++ n :: rest) ≠ none := by
        rw [hrest]
        exact find?_ne_none_of_mem hp
      have hdir := ht.directory_above hfound
      rw [hold] at hdir
      simp at hdir
  · have hpold : p.1 ≠ old := fun h => hprefix (h ▸ List.prefix_refl _)
    rw [if_neg hpold,if_neg (by simpa using hprefix)]

theorem find?_move_eq_swap {old new : Location} {contents : ByteArray} (ht : IsTree t.find?)
    (hold : t.find? old = some (.file contents)) (hnew : new ≠ []) (hl : l ≠ []) :
    (t.move old new).find? l = (t.erase new).find? (Equiv.swap old new l) := by
  have hold' : old ≠ [] := ht.ne_root (by rw [hold]; simp)
  have hswap : Equiv.swap old new l ≠ [] := by
    intro h
    rw [Equiv.swap_apply_eq_iff,Equiv.swap_apply_of_ne_of_ne hold'.symm hnew.symm] at h
    exact hl h
  rw [find?_of_ne hl,find?_of_ne hswap,move]
  apply lookup_map_location
  intro p hp
  obtain ⟨hp,hpnew⟩ := List.mem_filter.mp hp
  have hpnew' : p.1 ≠ new := by simpa using hpnew
  have hswap' : p.1 = Equiv.swap old new l ↔ Equiv.swap old new p.1 = l := by
    rw [Equiv.swap_apply_eq_iff]
  rw [rebase_of_file ht hold hp,hswap']
  by_cases hpold : p.1 = old
  · rw [if_pos hpold,hpold,Equiv.swap_apply_left]
  · rw [if_neg hpold,Equiv.swap_apply_of_ne_of_ne hpold hpnew']

/-- Moving a file takes it from one location to another and changes nothing else. -/
theorem find?_move {old new : Location} {contents : ByteArray} (ht : IsTree t.find?)
    (hold : t.find? old = some (.file contents)) (hnew : t.find? new ≠ some .directory)
    (hne : old ≠ new) :
    (t.move old new).find? =
      Function.update (Function.update t.find? new (some (.file contents))) old none := by
  have hold' : old ≠ [] := ht.ne_root (by rw [hold]; simp)
  have hnew' : new ≠ [] := ht.ne_root hnew
  funext l
  by_cases hroot : l = []
  · subst hroot
    rw [Function.update_of_ne hold'.symm,Function.update_of_ne hnew'.symm]
    rfl
  rw [find?_move_eq_swap ht hold hnew' hroot,find?_erase t hnew']
  by_cases hl : l = old
  · rw [hl,Equiv.swap_apply_left,Function.update_self,Function.update_self]
  · rw [Function.update_of_ne hl]
    by_cases hl' : l = new
    · rw [hl',Equiv.swap_apply_right,Function.update_of_ne hne,Function.update_self,hold]
    · rw [Equiv.swap_apply_of_ne_of_ne hl hl',Function.update_of_ne hl',Function.update_of_ne hl']

end View

def WellFormed (t : FileTree) : Prop := IsTree t.find?

theorem wellFormed_iff {t : FileTree} :
    t.WellFormed ↔ ∀ p ∈ t.entries, p.1 ≠ [] → t.find? p.1.dropLast = some .directory := by
  constructor
  · intro ht p hp hne
    apply ht.parent p.1.dropLast (p.1.getLast hne)
    rw [List.dropLast_append_getLast]
    exact find?_ne_none_of_mem hp
  · intro h
    refine ⟨by simp [find?],?_⟩
    intro l n hfound
    rw [find?_of_ne (by simp)] at hfound
    obtain ⟨e,he⟩ := Option.ne_none_iff_exists'.mp hfound
    obtain ⟨front,back,hentries,-⟩ := List.lookup_eq_some_iff.mp he
    have hparent := h (l ++ [n],e) (by rw [hentries]; simp) (by simp)
    rwa [List.dropLast_concat] at hparent

instance (t : FileTree) : Decidable t.WellFormed := decidable_of_iff' _ wellFormed_iff

end FileTree
end ControlStore
