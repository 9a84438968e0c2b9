import ControlStore.Output
import ControlStore.Proofs.Files.Reach

/-! Single actions of writing artifacts, on a tree of files in memory. What a path holds is nothing,
a file, a directory or a link; a path out of reach holds nothing. Each action is followed on the
locations it is about, and every other location keeps what it holds. -/
namespace ControlStore

open FileTree

/-- The files of a world are a path tree with the directories and links of `t₀`. -/
structure World.Within (t₀ : FileTree) (w : World) : Prop where
  wellFormed : w.files.WellFormed
  sameWays : SameWays t₀ w.files

def World.held (w : World) (x : Option Location) : Option Entry := x.bind w.files.find?

def World.OnlyAt (xs : List (Option Location)) (w w' : World) : Prop :=
  ∀ l, some l ∉ xs → w'.files.find? l = w.files.find? l

/-- Two paths do not lead to one location. -/
def Apart (x y : Option Location) : Prop := ∀ l, x = some l → y ≠ some l

theorem Apart.symm {x y : Option Location} (h : Apart x y) : Apart y x :=
  fun l hy hx => h l hx hy

namespace World

variable {t₀ : FileTree} {w w' w'' : World} {x y : Option Location} {xs ys : List (Option Location)}

@[simp] theorem held_none (w : World) : w.held none = none := rfl

@[simp] theorem held_some (w : World) (l : Location) : w.held (some l) = w.files.find? l := rfl

theorem OnlyAt.refl (xs : List (Option Location)) (w : World) : OnlyAt xs w w := fun _ _ => rfl

theorem OnlyAt.trans (h : OnlyAt xs w w') (h' : OnlyAt xs w' w'') : OnlyAt xs w w'' :=
  fun l hl => (h' l hl).trans (h l hl)

theorem OnlyAt.mono (h : OnlyAt xs w w') (hsub : ∀ x ∈ xs, x ∈ ys) : OnlyAt ys w w' :=
  fun l hl => h l fun hmem => hl (hsub _ hmem)

theorem OnlyAt.held_eq (h : OnlyAt xs w w') (hx : ∀ y ∈ xs, Apart x y) : w'.held x = w.held x := by
  cases x with
  | none => rfl
  | some l => exact h l fun hmem => hx _ hmem l rfl rfl

theorem Within.revised (hw : w.Within t₀) {view : Location → Option Entry} {t : FileTree}
    (h : w.files.Revised view t) (hfiles : w'.files = t) : w'.Within t₀ := by
  subst hfiles
  exact ⟨h.wellFormed,hw.sameWays.trans h.sameWays⟩

theorem Within.entryOf_eq_ok_iff (hw : w.Within t₀) {path : String} (hx : t₀.Reaches path x)
    {e : Entry} : w.files.entryOf path = .ok e ↔ w.held x = some e :=
  (hx.sameWays hw.sameWays).entryOf_eq_ok_iff hw.wellFormed

end World

section Storage

variable {α β : Type} {w : World} {t : FileTree} {fault : FileFault} {path path' : String}

theorem bind_apply (x : StateM World α) (f : α → StateM World β) (w : World) :
    (x >>= f) w = f (x w).1 (x w).2 := rfl

theorem remove_apply (w : World) (path : String) :
    (Storage.remove path : StateM World _) w = w.change (w.files.remove path) := rfl

theorem rename_apply (w : World) (path path' : String) :
    (Storage.rename path path' : StateM World _) w = w.change (w.files.rename path path') := rfl

theorem write_apply (w : World) (path contents : String) :
    (Storage.write path contents : StateM World _) w =
      w.change (w.files.write path contents.toUTF8) := rfl

theorem isPresent_apply (w : World) (path : String) :
    (Storage.isPresent path : StateM World _) w = (w.files.isPresent path,w) := rfl

theorem isRegular_apply (w : World) (path : String) :
    (Storage.isRegular path : StateM World _) w = ((w.files.entryOf path).map (·.isFile),w) := rfl

theorem discard_of_ok (h : w.files.remove path = .ok t) :
    (Output.discard path : StateM World Unit) w = ((),{ w with files := t }) := by
  simp only [Output.discard,bind_apply,remove_apply,h,World.change]
  rfl

theorem discard_of_error (h : w.files.remove path = .error fault) :
    ∃ w', (Output.discard path : StateM World Unit) w = ((),w') ∧ w'.files = w.files := by
  simp only [Output.discard,bind_apply,remove_apply,h,World.change]
  cases fault <;> exact ⟨_,rfl,rfl⟩

theorem restore_of_ok (h : w.files.rename path' path = .ok t) :
    (Output.restore path path' : StateM World Unit) w = ((),{ w with files := t }) := by
  simp only [Output.restore,bind_apply,rename_apply,h,World.change]
  rfl

end Storage

section Actions

variable {t₀ : FileTree} {w : World} {path path' : String} {x x' : Option Location}
  (hw : w.Within t₀) (hx : t₀.Reaches path x)

include hw hx

/-- A file that may be missing is gone after it has been discarded. -/
theorem discard_exec (hplain : Plain (w.held x)) :
    ∃ w', (Output.discard path : StateM World Unit) w = ((),w') ∧ w'.Within t₀ ∧
      w.OnlyAt [x] w' ∧ w'.held x = none := by
  have hpath := hx.sameWays hw.sameWays
  have hunchanged {fault : FileFault} (hremove : w.files.remove path = .error fault)
      (hnone : w.held x = none) :
      ∃ w', (Output.discard path : StateM World Unit) w = ((),w') ∧ w'.Within t₀ ∧
        w.OnlyAt [x] w' ∧ w'.held x = none := by
    obtain ⟨w',hrun,hfiles⟩ := discard_of_error hremove
    refine ⟨w',hrun,?_,?_,?_⟩
    · exact ⟨hfiles ▸ hw.wellFormed,hfiles ▸ hw.sameWays⟩
    · intro l _
      rw [hfiles]
    · rw [World.held,hfiles]
      exact hnone
  cases x with
  | none =>
    obtain ⟨fault,hremove⟩ := remove_out_of_reach hpath
    exact hunchanged hremove rfl
  | some l =>
    rcases hplain with hnone | ⟨contents,hfile⟩
    · exact hunchanged (remove_of_none hpath hnone) hnone
    · obtain ⟨t,hremove,hrevised⟩ := exists_remove hw.wellFormed hpath hfile
      refine ⟨{ w with files := t },discard_of_ok hremove,hw.revised hrevised rfl,?_,?_⟩
      · intro l' hl'
        have hne : l' ≠ l := fun h => hl' (by simp [h])
        simp [hrevised.view,hne]
      · simp [hrevised.view]

variable (hx' : t₀.Reaches path' x')

include hx'

theorem rename_exec {contents : ByteArray} {l' : Location} (hapart : Apart x x')
    (hfile : w.held x = some (.file contents)) (hl' : x' = some l') (hplain : Plain (w.held x')) :
    ∃ t, w.files.rename path path' = .ok t ∧ World.Within t₀ { w with files := t } ∧
      w.OnlyAt [x,x'] { w with files := t } ∧ World.held { w with files := t } x = none ∧
      World.held { w with files := t } x' = some (.file contents) := by
  have hpath := hx.sameWays hw.sameWays
  have hpath' := hx'.sameWays hw.sameWays
  subst hl'
  cases x with
  | none => cases hfile
  | some l =>
    have hne : l ≠ l' := fun h => hapart l rfl (by rw [h])
    obtain ⟨t,hrename,hrevised⟩ := exists_rename hpath hpath' hw.wellFormed hfile hplain hne
    refine ⟨t,hrename,hw.revised hrevised rfl,?_,?_,?_⟩
    · intro l'' hl''
      have hl : l'' ≠ l := fun h => hl'' (by simp [h])
      have hl' : l'' ≠ l' := fun h => hl'' (by simp [h])
      simp [hrevised.view,hl,hl']
    · simp [hrevised.view]
    · simp [hrevised.view,hne.symm]

/-- Nothing moves from a path that holds nothing, nor out of reach, nor onto a directory. -/
theorem rename_refused (hplain : Plain (w.held x))
    (h : w.held x = none ∨ x' = none ∨ w.held x' = some .directory) :
    ∃ fault, w.files.rename path path' = .error fault := by
  have hpath := hx.sameWays hw.sameWays
  have hpath' := hx'.sameWays hw.sameWays
  cases x with
  | none => exact rename_from_out_of_reach hpath path'
  | some l =>
    cases x' with
    | none => exact rename_to_out_of_reach hpath hplain hpath'
    | some l' =>
      rcases hplain with hnone | ⟨contents,hfile⟩
      · exact ⟨.notFound,rename_of_none hpath hpath' hnone⟩
      · rcases h with h | h | h
        · rw [hfile] at h
          cases h
        · cases h
        · exact rename_onto_directory hpath hpath' hfile h

end Actions
end ControlStore
