import ControlStore.Proofs.Output.Steps

/-! Swapping one staged file in. An item has three places: where its contents wait, its target, and
its backup. A swap leaves every other place alone, and an item that cannot be swapped in keeps what
its three places hold. -/
namespace ControlStore
namespace Output

open FileTree

/-- A staged file and its target, with the locations of both and of the backup. -/
structure Item where
  staged : String
  path : String
  stagedAt : Option Location
  pathAt : Option Location
  backupAt : Option Location

namespace Item

def places (i : Item) : List (Option Location) := [i.stagedAt,i.pathAt,i.backupAt]

def Apart (i j : Item) : Prop := ∀ x ∈ i.places, ∀ y ∈ j.places, ControlStore.Apart x y

theorem Apart.symm {i j : Item} (h : i.Apart j) : j.Apart i :=
  fun y hy x hx => (h x hx y hy).symm

/-- The paths of an item lead to its places, which lie apart. -/
structure Placed (t₀ : FileTree) (i : Item) : Prop where
  staged : t₀.Reaches i.staged i.stagedAt
  path : t₀.Reaches i.path i.pathAt
  backup : t₀.Reaches (backupPath i.path) i.backupAt
  staged_path : ControlStore.Apart i.stagedAt i.pathAt
  staged_backup : ControlStore.Apart i.stagedAt i.backupAt
  path_backup : ControlStore.Apart i.pathAt i.backupAt

def Holds (i : Item) (w : World) (staged path backup : Option Entry) : Prop :=
  w.held i.stagedAt = staged ∧ w.held i.pathAt = path ∧ w.held i.backupAt = backup

/-- An item can be swapped in: its contents wait, its target is in reach, and what the target holds
can be moved aside. -/
def Ready (i : Item) (staged path backup : Option Entry) : Prop :=
  staged ≠ none ∧ i.pathAt ≠ none ∧ (path = none ∨ i.backupAt ≠ none ∧ backup = none)

end Item

section MoveAside

variable {t₀ : FileTree} {i : Item} {w : World} (hi : i.Placed t₀) (hw : w.Within t₀)

include hi hw

theorem moveAside_of_none (h : w.held i.pathAt = none) :
    (moveAside i.path : StateM World _) w = (.ok none,w) := by
  have hpresent : w.files.isPresent i.path = false := by
    have hpath := hi.path.sameWays hw.sameWays
    cases hx : i.pathAt with
    | none =>
      rw [hx] at hpath
      exact hpath.2
    | some l =>
      rw [hx] at hpath h
      exact isPresent_of_none hpath h
  simp only [moveAside,bind_apply,isPresent_apply,hpresent]
  rfl

theorem isPresent_target {contents : ByteArray} (h : w.held i.pathAt = some (.file contents)) :
    w.files.isPresent i.path = true := by
  have hpath := hi.path.sameWays hw.sameWays
  cases hx : i.pathAt with
  | none =>
    rw [hx] at h
    cases h
  | some l =>
    rw [hx] at hpath h
    exact isPresent_of_file hpath h

theorem moveAside_of_file {contents : ByteArray} (h : w.held i.pathAt = some (.file contents))
    (hreach : i.backupAt ≠ none) (hfree : w.held i.backupAt = none) :
    ∃ w', (moveAside i.path : StateM World _) w = (.ok (some (backupPath i.path)),w') ∧
      w'.Within t₀ ∧ w.OnlyAt i.places w' ∧
      i.Holds w' (w.held i.stagedAt) none (some (.file contents)) := by
  obtain ⟨l,hl⟩ := Option.ne_none_iff_exists'.mp hreach
  obtain ⟨t,hrename,hwithin,honly,hpath,hbackup⟩ := rename_exec hw hi.path hi.backup hi.path_backup
    h hl (hfree ▸ .none)
  refine ⟨{ w with files := t },?_,hwithin,honly.mono (by simp [Item.places]),?_,hpath,hbackup⟩
  · simp only [moveAside,bind_apply,isPresent_apply,isPresent_target hi hw h,if_true,rename_apply,
      hrename,World.change]
    rfl
  · apply honly.held_eq
    simp [hi.staged_path,hi.staged_backup]

theorem moveAside_refused {contents : ByteArray} (h : w.held i.pathAt = some (.file contents))
    (hbackup : i.backupAt = none ∨ w.held i.backupAt = some .directory) :
    ∃ e, (moveAside i.path : StateM World _) w = (.error e,w) := by
  obtain ⟨fault,hrename⟩ := rename_refused hw hi.path hi.backup (h ▸ .file contents) (.inr hbackup)
  refine ⟨.file i.path fault,?_⟩
  simp only [moveAside,bind_apply,isPresent_apply,isPresent_target hi hw h,if_true,rename_apply,
    hrename,World.change]
  rfl

end MoveAside

section Apply

variable {staged path : String} {w w' : World} {t : FileTree} {fault : FileFault}

theorem swapIn_of_refused {e : Error}
    (h : (moveAside path : StateM World _) w = (.error e,w')) :
    (swapIn staged path : StateM World _) w = (.error e,w') := by
  simp only [swapIn,bind_apply,h]
  rfl

theorem swapIn_of_renamed {backup : Option String}
    (h : (moveAside path : StateM World _) w = (.ok backup,w'))
    (hrename : w'.files.rename staged path = .ok t) :
    (swapIn staged path : StateM World _) w = (.ok backup,{ w' with files := t }) := by
  simp only [swapIn,bind_apply,h,rename_apply,hrename,World.change]
  rfl

theorem swapIn_of_not_renamed (h : (moveAside path : StateM World _) w = (.ok none,w'))
    (hrename : w'.files.rename staged path = .error fault) :
    (swapIn staged path : StateM World _) w = (.error (.file path fault),w') := by
  simp only [swapIn,bind_apply,h,rename_apply,hrename,World.change]
  rfl

theorem swapIn_of_restored {backup : String}
    (h : (moveAside path : StateM World _) w = (.ok (some backup),w'))
    (hrename : w'.files.rename staged path = .error fault)
    (hrestore : w'.files.rename backup path = .ok t) :
    (swapIn staged path : StateM World _) w =
      (.error (.file path fault),{ w' with files := t }) := by
  simp only [swapIn,bind_apply,h,rename_apply,hrename,World.change,restore_of_ok hrestore]
  rfl

end Apply

section SwapIn

variable {t₀ : FileTree} {i : Item} {w : World} (hi : i.Placed t₀) (hw : w.Within t₀)
  (hstaged : Plain (w.held i.stagedAt)) (hpath : Plain (w.held i.pathAt))

include hi hw hstaged hpath

/-- An item that is ready is swapped in; what its target held is in the backup. -/
theorem swapIn_of_ready
    (hready : i.Ready (w.held i.stagedAt) (w.held i.pathAt) (w.held i.backupAt)) :
    ∃ w', (swapIn i.staged i.path : StateM World _) w =
        (.ok (if w.held i.pathAt = none then none else some (backupPath i.path)),w') ∧
      w'.Within t₀ ∧ w.OnlyAt i.places w' ∧ i.Holds w' none (w.held i.stagedAt)
        (if w.held i.pathAt = none then w.held i.backupAt else w.held i.pathAt) := by
  obtain ⟨hne,hreach,hbackup⟩ := hready
  obtain ⟨contents,hfile⟩ := hstaged.resolve_left hne
  obtain ⟨l,hl⟩ := Option.ne_none_iff_exists'.mp hreach
  by_cases hnone : w.held i.pathAt = none
  · obtain ⟨t,hrename,hwithin,honly,hstaged',hpath'⟩ := rename_exec hw hi.staged hi.path
      hi.staged_path hfile hl hpath
    refine ⟨{ w with files := t },?_,hwithin,honly.mono (by simp [Item.places]),hstaged',?_,?_⟩
    · rw [if_pos hnone]
      exact swapIn_of_renamed (moveAside_of_none hi hw hnone) hrename
    · rw [hpath',hfile]
    · rw [if_pos hnone]
      apply honly.held_eq
      simp [hi.staged_backup.symm,hi.path_backup.symm]
  · obtain ⟨old,hold⟩ := hpath.resolve_left hnone
    obtain ⟨hreach',hfree⟩ := hbackup.resolve_left hnone
    obtain ⟨w₁,hmove,hw₁,honly₁,hstaged₁,hpath₁,hbackup₁⟩ :=
      moveAside_of_file hi hw hold hreach' hfree
    obtain ⟨t,hrename,hwithin,honly,hstaged',hpath'⟩ := rename_exec hw₁ hi.staged hi.path
      hi.staged_path (hstaged₁.trans hfile) hl (hpath₁ ▸ .none)
    refine ⟨{ w₁ with files := t },?_,hwithin,
      honly₁.trans (honly.mono (by simp [Item.places])),hstaged',?_,?_⟩
    · rw [if_neg hnone]
      exact swapIn_of_renamed hmove hrename
    · rw [hpath',hfile]
    · rw [if_neg hnone,hold,← hbackup₁]
      apply honly.held_eq
      simp [hi.staged_backup.symm,hi.path_backup.symm]

/-- An item that is not ready stays as it is. -/
theorem swapIn_of_not_ready
    (hbackup : w.held i.backupAt = none ∨ w.held i.backupAt = some .directory)
    (hready : ¬i.Ready (w.held i.stagedAt) (w.held i.pathAt) (w.held i.backupAt)) :
    ∃ e w', (swapIn i.staged i.path : StateM World _) w = (.error e,w') ∧ w'.Within t₀ ∧
      w.OnlyAt i.places w' ∧
      i.Holds w' (w.held i.stagedAt) (w.held i.pathAt) (w.held i.backupAt) := by
  by_cases hnone : w.held i.pathAt = none
  · have hrefused : w.held i.stagedAt = none ∨ i.pathAt = none ∨
        w.held i.pathAt = some .directory := by
      by_contra h
      push Not at h
      exact hready ⟨h.1,h.2.1,.inl hnone⟩
    obtain ⟨fault,hrename⟩ := rename_refused hw hi.staged hi.path hstaged hrefused
    exact ⟨_,w,swapIn_of_not_renamed (moveAside_of_none hi hw hnone) hrename,hw,.refl _ _,
      rfl,rfl,rfl⟩
  · obtain ⟨old,hold⟩ := hpath.resolve_left hnone
    by_cases hfree : i.backupAt ≠ none ∧ w.held i.backupAt = none
    · -- the target is moved aside, nothing waits to take its place, and it comes back
      obtain ⟨w₁,hmove,hw₁,honly₁,hstaged₁,hpath₁,hbackup₁⟩ :=
        moveAside_of_file hi hw hold hfree.1 hfree.2
      have hgone : w.held i.stagedAt = none := by
        by_contra hne
        have hreach : i.pathAt ≠ none := by
          intro h
          rw [h] at hold
          cases hold
        exact hready ⟨hne,hreach,.inr hfree⟩
      obtain ⟨l,hl⟩ : ∃ l, i.pathAt = some l := by
        apply Option.ne_none_iff_exists'.mp
        intro h
        rw [h] at hold
        cases hold
      obtain ⟨fault,hrename⟩ := rename_refused hw₁ hi.staged hi.path
        (by rw [hstaged₁,hgone]; exact .none) (.inl (hstaged₁.trans hgone))
      obtain ⟨t,hrestore,hwithin,honly,hbackup',hpath'⟩ := rename_exec hw₁ hi.backup hi.path
        hi.path_backup.symm hbackup₁ hl (hpath₁ ▸ .none)
      refine ⟨_,_,swapIn_of_restored hmove hrename hrestore,hwithin,
        honly₁.trans (honly.mono (by simp [Item.places])),?_,?_,?_⟩
      · rw [← hstaged₁]
        apply honly.held_eq
        simp [hi.staged_backup,hi.staged_path]
      · rw [hpath',hold]
      · rw [hbackup',hfree.2]
    · have hrefused : i.backupAt = none ∨ w.held i.backupAt = some .directory := by
        by_contra h
        push Not at h
        exact hfree ⟨h.1,hbackup.resolve_right h.2⟩
      obtain ⟨e,hmove⟩ := moveAside_refused hi hw hold hrefused
      exact ⟨e,w,swapIn_of_refused hmove,hw,.refl _ _,rfl,rfl,rfl⟩

end SwapIn
end Output
end ControlStore
