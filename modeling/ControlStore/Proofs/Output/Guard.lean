import ControlStore.Proofs.Output.Staging

/-! Swaps among names that may be taken. A staged file may replace a file, and a target that is moved
aside may replace a file or a link. Such a link is lost, so the ways of a tree do not all stay; but
the places of an item stay in reach if they are in reach without it. -/
namespace ControlStore

open FileTree

namespace FileTree

variable {t t' b : FileTree}

/-- Changes at locations where `b` has neither directory nor link keep what `b` has. -/
theorem Keeps.of_changes (h : Keeps b t) (hstart : t'.start = t.start)
    (hsame : ∀ l e, (∀ contents, e ≠ .file contents) → b.find? l = some e →
      t'.find? l = t.find? l) : Keeps b t' := by
  refine ⟨hstart.trans h.start,?_⟩
  intro l e he hl
  rw [hsame l e he hl]
  exact h.ways l e he hl

theorem Reaches.keeps {path : String} {x : Option Location} (hx : t.Reaches path x) (hne : x ≠ none)
    (h : Keeps t t') : t'.Reaches path x := by
  cases x with
  | none => exact absurd rfl hne
  | some l => exact Denotes.keeps hx h

end FileTree

/-- The files of a world are a path tree with all directories and links of `b`. -/
structure World.Above (b : FileTree) (w : World) : Prop where
  wellFormed : w.files.WellFormed
  keeps : Keeps b w.files

namespace World.Above

variable {b : FileTree} {w w' : World}

theorem within (hw : w.Above b) : w.Within w.files := ⟨hw.wellFormed,.refl _⟩

theorem of_within (hw : w.Above b) (h : w'.Within w.files) : w'.Above b :=
  ⟨h.wellFormed,hw.keeps.trans h.sameWays.keeps⟩

end World.Above

namespace Output

/-- The places of an item are in reach by way of `b`, which has no link for the backup. -/
structure Item.Guarded (b : FileTree) (i : Item) : Prop where
  placed : i.Placed b
  reach : ∀ x ∈ i.places, x ≠ none
  unlinked : ∀ l target, i.backupAt = some l → b.find? l ≠ some (.link target)

namespace Item.Guarded

variable {b : FileTree} {i : Item} {w : World} (hi : i.Guarded b) (hw : w.Above b)

include hi

theorem exists_stagedAt : ∃ l, i.stagedAt = some l :=
  Option.ne_none_iff_exists'.mp (hi.reach _ (by simp [places]))

theorem exists_pathAt : ∃ l, i.pathAt = some l :=
  Option.ne_none_iff_exists'.mp (hi.reach _ (by simp [places]))

theorem exists_backupAt : ∃ l, i.backupAt = some l :=
  Option.ne_none_iff_exists'.mp (hi.reach _ (by simp [places]))

include hw

theorem placed_in : i.Placed w.files where
  staged := hi.placed.staged.keeps (hi.reach _ (by simp [places])) hw.keeps
  path := hi.placed.path.keeps (hi.reach _ (by simp [places])) hw.keeps
  backup := hi.placed.backup.keeps (hi.reach _ (by simp [places])) hw.keeps
  staged_path := hi.placed.staged_path
  staged_backup := hi.placed.staged_backup
  path_backup := hi.placed.path_backup

theorem moveAside {contents : ByteArray} (h : w.held i.pathAt = some (.file contents))
    (hbackup : w.held i.backupAt ≠ some .directory) :
    ∃ w', (Output.moveAside i.path : StateM World _) w = (.ok (some (backupPath i.path)),w') ∧
      w'.Above b ∧ w.OnlyAt i.places w' ∧
      i.Holds w' (w.held i.stagedAt) none (some (.file contents)) := by
  have hplaced := hi.placed_in hw
  obtain ⟨l,hl⟩ := hi.exists_pathAt
  obtain ⟨l',hl'⟩ := hi.exists_backupAt
  have hpath := hplaced.path
  have hback := hplaced.backup
  rw [hl] at hpath
  rw [hl'] at hback
  have hfile : w.files.find? l = some (.file contents) := by simpa [hl] using h
  have hfree : w.files.find? l' ≠ some .directory := by simpa [hl'] using hbackup
  have hne : l ≠ l' := by
    rintro rfl
    exact hplaced.path_backup l hl hl'
  obtain ⟨t,hrename,hstart,hwellFormed,hview⟩ :=
    exists_rename_onto hpath hback hw.wellFormed hfile hfree hne
  have honly : w.OnlyAt [i.pathAt,i.backupAt] { w with files := t } := by
    intro l'' hl''
    have hpathNe : l'' ≠ l := fun h => hl'' (by simp [hl,h])
    have hbackNe : l'' ≠ l' := fun h => hl'' (by simp [hl',h])
    simp [hview,hpathNe,hbackNe]
  have hkeeps : Keeps b t := by
    refine hw.keeps.of_changes hstart ?_
    intro l'' e he hb
    have hway := hw.keeps.ways l'' e he hb
    refine honly l'' fun hmem => ?_
    simp only [hl,hl',List.mem_cons,Option.some.injEq,List.not_mem_nil,or_false] at hmem
    rcases hmem with rfl | rfl
    · rw [hfile] at hway
      cases hway
      exact he contents rfl
    · cases e with
      | file old => exact he old rfl
      | directory => exact hfree hway
      | link target => exact hi.unlinked l'' target hl' hb
  refine ⟨{ w with files := t },?_,⟨hwellFormed,hkeeps⟩,honly.mono (by simp [places]),?_,?_,?_⟩
  · simp only [Output.moveAside,bind_apply,isPresent_apply,isPresent_target hplaced hw.within h,
      if_true,rename_apply,hrename,World.change]
    rfl
  · apply honly.held_eq
    simp [hplaced.staged_path,hplaced.staged_backup]
  · simp [hl,hview]
  · simp [hl',hview,hne.symm]

end Item.Guarded

/-- An item of a batch that starts in world `w₀` with its contents staged. -/
structure Item.Staged (b : FileTree) (w₀ : World) (i : Item) : Prop where
  guarded : i.Guarded b
  staged : ∃ contents, w₀.held i.stagedAt = some (.file contents)
  path : Plain (w₀.held i.pathAt)

/-- What a target holds cannot be moved aside, because a directory has the name of the backup. -/
def Item.Blocked (w₀ : World) (i : Item) : Prop :=
  w₀.held i.pathAt ≠ none ∧ w₀.held i.backupAt = some .directory

/-- What an item shows in a phase. A backup name that was taken is not restored. -/
def Phase.Shows (w₀ : World) (i : Item) (w : World) : Phase → Prop
  | waiting => i.Holds w (w₀.held i.stagedAt) (w₀.held i.pathAt) (w₀.held i.backupAt)
  | swapped => ¬i.Blocked w₀ ∧ w.held i.pathAt = w₀.held i.stagedAt ∧
      (w₀.held i.pathAt ≠ none → w.held i.backupAt = w₀.held i.pathAt)
  | settled => ¬i.Blocked w₀ ∧ w.held i.pathAt = w₀.held i.stagedAt
  | withdrawn => w.held i.pathAt = w₀.held i.pathAt

/-- Where a batch stands among names that may be taken. -/
structure Guards (b : FileTree) (w₀ : World) (batch : List (Item × Phase)) (w : World) : Prop where
  above : w.Above b
  staged : ∀ q ∈ batch, q.1.Staged b w₀
  apart : batch.Pairwise fun q q' => q.1.Apart q'.1
  shows : ∀ q ∈ batch, q.2.Shows w₀ q.1 w
  frame : ∀ l, (∀ q ∈ batch, some l ∉ q.1.places) → w.files.find? l = w₀.files.find? l

namespace Guards

variable {b : FileTree} {w₀ w w' : World} {i : Item} {phase phase' : Phase}
  {batch batch' : List (Item × Phase)}

theorem perm (h : Guards b w₀ batch w) (hperm : batch.Perm batch') : Guards b w₀ batch' w where
  above := h.above
  staged q hq := h.staged q (hperm.mem_iff.mpr hq)
  apart := (hperm.pairwise_iff fun h => Item.Apart.symm h).mp h.apart
  shows q hq := h.shows q (hperm.mem_iff.mpr hq)
  frame l hl := h.frame l fun q hq => hl q (hperm.mem_iff.mp hq)

theorem shows_of_onlyAt {j : Item} (h : phase.Shows w₀ j w) (honly : w.OnlyAt i.places w')
    (hapart : i.Apart j) : phase.Shows w₀ j w' := by
  have hpath : w'.held j.pathAt = w.held j.pathAt :=
    hapart.held_eq honly (by simp [Item.places])
  have hbackup : w'.held j.backupAt = w.held j.backupAt :=
    hapart.held_eq honly (by simp [Item.places])
  cases phase with
  | waiting => exact Item.Holds.of_onlyAt h honly hapart
  | swapped => exact ⟨h.1,hpath.trans h.2.1,fun hne => hbackup.trans (h.2.2 hne)⟩
  | settled => exact ⟨h.1,hpath.trans h.2⟩
  | withdrawn => exact hpath.trans h

theorem change (h : Guards b w₀ ((i,phase) :: batch) w) (habove : w'.Above b)
    (honly : w.OnlyAt i.places w') (hshows : phase'.Shows w₀ i w') :
    Guards b w₀ ((i,phase') :: batch) w' := by
  have hapart := List.pairwise_cons.mp h.apart
  have hstaged := List.forall_mem_cons.mp h.staged
  have hrest := (List.forall_mem_cons.mp h.shows).2
  refine ⟨habove,List.forall_mem_cons.mpr hstaged,List.pairwise_cons.mpr hapart,?_,?_⟩
  · refine List.forall_mem_cons.mpr ⟨hshows,fun q hq => ?_⟩
    exact shows_of_onlyAt (hrest q hq) honly (hapart.1 q hq)
  · intro l hl
    rw [List.forall_mem_cons] at hl
    rw [honly l hl.1]
    exact h.frame l (List.forall_mem_cons.mpr hl)

theorem discardStaged (h : Guards b w₀ ((i,.waiting) :: batch) w) :
    ∃ w', (discard i.staged : StateM World Unit) w = ((),w') ∧
      Guards b w₀ ((i,.withdrawn) :: batch) w' := by
  have hitem := h.staged (i,.waiting) (by simp)
  have hplaced := hitem.guarded.placed_in h.above
  obtain ⟨hstaged,hpath,-⟩ := h.shows (i,.waiting) (by simp)
  obtain ⟨w',hrun,hwithin,honly,-⟩ := discard_exec h.above.within hplaced.staged
    (by rw [hstaged]; exact .inr hitem.staged)
  refine ⟨w',hrun,h.change (h.above.of_within hwithin) (honly.mono (by simp [Item.places])) ?_⟩
  exact (honly.held_eq (by simp [hplaced.staged_path.symm])).trans hpath

theorem discardBackup (h : Guards b w₀ ((i,.swapped) :: batch) w) :
    ∃ w', ((i.backup w₀).forM discard : StateM World Unit) w = ((),w') ∧
      Guards b w₀ ((i,.settled) :: batch) w' := by
  have hitem := h.staged (i,.swapped) (by simp)
  have hplaced := hitem.guarded.placed_in h.above
  obtain ⟨hfree,hpath,hbackup⟩ := h.shows (i,.swapped) (by simp)
  by_cases hnone : w₀.held i.pathAt = none
  · exact ⟨w,by rw [Item.backup,if_pos hnone]; rfl,
      h.change h.above (.refl _ _) ⟨hfree,hpath⟩⟩
  · obtain ⟨w',hrun,hwithin,honly,-⟩ := discard_exec h.above.within hplaced.backup
      (by rw [hbackup hnone]; exact hitem.path)
    refine ⟨w',by rw [Item.backup,if_neg hnone]; exact hrun,
      h.change (h.above.of_within hwithin) (honly.mono (by simp [Item.places])) ⟨hfree,?_⟩⟩
    exact (honly.held_eq (by simp [hplaced.path_backup])).trans hpath

theorem undo (h : Guards b w₀ ((i,.swapped) :: batch) w) :
    ∃ w', (Output.undo i.path (i.backup w₀) : StateM World Unit) w = ((),w') ∧
      Guards b w₀ ((i,.withdrawn) :: batch) w' := by
  have hitem := h.staged (i,.swapped) (by simp)
  have hplaced := hitem.guarded.placed_in h.above
  obtain ⟨-,hpath,hbackup⟩ := h.shows (i,.swapped) (by simp)
  have hplain : Plain (w.held i.pathAt) := by
    rw [hpath]
    exact .inr hitem.staged
  by_cases hnone : w₀.held i.pathAt = none
  · obtain ⟨w',hrun,hwithin,honly,hgone⟩ := discard_exec h.above.within hplaced.path hplain
    exact ⟨w',by rw [Item.backup,if_pos hnone]; exact hrun,
      h.change (h.above.of_within hwithin) (honly.mono (by simp [Item.places]))
        (hgone.trans hnone.symm)⟩
  · obtain ⟨old,hold⟩ := hitem.path.resolve_left hnone
    obtain ⟨l,hl⟩ := hitem.guarded.exists_pathAt
    obtain ⟨t,hrename,hwithin,honly,-,hback⟩ := rename_exec h.above.within hplaced.backup
      hplaced.path hplaced.path_backup.symm ((hbackup hnone).trans hold) hl hplain
    exact ⟨{ w with files := t },by rw [Item.backup,if_neg hnone]; exact restore_of_ok hrename,
      h.change (h.above.of_within hwithin) (honly.mono (by simp [Item.places]))
        (hback.trans hold.symm)⟩

theorem renameStaged (hitem : i.Staged b w₀) (habove : w.Above b)
    (hstaged : w.held i.stagedAt = w₀.held i.stagedAt) (hnone : w.held i.pathAt = none) :
    ∃ t, w.files.rename i.staged i.path = .ok t ∧ World.Above b { w with files := t } ∧
      w.OnlyAt i.places { w with files := t } ∧
      World.held { w with files := t } i.pathAt = w₀.held i.stagedAt ∧
      World.held { w with files := t } i.backupAt = w.held i.backupAt := by
  have hplaced := hitem.guarded.placed_in habove
  obtain ⟨contents,hcontents⟩ := hitem.staged
  obtain ⟨l,hl⟩ := hitem.guarded.exists_pathAt
  obtain ⟨t,hrename,hwithin,honly,-,hpath⟩ := rename_exec habove.within hplaced.staged hplaced.path
    hplaced.staged_path (hstaged.trans hcontents) hl (hnone ▸ .none)
  refine ⟨t,hrename,habove.of_within hwithin,honly.mono (by simp [Item.places]),
    hpath.trans hcontents.symm,?_⟩
  exact honly.held_eq (by simp [hplaced.staged_backup.symm,hplaced.path_backup.symm])

theorem swapIn (h : Guards b w₀ ((i,.waiting) :: batch) w) :
    (∃ w', (Output.swapIn i.staged i.path : StateM World _) w = (.ok (i.backup w₀),w') ∧
      Guards b w₀ ((i,.swapped) :: batch) w') ∨
    i.Blocked w₀ ∧ ∃ e w', (Output.swapIn i.staged i.path : StateM World _) w = (.error e,w') ∧
      Guards b w₀ ((i,.waiting) :: batch) w' := by
  have hitem := h.staged (i,.waiting) (by simp)
  have hplaced := hitem.guarded.placed_in h.above
  obtain ⟨hstaged,hpath,hbackup⟩ := h.shows (i,.waiting) (by simp)
  by_cases hnone : w₀.held i.pathAt = none
  · obtain ⟨t,hrename,habove,honly,hnew,-⟩ :=
      renameStaged hitem h.above hstaged (hpath.trans hnone)
    have hmove := moveAside_of_none hplaced h.above.within (hpath.trans hnone)
    refine .inl ⟨{ w with files := t },?_,h.change habove honly ⟨fun hblocked => ?_,hnew,?_⟩⟩
    · rw [Item.backup,if_pos hnone]
      exact swapIn_of_renamed hmove hrename
    · exact hblocked.1 hnone
    · exact fun hne => absurd hnone hne
  obtain ⟨old,hold⟩ := hitem.path.resolve_left hnone
  by_cases hdir : w₀.held i.backupAt = some .directory
  · obtain ⟨e,hmove⟩ := moveAside_refused hplaced h.above.within (hpath.trans hold)
      (.inr (hbackup.trans hdir))
    exact .inr ⟨⟨hnone,hdir⟩,e,w,swapIn_of_refused hmove,h⟩
  · obtain ⟨w₁,hmove,habove₁,honly₁,hstaged₁,hpath₁,hbackup₁⟩ :=
      hitem.guarded.moveAside h.above (hpath.trans hold) (by rwa [hbackup])
    obtain ⟨t,hrename,habove,honly,hnew,hkept⟩ :=
      renameStaged hitem habove₁ (hstaged₁.trans hstaged) hpath₁
    refine .inl ⟨{ w₁ with files := t },?_,
      h.change habove (honly₁.trans honly) ⟨fun hblocked => hdir hblocked.2,hnew,fun _ => ?_⟩⟩
    · rw [Item.backup,if_neg hnone]
      exact swapIn_of_renamed hmove hrename
    · exact hkept.trans (hbackup₁.trans hold.symm)

/-- The actions of a commit keep track of where a batch stands among taken names. -/
theorem steps (b : FileTree) (w₀ : World) :
    Steps (Item.backup w₀) (Item.Blocked w₀) (Guards b w₀) where
  perm := perm
  swapIn := swapIn
  discardStaged := discardStaged
  discardBackup := discardBackup
  undo := undo

end Guards
end Output
end ControlStore
