import ControlStore.Proofs.Output.Artifacts
import ControlStore.Proofs.Output.Guard

/-! Writing the two artifacts where the names beside them may be taken. Whatever has the name of a
staging file or of a backup, as long as contents are not staged through a link and no name is reached
through a backup, the other locations stay as they are, and the targets hold both new contents or what
they held before. A link in the place of a staging file breaks this. -/
namespace ControlStore

open FileTree

namespace FileTree

open Checks

variable {t t' : FileTree} {path : String} {l l' : Location}

def without (t : FileTree) (path : String) : FileTree :=
  match t.remove path with
  | .ok t' => t'
  | .error _ => t

theorem exists_erase_of_remove (h : t.remove path = .ok t') : ∃ l ≠ [], t' = t.erase l := by
  rw [remove] at h
  obtain ⟨s,-,h⟩ := bind_eq_ok.mp h
  split at h
  · cases h
  · rename_i name hname
    obtain ⟨e,-,h⟩ := bind_eq_ok.mp h
    split at h
    · cases h
    · cases h
    · split at h
      · cases h
      · exact ⟨s.directory ++ [name],by simp,(pure_eq_ok.mp h).symm⟩

theorem keeps_without (t : FileTree) (path : String) : Keeps (t.without path) t := by
  rw [without]
  split
  · rename_i t' hremove
    obtain ⟨l,hl,rfl⟩ := exists_erase_of_remove hremove
    refine ⟨rfl,?_⟩
    intro l' e _ hfound
    rw [find?_erase t hl] at hfound
    by_cases heq : l' = l
    · rw [heq,Function.update_self] at hfound
      cases hfound
    · rwa [Function.update_of_ne heq] at hfound
  · exact .refl t

theorem find?_without (h : t.Denotes path l) (target : String) :
    (t.without path).find? l ≠ some (.link target) := by
  rw [without]
  cases hentry : t.find? l with
  | none => simp [remove_of_none h hentry,hentry]
  | some e =>
    by_cases he : e = .directory
    · subst he
      simp [remove_of_directory h hentry,hentry]
    · simp [remove_of_some h hentry he,find?_erase t h.ne_root]

end FileTree

namespace Output

section Stage

variable {b : FileTree} {w w' : World}

def asides (items : List Item) : List (Option Location) :=
  items.flatMap fun i => [i.stagedAt,i.backupAt]

theorem mem_asides {items : List Item} {i : Item} {x : Option Location} (hi : i ∈ items)
    (hx : x = i.stagedAt ∨ x = i.backupAt) : x ∈ asides items :=
  List.mem_flatMap.mpr ⟨i,hi,by simpa using hx⟩

theorem mem_places_of_mem_asides {items : List Item} {x : Option Location} (hx : x ∈ asides items) :
    x ∈ items.flatMap Item.places := by
  obtain ⟨i,hi,hmem⟩ := List.mem_flatMap.mp hx
  refine List.mem_flatMap.mpr ⟨i,hi,?_⟩
  simp only [List.mem_cons,List.not_mem_nil,or_false] at hmem
  rcases hmem with rfl | rfl <;> simp [Item.places]

theorem Guards.onlyAt {items : List Item} {phase : Phase} (h : Guards b w (phase.all items) w') :
    w.OnlyAt (items.flatMap Item.places) w' := by
  intro l hl
  apply h.frame
  intro q hq hmem
  obtain ⟨i,hi,rfl⟩ := List.mem_map.mp hq
  exact hl (List.mem_flatMap.mpr ⟨i,hi,hmem⟩)

theorem Guards.onlyAt_of_withdrawn {items : List Item}
    (h : Guards b w (Phase.withdrawn.all items) w') : w.OnlyAt (asides items) w' := by
  intro l hl
  by_cases hplace : some l ∈ items.flatMap Item.places
  · obtain ⟨i,hi,hmem⟩ := List.mem_flatMap.mp hplace
    have hstaged : some l ≠ i.stagedAt := fun heq => hl (mem_asides hi (.inl heq))
    have hbackup : some l ≠ i.backupAt := fun heq => hl (mem_asides hi (.inr heq))
    have hpath : some l = i.pathAt := by simpa [Item.places,hstaged,hbackup] using hmem
    have hshows := h.shows (i,.withdrawn) (List.mem_map_of_mem hi)
    rw [← w.held_some,← w'.held_some,hpath]
    exact hshows
  · exact h.onlyAt l hplace

theorem Guards.start {items : List Item} (hw : w.Above b) (hstaged : ∀ i ∈ items, i.Staged b w)
    (hapart : items.Pairwise Item.Apart) : Guards b w (Phase.waiting.all items) w := by
  refine ⟨hw,?_,List.pairwise_map.mpr hapart,?_,fun _ _ => rfl⟩
  · intro q hq
    obtain ⟨i,hi,rfl⟩ := List.mem_map.mp hq
    exact hstaged i hi
  · intro q hq
    obtain ⟨i,hi,rfl⟩ := List.mem_map.mp hq
    exact ⟨rfl,rfl,rfl⟩

/-- An item whose contents can be staged unless a directory is in the way. -/
structure Item.Stageable (b : FileTree) (w : World) (i : Item) : Prop where
  guarded : i.Guarded b
  name : i.staged = stagingPath i.path
  path : Plain (w.held i.pathAt)
  unlinked : ∀ target, w.held i.stagedAt ≠ some (.link target)

theorem Item.Staged.of_onlyAt {i j : Item} (h : j.Staged b w) (hapart : i.Apart j)
    (honly : w.OnlyAt i.places w') : j.Staged b w' where
  guarded := h.guarded
  staged := by
    rw [hapart.held_eq honly (by simp [places])]
    exact h.staged
  path := by
    rw [hapart.held_eq honly (by simp [places])]
    exact h.path

theorem Item.Stageable.of_onlyAt {i j : Item} (h : j.Stageable b w) (hapart : i.Apart j)
    (honly : w.OnlyAt i.places w') : j.Stageable b w' where
  guarded := h.guarded
  name := h.name
  path := by
    rw [hapart.held_eq honly (by simp [places])]
    exact h.path
  unlinked := by
    rw [hapart.held_eq honly (by simp [places])]
    exact h.unlinked

theorem Item.Stageable.write {i : Item} (h : i.Stageable b w) (hw : w.Above b)
    (hdir : w.held i.stagedAt ≠ some .directory) (contents : String) :
    ∃ w', (Storage.write i.staged contents : StateM World _) w = (.ok (),w') ∧ w'.Above b ∧
      w.OnlyAt [i.stagedAt] w' ∧ w'.held i.stagedAt = some (.file contents.toUTF8) ∧
      i.Staged b w' := by
  have hplaced := h.guarded.placed_in hw
  obtain ⟨l,hl⟩ := h.guarded.exists_stagedAt
  have hpath := hplaced.staged
  rw [hl] at hpath
  have hplain : Plain (w.files.find? l) := by
    have hunlinked := h.unlinked
    rw [hl,World.held_some] at hdir hunlinked
    cases hentry : w.files.find? l with
    | none => exact .none
    | some e =>
      cases e with
      | file old => exact .file old
      | directory => exact absurd hentry hdir
      | link target => exact absurd hentry (hunlinked target)
  obtain ⟨w',hwrite,hwithin,honly,hheld⟩ := write_exec hw.within hpath hplain contents
  rw [← hl] at honly hheld
  refine ⟨w',hwrite,hw.of_within hwithin,honly,hheld,h.guarded,⟨_,hheld⟩,?_⟩
  rw [honly.held_eq (by simpa using hplaced.staged_path.symm)]
  exact h.path

theorem stageFrom_refused {i : Item} {done : List Item} (h : i.Stageable b w) (hw : w.Above b)
    (hdir : w.held i.stagedAt = some .directory) (hdone : ∀ j ∈ done, j.Staged b w)
    (hapart : done.Pairwise Item.Apart) (contents : String) (rest : List (String × String)) :
    ∃ e w', (stageFrom (done.map fun j => (j.staged,j.path)) ((i.path,contents) :: rest) :
        StateM World _) w = (.error e,w') ∧ w'.Above b ∧ w.OnlyAt (asides done) w' := by
  obtain ⟨l,hl⟩ := h.guarded.exists_stagedAt
  have hpath := (h.guarded.placed_in hw).staged
  rw [hl] at hpath hdir
  have hwrite := write_of_directory hpath hdir contents.toUTF8
  obtain ⟨w₁,hdiscard,hfiles⟩ := discard_of_error (remove_of_directory hpath hdir)
  have hsame : w.OnlyAt [] w₁ := fun l _ => by rw [hfiles]
  have hdone₁ : ∀ j ∈ done, j.Staged b w₁ := by
    intro j hj
    obtain ⟨hguarded,hstaged,hplain⟩ := hdone j hj
    refine ⟨hguarded,?_,?_⟩
    · rw [hsame.held_eq (by simp)]
      exact hstaged
    · rw [hsame.held_eq (by simp)]
      exact hplain
  have hw₁ : w₁.Above b := ⟨hfiles ▸ hw.wellFormed,hfiles ▸ hw.keeps⟩
  have hstart := Guards.start hw₁ hdone₁ hapart
  rw [← List.append_nil (Phase.waiting.all done)] at hstart
  obtain ⟨w₂,hrun,hguards⟩ := (Guards.steps b w₁).discard_all_staged done hstart
  rw [List.append_nil] at hguards
  refine ⟨.file (stagingPath i.path) .isDirectory,w₂,?_,hguards.above,
    (hsame.mono (by simp)).trans hguards.onlyAt_of_withdrawn⟩
  rw [stageFrom,bind_apply,write_apply,← h.name,hwrite]
  simp only [World.change]
  rw [bind_apply,hdiscard,bind_apply,hrun]
  rfl

/-- Staging puts all contents where they wait, or a directory is in the way of one of them and all
that was staged is discarded. -/
theorem stageFrom_guarded (rest : List (Item × String)) (done : List Item) (hw : w.Above b)
    (hdone : ∀ i ∈ done, i.Staged b w) (hrest : ∀ q ∈ rest, q.1.Stageable b w)
    (hapart : (done ++ rest.map (·.1)).Pairwise Item.Apart) :
    ∃ r w', (stageFrom (done.map fun i => (i.staged,i.path))
        (rest.map fun q => (q.1.path,q.2)) : StateM World _) w = (r,w') ∧ w'.Above b ∧
      (r = .ok ((done ++ rest.map (·.1)).map fun i => (i.staged,i.path)) ∧
          w.OnlyAt (rest.map (·.1.stagedAt)) w' ∧
          (∀ q ∈ rest, w.held q.1.stagedAt ≠ some .directory) ∧
          (∀ q ∈ rest, w'.held q.1.stagedAt = some (.file q.2.toUTF8)) ∨
        (∃ e, r = .error e) ∧ (∃ q ∈ rest, w.held q.1.stagedAt = some .directory) ∧
          w.OnlyAt (asides (done ++ rest.map (·.1))) w') := by
  induction rest generalizing w done with
  | nil => exact ⟨_,w,rfl,hw,.inl ⟨by simp,.refl _ _,by simp,by simp⟩⟩
  | cons q rest ih =>
    obtain ⟨i,contents⟩ := q
    have hsplit : done ++ ((i,contents) :: rest).map (·.1) = done ++ [i] ++ rest.map (·.1) := by
      simp
    rw [List.forall_mem_cons] at hrest
    rw [hsplit] at hapart ⊢
    obtain ⟨hdone',-,hcross⟩ := List.pairwise_append.mp hapart
    obtain ⟨hdonePairs,-,hlast⟩ := List.pairwise_append.mp hdone'
    have hnext : ∀ q ∈ rest, i.Apart q.1 :=
      fun q hq => hcross i (by simp) q.1 (List.mem_map_of_mem hq)
    by_cases hdir : w.held i.stagedAt = some .directory
    · obtain ⟨e,w',hrun,hw',honly⟩ := stageFrom_refused hrest.1 hw hdir hdone hdonePairs contents
        (rest.map fun q => (q.1.path,q.2))
      refine ⟨.error e,w',hrun,hw',.inr ⟨⟨e,rfl⟩,⟨(i,contents),by simp,hdir⟩,honly.mono ?_⟩⟩
      intro x hx
      simp only [asides,List.flatMap_append,List.mem_append] at hx ⊢
      exact .inl (.inl hx)
    · obtain ⟨w₁,hwrite,hw₁,honly₁,hheld₁,hstaged₁⟩ := hrest.1.write hw hdir contents
      have honly : w.OnlyAt i.places w₁ := honly₁.mono (by simp [Item.places])
      have hdone₁ : ∀ j ∈ done ++ [i], j.Staged b w₁ := by
        intro j hj
        rcases List.mem_append.mp hj with hj | hj
        · exact (hdone j hj).of_onlyAt (hlast j hj i (by simp)).symm honly
        · rw [List.mem_singleton.mp hj]
          exact hstaged₁
      have hrest₁ : ∀ q ∈ rest, q.1.Stageable b w₁ :=
        fun q hq => (hrest.2 q hq).of_onlyAt (hnext q hq) honly
      have hsame : ∀ q ∈ rest, w₁.held q.1.stagedAt = w.held q.1.stagedAt :=
        fun q hq => (hnext q hq).held_eq honly (by simp [Item.places])
      obtain ⟨r,w₂,hrun,hw₂,hends⟩ := ih (done ++ [i]) hw₁ hdone₁ hrest₁ hapart
      refine ⟨r,w₂,?_,hw₂,?_⟩
      · rw [List.map_cons,stageFrom,bind_apply,← hrest.1.name,hwrite]
        simpa using hrun
      · rcases hends with ⟨hr,honly₂,hfree,hheld⟩ | ⟨herror,⟨q,hq,hqdir⟩,honly₂⟩
        · refine .inl ⟨hr,(honly₁.mono (by simp)).trans
            (honly₂.mono fun _ hx => List.mem_cons_of_mem _ hx),?_,?_⟩
          · exact List.forall_mem_cons.mpr ⟨hdir,fun q hq => hsame q hq ▸ hfree q hq⟩
          · refine List.forall_mem_cons.mpr ⟨?_,hheld⟩
            rw [← hheld₁]
            apply honly₂.held_eq
            intro y hy
            obtain ⟨q,hq,rfl⟩ := List.mem_map.mp hy
            exact hnext q hq _ (by simp [Item.places]) _ (by simp [Item.places])
        · refine .inr ⟨herror,⟨q,by simp [hq],(hsame q hq).symm.trans hqdir⟩,?_⟩
          exact (honly₁.mono (by simp [asides])).trans honly₂

end Stage

/-- Contents are not staged through a link, and no name is reached through a backup: without what has
the name of a backup, the longest name is still in reach. -/
structure Untangled (t : FileTree) (stem : String) : Prop where
  staging : ∀ path ∈ targets stem, ∀ target, t.entryOf (stagingPath path) ≠ .ok (.link target)
  reach : ∀ l, t.Denotes (stagingPath (stem ++ ".hex")) l →
    ((targets stem).foldl (fun t path => t.without (backupPath path)) t).Denotes
      (stagingPath (stem ++ ".hex")) l

/-- Both artifacts can replace what is there: the longest name is in reach, no directory has a staging
name, and a target that has an entry is a file whose backup name is not that of a directory. -/
structure Replaceable (t : FileTree) (stem : String) : Prop where
  reach : ∃ l, t.Denotes (stagingPath (stem ++ ".hex")) l
  staging : ∀ path ∈ targets stem, t.entryOf (stagingPath path) ≠ .ok .directory
  target : ∀ path ∈ targets stem, ∀ e, t.entryOf path = .ok e →
    (∃ contents, e = .file contents) ∧ t.entryOf (backupPath path) ≠ .ok .directory

section Family

variable {t : FileTree} {stem : String} {d : Location} {piece : String}

theorem Family.replaceable_iff (h : Family t stem d piece) : Replaceable t stem ↔
    ∀ ending ∈ endings, Plain (t.find? (d ++ [piece ++ ending])) ∧
      t.find? (d ++ [piece ++ (ending ++ ".tmp")]) ≠ some .directory ∧
      (t.find? (d ++ [piece ++ ending]) = none ∨
        t.find? (d ++ [piece ++ (ending ++ ".bak")]) ≠ some .directory) := by
  constructor
  · intro hreplaceable ending he
    have hmem : stem ++ ending ∈ targets stem := List.mem_map_of_mem he
    have hstaging := hreplaceable.staging _ hmem
    rw [ne_eq,entryOf_eq_ok_iff (h.denotes_staging he)] at hstaging
    cases hfind : t.find? (d ++ [piece ++ ending]) with
    | none => exact ⟨.none,hstaging,.inl rfl⟩
    | some e =>
      obtain ⟨⟨contents,rfl⟩,hbackup⟩ := hreplaceable.target _ hmem e
        (entryOf_of_some (h.denotes he) hfind)
      rw [ne_eq,entryOf_eq_ok_iff (h.denotes_backup he)] at hbackup
      exact ⟨.file contents,hstaging,.inr hbackup⟩
  · intro hall
    refine ⟨⟨_,h.denotes_staging hex_mem_endings⟩,?_,?_⟩
    · intro path hpath
      obtain ⟨ending,he,rfl⟩ := List.mem_map.mp hpath
      rw [ne_eq,entryOf_eq_ok_iff (h.denotes_staging he)]
      exact (hall ending he).2.1
    · intro path hpath e hentry
      obtain ⟨ending,he,rfl⟩ := List.mem_map.mp hpath
      obtain ⟨hplain,-,hfree⟩ := hall ending he
      rw [entryOf_eq_ok_iff (h.denotes he)] at hentry
      rw [hentry] at hplain hfree
      refine ⟨by simpa using hplain.resolve_left (by simp),?_⟩
      rw [ne_eq,entryOf_eq_ok_iff (h.denotes_backup he)]
      exact hfree.resolve_left (by simp)

theorem Untangled.exists_guarded (h : Untangled t stem) {l : Location}
    (hl : t.Denotes (stagingPath (stem ++ ".hex")) l) :
    ∃ b d piece, Keeps b t ∧ Family t stem d piece ∧
      ∀ i ∈ artifacts stem d piece, i.Guarded b := by
  have hreach := h.reach l hl
  simp only [targets,endings,List.map_cons,List.map_nil,List.foldl_cons,List.foldl_nil] at hreach
  set t₁ := t.without (backupPath (stem ++ ".hex")) with ht₁
  set b := t₁.without (backupPath (stem ++ ".sv")) with hb
  have hkeeps₁ : Keeps t₁ t := keeps_without t _
  have hkeeps : Keeps b t₁ := keeps_without t₁ _
  obtain ⟨d,piece,hfamily⟩ := exists_family hreach
  have hfamily₁ : Family t₁ stem d piece := fun s hs => (hfamily s hs).keeps hkeeps
  have hfamily₀ : Family t stem d piece := fun s hs => (hfamily₁ s hs).keeps hkeeps₁
  refine ⟨b,d,piece,hkeeps.trans hkeeps₁,hfamily₀,?_⟩
  intro i hi
  obtain ⟨ending,he,rfl⟩ := List.mem_map.mp hi
  refine ⟨placed_artifact hfamily he,by simp [Item.places,artifact],?_⟩
  intro l target hat
  obtain rfl : d ++ [piece ++ (ending ++ ".bak")] = l := by simpa [artifact] using hat
  rcases mem_endings.mp he with rfl | rfl
  · -- what is removed second adds no link
    intro hlink
    exact find?_without (hfamily₀.denotes_backup hex_mem_endings) target
      (hkeeps.ways _ _ (by simp) hlink)
  · exact find?_without (hfamily₁.denotes_backup sv_mem_endings) target

end Family

section Run

variable {b : FileTree} {w w₁ : World} {stem : String} {d : Location} {piece : String}

/-- Staging does not decide whether an artifact is blocked. -/
theorem blocked_artifact_iff {ending : String}
    (honly : w.OnlyAt ((artifacts stem d piece).map (·.stagedAt)) w₁) (he : ending ∈ endings) :
    (artifact stem d piece ending).Blocked w₁ ↔ w.files.find? (d ++ [piece ++ ending]) ≠ none ∧
      w.files.find? (d ++ [piece ++ (ending ++ ".bak")]) = some .directory := by
  have hpath := held_eq_of_staged honly fun j hj => (apart_staging he j hj).1
  have hbackup := held_eq_of_staged honly fun j hj => (apart_staging he j hj).2
  rw [Item.Blocked,artifact,hpath,hbackup]
  rfl

variable (hguarded : ∀ i ∈ artifacts stem d piece, i.Guarded b)
  (hplain : ∀ ending ∈ endings, Plain (w.files.find? (d ++ [piece ++ ending])))

include hguarded hplain

theorem stage_guarded (hw : w.Above b)
    (hlinks : ∀ ending ∈ endings, ∀ target,
      w.files.find? (d ++ [piece ++ (ending ++ ".tmp")]) ≠ some (.link target))
    (image table : String) :
    ∃ r w₁, (stage [(stem ++ ".hex",image),(stem ++ ".sv",table)] : StateM World _) w = (r,w₁) ∧
      w₁.Above b ∧
      (r = .ok ((artifacts stem d piece).map fun i => (i.staged,i.path)) ∧
          w.OnlyAt ((artifacts stem d piece).map (·.stagedAt)) w₁ ∧
          (∀ ending ∈ endings, w.files.find? (d ++ [piece ++ (ending ++ ".tmp")]) ≠
            some .directory) ∧
          w₁.held (artifact stem d piece ".hex").stagedAt = some (.file image.toUTF8) ∧
          w₁.held (artifact stem d piece ".sv").stagedAt = some (.file table.toUTF8) ∨
        (∃ e, r = .error e) ∧ (∃ ending ∈ endings,
          w.files.find? (d ++ [piece ++ (ending ++ ".tmp")]) = some .directory) ∧
          w.OnlyAt (asides (artifacts stem d piece)) w₁) := by
  have hstageable {ending : String} (he : ending ∈ endings) :
      (artifact stem d piece ending).Stageable b w :=
    ⟨hguarded _ (List.mem_map_of_mem he),rfl,hplain ending he,hlinks ending he⟩
  obtain ⟨r,w₁,hrun,hw₁,hends⟩ := stageFrom_guarded
    [(artifact stem d piece ".hex",image),(artifact stem d piece ".sv",table)] [] hw (by simp)
    (by simp [hstageable hex_mem_endings,hstageable sv_mem_endings])
    (by simpa using apart_artifacts stem d piece)
  refine ⟨r,w₁,hrun,hw₁,?_⟩
  rcases hends with ⟨hr,honly,hfree,hheld⟩ | ⟨herror,⟨q,hq,hdir⟩,honly⟩
  · rw [List.forall_mem_cons,List.forall_mem_singleton] at hfree hheld
    refine .inl ⟨hr,honly,?_,hheld⟩
    intro ending he
    rcases mem_endings.mp he with rfl | rfl
    · exact hfree.1
    · exact hfree.2
  · refine .inr ⟨herror,?_,honly⟩
    simp only [List.mem_cons,List.not_mem_nil,or_false] at hq
    rcases hq with rfl | rfl
    · exact ⟨".hex",hex_mem_endings,hdir⟩
    · exact ⟨".sv",sv_mem_endings,hdir⟩

theorem commit_guarded {image table : String} (hw₁ : w₁.Above b)
    (honly : w.OnlyAt ((artifacts stem d piece).map (·.stagedAt)) w₁)
    (himage : w₁.held (artifact stem d piece ".hex").stagedAt = some (.file image.toUTF8))
    (htable : w₁.held (artifact stem d piece ".sv").stagedAt = some (.file table.toUTF8)) :
    ∃ r w₂, (commit ((artifacts stem d piece).map fun i => (i.staged,i.path)) :
        StateM World _) w₁ = (r,w₂) ∧ w₂.Above b ∧
      (r = .ok () ∧ (∀ ending ∈ endings, w.files.find? (d ++ [piece ++ ending]) = none ∨
            w.files.find? (d ++ [piece ++ (ending ++ ".bak")]) ≠ some .directory) ∧
          w.OnlyAt ((artifacts stem d piece).flatMap Item.places) w₂ ∧
          w₂.files.find? (d ++ [piece ++ ".hex"]) = some (.file image.toUTF8) ∧
          w₂.files.find? (d ++ [piece ++ ".sv"]) = some (.file table.toUTF8) ∨
        (∃ e, r = .error e) ∧ (∃ ending ∈ endings, w.files.find? (d ++ [piece ++ ending]) ≠ none ∧
            w.files.find? (d ++ [piece ++ (ending ++ ".bak")]) = some .directory) ∧
          w.OnlyAt (asides (artifacts stem d piece)) w₂) := by
  have hstaged : ∀ i ∈ artifacts stem d piece, i.Staged b w₁ := by
    intro i hi
    obtain ⟨ending,he,rfl⟩ := List.mem_map.mp hi
    have hpath := held_eq_of_staged honly fun j hj => (apart_staging he j hj).1
    refine ⟨hguarded _ hi,?_,?_⟩
    · rcases mem_endings.mp he with rfl | rfl
      · exact ⟨_,himage⟩
      · exact ⟨_,htable⟩
    · rw [artifact,hpath]
      exact hplain ending he
  have hstart := Guards.start hw₁ hstaged
    (by simpa [artifacts,endings] using apart_artifacts stem d piece)
  obtain ⟨r,w₂,hrun,hends⟩ := (Guards.steps b w₁).commitFrom [] (artifacts stem d piece) hstart
  rcases hends with ⟨rfl,hsettled⟩ | ⟨⟨e,rfl⟩,⟨i,hi,hblocked⟩,hwithdrawn⟩
  · have hshows {ending : String} (he : ending ∈ endings) :=
      hsettled.shows (artifact stem d piece ending,.settled)
        (List.mem_map_of_mem (List.mem_map_of_mem he))
    refine ⟨.ok (),w₂,hrun,hsettled.above,.inl ⟨rfl,?_,?_,?_,?_⟩⟩
    · intro ending he
      have hfree := (blocked_artifact_iff honly he).not.mp (hshows he).1
      rw [not_and_or,not_not] at hfree
      exact hfree
    · refine (honly.mono fun x hx => ?_).trans hsettled.onlyAt
      obtain ⟨i,hi,rfl⟩ := List.mem_map.mp hx
      exact List.mem_flatMap.mpr ⟨i,hi,by simp [Item.places]⟩
    · exact (hshows hex_mem_endings).2.trans himage
    · exact (hshows sv_mem_endings).2.trans htable
  · refine ⟨.error e,w₂,hrun,hwithdrawn.above,.inr ⟨⟨e,rfl⟩,?_,?_⟩⟩
    · obtain ⟨ending,he,rfl⟩ := List.mem_map.mp hi
      exact ⟨ending,he,(blocked_artifact_iff honly he).mp hblocked⟩
    · refine (honly.mono fun x hx => ?_).trans hwithdrawn.onlyAt_of_withdrawn
      obtain ⟨i,hi,rfl⟩ := List.mem_map.mp hx
      exact mem_asides hi (.inl rfl)

omit hplain in
/-- Where the names are in reach, the artifacts replace the targets if they can, and otherwise the
targets are as before. -/
theorem Family.writeArtifacts_guarded (h : Family w.files stem d piece) (hw : w.Above b)
    (hlinks : ∀ ending ∈ endings, ∀ target,
      w.files.find? (d ++ [piece ++ (ending ++ ".tmp")]) ≠ some (.link target))
    (image table : String) :
    ∃ r w', (writeArtifacts stem image table : StateM World _) w = (r,w') ∧ w'.Above b ∧
      (r = .ok (Paths.ofStem stem) ∧ Replaceable w.files stem ∧
          w.OnlyAt ((artifacts stem d piece).flatMap Item.places) w' ∧
          w'.files.find? (d ++ [piece ++ ".hex"]) = some (.file image.toUTF8) ∧
          w'.files.find? (d ++ [piece ++ ".sv"]) = some (.file table.toUTF8) ∨
        (∃ e, r = .error e) ∧ ¬Replaceable w.files stem ∧
          w.OnlyAt (asides (artifacts stem d piece)) w' ∧
          (w' = w ∨ ∀ ending ∈ endings, Plain (w.files.find? (d ++ [piece ++ ending])))) := by
  have hreplaceable := h.replaceable_iff
  rcases checkTargets_exec (w := w) (endings.map fun e => (stem ++ e,d ++ [piece ++ e]))
    (by simpa using fun e => h.denotes) with ⟨hall,hcheck⟩ | ⟨⟨bad,hbad,hnot⟩,e,hcheck⟩
  · have hplain : ∀ ending ∈ endings, Plain (w.files.find? (d ++ [piece ++ ending])) :=
      fun ending he => hall _ (List.mem_map_of_mem he)
    obtain ⟨r₁,w₁,hstage,hw₁,hends⟩ := stage_guarded hguarded hplain hw hlinks image table
    rcases hends with ⟨rfl,honly,hfree,himage,htable⟩ | ⟨⟨e,rfl⟩,⟨ending,he,hdir⟩,honly⟩
    · obtain ⟨r₂,w₂,hcommit,hw₂,hends⟩ := commit_guarded hguarded hplain hw₁ honly himage htable
      rcases hends with ⟨rfl,hbackups,honly₂,hnew⟩ | ⟨⟨e,rfl⟩,⟨ending,he,hne,hdir⟩,honly₂⟩
      · obtain ⟨w',hrun,hfiles⟩ := writeArtifacts_of_committed hcheck hstage hcommit
        refine ⟨_,w',hrun,⟨hfiles ▸ hw₂.wellFormed,hfiles ▸ hw₂.keeps⟩,.inl ⟨rfl,?_,?_,?_⟩⟩
        · refine hreplaceable.mpr fun ending he => ?_
          exact ⟨hplain ending he,hfree ending he,hbackups ending he⟩
        · intro l hl
          rw [hfiles,honly₂ l hl]
        · rw [hfiles]
          exact hnew
      · refine ⟨.error e,w₂,writeArtifacts_of_uncommitted hcheck hstage hcommit,hw₂,
          .inr ⟨⟨e,rfl⟩,?_,honly₂,.inr hplain⟩⟩
        intro hyes
        exact (hreplaceable.mp hyes ending he).2.2.resolve_left hne hdir
    · refine ⟨.error e,w₁,writeArtifacts_of_unstaged hcheck hstage,hw₁,
        .inr ⟨⟨e,rfl⟩,?_,honly,.inr hplain⟩⟩
      intro hyes
      exact (hreplaceable.mp hyes ending he).2.1 hdir
  · refine ⟨.error e,w,writeArtifacts_of_refused hcheck,hw,
      .inr ⟨⟨e,rfl⟩,?_,.refl _ _,.inl rfl⟩⟩
    obtain ⟨ending,he,rfl⟩ := List.mem_map.mp hbad
    intro hyes
    exact hnot (hreplaceable.mp hyes ending he).1

end Run

theorem exists_sibling_of_mem_places {stem piece : String} {d l : Location}
    (h : some l ∈ (artifacts stem d piece).flatMap Item.places) :
    ∃ s ∈ siblingEndings, l = d ++ [piece ++ s] := by
  obtain ⟨i,hi,hmem⟩ := List.mem_flatMap.mp h
  obtain ⟨ending,he,rfl⟩ := List.mem_map.mp hi
  simp only [Item.places,artifact,List.mem_cons,Option.some.injEq,List.not_mem_nil,or_false] at hmem
  rcases hmem with rfl | rfl | rfl
  · exact ⟨_,List.mem_flatMap.mpr ⟨ending,he,by simp⟩,rfl⟩
  · exact ⟨_,List.mem_flatMap.mpr ⟨ending,he,by simp⟩,rfl⟩
  · exact ⟨_,List.mem_flatMap.mpr ⟨ending,he,by simp⟩,rfl⟩

theorem target_not_mem_asides {stem piece ending : String} {d : Location} (he : ending ∈ endings) :
    some (d ++ [piece ++ ending]) ∉ asides (artifacts stem d piece) := by
  have hends : ∀ e ∈ endings, ∀ e' ∈ endings, e ≠ e' ++ ".tmp" ∧ e ≠ e' ++ ".bak" := by decide
  intro h
  obtain ⟨i,hi,hmem⟩ := List.mem_flatMap.mp h
  obtain ⟨ending',he',rfl⟩ := List.mem_map.mp hi
  simp only [artifact,List.mem_cons,Option.some.injEq,sibling_inj,List.not_mem_nil,or_false] at hmem
  rcases hmem with hmem | hmem
  · exact (hends _ he _ he').1 hmem
  · exact (hends _ he _ he').2 hmem

/-- Whatever has the names beside the targets, as long as they are untangled: nothing changes at other
locations, and the targets hold the new contents or, if they cannot be replaced, what they held. -/
theorem writeArtifacts_beside_taken_names (w : World) (stem image table : String)
    (hw : w.files.WellFormed) (huntangled : Untangled w.files stem) :
    ∃ r w', (writeArtifacts stem image table : StateM World _) w = (r,w') ∧
      (∀ l, (∀ s ∈ siblingEndings, ¬w.files.Denotes (stem ++ s) l) →
        w'.files.find? l = w.files.find? l) ∧
      (r = .ok (Paths.ofStem stem) ∧ Replaceable w.files stem ∧
          w'.files.read (stem ++ ".hex") = .ok (.ok image.toUTF8) ∧
          w'.files.read (stem ++ ".sv") = .ok (.ok table.toUTF8) ∨
        (∃ e, r = .error e) ∧ ¬Replaceable w.files stem ∧ ∀ path ∈ targets stem,
          w'.files.read path = w.files.read path ∧
            w'.files.entryOf path = w.files.entryOf path) := by
  by_cases hreach : ∃ l, w.files.Denotes (stagingPath (stem ++ ".hex")) l
  · obtain ⟨l,hl⟩ := hreach
    obtain ⟨b,d,piece,hkeeps,hfamily,hguarded⟩ := huntangled.exists_guarded hl
    have hlinks : ∀ ending ∈ endings, ∀ target,
        w.files.find? (d ++ [piece ++ (ending ++ ".tmp")]) ≠ some (.link target) := by
      intro ending he target hlink
      exact huntangled.staging _ (List.mem_map_of_mem he) target
        (entryOf_of_some (hfamily.denotes_staging he) hlink)
    obtain ⟨r,w',hrun,hw',hends⟩ :=
      hfamily.writeArtifacts_guarded hguarded ⟨hw,hkeeps⟩ hlinks image table
    have hdenotes {ending : String} (he : ending ∈ endings) :
        w'.files.Denotes (stem ++ ending) (d ++ [piece ++ ending]) :=
      ((hguarded _ (List.mem_map_of_mem he)).placed_in hw').path
    have hframe (honly : w.OnlyAt ((artifacts stem d piece).flatMap Item.places) w') (l : Location)
        (hother : ∀ s ∈ siblingEndings, ¬w.files.Denotes (stem ++ s) l) :
        w'.files.find? l = w.files.find? l := by
      refine honly l fun hmem => ?_
      obtain ⟨s,hs,rfl⟩ := exists_sibling_of_mem_places hmem
      exact hother s hs (hfamily s hs)
    refine ⟨r,w',hrun,?_⟩
    rcases hends with ⟨rfl,hreplaceable,honly,himage,htable⟩ | ⟨herror,hnot,honly,hkept⟩
    · exact ⟨hframe honly,.inl ⟨rfl,hreplaceable,read_of_file (hdenotes hex_mem_endings) himage,
        read_of_file (hdenotes sv_mem_endings) htable⟩⟩
    · refine ⟨hframe (honly.mono fun x => mem_places_of_mem_asides),.inr ⟨herror,hnot,?_⟩⟩
      intro path hpath
      obtain ⟨ending,he,rfl⟩ := List.mem_map.mp hpath
      rcases hkept with rfl | hplain
      · exact ⟨rfl,rfl⟩
      · exact read_eq_of_plain (hfamily.denotes he) (hdenotes he) (hplain ending he)
          (honly _ (target_not_mem_asides he))
  · obtain ⟨e,w',hrun,hfiles⟩ := writeArtifacts_out_of_reach (fun l hl => hreach ⟨l,hl⟩) image table
    refine ⟨.error e,w',hrun,?_,.inr ⟨⟨e,rfl⟩,fun h => hreach h.reach,?_⟩⟩
    · intro l _
      rw [hfiles]
    · intro path _
      rw [hfiles]
      exact ⟨rfl,rfl⟩

/-- A stale file has the staging name of the image, and a link has the name of the backup of the
table. -/
def takenTree : FileTree where
  entries := [(["cs.hex.tmp"],.file "stale".toUTF8),(["cs.sv"],.file "old".toUTF8),
    (["cs.sv.bak"],.link "notes"),(["notes"],.file "keep".toUTF8)]

theorem untangled_takenTree : Untangled takenTree "cs" where
  staging := by
    have hstale : takenTree.entryOf (stagingPath "cs.hex") = .ok (.file "stale".toUTF8) := by decide
    have hfree : takenTree.entryOf (stagingPath "cs.sv") = .error .notFound := by decide
    simp [targets,endings,hstale,hfree]
  reach := by
    intro l hl
    obtain ⟨d,name,hslot,hshort,hat⟩ := hl
    have hsame : ((targets "cs").foldl (fun t path => t.without (backupPath path)) takenTree).slot
        (stagingPath ("cs" ++ ".hex")) = takenTree.slot (stagingPath ("cs" ++ ".hex")) := by decide
    exact ⟨d,name,hsame.trans hslot,hshort,hat⟩

theorem replaceable_takenTree : Replaceable takenTree "cs" where
  reach := ⟨["cs.hex.tmp"],[],"cs.hex.tmp",by decide,by decide,rfl⟩
  staging := by decide
  target := by
    have hfree : takenTree.entryOf "cs.hex" = .error .notFound := by decide
    have hold : takenTree.entryOf "cs.sv" = .ok (.file "old".toUTF8) := by decide
    have hlink : takenTree.entryOf (backupPath "cs.sv") = .ok (.link "notes") := by decide
    simp [targets,endings,hfree,hold,hlink]

/-- Stale file and link are replaced, and what the link led to stays. -/
theorem writeArtifacts_takenTree : takenTree.WellFormed ∧ Untangled takenTree "cs" ∧
    ∃ r w', (writeArtifacts "cs" "1\n" "module" : StateM World _) ⟨takenTree,.empty,[]⟩ =
        (.ok r,w') ∧
      w'.files.read "cs.hex" = .ok (.ok "1\n".toUTF8) ∧
      w'.files.read "cs.sv" = .ok (.ok "module".toUTF8) ∧
      w'.files.find? ["notes"] = some (.file "keep".toUTF8) := by
  have hw : takenTree.WellFormed := by decide
  obtain ⟨r,w',hrun,hframe,hends⟩ := writeArtifacts_beside_taken_names ⟨takenTree,.empty,[]⟩ "cs"
    "1\n" "module" hw untangled_takenTree
  refine ⟨hw,untangled_takenTree,?_⟩
  rcases hends with ⟨rfl,-,himage,htable⟩ | ⟨-,hnot,-⟩
  · refine ⟨_,w',hrun,himage,htable,?_⟩
    have hkeep : takenTree.find? ["notes"] = some (.file "keep".toUTF8) := by decide
    rw [← hkeep]
    apply hframe
    rintro s hs ⟨d,name,hslot,-,hat⟩
    have hnames : ∀ s ∈ siblingEndings, lastName? ("cs" ++ s) ≠ some "notes" := by decide
    have hlast : name = "notes" := by
      have hgetLast := congrArg List.getLast? hat
      simpa using hgetLast.symm
    exact hnames s hs (by rw [← (slot_eq_ok_iff.mp hslot).2.2.1,hlast])
  · exact absurd replaceable_takenTree hnot

/-- The staging name of the image is a link to the image itself, and a directory has the staging name
of the table. -/
def linkedTree : FileTree where
  entries := [(["x.hex"],.file "old".toUTF8),(["x.hex.tmp"],.link "x.hex"),
    (["x.sv.tmp"],.directory)]

/-- The image is staged through the link, so its target is new although writing fails. -/
theorem writeArtifacts_linkedTree :
    ∃ e w', (writeArtifacts "x" "IMG" "TAB" : StateM World _) ⟨linkedTree,.empty,[]⟩ =
        (.error e,w') ∧
      linkedTree.read "x.hex" = .ok (.ok "old".toUTF8) ∧
      w'.files.read "x.hex" = .ok (.ok "IMG".toUTF8) := by
  have hcheck : (checkTargets (targets "x") : StateM World _) ⟨linkedTree,.empty,[]⟩ =
      (.ok (),⟨linkedTree,.empty,[]⟩) := by
    have hhex : linkedTree.entryOf "x.hex" = .ok (.file "old".toUTF8) := by decide
    simp [targets,endings,checkTargets,checkTarget,bind_apply,isRegular_apply,hhex]
    rfl
  obtain ⟨written,hwritten⟩ : ∃ t, t = linkedTree.insert ["x.hex"] (.file "IMG".toUTF8) := ⟨_,rfl⟩
  have hfirst : linkedTree.write (stagingPath ("x" ++ ".hex")) "IMG".toUTF8 = .ok written := by
    subst hwritten
    decide
  have hsecond : written.write (stagingPath ("x" ++ ".sv")) "TAB".toUTF8 = .error .isDirectory := by
    subst hwritten
    decide
  have hdirectory : written.remove (stagingPath ("x" ++ ".sv")) = .error .isDirectory := by
    subst hwritten
    decide
  have hlink : written.remove (stagingPath ("x" ++ ".hex")) =
      .ok (written.erase ["x.hex.tmp"]) := by
    subst hwritten
    decide
  obtain ⟨w₁,hdiscard,hfiles⟩ := discard_of_error (w := ⟨written,.empty,[]⟩) hdirectory
  change w₁.files = written at hfiles
  rw [← hfiles] at hlink
  have hstage : (stage [("x" ++ ".hex","IMG"),("x" ++ ".sv","TAB")] : StateM World _)
      ⟨linkedTree,.empty,[]⟩ = (.error (.file (stagingPath ("x" ++ ".sv")) .isDirectory),
        { w₁ with files := w₁.files.erase ["x.hex.tmp"] }) := by
    rw [stage,stageFrom,bind_apply,write_apply,hfirst]
    simp only [World.change]
    rw [stageFrom,bind_apply,write_apply,hsecond]
    simp only [World.change]
    rw [bind_apply,hdiscard,bind_apply,List.nil_append,List.forM_eq_forM,List.forM_cons,bind_apply,
      discard_of_ok hlink]
    rfl
  refine ⟨_,_,writeArtifacts_of_unstaged hcheck hstage,by decide,?_⟩
  have hread : (written.erase ["x.hex.tmp"]).read "x.hex" = .ok (.ok "IMG".toUTF8) := by
    subst hwritten
    decide
  rw [← hread,hfiles]

end Output
end ControlStore
