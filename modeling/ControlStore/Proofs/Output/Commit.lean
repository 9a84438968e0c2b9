import ControlStore.Proofs.Output.Swap

/-! A batch of swaps. Each item passes through phases; the actions of a commit take items from phase
to phase one at a time. A commit ends with all items settled or with all of them withdrawn. -/
namespace ControlStore
namespace Output

open FileTree

/-- How far an item has come. -/
inductive Phase
  /-- Its contents are staged. -/
  | waiting
  /-- It is swapped in, and its backup still there. -/
  | swapped
  /-- It is swapped in for good. -/
  | settled
  /-- Its target is as before, and its contents are gone. -/
  | withdrawn

namespace Item

structure Sound (t₀ : FileTree) (w₀ : World) (i : Item) : Prop where
  placed : i.Placed t₀
  staged : Plain (w₀.held i.stagedAt)
  path : Plain (w₀.held i.pathAt)
  backup : w₀.held i.backupAt = none ∨ w₀.held i.backupAt = some .directory

def ReadyIn (i : Item) (w₀ : World) : Prop :=
  i.Ready (w₀.held i.stagedAt) (w₀.held i.pathAt) (w₀.held i.backupAt)

def backup (w₀ : World) (i : Item) : Option String :=
  if w₀.held i.pathAt = none then none else some (backupPath i.path)

end Item

/-- What an item holds in a phase, by what it held when the batch started. -/
def Phase.Holds (w₀ : World) (i : Item) (w : World) : Phase → Prop
  | waiting => i.Holds w (w₀.held i.stagedAt) (w₀.held i.pathAt) (w₀.held i.backupAt)
  | swapped => i.ReadyIn w₀ ∧ i.Holds w none (w₀.held i.stagedAt)
      (if w₀.held i.pathAt = none then w₀.held i.backupAt else w₀.held i.pathAt)
  | settled => i.ReadyIn w₀ ∧ i.Holds w none (w₀.held i.stagedAt) (w₀.held i.backupAt)
  | withdrawn => i.Holds w none (w₀.held i.pathAt) (w₀.held i.backupAt)

def Phase.all (phase : Phase) (items : List Item) : List (Item × Phase) := items.map (·,phase)

theorem Phase.all_append (phase : Phase) (items items' : List Item) :
    phase.all (items ++ items') = phase.all items ++ phase.all items' :=
  List.map_append

theorem Phase.all_perm (phase : Phase) {items items' : List Item} (h : items.Perm items') :
    (phase.all items).Perm (phase.all items') :=
  h.map _

/-- A way `S` to say where a batch stands that the actions of a commit follow, item by item. An item
that is swapped in has its backup under the name `kept`, and one that is not is `Refused`. -/
structure Steps (kept : Item → Option String) (Refused : Item → Prop)
    (S : List (Item × Phase) → World → Prop) : Prop where
  perm : ∀ {batch batch' : List (Item × Phase)} {w : World}, S batch w → batch.Perm batch' →
    S batch' w
  swapIn : ∀ {i : Item} {batch : List (Item × Phase)} {w : World}, S ((i,.waiting) :: batch) w →
    (∃ w', (swapIn i.staged i.path : StateM World _) w = (.ok (kept i),w') ∧
      S ((i,.swapped) :: batch) w') ∨
    Refused i ∧ ∃ e w', (swapIn i.staged i.path : StateM World _) w = (.error e,w') ∧
      S ((i,.waiting) :: batch) w'
  discardStaged : ∀ {i : Item} {batch : List (Item × Phase)} {w : World},
    S ((i,.waiting) :: batch) w →
    ∃ w', (discard i.staged : StateM World Unit) w = ((),w') ∧ S ((i,.withdrawn) :: batch) w'
  discardBackup : ∀ {i : Item} {batch : List (Item × Phase)} {w : World},
    S ((i,.swapped) :: batch) w →
    ∃ w', ((kept i).forM discard : StateM World Unit) w = ((),w') ∧ S ((i,.settled) :: batch) w'
  undo : ∀ {i : Item} {batch : List (Item × Phase)} {w : World}, S ((i,.swapped) :: batch) w →
    ∃ w', (undo i.path (kept i) : StateM World Unit) w = ((),w') ∧ S ((i,.withdrawn) :: batch) w'

namespace Steps

variable {kept : Item → Option String} {Refused : Item → Prop}
  {S : List (Item × Phase) → World → Prop} {batch : List (Item × Phase)} {w : World}

theorem forM_exec (hS : Steps kept Refused S) {phase phase' : Phase} {β : Type} (g : Item → β)
    (act : β → StateM World Unit)
    (hact : ∀ i batch w, S ((i,phase) :: batch) w →
      ∃ w', act (g i) w = ((),w') ∧ S ((i,phase') :: batch) w')
    (items : List Item) (h : S (phase.all items ++ batch) w) :
    ∃ w', (items.map g).forM act w = ((),w') ∧ S (phase'.all items ++ batch) w' := by
  induction items generalizing w batch with
  | nil => exact ⟨w,rfl,h⟩
  | cons i items ih =>
    obtain ⟨w₁,hrun₁,h₁⟩ := hact i _ w h
    obtain ⟨w₂,hrun₂,h₂⟩ := ih (hS.perm h₁ List.perm_middle.symm)
    refine ⟨w₂,?_,hS.perm h₂ List.perm_middle⟩
    have hcons : ((i :: items).map g).forM act = (act (g i) >>= fun _ => (items.map g).forM act) :=
      rfl
    rw [hcons,bind_apply,hrun₁]
    exact hrun₂

theorem discard_all_staged (hS : Steps kept Refused S) (items : List Item)
    (h : S (Phase.waiting.all items ++ batch) w) :
    ∃ w', ((items.map fun i => (i.staged,i.path)).forM fun (staged,_) => discard staged :
        StateM World Unit) w = ((),w') ∧ S (Phase.withdrawn.all items ++ batch) w' :=
  hS.forM_exec (fun i => (i.staged,i.path)) (fun (staged,_) => discard staged)
    (fun _ _ _ => hS.discardStaged) items h

theorem discard_all_backups (hS : Steps kept Refused S) (items : List Item)
    (h : S (Phase.swapped.all items) w) :
    ∃ w', ((items.map fun i => (i.path,kept i)).forM fun (_,backup) => backup.forM discard :
        StateM World Unit) w = ((),w') ∧ S (Phase.settled.all items) w' := by
  rw [← List.append_nil (Phase.swapped.all items)] at h
  rw [← List.append_nil (Phase.settled.all items)]
  exact hS.forM_exec _ _ (fun _ _ _ => hS.discardBackup) items h

theorem undo_all (hS : Steps kept Refused S) (items : List Item)
    (h : S (Phase.swapped.all items ++ batch) w) :
    ∃ w', ((items.map fun i => (i.path,kept i)).forM fun (path,backup) =>
        Output.undo path backup : StateM World Unit) w = ((),w') ∧
      S (Phase.withdrawn.all items ++ batch) w' :=
  hS.forM_exec _ _ (fun _ _ _ => hS.undo) items h

/-- The rest of a commit settles all items, or withdraws all of them because one is refused. -/
theorem commitFrom (hS : Steps kept Refused S) (done rest : List Item)
    (h : S (Phase.swapped.all done ++ Phase.waiting.all rest) w) :
    ∃ r w', (Output.commitFrom (done.map fun i => (i.path,kept i))
        (rest.map fun i => (i.staged,i.path)) : StateM World _) w = (r,w') ∧
      (r = .ok () ∧ S (Phase.settled.all (done ++ rest)) w' ∨
        (∃ e, r = .error e) ∧ (∃ i ∈ rest, Refused i) ∧
          S (Phase.withdrawn.all (done ++ rest)) w') := by
  induction rest generalizing done w with
  | nil =>
    have hdone : S (Phase.swapped.all done) w := by simpa [Phase.all] using h
    obtain ⟨w',hrun,h'⟩ := hS.discard_all_backups done.reverse
      (hS.perm hdone (Phase.all_perm _ done.reverse_perm.symm))
    refine ⟨.ok (),w',?_,.inl ⟨rfl,?_⟩⟩
    · rw [List.map_nil,Output.commitFrom,bind_apply,← List.map_reverse,hrun]
      rfl
    · rw [List.append_nil]
      exact hS.perm h' (Phase.all_perm _ done.reverse_perm)
  | cons i rest ih =>
    rw [List.map_cons]
    rcases hS.swapIn (hS.perm h List.perm_middle) with ⟨w₁,hswap,h₁⟩ | ⟨hrefused,e,w₁,hswap,h₁⟩
    · obtain ⟨r,w',hrun,hends⟩ := ih (i :: done) h₁
      have hperm : (i :: done ++ rest).Perm (done ++ i :: rest) := List.perm_middle.symm
      refine ⟨r,w',?_,?_⟩
      · rw [Output.commitFrom,bind_apply,hswap]
        exact hrun
      · rcases hends with ⟨hok,hS'⟩ | ⟨herror,⟨j,hj,hnot⟩,hS'⟩
        · exact .inl ⟨hok,hS.perm hS' (Phase.all_perm _ hperm)⟩
        · exact .inr ⟨herror,⟨j,by simp [hj],hnot⟩,hS.perm hS' (Phase.all_perm _ hperm)⟩
    · -- what is staged goes first, then the swaps that were done
      obtain ⟨w₂,hrun₂,h₂⟩ := hS.discardStaged h₁
      have hperm₂ : ((i,.withdrawn) :: (Phase.swapped.all done ++ Phase.waiting.all rest)).Perm
          (Phase.waiting.all rest ++ (i,.withdrawn) :: Phase.swapped.all done) :=
        (List.perm_append_comm.cons _).trans List.perm_middle.symm
      obtain ⟨w₃,hrun₃,h₃⟩ := hS.discard_all_staged rest (hS.perm h₂ hperm₂)
      have hperm₃ : (Phase.withdrawn.all rest ++ (i,.withdrawn) :: Phase.swapped.all done).Perm
          (Phase.swapped.all done ++ Phase.withdrawn.all (i :: rest)) :=
        (List.perm_middle.trans (List.perm_append_comm.cons _)).trans List.perm_middle.symm
      obtain ⟨w₄,hrun₄,h₄⟩ := hS.undo_all done (hS.perm h₃ hperm₃)
      refine ⟨.error e,w₄,?_,.inr ⟨⟨e,rfl⟩,⟨i,by simp,hrefused⟩,?_⟩⟩
      · rw [Output.commitFrom,bind_apply,hswap]
        dsimp only
        rw [bind_apply,hrun₂,bind_apply,hrun₃,bind_apply,hrun₄]
        rfl
      · rw [Phase.all_append]
        exact h₄

end Steps

/-- Where a batch stands: each item is in its phase, and nothing else has changed. -/
structure Stands (t₀ : FileTree) (w₀ : World) (batch : List (Item × Phase)) (w : World) : Prop where
  within : w.Within t₀
  sound : ∀ q ∈ batch, q.1.Sound t₀ w₀
  apart : batch.Pairwise fun q q' => q.1.Apart q'.1
  holds : ∀ q ∈ batch, q.2.Holds w₀ q.1 w
  frame : ∀ l, (∀ q ∈ batch, some l ∉ q.1.places) → w.files.find? l = w₀.files.find? l

section Stands

variable {t₀ : FileTree} {w₀ w w' : World} {i : Item} {phase phase' : Phase}
  {batch batch' : List (Item × Phase)}

theorem Item.Apart.held_eq {j : Item} (hapart : i.Apart j) (honly : w.OnlyAt i.places w')
    {x : Option Location} (hx : x ∈ j.places) : w'.held x = w.held x :=
  honly.held_eq fun y hy => (hapart y hy x hx).symm

theorem Item.Holds.of_onlyAt {j : Item} {a b c : Option Entry} (h : j.Holds w a b c)
    (honly : w.OnlyAt i.places w') (hapart : i.Apart j) : j.Holds w' a b c := by
  obtain ⟨ha,hb,hc⟩ := h
  exact ⟨(hapart.held_eq honly (by simp [Item.places])).trans ha,
    (hapart.held_eq honly (by simp [Item.places])).trans hb,
    (hapart.held_eq honly (by simp [Item.places])).trans hc⟩

theorem Phase.Holds.of_onlyAt {j : Item} (h : phase.Holds w₀ j w)
    (honly : w.OnlyAt i.places w') (hapart : i.Apart j) : phase.Holds w₀ j w' := by
  cases phase with
  | waiting => exact Item.Holds.of_onlyAt h honly hapart
  | swapped => exact ⟨h.1,h.2.of_onlyAt honly hapart⟩
  | settled => exact ⟨h.1,h.2.of_onlyAt honly hapart⟩
  | withdrawn => exact Item.Holds.of_onlyAt h honly hapart

theorem Stands.perm (h : Stands t₀ w₀ batch w) (hperm : batch.Perm batch') :
    Stands t₀ w₀ batch' w := by
  refine ⟨h.within,?_,?_,?_,?_⟩
  · intro q hq
    exact h.sound q (hperm.mem_iff.mpr hq)
  · exact (hperm.pairwise_iff fun h => Item.Apart.symm h).mp h.apart
  · intro q hq
    exact h.holds q (hperm.mem_iff.mpr hq)
  · intro l hl
    exact h.frame l fun q hq => hl q (hperm.mem_iff.mp hq)

/-- An action on one item changes the phase of this item only. -/
theorem Stands.change (h : Stands t₀ w₀ ((i,phase) :: batch) w) (hwithin : w'.Within t₀)
    (honly : w.OnlyAt i.places w') (hholds : phase'.Holds w₀ i w') :
    Stands t₀ w₀ ((i,phase') :: batch) w' := by
  have hapart := List.pairwise_cons.mp h.apart
  refine ⟨hwithin,?_,List.pairwise_cons.mpr hapart,?_,?_⟩
  · intro q hq
    rcases List.mem_cons.mp hq with rfl | hq
    · exact h.sound (i,phase) (by simp)
    · exact h.sound q (by simp [hq])
  · intro q hq
    rcases List.mem_cons.mp hq with rfl | hq
    · exact hholds
    · exact (h.holds q (by simp [hq])).of_onlyAt honly (hapart.1 q hq)
  · intro l hl
    rw [List.forall_mem_cons] at hl
    rw [honly l hl.1]
    exact h.frame l (List.forall_mem_cons.mpr hl)

theorem Stands.discard_staged (h : Stands t₀ w₀ ((i,.waiting) :: batch) w) :
    ∃ w', (discard i.staged : StateM World Unit) w = ((),w') ∧
      Stands t₀ w₀ ((i,.withdrawn) :: batch) w' := by
  have hsound := h.sound (i,.waiting) (by simp)
  obtain ⟨hstaged,hpath,hbackup⟩ := h.holds (i,.waiting) (by simp)
  obtain ⟨w',hrun,hwithin,honly,hnone⟩ := discard_exec h.within hsound.placed.staged
    (by rw [hstaged]; exact hsound.staged)
  refine ⟨w',hrun,h.change hwithin (honly.mono (by simp [Item.places])) ⟨hnone,?_,?_⟩⟩
  · rw [← hpath]
    exact honly.held_eq (by simp [hsound.placed.staged_path.symm])
  · rw [← hbackup]
    exact honly.held_eq (by simp [hsound.placed.staged_backup.symm])

theorem Stands.discard_backup (h : Stands t₀ w₀ ((i,.swapped) :: batch) w) :
    ∃ w', ((i.backup w₀).forM discard : StateM World Unit) w = ((),w') ∧
      Stands t₀ w₀ ((i,.settled) :: batch) w' := by
  have hsound := h.sound (i,.swapped) (by simp)
  obtain ⟨hready,hstaged,hpath,hbackup⟩ := h.holds (i,.swapped) (by simp)
  by_cases hnone : w₀.held i.pathAt = none
  · refine ⟨w,by rw [Item.backup,if_pos hnone]; rfl,
      h.change h.within (.refl _ _) ⟨hready,hstaged,hpath,?_⟩⟩
    rw [hbackup,if_pos hnone]
  · obtain ⟨-,hfree⟩ := hready.2.2.resolve_left hnone
    obtain ⟨w',hrun,hwithin,honly,hgone⟩ := discard_exec h.within hsound.placed.backup
      (by rw [hbackup,if_neg hnone]; exact hsound.path)
    refine ⟨w',by rw [Item.backup,if_neg hnone]; exact hrun,
      h.change hwithin (honly.mono (by simp [Item.places])) ⟨hready,?_,?_,?_⟩⟩
    · rw [← hstaged]
      exact honly.held_eq (by simp [hsound.placed.staged_backup])
    · rw [← hpath]
      exact honly.held_eq (by simp [hsound.placed.path_backup])
    · rw [hgone,hfree]

theorem Stands.undo (h : Stands t₀ w₀ ((i,.swapped) :: batch) w) :
    ∃ w', (Output.undo i.path (i.backup w₀) : StateM World Unit) w = ((),w') ∧
      Stands t₀ w₀ ((i,.withdrawn) :: batch) w' := by
  have hsound := h.sound (i,.swapped) (by simp)
  obtain ⟨hready,hstaged,hpath,hbackup⟩ := h.holds (i,.swapped) (by simp)
  have hplain : Plain (w.held i.pathAt) := by
    rw [hpath]
    exact hsound.staged
  by_cases hnone : w₀.held i.pathAt = none
  · obtain ⟨w',hrun,hwithin,honly,hgone⟩ := discard_exec h.within hsound.placed.path hplain
    refine ⟨w',by rw [Item.backup,if_pos hnone]; exact hrun,
      h.change hwithin (honly.mono (by simp [Item.places])) ⟨?_,?_,?_⟩⟩
    · rw [← hstaged]
      exact honly.held_eq (by simp [hsound.placed.staged_path])
    · rw [hgone,hnone]
    · rw [if_pos hnone] at hbackup
      rw [← hbackup]
      exact honly.held_eq (by simp [hsound.placed.path_backup.symm])
  · obtain ⟨old,hold⟩ := hsound.path.resolve_left hnone
    obtain ⟨-,hfree⟩ := hready.2.2.resolve_left hnone
    obtain ⟨l,hl⟩ := Option.ne_none_iff_exists'.mp hready.2.1
    rw [if_neg hnone,hold] at hbackup
    obtain ⟨t,hrename,hwithin,honly,hgone,hback⟩ := rename_exec h.within hsound.placed.backup
      hsound.placed.path hsound.placed.path_backup.symm hbackup hl hplain
    refine ⟨{ w with files := t },by rw [Item.backup,if_neg hnone]; exact restore_of_ok hrename,
      h.change hwithin (honly.mono (by simp [Item.places])) ⟨?_,?_,?_⟩⟩
    · rw [← hstaged]
      exact honly.held_eq (by simp [hsound.placed.staged_path,hsound.placed.staged_backup])
    · rw [hback,hold]
    · rw [hgone,hfree]

/-- An item that is ready is swapped in, and one that is not keeps waiting. -/
theorem Stands.swapIn (h : Stands t₀ w₀ ((i,.waiting) :: batch) w) :
    (∃ w', (Output.swapIn i.staged i.path : StateM World _) w = (.ok (i.backup w₀),w') ∧
      Stands t₀ w₀ ((i,.swapped) :: batch) w') ∨
    ¬i.ReadyIn w₀ ∧ ∃ e w', (Output.swapIn i.staged i.path : StateM World _) w = (.error e,w') ∧
      Stands t₀ w₀ ((i,.waiting) :: batch) w' := by
  have hsound := h.sound (i,.waiting) (by simp)
  obtain ⟨hstaged,hpath,hbackup⟩ := h.holds (i,.waiting) (by simp)
  have hplain : Plain (w.held i.stagedAt) := by
    rw [hstaged]
    exact hsound.staged
  have hplain' : Plain (w.held i.pathAt) := by
    rw [hpath]
    exact hsound.path
  by_cases hready : i.ReadyIn w₀
  · obtain ⟨w',hrun,hwithin,honly,hholds⟩ := swapIn_of_ready hsound.placed h.within hplain hplain'
      (by rw [hstaged,hpath,hbackup]; exact hready)
    rw [hstaged,hpath,hbackup] at hholds
    rw [hpath] at hrun
    exact .inl ⟨w',hrun,h.change hwithin honly ⟨hready,hholds⟩⟩
  · obtain ⟨e,w',hrun,hwithin,honly,hholds⟩ := swapIn_of_not_ready hsound.placed h.within hplain
      hplain' (by rw [hbackup]; exact hsound.backup) (by rw [hstaged,hpath,hbackup]; exact hready)
    rw [hstaged,hpath,hbackup] at hholds
    exact .inr ⟨hready,e,w',hrun,h.change hwithin honly hholds⟩

theorem Stands.steps (t₀ : FileTree) (w₀ : World) :
    Steps (Item.backup w₀) (fun i => ¬i.ReadyIn w₀) (Stands t₀ w₀) where
  perm := Stands.perm
  swapIn := Stands.swapIn
  discardStaged := Stands.discard_staged
  discardBackup := Stands.discard_backup
  undo := Stands.undo

theorem Stands.apart_staged {items : List Item} (h : Stands t₀ w₀ (phase.all items) w) {i j : Item}
    (hi : i ∈ items) (hj : j ∈ items) :
    ControlStore.Apart i.pathAt j.stagedAt ∧ ControlStore.Apart i.backupAt j.stagedAt := by
  have hself : ∀ q ∈ phase.all items, ControlStore.Apart q.1.pathAt q.1.stagedAt ∧
      ControlStore.Apart q.1.backupAt q.1.stagedAt := by
    intro q hq
    have hplaced := (h.sound q hq).placed
    exact ⟨hplaced.staged_path.symm,hplaced.staged_backup.symm⟩
  have hof {q q' : Item × Phase} (hq : q.1.Apart q'.1) :
      ControlStore.Apart q.1.pathAt q'.1.stagedAt ∧
        ControlStore.Apart q.1.backupAt q'.1.stagedAt :=
    ⟨hq _ (by simp [Item.places]) _ (by simp [Item.places]),
      hq _ (by simp [Item.places]) _ (by simp [Item.places])⟩
  exact List.Pairwise.forall_of_forall_of_flip hself (h.apart.imp hof)
    (h.apart.imp fun hq => hof hq.symm) (List.mem_map_of_mem hi) (List.mem_map_of_mem hj)

section Staged

variable {items : List Item} {w₁ : World} (hfree : ∀ i ∈ items, w.held i.stagedAt = none)
  (honly : w.OnlyAt (items.map (·.stagedAt)) w₁)

include honly

theorem Stands.place_or_find?_eq (h : Stands t₀ w₁ (phase.all items) w') (l : Location) :
    (∃ i ∈ items, some l ∈ i.places) ∨ w'.files.find? l = w.files.find? l := by
  by_cases hl : ∃ i ∈ items, some l ∈ i.places
  · exact .inl hl
  · push Not at hl
    have hframe : w'.files.find? l = w₁.files.find? l := by
      apply h.frame
      intro q hq
      obtain ⟨i,hi,rfl⟩ := List.mem_map.mp hq
      exact hl i hi
    have hstaged : some l ∉ items.map (·.stagedAt) := by
      intro hmem
      obtain ⟨i,hi,hat⟩ := List.mem_map.mp hmem
      exact hl i hi (by simp [Item.places,← hat])
    exact .inr (hframe.trans (honly l hstaged))

theorem held_eq_of_staged {x : Option Location}
    (hx : ∀ j ∈ items, ControlStore.Apart x j.stagedAt) : w₁.held x = w.held x := by
  apply honly.held_eq
  intro y hy
  obtain ⟨j,hj,rfl⟩ := List.mem_map.mp hy
  exact hx j hj

include hfree

/-- Once all that was staged is withdrawn, the files are as they were before it was staged. -/
theorem Stands.find?_of_withdrawn (h : Stands t₀ w₁ (Phase.withdrawn.all items) w') (l : Location) :
    w'.files.find? l = w.files.find? l := by
  rcases h.place_or_find?_eq honly l with ⟨i,hi,hplace⟩ | hsame
  · obtain ⟨hstaged,hpath,hbackup⟩ := h.holds (i,.withdrawn) (List.mem_map_of_mem hi)
    simp only [Item.places,List.mem_cons,List.not_mem_nil,or_false] at hplace
    rw [← w.held_some,← w'.held_some]
    rcases hplace with hplace | hplace | hplace
    · rw [hplace,hstaged,hfree i hi]
    · rw [hplace,hpath]
      exact held_eq_of_staged honly fun j hj => (h.apart_staged hi hj).1
    · rw [hplace,hbackup]
      exact held_eq_of_staged honly fun j hj => (h.apart_staged hi hj).2
  · exact hsame

theorem Stands.onlyAt_of_settled (h : Stands t₀ w₁ (Phase.settled.all items) w') :
    w.OnlyAt (items.map (·.pathAt)) w' := by
  intro l hpaths
  rcases h.place_or_find?_eq honly l with ⟨i,hi,hplace⟩ | hsame
  · obtain ⟨-,hstaged,-,hbackup⟩ := h.holds (i,.settled) (List.mem_map_of_mem hi)
    simp only [Item.places,List.mem_cons,List.not_mem_nil,or_false] at hplace
    rw [← w.held_some,← w'.held_some]
    rcases hplace with hplace | hplace | hplace
    · rw [hplace,hstaged,hfree i hi]
    · exact absurd (List.mem_map.mpr ⟨i,hi,hplace.symm⟩) hpaths
    · rw [hplace,hbackup]
      exact held_eq_of_staged honly fun j hj => (h.apart_staged hi hj).2
  · exact hsame

end Staged
end Stands
end Output
end ControlStore
