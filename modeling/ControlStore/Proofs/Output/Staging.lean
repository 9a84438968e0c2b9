import ControlStore.Proofs.Output.Commit

/-! What comes before a commit. Targets are checked, which changes nothing, and contents are staged,
which changes nothing but the staging names. After it a batch stands with all items waiting. -/
namespace ControlStore
namespace Output

open FileTree

section Targets

variable {w : World} {path : String} {l : Location}

theorem exists_checkTargets (paths : List String) (w : World) :
    ∃ r, (checkTargets paths : StateM World _) w = (r,w) := by
  induction paths with
  | nil => exact ⟨.ok (),rfl⟩
  | cons path paths ih =>
    have hcheck : ∃ r, (checkTarget path : StateM World _) w = (r,w) := by
      simp only [checkTarget,bind_apply,isRegular_apply]
      cases (w.files.entryOf path).map (·.isFile) with
      | ok regular => cases regular <;> exact ⟨_,rfl⟩
      | error fault => cases fault <;> exact ⟨_,rfl⟩
    obtain ⟨r,hr⟩ := hcheck
    simp only [checkTargets,bind_apply,hr]
    cases r with
    | error e => exact ⟨.error e,rfl⟩
    | ok u => exact ih

theorem checkTarget_of_plain (hpath : w.files.Denotes path l) (h : Plain (w.files.find? l)) :
    (checkTarget path : StateM World _) w = (.ok (),w) := by
  rcases h with h | ⟨contents,h⟩
  · simp only [checkTarget,bind_apply,isRegular_apply,entryOf_of_none hpath h]
    rfl
  · simp only [checkTarget,bind_apply,isRegular_apply,entryOf_of_some hpath h]
    rfl

theorem checkTarget_of_not_plain (hpath : w.files.Denotes path l)
    (h : ¬Plain (w.files.find? l)) :
    ∃ e, (checkTarget path : StateM World _) w = (.error e,w) := by
  cases hentry : w.files.find? l with
  | none => exact absurd (.inl hentry) h
  | some e =>
    cases e with
    | file contents => exact absurd (.inr ⟨contents,hentry⟩) h
    | directory =>
      refine ⟨.file path .notRegular,?_⟩
      simp only [checkTarget,bind_apply,isRegular_apply,entryOf_of_some hpath hentry]
      rfl
    | link target =>
      refine ⟨.file path .notRegular,?_⟩
      simp only [checkTarget,bind_apply,isRegular_apply,entryOf_of_some hpath hentry]
      rfl

theorem checkTargets_exec (targets : List (String × Location))
    (h : ∀ target ∈ targets, w.files.Denotes target.1 target.2) :
    (∀ target ∈ targets, Plain (w.files.find? target.2)) ∧
        (checkTargets (targets.map (·.1)) : StateM World _) w = (.ok (),w) ∨
      (∃ target ∈ targets, ¬Plain (w.files.find? target.2)) ∧
        ∃ e, (checkTargets (targets.map (·.1)) : StateM World _) w = (.error e,w) := by
  induction targets with
  | nil => exact .inl ⟨by simp,rfl⟩
  | cons target targets ih =>
    rw [List.forall_mem_cons] at h
    by_cases hplain : Plain (w.files.find? target.2)
    · have hhead := checkTarget_of_plain h.1 hplain
      rcases ih h.2 with ⟨hall,hrun⟩ | ⟨⟨bad,hbad,hnot⟩,e,hrun⟩
      · refine .inl ⟨List.forall_mem_cons.mpr ⟨hplain,hall⟩,?_⟩
        simp only [List.map_cons,checkTargets,bind_apply,hhead]
        exact hrun
      · refine .inr ⟨⟨bad,by simp [hbad],hnot⟩,e,?_⟩
        simp only [List.map_cons,checkTargets,bind_apply,hhead]
        exact hrun
    · obtain ⟨e,hhead⟩ := checkTarget_of_not_plain h.1 hplain
      refine .inr ⟨⟨target,by simp,hplain⟩,e,?_⟩
      simp only [List.map_cons,checkTargets,bind_apply,hhead]
      rfl

end Targets

section Staging

variable {t₀ : FileTree} {w : World}

theorem write_exec {path : String} {l : Location} (hw : w.Within t₀) (hpath : t₀.Denotes path l)
    (hplain : Plain (w.files.find? l)) (contents : String) :
    ∃ w', (Storage.write path contents : StateM World _) w = (.ok (),w') ∧ w'.Within t₀ ∧
      w.OnlyAt [some l] w' ∧ w'.held (some l) = some (.file contents.toUTF8) := by
  obtain ⟨t,hwrite,hrevised⟩ := exists_write hw.wellFormed (hpath.sameWays hw.sameWays) hplain
    contents.toUTF8
  refine ⟨{ w with files := t },?_,hw.revised hrevised rfl,?_,?_⟩
  · rw [write_apply,hwrite]
    rfl
  · intro l' hl'
    have hne : l' ≠ l := fun h => hl' (by simp [h])
    simp [hrevised.view,hne]
  · simp [hrevised.view]

/-- The contents of an item can be staged: the staging name of its target is free. -/
structure Stageable (t₀ : FileTree) (w : World) (i : Item) : Prop where
  name : i.staged = stagingPath i.path
  reach : i.stagedAt ≠ none
  leads : t₀.Reaches i.staged i.stagedAt
  free : w.held i.stagedAt = none

/-- Staging the rest of the contents puts each where it waits. -/
theorem stageFrom_exec (rest : List (Item × String)) (done : List (String × String))
    (hw : w.Within t₀) (hstage : ∀ q ∈ rest, Stageable t₀ w q.1)
    (hapart : rest.Pairwise fun q q' => Apart q.1.stagedAt q'.1.stagedAt) :
    ∃ w', (stageFrom done (rest.map fun q => (q.1.path,q.2)) : StateM World _) w =
        (.ok (done ++ rest.map fun q => (q.1.staged,q.1.path)),w') ∧ w'.Within t₀ ∧
      w.OnlyAt (rest.map (·.1.stagedAt)) w' ∧
      ∀ q ∈ rest, w'.held q.1.stagedAt = some (.file q.2.toUTF8) := by
  induction rest generalizing w done with
  | nil => exact ⟨w,by simp [stageFrom]; rfl,hw,.refl _ _,by simp⟩
  | cons q rest ih =>
    rw [List.forall_mem_cons] at hstage
    rw [List.pairwise_cons] at hapart
    obtain ⟨hname,hreach,hleads,hfree⟩ := hstage.1
    obtain ⟨l,hl⟩ := Option.ne_none_iff_exists'.mp hreach
    rw [hl] at hleads hfree
    obtain ⟨w₁,hwrite,hw₁,honly₁,hheld₁⟩ := write_exec hw hleads (.inl hfree) q.2
    rw [← hl] at honly₁ hheld₁
    have hstage₁ : ∀ q' ∈ rest, Stageable t₀ w₁ q'.1 := by
      intro q' hq'
      have h' := hstage.2 q' hq'
      refine ⟨h'.name,h'.reach,h'.leads,?_⟩
      rw [← h'.free]
      exact honly₁.held_eq (by simpa using (hapart.1 q' hq').symm)
    obtain ⟨w₂,hrun,hw₂,honly₂,hheld₂⟩ := ih (done ++ [(q.1.staged,q.1.path)]) hw₁ hstage₁ hapart.2
    refine ⟨w₂,?_,hw₂,?_,?_⟩
    · rw [List.map_cons,stageFrom,bind_apply,← hname,hwrite]
      simpa using hrun
    · exact (honly₁.mono (by simp)).trans (honly₂.mono fun _ hx => List.mem_cons_of_mem _ hx)
    · rw [List.forall_mem_cons]
      refine ⟨?_,hheld₂⟩
      rw [← hheld₁]
      apply honly₂.held_eq
      intro y hy
      obtain ⟨q',hq',rfl⟩ := List.mem_map.mp hy
      exact hapart.1 q' hq'

theorem stage_out_of_reach {path name : String} (hends : EndsInName (stagingPath path) name)
    (hnot : ∀ l, ¬w.files.Denotes (stagingPath path) l) (contents : String)
    (rest : List (String × String)) :
    ∃ e w', (stage ((path,contents) :: rest) : StateM World _) w = (.error e,w') ∧
      w'.files = w.files := by
  obtain ⟨fault,hwrite⟩ := write_of_endsInName hnot hends contents.toUTF8
  obtain ⟨fault',hremove⟩ := remove_out_of_reach (reaches_none_of_endsInName hends hnot)
  obtain ⟨w',hdiscard,hfiles⟩ := discard_of_error hremove
  refine ⟨.file (stagingPath path) fault,w',?_,hfiles⟩
  simp only [stage,stageFrom,bind_apply,write_apply,hwrite,World.change,hdiscard]
  rfl

theorem Stands.start {items : List Item} (hw : w.Within t₀) (hsound : ∀ i ∈ items, i.Sound t₀ w)
    (hapart : items.Pairwise Item.Apart) : Stands t₀ w (Phase.waiting.all items) w := by
  refine ⟨hw,?_,List.pairwise_map.mpr hapart,?_,fun _ _ => rfl⟩
  · intro q hq
    obtain ⟨i,hi,rfl⟩ := List.mem_map.mp hq
    exact hsound i hi
  · intro q hq
    obtain ⟨i,hi,rfl⟩ := List.mem_map.mp hq
    exact ⟨rfl,rfl,rfl⟩

end Staging
end Output
end ControlStore
