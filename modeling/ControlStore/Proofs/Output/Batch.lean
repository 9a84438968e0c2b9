import ControlStore.Proofs.Output.Staging

/-! Committing a batch of any length. The paths of the batch are told apart by the locations they
denote, and a path that denotes none may stand among them. A commit replaces every target or takes
every swap back, and either way nothing that was staged and no backup is left. -/
namespace ControlStore
namespace Output

open FileTree

def involved (batch : List (String × String)) : List String :=
  batch.flatMap fun q => [q.1,q.2,backupPath q.2]

/-- No two paths of a batch denote one location, what is staged and what the targets hold are
regular files, and no backup exists. -/
structure Orderly (t : FileTree) (batch : List (String × String)) : Prop where
  distinct : (involved batch).Pairwise fun path path' => ∀ l, t.Denotes path l → ¬t.Denotes path' l
  regular : ∀ q ∈ batch, ∀ path ∈ [q.1,q.2], ∀ e, t.entryOf path = .ok e → e.isFile
  free : ∀ q ∈ batch, ∀ e, t.entryOf (backupPath q.2) ≠ .ok e

theorem apart_location?_iff {t : FileTree} {path path' : String} :
    Apart (t.location? path) (t.location? path') ↔ ∀ l, t.Denotes path l → ¬t.Denotes path' l := by
  simp only [Apart,ne_eq,location?_eq_some]

instance (x y : Option Location) : Decidable (Apart x y) :=
  decidable_of_iff (x = none ∨ x ≠ y) (by cases x <;> simp [Apart,eq_comm])

instance (t : FileTree) (batch : List (String × String)) : Decidable (Orderly t batch) :=
  decidable_of_iff (((involved batch).Pairwise fun path path' =>
        Apart (t.location? path) (t.location? path')) ∧
      (∀ q ∈ batch, ∀ path ∈ [q.1,q.2], ∀ e, t.entryOf path = .ok e → e.isFile) ∧
      ∀ q ∈ batch, ∀ e, t.entryOf (backupPath q.2) = .ok e → False) (by
    simp only [apart_location?_iff]
    exact ⟨fun h => ⟨h.1,h.2.1,h.2.2⟩,fun h => ⟨h.distinct,h.regular,h.free⟩⟩)

/-- A staged file can be swapped in: it is there, its target is in reach, and what the target holds
can be moved aside. -/
structure Swappable (t : FileTree) (q : String × String) : Prop where
  staged : ∃ e, t.entryOf q.1 = .ok e
  target : ∃ l, t.Denotes q.2 l
  backup : ∀ e, t.entryOf q.2 = .ok e → ∃ l, t.Denotes (backupPath q.2) l

/-- After a commit nothing staged and no backup is left, and what the batch is not about is as it
was. -/
structure Tidied (t : FileTree) (batch : List (String × String)) (t' : FileTree) : Prop where
  start : t'.start = t.start
  staged : ∀ q ∈ batch, ∀ e, t'.entryOf q.1 ≠ .ok e
  backup : ∀ q ∈ batch, ∀ e, t'.entryOf (backupPath q.2) ≠ .ok e
  others : ∀ l, (∀ path ∈ involved batch, ¬t.Denotes path l) → t'.find? l = t.find? l

def itemOf (t : FileTree) (q : String × String) : Item :=
  ⟨q.1,q.2,t.location? q.1,t.location? q.2,t.location? (backupPath q.2)⟩

theorem places_itemOf (t : FileTree) (q : String × String) :
    (itemOf t q).places = [q.1,q.2,backupPath q.2].map t.location? := rfl

theorem map_itemOf (t : FileTree) (batch : List (String × String)) :
    (batch.map (itemOf t)).map (fun i => (i.staged,i.path)) = batch := by
  rw [List.map_map]
  exact List.map_id batch

section Orderly

variable {t : FileTree} {batch : List (String × String)} {q : String × String} {path : String}

theorem Orderly.reaches (h : Orderly t batch) (ht : t.WellFormed) (hq : q ∈ batch)
    (hpath : path ∈ [q.1,q.2,backupPath q.2]) : t.Reaches path (t.location? path) := by
  apply reaches_location? ht
  intro hdirectory
  have hcases : path ∈ [q.1,q.2] ∨ path = backupPath q.2 := by simpa [or_assoc] using hpath
  rcases hcases with hpath | rfl
  · exact absurd (h.regular q hq path hpath _ hdirectory) (by simp [Entry.isFile])
  · exact h.free q hq _ hdirectory

theorem Orderly.placed (h : Orderly t batch) (ht : t.WellFormed) (hq : q ∈ batch) :
    (itemOf t q).Placed t := by
  have hdistinct := (List.pairwise_flatMap.mp h.distinct).1 q hq
  simp only [List.pairwise_cons,List.forall_mem_cons] at hdistinct
  obtain ⟨⟨hpath,hbackup,-⟩,⟨hback,-⟩,-⟩ := hdistinct
  exact ⟨h.reaches ht hq (by simp [itemOf]),h.reaches ht hq (by simp [itemOf]),
    h.reaches ht hq (by simp [itemOf]),apart_location?_iff.mpr hpath,
    apart_location?_iff.mpr hbackup,apart_location?_iff.mpr hback⟩

theorem Orderly.apart (h : Orderly t batch) : (batch.map (itemOf t)).Pairwise Item.Apart := by
  rw [List.pairwise_map]
  refine (List.pairwise_flatMap.mp h.distinct).2.imp ?_
  intro q q' hdistinct x hx y hy
  rw [places_itemOf] at hx hy
  obtain ⟨path,hpath,rfl⟩ := List.mem_map.mp hx
  obtain ⟨path',hpath',rfl⟩ := List.mem_map.mp hy
  exact apart_location?_iff.mpr (hdistinct path hpath path' hpath')

end Orderly

section Commit

variable {w w' : World} {batch : List (String × String)} {q : String × String} {phase : Phase}
  (hw : w.files.WellFormed) (h : Orderly w.files batch)

include hw h

theorem Orderly.held_backup (hq : q ∈ batch) :
    w.held (itemOf w.files q).backupAt = none := by
  rw [Option.eq_none_iff_forall_ne_some]
  intro e hheld
  exact h.free q hq e (((h.placed hw hq).backup.entryOf_eq_ok_iff hw).mpr hheld)

theorem Orderly.sound (hq : q ∈ batch) : (itemOf w.files q).Sound w.files w := by
  have hplain {path : String} (hpath : path ∈ [q.1,q.2]) :
      Plain (w.held (w.files.location? path)) := by
    have hreach := h.reaches hw hq (List.mem_append_left [backupPath q.2] hpath)
    cases hheld : w.held (w.files.location? path) with
    | none => exact .none
    | some e =>
      have hfile := h.regular q hq path hpath e ((hreach.entryOf_eq_ok_iff hw).mpr hheld)
      cases e with
      | file contents => exact .file contents
      | directory => cases hfile
      | link target => cases hfile
  exact ⟨h.placed hw hq,hplain (by simp),hplain (by simp),.inl (h.held_backup hw hq)⟩

theorem Orderly.readyIn_iff (hq : q ∈ batch) :
    (itemOf w.files q).ReadyIn w ↔ Swappable w.files q := by
  have hplaced := h.placed hw hq
  have hstaged : w.held (itemOf w.files q).stagedAt ≠ none ↔ ∃ e, w.files.entryOf q.1 = .ok e := by
    rw [Option.ne_none_iff_exists']
    exact exists_congr fun e => (hplaced.staged.entryOf_eq_ok_iff hw).symm
  have hpath : w.held (itemOf w.files q).pathAt = none ↔ ∀ e, w.files.entryOf q.2 ≠ .ok e := by
    rw [Option.eq_none_iff_forall_ne_some]
    exact forall_congr' fun e => not_congr (hplaced.path.entryOf_eq_ok_iff hw).symm
  have hreach (path : String) : w.files.location? path ≠ none ↔ ∃ l, w.files.Denotes path l := by
    rw [Option.ne_none_iff_exists']
    exact exists_congr fun l => location?_eq_some
  rw [Item.ReadyIn,Item.Ready,hstaged,hpath,h.held_backup hw hq]
  simp only [itemOf,hreach,and_true]
  constructor
  · rintro ⟨hstaged,htarget,hfree⟩
    refine ⟨hstaged,htarget,?_⟩
    intro e he
    exact hfree.resolve_left fun hnone => hnone e he
  · rintro ⟨hstaged,htarget,hbackup⟩
    refine ⟨hstaged,htarget,?_⟩
    by_cases hnone : ∀ e, w.files.entryOf q.2 ≠ .ok e
    · exact .inl hnone
    · push Not at hnone
      obtain ⟨e,he⟩ := hnone
      exact .inr (hbackup e he)

theorem Orderly.tidied (hstands : Stands w.files w (phase.all (batch.map (itemOf w.files))) w')
    (hgone : ∀ q ∈ batch, w'.held (itemOf w.files q).stagedAt = none ∧
      w'.held (itemOf w.files q).backupAt = w.held (itemOf w.files q).backupAt) :
    Tidied w.files batch w'.files := by
  refine ⟨hstands.within.sameWays.start,?_,?_,?_⟩
  · intro q hq e he
    have hheld := (hstands.within.entryOf_eq_ok_iff (h.placed hw hq).staged).mp he
    rw [(hgone q hq).1] at hheld
    cases hheld
  · intro q hq e he
    have hheld := (hstands.within.entryOf_eq_ok_iff (h.placed hw hq).backup).mp he
    rw [(hgone q hq).2,h.held_backup hw hq] at hheld
    cases hheld
  · intro l hl
    apply hstands.frame
    intro p hp hplace
    obtain ⟨i,hi,rfl⟩ := List.mem_map.mp hp
    obtain ⟨q,hq,rfl⟩ := List.mem_map.mp hi
    rw [places_itemOf] at hplace
    obtain ⟨path,hpath,hat⟩ := List.mem_map.mp hplace
    exact hl path (List.mem_flatMap.mpr ⟨q,hq,hpath⟩) (location?_eq_some.mp hat)

end Commit

/-- A commit replaces every target by what was staged for it, or fails and leaves every target as it
was; it fails only if one staged file cannot be swapped in. -/
theorem commit_replaces_or_restores (w : World) (batch : List (String × String))
    (hw : w.files.WellFormed) (h : Orderly w.files batch) :
    ∃ r w', (commit batch : StateM World _) w = (r,w') ∧ Tidied w.files batch w'.files ∧
      (r = .ok () ∧ (∀ q ∈ batch, Swappable w.files q) ∧
          (∀ q ∈ batch, ∃ contents, w.files.entryOf q.1 = .ok (.file contents) ∧
            w'.files.entryOf q.2 = .ok (.file contents)) ∨
        (∃ e, r = .error e) ∧ (∃ q ∈ batch, ¬Swappable w.files q) ∧
          ∀ q ∈ batch, ∀ e, w'.files.entryOf q.2 = .ok e ↔ w.files.entryOf q.2 = .ok e) := by
  have hin : w.Within w.files := ⟨hw,.refl _⟩
  have hsound : ∀ i ∈ batch.map (itemOf w.files), i.Sound w.files w := by
    intro i hi
    obtain ⟨q,hq,rfl⟩ := List.mem_map.mp hi
    exact h.sound hw hq
  obtain ⟨r,w',hrun,hends⟩ := (Stands.steps _ _).commitFrom [] (batch.map (itemOf w.files))
    (Stands.start hin hsound h.apart)
  rw [map_itemOf] at hrun
  refine ⟨r,w',hrun,?_⟩
  rcases hends with ⟨rfl,hsettled⟩ | ⟨herror,⟨i,hi,hnot⟩,hwithdrawn⟩
  · have hholds : ∀ q ∈ batch, Phase.settled.Holds w (itemOf w.files q) w' := fun q hq =>
      hsettled.holds _ (List.mem_map_of_mem (List.mem_map_of_mem hq))
    refine ⟨h.tidied hw hsettled fun q hq => ⟨(hholds q hq).2.1,(hholds q hq).2.2.2⟩,
      .inl ⟨rfl,fun q hq => (h.readyIn_iff hw hq).mp (hholds q hq).1,?_⟩⟩
    intro q hq
    obtain ⟨hready,-,hpath,-⟩ := hholds q hq
    obtain ⟨contents,hcontents⟩ := (h.sound hw hq).staged.resolve_left hready.1
    have hplaced := h.placed hw hq
    exact ⟨contents,(hin.entryOf_eq_ok_iff hplaced.staged).mpr hcontents,
      (hsettled.within.entryOf_eq_ok_iff hplaced.path).mpr (hpath.trans hcontents)⟩
  · have hholds : ∀ q ∈ batch, Phase.withdrawn.Holds w (itemOf w.files q) w' := fun q hq =>
      hwithdrawn.holds _ (List.mem_map_of_mem (List.mem_map_of_mem hq))
    obtain ⟨q,hq,rfl⟩ := List.mem_map.mp hi
    refine ⟨h.tidied hw hwithdrawn fun q hq => ⟨(hholds q hq).1,(hholds q hq).2.2⟩,
      .inr ⟨herror,⟨q,hq,fun hswap => hnot ((h.readyIn_iff hw hq).mpr hswap)⟩,?_⟩⟩
    intro q hq e
    have hplaced := h.placed hw hq
    have hnow := hwithdrawn.within.entryOf_eq_ok_iff hplaced.path (e := e)
    rw [(hholds q hq).2.1] at hnow
    exact hnow.trans (hin.entryOf_eq_ok_iff hplaced.path).symm

/-- Two targets are there and two are not, and for the third nothing is staged. -/
def halfStaged : FileTree where
  entries := [(["a"],.file "old a".toUTF8),(["a.tmp"],.file "new a".toUTF8),
    (["b.tmp"],.file "new b".toUTF8),(["c"],.file "old c".toUTF8),
    (["d.tmp"],.file "new d".toUTF8)]

def fourSwaps : List (String × String) := [("a.tmp","a"),("b.tmp","b"),("c.tmp","c"),("d.tmp","d")]

/-- The third target is moved aside before its swap fails. It is put back, the first target is
restored, the second is removed, and what waits for the fourth is discarded. -/
theorem commit_fourSwaps : halfStaged.WellFormed ∧ Orderly halfStaged fourSwaps ∧
    ∃ e w', (commit fourSwaps : StateM World _) ⟨halfStaged,.empty,[]⟩ = (.error e,w') ∧
      w'.files.entryOf "a" = .ok (.file "old a".toUTF8) ∧
      (∀ e, w'.files.entryOf "b" ≠ .ok e) ∧
      w'.files.entryOf "c" = .ok (.file "old c".toUTF8) ∧
      (∀ e, w'.files.entryOf "c.bak" ≠ .ok e) ∧ ∀ e, w'.files.entryOf "d.tmp" ≠ .ok e := by
  have hw : halfStaged.WellFormed := by decide
  have horderly : Orderly halfStaged fourSwaps := by decide
  have hmissing : halfStaged.entryOf "c.tmp" = .error .notFound := by decide
  obtain ⟨r,w',hrun,htidied,hends⟩ := commit_replaces_or_restores ⟨halfStaged,.empty,[]⟩ fourSwaps
    hw horderly
  refine ⟨hw,horderly,?_⟩
  rcases hends with ⟨-,hall,-⟩ | ⟨⟨e,rfl⟩,-,hsame⟩
  · obtain ⟨e,he⟩ := (hall ("c.tmp","c") (by decide)).staged
    cases hmissing.symm.trans he
  · refine ⟨e,w',hrun,(hsame ("a.tmp","a") (by decide) _).mpr (by decide),?_,
      (hsame ("c.tmp","c") (by decide) _).mpr (by decide),htidied.backup ("c.tmp","c") (by decide),
      htidied.staged ("d.tmp","d") (by decide)⟩
    intro e he
    have hnone : halfStaged.entryOf "b" = .error .notFound := by decide
    cases hnone.symm.trans ((hsame ("b.tmp","b") (by decide) e).mp he)

end Output
end ControlStore
