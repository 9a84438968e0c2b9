import ControlStore.Proofs.Files.Siblings
import ControlStore.Proofs.Output.Staging

/-! Writing the two artifacts changes both targets or nothing. The theorem holds for every tree in
which the staging names are free and nothing but a directory has the name of a backup; it also says
when the artifacts are written. -/
namespace ControlStore
namespace Output

open FileTree

def endings : List String := [".hex",".sv"]

theorem mem_endings {ending : String} : ending ∈ endings ↔ ending = ".hex" ∨ ending = ".sv" := by
  simp [endings]

theorem hex_mem_endings : ".hex" ∈ endings := by simp [endings]

theorem sv_mem_endings : ".sv" ∈ endings := by simp [endings]

def siblingEndings : List String := endings.flatMap fun s => [s,s ++ ".tmp",s ++ ".bak"]

def artifact (stem : String) (d : Location) (piece ending : String) : Item where
  staged := stagingPath (stem ++ ending)
  path := stem ++ ending
  stagedAt := some (d ++ [piece ++ (ending ++ ".tmp")])
  pathAt := some (d ++ [piece ++ ending])
  backupAt := some (d ++ [piece ++ (ending ++ ".bak")])

section Siblings

variable {d : Location} {piece s s' : String}

theorem sibling_inj : d ++ [piece ++ s] = d ++ [piece ++ s'] ↔ s = s' := by
  constructor
  · intro h
    have hlast : piece ++ s = piece ++ s' := by simpa using h
    have hlist := congrArg String.toList hlast
    rw [String.toList_append,String.toList_append,List.append_cancel_left_eq] at hlist
    exact String.toList_inj.mp hlist
  · intro h
    rw [h]

theorem apart_siblings (h : s ≠ s') :
    Apart (some (d ++ [piece ++ s])) (some (d ++ [piece ++ s'])) := by
  intro l hl hl'
  rw [← hl'] at hl
  exact h (sibling_inj.mp (Option.some.inj hl))

/-- All names that belong to a stem lead to siblings. -/
def Family (t : FileTree) (stem : String) (d : Location) (piece : String) : Prop :=
  ∀ s ∈ siblingEndings, t.Denotes (stem ++ s) (d ++ [piece ++ s])

theorem stagingPath_hex (stem : String) : stagingPath (stem ++ ".hex") = stem ++ ".hex.tmp" := by
  rw [stagingPath,String.append_assoc]
  rfl

/-- The longest of the names decides whether all are in reach. -/
theorem exists_family {t : FileTree} {stem : String} {l : Location}
    (h : t.Denotes (stagingPath (stem ++ ".hex")) l) : ∃ d piece, Family t stem d piece := by
  have hends : ∀ s ∈ siblingEndings, IsEnding s ∧ s.utf8ByteSize ≤ ".hex.tmp".utf8ByteSize := by
    decide
  rw [stagingPath_hex] at h
  obtain ⟨d,piece,hfamily⟩ := h.siblings (by decide)
  exact ⟨d,piece,fun s hs => hfamily s (hends s hs).1 (hends s hs).2⟩

end Siblings

section Artifacts

variable {t : FileTree} {stem : String} {d : Location} {piece : String} {ending : String}

theorem Family.denotes (h : Family t stem d piece) (he : ending ∈ endings) :
    t.Denotes (stem ++ ending) (d ++ [piece ++ ending]) :=
  h ending (List.mem_flatMap.mpr ⟨ending,he,by simp⟩)

theorem Family.denotes_staging (h : Family t stem d piece) (he : ending ∈ endings) :
    t.Denotes (stagingPath (stem ++ ending)) (d ++ [piece ++ (ending ++ ".tmp")]) := by
  rw [stagingPath,String.append_assoc]
  exact h _ (List.mem_flatMap.mpr ⟨ending,he,by simp⟩)

theorem Family.denotes_backup (h : Family t stem d piece) (he : ending ∈ endings) :
    t.Denotes (backupPath (stem ++ ending)) (d ++ [piece ++ (ending ++ ".bak")]) := by
  rw [backupPath,String.append_assoc]
  exact h _ (List.mem_flatMap.mpr ⟨ending,he,by simp⟩)

theorem placed_artifact (h : Family t stem d piece) (he : ending ∈ endings) :
    (artifact stem d piece ending).Placed t := by
  have hends : ∀ s ∈ endings, s ++ ".tmp" ≠ s ∧ s ++ ".tmp" ≠ s ++ ".bak" ∧ s ≠ s ++ ".bak" := by
    decide
  obtain ⟨hpath,hbackup,hback⟩ := hends ending he
  exact ⟨h.denotes_staging he,h.denotes he,h.denotes_backup he,apart_siblings hpath,
    apart_siblings hbackup,apart_siblings hback⟩

theorem apart_artifacts (stem : String) (d : Location) (piece : String) :
    (artifact stem d piece ".hex").Apart (artifact stem d piece ".sv") := by
  intro x hx y hy
  simp only [Item.places,artifact,List.mem_cons,List.not_mem_nil,or_false] at hx hy
  rcases hx with rfl | rfl | rfl
  all_goals
    rcases hy with rfl | rfl | rfl
    all_goals exact apart_siblings (by decide)

end Artifacts

def targets (stem : String) : List String := endings.map (stem ++ ·)

/-- The names that writing needs are free: nothing is staged, and a backup name has no entry but a
directory. -/
structure Clear (t : FileTree) (stem : String) : Prop where
  staging : ∀ path ∈ targets stem, ∀ e, t.entryOf (stagingPath path) ≠ .ok e
  backup : ∀ path ∈ targets stem, ∀ e, t.entryOf (backupPath path) = .ok e → e = .directory

instance (t : FileTree) (stem : String) : Decidable (Clear t stem) :=
  decidable_of_iff ((∀ path ∈ targets stem, ∀ e, t.entryOf (stagingPath path) = .ok e → False) ∧
      ∀ path ∈ targets stem, ∀ e, t.entryOf (backupPath path) = .ok e → e = .directory)
    ⟨fun h => ⟨h.1,h.2⟩,fun h => ⟨h.staging,h.backup⟩⟩

/-- Both artifacts can be written: the longest name is in reach, and a target that has an entry is a
file whose backup name has none. -/
structure Writable (t : FileTree) (stem : String) : Prop where
  reach : ∃ l, t.Denotes (stagingPath (stem ++ ".hex")) l
  target : ∀ path ∈ targets stem, ∀ e, t.entryOf path = .ok e →
    (∃ contents, e = .file contents) ∧ ∀ e', t.entryOf (backupPath path) ≠ .ok e'

/-- A tree differs from another in the two artifacts, and in nothing else. -/
structure Written (t : FileTree) (stem image table : String) (t' : FileTree) : Prop where
  start : t'.start = t.start
  hex : t'.entryOf (stem ++ ".hex") = .ok (.file image.toUTF8)
  sv : t'.entryOf (stem ++ ".sv") = .ok (.file table.toUTF8)
  only : ∃ l l', t.Denotes (stem ++ ".hex") l ∧ t.Denotes (stem ++ ".sv") l' ∧ l ≠ l' ∧
    t'.find? = Function.update (Function.update t.find? l (some (.file image.toUTF8)))
      l' (some (.file table.toUTF8))

section Family

variable {t : FileTree} {stem : String} {d : Location} {piece : String} {ending : String}

theorem Family.staging_free (h : Family t stem d piece) (hclear : Clear t stem)
    (he : ending ∈ endings) : t.find? (d ++ [piece ++ (ending ++ ".tmp")]) = none := by
  cases hfind : t.find? (d ++ [piece ++ (ending ++ ".tmp")]) with
  | none => rfl
  | some e =>
    have hentry := entryOf_of_some (h.denotes_staging he) hfind
    exact absurd hentry (hclear.staging _ (List.mem_map_of_mem he) e)

theorem Family.backup_free_or_directory (h : Family t stem d piece) (hclear : Clear t stem)
    (he : ending ∈ endings) : t.find? (d ++ [piece ++ (ending ++ ".bak")]) = none ∨
      t.find? (d ++ [piece ++ (ending ++ ".bak")]) = some .directory := by
  cases hfind : t.find? (d ++ [piece ++ (ending ++ ".bak")]) with
  | none => exact .inl rfl
  | some e =>
    have hentry := entryOf_of_some (h.denotes_backup he) hfind
    exact .inr (by rw [hclear.backup _ (List.mem_map_of_mem he) e hentry])

theorem Family.writable_iff (h : Family t stem d piece) : Writable t stem ↔
    ∀ ending ∈ endings, Plain (t.find? (d ++ [piece ++ ending])) ∧
      (t.find? (d ++ [piece ++ ending]) = none ∨
        t.find? (d ++ [piece ++ (ending ++ ".bak")]) = none) := by
  constructor
  · intro hwritable ending he
    cases hfind : t.find? (d ++ [piece ++ ending]) with
    | none => exact ⟨.none,.inl rfl⟩
    | some e =>
      obtain ⟨⟨contents,rfl⟩,hbackup⟩ := hwritable.target _ (List.mem_map_of_mem he) e
        (entryOf_of_some (h.denotes he) hfind)
      refine ⟨.file contents,.inr ?_⟩
      cases hback : t.find? (d ++ [piece ++ (ending ++ ".bak")]) with
      | none => rfl
      | some e' => exact absurd (entryOf_of_some (h.denotes_backup he) hback) (hbackup e')
  · intro hall
    refine ⟨⟨_,h.denotes_staging (by simp [endings])⟩,?_⟩
    intro path hpath e hentry
    obtain ⟨ending,he,rfl⟩ := List.mem_map.mp hpath
    obtain ⟨hplain,hfree⟩ := hall ending he
    rw [entryOf_eq_ok_iff (h.denotes he)] at hentry
    rw [hentry] at hplain hfree
    refine ⟨by simpa using hplain.resolve_left (by simp),?_⟩
    intro e' hback
    rw [entryOf_eq_ok_iff (h.denotes_backup he),hfree.resolve_left (by simp)] at hback
    cases hback

end Family

section Run

variable {w w₁ w' : World} {stem image table : String} {d : Location} {piece : String}

theorem writeArtifacts_of_refused {e : Error}
    (h : (checkTargets (targets stem) : StateM World _) w = (.error e,w')) :
    (writeArtifacts stem image table : StateM World _) w = (.error e,w') := by
  change (checkTargets [stem ++ ".hex",stem ++ ".sv"] : StateM World _) w = _ at h
  simp only [writeArtifacts,Paths.ofStem,bind_apply,h]
  rfl

variable (hcheck : (checkTargets (targets stem) : StateM World _) w = (.ok (),w))

include hcheck

theorem writeArtifacts_of_unstaged {e : Error}
    (h : (stage [(stem ++ ".hex",image),(stem ++ ".sv",table)] : StateM World _) w = (.error e,w')) :
    (writeArtifacts stem image table : StateM World _) w = (.error e,w') := by
  change (checkTargets [stem ++ ".hex",stem ++ ".sv"] : StateM World _) w = _ at hcheck
  simp only [writeArtifacts,Paths.ofStem,bind_apply,hcheck,h]
  rfl

variable {batch : List (String × String)}
  (hstage : (stage [(stem ++ ".hex",image),(stem ++ ".sv",table)] : StateM World _) w =
    (.ok batch,w₁))

include hstage

theorem writeArtifacts_of_uncommitted {e : Error}
    (h : (commit batch : StateM World _) w₁ = (.error e,w')) :
    (writeArtifacts stem image table : StateM World _) w = (.error e,w') := by
  change (checkTargets [stem ++ ".hex",stem ++ ".sv"] : StateM World _) w = _ at hcheck
  simp only [writeArtifacts,Paths.ofStem,bind_apply,hcheck,hstage,h]
  rfl

theorem writeArtifacts_of_committed {w₂ : World}
    (h : (commit batch : StateM World _) w₁ = (.ok (),w₂)) :
    ∃ w', (writeArtifacts stem image table : StateM World _) w = (.ok (Paths.ofStem stem),w') ∧
      w'.files = w₂.files := by
  change (checkTargets [stem ++ ".hex",stem ++ ".sv"] : StateM World _) w = _ at hcheck
  simp only [writeArtifacts,Paths.ofStem,bind_apply,hcheck,hstage,h]
  exact ⟨_,rfl,rfl⟩

end Run

def artifacts (stem : String) (d : Location) (piece : String) : List Item :=
  endings.map (artifact stem d piece)

theorem apart_staging {stem piece : String} {d : Location} {ending : String}
    (he : ending ∈ endings) :
    ∀ i ∈ artifacts stem d piece, Apart (some (d ++ [piece ++ ending])) i.stagedAt ∧
      Apart (some (d ++ [piece ++ (ending ++ ".bak")])) i.stagedAt := by
  intro i hi
  obtain ⟨ending',he',rfl⟩ := List.mem_map.mp hi
  have hends : ∀ e ∈ endings, ∀ e' ∈ endings, e ≠ e' ++ ".tmp" ∧ e ++ ".bak" ≠ e' ++ ".tmp" := by
    decide
  exact ⟨apart_siblings (hends _ he _ he').1,apart_siblings (hends _ he _ he').2⟩

section Batch

variable {w w₁ : World} {stem : String} {d : Location} {piece : String}
  (h : Family w.files stem d piece) (hclear : Clear w.files stem)

include h hclear

theorem Family.staging_places_free : ∀ i ∈ artifacts stem d piece, w.held i.stagedAt = none := by
  intro i hi
  obtain ⟨ending,he,rfl⟩ := List.mem_map.mp hi
  exact h.staging_free hclear he

theorem Family.stage_exec (hw : w.files.WellFormed) (image table : String) :
    ∃ w₁, (stage [(stem ++ ".hex",image),(stem ++ ".sv",table)] : StateM World _) w =
        (.ok ((artifacts stem d piece).map fun i => (i.staged,i.path)),w₁) ∧ w₁.Within w.files ∧
      w.OnlyAt ((artifacts stem d piece).map (·.stagedAt)) w₁ ∧
      w₁.held (artifact stem d piece ".hex").stagedAt = some (.file image.toUTF8) ∧
      w₁.held (artifact stem d piece ".sv").stagedAt = some (.file table.toUTF8) := by
  have hstage {ending : String} (he : ending ∈ endings) :
      Stageable w.files w (artifact stem d piece ending) :=
    ⟨rfl,by simp [artifact],h.denotes_staging he,h.staging_free hclear he⟩
  have hapart : Apart (artifact stem d piece ".hex").stagedAt
      (artifact stem d piece ".sv").stagedAt := apart_siblings (by decide)
  obtain ⟨w₁,hrun,hwithin,honly,hheld⟩ := stageFrom_exec
    [(artifact stem d piece ".hex",image),(artifact stem d piece ".sv",table)] [] ⟨hw,.refl _⟩
    (by simp [hstage hex_mem_endings,hstage sv_mem_endings]) (by simp [hapart])
  rw [List.forall_mem_cons,List.forall_mem_singleton] at hheld
  exact ⟨w₁,hrun,hwithin,honly,hheld⟩

variable (honly : w.OnlyAt ((artifacts stem d piece).map (·.stagedAt)) w₁)

include honly

theorem Family.stands (hwithin : w₁.Within w.files)
    (hstaged : ∀ ending ∈ endings, Plain (w₁.held (artifact stem d piece ending).stagedAt))
    (hplain : ∀ ending ∈ endings, Plain (w.files.find? (d ++ [piece ++ ending]))) :
    Stands w.files w₁ (Phase.waiting.all (artifacts stem d piece)) w₁ := by
  apply Stands.start hwithin
  · intro i hi
    obtain ⟨ending,he,rfl⟩ := List.mem_map.mp hi
    have hpath := held_eq_of_staged honly fun j hj => (apart_staging he j hj).1
    have hbackup := held_eq_of_staged honly fun j hj => (apart_staging he j hj).2
    refine ⟨placed_artifact h he,hstaged ending he,?_,?_⟩
    · rw [artifact,hpath]
      exact hplain ending he
    · rw [artifact,hbackup]
      exact h.backup_free_or_directory hclear he
  · simpa [artifacts,endings] using apart_artifacts stem d piece

omit h hclear in
theorem readyIn_artifact_iff {ending : String} (he : ending ∈ endings)
    (hstaged : w₁.held (artifact stem d piece ending).stagedAt ≠ none) :
    (artifact stem d piece ending).ReadyIn w₁ ↔ w.files.find? (d ++ [piece ++ ending]) = none ∨
      w.files.find? (d ++ [piece ++ (ending ++ ".bak")]) = none := by
  have hpath := held_eq_of_staged honly fun j hj => (apart_staging he j hj).1
  have hbackup := held_eq_of_staged honly fun j hj => (apart_staging he j hj).2
  rw [Item.ReadyIn,Item.Ready]
  simp only [artifact] at hstaged ⊢
  rw [hpath,hbackup]
  rw [World.held_some] at hstaged
  simp [hstaged]

theorem Family.written {w₂ : World} {image table : String}
    (hstands : Stands w.files w₁ (Phase.settled.all (artifacts stem d piece)) w₂)
    (himage : w₁.held (artifact stem d piece ".hex").stagedAt = some (.file image.toUTF8))
    (htable : w₁.held (artifact stem d piece ".sv").stagedAt = some (.file table.toUTF8)) :
    Written w.files stem image table w₂.files := by
  have hholds {ending : String} (he : ending ∈ endings) : w₂.files.find? (d ++ [piece ++ ending]) =
      w₁.held (artifact stem d piece ending).stagedAt :=
    (hstands.holds (artifact stem d piece ending,.settled)
      (List.mem_map_of_mem (List.mem_map_of_mem he))).2.2.1
  have hways := hstands.within.sameWays
  have himage' := (hholds hex_mem_endings).trans himage
  have htable' := (hholds sv_mem_endings).trans htable
  refine ⟨hways.start,entryOf_of_some ((h.denotes hex_mem_endings).sameWays hways) himage',
    entryOf_of_some ((h.denotes sv_mem_endings).sameWays hways) htable',
    _,_,h.denotes hex_mem_endings,h.denotes sv_mem_endings,?_,?_⟩
  · rw [ne_eq,sibling_inj]
    decide
  · funext l
    by_cases hsv : l = d ++ [piece ++ ".sv"]
    · rw [hsv,Function.update_self,htable']
    · rw [Function.update_of_ne hsv]
      by_cases hhex : l = d ++ [piece ++ ".hex"]
      · rw [hhex,Function.update_self,himage']
      · rw [Function.update_of_ne hhex]
        apply hstands.onlyAt_of_settled (h.staging_places_free hclear) honly
        simp [artifacts,endings,artifact,hsv,hhex]

omit honly in
/-- Where the names are in reach, the artifacts are written if they can be, and otherwise nothing
has changed in the end. -/
theorem Family.writeArtifacts_exec (hw : w.files.WellFormed) (image table : String) :
    ∃ r w', (writeArtifacts stem image table : StateM World _) w = (r,w') ∧
      (r = .ok (Paths.ofStem stem) ∧ Writable w.files stem ∧
          Written w.files stem image table w'.files ∨
        (∃ e, r = .error e) ∧ ¬Writable w.files stem ∧
          w'.files.start = w.files.start ∧ w'.files.find? = w.files.find?) := by
  have hwritable := h.writable_iff
  rcases checkTargets_exec (w := w) (endings.map fun e => (stem ++ e,d ++ [piece ++ e]))
    (by simpa using fun e => h.denotes) with ⟨hplain,hcheck⟩ | ⟨⟨bad,hbad,hnot⟩,e,hcheck⟩
  · obtain ⟨w₁,hstage,hwithin,honly,himage,htable⟩ := h.stage_exec hclear hw image table
    have hplain' : ∀ ending ∈ endings, Plain (w.files.find? (d ++ [piece ++ ending])) :=
      fun ending he => hplain _ (List.mem_map_of_mem he)
    have hwaits : ∀ ending ∈ endings, ∃ contents,
        w₁.held (artifact stem d piece ending).stagedAt = some (.file contents) := by
      intro ending he
      rcases mem_endings.mp he with rfl | rfl
      · exact ⟨_,himage⟩
      · exact ⟨_,htable⟩
    have hready {ending : String} (he : ending ∈ endings) := readyIn_artifact_iff honly he
      (by obtain ⟨contents,hheld⟩ := hwaits ending he; simp [hheld])
    have hstands := h.stands hclear honly hwithin (fun ending he => .inr (hwaits ending he)) hplain'
    obtain ⟨r,w₂,hcommit,hends⟩ := (Stands.steps _ _).commitFrom []
      (artifacts stem d piece) hstands
    rcases hends with ⟨rfl,hsettled⟩ | ⟨⟨e,rfl⟩,⟨i,hi,hnot⟩,hwithdrawn⟩
    · obtain ⟨w',hrun,hfiles⟩ := writeArtifacts_of_committed hcheck hstage hcommit
      refine ⟨.ok (Paths.ofStem stem),w',hrun,.inl ⟨rfl,hwritable.mpr ?_,?_⟩⟩
      · intro ending he
        have hin := (hsettled.holds (artifact stem d piece ending,.settled)
          (List.mem_map_of_mem (List.mem_map_of_mem he))).1
        exact ⟨hplain' ending he,(hready he).mp hin⟩
      · rw [hfiles]
        exact h.written hclear honly hsettled himage htable
    · refine ⟨.error e,w₂,writeArtifacts_of_uncommitted hcheck hstage hcommit,
        .inr ⟨⟨e,rfl⟩,?_,hwithdrawn.within.sameWays.start,?_⟩⟩
      · obtain ⟨ending,he,rfl⟩ := List.mem_map.mp hi
        intro hyes
        exact hnot ((hready he).mpr (hwritable.mp hyes ending he).2)
      · funext l
        exact hwithdrawn.find?_of_withdrawn (h.staging_places_free hclear) honly l
  · refine ⟨.error e,w,writeArtifacts_of_refused hcheck,.inr ⟨⟨e,rfl⟩,?_,rfl,rfl⟩⟩
    obtain ⟨ending,he,rfl⟩ := List.mem_map.mp hbad
    intro hyes
    exact hnot (hwritable.mp hyes ending he).1

end Batch

theorem writeArtifacts_out_of_reach {w : World} {stem : String}
    (h : ∀ l, ¬w.files.Denotes (stagingPath (stem ++ ".hex")) l) (image table : String) :
    ∃ e w', (writeArtifacts stem image table : StateM World _) w = (.error e,w') ∧
      w'.files = w.files := by
  obtain ⟨piece,hends⟩ := exists_endsInName_append stem
  have hname : EndsInName (stagingPath (stem ++ ".hex")) (piece ++ ".hex.tmp") := by
    rw [stagingPath_hex]
    exact hends _ (by decide)
  obtain ⟨r,hcheck⟩ := exists_checkTargets (targets stem) w
  cases r with
  | error e => exact ⟨e,w,writeArtifacts_of_refused hcheck,rfl⟩
  | ok u =>
    obtain ⟨e,w',hstage,hfiles⟩ := stage_out_of_reach hname h image [(stem ++ ".sv",table)]
    exact ⟨e,w',writeArtifacts_of_unstaged hcheck hstage,hfiles⟩

/-- Both artifacts are written, and nothing else changes, or writing fails and nothing at all
changes; it fails only if the artifacts cannot be written. -/
theorem writeArtifacts_all_or_nothing (w : World) (stem image table : String)
    (hw : w.files.WellFormed) (hclear : Clear w.files stem) :
    ∃ r w', (writeArtifacts stem image table : StateM World _) w = (r,w') ∧
      (r = .ok (Paths.ofStem stem) ∧ Writable w.files stem ∧
          Written w.files stem image table w'.files ∨
        (∃ e, r = .error e) ∧ ¬Writable w.files stem ∧
          w'.files.start = w.files.start ∧ w'.files.find? = w.files.find?) := by
  by_cases hreach : ∃ l, w.files.Denotes (stagingPath (stem ++ ".hex")) l
  · obtain ⟨l,hl⟩ := hreach
    obtain ⟨d,piece,hfamily⟩ := exists_family hl
    exact hfamily.writeArtifacts_exec hclear hw image table
  · obtain ⟨e,w',hrun,hfiles⟩ := writeArtifacts_out_of_reach (fun l hl => hreach ⟨l,hl⟩) image table
    exact ⟨.error e,w',hrun,.inr ⟨⟨e,rfl⟩,fun h => hreach h.reach,by rw [hfiles],by rw [hfiles]⟩⟩

/-- Both artifacts are there, and a directory has the name of the backup of the table. -/
def blockedTree : FileTree where
  entries := [(["build"],.directory),(["build","cs.hex"],.file "0\n".toUTF8),
    (["build","cs.sv"],.file .empty),(["build","cs.sv.bak"],.directory)]
  start := ["build"]

/-- The image is swapped in before the table is refused, and then taken back. -/
theorem writeArtifacts_blockedTree : blockedTree.WellFormed ∧ Clear blockedTree "cs" ∧
    ∃ e w', (writeArtifacts "cs" "1\n" "module" : StateM World _) ⟨blockedTree,.empty,[]⟩ =
      (.error e,w') ∧ w'.files.find? = blockedTree.find? := by
  have hw : blockedTree.WellFormed := by decide
  have hclear : Clear blockedTree "cs" := by decide
  obtain ⟨r,w',hrun,hends⟩ := writeArtifacts_all_or_nothing ⟨blockedTree,.empty,[]⟩ "cs" "1\n"
    "module" hw hclear
  refine ⟨hw,hclear,?_⟩
  rcases hends with ⟨-,hwritable,-⟩ | ⟨⟨e,rfl⟩,-,-,hsame⟩
  · have htable : blockedTree.entryOf "cs.sv" = .ok (.file .empty) := by decide
    have hbackup : blockedTree.entryOf (backupPath "cs.sv") = .ok .directory := by decide
    exact absurd hbackup ((hwritable.target "cs.sv" (by decide) _ htable).2 _)
  · exact ⟨e,w',hrun,hsame⟩

end Output
end ControlStore
