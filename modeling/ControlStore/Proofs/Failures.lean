import ControlStore.Proofs.Defects
import ControlStore.Proofs.Output.Steps
import ControlStore.Proofs.Source.Offences
import ControlStore.Run

/-! Why a run fails, and with which exit status. A run opens and reads its input, judges the source,
compiles the unit that the source denotes and writes the artifacts; the first of these that fails
gives the run its status. The table of statuses is kept, but for two failures that are taken for
malformed lines. -/
namespace ControlStore

open Checks Source

namespace Output

/-- A computation fails for nothing but a refused action on one of some paths. -/
def Blames {α : Type} (paths : List String) (x : StateM World (Except Error α)) : Prop :=
  ∀ w e, (x w).1 = .error e → ∃ path ∈ paths, ∃ fault, e = .file path fault

namespace Blames

variable {α β : Type} {paths paths' : List String}

theorem ok (a : α) : Blames paths (pure (.ok a)) := nofun

theorem error {e : Error} (h : ∃ path ∈ paths, ∃ fault, e = .file path fault) :
    Blames paths (pure (.error e) : StateM World (Except Error α)) := by
  rintro w _ ⟨⟩
  exact h

theorem bind {x : StateM World β} {f : β → StateM World (Except Error α)}
    (h : ∀ w, Blames paths (f (x w).1)) : Blames paths (x >>= f) :=
  fun w => h w (x w).2

theorem mono {x : StateM World (Except Error α)} (h : Blames paths x)
    (hsub : ∀ path ∈ paths, path ∈ paths') : Blames paths' x := by
  intro w e he
  obtain ⟨path,hpath,hfile⟩ := h w e he
  exact ⟨path,hsub path hpath,hfile⟩

end Blames

theorem blames_checkTarget (path : String) : Blames [path] (checkTarget path) := by
  refine .bind fun w => ?_
  cases ((Storage.isRegular path : StateM World _) w).1 with
  | ok regular =>
    cases regular with
    | true => exact .ok ()
    | false => exact .error ⟨path,by simp,_,rfl⟩
  | error fault =>
    cases fault with
    | notFound => exact .ok ()
    | _ => exact .error ⟨path,by simp,_,rfl⟩

theorem blames_checkTargets (paths : List String) : Blames paths (checkTargets paths) := by
  induction paths with
  | nil => exact .ok ()
  | cons path paths ih =>
    refine .bind fun w => ?_
    cases hcheck : ((checkTarget path : StateM World _) w).1 with
    | error e => exact .error ((blames_checkTarget path).mono (by simp) w e hcheck)
    | ok u => exact ih.mono (by simp +contextual)

theorem blames_stageFrom (done rest : List (String × String)) :
    Blames (rest.map fun output => stagingPath output.1) (stageFrom done rest) := by
  induction rest generalizing done with
  | nil => exact .ok done
  | cons output rest ih =>
    refine .bind fun w => ?_
    cases ((Storage.write (stagingPath output.1) output.2 : StateM World _) w).1 with
    | ok u => exact (ih _).mono (by simp +contextual)
    | error fault =>
      exact .bind fun w => .bind fun w => .error ⟨stagingPath output.1,by simp,fault,rfl⟩

theorem map_snd_of_stageFrom {done rest batch : List (String × String)} {w : World}
    (h : ((stageFrom done rest : StateM World _) w).1 = .ok batch) :
    batch.map (·.2) = done.map (·.2) ++ rest.map (·.1) := by
  induction rest generalizing done w with
  | nil =>
    cases h
    simp
  | cons output rest ih =>
    simp only [stageFrom,bind_apply,write_apply] at h
    cases hwrite : w.files.write (stagingPath output.1) output.2.toUTF8 with
    | ok t =>
      simp only [hwrite,World.change] at h
      simpa using ih h
    | error fault =>
      simp only [hwrite,World.change] at h
      cases h

theorem blames_moveAside (path : String) : Blames [path] (moveAside path) := by
  refine .bind fun w => ?_
  split
  · refine .bind fun w => ?_
    cases ((Storage.rename path (backupPath path) : StateM World _) w).1 with
    | ok u => exact .ok _
    | error fault => exact .error ⟨path,by simp,fault,rfl⟩
  · exact .ok none

theorem blames_swapIn (staged path : String) : Blames [path] (swapIn staged path) := by
  refine .bind fun w => ?_
  cases hmove : ((moveAside path : StateM World _) w).1 with
  | error e => exact .error (blames_moveAside path w e hmove)
  | ok backup =>
    refine .bind fun w => ?_
    cases ((Storage.rename staged path : StateM World _) w).1 with
    | ok u => exact .ok backup
    | error fault =>
      cases backup with
      | none => exact .error ⟨path,by simp,fault,rfl⟩
      | some b => exact .bind fun w => .error ⟨path,by simp,fault,rfl⟩

theorem blames_commitFrom (done : List (String × Option String)) (rest : List (String × String)) :
    Blames (rest.map (·.2)) (commitFrom done rest) := by
  induction rest generalizing done with
  | nil => exact .bind fun w => .ok ()
  | cons item rest ih =>
    refine .bind fun w => ?_
    cases hswap : ((swapIn item.1 item.2 : StateM World _) w).1 with
    | ok backup => exact (ih _).mono (by simp +contextual)
    | error e =>
      refine .bind fun w => .bind fun w => .bind fun w => .error ?_
      exact (blames_swapIn item.1 item.2).mono (by simp) _ e hswap

def artifactPaths (stem : String) : List String :=
  [stem ++ ".hex",stem ++ ".sv",stagingPath (stem ++ ".hex"),stagingPath (stem ++ ".sv")]

/-- Writing artifacts fails for nothing but a refused action on the files of the artifacts. -/
theorem blames_writeArtifacts (stem image table : String) :
    Blames (artifactPaths stem) (writeArtifacts stem image table) := by
  simp only [writeArtifacts,Paths.ofStem]
  refine .bind fun w => ?_
  cases hcheck : ((checkTargets [stem ++ ".hex",stem ++ ".sv"] : StateM World _) w).1 with
  | error e =>
    refine .error ((blames_checkTargets _).mono ?_ w e hcheck)
    simp [artifactPaths]
  | ok u =>
    refine .bind fun w => ?_
    cases hstage : ((stage [(stem ++ ".hex",image),(stem ++ ".sv",table)] :
        StateM World _) w).1 with
    | error e =>
      refine .error ((blames_stageFrom _ _).mono ?_ w e hstage)
      simp [artifactPaths]
    | ok batch =>
      have hbatch : batch.map (·.2) = [stem ++ ".hex",stem ++ ".sv"] := map_snd_of_stageFrom hstage
      refine .bind fun w => ?_
      cases hcommit : ((commit batch : StateM World _) w).1 with
      | error e =>
        refine .error ((blames_commitFrom [] batch).mono ?_ w e hcommit)
        simp [hbatch,artifactPaths]
      | ok u => exact .bind fun w => .bind fun w => .ok _

end Output

inductive Failure
  /-- The input cannot be opened. -/
  | unopened
  /-- The input can be opened, but not read. -/
  | unread
  | malformed
  /-- A declaration gives a bit outside the range of bit indices. -/
  | farBit
  /-- A declaration gives a bit outside the word, or a name or a bit that is in use. -/
  | clash
  /-- A step or the reset line names no registered control line. -/
  | undefinedSignal
  | missingReset
  | tooManySteps
  | catalog
  | unwritten
  deriving DecidableEq, Repr

namespace Failure

def status : Failure → UInt8
  | unopened | unread | unwritten => 1
  | malformed => 2
  | farBit | clash => 3
  | undefinedSignal => 4
  | missingReset => 5
  | tooManySteps => 6
  | catalog => 7

/-- Whether a failure is taken for a malformed line. -/
def isMistaken : Failure → Bool
  | unread | farBit => true
  | _ => false

def given (f : Failure) : UInt8 :=
  if f.isMistaken then malformed.status else f.status

def ofOffence : Offence → Failure
  | .malformed => malformed
  | .farBit => farBit
  | .clash => clash

theorem given_ofOffence {o : Offence} {e : Source.Error} (h : Reported o e.defect) :
    (ofOffence o).given = (Error.source e).exitStatus := by
  obtain ⟨line,defect⟩ := e
  cases h <;> rfl

end Failure

namespace World

def logged (w : World) (events : List Event) : World :=
  { w with events := w.events ++ events }

/-- The source that a command line asks for: a file that may not open, or standard input. What opens
may still not be read. -/
def source (w : World) (c : CommandLine) : Except FileFault (Except FileFault ByteArray) :=
  match c.input with
  | none => .ok (.ok w.input)
  | some path => w.files.read path

end World

/-- The unit that a command line asks for: the built-in one, or the one that its source denotes. -/
inductive Asks (c : CommandLine) (w : World) : ControlUnit → Prop
  | builtin (hc : c.builtin = true) : Asks c w Rv32i.controlUnit
  | source {bytes : ByteArray} {clauses : List Clause} {unit : ControlUnit}
      (hc : c.builtin = false) (hsource : w.source c = .ok (.ok bytes))
      (hspells : Spells bytes clauses) (hlegal : Legal clauses) (hdenotes : Denotes clauses unit) :
      Asks c w unit

/-- The first failure of a run. -/
inductive FirstFailure (c : CommandLine) (w : World) : Failure → Prop
  | unopened {fault : FileFault} (hc : c.builtin = false) (h : w.source c = .error fault) :
      FirstFailure c w .unopened
  | unread {fault : FileFault} (hc : c.builtin = false) (h : w.source c = .ok (.error fault)) :
      FirstFailure c w .unread
  | offence {bytes : ByteArray} {o : Offence} (hc : c.builtin = false)
      (hsource : w.source c = .ok (.ok bytes)) (h : FirstOffence bytes o) :
      FirstFailure c w (.ofOffence o)
  | undefinedSignal {unit : ControlUnit} {e : EncodeError} (hunit : Asks c w unit)
      (h : FirstDefect unit c.options (.undefinedSignal e)) : FirstFailure c w .undefinedSignal
  | undefinedReset {unit : ControlUnit} {name : String} (hunit : Asks c w unit)
      (h : FirstDefect unit c.options (.undefinedReset name)) : FirstFailure c w .undefinedSignal
  | missingReset {unit : ControlUnit} {program reset : String} (hunit : Asks c w unit)
      (h : FirstDefect unit c.options (.missingReset program reset)) :
      FirstFailure c w .missingReset
  | tooManySteps {unit : ControlUnit} {steps bits capacity : Nat} (hunit : Asks c w unit)
      (h : FirstDefect unit c.options (.tooManySteps steps bits capacity)) :
      FirstFailure c w .tooManySteps
  | catalog {unit : ControlUnit} {e : CatalogError} (hunit : Asks c w unit)
      (h : FirstDefect unit c.options (.catalog e)) : FirstFailure c w .catalog
  | unwritten {unit : ControlUnit} {artifacts : Artifacts} {path : String} {fault : FileFault}
      (hunit : Asks c w unit) (hcompile : (compile unit c.options).result = .ok artifacts)
      (hpath : path ∈ Output.artifactPaths c.output)
      (h : ((Output.writeArtifacts c.output artifacts.image artifacts.table : StateM World _)
        (w.logged (compile unit c.options).events)).1 = .error (.file path fault)) :
      FirstFailure c w .unwritten

section Load

variable {c : CommandLine} {w : World} {unit : ControlUnit} {bytes : ByteArray} {e : Error}

theorem readUnit_eq_ok : readUnit (decodeLines bytes) = .ok unit ↔
    ∃ clauses, Spells bytes clauses ∧ Legal clauses ∧ Denotes clauses unit := by
  have hfeed : readUnit (decodeLines bytes) =
      (Reader.feed {} bytes).2.map fun _ => (Reader.feed {} bytes).1.controlUnit := rfl
  constructor
  · intro h
    cases hok : (Reader.feed {} bytes).2 with
    | error e =>
      rw [hfeed,hok] at h
      cases h
    | ok u =>
      rw [hfeed,hok] at h
      cases h
      exact Reader.exists_legal_of_feed hok
  · rintro ⟨clauses,hspells,hlegal,hdenotes⟩
    obtain ⟨hok,hread⟩ := Reader.feed_of_legal hspells hlegal
    rw [hfeed,hok,hdenotes.unique hread]
    rfl

def loaded (c : CommandLine) (w : World) : Except Error ControlUnit :=
  if c.builtin then .ok Rv32i.controlUnit
  else
    match w.source c with
    | .error fault => .error (.file (c.input.getD "") fault)
    | .ok input => readSource input

theorem loadUnit_apply (c : CommandLine) (w : World) :
    (loadUnit c : StateM World _) w = (loaded c w,w) := by
  rw [loadUnit,loaded]
  cases c.builtin with
  | true => rfl
  | false =>
    simp only [Bool.false_eq_true,if_false,World.source]
    cases c.input with
    | none => rfl
    | some path =>
      have hread : (Storage.read path : StateM World _) w = (w.files.read path,w) := rfl
      simp only [bind_apply,hread]
      cases w.files.read path <;> rfl

theorem loaded_eq_ok : loaded c w = .ok unit ↔ Asks c w unit := by
  rw [loaded]
  cases hc : c.builtin with
  | true =>
    simp only [if_true,Except.ok.injEq]
    constructor
    · rintro rfl
      exact .builtin hc
    · intro h
      cases h with
      | builtin => rfl
      | source hc' => simp [hc] at hc'
  | false =>
    simp only [Bool.false_eq_true,if_false]
    constructor
    · intro h
      split at h
      · cases h
      · rename_i input hsource
        have hread : readUnit (inputLines input) = .ok unit := mapError_eq_ok.mp h
        cases input with
        | error fault => cases hread
        | ok bytes =>
          obtain ⟨clauses,hspells,hlegal,hdenotes⟩ := readUnit_eq_ok.mp hread
          exact .source hc hsource hspells hlegal hdenotes
    · intro h
      cases h with
      | builtin hc' => simp [hc] at hc'
      | source _ hsource hspells hlegal hdenotes =>
        rw [hsource]
        exact mapError_eq_ok.mpr (readUnit_eq_ok.mpr ⟨_,hspells,hlegal,hdenotes⟩)

theorem exists_failure_of_loaded (h : loaded c w = .error e) :
    ∃ f, FirstFailure c w f ∧ f.given = e.exitStatus := by
  rw [loaded] at h
  cases hc : c.builtin with
  | true => simp [hc] at h
  | false =>
    simp only [hc,Bool.false_eq_true,if_false] at h
    split at h
    · rename_i fault hsource
      cases h
      exact ⟨.unopened,.unopened hc hsource,rfl⟩
    · rename_i input hsource
      obtain ⟨e,hread,rfl⟩ := mapError_eq_error.mp h
      cases input with
      | error fault =>
        cases hread
        exact ⟨.unread,.unread hc hsource,rfl⟩
      | ok bytes =>
        obtain ⟨o,hoffence,hreported⟩ := exists_firstOffence hread
        exact ⟨.ofOffence o,.offence hc hsource hoffence,Failure.given_ofOffence hreported⟩

theorem singleLine_of_asks {args : List String} (hargs : CommandLine.parse args = .ok c)
    (h : Asks c w unit) : SingleLine unit c.options := by
  cases h with
  | builtin =>
    obtain ⟨hsignals,hprograms,-⟩ : SingleLine Rv32i.controlUnit {} := by decide
    obtain ⟨-,-,hmodule⟩ := CommandLine.acceptable_of_parse hargs
    exact ⟨hsignals,hprograms,Text.isLine_of_isIdentifier hmodule⟩
  | source _ _ hspells hlegal hdenotes =>
    exact singleLine_of_read (readUnit_eq_ok.mpr ⟨_,hspells,hlegal,hdenotes⟩) hargs

end Load

section Run

variable {c : CommandLine} {w : World} {e : Error}

theorem forM_report (events : List Event) (w : World) :
    (events.forM Storage.report : StateM World _) w = ((),w.logged events) := by
  induction events generalizing w with
  | nil => simp [World.logged]; rfl
  | cons event events ih =>
    have hcons : ((event :: events).forM Storage.report : StateM World _) w =
        (events.forM Storage.report : StateM World _) (w.logged [event]) := rfl
    rw [hcons,ih]
    simp [World.logged]

theorem run_apply (c : CommandLine) (w : World) : ((run c : StateM World _) w).1 =
    (do
      let unit ← loaded c w
      let artifacts ← (compile unit c.options).result
      let _ ← ((Output.writeArtifacts c.output artifacts.image artifacts.table : StateM World _)
        (w.logged (compile unit c.options).events)).1
      return if c.listing then artifacts.allocation.listing else "") := by
  rw [run,bind_apply,loadUnit_apply]
  cases loaded c w with
  | error e => rfl
  | ok unit =>
    simp only [ok_bind,bind_apply,forM_report]
    cases (compile unit c.options).result with
    | error e => rfl
    | ok artifacts =>
      simp only [ok_bind,bind_apply]
      cases ((Output.writeArtifacts c.output artifacts.image artifacts.table : StateM World _)
        (w.logged (compile unit c.options).events)).1 with
      | error e => rfl
      | ok paths => rfl

theorem run_eq_error : ((run c : StateM World _) w).1 = .error e ↔ loaded c w = .error e ∨
    ∃ unit, Asks c w unit ∧ ((compile unit c.options).result = .error e ∨
      ∃ artifacts, (compile unit c.options).result = .ok artifacts ∧
        ((Output.writeArtifacts c.output artifacts.image artifacts.table : StateM World _)
          (w.logged (compile unit c.options).events)).1 = .error e) := by
  rw [run_apply,bind_eq_error]
  simp only [bind_eq_error,loaded_eq_ok]
  simp [pure,Except.pure]

variable {args : List String} (hargs : CommandLine.parse args = .ok c)

include hargs

theorem compile_eq_error_of_asks {unit : ControlUnit} (h : Asks c w unit) :
    (compile unit c.options).result = .error e ↔ FirstDefect unit c.options e := by
  obtain ⟨-,hbits,-⟩ := CommandLine.acceptable_of_parse hargs
  exact compile_eq_error_iff (singleLine_of_asks hargs h) (by omega)

/-- A run that fails has a first failure, and gets its status. -/
theorem exists_firstFailure (h : ((run c : StateM World _) w).1 = .error e) :
    ∃ f, FirstFailure c w f ∧ f.given = e.exitStatus := by
  obtain ⟨-,hbits,-⟩ := CommandLine.acceptable_of_parse hargs
  rcases run_eq_error.mp h with hload | ⟨unit,hunit,hcompile | ⟨artifacts,hcompile,hwrite⟩⟩
  · exact exists_failure_of_loaded hload
  · have hdefect := (compile_eq_error_of_asks hargs hunit).mp hcompile
    have hrefusal := isRefusal_of_compile (singleLine_of_asks hargs hunit) (by omega) hcompile
    cases e with
    | undefinedSignal e => exact ⟨.undefinedSignal,.undefinedSignal hunit hdefect,rfl⟩
    | undefinedReset name => exact ⟨.undefinedSignal,.undefinedReset hunit hdefect,rfl⟩
    | missingReset program reset => exact ⟨.missingReset,.missingReset hunit hdefect,rfl⟩
    | tooManySteps steps bits capacity => exact ⟨.tooManySteps,.tooManySteps hunit hdefect,rfl⟩
    | catalog e => exact ⟨.catalog,.catalog hunit hdefect,rfl⟩
    | source | disagreement | file | overflow => exact hrefusal.elim
  · obtain ⟨path,hpath,fault,rfl⟩ := Output.blames_writeArtifacts _ _ _ _ _ hwrite
    exact ⟨.unwritten,.unwritten hunit hcompile hpath hwrite,rfl⟩

theorem FirstFailure.exists_error {f : Failure} (h : FirstFailure c w f) :
    ∃ e, ((run c : StateM World _) w).1 = .error e ∧ e.exitStatus = f.given := by
  have hload {e : Error} (h : loaded c w = .error e) : ((run c : StateM World _) w).1 = .error e :=
    run_eq_error.mpr (.inl h)
  have hdefect {unit : ControlUnit} {e : Error} (hunit : Asks c w unit)
      (h : FirstDefect unit c.options e) : ((run c : StateM World _) w).1 = .error e :=
    run_eq_error.mpr (.inr ⟨unit,hunit,.inl ((compile_eq_error_of_asks hargs hunit).mpr h)⟩)
  cases h with
  | @unopened fault hc hsource =>
    refine ⟨.file (c.input.getD "") fault,hload ?_,rfl⟩
    simp only [loaded,hc,Bool.false_eq_true,if_false,hsource]
  | @unread fault hc hsource =>
    refine ⟨.source ⟨1,.malformed (.unreadable (.device fault))⟩,hload ?_,rfl⟩
    simp only [loaded,hc,Bool.false_eq_true,if_false,hsource]
    rfl
  | offence hc hsource hoffence =>
    obtain ⟨e,hread,hreported⟩ := hoffence.exists_error
    refine ⟨.source e,hload ?_,(Failure.given_ofOffence hreported).symm⟩
    simp only [loaded,hc,Bool.false_eq_true,if_false,hsource]
    exact mapError_eq_error.mpr ⟨e,hread,rfl⟩
  | undefinedSignal hunit h => exact ⟨_,hdefect hunit h,rfl⟩
  | undefinedReset hunit h => exact ⟨_,hdefect hunit h,rfl⟩
  | missingReset hunit h => exact ⟨_,hdefect hunit h,rfl⟩
  | tooManySteps hunit h => exact ⟨_,hdefect hunit h,rfl⟩
  | catalog hunit h => exact ⟨_,hdefect hunit h,rfl⟩
  | unwritten hunit hcompile hpath h =>
    exact ⟨_,run_eq_error.mpr (.inr ⟨_,hunit,.inr ⟨_,hcompile,h⟩⟩),rfl⟩

end Run

/-- A run fails with the status that its first failure gets. Unless the first failure is taken for a
malformed line, this is the status of the failure. -/
theorem run_fails_with_status_iff {args : List String} {c : CommandLine}
    (hargs : CommandLine.parse args = .ok c) (w : World) :
    (∀ n, (∃ e, ((run c : StateM World _) w).1 = .error e ∧ e.exitStatus = n) ↔
      ∃ f, FirstFailure c w f ∧ f.given = n) ∧
    ((∀ f, FirstFailure c w f → f.isMistaken = false) →
      ∀ n, (∃ e, ((run c : StateM World _) w).1 = .error e ∧ e.exitStatus = n) ↔
        ∃ f, FirstFailure c w f ∧ f.status = n) := by
  have hfails (n : UInt8) : (∃ e, ((run c : StateM World _) w).1 = .error e ∧ e.exitStatus = n) ↔
      ∃ f, FirstFailure c w f ∧ f.given = n := by
    constructor
    · rintro ⟨e,hrun,rfl⟩
      exact exists_firstFailure hargs hrun
    · rintro ⟨f,hf,rfl⟩
      exact hf.exists_error hargs
  -- a failure that is not mistaken gets its own status
  refine ⟨hfails,fun hplain n => (hfails n).trans ?_⟩
  refine exists_congr fun f => and_congr_right fun hf => ?_
  rw [Failure.given,hplain f hf]
  rfl

/-- The second control line would get a bit outside the word. -/
theorem run_fails_at_clash :
    FirstFailure {} { files := {}, input := "@ halt:31 next".toUTF8 } .clash ∧
    ∃ e, ((run {} : StateM World _) { files := {}, input := "@ halt:31 next".toUTF8 }).1 =
        .error e ∧ e.exitStatus = 3 := by
  have hread : readUnit (decodeLines "@ halt:31 next".toUTF8) =
      .error ⟨1,.registration (.outsideWord "next" 32)⟩ := by
    rw [decodeLines_toUTF8]
    rfl
  have hfirst : FirstFailure {} { files := {}, input := "@ halt:31 next".toUTF8 } .clash := by
    obtain ⟨o,hoffence,hreported⟩ := exists_firstOffence hread
    cases hreported
    exact .offence rfl rfl hoffence
  have hplain : ∀ f, FirstFailure {} { files := {}, input := "@ halt:31 next".toUTF8 } f →
      f.isMistaken = false := by
    intro f hf
    cases hf with
    | unread hc hsource => cases hsource
    | offence hc hsource hoffence =>
      cases hsource
      obtain ⟨e,he,hreported⟩ := hoffence.exists_error
      cases hread.symm.trans he
      cases hreported
      rfl
    | _ => rfl
  have hargs : CommandLine.parse [] = .ok {} := by rfl
  exact ⟨hfirst,((run_fails_with_status_iff hargs _).2 hplain 3).mpr ⟨.clash,hfirst,rfl⟩⟩

/-- A directory opens but cannot be read, and a bit may have more digits than bit indices have. Both
failures get the status of a malformed line. -/
theorem run_mistakes_failures :
    (CommandLine.parse ["-i","d"] = .ok { input := some "d" } ∧
      FirstFailure { input := some "d" } { files := { entries := [(["d"],.directory)] } } .unread ∧
      Failure.unread.status = 1 ∧
      ∃ e, ((run { input := some "d" } : StateM World _)
        { files := { entries := [(["d"],.directory)] } }).1 = .error e ∧ e.exitStatus = 2) ∧
    CommandLine.parse [] = .ok {} ∧
      FirstFailure {} { files := {}, input := "@ a:4294967296".toUTF8 } .farBit ∧
      Failure.farBit.status = 3 ∧
      ∃ e, ((run {} : StateM World _) { files := {}, input := "@ a:4294967296".toUTF8 }).1 =
        .error e ∧ e.exitStatus = 2 := by
  have hdirectory : FirstFailure { input := some "d" }
      { files := { entries := [(["d"],.directory)] } } .unread := by
    have hread : FileTree.read { entries := [(["d"],.directory)] } "d" =
        .ok (.error .isDirectory) := by decide
    exact .unread rfl hread
  have hfar : FirstFailure {} { files := {}, input := "@ a:4294967296".toUTF8 } .farBit := by
    have hlines : decodeLines "@ a:4294967296".toUTF8 = [.ok "@ a:4294967296"] := by
      rw [decodeLines_toUTF8]
      rfl
    have hlegal : Legal ([] ++ [.declare []]) := by
      have hnone : Reader.declareAll {} [] = ({},.ok ()) := rfl
      obtain ⟨ds,hds,hlegal,-⟩ := Reader.holds_start.of_declareAll Reader.legal_nil hnone
      cases hds
      exact hlegal
    have hterm : AtTerm [] "@ a:4294967296" [] "a:4294967296".toList :=
      ⟨" a:4294967296".toList,[],[],Text.hasContent_iff.mpr (by decide),
        Text.hasWords_iff.mpr (by decide),.nil,hlegal⟩
    have hform : IsDeclaration "a:4294967296".toList ⟨"a",some 4294967296⟩ :=
      @IsDeclaration.placed "a" "4294967296".toList (by decide) (by decide)
        (List.all_eq_true.mp (by decide))
    exact .offence rfl rfl ⟨[],_,[],[],hlines,.nil,Reader.legal_nil,
      .farBit hterm hform rfl (by decide)⟩
  have hargs : CommandLine.parse ["-i","d"] = .ok { input := some "d" } := by rfl
  have hempty : CommandLine.parse [] = .ok {} := by rfl
  exact ⟨⟨hargs,hdirectory,rfl,hdirectory.exists_error hargs⟩,
    hempty,hfar,rfl,hfar.exists_error hempty⟩

end ControlStore
