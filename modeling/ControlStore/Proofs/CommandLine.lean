import ControlStore.Proofs.Checks
import ControlStore.Run

/-! What a command line can ask for. Arguments are taken in one by one, and each keeps the values
given so far within their bounds. -/
namespace ControlStore
namespace CommandLine

open Checks Text

/-- The number of address lines and the name of the module are acceptable, if they are given. -/
structure Draft.Acceptable (d : Draft) : Prop where
  addressBits : ∀ bits ∈ d.addressBits, 1 ≤ bits ∧ bits ≤ 16
  moduleName : ∀ name ∈ d.moduleName, isIdentifier name = true

theorem bounds_of_readAddressBits {value : String} {bits : Nat}
    (h : readAddressBits value = some bits) : 1 ≤ bits ∧ bits ≤ 16 := by
  obtain ⟨hnumber,hpos⟩ := Option.filter_eq_some_iff.mp h
  have hlt : bits < 17 := by simpa using (Option.filter_eq_some_iff.mp hnumber).2
  exact ⟨by simpa using hpos,by omega⟩

namespace Draft

variable {d d' : Draft}

theorem Acceptable.assign {s : Setting} {value : String} (hd : d.Acceptable)
    (h : d.assign s value = .ok d') : d'.Acceptable := by
  rw [Draft.assign.eq_def] at h
  split at h
  · cases h
  cases s with
  | input =>
    simp only at h
    split at h <;> cases h
    exact ⟨hd.addressBits,hd.moduleName⟩
  | output =>
    simp only at h
    split at h <;> cases h
    exact ⟨hd.addressBits,hd.moduleName⟩
  | resetSignal =>
    cases h
    exact ⟨hd.addressBits,hd.moduleName⟩
  | addressBits =>
    simp only at h
    split at h
    · cases h
    · rename_i bits hbits
      cases h
      refine ⟨?_,hd.moduleName⟩
      intro b hb
      cases hb
      exact bounds_of_readAddressBits hbits
  | moduleName =>
    simp only at h
    split at h
    · rename_i hname
      cases h
      refine ⟨hd.addressBits,?_⟩
      intro name hmem
      cases hmem
      exact hname
    · cases h

theorem Acceptable.settle (hd : d.Acceptable) (h : d.settle = .ok d') : d'.Acceptable := by
  rw [Draft.settle] at h
  split at h
  · cases h
    exact hd
  · cases h
  · refine Acceptable.assign ?_ h
    exact ⟨hd.addressBits,hd.moduleName⟩

theorem Acceptable.flip {s : Switch} (hd : d.Acceptable) (h : d.flip s = .ok d') :
    d'.Acceptable := by
  have hsame : d'.addressBits = d.addressBits ∧ d'.moduleName = d.moduleName := by
    cases s with
    | builtin | annotate | listing =>
      simp only [Draft.flip] at h
      split at h <;> cases h
      exact ⟨rfl,rfl⟩
    | verbose =>
      cases h
      exact ⟨rfl,rfl⟩
    | help | version => cases h
  exact ⟨hsame.1 ▸ hd.addressBits,hsame.2 ▸ hd.moduleName⟩

theorem Acceptable.takeSwitch {s : Switch} (hd : d.Acceptable) (h : d.takeSwitch s = .ok d') :
    d'.Acceptable := by
  obtain ⟨settled,hsettled,hflip⟩ := bind_eq_ok.mp h
  exact (hd.settle hsettled).flip hflip

theorem Acceptable.takeValue {s : Setting} {value : String} (hd : d.Acceptable)
    (h : d.takeValue s value = .ok d') : d'.Acceptable := by
  obtain ⟨settled,hsettled,hassign⟩ := bind_eq_ok.mp h
  exact (hd.settle hsettled).assign hassign

theorem Acceptable.await {s : Setting} (hd : d.Acceptable) (h : d.await s = .ok d') :
    d'.Acceptable := by
  obtain ⟨settled,hsettled,hpending⟩ := bind_eq_ok.mp h
  have hacceptable := hd.settle hsettled
  cases hpending
  exact ⟨hacceptable.addressBits,hacceptable.moduleName⟩

theorem Acceptable.takeLong {body : List Char} (hd : d.Acceptable) (h : d.takeLong body = .ok d') :
    d'.Acceptable := by
  rw [Draft.takeLong] at h
  dsimp only at h
  split at h
  · cases h
  · exact hd.takeSwitch h
  · cases h
  · exact hd.await h
  · exact hd.takeValue h

theorem Acceptable.takeLetters {letters : List Char} (hd : d.Acceptable)
    (h : d.takeLetters letters = .ok d') : d'.Acceptable := by
  induction letters generalizing d with
  | nil =>
    cases h
    exact hd
  | cons c cs ih =>
    rw [Draft.takeLetters.eq_def] at h
    dsimp only at h
    split at h
    · cases h
    · obtain ⟨settled,hswitch,hrest⟩ := bind_eq_ok.mp h
      exact ih (hd.takeSwitch hswitch) hrest
    · exact hd.await h
    · exact hd.takeValue h
    · exact hd.takeValue h

theorem Acceptable.take {arg : String} (hd : d.Acceptable) (h : d.take arg = .ok d') :
    d'.Acceptable := by
  rw [Draft.take] at h
  split at h
  · cases h
  split at h
  · cases h
    exact ⟨hd.addressBits,hd.moduleName⟩
  · exact hd.takeLong h
  · exact hd.takeLetters h
  · rw [Draft.takePlain] at h
    split at h
    · cases h
      exact ⟨hd.addressBits,hd.moduleName⟩
    · cases h

theorem Acceptable.takeAll {args : List String} (hd : d.Acceptable)
    (h : args.foldlM Draft.take d = .ok d') : d'.Acceptable := by
  induction args generalizing d with
  | nil =>
    cases h
    exact hd
  | cons arg args ih =>
    rw [List.foldlM_cons] at h
    obtain ⟨next,hnext,hrest⟩ := bind_eq_ok.mp h
    exact ih (hd.take hnext) hrest

end Draft

/-- A command line that is accepted asks for one to sixteen address lines and names its module by
an identifier. -/
theorem acceptable_of_parse {args : List String} {c : CommandLine} (h : parse args = .ok c) :
    1 ≤ c.options.addressBits ∧ c.options.addressBits ≤ 16 ∧
      isIdentifier c.options.moduleName = true := by
  obtain ⟨d,hd,hfinish⟩ := bind_eq_ok.mp h
  have hstart : Draft.Acceptable {} := ⟨by simp,by simp⟩
  obtain ⟨settled,hsettled,hrest⟩ := bind_eq_ok.mp hfinish
  have hacceptable := (hstart.takeAll hd).settle hsettled
  have hoptions : c.options.addressBits = settled.addressBits.getD 8 ∧
      c.options.moduleName = settled.moduleName.getD "microcode_rom" := by
    dsimp only at hrest
    split at hrest
    · cases hrest
    · cases hrest
      exact ⟨rfl,rfl⟩
  rw [hoptions.1,hoptions.2]
  refine ⟨?_,?_,?_⟩
  · cases hbits : settled.addressBits with
    | none => decide
    | some bits => exact (hacceptable.addressBits bits hbits).1
  · cases hbits : settled.addressBits with
    | none => decide
    | some bits => exact (hacceptable.addressBits bits hbits).2
  · cases hname : settled.moduleName with
    | none => decide
    | some name => exact hacceptable.moduleName name hname

end CommandLine
end ControlStore
