import Mathlib.Data.List.Nodup
import ControlStore.Allocation
import ControlStore.Proofs.Checks
import ControlStore.Rv32i

/-! The words of steps. A step encodes exactly when all its names are registered, and its word
raises the bits of these names and no others. -/
namespace ControlStore

open Checks

namespace Registry

def Registered (r : Registry) (name : String) : Prop := ∃ s ∈ r.signals, s.name = name

/-- A step names a control line that is registered at `bit`. -/
def Raises (r : Registry) (step : Step) (bit : Fin wordWidth) : Prop :=
  ∃ s ∈ r.signals, s.bit = bit ∧ s.name ∈ step

/-- A word has exactly the bits of the control lines that a step names. -/
def Spells (r : Registry) (step : Step) (w : ControlWord) : Prop :=
  ∀ bit : Fin wordWidth, w.getLsbD bit = true ↔ r.Raises step bit

instance (r : Registry) (name : String) : Decidable (r.Registered name) :=
  inferInstanceAs (Decidable (∃ s ∈ r.signals, s.name = name))

instance (r : Registry) (step : Step) (bit : Fin wordWidth) : Decidable (r.Raises step bit) :=
  inferInstanceAs (Decidable (∃ s ∈ r.signals, s.bit = bit ∧ s.name ∈ step))

section Resolve

variable {r : Registry} {name : String} {bit : Fin wordWidth}

theorem eq_of_name_eq {s s' : Signal} (hs : s ∈ r.signals) (hs' : s' ∈ r.signals)
    (hname : s.name = s'.name) : s = s' :=
  List.inj_on_of_nodup_map r.names_nodup hs hs' hname

theorem bit?_eq_some_iff :
    r.bit? name = some bit ↔ ∃ s ∈ r.signals, s.name = name ∧ s.bit = bit := by
  rw [bit?,Option.map_eq_some_iff]
  constructor
  · rintro ⟨s,hs,hbit⟩
    exact ⟨s,List.mem_of_find?_eq_some hs,by simpa using List.find?_some hs,hbit⟩
  · rintro ⟨s,hs,hname,hbit⟩
    obtain ⟨s',hs'⟩ : ∃ s', r.signals.find? (·.name = name) = some s' := by
      rw [← Option.isSome_iff_exists,List.find?_isSome]
      exact ⟨s,hs,by simpa using hname⟩
    have hname' : s'.name = name := by simpa using List.find?_some hs'
    have heq := eq_of_name_eq (List.mem_of_find?_eq_some hs') hs (hname'.trans hname.symm)
    exact ⟨s',hs',heq ▸ hbit⟩

theorem resolve_eq_ok_iff : r.resolve name = .ok bit ↔ r.bit? name = some bit := by
  rw [resolve]
  cases r.bit? name <;> simp

theorem exists_bit?_iff : (∃ bit, r.bit? name = some bit) ↔ r.Registered name := by
  constructor
  · rintro ⟨bit,h⟩
    obtain ⟨s,hs,hname,-⟩ := bit?_eq_some_iff.mp h
    exact ⟨s,hs,hname⟩
  · rintro ⟨s,hs,hname⟩
    exact ⟨s.bit,bit?_eq_some_iff.mpr ⟨s,hs,hname,rfl⟩⟩

theorem bit?_eq_none_iff : r.bit? name = none ↔ ¬r.Registered name := by
  rw [← exists_bit?_iff,← Option.isSome_iff_exists,Option.not_isSome_iff_eq_none]

theorem resolve_eq_error_iff {e : UndefinedSignal} :
    r.resolve name = .error e ↔ ¬r.Registered name ∧ e = ⟨name⟩ := by
  rw [resolve,← exists_bit?_iff]
  cases r.bit? name <;> simp [eq_comm]

theorem exists_resolve_iff : (∃ bit, r.resolve name = .ok bit) ↔ r.Registered name := by
  simp only [resolve_eq_ok_iff,exists_bit?_iff]

theorem eq_of_resolve_eq {name' : String} (h : r.resolve name = .ok bit)
    (h' : r.resolve name' = .ok bit) : name = name' := by
  obtain ⟨s,hs,rfl,hbit⟩ := bit?_eq_some_iff.mp (resolve_eq_ok_iff.mp h)
  obtain ⟨s',hs',rfl,hbit'⟩ := bit?_eq_some_iff.mp (resolve_eq_ok_iff.mp h')
  have heq : s = s' := List.inj_on_of_nodup_map r.bits_nodup hs hs' (hbit.trans hbit'.symm)
  rw [heq]

theorem raises_iff {step : Step} :
    r.Raises step bit ↔ ∃ name ∈ step, r.bit? name = some bit := by
  constructor
  · rintro ⟨s,hs,hbit,hmem⟩
    exact ⟨s.name,hmem,bit?_eq_some_iff.mpr ⟨s,hs,rfl,hbit⟩⟩
  · rintro ⟨name,hmem,h⟩
    obtain ⟨s,hs,rfl,hbit⟩ := bit?_eq_some_iff.mp h
    exact ⟨s,hs,hbit,hmem⟩

end Resolve

theorem getLsbD_raise (w : ControlWord) (bit b : Fin wordWidth) :
    (w.raise bit).getLsbD b = true ↔ w.getLsbD b = true ∨ bit = b := by
  have hbit : (b : Nat) = bit ↔ bit = b := by rw [Fin.ext_iff,eq_comm]
  simp [ControlWord.raise,hbit]

/-- The lines of a step are raised one after the other, on top of those of a word. -/
theorem foldlM_raise_eq_ok {r : Registry} {step : Step} {w w' : ControlWord} :
    step.foldlM (fun w name => (r.resolve name).map w.raise) w = .ok w' ↔
      (∀ name ∈ step, r.Registered name) ∧
        ∀ bit : Fin wordWidth, w'.getLsbD bit = true ↔
          w.getLsbD bit = true ∨ ∃ name ∈ step, r.bit? name = some bit := by
  induction step generalizing w with
  | nil =>
    simp only [List.foldlM_nil,pure_eq_ok,List.not_mem_nil,false_imp_iff,implies_true,true_and,
      false_and,exists_false,or_false]
    constructor
    · intro h bit
      rw [h]
    · intro h
      apply BitVec.eq_of_getLsbD_eq
      intro i hi
      exact Bool.eq_iff_iff.mpr (h ⟨i,hi⟩).symm
  | cons name step ih =>
    rw [List.foldlM_cons,bind_eq_ok,List.forall_mem_cons,← exists_bit?_iff]
    cases hname : r.bit? name with
    | none => simp [resolve,hname,Except.map]
    | some bit =>
      have hraise : (r.resolve name).map w.raise = .ok (w.raise bit) := by
        rw [resolve_eq_ok_iff.mpr hname]
        rfl
      simp only [hraise,Except.ok.injEq,exists_eq_left',ih,Option.some.injEq,exists_eq',true_and,
        getLsbD_raise,List.mem_cons,exists_eq_or_imp,hname,or_assoc]

theorem encode_eq_ok_iff {r : Registry} {step : Step} {w : ControlWord} :
    r.encode step = .ok w ↔ (∀ name ∈ step, r.Registered name) ∧ r.Spells step w := by
  rw [encode,foldlM_raise_eq_ok]
  simp only [BitVec.ofNat_eq_ofNat,BitVec.getLsbD_zero,Bool.false_eq_true,false_or,Spells,
    raises_iff]

theorem exists_encode {r : Registry} {step : Step} (h : ∀ name ∈ step, r.Registered name) :
    ∃ w, r.encode step = .ok w := by
  rw [encode]
  generalize (0 : ControlWord) = start
  induction step generalizing start with
  | nil => exact ⟨start,rfl⟩
  | cons name step ih =>
    rw [List.forall_mem_cons] at h
    obtain ⟨bit,hbit⟩ := exists_bit?_iff.mpr h.1
    obtain ⟨w,hw⟩ := ih h.2 (start.raise bit)
    refine ⟨w,?_⟩
    rw [List.foldlM_cons,resolve_eq_ok_iff.mpr hbit]
    exact hw

theorem encode_eq_error_iff {r : Registry} {step : Step} {e : UndefinedSignal} :
    r.encode step = .error e ↔ ∃ names more, step = names ++ e.name :: more ∧
      (∀ n ∈ names, r.Registered n) ∧ ¬r.Registered e.name := by
  rw [encode]
  generalize (0 : ControlWord) = start
  induction step generalizing start with
  | nil => simp [pure,Except.pure]
  | cons name step ih =>
    rw [List.foldlM_cons,bind_eq_error]
    constructor
    · rintro (hname | ⟨w,hw,hrest⟩)
      · obtain ⟨hnot,rfl⟩ := resolve_eq_error_iff.mp (map_eq_error.mp hname)
        exact ⟨[],step,rfl,by simp,hnot⟩
      · obtain ⟨names,more,rfl,hnames,hnot⟩ := (ih w).mp hrest
        obtain ⟨bit,hbit,-⟩ := map_eq_ok.mp hw
        have hname := exists_bit?_iff.mp ⟨bit,resolve_eq_ok_iff.mp hbit⟩
        exact ⟨name :: names,more,rfl,List.forall_mem_cons.mpr ⟨hname,hnames⟩,hnot⟩
    · rintro ⟨names,more,hsplit,hnames,hnot⟩
      rcases List.cons_eq_append_iff.mp hsplit with ⟨rfl,hhead⟩ | ⟨names,rfl,hstep⟩
      · cases hhead
        exact .inl (map_eq_error.mpr (resolve_eq_error_iff.mpr ⟨hnot,rfl⟩))
      · obtain ⟨hname,hnames⟩ := List.forall_mem_cons.mp hnames
        obtain ⟨bit,hbit⟩ := exists_bit?_iff.mpr hname
        exact .inr ⟨_,map_eq_ok.mpr ⟨bit,resolve_eq_ok_iff.mpr hbit,rfl⟩,
          (ih _).mpr ⟨names,more,hstep,hnames,hnot⟩⟩

section Faithful

variable {r : Registry} {step step' : Step} {w w' : ControlWord}

/-- A name of a step is a name of every step with the same word, because no other name has its
bit. -/
theorem mem_of_encode_eq {name : String} (h : r.encode step = .ok w) (h' : r.encode step' = .ok w)
    (hname : name ∈ step) : name ∈ step' := by
  have hspells := encode_eq_ok_iff.mp h
  have hspells' := encode_eq_ok_iff.mp h'
  obtain ⟨bit,hbit⟩ := exists_resolve_iff.mpr (hspells.1 name hname)
  have hraised : w.getLsbD bit = true :=
    (hspells.2 bit).mpr (raises_iff.mpr ⟨name,hname,resolve_eq_ok_iff.mp hbit⟩)
  obtain ⟨name',hname',hbit'⟩ := raises_iff.mp ((hspells'.2 bit).mp hraised)
  rwa [eq_of_resolve_eq hbit (resolve_eq_ok_iff.mpr hbit')]

theorem encode_of_same_names (hnames : ∀ name, name ∈ step ↔ name ∈ step')
    (h : r.encode step = .ok w) : r.encode step' = .ok w := by
  rw [encode_eq_ok_iff] at h ⊢
  simp only [Spells,Raises,hnames] at h ⊢
  exact h

/-- Steps have one word exactly when they name the same control lines. -/
theorem encode_eq_iff (h : r.encode step = .ok w) (h' : r.encode step' = .ok w') :
    w = w' ↔ ∀ name, name ∈ step ↔ name ∈ step' := by
  constructor
  · rintro rfl name
    exact ⟨mem_of_encode_eq h h',mem_of_encode_eq h' h⟩
  · intro hnames
    exact Except.ok.inj ((encode_of_same_names hnames h).symm.trans h')

theorem hasBit_of_encode (h : r.encode step = .ok w) (bit : Fin wordWidth) :
    ∃ raised, w.hasBit bit = .ok raised ∧
      (raised = true ↔ ∃ name ∈ step, r.resolve name = .ok bit) := by
  refine ⟨w.getLsbD bit,by rw [ControlWord.hasBit,if_pos bit.isLt],?_⟩
  simp only [(encode_eq_ok_iff.mp h).2 bit,raises_iff,resolve_eq_ok_iff]

end Faithful

/-- A step encodes exactly when all its names lead to bits, and is refused for the first that does
not. Its word has exactly the bits of its names, and tells it apart from every step that names other
control lines. -/
theorem encode_faithful (r : Registry) (step : Step) :
    ((∃ w, r.encode step = .ok w) ↔ ∀ name ∈ step, ∃ bit, r.resolve name = .ok bit) ∧
    (∀ e, r.encode step = .error e ↔ ∃ front rest, step = front ++ e.name :: rest ∧
      (∀ name ∈ front, ∃ bit, r.resolve name = .ok bit) ∧ r.resolve e.name = .error e) ∧
    ∀ w, r.encode step = .ok w →
      (∀ bit : Fin wordWidth, ∃ raised, w.hasBit bit = .ok raised ∧
        (raised = true ↔ ∃ name ∈ step, r.resolve name = .ok bit)) ∧
      ∀ step' w', r.encode step' = .ok w' → (w = w' ↔ ∀ name, name ∈ step ↔ name ∈ step') := by
  refine ⟨?_,fun e => ?_,fun w h => ⟨hasBit_of_encode h,fun step' w' h' => encode_eq_iff h h'⟩⟩
  · simp only [exists_resolve_iff]
    exact ⟨fun ⟨w,hw⟩ => (encode_eq_ok_iff.mp hw).1,exists_encode⟩
  · have hname : r.resolve e.name = .error e ↔ ¬r.Registered e.name := by
      simp [resolve_eq_error_iff]
    simp only [encode_eq_error_iff,exists_resolve_iff,hname]

theorem encode_faithful_rv32i :
    Rv32i.registry.encode ["micro_reset","memory_read","micro_reset"] = .ok 0x401 ∧
    (∀ step w, Rv32i.registry.encode step = .ok w → (0x401 = w ↔
      ∀ name, name ∈ ["micro_reset","memory_read","micro_reset"] ↔ name ∈ step)) ∧
    Rv32i.registry.encode ["memory_read","bogus","worse"] = .error ⟨"bogus"⟩ := by
  have hword : Rv32i.registry.encode ["micro_reset","memory_read","micro_reset"] = .ok 0x401 := by
    decide
  obtain ⟨-,-,hfaithful⟩ := encode_faithful Rv32i.registry
    ["micro_reset","memory_read","micro_reset"]
  obtain ⟨-,hfirst,-⟩ := encode_faithful Rv32i.registry ["memory_read","bogus","worse"]
  refine ⟨hword,(hfaithful _ hword).2,
    (hfirst ⟨"bogus"⟩).mpr ⟨["memory_read"],["worse"],rfl,?_,by decide⟩⟩
  intro name hname
  exact ⟨0,by rw [List.mem_singleton.mp hname]; decide⟩

end Registry

namespace Program

theorem encode_eq_ok_iff {r : Registry} {p : Program} {e : EncodedProgram} :
    p.encode r = .ok e ↔ e.name = p.name ∧
      List.Forall₂ (fun step w => r.encode step = .ok w) p.steps e.words := by
  rw [encode,map_eq_ok,← mapM_eq_ok]
  have hsteps (ws : List ControlWord) : (p.steps.zipIdx.mapM fun q =>
      (r.encode q.1).mapError fun e : UndefinedSignal => EncodeError.mk e.name p.name q.2) =
        .ok ws ↔ p.steps.mapM r.encode = .ok ws :=
    mapM_zipIdx_eq_ok 0 fun step i w => mapError_eq_ok
  constructor
  · rintro ⟨ws,hws,rfl⟩
    exact ⟨rfl,(hsteps ws).mp hws⟩
  · rintro ⟨hname,hws⟩
    exact ⟨e.words,(hsteps e.words).mpr hws,by rw [← hname]⟩

theorem exists_encode {r : Registry} {p : Program}
    (h : ∀ step ∈ p.steps, ∀ name ∈ step, r.Registered name) : ∃ e, p.encode r = .ok e := by
  obtain ⟨ws,hws⟩ := exists_mapM_eq_ok fun step hstep => Registry.exists_encode (h step hstep)
  exact ⟨⟨p.name,ws⟩,encode_eq_ok_iff.mpr ⟨rfl,mapM_eq_ok.mp hws⟩⟩

end Program
end ControlStore
