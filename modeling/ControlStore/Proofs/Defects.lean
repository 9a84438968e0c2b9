import ControlStore.Proofs.CommandLine
import ControlStore.Proofs.Compile
import ControlStore.Proofs.Source.Moves

/-! The defect for which a unit is refused. Defects are looked for in a fixed order: the catalog,
the reset line, the programs one after the other, the number of steps. Within a program the first
name that is not registered comes before the way the program ends. A compilation so decides whether a
unit is well-formed: it never leaves the range of addresses and never finds fault with the artifacts
that it wrote itself. -/
namespace ControlStore

open Checks Text

def Catalog.FetchFirst (c : Catalog) : Prop := c.programs.head?.map (·.name) = some fetchName

def Registry.RegisteredAll (r : Registry) (steps : List Step) : Prop :=
  ∀ step ∈ steps, ∀ name ∈ step, r.Registered name

def Registry.EndsIn (r : Registry) (bit : Fin wordWidth) (p : Program) : Prop :=
  ∃ last, p.steps.getLast? = some last ∧ r.Raises last bit

/-- A program has no defect: its names are registered, and it ends in a reset or is the prologue. -/
structure Registry.Passes (r : Registry) (bit : Fin wordWidth) (p : Program) : Prop where
  names : r.RegisteredAll p.steps
  ends : p.name ≠ fetchName → r.EndsIn bit p

/-- The defect of a program: the first name that is not registered or, if there is none, an end
without a reset. -/
inductive Registry.Faults (r : Registry) (bit : Fin wordWidth) (reset : String) (p : Program) :
    Error → Prop
  | name {before after : List Step} {names more : List String} {name : String}
      (hsteps : p.steps = before ++ (names ++ name :: more) :: after)
      (hbefore : r.RegisteredAll before) (hnames : ∀ n ∈ names, r.Registered n)
      (hname : ¬r.Registered name) :
      r.Faults bit reset p (.undefinedSignal ⟨name,p.name,before.length⟩)
  | ending (hnames : r.RegisteredAll p.steps) (hfetch : p.name ≠ fetchName)
      (hends : ¬r.EndsIn bit p) : r.Faults bit reset p (.missingReset p.name reset)

/-- The first defect of a unit. -/
inductive FirstDefect (unit : ControlUnit) (options : Options) : Error → Prop
  | noFetch (h : ∀ p ∈ unit.catalog.programs, p.name ≠ fetchName) :
      FirstDefect unit options (.catalog .missingFetch)
  | lateFetch {first : Program} {rest : List Program}
      (hprograms : unit.catalog.programs = first :: rest) (hfirst : first.name ≠ fetchName)
      (hrest : ∃ p ∈ rest, p.name = fetchName) :
      FirstDefect unit options (.catalog (.fetchNotFirst first.name))
  | reset (hfetch : unit.catalog.FetchFirst)
      (h : ¬unit.registry.Registered (resetName unit options)) :
      FirstDefect unit options (.undefinedReset (resetName unit options))
  | program {bit : Fin wordWidth} {front rest : List Program} {p : Program} {e : Error}
      (hfetch : unit.catalog.FetchFirst)
      (hbit : unit.registry.bit? (resetName unit options) = some bit)
      (hprograms : unit.catalog.programs = front ++ p :: rest)
      (hfront : ∀ q ∈ front, unit.registry.Passes bit q)
      (hp : unit.registry.Faults bit (resetName unit options) p e) : FirstDefect unit options e
  | size {bit : Fin wordWidth} (hfetch : unit.catalog.FetchFirst)
      (hbit : unit.registry.bit? (resetName unit options) = some bit)
      (hpass : ∀ p ∈ unit.catalog.programs, unit.registry.Passes bit p)
      (h : 2^options.addressBits < unit.catalog.allocate.total) :
      FirstDefect unit options (.tooManySteps unit.catalog.allocate.total options.addressBits
        (2^options.addressBits))

/-- The errors that blame the unit or the options. -/
def Error.IsRefusal : Error → Prop
  | .catalog _ | .undefinedSignal _ | .undefinedReset _ | .missingReset .. | .tooManySteps .. => True
  | _ => False

theorem FirstDefect.isRefusal {unit : ControlUnit} {options : Options} {err : Error}
    (h : FirstDefect unit options err) : err.IsRefusal := by
  cases h with
  | program _ _ _ _ hp => cases hp <;> trivial
  | _ => trivial

theorem Catalog.validate_eq_error_iff {c : Catalog} {e : CatalogError} :
    c.validate = .error e ↔
      (∀ p ∈ c.programs, p.name ≠ fetchName) ∧ e = .missingFetch ∨
      ∃ first rest, c.programs = first :: rest ∧ first.name ≠ fetchName ∧
        (∃ p ∈ rest, p.name = fetchName) ∧ e = .fetchNotFirst first.name := by
  rw [validate,get?]
  cases c.programs with
  | nil => simp [eq_comm]
  | cons first rest =>
    by_cases hfetch : first.name = fetchName
    · simp [Program.isFetch,hfetch]
    · have hfirst : first.isFetch = false := by simpa [Program.isFetch] using hfetch
      simp only [hfirst,Bool.false_eq_true,if_false]
      by_cases hrest : ∃ p ∈ rest, p.name = fetchName
      · have hsome : ((first :: rest).find? (·.name = fetchName)).isSome = true := by
          obtain ⟨p,hp,hname⟩ := hrest
          exact List.find?_isSome.mpr ⟨p,List.mem_cons_of_mem _ hp,by simpa using hname⟩
        rw [if_pos hsome]
        constructor
        · intro h
          cases h
          exact .inr ⟨first,rest,rfl,hfetch,hrest,rfl⟩
        · rintro (⟨hall,-⟩ | ⟨first',rest',hprograms,-,-,rfl⟩)
          · obtain ⟨p,hp,hname⟩ := hrest
            exact absurd hname (hall p (List.mem_cons_of_mem _ hp))
          · cases hprograms
            rfl
      · have hall : ∀ p ∈ first :: rest, p.name ≠ fetchName :=
          List.forall_mem_cons.mpr ⟨hfetch,fun p hp hname => hrest ⟨p,hp,hname⟩⟩
        have hnone : ¬((first :: rest).find? (·.name = fetchName)).isSome = true := by
          rw [List.find?_isSome]
          rintro ⟨p,hp,hname⟩
          exact hall p hp (by simpa using hname)
        rw [if_neg hnone]
        constructor
        · intro h
          cases h
          exact .inl ⟨hall,rfl⟩
        · rintro (⟨-,rfl⟩ | ⟨first',rest',hprograms,-,hlate,-⟩)
          · rfl
          · cases hprograms
            exact absurd hlate hrest

theorem Program.encode_eq_error_iff {r : Registry} {p : Program} {e : EncodeError} :
    p.encode r = .error e ↔ ∃ before step after, p.steps = before ++ step :: after ∧
      r.RegisteredAll before ∧ r.encode step = .error ⟨e.signal⟩ ∧
      e.program = p.name ∧ e.step = before.length := by
  rw [encode,map_eq_error,mapM_eq_error]
  constructor
  · rintro ⟨front,⟨step,i⟩,rest,hsplit,hfront,hstep⟩
    obtain ⟨before,tail,hsteps,rfl,htail⟩ := List.zipIdx_eq_append_iff.mp hsplit
    obtain ⟨after,rfl,hindex⟩ : ∃ after, tail = step :: after ∧ i = before.length := by
      cases tail with
      | nil => simp at htail
      | cons s after =>
        simp only [List.zipIdx_cons,List.cons.injEq,Prod.mk.injEq,Nat.zero_add] at htail
        exact ⟨after,by rw [htail.1.1],htail.1.2⟩
    obtain ⟨u,hu,rfl⟩ := mapError_eq_error.mp hstep
    refine ⟨before,step,after,hsteps,?_,hu,rfl,hindex⟩
    intro s hs
    obtain ⟨k,hk⟩ := List.mem_iff_getElem?.mp hs
    have hmem : (s,k) ∈ before.zipIdx := List.mem_zipIdx_iff_getElem?.mpr hk
    obtain ⟨w,hw⟩ := hfront _ hmem
    exact (Registry.encode_eq_ok_iff.mp (mapError_eq_ok.mp hw)).1
  · rintro ⟨before,step,after,hsteps,hbefore,hstep,hprogram,hindex⟩
    refine ⟨before.zipIdx,(step,before.length),after.zipIdx (before.length+1),?_,?_,?_⟩
    · rw [hsteps,List.zipIdx_append,List.zipIdx_cons,Nat.zero_add]
    · rintro ⟨s,k⟩ hmem
      have hs : s ∈ before := List.mem_of_getElem? (List.mem_zipIdx_iff_getElem?.mp hmem)
      obtain ⟨w,hw⟩ := Registry.exists_encode (hbefore s hs)
      exact ⟨w,mapError_eq_ok.mpr hw⟩
    · refine mapError_eq_error.mpr ⟨_,hstep,?_⟩
      rw [← hprogram,← hindex]

section Program

variable {r : Registry} {bit : Fin wordWidth} {reset : String} {p : Program} {err : Error}

theorem exists_encodeChecked_iff_passes :
    (∃ e, (encodeChecked r bit reset p).result = .ok e) ↔ r.Passes bit p :=
  exists_encodeChecked_iff.trans ⟨fun h => ⟨h.1,h.2⟩,fun h => ⟨h.names,h.ends⟩⟩

theorem encodeChecked_eq_error_iff :
    (encodeChecked r bit reset p).result = .error err ↔ r.Faults bit reset p err := by
  rw [result_encodeChecked,bind_eq_error]
  constructor
  · rintro (hencode | ⟨e,hencode,hcheck⟩)
    · obtain ⟨⟨signal,program,index⟩,hfault,rfl⟩ := mapError_eq_error.mp hencode
      obtain ⟨before,step,after,hsteps,hbefore,hstep,rfl,rfl⟩ :=
        Program.encode_eq_error_iff.mp hfault
      obtain ⟨names,more,rfl,hnames,hname⟩ := Registry.encode_eq_error_iff.mp hstep
      exact .name hsteps hbefore hnames hname
    · have hencode := mapError_eq_ok.mp hencode
      obtain ⟨hname,hwords⟩ := Program.encode_eq_ok_iff.mp hencode
      cases hfetch : p.isFetch with
      | true =>
        rw [hfetch] at hcheck
        cases hcheck
      | false =>
        have hfetch' : p.name ≠ fetchName := by simpa [Program.isFetch] using hfetch
        rw [hfetch] at hcheck
        have hends : ¬e.EndsIn bit := by
          intro hends
          rw [checkReset_eq_ok hends] at hcheck
          cases hcheck
        rw [checkReset_eq_error hends] at hcheck
        cases hcheck
        rw [hname]
        refine .ending ?_ hfetch' ?_
        · intro step hstep
          obtain ⟨w,-,hw⟩ := exists_of_forall₂ hwords hstep
          exact (Registry.encode_eq_ok_iff.mp hw).1
        · intro hlast
          refine hends ((exists_getLast?_iff hwords ?_).mpr hlast)
          intro step w hw
          exact (Registry.encode_eq_ok_iff.mp hw).2 bit
  · intro h
    cases h with
    | name hsteps hbefore hnames hname =>
      refine .inl (mapError_eq_error.mpr ⟨_,Program.encode_eq_error_iff.mpr ?_,rfl⟩)
      exact ⟨_,_,_,hsteps,hbefore,Registry.encode_eq_error_iff.mpr ⟨_,_,rfl,hnames,hname⟩,rfl,rfl⟩
    | ending hnames hfetch hlast =>
      obtain ⟨e,he⟩ := Program.exists_encode hnames
      obtain ⟨hname,hwords⟩ := Program.encode_eq_ok_iff.mp he
      have hends : ¬e.EndsIn bit := by
        intro hends
        refine hlast ((exists_getLast?_iff hwords ?_).mp hends)
        intro step w hw
        exact (Registry.encode_eq_ok_iff.mp hw).2 bit
      have hfetch' : p.isFetch = false := by simpa [Program.isFetch] using hfetch
      refine .inr ⟨e,mapError_eq_ok.mpr he,?_⟩
      rw [hfetch',checkReset_eq_error hends,hname]
      rfl

end Program

section Compile

variable {unit : ControlUnit} {options : Options} {err : Error}

theorem result_compile {bit : Fin wordWidth} (hfetch : unit.catalog.FetchFirst)
    (hbit : unit.registry.bit? (resetName unit options) = some bit) :
    (compile unit options).result = (do
      let es ← unit.catalog.programs.mapM fun p =>
        (encodeChecked unit.registry bit (resetName unit options) p).result
      let allocation ← allocateWithin unit.catalog options.addressBits
      assemble unit.registry es allocation options) := by
  rw [compile_of_bit (Catalog.validate_eq_ok_iff.mpr hfetch) hbit]
  simp only [Logged.result_bind,Logged.result_ofExcept,Logged.result_mapM,Logged.result_log]
  rfl

/-- A unit is refused for its first defect. -/
theorem compile_eq_error_iff (hnames : SingleLine unit options) (hbits : options.addressBits < 64) :
    (compile unit options).result = .error err ↔ FirstDefect unit options err := by
  constructor
  · intro h
    cases hvalid : unit.catalog.validate with
    | error e =>
      rw [compile_of_catalog_error hvalid] at h
      cases h
      rcases Catalog.validate_eq_error_iff.mp hvalid with ⟨hnone,rfl⟩ |
        ⟨first,rest,hprograms,hfirst,hrest,rfl⟩
      · exact .noFetch hnone
      · exact .lateFetch hprograms hfirst hrest
    | ok u =>
      have hfetch : unit.catalog.FetchFirst := Catalog.validate_eq_ok_iff.mp hvalid
      cases hbit : unit.registry.bit? (resetName unit options) with
      | none =>
        rw [compile_of_undefined_reset hvalid hbit] at h
        cases h
        exact .reset hfetch (Registry.bit?_eq_none_iff.mp hbit)
      | some bit =>
        rw [result_compile hfetch hbit] at h
        rcases bind_eq_error.mp h with h | ⟨es,hes,h⟩
        · obtain ⟨front,p,rest,hprograms,hfront,hp⟩ := mapM_eq_error.mp h
          exact .program hfetch hbit hprograms
            (fun q hq => exists_encodeChecked_iff_passes.mp (hfront q hq))
            (encodeChecked_eq_error_iff.mp hp)
        have hes := mapM_eq_ok.mp hes
        rcases bind_eq_error.mp h with h | ⟨a,ha,h⟩
        · rw [allocateWithin_eq _ hbits] at h
          split at h
          · cases h
          · rename_i hfit
            cases h
            refine .size hfetch hbit (fun p hp => ?_) (Nat.lt_of_not_le hfit)
            obtain ⟨e,-,he⟩ := exists_of_forall₂ hes hp
            exact exists_encodeChecked_iff_passes.mp ⟨e,he⟩
        · obtain ⟨-,hfit,rfl⟩ := allocateWithin_eq_ok_iff.mp ha
          obtain ⟨artifacts,t,hassemble,-⟩ := exists_assemble hnames
            (sameLengths_of_encodeChecked hes) (le_of_le_two_pow hbits hfit)
          simp [hassemble] at h
  · intro h
    cases h with
    | noFetch hnone =>
      rw [compile_of_catalog_error (Catalog.validate_eq_error_iff.mpr (.inl ⟨hnone,rfl⟩))]
      rfl
    | lateFetch hprograms hfirst hrest =>
      have hvalid := Catalog.validate_eq_error_iff.mpr (.inr ⟨_,_,hprograms,hfirst,hrest,rfl⟩)
      rw [compile_of_catalog_error hvalid]
      rfl
    | reset hfetch hreset =>
      rw [compile_of_undefined_reset (Catalog.validate_eq_ok_iff.mpr hfetch)
        (Registry.bit?_eq_none_iff.mpr hreset)]
      rfl
    | program hfetch hbit hprograms hfront hp =>
      rw [result_compile hfetch hbit]
      exact bind_eq_error.mpr (.inl (mapM_eq_error.mpr ⟨_,_,_,hprograms,
        fun q hq => exists_encodeChecked_iff_passes.mpr (hfront q hq),
        encodeChecked_eq_error_iff.mpr hp⟩))
    | size hfetch hbit hpass htotal =>
      obtain ⟨es,hes⟩ := exists_mapM_eq_ok fun p hp =>
        exists_encodeChecked_iff_passes.mpr (hpass p hp)
      rw [result_compile hfetch hbit]
      refine bind_eq_error.mpr (.inr ⟨es,hes,bind_eq_error.mpr (.inl ?_)⟩)
      rw [allocateWithin_eq _ hbits,if_neg (Nat.not_le_of_lt htotal)]

/-- A compilation never fails for what it wrote itself. -/
theorem isRefusal_of_compile (hnames : SingleLine unit options) (hbits : options.addressBits < 64)
    (h : (compile unit options).result = .error err) : err.IsRefusal :=
  ((compile_eq_error_iff hnames hbits).mp h).isRefusal

end Compile

/-- The verdict of a compilation. No address is out of range, no failure comes from an overflow or
from the artifacts, and it succeeds exactly when the unit is well-formed. -/
structure Decides (unit : ControlUnit) (options : Options) : Prop where
  addresses : ∀ p ∈ unit.catalog.allocate.placements,
    addAddress p.base p.length = .ok (p.base+p.length) ∧
      ∀ offset ∈ p.offset, addAddress offset p.length = .ok (offset+p.length)
  no_overflow : ∀ o, (compile unit options).result ≠ .error (.overflow o)
  no_disagreement : ∀ d, (compile unit options).result ≠ .error (.disagreement d)
  succeeds_iff : (∃ artifacts, (compile unit options).result = .ok artifacts) ↔
    WellFormed unit options

theorem addAddress_placement {c : Catalog} {p : Placement} (htotal : c.allocate.total < addressLimit)
    (hp : p ∈ c.allocate.placements) :
    addAddress p.base p.length = .ok (p.base+p.length) ∧
      ∀ offset ∈ p.offset, addAddress offset p.length = .ok (offset+p.length) := by
  obtain ⟨i,hi⟩ := List.mem_iff_getElem?.mp hp
  rw [Catalog.getElem?_placements_allocate,Option.map_eq_some_iff] at hi
  obtain ⟨program,hprogram,rfl⟩ := hi
  have hle := stepsBefore_add_length_le hprogram
  have hoffset := opcodeStepsBefore_le c.programs i
  rw [Catalog.total_allocate] at htotal
  constructor
  · rw [addAddress,if_pos (by dsimp only; omega)]
  · intro offset ho
    cases hfetch : program.isFetch with
    | true => simp [hfetch] at ho
    | false =>
      obtain rfl : opcodeStepsBefore c.programs i = offset := by simpa [hfetch] using ho
      rw [addAddress,if_pos (by dsimp only; omega)]

theorem decides_of_singleLine {unit : ControlUnit} {options : Options}
    (hnames : SingleLine unit options) (hbits : options.addressBits ≤ 63)
    (htotal : unit.catalog.allocate.total < addressLimit) : Decides unit options := by
  have hlt : options.addressBits < 64 := by omega
  refine ⟨fun p hp => addAddress_placement htotal hp,?_,?_,exists_compile_iff hnames hlt⟩
  · intro o h
    exact isRefusal_of_compile hnames hlt h
  · intro d h
    exact isRefusal_of_compile hnames hlt h

/-- Units that were read and options that were accepted have names that fit on one line. -/
theorem singleLine_of_read {lines : List (Except Source.ReadFault String)} {args : List String}
    {unit : ControlUnit} {c : CommandLine} (hunit : Source.readUnit lines = .ok unit)
    (hargs : CommandLine.parse args = .ok c) : SingleLine unit c.options := by
  obtain ⟨hsignals,hprograms⟩ := Source.named_of_readUnit hunit
  obtain ⟨-,-,hmodule⟩ := CommandLine.acceptable_of_parse hargs
  exact ⟨fun s hs => isLine_of_isIdentifier (hsignals s hs),
    fun p hp => isLine_of_isIdentifier (hprograms p hp),isLine_of_isIdentifier hmodule⟩

/-- A compilation decides well-formedness for all units and options whose names fit on one line,
among them all units that were read from a source under options that were accepted. -/
theorem compile_decides :
    (∀ unit options, SingleLine unit options → options.addressBits ≤ 63 →
      unit.catalog.allocate.total < addressLimit → Decides unit options) ∧
    ∀ lines args unit c, Source.readUnit lines = .ok unit → CommandLine.parse args = .ok c →
      unit.catalog.allocate.total < addressLimit →
      1 ≤ c.options.addressBits ∧ c.options.addressBits ≤ 16 ∧ Decides unit c.options := by
  constructor
  · intro unit options hnames hbits htotal
    exact decides_of_singleLine hnames hbits htotal
  · intro lines args unit c hunit hargs htotal
    obtain ⟨hpos,hle,-⟩ := CommandLine.acceptable_of_parse hargs
    exact ⟨hpos,hle,decides_of_singleLine (singleLine_of_read hunit hargs) (by omega) htotal⟩

/-- Three address lines reach the eight steps of the built-in unit, two do not, and a source with
an empty prologue gets its verdict. -/
theorem verdicts_at_the_bound :
    (∃ artifacts, (compile Rv32i.controlUnit { addressBits := 3 }).result = .ok artifacts) ∧
    (¬∃ artifacts, (compile Rv32i.controlUnit { addressBits := 2 }).result = .ok artifacts) ∧
    Decides ⟨{ signals := [⟨"halt",4⟩,⟨"micro_reset",5⟩] },
      { programs := [⟨"fetch",[]⟩,⟨"op",[["halt","micro_reset"]]⟩] },none⟩ { addressBits := 1 } := by
  refine ⟨?_,?_,?_⟩
  · exact (compile_decides.1 _ _ (by decide) (by decide) (by decide)).succeeds_iff.mpr (by decide)
  · rw [(compile_decides.1 _ _ (by decide) (by decide) (by decide)).succeeds_iff]
    decide
  · have hunit : Source.readUnit [.ok "@ halt:4 micro_reset",.ok ": fetch",.ok ": op # opcode",
        .ok "= halt micro_reset"] = .ok ⟨{ signals := [⟨"halt",4⟩,⟨"micro_reset",5⟩] },
          { programs := [⟨"fetch",[]⟩,⟨"op",[["halt","micro_reset"]]⟩] },none⟩ := by rfl
    have hargs : CommandLine.parse ["--address-bits","1"] =
        .ok { options := { addressBits := 1 } } := by rfl
    exact (compile_decides.2 _ _ _ _ hunit hargs (by decide)).2.2

end ControlStore
