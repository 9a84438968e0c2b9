import Mathlib.Order.Bounds.Basic
import ControlStore.Proofs.Compile
import ControlStore.Proofs.Source.Feeding

/-! The address port of a table. Its width is counted on machine words: a total is rounded up to a
power of two, and the zeros below the only bit of that power are the width. This gives the least
width of at least one bit that reaches all entries, as long as the power of two is a machine word;
and the address lines of a compilation that succeeds are never fewer than those of the port. -/
namespace ControlStore

open Checks Text

namespace Table

/-- The least power of two from `n` on: all bits up to the highest one of `n - 1`, and one more. -/
def nextPowerOfTwo (n : BitVec 64) : Except Overflow (BitVec 64) :=
  let ones := if n ≤ 1 then 0 else BitVec.allOnes 64 >>> (n - 1).clz
  if ones = BitVec.allOnes 64 then .error .add else .ok (ones + 1)

/-- The width of the port as machine words give it: at least two entries are reached, and a power of
two has as many zeros as it needs address bits. -/
def portWidth (total : BitVec 64) : Except Overflow Nat :=
  (nextPowerOfTwo (if total ≤ 2 then 2 else total)).map (·.ctz.toNat)

section Words

variable {n : BitVec 64}

theorem clz_add_log2 (hn : n ≠ 0) : n.clz.toNat + (Nat.log2 n.toNat + 1) = 64 := by
  have hne : n.toNat ≠ 0 := by simpa [← BitVec.toNat_inj] using hn
  have hlow := BitVec.two_pow_sub_clz_le_toNat_of_ne_zero (by decide) hn
  have hhigh := BitVec.toNat_lt_two_pow_sub_clz (x := n)
  have hge : 64 - 1 - n.clz.toNat ≤ Nat.log2 n.toNat := (Nat.le_log2 hne).mpr hlow
  have hlt : Nat.log2 n.toNat < 64 - n.clz.toNat := (Nat.log2_lt hne).mpr hhigh
  omega

theorem toNat_ctz_twoPow {k : Nat} (hk : k < 64) : (BitVec.twoPow 64 k).ctz.toNat = k := by
  have hne : BitVec.twoPow 64 k ≠ 0#64 := by
    rw [← BitVec.toNat_inj.ne,BitVec.toNat_twoPow_of_lt hk]
    exact (Nat.two_pow_pos k).ne'
  have hbit := BitVec.getLsbD_true_ctz_of_ne_zero hne
  rw [BitVec.getLsbD_twoPow,Bool.and_eq_true,decide_eq_true_eq,decide_eq_true_eq] at hbit
  exact hbit.2.symm

theorem toNat_ones_shiftRight {w a b : Nat} (h : a + b = w) :
    (BitVec.allOnes w >>> a).toNat = 2^b - 1 := by
  rw [BitVec.toNat_ushiftRight,BitVec.toNat_allOnes,← h]
  apply Nat.eq_of_testBit_eq
  intro i
  simp [Nat.testBit_shiftRight,Nat.testBit_two_pow_sub_one]

/-- Rounding up fails exactly past the highest power of two, and otherwise gives the power above the
highest bit of `n - 1`. -/
theorem nextPowerOfTwo_eq (hn : 2 ≤ n.toNat) : nextPowerOfTwo n =
    if n.toNat ≤ 2^63 then .ok (BitVec.twoPow 64 (Nat.log2 (n.toNat - 1) + 1)) else .error .add := by
  have hone : ¬n ≤ 1 := by
    rw [BitVec.le_def,Nat.not_le]
    exact hn
  have hpred : (n - 1).toNat = n.toNat - 1 :=
    BitVec.toNat_sub_of_le (BitVec.le_of_lt (BitVec.not_le.mp hone))
  have hne : n - 1 ≠ 0#64 := by
    rw [← BitVec.toNat_inj.ne,hpred,BitVec.toNat_zero]
    omega
  have hzeros := clz_add_log2 hne
  rw [hpred] at hzeros
  -- `n - 1` has `k` bits; the word of as many ones is full exactly if `n` is past `2^63`
  obtain ⟨k,hk⟩ : ∃ k, Nat.log2 (n.toNat - 1) + 1 = k := ⟨_,rfl⟩
  have hlog : n.toNat ≤ 2^63 ↔ k < 64 := by
    have hlt := Nat.log2_lt (n := n.toNat - 1) (k := 63) (by omega)
    omega
  rw [hk] at hzeros ⊢
  have hones := toNat_ones_shiftRight hzeros
  have hpos := Nat.two_pow_pos k
  have hfull : BitVec.allOnes 64 >>> (n - 1).clz.toNat = BitVec.allOnes 64 ↔ k = 64 := by
    rw [← BitVec.toNat_inj,hones,BitVec.toNat_allOnes]
    constructor
    · intro h
      have hpow : 2^k = 2^64 := by omega
      exact Nat.pow_right_injective le_rfl hpow
    · rintro rfl
      rfl
  simp only [nextPowerOfTwo,if_neg hone,BitVec.ushiftRight_eq',hfull]
  by_cases hlt : k < 64
  · rw [if_pos (hlog.mpr hlt),if_neg (by omega)]
    have hpow : 2^k < 2^64 := Nat.pow_lt_pow_right (by decide) hlt
    have hsum : (BitVec.allOnes 64 >>> (n - 1).clz.toNat).toNat + (1 : BitVec 64).toNat = 2^k := by
      rw [hones]
      exact Nat.sub_add_cancel hpos
    congr 1
    apply BitVec.eq_of_toNat_eq
    rw [BitVec.toNat_twoPow_of_lt hlt,BitVec.toNat_add_of_lt (hsum ▸ hpow),hsum]
  · rw [if_neg (hlog.not.mpr hlt),if_pos (by omega)]

theorem portWidth_eq_addressWidth (total : BitVec 64) :
    portWidth total = addressWidth total.toNat := by
  obtain ⟨n,hn⟩ : ∃ n, (if total ≤ 2 then 2 else total) = n := ⟨_,rfl⟩
  have hmax : n.toNat = max total.toNat 2 := by
    rw [← hn]
    split
    · rename_i h
      exact (Nat.max_eq_right h).symm
    · rename_i h
      exact (Nat.max_eq_left (Nat.le_of_not_le h)).symm
  rw [portWidth,hn,nextPowerOfTwo_eq (by omega),addressWidth,Nat.one_shiftLeft,hmax]
  by_cases htotal : total.toNat ≤ 2^63
  · have hle : max total.toNat 2 ≤ 2^63 := by omega
    have hlt : Nat.log2 (max total.toNat 2 - 1) < 63 := (Nat.log2_lt (by omega)).mpr (by omega)
    rw [if_pos hle,if_pos htotal,Except.map,toNat_ctz_twoPow (by omega)]
  · rw [if_neg (by omega),if_neg htotal,Except.map]

end Words

section Least

variable {total width : Nat}

theorem isLeast_addressWidth (h : addressWidth total = .ok width) :
    IsLeast {v | 1 ≤ v ∧ total ≤ 2^v} width :=
  ⟨⟨addressWidth_pos h,total_le_two_pow h⟩,fun _ hv => addressWidth_le h hv.1 hv.2⟩

theorem addressWidth_mono {total' width' : Nat} (hle : total ≤ total')
    (h : addressWidth total = .ok width) (h' : addressWidth total' = .ok width') :
    width ≤ width' :=
  addressWidth_le h (addressWidth_pos h') (le_trans hle (total_le_two_pow h'))

theorem addressWidth_eq_error (h : 2^63 < total) : addressWidth total = .error .add := by
  rw [addressWidth,Nat.one_shiftLeft,if_neg (Nat.not_le.mpr h)]

end Least

section Emitted

/-- The text of a table has a port of the given width: the line of the address input is written for
it, and it is the width that the table is read back with. -/
def HasPort (text : String) (width : Nat) : Prop :=
  (rangeLine width).toList ∈ lines text ∧ ∃ t, read text = .ok t ∧ t.width = width

theorem endsLine_unlines (ls : List String) : EndsLine '\n' (unlines ls).toList := by
  rw [toList_unlines]
  rcases List.eq_nil_or_concat' ls with rfl | ⟨front,l,rfl⟩
  · simp [EndsLine]
  · simp [EndsLine,List.getLast?_append]

/-- A line that is written stays a line, whatever the lines around it hold. -/
theorem mem_lines_unlines (front back : List String) {l : String} (hl : IsLine l)
    (hret : l.toList.getLast? ≠ some '\r') : l.toList ∈ lines (unlines (front ++ l :: back)) := by
  have hsplit : (unlines (front ++ l :: back)).toList =
      (unlines front).toList ++ (l.toList ++ '\n' :: (unlines back).toList) := by
    simp [toList_unlines]
  rw [lines,hsplit,linesWith_append (by decide) (endsLine_unlines front),linesWith_append_cons hl,
    dropEnd_of_getLast?_ne hret]
  simp

theorem isLine_rangeLine (width : Nat) : IsLine (rangeLine width) :=
  .append (.append (by decide) (isLine_toString (width - 1))) (by decide)

theorem getLast?_rangeLine (width : Nat) : (rangeLine width).toList.getLast? = some ',' := by
  rw [toList_rangeLine,rangeBody,List.getLast?_append,List.getLast?_append]
  rfl

theorem rangeLine_mem_lines_render {programs : List EncodedProgram} {allocation : Allocation}
    {registry : Registry} {moduleName text : String}
    (h : render programs allocation registry moduleName = .ok text) :
    ∃ width, addressWidth allocation.total = .ok width ∧ (rangeLine width).toList ∈ lines text := by
  obtain ⟨width,hwidth,hrest⟩ := bind_eq_ok.mp h
  obtain ⟨blocks,-,htext⟩ := bind_eq_ok.mp hrest
  have hret : (rangeLine width).toList.getLast? ≠ some '\r' := by
    rw [getLast?_rangeLine]
    decide
  refine ⟨width,hwidth,?_⟩
  rw [← pure_eq_ok.mp htext,opening_eq]
  have hmem := mem_lines_unlines
    (header allocation.total width registry ++ [s!"module {moduleName} ("])
    (["    output logic [31:0] word",");","    always_comb begin","        case (addr)"] ++
      blocks.flatten ++ closing) (isLine_rangeLine width) hret
  simpa using hmem

end Emitted
end Table

section Compile

variable {unit : ControlUnit} {options : Options} {artifacts : Artifacts}

theorem of_assemble {registry : Registry} {es : List EncodedProgram} {allocation : Allocation}
    (h : assemble registry es allocation options = .ok artifacts) :
    artifacts.allocation = allocation ∧
      Table.render es allocation registry options.moduleName = .ok artifacts.table ∧
      Agreement.check artifacts.image artifacts.table allocation = .ok () := by
  obtain ⟨text,htext,hrest⟩ := bind_eq_ok.mp h
  obtain ⟨_,hcheck,hartifacts⟩ := bind_eq_ok.mp hrest
  obtain rfl := pure_eq_ok.mp hartifacts
  exact ⟨rfl,mapError_eq_ok.mp htext,hcheck⟩

theorem exists_port_of_compile (h : (compile unit options).result = .ok artifacts) :
    ∃ width, Table.HasPort artifacts.table width ∧
      Table.addressWidth artifacts.allocation.total = .ok width ∧
      artifacts.allocation.total ≤ 2^options.addressBits := by
  obtain ⟨-,_,_,-,-,-,hfit,hassemble⟩ := compile_eq_ok_iff.mp h
  obtain ⟨hallocation,hrender,hcheck⟩ := of_assemble hassemble
  obtain ⟨width,hwidth,hline⟩ := Table.rangeLine_mem_lines_render hrender
  obtain ⟨_,t,-,hread,hconcurs⟩ := Agreement.check_eq_ok.mp hcheck
  obtain rfl : width = t.width := Except.ok.inj (hwidth.symm.trans hconcurs.width)
  rw [hallocation]
  exact ⟨t.width,⟨hline,t,hread,rfl⟩,hwidth,hfit⟩

end Compile

/-- The width of the address port is the least of at least one bit that reaches all entries, and it
grows with their number. It is what machine words give, which overflow exactly for totals past
`2^63`. A compilation that succeeds has a port that its address lines can drive, if there is one. -/
theorem port_least_and_within_lines :
    (∀ total ≤ 2^63, ∃ width, Table.addressWidth total = .ok width ∧
      IsLeast {v | 1 ≤ v ∧ total ≤ 2^v} width) ∧
    (∀ total total' width width', total ≤ total' → Table.addressWidth total = .ok width →
      Table.addressWidth total' = .ok width' → width ≤ width') ∧
    (∀ total > 2^63, Table.addressWidth total = .error .add) ∧
    (∀ total : BitVec 64, Table.portWidth total = Table.addressWidth total.toNat) ∧
    ∀ unit options artifacts, (compile unit options).result = .ok artifacts →
      1 ≤ options.addressBits → ∃ width, Table.HasPort artifacts.table width ∧
        Table.addressWidth artifacts.allocation.total = .ok width ∧
        width ≤ options.addressBits := by
  refine ⟨?_,?_,?_,Table.portWidth_eq_addressWidth,?_⟩
  · intro total htotal
    exact ⟨_,Table.addressWidth_eq_ok htotal,
      Table.isLeast_addressWidth (Table.addressWidth_eq_ok htotal)⟩
  · intro total total' width width' hle h h'
    exact Table.addressWidth_mono hle h h'
  · intro total htotal
    exact Table.addressWidth_eq_error htotal
  · intro unit options artifacts h hbits
    obtain ⟨width,hport,hwidth,hfit⟩ := exists_port_of_compile h
    exact ⟨width,hport,hwidth,Table.addressWidth_le hwidth hbits hfit⟩

/-- The highest power of two still has a width and the total after it has none; a unit of eight steps
fills three address lines. -/
theorem port_least_and_within_lines_rv32i :
    (∃ width, Table.addressWidth (2^63) = .ok width ∧ IsLeast {v | 1 ≤ v ∧ 2^63 ≤ 2^v} width) ∧
    Table.addressWidth (2^63 + 1) = .error .add ∧
    ∃ artifacts, (compile Rv32i.controlUnit { addressBits := 3 }).result = .ok artifacts ∧
      ∃ width, Table.HasPort artifacts.table width ∧ width ≤ 3 := by
  obtain ⟨hleast,-,hoverflow,-,hcompile⟩ := port_least_and_within_lines
  have hnames : SingleLine Rv32i.controlUnit { addressBits := 3 } := by decide
  obtain ⟨artifacts,h⟩ := (exists_compile_iff hnames (by decide)).mpr (by decide)
  obtain ⟨width,hport,-,hle⟩ := hcompile _ _ artifacts h (by decide)
  exact ⟨hleast _ le_rfl,hoverflow _ (by decide),artifacts,h,width,hport,hle⟩

end ControlStore
