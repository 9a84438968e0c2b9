import Mathlib.Tactic.IntervalCases
import ControlStore.ControlUnit
import ControlStore.Proofs.Text.Pieces

/-! Numbers survive being written and read: the decimal digits of a number, and the eight
hexadecimal digits of a control word. -/
namespace ControlStore
namespace Text

theorem digit?_digitChar {base d : Nat} (hbase : base ≤ 16) (hd : d < base) :
    digit? base (Nat.digitChar d) = some d := by
  have hd' : d < 16 := by omega
  interval_cases d <;> simp [digit?,Nat.digitChar] <;> omega

/-- Digits as they are taken in one by one, from a number read so far. -/
def foldDigits (base : Nat) (n : Nat) (cs : List Char) : Option Nat :=
  cs.foldlM (fun n c => (digit? base c).map (base * n + ·)) n

theorem readDigits_eq_foldDigits {base : Nat} {cs : List Char} (hcs : cs ≠ []) :
    readDigits base cs = foldDigits base 0 cs := by
  cases cs with
  | nil => exact absurd rfl hcs
  | cons c cs => rfl

theorem foldDigits_append (base n : Nat) (cs ds : List Char) :
    foldDigits base n (cs ++ ds) = (foldDigits base n cs).bind (foldDigits base · ds) := by
  simp only [foldDigits,List.foldlM_append]
  rfl

@[simp] theorem foldDigits_nil (base n : Nat) : foldDigits base n [] = some n := rfl

theorem foldDigits_digitChar {base d : Nat} (n : Nat) (cs : List Char) (hbase : base ≤ 16)
    (hd : d < base) :
    foldDigits base n (Nat.digitChar d :: cs) = foldDigits base (base * n + d) cs := by
  simp [foldDigits,digit?_digitChar hbase hd]

theorem foldDigits_toDigits (n : Nat) : foldDigits 10 0 (Nat.toDigits 10 n) = some n := by
  induction n using Nat.strongRecOn with
  | _ n ih =>
    rcases Nat.lt_or_ge n 10 with hn | hn
    · rw [Nat.toDigits_of_lt_base hn,foldDigits_digitChar 0 [] (by decide) hn]
      simp
    · have hlast : n % 10 < 10 := Nat.mod_lt _ (by decide)
      rw [Nat.toDigits_of_base_le (by decide) hn,foldDigits_append,ih (n/10) (by omega),
        Option.bind_some,foldDigits_digitChar _ [] (by decide) hlast]
      simp only [foldDigits_nil,Option.some.injEq]
      omega

theorem isDigit_of_mem_toDigits {n : Nat} {c : Char} (hc : c ∈ Nat.toDigits 10 n) :
    c.isDigit = true :=
  Nat.isDigit_of_mem_toDigits (by decide) (by decide) hc

theorem not_isBlank_of_isDigit {c : Char} (hc : c.isDigit = true) : isBlank c = false := by
  have hval : 48 ≤ c.toNat ∧ c.toNat ≤ 57 := by
    simpa [Char.isDigit,UInt32.le_iff_toNat_le] using hc
  simp [isBlank,blankRanges]
  omega

theorem not_mem_toDigits {n : Nat} {c : Char} (hc : c.isDigit = false) :
    c ∉ Nat.toDigits 10 n := by
  intro h
  rw [isDigit_of_mem_toDigits h] at hc
  cases hc

theorem isLine_toString (n : Nat) : IsLine (toString n) := by
  rw [IsLine,Nat.toString_eq_repr,Nat.toList_repr]
  exact not_mem_toDigits (by decide)

theorem exists_toDigits_eq_cons (n : Nat) :
    ∃ c cs, Nat.toDigits 10 n = c :: cs ∧ c.isDigit = true := by
  cases h : Nat.toDigits 10 n with
  | nil => exact absurd h Nat.toDigits_ne_nil
  | cons c cs => exact ⟨c,cs,rfl,isDigit_of_mem_toDigits (n:=n) (by simp [h])⟩

theorem dropPlus_of_head?_ne {cs : List Char} (h : cs.head? ≠ some '+') : dropPlus cs = cs := by
  cases cs with
  | nil => rfl
  | cons c cs =>
    have hc : c ≠ '+' := by simpa using h
    simp [dropPlus,hc]

theorem readNumber_toDigits {limit n : Nat} (hn : n < limit) :
    readNumber 10 limit (Nat.toDigits 10 n) = some n := by
  have hplus : (Nat.toDigits 10 n).head? ≠ some '+' := by
    intro h
    exact not_mem_toDigits (by decide) (List.mem_of_mem_head? h)
  rw [readNumber,dropPlus_of_head?_ne hplus,readDigits_eq_foldDigits Nat.toDigits_ne_nil,
    foldDigits_toDigits]
  simp [hn]

theorem not_isBlank_digitChar (d : Nat) : isBlank (Nat.digitChar d) = false := by
  rcases Nat.lt_or_ge d 16 with hd | hd
  · interval_cases d <;> decide
  · have h : Nat.digitChar d = '*' := by simpa using hd
    rw [h]
    decide

end Text

namespace ControlWord

open Text

theorem shiftRight_nibbles (n i : Nat) : n >>> (4*i) = n / 16^i := by
  rw [Nat.shiftRight_eq_div_pow,Nat.pow_mul]

theorem digits_eq (w : ControlWord) : w.digits =
    [Nat.digitChar (w.toNat / 16^7 % 16),Nat.digitChar (w.toNat / 16^6 % 16),
      Nat.digitChar (w.toNat / 16^5 % 16),Nat.digitChar (w.toNat / 16^4 % 16),
      Nat.digitChar (w.toNat / 16^3 % 16),Nat.digitChar (w.toNat / 16^2 % 16),
      Nat.digitChar (w.toNat / 16^1 % 16),Nat.digitChar (w.toNat / 16^0 % 16)] := by
  simp only [digits,List.map_cons,List.map_nil,shiftRight_nibbles]

theorem exists_digitChar_of_mem_digits {w : ControlWord} {c : Char} (hc : c ∈ w.digits) :
    ∃ d < 16, c = Nat.digitChar d := by
  obtain ⟨i,-,rfl⟩ := List.mem_map.mp hc
  exact ⟨_,Nat.mod_lt _ (by decide),rfl⟩

theorem not_isBlank_of_mem_digits {w : ControlWord} {c : Char} (hc : c ∈ w.digits) :
    isBlank c = false := by
  obtain ⟨d,-,rfl⟩ := exists_digitChar_of_mem_digits hc
  exact not_isBlank_digitChar d

theorem not_mem_digits {w : ControlWord} {c : Char} (hc : digit? 16 c = none) : c ∉ w.digits := by
  intro h
  obtain ⟨d,hd,rfl⟩ := exists_digitChar_of_mem_digits h
  rw [digit?_digitChar (by decide) hd] at hc
  cases hc

/-- Each nibble extends the number that the nibbles above it make. -/
theorem foldDigits_nibble (n k : Nat) (cs : List Char) :
    foldDigits 16 (n / 16^(k+1)) (Nat.digitChar (n / 16^k % 16) :: cs) =
      foldDigits 16 (n / 16^k) cs := by
  rw [foldDigits_digitChar _ _ (by decide) (Nat.mod_lt _ (by decide)),Nat.pow_succ,
    ← Nat.div_div_eq_div_mul,Nat.div_add_mod]

theorem foldDigits_digits (w : ControlWord) : foldDigits 16 0 w.digits = some w.toNat := by
  have htop : foldDigits 16 0 w.digits = foldDigits 16 (w.toNat / 16^8) w.digits := by
    rw [Nat.div_eq_of_lt (show w.toNat < 16^8 from w.isLt)]
  rw [htop,digits_eq,foldDigits_nibble,foldDigits_nibble,foldDigits_nibble,foldDigits_nibble,
    foldDigits_nibble,foldDigits_nibble,foldDigits_nibble,foldDigits_nibble,foldDigits_nil,
    Nat.pow_zero,Nat.div_one]

/-- A word is read back from its digits. -/
theorem ofHex?_digits (w : ControlWord) : ofHex? w.digits = some w := by
  have hplus : w.digits.head? ≠ some '+' := by
    intro h
    exact not_mem_digits (by decide) (List.mem_of_mem_head? h)
  have hne : w.digits ≠ [] := by simp [digits_eq]
  have hlt : w.toNat < 1 <<< wordWidth := by
    rw [Nat.one_shiftLeft]
    exact w.isLt
  rw [ofHex?,readNumber,dropPlus_of_head?_ne hplus,readDigits_eq_foldDigits hne,
    foldDigits_digits]
  simp [hlt]

end ControlWord
end ControlStore
