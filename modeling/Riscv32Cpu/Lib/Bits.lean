/- module: Riscv32Cpu/Lib/Bits
   digest: The set of bits of a word, and a word taken apart from its lowest bit. -/

import Mathlib.Data.BitVec
import Mathlib.Data.Finset.Max

set_option autoImplicit false
set_option relaxedAutoImplicit false

namespace Riscv32Cpu.Lib.Bits

variable {w : Nat}

/-- The positions of the ones. -/
def bits (x : BitVec w) : Finset Nat := (Finset.range w).filter fun i => x.getLsbD i = true

theorem mem_bits {x : BitVec w} {i : Nat} : i ∈ bits x ↔ x.getLsbD i = true := by
  rw [bits, Finset.mem_filter, Finset.mem_range]
  exact and_iff_right_of_imp BitVec.lt_of_getLsbD

theorem bits_nonempty {x : BitVec w} : (bits x).Nonempty ↔ x ≠ 0 := by
  constructor
  · rintro ⟨i, hi⟩ rfl
    simpa using mem_bits.mp hi
  · intro hne
    by_contra hempty
    refine hne (BitVec.eq_of_getLsbD_eq fun i _ => ?_)
    have hout : i ∉ bits x := fun hi => hempty ⟨i, hi⟩
    rw [mem_bits, Bool.not_eq_true] at hout
    simpa using hout

theorem bits_inj {x y : BitVec w} : bits x = bits y ↔ x = y := by
  refine ⟨fun h => BitVec.eq_of_getLsbD_eq fun i _ => ?_, congrArg bits⟩
  rw [Bool.eq_iff_iff, ← mem_bits, ← mem_bits, h]

theorem bits_or (x y : BitVec w) : bits (x ||| y) = bits x ∪ bits y := by
  ext i
  simp [mem_bits]

theorem and_neg_of_ne_zero {x : BitVec w} (hx : x ≠ 0) :
    ∃ i ∈ bits x, x &&& (~~~x + 1) = BitVec.twoPow w i := by
  have hne := bits_nonempty.mpr hx
  refine ⟨(bits x).min' hne, (bits x).min'_mem hne, ?_⟩
  have hneg : ~~~x + 1 = -x := (BitVec.neg_eq_not_add x).symm
  have hmem := mem_bits.mp ((bits x).min'_mem hne)
  apply BitVec.eq_of_getLsbD_eq
  intro i hi
  rw [hneg, BitVec.getLsbD_and, BitVec.getLsbD_neg, BitVec.getLsbD_twoPow, decide_eq_true hi,
    decide_eq_true (BitVec.lt_of_getLsbD hmem), Bool.true_and, Bool.true_and]
  -- Below the lowest bit there is none; above it the negation has the other bits.
  rcases lt_trichotomy i ((bits x).min' hne) with hlt | heq | hgt
  · have hout : x.getLsbD i = false := by
      rw [← Bool.not_eq_true, ← mem_bits]
      exact fun hin => absurd ((bits x).min'_le i hin) (by omega)
    rw [hout, Bool.false_and, decide_eq_false (by omega)]
  · have hlow : ¬∃ j < i, x.getLsbD j = true := by
      rintro ⟨j, hj, hin⟩
      have := (bits x).min'_le j (mem_bits.mpr hin)
      omega
    rw [decide_eq_false hlow, decide_eq_true heq.symm, Bool.xor_false, Bool.and_self, heq, hmem]
  · have hlow : ∃ j < i, x.getLsbD j = true := ⟨_, hgt, hmem⟩
    rw [decide_eq_true hlow, decide_eq_false (by omega), Bool.xor_true, Bool.and_not_self]

theorem bits_twoPow {i : Nat} (hi : i < w) : bits (BitVec.twoPow w i) = {i} := by
  ext j
  rw [mem_bits, BitVec.getLsbD_twoPow, Finset.mem_singleton]
  simp [hi, eq_comm]

theorem bits_sub_twoPow {x : BitVec w} {i : Nat} (hi : i ∈ bits x) :
    bits (x - BitVec.twoPow w i) = (bits x).erase i := by
  have hbit := mem_bits.mp hi
  have hlt := BitVec.lt_of_getLsbD hbit
  have hdisj : (x &&& ~~~BitVec.twoPow w i) &&& BitVec.twoPow w i = 0#w := by
    ext j hj
    simp
  have hsplit : (x &&& ~~~BitVec.twoPow w i) ||| BitVec.twoPow w i = x := by
    apply BitVec.eq_of_getLsbD_eq
    intro j hj
    by_cases hij : i = j
    · simp [← hij, hbit, hlt]
    · simp [hij, -BitVec.getLsbD_eq_getElem, hj]
  have hsub : x - BitVec.twoPow w i = x &&& ~~~BitVec.twoPow w i := by
    conv_lhs => rw [← hsplit, ← BitVec.add_eq_or_of_and_eq_zero _ _ hdisj]
    exact BitVec.add_sub_cancel _ _
  ext j
  rw [hsub, mem_bits, Finset.mem_erase, mem_bits]
  by_cases hij : i = j
  · simp [← hij, hlt]
  · have hji : j ≠ i := fun h => hij h.symm
    rw [BitVec.getLsbD_and, BitVec.getLsbD_not, BitVec.getLsbD_twoPow, decide_eq_false hij]
    simp only [Bool.and_false, Bool.not_false, Bool.and_true, Bool.and_eq_true, decide_eq_true_eq,
      hji, ne_eq, not_false_eq_true, true_and, and_iff_left_iff_imp]
    exact BitVec.lt_of_getLsbD

theorem mem_bits_shiftLeft_one {x : BitVec w} {i : Nat} (hi : i < w) :
    i ∈ bits (x <<< 1) ↔ ∃ j ∈ bits x, j + 1 = i := by
  rw [mem_bits, BitVec.getLsbD_shiftLeft, decide_eq_true hi]
  cases i with
  | zero => simp
  | succ i => simp [mem_bits]

theorem mem_bits_ushiftRight_one {x : BitVec w} {i : Nat} :
    i ∈ bits (x >>> 1) ↔ i + 1 ∈ bits x := by
  rw [mem_bits, mem_bits, BitVec.getLsbD_ushiftRight, Nat.add_comm]

end Riscv32Cpu.Lib.Bits
