/- module: Riscv32Cpu/Lib/Align
   digest: Words rounded to a multiple of a power of two by a mask. -/

import Mathlib.Data.BitVec
import Mathlib.Data.Nat.Bitwise

set_option autoImplicit false
set_option relaxedAutoImplicit false

namespace Riscv32Cpu.Lib.Align

variable {w : Nat}

theorem and_not_mask (x : BitVec w) (k : Nat) :
    x &&& ~~~BitVec.ofNat w (2 ^ k - 1) = x >>> k <<< k := by
  ext i hi
  have hmask : (BitVec.ofNat w (2 ^ k - 1))[i] = decide (i < k) := by
    rw [← BitVec.getLsbD_eq_getElem, BitVec.getLsbD_ofNat, decide_eq_true hi, Bool.true_and,
      Nat.testBit_two_pow_sub_one]
  by_cases hlow : i < k
  · simp [hmask, hlow]
  · have hback : k + (i - k) = i := by omega
    simp [hmask, hlow, hback, hi, BitVec.getLsbD_eq_getElem]

theorem toNat_and_not_mask (x : BitVec w) (k : Nat) :
    (x &&& ~~~BitVec.ofNat w (2 ^ k - 1)).toNat = x.toNat / 2 ^ k * 2 ^ k := by
  have hle : x.toNat / 2 ^ k * 2 ^ k ≤ x.toNat := Nat.div_mul_le_self ..
  rw [and_not_mask, BitVec.toNat_shiftLeft, BitVec.toNat_ushiftRight, Nat.shiftLeft_eq,
    Nat.shiftRight_eq_div_pow, Nat.mod_eq_of_lt (hle.trans_lt x.isLt)]

end Riscv32Cpu.Lib.Align
