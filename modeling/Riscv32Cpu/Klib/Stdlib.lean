/- module: Riscv32Cpu/Klib/Stdlib
   source: CODE/abstract-machine/klib/src/stdlib.c
   digest: The pseudo-random numbers of klib, the same for every width of unsigned long. -/

import Mathlib.Data.BitVec
import Mathlib.Logic.Function.Iterate

set_option autoImplicit false
set_option relaxedAutoImplicit false

namespace Riscv32Cpu.Klib.Stdlib

/-- `next` is the variable of that name, an `unsigned long int` of `w` bits. -/
def srand (w : Nat) (seed : BitVec 32) : BitVec w := seed.setWidth w

/-- The value returned, and `next` afterwards. -/
def rand {w : Nat} (next : BitVec w) : BitVec 32 × BitVec w :=
  let next := next * 1103515245 + 12345
  ((next / 65536).setWidth 32 % 32768, next)

/-- The value of the call of `rand` that `n` other calls after `srand(seed)` come before. -/
def randAfter (w : Nat) (seed : BitVec 32) (n : Nat) : BitVec 32 :=
  (rand ((fun next : BitVec w => (rand next).2)^[n] (srand w seed))).1

theorem rand_next_low {w : Nat} (hw : 32 ≤ w) (next : BitVec w) :
    (rand next).2.setWidth 32 = (rand (next.setWidth 32)).2 := by
  have hconst : ∀ n : Nat, (BitVec.ofNat w n).setWidth 32 = BitVec.ofNat 32 n := fun n => by
    rw [BitVec.setWidth_ofNat_of_le hw]
  show (next * BitVec.ofNat w 1103515245 + BitVec.ofNat w 12345).setWidth 32 =
    next.setWidth 32 * BitVec.ofNat 32 1103515245 + BitVec.ofNat 32 12345
  rw [BitVec.setWidth_add _ _ hw, BitVec.setWidth_mul _ _ hw, hconst, hconst]

theorem iterate_next_low {w : Nat} (hw : 32 ≤ w) (n : Nat) (next : BitVec w) :
    ((fun next : BitVec w => (rand next).2)^[n] next).setWidth 32 =
      (fun next : BitVec 32 => (rand next).2)^[n] (next.setWidth 32) := by
  induction n generalizing next with
  | zero => rfl
  | succ n ih => rw [Function.iterate_succ_apply, Function.iterate_succ_apply, ih, rand_next_low hw]

theorem rand_value {w : Nat} (hw : 32 ≤ w) (next : BitVec w) :
    (rand next).1.toNat = (rand next).2.toNat / 65536 % 32768 := by
  have hpow : 2 ^ 32 ≤ 2 ^ w := Nat.pow_le_pow_right (by decide) hw
  have hdiv : (BitVec.ofNat w 65536).toNat = 65536 := by
    rw [BitVec.toNat_ofNat]
    exact Nat.mod_eq_of_lt (by omega)
  show (((rand next).2 / BitVec.ofNat w 65536).setWidth 32 % 32768#32).toNat = _
  rw [BitVec.toNat_umod, BitVec.toNat_setWidth, BitVec.toNat_udiv, hdiv]
  show _ % 2 ^ 32 % 32768 = _
  omega

theorem randAfter_low {w : Nat} (hw : 32 ≤ w) (seed : BitVec 32) (n : Nat) :
    randAfter w seed n = randAfter 32 seed n := by
  have hseed : (srand w seed).setWidth 32 = srand 32 seed := by
    rw [srand, BitVec.setWidth_setWidth_of_le _ hw]
    rfl
  have hstate := iterate_next_low hw n (srand w seed)
  have hnext := rand_next_low hw ((fun next : BitVec w => (rand next).2)^[n] (srand w seed))
  rw [hstate, hseed] at hnext
  have hlow := congrArg BitVec.toNat hnext
  rw [BitVec.toNat_setWidth] at hlow
  apply BitVec.eq_of_toNat_eq
  rw [randAfter, randAfter, rand_value hw, rand_value le_rfl, ← hlow]
  omega

/-- With 32 bits and with 64, the calls after one `srand` return the same numbers, all of them
between 0 and 32767. -/
theorem rand_width_independent (seed : BitVec 32) (n : Nat) :
    randAfter 32 seed n = randAfter 64 seed n ∧
      0 ≤ (randAfter 32 seed n).toInt ∧ (randAfter 32 seed n).toInt ≤ 32767 := by
  have hlt : (randAfter 32 seed n).toNat < 32768 := by
    rw [randAfter, rand_value le_rfl]
    omega
  have hint : (randAfter 32 seed n).toInt = (randAfter 32 seed n).toNat :=
    BitVec.toInt_eq_toNat_of_lt (by omega)
  exact ⟨(randAfter_low (by decide) seed n).symm, by omega, by omega⟩

end Riscv32Cpu.Klib.Stdlib
