/- module: Riscv32Cpu/Lib/Mixing
   digest: The steps that hashes are made of, and which words they bring together. -/

import Mathlib.Data.BitVec
import Mathlib.Order.Basic

set_option autoImplicit false
set_option relaxedAutoImplicit false

namespace Riscv32Cpu.Lib.Mixing

variable {w : Nat}

theorem mul_inj {c c' : BitVec w} (hc : c * c' = 1#w) {x y : BitVec w} : x * c = y * c ↔ x = y := by
  constructor
  · intro h
    calc x = x * (c * c') := by rw [hc, BitVec.mul_one]
      _ = y * (c * c') := by rw [← BitVec.mul_assoc, h, BitVec.mul_assoc]
      _ = y := by rw [hc, BitVec.mul_one]
  · rintro rfl
    rfl

theorem add_shiftLeft (x : BitVec w) (k : Nat) :
    x + x <<< k = x * (1#w + BitVec.twoPow w k) := by
  rw [BitVec.mul_add, BitVec.mul_one, BitVec.shiftLeft_eq_mul_twoPow]

theorem int_eq_div_self {n m : Int} (hm : 2 ≤ m) (h : n / m = n) : n = 0 ∨ n = -1 := by
  have hdiv := Int.mul_ediv_add_emod n m
  have hlow := Int.emod_nonneg n (by omega : m ≠ 0)
  have hhigh := Int.emod_lt_of_pos n (by omega : 0 < m)
  rw [h] at hdiv
  by_contra hne
  rcases lt_or_ge n 0 with hneg | hpos
  · have hmul : m * (n + 1) ≤ 2 * (n + 1) := Int.mul_le_mul_of_nonpos_right hm (by omega)
    rw [Int.mul_add, Int.mul_one] at hmul
    omega
  · have hmul : 2 * n ≤ m * n := Int.mul_le_mul_of_nonneg_right hm hpos
    omega

theorem sshiftRight_eq_self_iff {k : Nat} (hk : 0 < k) (x : BitVec w) :
    x.sshiftRight k = x ↔ x = 0#w ∨ x = BitVec.allOnes w := by
  constructor
  · intro h
    have hint := congrArg BitVec.toInt h
    have htwo : 2 ≤ 2 ^ k := Nat.le_self_pow (by omega) 2
    rw [BitVec.toInt_sshiftRight, Int.shiftRight_eq_div_pow] at hint
    rcases int_eq_div_self (by exact_mod_cast htwo) hint with hzero | hones
    · left
      apply BitVec.eq_of_toInt_eq
      simp [hzero]
    · right
      apply BitVec.eq_of_toInt_eq
      cases w with
      | zero => simp [BitVec.of_length_zero] at hones
      | succ w => simp [hones, BitVec.toInt_allOnes]
  · rintro (rfl | rfl)
    · simp
    · ext i hi
      have hpos : 0 < w := by omega
      simp [BitVec.getElem_sshiftRight, BitVec.msb_allOnes hpos]

/-- The word mixed with itself, shifted to the right with its sign. -/
def xorShift (k : Nat) (x : BitVec w) : BitVec w := x ^^^ x.sshiftRight k

/-- It is the same for a word and its complement, and for no others. -/
theorem xorShift_eq_iff {k : Nat} (hk : 0 < k) (x y : BitVec w) :
    xorShift k x = xorShift k y ↔ x = y ∨ x = ~~~y := by
  have hswap : xorShift k x ^^^ xorShift k y = (x ^^^ y).sshiftRight k ^^^ (x ^^^ y) := by
    rw [xorShift, xorShift, BitVec.sshiftRight_xor_distrib]
    ac_rfl
  have hdiff : xorShift k x = xorShift k y ↔ (x ^^^ y).sshiftRight k = x ^^^ y := by
    rw [← BitVec.xor_eq_zero_iff, hswap, BitVec.xor_eq_zero_iff]
  have hcompl : x = ~~~y ↔ x ^^^ y = BitVec.allOnes w := by
    rw [← BitVec.xor_left_inj y, ← BitVec.xor_allOnes, BitVec.xor_comm y, BitVec.xor_assoc,
      BitVec.xor_self, BitVec.xor_zero]
  rw [hdiff, sshiftRight_eq_self_iff hk, BitVec.xor_eq_zero_iff, hcompl]

universe u v
variable {α : Type u} {β : Type v} {f : α → β → α}

theorem foldl_inj (hf : ∀ b x y, f x b = f y b → x = y) {bs : List β} {x y : α}
    (h : bs.foldl f x = bs.foldl f y) : x = y := by
  induction bs generalizing x y with
  | nil => exact h
  | cons b bs ih => exact hf b x y (ih h)

theorem foldl_ne_of_one (hf : ∀ b x y, f x b = f y b → x = y)
    (hinput : ∀ x b c, f x b = f x c → b = c)
    (pre post : List β) {b c : β} (hne : b ≠ c) (x : α) :
    (pre ++ b :: post).foldl f x ≠ (pre ++ c :: post).foldl f x := by
  rw [List.foldl_append, List.foldl_append]
  intro h
  exact hne (hinput _ b c (foldl_inj hf h))

def fnvStep (h : BitVec 32) (b : BitVec 8) : BitVec 32 := (h ^^^ b.setWidth 32) * 16777619#32

/-- The FNV-1a hash of some bytes. -/
def fnv1a (bytes : List (BitVec 8)) : BitVec 32 := bytes.foldl fnvStep 2166136261#32

theorem fnv_prime_inv : 16777619#32 * 899433627#32 = 1#32 := by decide

theorem fnvStep_inj (b : BitVec 8) (x y : BitVec 32) (h : fnvStep x b = fnvStep y b) : x = y := by
  have hxor := (mul_inj fnv_prime_inv).mp h
  exact (BitVec.xor_left_inj _).mp hxor

theorem fnvStep_input (x : BitVec 32) (b c : BitVec 8) (h : fnvStep x b = fnvStep x c) : b = c := by
  have hxor := (mul_inj fnv_prime_inv).mp h
  have hback := congrArg (BitVec.setWidth 8) ((BitVec.xor_right_inj _).mp hxor)
  simpa using hback

theorem fnv1a_ne_of_one (pre post : List (BitVec 8)) {b c : BitVec 8} (hne : b ≠ c) :
    fnv1a (pre ++ b :: post) ≠ fnv1a (pre ++ c :: post) :=
  foldl_ne_of_one fnvStep_inj fnvStep_input pre post hne _

end Riscv32Cpu.Lib.Mixing
