/- module: Riscv32Cpu/Lib/Division
   digest: Division and multiplication by shifts: what holds between two bits. -/

import Mathlib.Algebra.Group.Nat.Even
import Mathlib.Data.Nat.Bits
import Mathlib.Tactic.Ring

set_option autoImplicit false
set_option relaxedAutoImplicit false

namespace Riscv32Cpu.Lib.Division

/-- `n` is divided by `b` down to bit `k`: `q` has the bits of the quotient from `k` on, and `r`
is what is left. -/
structure Divided (n b k q r : Nat) : Prop where
  sum : q * b + r = n
  rem : r < b * 2 ^ k
  low : 2 ^ k ∣ q

namespace Divided

variable {n b k q r : Nat}

theorem start (h : n < b * 2 ^ k) : Divided n b k 0 n := ⟨by simp, h, Nat.dvd_zero _⟩

theorem pow_dvd_of_succ (h : 2 ^ (k + 1) ∣ q) : 2 ^ k ∣ q :=
  Nat.dvd_trans (Nat.pow_dvd_pow 2 (Nat.le_succ k)) h

theorem keep (h : Divided n b (k + 1) q r) (hlt : r < b * 2 ^ k) : Divided n b k q r :=
  ⟨h.sum, hlt, pow_dvd_of_succ h.low⟩

theorem or_pow (h : 2 ^ (k + 1) ∣ q) : q ||| 2 ^ k = q + 2 ^ k := by
  obtain ⟨c, rfl⟩ := h
  have hlt : 2 ^ k < 2 ^ (k + 1) := Nat.pow_lt_pow_right (by omega) (Nat.lt_succ_self k)
  exact (Nat.two_pow_add_eq_or_of_lt hlt c).symm

theorem subtract (h : Divided n b (k + 1) q r) (hle : b * 2 ^ k ≤ r) :
    Divided n b k (q ||| 2 ^ k) (r - b * 2 ^ k) := by
  have hdouble : b * 2 ^ (k + 1) = b * 2 ^ k + b * 2 ^ k := by ring
  have hrem := h.rem
  rw [or_pow h.low]
  refine ⟨?_, by omega, Nat.dvd_add (pow_dvd_of_succ h.low) (Nat.dvd_refl _)⟩
  calc (q + 2 ^ k) * b + (r - b * 2 ^ k)
      = q * b + (b * 2 ^ k + (r - b * 2 ^ k)) := by ring
    _ = q * b + r := by rw [Nat.add_sub_cancel' hle]
    _ = n := h.sum

theorem done (h : Divided n b 0 q r) : q = n / b ∧ r = n % b := by
  have hrem : r < b := by simpa using h.rem
  have hb : 0 < b := by omega
  rw [← h.sum, Nat.add_comm, Nat.add_mul_div_right _ _ hb, Nat.div_eq_of_lt hrem,
    Nat.add_mul_mod_self_right, Nat.mod_eq_of_lt hrem]
  exact ⟨(Nat.zero_add q).symm, rfl⟩

end Divided

/-- `n` is brought down bit by bit: with `s` bits still to come, `q` and `r` are the quotient and
the remainder by `b` of what has come. -/
structure BroughtDown (n b s q r : Nat) : Prop where
  sum : q * b + r = n / 2 ^ s
  rem : r < b

namespace BroughtDown

variable {n b s q r : Nat}

theorem start (h : n / 2 ^ s < b) : BroughtDown n b s 0 (n / 2 ^ s) := ⟨by simp, h⟩

theorem next (h : BroughtDown n b (s + 1) q r) :
    n / 2 ^ s = 2 * q * b + (2 * r + n / 2 ^ s % 2) := by
  have hhalf : n / 2 ^ s / 2 = n / 2 ^ (s + 1) := by rw [Nat.div_div_eq_div_mul, ← Nat.pow_succ]
  have hsplit := Nat.div_add_mod (n / 2 ^ s) 2
  rw [hhalf, ← h.sum] at hsplit
  calc n / 2 ^ s = 2 * (q * b + r) + n / 2 ^ s % 2 := hsplit.symm
    _ = 2 * q * b + (2 * r + n / 2 ^ s % 2) := by ring

theorem keep (h : BroughtDown n b (s + 1) q r) (hlt : 2 * r + n / 2 ^ s % 2 < b) :
    BroughtDown n b s (2 * q) (2 * r + n / 2 ^ s % 2) := ⟨h.next.symm, hlt⟩

theorem subtract (h : BroughtDown n b (s + 1) q r) (hle : b ≤ 2 * r + n / 2 ^ s % 2) :
    BroughtDown n b s (2 * q + 1) (2 * r + n / 2 ^ s % 2 - b) := by
  have hrem := h.rem
  have hbit := Nat.mod_lt (n / 2 ^ s) (Nat.zero_lt_two)
  refine ⟨?_, by omega⟩
  calc (2 * q + 1) * b + (2 * r + n / 2 ^ s % 2 - b)
      = 2 * q * b + (b + (2 * r + n / 2 ^ s % 2 - b)) := by ring
    _ = 2 * q * b + (2 * r + n / 2 ^ s % 2) := by rw [Nat.add_sub_cancel' hle]
    _ = n / 2 ^ s := h.next.symm

theorem done (h : BroughtDown n b 0 q r) : q = n / b ∧ r = n % b := by
  have hsum : q * b + r = n := by simpa using h.sum
  have hb : 0 < b := Nat.zero_lt_of_lt h.rem
  rw [← hsum, Nat.add_comm, Nat.add_mul_div_right _ _ hb, Nat.div_eq_of_lt h.rem,
    Nat.add_mul_mod_self_right, Nat.mod_eq_of_lt h.rem]
  exact ⟨(Nat.zero_add q).symm, rfl⟩

end BroughtDown

end Riscv32Cpu.Lib.Division
