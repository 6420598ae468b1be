/- module: Riscv32Cpu/Lib/Rows
   digest: Lists written row by row, all rows of one length. -/

import Mathlib.Data.List.Basic

set_option autoImplicit false
set_option relaxedAutoImplicit false

namespace Riscv32Cpu.Lib.Rows

variable {α : Type}

theorem length_flatMap_range {len : Nat} (n : Nat) (f : Nat → List α)
    (hf : ∀ i, (f i).length = len) : ((List.range n).flatMap f).length = n * len := by
  induction n with
  | zero => simp
  | succ n ih =>
    rw [List.range_succ, List.flatMap_append, List.length_append, ih]
    simp [hf, Nat.succ_mul]

theorem getElem?_flatMap_range {len : Nat} {n i r : Nat} (f : Nat → List α)
    (hf : ∀ i, (f i).length = len) (hi : i < n) (hr : r < len) :
    ((List.range n).flatMap f)[i * len + r]? = (f i)[r]? := by
  induction n with
  | zero => omega
  | succ n ih =>
    have hlen := length_flatMap_range n f hf
    rw [List.range_succ, List.flatMap_append]
    by_cases hin : i < n
    · have hlt : i * len + r < n * len := by
        calc i * len + r < i * len + len := by omega
          _ = (i + 1) * len := by rw [Nat.succ_mul]
          _ ≤ n * len := Nat.mul_le_mul_right _ hin
      rw [List.getElem?_append_left (by rw [hlen]; exact hlt), ih hin]
    · have hn : i = n := by omega
      subst hn
      rw [List.getElem?_append_right (by rw [hlen]; omega), hlen, Nat.add_sub_cancel_left]
      simp

theorem map_range_mul (n len : Nat) (f : Nat → α) :
    (List.range (n * len)).map f =
      (List.range n).flatMap fun i => (List.range len).map fun r => f (i * len + r) := by
  induction n with
  | zero => simp
  | succ n ih =>
    rw [Nat.succ_mul, List.range_add, List.map_append, ih, List.range_succ, List.flatMap_append,
      List.map_map]
    simp [Function.comp_def]

end Riscv32Cpu.Lib.Rows
