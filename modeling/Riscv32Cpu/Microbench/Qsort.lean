/- module: Riscv32Cpu/Microbench/Qsort
   source: CODE/am-kernels/benchmarks/microbench/src/qsort/qsort.c
   digest: The quicksort of the qsort benchmark sorts its range and leaves the rest alone. -/

import Mathlib.Data.Int.Order.Basic
import Riscv32Cpu.Lib.Rearrange

set_option autoImplicit false
set_option relaxedAutoImplicit false

namespace Riscv32Cpu.Microbench.Qsort

open Lib.Rearrange

/-- The elements by their index. -/
abbrev Data := Nat → Int

def swap (a : Data) (i j : Nat) : Data := exchange a i j

/-- The loop of `myqsort`: the array and `pivot` at its end. -/
def partitionLoop (r : Nat) (p : Int) (a : Data) (pivot j : Nat) : Data × Nat :=
  if j < r then
    if a j < p then partitionLoop r p (swap a (pivot + 1) j) (pivot + 1) (j + 1)
    else partitionLoop r p a pivot (j + 1)
  else (a, pivot)
termination_by r - j

/-- The loop has looked at the elements behind `l` and before `j`: those up to `pivot` are smaller
than the pivot element, the others are not. -/
structure Split (l r : Nat) (p : Int) (a₀ a : Data) (pivot j : Nat) : Prop where
  first : a l = p
  bounds : l ≤ pivot ∧ pivot < j ∧ j ≤ r
  below : ∀ i, l < i → i ≤ pivot → a i < p
  above : ∀ i, pivot < i → i < j → p ≤ a i
  moved : Rearranged l r a₀ a

theorem partitionLoop_split {l r : Nat} {p : Int} {a₀ a : Data} {pivot j : Nat}
    (h : Split l r p a₀ a pivot j) :
    Split l r p a₀ (partitionLoop r p a pivot j).1 (partitionLoop r p a pivot j).2 r := by
  obtain ⟨hl, hlt, hle⟩ := h.bounds
  induction a, pivot, j using partitionLoop.induct r p with
  | case1 a pivot j hj hsmall ih =>
    rw [partitionLoop, if_pos hj, if_pos hsmall]
    refine ih ⟨?_, by omega, fun i hi hi' => ?_, fun i hi hi' => ?_, ?_⟩ (by omega) (by omega)
      (by omega)
    · rw [swap, exchange_of_ne a (by omega) (by omega), h.first]
    · by_cases hlast : i = pivot + 1
      · rw [swap, hlast, exchange_left]
        exact hsmall
      · rw [swap, exchange_of_ne a hlast (by omega)]
        exact h.below i hi (by omega)
    · by_cases hlast : i = j
      · rw [swap, hlast, exchange_right]
        by_cases hsame : pivot + 1 = j
        · omega
        · exact h.above (pivot + 1) (by omega) (by omega)
      · rw [swap, exchange_of_ne a (by omega) hlast]
        exact h.above i (by omega) (by omega)
    · exact h.moved.trans (rearranged_exchange a (by omega) (by omega))
  | case2 a pivot j hj hlarge ih =>
    rw [partitionLoop, if_pos hj, if_neg hlarge]
    refine ih ⟨h.first, by omega, h.below, fun i hi hi' => ?_, h.moved⟩ hl (by omega) (by omega)
    by_cases hlast : i = j
    · rw [hlast]
      exact Int.not_lt.mp hlarge
    · exact h.above i hi (by omega)
  | case3 a pivot j hj =>
    obtain rfl : j = r := by omega
    rw [partitionLoop, if_neg hj]
    exact h

theorem split_start {l r : Nat} (a : Data) (h : l < r) : Split l r (a l) a a l (l + 1) :=
  ⟨rfl, by omega, by omega, by omega, .refl l r a⟩

/-- The array and the place of the pivot element once it has been split. -/
def partitioned (a : Data) (l r : Nat) : Data × Nat :=
  let (a', pivot) := partitionLoop r (a l) a l (l + 1)
  (swap a' pivot l, pivot)

theorem pivot_bounds {l r : Nat} (a : Data) (h : l < r) :
    l ≤ (partitioned a l r).2 ∧ (partitioned a l r).2 < r :=
  let hsplit := (partitionLoop_split (split_start a h)).bounds
  ⟨hsplit.1, hsplit.2.1⟩

def myqsort (a : Data) (l r : Nat) : Data :=
  if h : l < r then
    have := pivot_bounds a h
    myqsort (myqsort (partitioned a l r).1 l (partitioned a l r).2) ((partitioned a l r).2 + 1) r
  else a
termination_by r - l
decreasing_by all_goals omega

theorem myqsort_of_lt {l r : Nat} (a : Data) (h : l < r) :
    myqsort a l r =
      myqsort (myqsort (partitioned a l r).1 l (partitioned a l r).2)
        ((partitioned a l r).2 + 1) r := by
  rw [myqsort, dif_pos h]

theorem partitioned_spec {l r : Nat} (a : Data) (h : l < r) :
    Rearranged l r a (partitioned a l r).1 ∧
      (∀ i, l ≤ i → i < (partitioned a l r).2 →
        (partitioned a l r).1 i ≤ (partitioned a l r).1 (partitioned a l r).2) ∧
      ∀ i, (partitioned a l r).2 < i → i < r →
        (partitioned a l r).1 (partitioned a l r).2 ≤ (partitioned a l r).1 i := by
  have hsplit := partitionLoop_split (split_start a h)
  rw [partitioned]
  generalize partitionLoop r (a l) a l (l + 1) = q at hsplit
  obtain ⟨b, pivot⟩ := q
  obtain ⟨hl, hlt, -⟩ := hsplit.bounds
  dsimp only at hsplit hl hlt ⊢
  have hpivot : swap b pivot l pivot = a l := (exchange_left b pivot l).trans hsplit.first
  rw [hpivot]
  refine ⟨hsplit.moved.trans (rearranged_exchange b (by omega) (by omega)), ?_, ?_⟩
  · intro i hi hi'
    by_cases hfirst : i = l
    · rw [hfirst, swap, exchange_right]
      by_cases hsame : pivot = l
      · omega
      · exact Int.le_of_lt (hsplit.below pivot (by omega) (by omega))
    · rw [swap, exchange_of_ne b (by omega) hfirst]
      exact Int.le_of_lt (hsplit.below i (by omega) (by omega))
  · intro i hi hi'
    rw [swap, exchange_of_ne b (by omega) (by omega)]
    exact hsplit.above i hi hi'

/-- The benchmark's quicksort puts its range in order, whatever is in the array, and moves nothing
else. -/
theorem myqsort_sorts (a : Data) (l r : Nat) :
    Rearranged l r a (myqsort a l r) ∧ Ordered l r (myqsort a l r) := by
  induction a, l, r using myqsort.induct with
  | case1 a l r h hbounds ihleft ihright =>
    obtain ⟨hmoved, hbelow, habove⟩ := partitioned_spec a h
    rw [myqsort_of_lt a h]
    generalize (partitioned a l r).1 = b at *
    generalize (partitioned a l r).2 = pivot at *
    obtain ⟨hl, hlt⟩ := hbounds
    obtain ⟨hleft, horder⟩ := ihleft
    obtain ⟨hright, horder'⟩ := ihright
    -- the second call leaves the first half and the pivot element where they are
    have hkept : ∀ i ≤ pivot, myqsort (myqsort b l pivot) (pivot + 1) r i = myqsort b l pivot i :=
      fun i hi => hright.outside (by omega)
    have hpivot : myqsort b l pivot pivot = b pivot := hleft.outside (by omega)
    refine ⟨(hmoved.trans (hleft.mono (by omega) (by omega))).trans
      (hright.mono (by omega) (by omega)), ordered_join (fun i j hi hij hj => ?_) horder' ?_ ?_⟩
    · rw [hkept i (by omega), hkept j (by omega)]
      exact horder i j hi hij hj
    · intro i hi hi'
      rw [hkept i (by omega), hkept pivot (by omega), hpivot]
      exact hleft.inside (P := (· ≤ b pivot)) hbelow hi hi'
    · intro i hi hi'
      rw [hkept pivot (by omega), hpivot]
      refine hright.inside (P := (b pivot ≤ ·)) (fun k hk hk' => ?_) hi hi'
      rw [hleft.outside (by omega)]
      exact habove k hk hk'
  | case2 a l r h =>
    rw [myqsort, dif_neg h]
    exact ⟨.refl l r a, ordered_of_le a (by omega)⟩

end Riscv32Cpu.Microbench.Qsort
