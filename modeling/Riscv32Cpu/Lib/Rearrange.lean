/- module: Riscv32Cpu/Lib/Rearrange
   digest: Arrays rearranged within a range of their indices, and ranges in order. -/

import Mathlib.Logic.Equiv.Basic
import Mathlib.Order.Lattice

set_option autoImplicit false
set_option relaxedAutoImplicit false

namespace Riscv32Cpu.Lib.Rearrange

variable {α : Type}

/-- `b` holds the values of `a`, those of the indices from `lo` on and below `hi` in another order
and all others where they were. -/
def Rearranged (lo hi : Nat) (a b : Nat → α) : Prop :=
  ∃ σ : Equiv.Perm Nat, (∀ i, ¬(lo ≤ i ∧ i < hi) → σ i = i) ∧ b = a ∘ σ

theorem Rearranged.refl (lo hi : Nat) (a : Nat → α) : Rearranged lo hi a a :=
  ⟨Equiv.refl Nat, fun _ _ => rfl, rfl⟩

theorem Rearranged.trans {lo hi : Nat} {a b c : Nat → α} (h : Rearranged lo hi a b)
    (h' : Rearranged lo hi b c) : Rearranged lo hi a c := by
  obtain ⟨σ, hσ, rfl⟩ := h
  obtain ⟨τ, hτ, rfl⟩ := h'
  refine ⟨τ.trans σ, fun i hi => ?_, rfl⟩
  rw [Equiv.trans_apply, hτ i hi, hσ i hi]

theorem Rearranged.mono {lo hi lo' hi' : Nat} {a b : Nat → α} (h : Rearranged lo hi a b)
    (hlo : lo' ≤ lo) (hhi : hi ≤ hi') : Rearranged lo' hi' a b := by
  obtain ⟨σ, hσ, rfl⟩ := h
  exact ⟨σ, fun i hi => hσ i (by omega), rfl⟩

theorem Rearranged.outside {lo hi : Nat} {a b : Nat → α} (h : Rearranged lo hi a b) {i : Nat}
    (hi : ¬(lo ≤ i ∧ i < hi)) : b i = a i := by
  obtain ⟨σ, hσ, rfl⟩ := h
  rw [Function.comp_apply, hσ i hi]

theorem Rearranged.inside {lo hi : Nat} {a b : Nat → α} (h : Rearranged lo hi a b) {P : α → Prop}
    (ha : ∀ i, lo ≤ i → i < hi → P (a i)) {i : Nat} (hlo : lo ≤ i) (hhi : i < hi) : P (b i) := by
  obtain ⟨σ, hσ, rfl⟩ := h
  have hrange : lo ≤ σ i ∧ σ i < hi := by
    by_contra hout
    have hfix : σ (σ i) = σ i := hσ (σ i) hout
    have hsame : σ i = i := σ.injective hfix
    rw [hsame] at hout
    exact hout ⟨hlo, hhi⟩
  exact ha (σ i) hrange.1 hrange.2

/-- Exchange of two elements. -/
def exchange (a : Nat → α) (i j : Nat) : Nat → α := fun k =>
  if k = j then a i else if k = i then a j else a k

theorem exchange_left (a : Nat → α) (i j : Nat) : exchange a i j i = a j := by
  rw [exchange]
  split
  · next h => rw [h]
  · exact if_pos rfl

theorem exchange_right (a : Nat → α) (i j : Nat) : exchange a i j j = a i := if_pos rfl

theorem exchange_of_ne (a : Nat → α) {i j k : Nat} (hi : k ≠ i) (hj : k ≠ j) :
    exchange a i j k = a k := by
  rw [exchange, if_neg hj, if_neg hi]

theorem rearranged_exchange {lo hi i j : Nat} (a : Nat → α) (hin : lo ≤ i ∧ i < hi)
    (hjn : lo ≤ j ∧ j < hi) : Rearranged lo hi a (exchange a i j) := by
  refine ⟨Equiv.swap i j, fun k hk => ?_, funext fun k => ?_⟩
  · refine Equiv.swap_apply_of_ne_of_ne ?_ ?_
    · rintro rfl
      exact hk hin
    · rintro rfl
      exact hk hjn
  · rw [Function.comp_apply, Equiv.swap_apply_def]
    by_cases hki : k = i
    · rw [if_pos hki, hki, exchange_left]
    · by_cases hkj : k = j
      · rw [if_neg hki, if_pos hkj, hkj, exchange_right]
      · rw [if_neg hki, if_neg hkj, exchange_of_ne a hki hkj]

variable [LinearOrder α]

/-- The range is in order. -/
def Ordered (lo hi : Nat) (a : Nat → α) : Prop :=
  ∀ i j, lo ≤ i → i ≤ j → j < hi → a i ≤ a j

theorem ordered_of_le {lo hi : Nat} (a : Nat → α) (h : hi ≤ lo + 1) : Ordered lo hi a := by
  intro i j hlo hij hhi
  have hsame : i = j := by omega
  rw [hsame]

theorem ordered_join {lo mid hi : Nat} {a : Nat → α} (hleft : Ordered lo mid a)
    (hright : Ordered (mid + 1) hi a) (hbelow : ∀ i, lo ≤ i → i < mid → a i ≤ a mid)
    (habove : ∀ i, mid < i → i < hi → a mid ≤ a i) : Ordered lo hi a := by
  intro i j hlo hij hhi
  rcases Nat.lt_trichotomy j mid with hj | rfl | hj
  · exact hleft i j hlo hij hj
  · rcases Nat.lt_or_ge i j with hi | hi
    · exact hbelow i hlo hi
    · have hsame : i = j := by omega
      rw [hsame]
  · rcases Nat.lt_trichotomy i mid with hi | rfl | hi
    · exact (hbelow i hlo hi).trans (habove j hj hhi)
    · exact habove j hj hhi
    · exact hright i j hi hij hhi

end Riscv32Cpu.Lib.Rearrange
