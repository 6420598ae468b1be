/- module: Riscv32Cpu/Lib/Backtrack
   digest: The lists a search by backtracking reaches, and how many there are. -/

import Mathlib.Algebra.BigOperators.Group.Finset.Basic
import Mathlib.Algebra.Order.BigOperators.Group.Finset
import Mathlib.Data.Finset.Union

set_option autoImplicit false
set_option relaxedAutoImplicit false

namespace Riscv32Cpu.Lib.Backtrack

universe u
variable {α : Type u} (choices : List α → Finset α)

/-- Every entry was a choice for what stands behind it. -/
inductive Grown : List α → Prop
  | nil : Grown []
  | cons {c : α} {l : List α} (choice : c ∈ choices l) (rest : Grown l) : Grown (c :: l)

/-- The lists that `k` more choices make of a list. -/
def leaves [DecidableEq α] : Nat → List α → Finset (List α)
  | 0, l => {l}
  | k + 1, l => (choices l).biUnion fun c => leaves k (c :: l)

variable {choices}

theorem grown_cons_iff {c : α} {l : List α} :
    Grown choices (c :: l) ↔ c ∈ choices l ∧ Grown choices l := by
  refine ⟨fun h => ?_, fun ⟨hc, hl⟩ => .cons hc hl⟩
  cases h with
  | cons hc hl => exact ⟨hc, hl⟩

theorem Grown.of_append {x l : List α} (h : Grown choices (x ++ l)) : Grown choices l := by
  induction x with
  | nil => exact h
  | cons c x ih => exact ih (grown_cons_iff.mp h).2

variable [DecidableEq α]

theorem drop_of_mem_leaves {k : Nat} {l x : List α} (h : x ∈ leaves choices k l) :
    x.drop k = l := by
  induction k generalizing l with
  | zero => exact Finset.mem_singleton.mp h
  | succ k ih =>
    obtain ⟨c, -, hx⟩ := Finset.mem_biUnion.mp h
    rw [← List.drop_drop, ih hx]
    rfl

theorem card_leaves_succ (k : Nat) (l : List α) :
    (leaves choices (k + 1) l).card = ∑ c ∈ choices l, (leaves choices k (c :: l)).card := by
  refine Finset.card_biUnion fun c _ d _ hcd => Finset.disjoint_left.mpr fun x hc hd => ?_
  have hlists := (drop_of_mem_leaves hc).symm.trans (drop_of_mem_leaves hd)
  exact hcd (List.cons.inj hlists).1

theorem mem_leaves {k : Nat} {l x : List α} (hl : Grown choices l) :
    x ∈ leaves choices k l ↔ Grown choices x ∧ ∃ y, y.length = k ∧ y ++ l = x := by
  induction k generalizing l with
  | zero =>
    rw [leaves, Finset.mem_singleton]
    constructor
    · rintro rfl
      exact ⟨hl, [], rfl, rfl⟩
    · rintro ⟨-, y, hy, rfl⟩
      rw [List.eq_nil_of_length_eq_zero hy, List.nil_append]
  | succ k ih =>
    rw [leaves, Finset.mem_biUnion]
    constructor
    · rintro ⟨c, hc, hx⟩
      obtain ⟨hgrown, y, hy, rfl⟩ := (ih (.cons hc hl)).mp hx
      refine ⟨hgrown, y ++ [c], ?_, ?_⟩
      · rw [List.length_append, hy, List.length_singleton]
      · rw [List.append_assoc, List.singleton_append]
    · rintro ⟨hgrown, y, hy, rfl⟩
      have hne : y ≠ [] := by
        rintro rfl
        cases hy
      obtain ⟨z, c, rfl⟩ : ∃ z c, y = z ++ [c] :=
        ⟨_, _, (List.dropLast_append_getLast hne).symm⟩
      have hback : z ++ [c] ++ l = z ++ c :: l := by
        rw [List.append_assoc, List.singleton_append]
      have hc : Grown choices (c :: l) := (hback ▸ hgrown).of_append
      refine ⟨c, (grown_cons_iff.mp hc).1, (ih hc).mpr ⟨hgrown, z, ?_, hback.symm⟩⟩
      rw [List.length_append, List.length_singleton] at hy
      omega

theorem mem_leaves_nil {k : Nat} {x : List α} :
    x ∈ leaves choices k [] ↔ Grown choices x ∧ x.length = k := by
  rw [mem_leaves .nil]
  refine and_congr_right fun _ => ⟨?_, fun hx => ⟨x, hx, List.append_nil x⟩⟩
  rintro ⟨y, hy, rfl⟩
  rw [List.append_nil, hy]

end Riscv32Cpu.Lib.Backtrack
