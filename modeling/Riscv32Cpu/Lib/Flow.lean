/- module: Riscv32Cpu/Lib/Flow
   digest: Networks, flows and cuts: a flow that fills a cut is a maximum. -/

import Mathlib.Algebra.BigOperators.Ring.Finset
import Mathlib.Algebra.Order.BigOperators.Group.Finset
import Mathlib.Algebra.Order.Ring.Cast

set_option autoImplicit false
set_option relaxedAutoImplicit false

namespace Riscv32Cpu.Lib.Flow

universe u v
variable {V : Type u} {ι : Type v}

/-- Arcs with capacities; there may be several between two vertices. -/
structure Network (V : Type u) (ι : Type v) where
  arcs : Finset ι
  src : ι → V
  tgt : ι → V
  cap : ι → Int

section
variable [DecidableEq V] (N : Network V ι)

/-- What flows out of a vertex less what flows in. -/
def Network.net {R : Type} [Ring R] (f : ι → R) (v : V) : R :=
  ∑ a ∈ N.arcs with N.src a = v, f a - ∑ a ∈ N.arcs with N.tgt a = v, f a

/-- A flow from `s` to `t`; its value is what it has at `s`. -/
structure Network.IsFlow {R : Type} [Ring R] [LinearOrder R] (s t : V) (f : ι → R) : Prop where
  nonneg : ∀ a ∈ N.arcs, 0 ≤ f a
  le_cap : ∀ a ∈ N.arcs, f a ≤ N.cap a
  conserve : ∀ v, v ≠ s → v ≠ t → N.net f v = 0

variable {N} {R : Type} [Ring R] {s t : V} {S : Finset V}

theorem sum_net (S : Finset V) (f : ι → R) :
    ∑ v ∈ S, N.net f v = ∑ a ∈ N.arcs with N.src a ∈ S ∧ N.tgt a ∉ S, f a -
      ∑ a ∈ N.arcs with N.tgt a ∈ S ∧ N.src a ∉ S, f a := by
  have hends : ∀ e : ι → V, ∑ v ∈ S, ∑ a ∈ N.arcs with e a = v, f a =
      ∑ a ∈ N.arcs, if e a ∈ S then f a else 0 := by
    intro e
    simp only [Finset.sum_filter]
    rw [Finset.sum_comm]
    exact Finset.sum_congr rfl fun a _ => Finset.sum_ite_eq S (e a) fun _ => f a
  simp only [Network.net]
  rw [Finset.sum_sub_distrib, hends, hends, Finset.sum_filter, Finset.sum_filter,
    ← Finset.sum_sub_distrib, ← Finset.sum_sub_distrib]
  refine Finset.sum_congr rfl fun a _ => ?_
  by_cases hsrc : N.src a ∈ S <;> by_cases htgt : N.tgt a ∈ S <;> simp [hsrc, htgt]

theorem net_source_eq {f : ι → R} (hf : ∀ v, v ≠ s → v ≠ t → N.net f v = 0) (hs : s ∈ S)
    (ht : t ∉ S) : N.net f s = ∑ a ∈ N.arcs with N.src a ∈ S ∧ N.tgt a ∉ S, f a -
      ∑ a ∈ N.arcs with N.tgt a ∈ S ∧ N.src a ∉ S, f a := by
  rw [← sum_net]
  refine (Finset.sum_eq_single_of_mem s hs fun v hv hvs => hf v hvs ?_).symm
  rintro rfl
  exact ht hv

variable [LinearOrder R] [IsStrictOrderedRing R]

theorem net_source_le_cut {f : ι → R} (hf : N.IsFlow s t f) (hs : s ∈ S) (ht : t ∉ S) :
    N.net f s ≤ ((∑ a ∈ N.arcs with N.src a ∈ S ∧ N.tgt a ∉ S, N.cap a : Int) : R) := by
  have hout : ∑ a ∈ N.arcs with N.src a ∈ S ∧ N.tgt a ∉ S, f a ≤
      ∑ a ∈ N.arcs with N.src a ∈ S ∧ N.tgt a ∉ S, (N.cap a : R) :=
    Finset.sum_le_sum fun a ha => hf.le_cap a (Finset.mem_filter.mp ha).1
  have hin : 0 ≤ ∑ a ∈ N.arcs with N.tgt a ∈ S ∧ N.src a ∉ S, f a :=
    Finset.sum_nonneg fun a ha => hf.nonneg a (Finset.mem_filter.mp ha).1
  rw [net_source_eq hf.conserve hs ht, Int.cast_sum]
  exact (sub_le_self _ hin).trans hout

/-- A flow that fills every arc out of a set with `s` and not `t`, and leaves every arc into it
empty, has the largest value. -/
theorem net_source_le_of_full {f : ι → Int} (hf : N.IsFlow s t f) (hs : s ∈ S) (ht : t ∉ S)
    (hfull : ∀ a ∈ N.arcs, N.src a ∈ S → N.tgt a ∉ S → f a = N.cap a)
    (hempty : ∀ a ∈ N.arcs, N.tgt a ∈ S → N.src a ∉ S → f a = 0) {g : ι → R}
    (hg : N.IsFlow s t g) : N.net g s ≤ ((N.net f s : Int) : R) := by
  have hout : ∑ a ∈ N.arcs with N.src a ∈ S ∧ N.tgt a ∉ S, f a =
      ∑ a ∈ N.arcs with N.src a ∈ S ∧ N.tgt a ∉ S, N.cap a := by
    refine Finset.sum_congr rfl fun a ha => ?_
    obtain ⟨hmem, hsrc, htgt⟩ := Finset.mem_filter.mp ha
    exact hfull a hmem hsrc htgt
  have hin : ∑ a ∈ N.arcs with N.tgt a ∈ S ∧ N.src a ∉ S, f a = 0 := by
    refine Finset.sum_eq_zero fun a ha => ?_
    obtain ⟨hmem, htgt, hsrc⟩ := Finset.mem_filter.mp ha
    exact hempty a hmem htgt hsrc
  rw [net_source_eq hf.conserve hs ht, hout, hin, sub_zero]
  exact net_source_le_cut hg hs ht

theorem net_source_le_sum {f : ι → R} (hf : N.IsFlow s t f) (hst : s ≠ t)
    (hcap : ∀ a ∈ N.arcs, 0 ≤ N.cap a) : N.net f s ≤ ((∑ a ∈ N.arcs, N.cap a : Int) : R) := by
  have hcut := net_source_le_cut (S := {s}) hf (Finset.mem_singleton_self s)
    (fun h => hst (Finset.mem_singleton.mp h).symm)
  refine hcut.trans (Int.cast_le.mpr (Finset.sum_le_sum_of_subset_of_nonneg ?_ ?_))
  · exact Finset.filter_subset _ _
  · exact fun a ha _ => hcap a ha

end

end Riscv32Cpu.Lib.Flow
