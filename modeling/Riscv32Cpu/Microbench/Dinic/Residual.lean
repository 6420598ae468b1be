/- module: Riscv32Cpu/Microbench/Dinic/Residual
   source: CODE/am-kernels/benchmarks/microbench/src/dinic/dinic.cc
   digest: Edges in pairs, the flows that they can carry, and what is sent along one of them. -/

import Mathlib.Algebra.BigOperators.Ring.Finset
import Mathlib.Data.Int.Order.Basic
import Riscv32Cpu.Lib.Chains
import Riscv32Cpu.Microbench.Dinic.Model

set_option autoImplicit false
set_option relaxedAutoImplicit false

namespace Riscv32Cpu.Microbench.Dinic

open Lib.Chains

/-- What the searches do not change. -/
structure Shape where
  n : Nat
  m : Nat
  s : Nat
  t : Nat
  src : Nat → Nat
  dst : Nat → Nat
  cap : Nat → Int
  head : Nat → Option Nat
  nxt : Nat → Option Nat

abbrev Graph.shape (G : Graph) : Shape where
  n := G.n
  m := G.m
  s := G.s
  t := G.t
  src i := (G.edges i).src
  dst i := (G.edges i).dst
  cap i := (G.edges i).cap
  head := G.head
  nxt := G.nxt

def Graph.flows (G : Graph) (i : Nat) : Int := (G.edges i).flow

/-- The graph with other flows. -/
def Graph.setFlows (G : Graph) (fl : Nat → Int) : Graph :=
  { G with edges := fun i => { G.edges i with flow := fl i } }

/-- The edges of a vertex, the last one first. -/
def Shape.edgesOf (N : Shape) (x : Nat) : List Nat :=
  ((List.range N.m).filter fun i => N.src i = x).reverse

theorem mem_edgesOf {N : Shape} {x i : Nat} : i ∈ N.edgesOf x ↔ i < N.m ∧ N.src i = x := by
  simp [Shape.edgesOf]

theorem length_edgesOf_le (N : Shape) (x : Nat) : (N.edgesOf x).length ≤ N.m := by
  rw [Shape.edgesOf, List.length_reverse]
  exact (List.length_filter_le _ _).trans List.length_range.le

/-- The list of edges that an index begins. -/
def Listed (nxt : Nat → Option Nat) (p : Option Nat) (l : List Nat) : Prop :=
  Chain (fun q => q.bind nxt) none p (l.map some)

/-- Edge `i` and edge `i ^ 1` are a pair, one from where the other goes; the lists hold the edges
of every vertex. -/
structure Shape.Wf (N : Shape) : Prop where
  src_lt : ∀ i < N.m, N.src i < N.n
  pair_lt : ∀ i < N.m, i ^^^ 1 < N.m
  pair_src : ∀ i < N.m, N.src (i ^^^ 1) = N.dst i
  cap_nonneg : ∀ i < N.m, 0 ≤ N.cap i
  pair_cap : ∀ i < N.m, N.cap i + N.cap (i ^^^ 1) < 2 ^ 31
  listed : ∀ x < N.n, Listed N.nxt (N.head x) (N.edgesOf x)

theorem pair_pair (i : Nat) : i ^^^ 1 ^^^ 1 = i := by
  rw [Nat.xor_assoc, Nat.xor_self, Nat.xor_zero]

theorem pair_ne (i : Nat) : i ^^^ 1 ≠ i := by
  intro h
  have hself := congrArg (i ^^^ ·) h
  simp only [← Nat.xor_assoc, Nat.xor_self, Nat.zero_xor] at hself
  cases hself

theorem pair_eq_iff {i j : Nat} : j ^^^ 1 = i ↔ j = i ^^^ 1 := by
  constructor
  · rintro rfl
    exact (pair_pair j).symm
  · rintro rfl
    exact pair_pair i

variable {N : Shape}

theorem Shape.Wf.dst_lt (hw : N.Wf) {i : Nat} (hi : i < N.m) : N.dst i < N.n :=
  hw.pair_src i hi ▸ hw.src_lt _ (hw.pair_lt i hi)

/-- The flows of a pair are opposite, and neither is more than its capacity. -/
structure Shape.Feasible (N : Shape) (fl : Nat → Int) : Prop where
  anti : ∀ i < N.m, fl (i ^^^ 1) = -fl i
  le_cap : ∀ i < N.m, fl i ≤ N.cap i

/-- The edge can carry more. -/
def Shape.Free (N : Shape) (fl : Nat → Int) (i : Nat) : Prop := i < N.m ∧ fl i < N.cap i

/-- Free edges lead from here to `t`, each of them one level up. -/
inductive Shape.Open (N : Shape) (d : Nat → Nat) (fl : Nat → Int) : Nat → Prop
  | target : N.Open d fl N.t
  | edge {i : Nat} (free : N.Free fl i) (level : d (N.src i) + 1 = d (N.dst i))
      (rest : N.Open d fl (N.dst i)) : N.Open d fl (N.src i)

/-- What flows out of a vertex. -/
def Shape.out (N : Shape) (fl : Nat → Int) (v : Nat) : Int :=
  ∑ i ∈ Finset.range N.m, if N.src i = v then fl i else 0

/-- `f` more along edge `i`. -/
def push (fl : Nat → Int) (i : Nat) (f : Int) (j : Nat) : Int :=
  fl j + (if j = i then f else 0) - if j = i ^^^ 1 then f else 0

variable {fl : Nat → Int} {i : Nat} {f : Int}

theorem push_of_ne {j : Nat} (hi : j ≠ i) (hpair : j ≠ i ^^^ 1) : push fl i f j = fl j := by
  rw [push, if_neg hi, if_neg hpair, add_zero, sub_zero]

theorem Shape.Feasible.room (h : N.Feasible fl) (hw : N.Wf) (hi : i < N.m) :
    0 ≤ N.cap i - fl i ∧ N.cap i - fl i < 2 ^ 31 := by
  have hle := h.le_cap i hi
  have hback := h.le_cap _ (hw.pair_lt i hi)
  have hanti := h.anti i hi
  have hcap := hw.pair_cap i hi
  omega

theorem Shape.Feasible.push (h : N.Feasible fl) (hf : 0 ≤ f) (hroom : f ≤ N.cap i - fl i) :
    N.Feasible (push fl i f) where
  anti j hj := by
    have hanti := h.anti j hj
    unfold Dinic.push
    simp only [pair_eq_iff, pair_pair]
    omega
  le_cap j hj := by
    have hle := h.le_cap j hj
    unfold Dinic.push
    by_cases hji : j = i
    · have hne : i ≠ i ^^^ 1 := (pair_ne i).symm
      rw [hji, if_pos rfl, if_neg hne]
      omega
    · rw [if_neg hji]
      split <;> omega

theorem out_push (hw : N.Wf) (hi : i < N.m) (v : Nat) :
    N.out (push fl i f) v =
      N.out fl v + (if N.src i = v then f else 0) - if N.dst i = v then f else 0 := by
  have hone : ∀ j < N.m,
      ∑ k ∈ Finset.range N.m, (if N.src k = v then if k = j then f else 0 else 0) =
        if N.src j = v then f else 0 := by
    intro j hj
    rw [Finset.sum_eq_single_of_mem j (Finset.mem_range.mpr hj), if_pos rfl]
    intro k _ hk
    rw [if_neg hk, ite_self]
  rw [Shape.out, Shape.out, ← hone i hi, ← hw.pair_src i hi, ← hone _ (hw.pair_lt i hi),
    ← Finset.sum_add_distrib, ← Finset.sum_sub_distrib]
  refine Finset.sum_congr rfl fun k _ => ?_
  by_cases hk : N.src k = v
  · simp only [if_pos hk, push]
  · simp only [if_neg hk, add_zero, sub_zero]

theorem int_eq {n : Int} (hlow : -2 ^ 31 ≤ n) (hhigh : n < 2 ^ 31) : int n = n := by
  rw [int, Int.bmod_eq_of_le] <;> omega

theorem augment_setFlows {G : Graph} (hw : G.shape.Wf) (h : G.shape.Feasible fl) (hi : i < G.m)
    (hf : 0 ≤ f) (hroom : f ≤ G.shape.cap i - fl i) :
    (G.setFlows fl).augment i f = G.setFlows (push fl i f) := by
  have hnew := h.push hf hroom
  have hpair := hw.pair_lt i hi
  have hcap := hw.pair_cap i hi
  have hne := pair_ne i
  have hself : push fl i f i = fl i + f := by
    rw [push, if_pos rfl, if_neg hne.symm, sub_zero]
  have hother : push fl i f (i ^^^ 1) = fl (i ^^^ 1) - f := by
    rw [push, if_neg hne, if_pos rfl, add_zero]
  have hlow := hnew.anti i hi
  have hle := hnew.le_cap i hi
  have hle' := hnew.le_cap _ hpair
  have hlowcap := hw.cap_nonneg i hi
  have hlowcap' := hw.cap_nonneg _ hpair
  have hint : int (fl i + f) = push fl i f i := by
    rw [← hself]
    exact int_eq (by omega) (by omega)
  have hint' : int (fl (i ^^^ 1) - f) = push fl i f (i ^^^ 1) := by
    rw [← hother]
    exact int_eq (by omega) (by omega)
  have hedges : ((G.setFlows fl).augment i f).edges = (G.setFlows (push fl i f)).edges := by
    funext j
    by_cases hj : j = i ^^^ 1
    · rw [hj]
      simp only [Graph.augment, Graph.setFlows, Function.update_self, Function.update_of_ne hne,
        hint']
    · by_cases hji : j = i
      · rw [hji]
        simp only [Graph.augment, Graph.setFlows, Function.update_self,
          Function.update_of_ne hne.symm, hint]
      · simp only [Graph.augment, Graph.setFlows, Function.update_of_ne hj,
          Function.update_of_ne hji, push_of_ne hji hj]
  exact congrArg (fun edges => { G with edges }) hedges

end Riscv32Cpu.Microbench.Dinic
