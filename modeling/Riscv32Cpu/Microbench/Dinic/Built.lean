/- module: Riscv32Cpu/Microbench/Dinic/Built
   source: CODE/am-kernels/benchmarks/microbench/src/dinic/dinic.cc
   digest: What the calls of `AddEdge` build: two edges for each of them, and a network. -/

import Mathlib.Algebra.BigOperators.Fin
import Mathlib.Data.Nat.Bitwise
import Riscv32Cpu.Lib.Flow
import Riscv32Cpu.Microbench.Dinic.Residual

set_option autoImplicit false
set_option relaxedAutoImplicit false

namespace Riscv32Cpu.Microbench.Dinic

open Lib.Chains Lib.Flow

/-- The calls that make edges. -/
def kept (calls : List Call) : List Call := calls.filter fun call => call.c ≠ 0

theorem kept_cons_of_zero {call : Call} (h : call.c = 0) (calls : List Call) :
    kept (call :: calls) = kept calls := List.filter_cons_of_neg (by simpa using h)

theorem kept_cons {call : Call} (h : call.c ≠ 0) (calls : List Call) :
    kept (call :: calls) = call :: kept calls := List.filter_cons_of_pos (by simpa using h)

theorem sum_kept (calls : List Call) :
    ((kept calls).map Call.c).sum = (calls.map Call.c).sum := by
  induction calls with
  | nil => rfl
  | cons call calls ih =>
    by_cases hc : call.c = 0
    · rw [kept_cons_of_zero hc, ih, List.map_cons, List.sum_cons, hc, zero_add]
    · rw [kept_cons hc, List.map_cons, List.sum_cons, ih, List.map_cons, List.sum_cons]

/-- The network of the calls. -/
def network (L : List Call) : Network Nat (Fin L.length) where
  arcs := Finset.univ
  src k := L[k].u
  tgt k := L[k].v
  cap k := L[k].c

/-- The graph that these calls have built. -/
structure Built (n : Nat) (L : List Call) (G : Graph) : Prop where
  n_eq : G.n = n
  maxm_eq : G.maxm = maxm n
  m_eq : G.m = 2 * L.length
  forth : ∀ k (h : k < L.length), G.edges (2 * k) = ⟨L[k].u, L[k].v, L[k].c, 0⟩
  back : ∀ k (h : k < L.length), G.edges (2 * k + 1) = ⟨L[k].v, L[k].u, 0, 0⟩
  listed : ∀ x < n, Listed G.nxt (G.head x) (G.shape.edgesOf x)
  levels : ∀ v, G.d v = 0

theorem built_init (n : Nat) : Built n [] (init n) where
  n_eq := rfl
  maxm_eq := rfl
  m_eq := rfl
  forth k hk := absurd hk (Nat.not_lt_zero k)
  back k hk := absurd hk (Nat.not_lt_zero k)
  listed _ hx := if_pos hx
  levels _ := rfl

/-- The graph with one more edge. -/
def Graph.linked (G : Graph) (e : Edge) : Graph :=
  { G with
    edges := Function.update G.edges G.m e
    nxt := Function.update G.nxt G.m (G.head e.src)
    head := Function.update G.head e.src (some G.m)
    m := G.m + 1 }

variable {n : Nat} {L : List Call} {G : Graph}

theorem edgesOf_linked (G : Graph) (e : Edge) (x : Nat) :
    (G.linked e).shape.edgesOf x =
      if e.src = x then G.m :: G.shape.edgesOf x else G.shape.edgesOf x := by
  have hnew : (G.linked e).shape.src G.m = e.src := by
    simp [Graph.linked]
  have hold : (List.range G.m).filter (fun i => (G.linked e).shape.src i = x) =
      (List.range G.m).filter fun i => G.shape.src i = x := by
    refine List.filter_congr fun i hi => ?_
    have hne : i ≠ G.m := (List.mem_range.mp hi).ne
    simp [Graph.linked, hne]
  show (((List.range (G.m + 1)).filter _).reverse) = _
  rw [List.range_succ, List.filter_append, List.reverse_append, hold]
  by_cases hx : e.src = x
  · rw [if_pos hx, List.filter_cons_of_pos (by rw [hnew]; exact decide_eq_true hx)]
    rfl
  · rw [if_neg hx, List.filter_cons_of_neg (by rw [hnew]; simpa using hx)]
    rfl

theorem listed_linked (h : ∀ x < n, Listed G.nxt (G.head x) (G.shape.edgesOf x)) (e : Edge)
    (he : e.src < n) :
    ∀ x < n, Listed (G.linked e).nxt ((G.linked e).head x) ((G.linked e).shape.edgesOf x) := by
  have hkept : ∀ x < n, Listed (G.linked e).nxt (G.head x) (G.shape.edgesOf x) := by
    intro x hx
    refine chain_congr (fun q hq => ?_) (h x hx)
    obtain ⟨i, hi, rfl⟩ := List.mem_map.mp hq
    exact Function.update_of_ne (mem_edgesOf.mp hi).1.ne _ _
  intro x hx
  rw [edgesOf_linked]
  by_cases hsrc : e.src = x
  · subst hsrc
    have hhead : (G.linked e).head e.src = some G.m := Function.update_self _ _ _
    have hnext : (G.linked e).nxt G.m = G.head e.src := Function.update_self _ _ _
    rw [if_pos rfl, hhead]
    refine ⟨rfl, Option.some_ne_none _, ?_⟩
    show Chain _ none ((G.linked e).nxt G.m) _
    rw [hnext]
    exact hkept _ he
  · rw [if_neg hsrc]
    have hhead : (G.linked e).head x = G.head x := Function.update_of_ne (Ne.symm hsrc) _ _
    rw [hhead]
    exact hkept x hx

/-- The graph with the two edges of a call. -/
def Graph.paired (G : Graph) (call : Call) : Graph :=
  (G.linked ⟨call.u, call.v, call.c, 0⟩).linked ⟨call.v, call.u, 0, 0⟩

theorem edges_paired (G : Graph) (call : Call) (i : Nat) : (G.paired call).edges i =
    if i = G.m + 1 then ⟨call.v, call.u, 0, 0⟩
    else if i = G.m then ⟨call.u, call.v, call.c, 0⟩ else G.edges i := by
  simp only [Graph.paired, Graph.linked, Function.update_apply]

theorem addEdge_eq {call : Call} (hc : call.c ≠ 0) (hroom : (G.m : Int) + 1 < G.maxm) :
    AddEdge G call.u call.v call.c = .ok (G.paired call) := by
  have hfirst : (G.m : Int) < G.maxm := by omega
  have hsecond : ((G.m + 1 : Nat) : Int) < G.maxm := by omega
  rw [AddEdge, if_neg hc, Graph.link, if_pos hfirst]
  exact if_pos hsecond

theorem Built.paired (h : Built n L G) {call : Call} (hu : call.u < n) (hv : call.v < n) :
    Built n (L ++ [call]) (G.paired call) where
  n_eq := h.n_eq
  maxm_eq := h.maxm_eq
  m_eq := by
    show G.m + 1 + 1 = _
    rw [h.m_eq, List.length_append, List.length_singleton]
    omega
  forth k hk := by
    have hm := h.m_eq
    rw [List.length_append, List.length_singleton] at hk
    rw [edges_paired, if_neg (by omega)]
    rcases Nat.lt_or_ge k L.length with hold | hnew
    · rw [if_neg (by omega), List.getElem_append_left hold, h.forth k hold]
    · obtain rfl : k = L.length := by omega
      rw [if_pos hm.symm, List.getElem_concat_length rfl]
  back k hk := by
    have hm := h.m_eq
    rw [List.length_append, List.length_singleton] at hk
    rw [edges_paired]
    rcases Nat.lt_or_ge k L.length with hold | hnew
    · rw [if_neg (by omega), if_neg (by omega), List.getElem_append_left hold, h.back k hold]
    · obtain rfl : k = L.length := by omega
      rw [if_pos (by omega), List.getElem_concat_length rfl]
  listed := listed_linked (listed_linked h.listed _ hu) _ hv
  levels := h.levels

theorem Built.calls (h : Built n L G) {calls : List Call}
    (hcalls : ∀ call ∈ calls, call.u < n ∧ call.v < n)
    (hroom : 2 * ((L ++ kept calls).length : Int) ≤ maxm n) :
    ∃ G', calls.foldlM (fun G call => AddEdge G call.u call.v call.c) G = .ok G' ∧
      Built n (L ++ kept calls) G' := by
  induction calls generalizing L G with
  | nil => exact ⟨G, rfl, by rwa [kept, List.filter_nil, List.append_nil]⟩
  | cons call calls ih =>
    obtain ⟨hu, hv⟩ := hcalls call (List.mem_cons_self ..)
    have hrest : ∀ c ∈ calls, c.u < n ∧ c.v < n :=
      fun c hc => hcalls c (List.mem_cons_of_mem call hc)
    rw [List.foldlM_cons]
    by_cases hc : call.c = 0
    · rw [kept_cons_of_zero hc] at hroom ⊢
      rw [AddEdge, if_pos hc]
      exact ih h hrest hroom
    · have hmove : L ++ kept (call :: calls) = L ++ [call] ++ kept calls := by
        rw [kept_cons hc, List.append_assoc, List.singleton_append]
      rw [hmove] at hroom ⊢
      have hfits : (G.m : Int) + 1 < G.maxm := by
        rw [h.m_eq, h.maxm_eq]
        simp only [List.length_append, List.length_singleton] at hroom
        omega
      rw [addEdge_eq hc hfits]
      exact ih (h.paired hu hv) hrest hroom

theorem build_ok {calls : List Call} (hcalls : ∀ call ∈ calls, call.u < n ∧ call.v < n)
    (hroom : 2 * ((kept calls).length : Int) ≤ maxm n) :
    ∃ G, build n calls = .ok G ∧ Built n (kept calls) G :=
  (built_init n).calls hcalls hroom

/-- The edges of the calls, forth and back. -/
structure Shaped (n : Nat) (L : List Call) (N : Shape) : Prop where
  n_eq : N.n = n
  m_eq : N.m = 2 * L.length
  forth : ∀ k (h : k < L.length),
    N.src (2 * k) = L[k].u ∧ N.dst (2 * k) = L[k].v ∧ N.cap (2 * k) = L[k].c
  back : ∀ k (h : k < L.length),
    N.src (2 * k + 1) = L[k].v ∧ N.dst (2 * k + 1) = L[k].u ∧ N.cap (2 * k + 1) = 0
  listed : ∀ x < n, Listed N.nxt (N.head x) (N.edgesOf x)

theorem Built.shaped (h : Built n L G) : Shaped n L G.shape where
  n_eq := h.n_eq
  m_eq := h.m_eq
  forth k hk := by simp [h.forth k hk]
  back k hk := by simp [h.back k hk]
  listed := h.listed

variable {N : Shape} {fl : Nat → Int}

theorem pair_even (k : Nat) : 2 * k ^^^ 1 = 2 * k + 1 := Nat.xor_one_of_even (even_two_mul k)

theorem pair_odd (k : Nat) : (2 * k + 1) ^^^ 1 = 2 * k := Nat.xor_one_of_odd (odd_two_mul_add_one k)

theorem Shaped.cases (h : Shaped n L N) {i : Nat} (hi : i < N.m) :
    ∃ k < L.length, i = 2 * k ∨ i = 2 * k + 1 := by
  have hm := h.m_eq
  exact ⟨i / 2, by omega, by omega⟩

theorem Shaped.wf (h : Shaped n L N)
    (hL : ∀ call ∈ L, call.u < n ∧ call.v < n ∧ 0 ≤ call.c ∧ call.c < 2 ^ 31) : N.Wf := by
  have hm := h.m_eq
  have hn := h.n_eq
  constructor
  case src_lt =>
    intro i hi
    obtain ⟨k, hk, rfl | rfl⟩ := h.cases hi
    · rw [(h.forth k hk).1, hn]
      exact (hL _ (List.getElem_mem hk)).1
    · rw [(h.back k hk).1, hn]
      exact (hL _ (List.getElem_mem hk)).2.1
  case pair_lt =>
    intro i hi
    obtain ⟨k, hk, rfl | rfl⟩ := h.cases hi
    · rw [pair_even]
      omega
    · rw [pair_odd]
      omega
  case pair_src =>
    intro i hi
    obtain ⟨k, hk, rfl | rfl⟩ := h.cases hi
    · rw [pair_even, (h.back k hk).1, (h.forth k hk).2.1]
    · rw [pair_odd, (h.forth k hk).1, (h.back k hk).2.1]
  case cap_nonneg =>
    intro i hi
    obtain ⟨k, hk, rfl | rfl⟩ := h.cases hi
    · rw [(h.forth k hk).2.2]
      exact (hL _ (List.getElem_mem hk)).2.2.1
    · rw [(h.back k hk).2.2]
  case pair_cap =>
    intro i hi
    obtain ⟨k, hk, rfl | rfl⟩ := h.cases hi
    · rw [pair_even, (h.forth k hk).2.2, (h.back k hk).2.2, add_zero]
      exact (hL _ (List.getElem_mem hk)).2.2.2
    · rw [pair_odd, (h.forth k hk).2.2, (h.back k hk).2.2, zero_add]
      exact (hL _ (List.getElem_mem hk)).2.2.2
  case listed =>
    intro x hx
    exact h.listed x (hn ▸ hx)

theorem sum_pairs (F : Nat → Int) (k : Nat) :
    ∑ i ∈ Finset.range (2 * k), F i = ∑ i ∈ Finset.range k, (F (2 * i) + F (2 * i + 1)) := by
  induction k with
  | zero => rfl
  | succ k ih =>
    rw [Nat.mul_succ, Finset.sum_range_succ, Finset.sum_range_succ, ih, Finset.sum_range_succ,
      add_assoc]

/-- What the edges forth carry, as a flow of the network. -/
def forthFlow (L : List Call) (fl : Nat → Int) (k : Fin L.length) : Int := fl (2 * k)

theorem Shaped.out_eq (h : Shaped n L N) (hf : N.Feasible fl) (v : Nat) :
    N.out fl v = (network L).net (forthFlow L fl) v := by
  rw [Shape.out, h.m_eq, sum_pairs, Finset.sum_range, Network.net, Finset.sum_filter,
    Finset.sum_filter, ← Finset.sum_sub_distrib]
  refine Finset.sum_congr rfl fun k _ => ?_
  have hanti := hf.anti (2 * k) (by rw [h.m_eq]; omega)
  rw [pair_even] at hanti
  rw [(h.forth k k.isLt).1, (h.back k k.isLt).1, hanti]
  show _ = (if L[k.val].u = v then fl (2 * k) else 0) - if L[k.val].v = v then fl (2 * k) else 0
  split_ifs <;> omega

theorem Shaped.isFlow (h : Shaped n L N) (hf : N.Feasible fl) {s t : Nat}
    (hcons : ∀ v, v ≠ s → v ≠ t → N.out fl v = 0) :
    (network L).IsFlow s t (forthFlow L fl) where
  nonneg k _ := by
    have hanti := hf.anti (2 * k) (by rw [h.m_eq]; omega)
    have hle := hf.le_cap (2 * k + 1) (by rw [h.m_eq]; omega)
    rw [pair_even] at hanti
    rw [(h.back k k.isLt).2.2] at hle
    show 0 ≤ fl (2 * k)
    omega
  le_cap k _ := by
    have hle := hf.le_cap (2 * k) (by rw [h.m_eq]; omega)
    rw [(h.forth k k.isLt).2.2] at hle
    exact hle
  conserve v hs ht := by rw [← h.out_eq hf, hcons v hs ht]

theorem Shaped.full (h : Shaped n L N) (hf : N.Feasible fl) {S : Finset Nat}
    (hS : ∀ i, N.Free fl i → N.src i ∈ S → N.dst i ∈ S) :
    (∀ k : Fin L.length, L[k].u ∈ S → L[k].v ∉ S → forthFlow L fl k = L[k].c) ∧
      ∀ k : Fin L.length, L[k].v ∈ S → L[k].u ∉ S → forthFlow L fl k = 0 := by
  refine ⟨fun k hin hout => ?_, fun k hin hout => ?_⟩
  · have hk : 2 * k.val < N.m := by rw [h.m_eq]; omega
    obtain ⟨hsrc, hdst, hcap⟩ := h.forth k k.isLt
    have hle := hf.le_cap _ hk
    by_contra hne
    refine hout (hdst ▸ hS (2 * k) ⟨hk, lt_of_le_of_ne hle ?_⟩ (hsrc ▸ hin))
    rw [hcap]
    exact hne
  · have hk : 2 * k.val + 1 < N.m := by rw [h.m_eq]; omega
    obtain ⟨hsrc, hdst, hcap⟩ := h.back k k.isLt
    have hle := hf.le_cap _ hk
    have hanti := hf.anti (2 * k) (by omega)
    rw [pair_even] at hanti
    by_contra hne
    refine hout (hdst ▸ hS (2 * k + 1) ⟨hk, lt_of_le_of_ne hle ?_⟩ (hsrc ▸ hin))
    rw [hcap, hanti]
    exact neg_ne_zero.mpr hne

end Riscv32Cpu.Microbench.Dinic
