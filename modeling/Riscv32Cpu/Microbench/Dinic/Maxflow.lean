/- module: Riscv32Cpu/Microbench/Dinic/Maxflow
   source: CODE/am-kernels/benchmarks/microbench/src/dinic/dinic.cc
   digest: The phases of the algorithm: each sends more, and the last one finds a full cut. -/

import Mathlib.Algebra.Order.BigOperators.Group.List
import Mathlib.Data.Real.Basic
import Riscv32Cpu.Microbench.Dinic.Augment
import Riscv32Cpu.Microbench.Dinic.Built
import Riscv32Cpu.Microbench.Dinic.Levels

set_option autoImplicit false
set_option relaxedAutoImplicit false

namespace Riscv32Cpu.Microbench.Dinic

open Lib.Flow

/-- What `Maxflow` should leave: the edges of the calls with flows on them, a flow from `s` to `t`
of this value, and no flow of a larger one. -/
structure Maximum (L : List Call) (s t : Nat) (v : Int) (G : Graph) : Prop where
  forth : ∀ k (h : k < L.length), (G.edges (2 * k)).src = L[k].u ∧ (G.edges (2 * k)).dst = L[k].v ∧
    (G.edges (2 * k)).cap = L[k].c
  anti : ∀ i < 2 * L.length, (G.edges (i ^^^ 1)).flow = -(G.edges i).flow
  capacity : ∀ i < 2 * L.length, (G.edges i).flow ≤ (G.edges i).cap
  flow : (network L).IsFlow s t fun k => (G.edges (2 * k)).flow
  value : (network L).net (fun k => (G.edges (2 * k)).flow) s = v
  maximum : ∀ g : Fin L.length → Real, (network L).IsFlow s t g → (network L).net g s ≤ v

/-- The flows between two phases, with what they carry. -/
structure Balanced (N : Shape) (fl : Nat → Int) (flow : Int) : Prop where
  feasible : N.Feasible fl
  source : N.out fl N.s = flow
  conserve : ∀ v, v ≠ N.s → v ≠ N.t → N.out fl v = 0

/-- No free edge leads from a set with `s` to the rest, where `t` is. -/
def Separated (N : Shape) (fl : Nat → Int) : Prop :=
  ∃ S : Finset Nat, N.s ∈ S ∧ N.t ∉ S ∧ ∀ i, N.Free fl i → N.src i ∈ S → N.dst i ∈ S

variable {G : Graph} {flow total : Int}

theorem Searched.separated {q : Nat} (h : Searched G q q) (hw : G.shape.Wf) (hs : G.s < G.n)
    (hvis : G.vis G.t = false) : Separated G.shape G.flows := by
  refine ⟨(Finset.range G.n).filter fun v => G.vis v = true, ?_, ?_, fun i hfree hsrc => ?_⟩
  · exact Finset.mem_filter.mpr ⟨Finset.mem_range.mpr hs, h.source.1⟩
  · intro hmem
    rw [(Finset.mem_filter.mp hmem).2] at hvis
    cases hvis
  · refine Finset.mem_filter.mpr ⟨Finset.mem_range.mpr (hw.dst_lt hfree.1), ?_⟩
    exact h.cut hw hfree (Finset.mem_filter.mp hsrc).2

theorem Sent.balanced {N : Shape} {d : Nat → Nat} {fl fl' : Nat → Int} {a f : Int}
    (h : Sent N d fl N.s a f fl') (hb : Balanced N fl flow) (hst : N.s ≠ N.t) :
    Balanced N fl' (flow + f) where
  feasible := h.feasible
  source := by rw [h.out, hb.source, if_pos rfl, if_neg hst, sub_zero]
  conserve v hs ht := by rw [h.out, hb.conserve v hs ht, if_neg hs, if_neg ht, add_zero, sub_zero]

/-- Every vertex is at its first edge. -/
def Graph.ready (G : Graph) : Graph :=
  { G with cur := fun i => if i < G.n then G.head i else G.cur i }

theorem phases_stop {G' : Graph} {fuel : Nat} (h : BFS fuel G = .ok (false, G')) :
    phases (fuel + 1) G flow = .ok (flow, G') := by
  rw [phases, h]
  rfl

theorem phases_next {G₁ G₂ : Graph} {fuel : Nat} {f : Int} (h : BFS fuel G = .ok (true, G₁))
    (hdfs : DFS fuel G₁.s INF G₁.ready = .ok (f, G₂)) :
    phases (fuel + 1) G flow = phases fuel G₂ (int (flow + f)) := by
  rw [phases, h]
  show (DFS fuel G₁.s INF G₁.ready >>= _) = _
  rw [hdfs]
  rfl

theorem Searched.dfs {q : Nat} (h : Searched G q q) (hw : G.shape.Wf) (hs : G.s < G.n)
    (ht : G.t < G.n)
    (hfound : G.vis G.t = true) (hf : G.shape.Feasible G.flows) {fuel : Nat}
    (hfuel : G.n + G.m + 2 ≤ fuel) :
    ∃ f fl', DFS fuel G.s INF G.ready = .ok (f, G.ready.setFlows fl') ∧
      Sent G.shape G.d G.flows G.s INF f fl' ∧ 0 < f := by
  have hcur : ∀ v < G.n, G.ready.cur v = G.head v := fun v hv => if_pos hv
  have hsends : Sends G.ready (DFS fuel) G.s :=
    DFS_ok (G := G.ready) hw h.levels hcur hs (hfuel.trans (Nat.le_add_right _ _))
  obtain ⟨f, fl', hrun, hsent, hlive⟩ := hsends INF G.flows (by decide) (by decide) hf
  exact ⟨f, fl', hrun, hsent, hlive (by decide) (h.open_source hw ht hfound .target)⟩

/-- The phases end, since each of them sends something and there is no more than `total` to send. -/
theorem phases_ok (hw : G.shape.Wf) (hs : G.s < G.n) (ht : G.t < G.n) (hst : G.s ≠ G.t)
    (hlevels : ∀ v < G.n, G.d v < G.n) (htotal : total < 2 ^ 31)
    (hmax : ∀ fl flow, Balanced G.shape fl flow → flow ≤ total)
    (hb : Balanced G.shape G.flows flow) (hflow : 0 ≤ flow) {fuel : Nat}
    (hfuel : total - flow + (G.n + G.m + 3 : Nat) ≤ fuel) :
    ∃ v G', phases fuel G flow = .ok (v, G') ∧ G'.shape = G.shape ∧
      Balanced G.shape G'.flows v ∧ Separated G.shape G'.flows := by
  induction fuel generalizing G flow with
  | zero =>
    have := hmax _ _ hb
    omega
  | succ fuel ih =>
    have hle := hmax _ _ hb
    have hbound : G.n + G.m + 2 ≤ fuel := by omega
    obtain ⟨vis, d, queue, q, hrun, hend⟩ := BFS_ok hw hs hlevels hbound
    cases hfound : vis G.t with
    | false =>
      rw [hfound] at hrun
      exact ⟨flow, _, phases_stop hrun, rfl, hb, hend.separated hw hs hfound⟩
    | true =>
      rw [hfound] at hrun
      obtain ⟨f, fl', hdfs, hsent, hpos⟩ := hend.dfs hw hs ht hfound hb.feasible hbound
      have hnext : Balanced G.shape fl' (flow + f) := hsent.balanced hb hst
      have hle' := hmax _ _ hnext
      have hint : int (flow + f) = flow + f := int_eq (by omega) (by omega)
      have hless : total - (flow + f) + (G.n + G.m + 3 : Nat) ≤ fuel := by omega
      rw [phases_next hrun hdfs, hint]
      exact ih (G := (Graph.ready { G with vis, d, queue }).setFlows fl') hw hs ht hst hend.levels
        hmax hnext (by omega) hless

theorem Balanced.le_total {n : Nat} {L : List Call} {N : Shape} {fl : Nat → Int}
    (hb : Balanced N fl flow) (hshape : Shaped n L N) (hst : N.s ≠ N.t)
    (hL : ∀ call ∈ L, 0 ≤ call.c) : flow ≤ (L.map Call.c).sum := by
  have hle := net_source_le_sum (hshape.isFlow hb.feasible hb.conserve) hst
    (fun k _ => hL _ (List.getElem_mem k.isLt))
  rw [← hshape.out_eq hb.feasible, hb.source, Int.cast_id] at hle
  rw [← Fin.sum_univ_fun_getElem]
  exact hle

theorem Balanced.maximum {n : Nat} {L : List Call} {s t : Nat} {v : Int}
    (hb : Balanced G.shape G.flows v) (hsep : Separated G.shape G.flows)
    (hshape : Shaped n L G.shape) (hs : G.s = s) (ht : G.t = t) : Maximum L s t v G := by
  subst hs ht
  have hm : ∀ i, i < 2 * L.length → i < G.m := fun i hi => hi.trans_eq hshape.m_eq.symm
  have hflow := hshape.isFlow hb.feasible hb.conserve
  have hvalue : (network L).net (forthFlow L G.flows) G.s = v := by
    rw [← hshape.out_eq hb.feasible]
    exact hb.source
  refine ⟨hshape.forth, fun i hi => hb.feasible.anti i (hm i hi),
    fun i hi => hb.feasible.le_cap i (hm i hi), hflow, hvalue, fun g hg => ?_⟩
  obtain ⟨S, hsS, htS, hS⟩ := hsep
  obtain ⟨hfull, hempty⟩ := hshape.full hb.feasible hS
  rw [← hvalue]
  exact net_source_le_of_full hflow hsS htS (fun k _ => hfull k) (fun k _ => hempty k) hg

theorem Built.balanced {n : Nat} {L : List Call} (h : Built n L G) {s t : Nat}
    (hw : { G with s, t }.shape.Wf) (hL : ∀ call ∈ L, 0 ≤ call.c) :
    Balanced { G with s, t }.shape { G with s, t }.flows 0 := by
  have hedges : ∀ i < G.m, (G.edges i).flow = 0 ∧ 0 ≤ (G.edges i).cap := by
    intro i hi
    obtain ⟨k, hk, rfl | rfl⟩ := h.shaped.cases hi
    · rw [h.forth k hk]
      exact ⟨rfl, hL _ (List.getElem_mem hk)⟩
    · rw [h.back k hk]
      exact ⟨rfl, le_rfl⟩
  have hout : ∀ v, { G with s, t }.shape.out { G with s, t }.flows v = 0 := by
    intro v
    refine Finset.sum_eq_zero fun i hi => ?_
    show (if _ then (G.edges i).flow else 0) = 0
    rw [(hedges i (Finset.mem_range.mp hi)).1, ite_self]
  refine ⟨⟨fun i hi => ?_, fun i hi => ?_⟩, hout _, fun v _ _ => hout v⟩
  · show (G.edges (i ^^^ 1)).flow = -(G.edges i).flow
    rw [(hedges _ (hw.pair_lt i hi)).1, (hedges i hi).1, neg_zero]
  · show (G.edges i).flow ≤ (G.edges i).cap
    rw [(hedges i hi).1]
    exact (hedges i hi).2

/-- The algorithm ends with a maximum flow, for every graph that the arrays can hold and every two
vertices. -/
theorem maxflow_maximum {n : Nat} {calls : List Call} {s t : Nat}
    (hcalls : ∀ call ∈ calls, call.u < n ∧ call.v < n ∧ 0 ≤ call.c)
    (hroom : 2 * ((kept calls).length : Int) ≤ maxm n) (hs : s < n) (ht : t < n) (hst : s ≠ t)
    (htotal : (calls.map Call.c).sum < 2 ^ 31) :
    ∃ G v G' bound, build n calls = .ok G ∧ (∀ fuel ≥ bound, Maxflow fuel s t G = .ok (v, G')) ∧
      Maximum (kept calls) s t v G' := by
  obtain ⟨G, hbuild, hbuilt⟩ := build_ok (fun call hc => ⟨(hcalls call hc).1, (hcalls call hc).2.1⟩)
    hroom
  have hkept : ∀ call ∈ kept calls, call.u < n ∧ call.v < n ∧ 0 ≤ call.c :=
    fun call hc => hcalls call (List.mem_of_mem_filter hc)
  have hnonneg : ∀ call ∈ kept calls, 0 ≤ call.c := fun call hc => (hkept call hc).2.2
  have hsmall : ∀ call ∈ kept calls, call.c < 2 ^ 31 := by
    intro call hc
    have hall : ∀ c ∈ (kept calls).map Call.c, 0 ≤ c := List.forall_mem_map.mpr hnonneg
    have hle := List.single_le_sum hall _ (List.mem_map_of_mem hc)
    rw [sum_kept] at hle
    exact hle.trans_lt htotal
  have hshape : Shaped n (kept calls) { G with s, t }.shape :=
    ⟨hbuilt.n_eq, hbuilt.m_eq, hbuilt.shaped.forth, hbuilt.shaped.back, hbuilt.listed⟩
  have hw := hshape.wf fun call hc =>
    ⟨(hkept call hc).1, (hkept call hc).2.1, hnonneg call hc, hsmall call hc⟩
  have hmax : ∀ fl flow, Balanced { G with s, t }.shape fl flow →
      flow ≤ (calls.map Call.c).sum := by
    intro fl flow hb
    rw [← sum_kept]
    exact hb.le_total hshape hst hnonneg
  have hlevels : ∀ v < G.n, G.d v < G.n := fun v hv => hbuilt.levels v ▸ Nat.zero_lt_of_lt hv
  have hbound : (calls.map Call.c).sum - 0 + (G.n + G.m + 3 : Nat) ≤
      ((calls.map Call.c).sum + (G.n + G.m + 3 : Nat)).toNat := by
    rw [Int.sub_zero]
    exact Int.self_le_toNat _
  obtain ⟨v, G', hrun, hsame, hb, hsep⟩ := phases_ok (G := { G with s, t }) hw
    (hbuilt.n_eq ▸ hs) (hbuilt.n_eq ▸ ht) hst hlevels htotal hmax (hbuilt.balanced hw hnonneg)
    le_rfl hbound
  rw [← hsame] at hb hsep hshape
  exact ⟨G, v, G', _, hbuild, fun fuel hfuel => Maxflow_mono hrun hfuel,
    hb.maximum hsep hshape (congrArg Shape.s hsame) (congrArg Shape.t hsame)⟩

/-- Two ways of two edges each, and one call that makes none. -/
theorem two_ways_maximum : ∃ G v G' bound,
    build 6 [⟨0, 1, 3⟩, ⟨1, 3, 2⟩, ⟨0, 2, 4⟩, ⟨2, 3, 5⟩, ⟨4, 5, 0⟩] = .ok G ∧
      (∀ fuel ≥ bound, Maxflow fuel 0 3 G = .ok (v, G')) ∧
      Maximum (kept [⟨0, 1, 3⟩, ⟨1, 3, 2⟩, ⟨0, 2, 4⟩, ⟨2, 3, 5⟩, ⟨4, 5, 0⟩]) 0 3 v G' :=
  maxflow_maximum (by decide) (by decide) (by decide) (by decide) (by decide) (by decide)

end Riscv32Cpu.Microbench.Dinic
