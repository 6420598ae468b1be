/- module: Riscv32Cpu/Microbench/Dinic/Levels
   source: CODE/am-kernels/benchmarks/microbench/src/dinic/dinic.cc
   digest: The breadth-first search: levels of what free edges reach, and a cut where `t` is not. -/

import Riscv32Cpu.Microbench.Dinic.Residual

set_option autoImplicit false
set_option relaxedAutoImplicit false

namespace Riscv32Cpu.Microbench.Dinic

/-- The search has enqueued `qr` vertices, and has looked at the edges of `qf` of them. Vertices
that it has not come to keep the levels of an earlier search. -/
structure Searched (G : Graph) (qf qr : Nat) : Prop where
  le : qf ≤ qr
  entry : ∀ k < qr, G.queue k < G.n ∧ G.vis (G.queue k) = true
  entered : ∀ v < G.n, G.vis v = true → ∃ k < qr, G.queue k = v
  inj : ∀ j < qr, ∀ k < qr, G.queue j = G.queue k → j = k
  source : G.vis G.s = true ∧ G.d G.s = 0
  level : ∀ k < qr, G.d (G.queue k) ≤ k
  levels : ∀ v < G.n, G.d v < G.n
  parent : ∀ v < G.n, G.vis v = true → v ≠ G.s → ∃ i, G.shape.Free G.flows i ∧
    G.shape.dst i = v ∧ G.vis (G.shape.src i) = true ∧ G.d v = G.d (G.shape.src i) + 1
  closed : ∀ k < qf, ∀ i, G.shape.Free G.flows i → G.shape.src i = G.queue k →
    G.vis (G.shape.dst i) = true

variable {G : Graph} {qf qr i : Nat}

/-- The vertices that have been enqueued. -/
def Graph.enqueued (G : Graph) (qr : Nat) : Finset Nat := (Finset.range qr).image G.queue

theorem Searched.card_enqueued (h : Searched G qf qr) : (G.enqueued qr).card = qr := by
  rw [Graph.enqueued, Finset.card_image_of_injOn, Finset.card_range]
  intro j hj k hk heq
  exact h.inj j (Finset.mem_range.mp hj) k (Finset.mem_range.mp hk) heq

theorem Searched.of_mem_enqueued (h : Searched G qf qr) {v : Nat} (hv : v ∈ G.enqueued qr) :
    v < G.n ∧ G.vis v = true := by
  obtain ⟨k, hk, rfl⟩ := Finset.mem_image.mp hv
  exact h.entry k (Finset.mem_range.mp hk)

theorem Searched.qr_le (h : Searched G qf qr) : qr ≤ G.n := by
  have hsub : G.enqueued qr ⊆ Finset.range G.n := fun v hv =>
    Finset.mem_range.mpr (h.of_mem_enqueued hv).1
  calc qr = (G.enqueued qr).card := h.card_enqueued.symm
    _ ≤ (Finset.range G.n).card := Finset.card_le_card hsub
    _ = G.n := Finset.card_range G.n

theorem Searched.room (h : Searched G qf qr) {v : Nat} (hv : v < G.n) (hnew : G.vis v = false) :
    qr < G.n := by
  refine Nat.lt_of_le_of_ne h.qr_le fun hfull => ?_
  have hall : G.enqueued qr = Finset.range G.n := by
    refine Finset.eq_of_subset_of_card_le (fun w hw => ?_) ?_
    · exact Finset.mem_range.mpr (h.of_mem_enqueued hw).1
    · rw [Finset.card_range, h.card_enqueued, hfull]
  have hvis := (h.of_mem_enqueued (hall ▸ Finset.mem_range.mpr hv)).2
  rw [hnew] at hvis
  cases hvis

theorem Searched.discover (h : Searched G qf qr) (hw : G.shape.Wf) (hq : qf < qr)
    (hfree : G.shape.Free G.flows i) (hsrc : G.shape.src i = G.queue qf)
    (hnew : G.vis (G.shape.dst i) = false) :
    Searched { G with
      vis := Function.update G.vis (G.shape.dst i) true
      d := Function.update G.d (G.shape.dst i) (G.d (G.queue qf) + 1)
      queue := Function.update G.queue qr (G.shape.dst i) } qf (qr + 1) := by
  have hdst := hw.dst_lt hfree.1
  have hroom := h.room hdst hnew
  have hseen : ∀ v, G.vis v = true → v ≠ G.shape.dst i := by
    rintro v hv rfl
    rw [hnew] at hv
    cases hv
  have hvis : ∀ v, G.vis v = true → Function.update G.vis (G.shape.dst i) true v = true := by
    intro v hv
    rw [Function.update_of_ne (hseen v hv), hv]
  have hqueue : ∀ k < qr, Function.update G.queue qr (G.shape.dst i) k = G.queue k := by
    intro k hk
    exact Function.update_of_ne hk.ne _ _
  have hd : ∀ v, G.vis v = true →
      Function.update G.d (G.shape.dst i) (G.d (G.queue qf) + 1) v = G.d v := by
    intro v hv
    exact Function.update_of_ne (hseen v hv) _ _
  have hcase : ∀ k < qr + 1, k < qr ∨ k = qr :=
    fun k hk => Nat.lt_or_eq_of_le (Nat.lt_succ_iff.mp hk)
  constructor
  case le => exact h.le.trans (Nat.le_succ qr)
  case entry =>
    intro k hk
    simp only
    rcases hcase k hk with hk | rfl
    · rw [hqueue k hk]
      exact ⟨(h.entry k hk).1, hvis _ (h.entry k hk).2⟩
    · rw [Function.update_self, Function.update_self]
      exact ⟨hdst, rfl⟩
  case entered =>
    intro v hv hvis'
    simp only at hvis' ⊢
    by_cases hvd : v = G.shape.dst i
    · refine ⟨qr, Nat.lt_succ_self qr, ?_⟩
      rw [Function.update_self, hvd]
    · rw [Function.update_of_ne hvd] at hvis'
      obtain ⟨k, hk, hkv⟩ := h.entered v hv hvis'
      exact ⟨k, Nat.lt_succ_of_lt hk, (hqueue k hk).trans hkv⟩
  case inj =>
    intro j hj k hk heq
    simp only at heq
    rcases hcase j hj with hj | rfl <;> rcases hcase k hk with hk | rfl
    · rw [hqueue j hj, hqueue k hk] at heq
      exact h.inj j hj k hk heq
    · rw [hqueue j hj, Function.update_self] at heq
      exact absurd heq (hseen _ (h.entry j hj).2)
    · rw [hqueue k hk, Function.update_self] at heq
      exact absurd heq.symm (hseen _ (h.entry k hk).2)
    · rfl
  case source => exact ⟨hvis _ h.source.1, (hd _ h.source.1).trans h.source.2⟩
  case level =>
    intro k hk
    simp only
    rcases hcase k hk with hk | rfl
    · rw [hqueue k hk, hd _ (h.entry k hk).2]
      exact h.level k hk
    · rw [Function.update_self, Function.update_self]
      have := h.level qf hq
      omega
  case levels =>
    intro v hv
    simp only
    by_cases hvd : v = G.shape.dst i
    · rw [hvd, Function.update_self]
      have := h.level qf hq
      omega
    · rw [Function.update_of_ne hvd]
      exact h.levels v hv
  case parent =>
    intro v hv hvis' hvs
    simp only at hvis' ⊢
    by_cases hvd : v = G.shape.dst i
    · have hx := (h.entry qf hq).2
      have hsrcvis : G.vis (G.shape.src i) = true := hsrc ▸ hx
      refine ⟨i, hfree, hvd.symm, hvis _ hsrcvis, ?_⟩
      rw [hvd, Function.update_self, hd _ hsrcvis, hsrc]
    · rw [Function.update_of_ne hvd] at hvis'
      obtain ⟨j, hj, hjv, hjvis, hjd⟩ := h.parent v hv hvis' hvs
      refine ⟨j, hj, hjv, hvis _ hjvis, ?_⟩
      rw [hd v hvis', hd _ hjvis]
      exact hjd
  case closed =>
    intro k hk j hj hjk
    simp only at hjk ⊢
    rw [hqueue k (hk.trans hq)] at hjk
    exact hvis _ (h.closed k hk j hj hjk)

theorem Searched.advance (h : Searched G qf qr) (hq : qf < qr)
    (hall : ∀ i, G.shape.Free G.flows i → G.shape.src i = G.queue qf →
      G.vis (G.shape.dst i) = true) : Searched G (qf + 1) qr := by
  refine { h with le := hq, closed := fun k hk i hi hsrc => ?_ }
  rcases Nat.lt_or_eq_of_le (Nat.lt_succ_iff.mp hk) with hk | rfl
  · exact h.closed k hk i hi hsrc
  · exact hall i hi hsrc

theorem bfsEdges_ok (hw : G.shape.Wf) (h : Searched G qf qr) (hq : qf < qr) {l : List Nat}
    {p : Option Nat} (hl : Listed G.nxt p l)
    (hsrc : ∀ i ∈ l, i < G.m ∧ G.shape.src i = G.queue qf) {fuel : Nat} (hfuel : l.length < fuel) :
    ∃ vis d queue qr', bfsEdges (G.queue qf) fuel p G qr = .ok ({ G with vis, d, queue }, qr') ∧
      Searched { G with vis, d, queue } qf qr' ∧ qr ≤ qr' ∧ queue qf = G.queue qf ∧
      (∀ v, G.vis v = true → vis v = true) ∧
      ∀ i ∈ l, G.shape.Free G.flows i → vis (G.shape.dst i) = true := by
  induction l generalizing G qr p fuel with
  | nil =>
    obtain rfl : p = none := hl
    obtain ⟨fuel, rfl⟩ : ∃ k, fuel = k + 1 := ⟨fuel - 1, by omega⟩
    exact ⟨G.vis, G.d, G.queue, qr, rfl, h, le_rfl, rfl, fun _ hv => hv, fun i hi => by cases hi⟩
  | cons i l ih =>
    obtain ⟨rfl, -, htail⟩ := hl
    obtain ⟨fuel, rfl⟩ : ∃ k, fuel = k + 1 := ⟨fuel - 1, by omega⟩
    have hlen : l.length < fuel := Nat.succ_lt_succ_iff.mp hfuel
    obtain ⟨him, hix⟩ := hsrc i (List.mem_cons_self ..)
    have hrest : ∀ j ∈ l, j < G.m ∧ G.shape.src j = G.queue qf :=
      fun j hj => hsrc j (List.mem_cons_of_mem i hj)
    rw [bfsEdges]
    by_cases hfound : G.vis (G.edges i).dst = false ∧ (G.edges i).cap > (G.edges i).flow
    · have hfree : G.shape.Free G.flows i := ⟨him, hfound.2⟩
      have hnext := h.discover hw hq hfree hix hfound.1
      have hroom : qr < G.n := h.room (hw.dst_lt him) hfound.1
      have hx : Function.update G.queue qr (G.shape.dst i) qf = G.queue qf :=
        Function.update_of_ne hq.ne _ _
      obtain ⟨vis, d, queue, qr', hrun, hs, hle, hqf, hmono, hall⟩ :=
        ih (G := { G with
          vis := Function.update G.vis (G.shape.dst i) true
          d := Function.update G.d (G.shape.dst i) (G.d (G.queue qf) + 1)
          queue := Function.update G.queue qr (G.shape.dst i) })
          hw hnext (Nat.lt_succ_of_lt hq) htail (fun j hj => by
            simp only [hx]
            exact hrest j hj) hlen
      simp only [hx] at hrun hqf
      refine ⟨vis, d, queue, qr', ?_, hs, Nat.le_of_succ_le hle, hqf, fun v hv => ?_, ?_⟩
      · rw [if_pos hfound]
        simp only [Graph.enqueue, if_pos hroom]
        exact hrun
      · refine hmono v ?_
        simp only
        by_cases hvd : v = G.shape.dst i
        · rw [hvd, Function.update_self]
        · rw [Function.update_of_ne hvd, hv]
      · intro j hj hjfree
        rcases List.mem_cons.mp hj with rfl | hj
        · exact hmono _ (Function.update_self _ _ _)
        · exact hall j hj hjfree
    · rw [if_neg hfound]
      obtain ⟨vis, d, queue, qr', hrun, hs, hle, hqf, hmono, hall⟩ := ih hw h hq htail hrest hlen
      refine ⟨vis, d, queue, qr', hrun, hs, hle, hqf, hmono, fun j hj hjfree => ?_⟩
      rcases List.mem_cons.mp hj with rfl | hj
      · refine hmono _ ?_
        by_contra hunseen
        exact hfound ⟨Bool.eq_false_iff.mpr hunseen, hjfree.2⟩
      · exact hall j hj hjfree

theorem bfsLoop_ok (hw : G.shape.Wf) (h : Searched G qf qr) {fuel : Nat}
    (hfuel : G.n + G.m + 2 ≤ fuel + qf) :
    ∃ vis d queue q, bfsLoop fuel G qf qr = .ok { G with vis, d, queue } ∧
      Searched { G with vis, d, queue } q q := by
  induction fuel generalizing G qf qr with
  | zero =>
    have := h.le.trans h.qr_le
    omega
  | succ fuel ih =>
    rw [bfsLoop]
    by_cases heq : qf = qr
    · rw [if_neg (not_not_intro heq)]
      exact ⟨G.vis, G.d, G.queue, qr, rfl, heq ▸ h⟩
    · have hq : qf < qr := Nat.lt_of_le_of_ne h.le heq
      have hqn := h.qr_le
      have hlen : (G.shape.edgesOf (G.queue qf)).length < fuel := by
        have := length_edgesOf_le G.shape (G.queue qf)
        simp only at this
        omega
      have hlisted : Listed G.nxt (G.head (G.queue qf)) (G.shape.edgesOf (G.queue qf)) :=
        hw.listed _ (h.entry qf hq).1
      obtain ⟨vis, d, queue, qr', hrun, hs, hle, hqf, hmono, hall⟩ :=
        bfsEdges_ok hw h hq hlisted (fun i hi => mem_edgesOf.mp hi) hlen
      have hadv : Searched { G with vis, d, queue } (qf + 1) qr' := by
        refine hs.advance (hq.trans_le hle) fun i hi hsrc => ?_
        simp only [hqf] at hsrc
        exact hall i (mem_edgesOf.mpr ⟨hi.1, hsrc⟩) hi
      rw [if_pos heq]
      show ∃ vis d queue q, (bfsEdges (G.queue qf) fuel (G.head (G.queue qf)) G qr >>= _) = _ ∧ _
      rw [hrun]
      obtain ⟨vis', d', queue', q, hloop, hs'⟩ :=
        ih (G := { G with vis, d, queue }) hw hadv (by simp only; omega)
      exact ⟨vis', d', queue', q, hloop, hs'⟩

/-- Only `s` has been enqueued. -/
def Graph.atSource (G : Graph) : Graph :=
  { G with
    vis := Function.update (fun i => if i < G.n then false else G.vis i) G.s true
    d := Function.update G.d G.s 0
    queue := Function.update G.queue 0 G.s }

theorem searched_atSource (hs : G.s < G.n) (hlevels : ∀ v < G.n, G.d v < G.n) :
    Searched G.atSource 0 1 := by
  have honly : ∀ v < G.n, G.atSource.vis v = true → v = G.s := by
    intro v hv hvis
    by_contra hne
    simp [Graph.atSource, hne, hv] at hvis
  constructor
  case le => exact Nat.zero_le 1
  case entry =>
    intro k hk
    obtain rfl := Nat.lt_one_iff.mp hk
    simp only [Graph.atSource, Function.update_self]
    exact ⟨hs, trivial⟩
  case entered =>
    intro v hv hvis
    refine ⟨0, Nat.one_pos, ?_⟩
    rw [honly v hv hvis]
    exact Function.update_self (f := G.queue) 0 G.s
  case inj =>
    intro j hj k hk _
    omega
  case source => constructor <;> simp only [Graph.atSource, Function.update_self]
  case level =>
    intro k hk
    obtain rfl := Nat.lt_one_iff.mp hk
    simp only [Graph.atSource, Function.update_self]
    exact le_rfl
  case levels =>
    intro v hv
    simp only [Graph.atSource]
    by_cases hvs : v = G.s
    · rw [hvs, Function.update_self]
      exact Nat.zero_lt_of_lt hs
    · rw [Function.update_of_ne hvs]
      exact hlevels v hv
  case parent =>
    intro v hv hvis hvs
    exact absurd (honly v hv hvis) hvs
  case closed =>
    intro k hk
    cases hk

theorem BFS_ok (hw : G.shape.Wf) (hs : G.s < G.n) (hlevels : ∀ v < G.n, G.d v < G.n) {fuel : Nat}
    (hfuel : G.n + G.m + 2 ≤ fuel) :
    ∃ vis d queue q, BFS fuel G = .ok (vis G.t, { G with vis, d, queue }) ∧
      Searched { G with vis, d, queue } q q := by
  obtain ⟨vis, d, queue, q, hrun, hend⟩ :=
    bfsLoop_ok (G := G.atSource) hw (searched_atSource hs hlevels) hfuel
  refine ⟨vis, d, queue, q, ?_, hend⟩
  have hroom : 0 < G.n := Nat.zero_lt_of_lt hs
  rw [BFS]
  simp only [Graph.enqueue, if_pos hroom]
  show (bfsLoop fuel G.atSource 0 1 >>= _) = _
  rw [hrun]
  rfl

variable {q : Nat}

theorem Searched.open_source (h : Searched G q q) {v : Nat} (hw : G.shape.Wf) (hv : v < G.n)
    (hvis : G.vis v = true) (hopen : G.shape.Open G.d G.flows v) :
    G.shape.Open G.d G.flows G.s := by
  induction hlevel : G.d v generalizing v with
  | zero =>
    by_cases hvs : v = G.s
    · exact hvs ▸ hopen
    · obtain ⟨i, -, -, -, hd⟩ := h.parent v hv hvis hvs
      omega
  | succ k ih =>
    by_cases hvs : v = G.s
    · exact hvs ▸ hopen
    · obtain ⟨i, hfree, rfl, hsrc, hd⟩ := h.parent v hv hvis hvs
      exact ih (hw.src_lt i hfree.1) hsrc (.edge hfree hd.symm hopen) (by omega)

theorem Searched.cut (h : Searched G q q) (hw : G.shape.Wf) (hfree : G.shape.Free G.flows i)
    (hsrc : G.vis (G.shape.src i) = true) : G.vis (G.shape.dst i) = true := by
  obtain ⟨k, hk, hkv⟩ := h.entered _ (hw.src_lt i hfree.1) hsrc
  exact h.closed k hk i hfree hkv.symm

end Riscv32Cpu.Microbench.Dinic
