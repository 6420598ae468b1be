/- module: Riscv32Cpu/Microbench/Dinic/Augment
   source: CODE/am-kernels/benchmarks/microbench/src/dinic/dinic.cc
   digest: The depth-first search: what it sends from a vertex to `t`, whatever the levels are. -/

import Riscv32Cpu.Microbench.Dinic.Residual

set_option autoImplicit false
set_option relaxedAutoImplicit false

namespace Riscv32Cpu.Microbench.Dinic

/-- `f` of at most `a` has been sent from `x` to `t`. Edges from lower levels are as they were. -/
structure Sent (N : Shape) (d : Nat → Nat) (fl : Nat → Int) (x : Nat) (a f : Int)
    (fl' : Nat → Int) : Prop where
  nonneg : 0 ≤ f
  le : f ≤ a
  feasible : N.Feasible fl'
  out : ∀ v, N.out fl' v = N.out fl v + (if v = x then f else 0) - if v = N.t then f else 0
  frame : ∀ i < N.m, d (N.src i) < d x → fl' i = fl i
  same : f = 0 → fl' = fl

variable {N : Shape} {d : Nat → Nat} {fl fl' fl'' : Nat → Int} {x i : Nat} {a b f g : Int}

theorem sent_zero (h : N.Feasible fl) (ha : 0 ≤ a) : Sent N d fl x a 0 fl where
  nonneg := le_rfl
  le := ha
  feasible := h
  out v := by simp
  frame _ _ _ := rfl
  same _ := rfl

theorem sent_target (h : N.Feasible fl) (ha : 0 ≤ a) : Sent N d fl N.t a a fl where
  nonneg := ha
  le := le_rfl
  feasible := h
  out v := by simp
  frame _ _ _ := rfl
  same _ := rfl

theorem Sent.through (h : Sent N d fl (N.dst i) b f fl') (hw : N.Wf) (hi : i < N.m)
    (hlevel : d (N.src i) + 1 = d (N.dst i)) (hba : b ≤ a) (hbroom : b ≤ N.cap i - fl i)
    (hf : 0 < f) : Sent N d fl (N.src i) a f (push fl' i f) where
  nonneg := h.nonneg
  le := h.le.trans hba
  feasible := by
    have hkept := h.frame i hi (by omega)
    refine h.feasible.push h.nonneg ?_
    rw [hkept]
    exact h.le.trans hbroom
  out v := by
    rw [out_push hw hi, h.out v]
    simp only [eq_comm (a := v)]
    omega
  frame j hj hlow := by
    have hji : j ≠ i := by
      rintro rfl
      omega
    have hjp : j ≠ i ^^^ 1 := by
      rintro rfl
      rw [hw.pair_src i hi] at hlow
      omega
    rw [push_of_ne hji hjp]
    exact h.frame j hj (by omega)
  same hzero := absurd hzero hf.ne'

theorem Sent.trans (h : Sent N d fl x a f fl') (h' : Sent N d fl' x (a - f) g fl'') :
    Sent N d fl x a (f + g) fl'' where
  nonneg := add_nonneg h.nonneg h'.nonneg
  le := by
    have := h'.le
    omega
  feasible := h'.feasible
  out v := by
    rw [h'.out v, h.out v]
    split_ifs <;> omega
  frame i hi hlow := (h'.frame i hi hlow).trans (h.frame i hi hlow)
  same hzero := by
    have hf := h.nonneg
    have hg := h'.nonneg
    rw [h'.same (by omega), h.same (by omega)]

/-- A search that sends something where there is a way. -/
def Sends (G : Graph) (dfs : Nat → Int → Graph → Except Stop (Int × Graph)) (y : Nat) : Prop :=
  ∀ a fl, 0 ≤ a → a < 2 ^ 31 → G.shape.Feasible fl → ∃ f fl',
    dfs y a (G.setFlows fl) = .ok (f, G.setFlows fl') ∧ Sent G.shape G.d fl y a f fl' ∧
    (0 < a → G.shape.Open G.d fl y → 0 < f)

variable {G : Graph} {dfs : Nat → Int → Graph → Except Stop (Int × Graph)}

theorem dfsEdges_ok (hw : G.shape.Wf)
    (hdfs : ∀ y < G.n, G.d x + 1 = G.d y → Sends G dfs y) {l : List Nat} {p : Option Nat}
    (hl : Listed G.nxt p l) (hsrc : ∀ i ∈ l, i < G.m ∧ G.shape.src i = x) {fuel : Nat}
    (hfuel : l.length < fuel) {flow : Int} (hflow : 0 ≤ flow) (ha : 0 < a)
    (hmax : flow + a < 2 ^ 31) (h : G.shape.Feasible fl) :
    ∃ f fl', dfsEdges dfs x fuel p flow a (G.setFlows fl) = .ok (flow + f, G.setFlows fl') ∧
      Sent G.shape G.d fl x a f fl' ∧
      ((∃ i ∈ l, G.shape.Free fl i ∧ G.d x + 1 = G.d (G.shape.dst i) ∧
        G.shape.Open G.d fl (G.shape.dst i)) → 0 < f) := by
  induction l generalizing p fuel flow a fl with
  | nil =>
    obtain rfl : p = none := hl
    obtain ⟨fuel, rfl⟩ : ∃ k, fuel = k + 1 := ⟨fuel - 1, by omega⟩
    refine ⟨0, fl, ?_, sent_zero h ha.le, fun ⟨i, hi, _⟩ => by cases hi⟩
    rw [add_zero]
    rfl
  | cons i l ih =>
    obtain ⟨rfl, -, htail⟩ := hl
    change Listed G.nxt (G.nxt i) l at htail
    obtain ⟨fuel, rfl⟩ : ∃ k, fuel = k + 1 := ⟨fuel - 1, by omega⟩
    have hlen : l.length < fuel := Nat.succ_lt_succ_iff.mp hfuel
    obtain ⟨him, rfl⟩ := hsrc i (List.mem_cons_self ..)
    have hrest : ∀ j ∈ l, j < G.m ∧ G.shape.src j = G.shape.src i :=
      fun j hj => hsrc j (List.mem_cons_of_mem i hj)
    rw [dfsEdges]
    by_cases hlevel : G.d (G.shape.src i) + 1 = G.d (G.shape.dst i)
    · have hroom := h.room hw him
      have hint : int (G.shape.cap i - fl i) = G.shape.cap i - fl i := int_eq (by omega) hroom.2
      have hmin : 0 ≤ min a (G.shape.cap i - fl i) := le_min ha.le hroom.1
      obtain ⟨f, fl₁, hrun, hsent, hlive⟩ := hdfs _ (hw.dst_lt him) hlevel
        (min a (G.shape.cap i - fl i)) fl hmin (by omega) h
      have hcall : dfs (G.shape.dst i) (min a (int (G.shape.cap i - fl i))) (G.setFlows fl) =
          .ok (f, G.setFlows fl₁) := by rw [hint, hrun]
      show ∃ f fl', (if G.d (G.shape.src i) + 1 = G.d (G.shape.dst i) then
        dfs (G.shape.dst i) (min a (int (G.shape.cap i - fl i))) (G.setFlows fl) >>= _ else _) =
          _ ∧ _
      rw [if_pos hlevel, hcall]
      by_cases hf : 0 < f
      · have hthrough :=
          hsent.through (a := a) hw him hlevel (min_le_left _ _) (min_le_right _ _) hf
        have hle := hthrough.le
        have haug : (G.setFlows fl₁).augment i f = G.setFlows (push fl₁ i f) := by
          refine augment_setFlows hw hsent.feasible him hf.le ?_
          rw [hsent.frame i him (by omega)]
          exact hsent.le.trans (min_le_right _ _)
        have hflow' : int (flow + f) = flow + f := int_eq (by omega) (by omega)
        have ha' : int (a - f) = a - f := int_eq (by omega) (by omega)
        show ∃ f' fl', (if f > 0 then if int (a - f) = 0 then
            .ok (int (flow + f), (G.setFlows fl₁).augment i f)
          else dfsEdges dfs (G.shape.src i) fuel (G.nxt i) (int (flow + f)) (int (a - f))
            ((G.setFlows fl₁).augment i f) else _) = _ ∧ _
        rw [if_pos hf, haug, hflow', ha']
        by_cases hdone : a - f = 0
        · rw [if_pos hdone]
          exact ⟨f, _, rfl, hthrough, fun _ => hf⟩
        · rw [if_neg hdone]
          obtain ⟨g, fl₂, hrun', hsent', -⟩ := ih (a := a - f) htail hrest hlen
            (add_nonneg hflow hf.le) (by omega) (by omega) hthrough.feasible
          refine ⟨f + g, fl₂, ?_, hthrough.trans hsent', fun _ => ?_⟩
          · rw [hrun', add_assoc]
          · have := hsent'.nonneg
            omega
      · have hzero : f = 0 := le_antisymm (not_lt.mp hf) hsent.nonneg
        have hsame := hsent.same hzero
        show ∃ f' fl', (if f > 0 then _ else dfsEdges dfs (G.shape.src i) fuel (G.nxt i) flow a
          (G.setFlows fl₁)) = _ ∧ _
        rw [if_neg hf, hsame]
        obtain ⟨g, fl₂, hrun', hsent', hlive'⟩ := ih htail hrest hlen hflow ha hmax h
        refine ⟨g, fl₂, hrun', hsent', ?_⟩
        rintro ⟨j, hj, hfree, hjlevel, hopen⟩
        rcases List.mem_cons.mp hj with rfl | hj
        · -- the search over this edge would have sent something
          have hpos : 0 < min a (G.shape.cap j - fl j) := lt_min ha (Int.sub_pos_of_lt hfree.2)
          exact absurd (hlive hpos hopen) hf
        · exact hlive' ⟨j, hj, hfree, hjlevel, hopen⟩
    · show ∃ f fl', (if G.d (G.shape.src i) + 1 = G.d (G.shape.dst i) then _ else
        dfsEdges dfs (G.shape.src i) fuel (G.nxt i) flow a (G.setFlows fl)) = _ ∧ _
      rw [if_neg hlevel]
      obtain ⟨g, fl₂, hrun', hsent', hlive'⟩ := ih htail hrest hlen hflow ha hmax h
      refine ⟨g, fl₂, hrun', hsent', ?_⟩
      rintro ⟨j, hj, hfree, hjlevel, hopen⟩
      rcases List.mem_cons.mp hj with rfl | hj
      · exact absurd hjlevel hlevel
      · exact hlive' ⟨j, hj, hfree, hjlevel, hopen⟩

/-- The search goes up one level at each call, so it ends even where levels are left over from an
earlier search. -/
theorem DFS_ok (hw : G.shape.Wf) (hlevels : ∀ v < G.n, G.d v < G.n)
    (hcur : ∀ v < G.n, G.cur v = G.head v) {fuel : Nat} (hx : x < G.n)
    (hfuel : G.n + G.m + 2 ≤ fuel + G.d x) : Sends G (DFS fuel) x := by
  induction fuel generalizing x with
  | zero =>
    have := hlevels x hx
    omega
  | succ fuel ih =>
    intro a fl hnonneg hmax h
    rw [DFS]
    by_cases hstop : x = G.t ∨ a = 0
    · refine ⟨a, fl, if_pos hstop, ?_, fun ha _ => ha⟩
      rcases hstop with rfl | rfl
      · exact sent_target h hnonneg
      · exact sent_zero h le_rfl
    · obtain ⟨hxt, ha⟩ := not_or.mp hstop
      have hpos : 0 < a := lt_of_le_of_ne hnonneg (Ne.symm ha)
      have hlisted : Listed G.nxt (G.cur x) (G.shape.edgesOf x) := by
        rw [hcur x hx]
        exact hw.listed x hx
      have hlen : (G.shape.edgesOf x).length < fuel := by
        have hle := length_edgesOf_le G.shape x
        have hlow := hlevels x hx
        simp only at hle
        omega
      obtain ⟨f, fl', hrun, hsent, hlive⟩ := dfsEdges_ok hw
        (fun y hy hlevel => ih hy (by omega)) hlisted (fun i hi => mem_edgesOf.mp hi) hlen
        le_rfl hpos (by omega) h
      rw [zero_add] at hrun
      refine ⟨f, fl', (if_neg hstop).trans hrun, hsent, fun _ hopen => hlive ?_⟩
      cases hopen with
      | target => exact absurd rfl hxt
      | edge hfree hlevel hrest =>
        exact ⟨_, mem_edgesOf.mpr ⟨hfree.1, rfl⟩, hfree, hlevel, hrest⟩

end Riscv32Cpu.Microbench.Dinic
