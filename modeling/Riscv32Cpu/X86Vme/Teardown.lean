/- module: Riscv32Cpu/X86Vme/Teardown
   source: CODE/abstract-machine/am/src/x86/qemu/vme.c
   digest: `teardown` frees each table of a tree once and touches nothing else. -/

import Mathlib.Data.Set.Basic
import Mathlib.Data.List.Nodup
import Riscv32Cpu.X86Vme.Walk

set_option autoImplicit false
set_option relaxedAutoImplicit false

namespace Riscv32Cpu.X86Vme.Teardown

open Riscv32Cpu.Lib.Effect Riscv32Cpu.Lib.Trees
open Riscv32Cpu.X86Vme.Config Riscv32Cpu.X86Vme.Model
open Riscv32Cpu.X86Vme.Tables Riscv32Cpu.X86Vme.Walk

variable {a : Arch} {α : Type}

/-- From `s` to `s'` the pages at the places `N` of the tree `sp` were freed, once each. -/
structure Freed (F : Forest (Space α) (Loc a α)) (sp : Space α) (N : Set (List Nat))
    (l : List (Word a)) (s s' : St a α) : Prop where
  freed : s'.freed = l.map .page ++ s.freed
  nodup : l.Nodup
  mem_iff : ∀ p, p ∈ l ↔ ∃ π ∈ N, F.node sp π = some (.page p)
  others : ∀ t, (∀ π ∈ N, F.node sp π ≠ some t) → s'.mem t = s.mem t
  tables : ∀ q, q ∈ s'.tables ↔ q ∈ s.tables ∧ q ∉ l
  owned : s'.owned = s.owned
  kpt : s'.kpt = s.kpt

variable {F : Forest (Space α) (Loc a α)} {sp : Space α} {N N' : Set (List Nat)}
  {l l' : List (Word a)} {s s' s'' : St a α}

theorem Freed.refl (h : ∀ π ∈ N, ∀ p, F.node sp π ≠ some (.page p)) : Freed F sp N [] s s where
  freed := rfl
  nodup := List.nodup_nil
  mem_iff p := by
    constructor
    · rintro ⟨⟩
    · rintro ⟨π, hπ, hp⟩
      exact absurd hp (h π hπ p)
  others _ _ := rfl
  tables q := ⟨fun hq => ⟨hq, List.not_mem_nil⟩, fun hq => hq.1⟩
  owned := rfl
  kpt := rfl

theorem Freed.trans (hdisjoint : ∀ π ∈ N, π ∉ N') (h : Freed F sp N l s s')
    (h' : Freed F sp N' l' s' s'') : Freed F sp (N ∪ N') (l' ++ l) s s'' where
  freed := by rw [h'.freed, h.freed, List.map_append, List.append_assoc]
  nodup := by
    refine List.nodup_append'.mpr ⟨h'.nodup, h.nodup, ?_⟩
    intro p hp' hp
    obtain ⟨π', hπ', hnode'⟩ := (h'.mem_iff p).mp hp'
    obtain ⟨π, hπ, hnode⟩ := (h.mem_iff p).mp hp
    obtain rfl := (F.inj hnode hnode').2
    exact hdisjoint π hπ hπ'
  mem_iff p := by
    rw [List.mem_append, h'.mem_iff, h.mem_iff]
    constructor
    · rintro (⟨π, hπ, hp⟩ | ⟨π, hπ, hp⟩)
      · exact ⟨π, .inr hπ, hp⟩
      · exact ⟨π, .inl hπ, hp⟩
    · rintro ⟨π, hπ | hπ, hp⟩
      · exact .inr ⟨π, hπ, hp⟩
      · exact .inl ⟨π, hπ, hp⟩
  others t ht := by
    rw [h'.others t fun π hπ => ht π (.inr hπ), h.others t fun π hπ => ht π (.inl hπ)]
  tables q := by
    rw [h'.tables, h.tables, List.mem_append, not_or, and_assoc, and_comm (a := q ∉ l)]
  owned := h'.owned.trans h.owned
  kpt := h'.kpt.trans h.kpt

theorem Freed.mono (hsub : N ⊆ N') (hpages : ∀ π ∈ N', ∀ p, F.node sp π = some (.page p) → π ∈ N)
    (h : Freed F sp N l s s') : Freed F sp N' l s s' where
  freed := h.freed
  nodup := h.nodup
  mem_iff p := by
    rw [h.mem_iff]
    constructor
    · rintro ⟨π, hπ, hp⟩
      exact ⟨π, hsub hπ, hp⟩
    · rintro ⟨π, hπ, hp⟩
      exact ⟨π, hpages π hπ p hp, hp⟩
  others t ht := h.others t fun π hπ => ht π (hsub hπ)
  tables := h.tables
  owned := h.owned
  kpt := h.kpt

variable [DecidableEq α] {al : Allocator a α}

theorem Freed.page {π : List Nat} {p : Word a} (h : F.node sp π = some (.page p)) :
    Freed F sp {π} [p] s (pgfree al (.page p) s) where
  freed := rfl
  nodup := List.nodup_singleton p
  mem_iff q := by
    rw [List.mem_singleton]
    constructor
    · rintro rfl
      exact ⟨π, rfl, h⟩
    · rintro ⟨π', rfl, hq⟩
      cases h.symm.trans hq
      rfl
  others t ht := by
    refine Function.update_of_ne ?_ _ _
    rintro rfl
    exact ht π rfl h
  tables q := by
    show q ∈ s.tables.filter (· ≠ p) ↔ _
    rw [List.mem_filter, List.mem_singleton, decide_eq_true_eq]
  owned := rfl
  kpt := rfl

/-- The body of the loop in `teardown`. -/
def tearEntry (al : Allocator a α) (n : Nat) (pt : Loc a α) (s : St a α) (index : Nat) : St a α :=
  if has (s.mem pt index) pteP && has (s.mem pt index) pteU then
    teardown al n (.page (baseof (s.mem pt index))) s
  else s

theorem teardown_succ (n : Nat) (pt : Loc a α) (s : St a α) :
    teardown al (n + 1) pt s =
      let swept := (List.range (1 <<< (pgtables a (ptlevels a - n)).bits)).foldl
        (tearEntry al n pt) s
      if 1 ≤ ptlevels a - n then pgfree al pt swept else swept := rfl

/-- The places at and below `π`. -/
def below (π : List Nat) : Set (List Nat) := {ρ | π <:+ ρ}

theorem below_child {π ρ : List Nat} {i j : Nat} (hi : ρ ∈ below (i :: π))
    (hj : ρ ∈ below (j :: π)) : i = j := by
  have hsuffix := List.suffix_of_suffix_length_le hi hj (by simp)
  have heq := hsuffix.eq_of_length (by simp)
  exact (List.cons.inj heq).1

theorem below_cases {π ρ : List Nat} (h : ρ ∈ below π) : ρ = π ∨ ∃ i, ρ ∈ below (i :: π) := by
  obtain ⟨σ, rfl⟩ := h
  rcases List.eq_nil_or_concat σ with rfl | ⟨σ, i, rfl⟩
  · exact .inl rfl
  · exact .inr ⟨i, σ, by simp⟩

theorem not_below_child (i : Nat) (π : List Nat) : π ∉ below (i :: π) := by
  intro h
  have hle := List.IsSuffix.length_le h
  rw [List.length_cons] at hle
  omega

section tree
variable {K : Kernel a} {s₀ : St a α} {leaf : Space α → List Nat → Word a} {as : α}

omit [DecidableEq α] in
theorem Freed.missing {π : List Nat} (h : F.node sp π = none) : Freed F sp (below π) [] s s := by
  refine Freed.refl ?_
  rintro ρ ⟨σ, rfl⟩ p hp
  cases (F.none_below h σ).symm.trans hp

/-- One entry: the tables below it are freed when there are any, and they are recognised by the
flags of the entry. -/
theorem tearEntry_spec (h : Inv K.toFrozen s₀ F leaf) {n : Nat} (hn : n ≤ ptlevels a)
    {π : List Nat} (hlen : π.length = ptlevels a - n) {t : Loc a α}
    (ht : F.node (.user as) π = some t) {i : Nat} (hi : i < entries a π)
    (hmem : s.mem t = s₀.mem t)
    (ih : ∀ p, F.node (.user as) (i :: π) = some (.page p) → 0 < n →
      ∃ l, Freed F (.user as) (below (i :: π)) l s (teardown al n (.page p) s)) :
    ∃ l, Freed F (.user as) (below (i :: π)) l s (tearEntry al n t s i) := by
  cases n with
  | zero =>
    -- an entry of the last level: `teardown` returns at once
    have hnone : F.node (.user as) (i :: π) = none := by
      cases hnode : F.node (.user as) (i :: π) with
      | none => rfl
      | some u =>
        have hlt := (h.place hnode).1
        omega
    have hid : tearEntry al 0 t s i = s := by
      unfold tearEntry
      split
      · rfl
      · rfl
    rw [hid]
    exact ⟨[], Freed.missing hnone⟩
  | succ n =>
    unfold tearEntry
    rw [hmem]
    cases hnode : F.node (.user as) (i :: π) with
    | some u =>
      obtain ⟨p, rfl, hp, -⟩ := h.page hnode
      rw [h.link ht hnode, has_or hp pteP_flag, has_or hp pteU_flag, linkFlags_present,
        linkFlags_user, Bool.and_self, if_pos rfl, baseof_or hp (linkFlags_isFlags _ _)]
      exact ih p hnode (Nat.succ_pos n)
    | none =>
      have hskip : (has (s₀.mem t i) pteP && has (s₀.mem t i) pteU) = false := by
        by_cases hs : Shared a (.user as) π i
        · rw [(h.shared ht hs).1, (K.entry hs.root.2).2, Bool.and_false]
        · rw [h.gap ht (by omega) hi hnode hs, Bool.false_and]
      rw [hskip, if_neg Bool.false_ne_true]
      exact ⟨[], Freed.missing hnode⟩

theorem tearLoop_spec (h : Inv K.toFrozen s₀ F leaf) {n : Nat} (hn : n ≤ ptlevels a)
    {π : List Nat} (hlen : π.length = ptlevels a - n) {t : Loc a α}
    (ht : F.node (.user as) π = some t)
    (hmem : ∀ ρ ∈ below π, ∀ u, F.node (.user as) ρ = some u → s.mem u = s₀.mem u)
    (ih : ∀ {i p s'}, F.node (.user as) (i :: π) = some (.page p) → 0 < n →
      (∀ ρ ∈ below (i :: π), ∀ u, F.node (.user as) ρ = some u → s'.mem u = s₀.mem u) →
      ∃ l, Freed F (.user as) (below (i :: π)) l s' (teardown al n (.page p) s'))
    {m : Nat} (hm : m ≤ entries a π) :
    ∃ l, Freed F (.user as) {ρ | ∃ i < m, ρ ∈ below (i :: π)} l s
      ((List.range m).foldl (tearEntry al n t) s) := by
  induction m with
  | zero =>
    refine ⟨[], Freed.refl ?_⟩
    rintro ρ ⟨i, hi, -⟩
    exact absurd hi (Nat.not_lt_zero i)
  | succ m ihm =>
    obtain ⟨l, hl⟩ := ihm (Nat.le_of_succ_le hm)
    -- the loop so far wrote neither this table nor what hangs under entry `m`
    have hkeep : ∀ {ρ u}, F.node (.user as) ρ = some u → (∀ i < m, ρ ∉ below (i :: π)) →
        ((List.range m).foldl (tearEntry al n t) s).mem u = s.mem u := by
      intro ρ u hu hnot
      refine hl.others u ?_
      rintro ρ' ⟨i, hi, hρ'⟩ hu'
      obtain rfl := (F.inj hu hu').2
      exact hnot i hi hρ'
    have htable : ((List.range m).foldl (tearEntry al n t) s).mem t = s₀.mem t := by
      rw [hkeep ht fun i _ => not_below_child i π]
      exact hmem π (List.suffix_refl π) t ht
    have hunder : ∀ ρ ∈ below (m :: π), ∀ u, F.node (.user as) ρ = some u →
        ((List.range m).foldl (tearEntry al n t) s).mem u = s₀.mem u := by
      intro ρ hρ u hu
      rw [hkeep hu fun i hi hi' => Nat.ne_of_lt hi (below_child hi' hρ)]
      exact hmem ρ ((List.suffix_cons m π).trans hρ) u hu
    have hentry : ∃ l, Freed F (.user as) (below (m :: π)) l
        ((List.range m).foldl (tearEntry al n t) s)
        (tearEntry al n t ((List.range m).foldl (tearEntry al n t) s) m) :=
      tearEntry_spec h hn hlen ht hm htable fun p hp hpos => ih hp hpos hunder
    obtain ⟨l', hl'⟩ := hentry
    refine ⟨l' ++ l, ?_⟩
    rw [List.range_succ, List.foldl_append, List.foldl_cons, List.foldl_nil]
    have hboth := hl.trans ?_ hl'
    · have hset : {ρ | ∃ i < m, ρ ∈ below (i :: π)} ∪ below (m :: π) =
          {ρ | ∃ i < m + 1, ρ ∈ below (i :: π)} := by
        ext ρ
        constructor
        · rintro (⟨i, hi, hρ⟩ | hρ)
          · exact ⟨i, Nat.lt_succ_of_lt hi, hρ⟩
          · exact ⟨m, Nat.lt_succ_self m, hρ⟩
        · rintro ⟨i, hi, hρ⟩
          rcases Nat.lt_succ_iff_lt_or_eq.mp hi with hlt | rfl
          · exact .inl ⟨i, hlt, hρ⟩
          · exact .inr hρ
      rwa [hset] at hboth
    · rintro ρ ⟨i, hi, hρ⟩ hρ'
      exact Nat.ne_of_lt hi (below_child hρ hρ')

theorem tearTable_spec (h : Inv K.toFrozen s₀ F leaf) {n : Nat} (hn : n ≤ ptlevels a)
    {π : List Nat} (hlen : π.length = ptlevels a - n) {t : Loc a α}
    (ht : F.node (.user as) π = some t)
    (hmem : ∀ ρ ∈ below π, ∀ u, F.node (.user as) ρ = some u → s.mem u = s₀.mem u)
    (ih : ∀ {i p s'}, F.node (.user as) (i :: π) = some (.page p) → 0 < n →
      (∀ ρ ∈ below (i :: π), ∀ u, F.node (.user as) ρ = some u → s'.mem u = s₀.mem u) →
      ∃ l, Freed F (.user as) (below (i :: π)) l s' (teardown al n (.page p) s')) :
    ∃ l, Freed F (.user as) (below π) l s (teardown al (n + 1) t s) := by
  obtain ⟨l, hl⟩ := tearLoop_spec h hn hlen ht hmem ih le_rfl
  have hsub : {ρ | ∃ i < entries a π, ρ ∈ below (i :: π)} ⊆ below π := by
    rintro ρ ⟨i, -, hρ⟩
    exact (List.suffix_cons i π).trans hρ
  -- a table below hangs under one of the entries
  have hentry : ∀ ρ ∈ below π, ∀ u, F.node (.user as) ρ = some u → ρ ≠ π →
      ∃ i < entries a π, ρ ∈ below (i :: π) := by
    intro ρ hρ u hu hne
    obtain ⟨i, hi⟩ := (below_cases hρ).resolve_left hne
    refine ⟨i, ?_, hi⟩
    cases hchild : F.node (.user as) (i :: π) with
    | some v => exact (h.place hchild).2
    | none =>
      obtain ⟨σ, rfl⟩ := hi
      cases (F.none_below hchild σ).symm.trans hu
  rw [teardown_succ, ← hlen, Nat.one_shiftLeft]
  cases π with
  | nil =>
    refine ⟨l, hl.mono hsub ?_⟩
    intro ρ hρ p hp
    refine hentry ρ hρ _ hp ?_
    rintro rfl
    cases h.slot hp
  | cons j π =>
    obtain ⟨p, rfl, -⟩ := h.page ht
    have hpage : ∀ r, Freed F (.user as) {j :: π} [p] r (pgfree al (.page p) r) :=
      fun r => Freed.page ht
    have hfree := hl.trans ?_ (hpage _)
    · refine ⟨[p] ++ l, hfree.mono (Set.union_subset hsub ?_) ?_⟩
      · rintro ρ rfl
        exact List.suffix_refl _
      · intro ρ hρ q hq
        by_cases hne : ρ = j :: π
        · exact .inr hne
        · exact .inl (hentry ρ hρ _ hq hne)
    · rintro ρ ⟨i, -, hρ⟩ rfl
      exact not_below_child i _ hρ

theorem teardown_spec (h : Inv K.toFrozen s₀ F leaf) {n : Nat} (hn : n ≤ ptlevels a)
    {π : List Nat} (hlen : π.length = ptlevels a - n) {t : Loc a α}
    (ht : F.node (.user as) π = some t)
    (hmem : ∀ ρ ∈ below π, ∀ u, F.node (.user as) ρ = some u → s.mem u = s₀.mem u) :
    ∃ l, Freed F (.user as) (below π) l s (teardown al (n + 1) t s) := by
  induction n generalizing π t s with
  | zero => exact tearTable_spec h hn hlen ht hmem fun _ h0 => absurd h0 (Nat.lt_irrefl 0)
  | succ n ih =>
    refine tearTable_spec h hn hlen ht hmem ?_
    intro i p s' hp _ hmem'
    refine ih (Nat.le_of_succ_le hn) ?_ hp hmem'
    rw [List.length_cons, hlen]
    omega

theorem unprotect_spec (h : Inv K.toFrozen s F leaf) (hslot : F.node (.user as) [] ≠ none)
    (hrun : unprotect al as s = .ok () s') :
    ∃ l : List (Word a), s'.freed = l.map .page ++ s.freed ∧ l.Nodup ∧
      (∀ p, p ∈ l ↔ p ∈ s.owned (.user as)) ∧ s'.kpt = s.kpt ∧
      Inv K.toFrozen s' (F.fell (.user as)) (Function.update leaf (.user as) fun _ => 0#_) := by
  obtain ⟨t, ht⟩ := Option.ne_none_iff_exists'.mp hslot
  obtain rfl := h.slot ht
  cases hrun
  have htear : ∃ l, Freed F (.user as) (below []) l s
      (teardown al (ptlevels a + 1) (.slot (.user as)) s) :=
    teardown_spec h le_rfl (by simp) ht fun _ _ _ _ => rfl
  obtain ⟨l, hl⟩ := htear
  have hall : ∀ ρ, ρ ∈ below [] := fun ρ => List.nil_suffix
  have hmem : ∀ p, p ∈ l ↔ ∃ ρ, F.node (.user as) ρ = some (.page p) := by
    intro p
    rw [hl.mem_iff]
    exact exists_congr fun ρ => and_iff_right (hall ρ)
  refine ⟨l, hl.freed, hl.nodup, fun p => ?_, hl.kpt, h.fell ?_ ?_ ?_⟩
  · rw [hmem, h.owned ht]
    constructor
    · rintro ⟨ρ, hρ⟩
      cases ρ with
      | nil => cases h.slot hρ
      | cons i π => exact ⟨i, π, hρ⟩
    · rintro ⟨i, π, hp⟩
      exact ⟨i :: π, hp⟩
  · intro u hu
    exact hl.others u fun ρ _ => hu ρ
  · intro p hp hnot
    refine (hl.tables p).mpr ⟨hp, fun hpl => ?_⟩
    obtain ⟨ρ, hρ⟩ := (hmem p).mp hpl
    exact hnot ρ hρ
  · intro sp' _
    exact congrFun hl.owned sp'

end tree

end Riscv32Cpu.X86Vme.Teardown
