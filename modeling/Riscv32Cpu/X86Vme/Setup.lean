/- module: Riscv32Cpu/X86Vme/Setup
   source: CODE/abstract-machine/am/src/x86/qemu/vme.c
   digest: `vme_init` makes the kernel's tables, `protect` starts an address space on them. -/

import Mathlib.Data.Set.Insert
import Riscv32Cpu.X86Vme.Walk

set_option autoImplicit false
set_option relaxedAutoImplicit false

namespace Riscv32Cpu.X86Vme.Setup

open Riscv32Cpu.Lib.Effect Riscv32Cpu.Lib.Trees
open Riscv32Cpu.X86Vme.Config Riscv32Cpu.X86Vme.Model
open Riscv32Cpu.X86Vme.Tables Riscv32Cpu.X86Vme.Walk

variable {a : Arch} {α : Type}

/-- The values of `cur` in a loop over an area. -/
def steps (area : Area a) (step : Word a) : Set (Word a) :=
  {w | ∃ i, i * step.toNat < (area.stop - area.start).toNat ∧
    w = area.start + BitVec.ofNat _ i * step}

/-- The values of `cur` in the loop over some areas. -/
def kernelSteps (areas : List (VmArea a)) (step : Word a) : Set (Word a) :=
  {w | ∃ vma ∈ areas, vma.kernel = true ∧ w ∈ steps vma.area step}

theorem next_round (cur step : Word a) (i : Nat) :
    cur + BitVec.ofNat _ (i + 1) * step = cur + step + BitVec.ofNat _ i * step := by
  rw [BitVec.ofNat_add, BitVec.add_mul, BitVec.one_mul, BitVec.add_comm (BitVec.ofNat _ i * step),
    BitVec.add_assoc]

theorem rounds_succ (cur step : Word a) (k : Nat) :
    {w | ∃ i < k + 1, w = cur + BitVec.ofNat _ i * step} =
      insert cur {w | ∃ i < k, w = cur + step + BitVec.ofNat _ i * step} := by
  ext w
  constructor
  · rintro ⟨i, hi, rfl⟩
    cases i with
    | zero => exact .inl (by simp)
    | succ i =>
      refine .inr ⟨i, Nat.lt_of_succ_lt_succ hi, ?_⟩
      exact next_round cur step i
  · rintro (rfl | ⟨i, hi, rfl⟩)
    · exact ⟨0, Nat.succ_pos k, by simp⟩
    · refine ⟨i + 1, Nat.succ_lt_succ hi, ?_⟩
      exact (next_round cur step i).symm

section loops
variable {body : Word a → M a α Unit} {P : Set (Word a) → St a α → Prop} {step : Word a}
  {D : Set (Word a)} {s s' : St a α}

theorem forRange_rounds (hbody : ∀ D cur s s', P D s → body cur s = .ok () s' → P (insert cur D) s')
    (hpos : 0 < step.toNat) {stop cur : Word a} {k n : Nat} (hk : (stop - cur).toNat = k * step.toNat)
    (hn : k ≤ n) (h : P D s) (hrun : forRange body stop step n cur s = .ok () s') :
    P (D ∪ {w | ∃ i < k, w = cur + BitVec.ofNat _ i * step}) s' := by
  induction n generalizing k cur D s with
  | zero =>
    obtain rfl := Nat.le_zero.mp hn
    cases hrun
    simpa using h
  | succ n ih =>
    rw [forRange] at hrun
    cases k with
    | zero =>
      have hstop : cur = stop := by
        rw [Nat.zero_mul] at hk
        have hzero : stop - cur = 0#_ := BitVec.eq_of_toNat_eq (hk.trans BitVec.toNat_zero.symm)
        exact (sub_eq_zero.mp hzero).symm
      rw [if_pos hstop] at hrun
      cases hrun
      simpa using h
    | succ k =>
      have hne : cur ≠ stop := by
        rintro rfl
        rw [BitVec.sub_self] at hk
        have hzero : (0#a.width).toNat = 0 := BitVec.toNat_zero
        rw [Nat.succ_mul] at hk
        omega
      rw [if_neg hne] at hrun
      obtain ⟨u, s₁, hround, hrun⟩ := bind_eq_ok hrun
      have hk' : (stop - (cur + step)).toNat = k * step.toNat := by
        have hsub : stop - (cur + step) = stop - cur - step := by
          rw [sub_add_eq_sub_sub]
        rw [Nat.succ_mul] at hk
        rw [hsub, BitVec.toNat_sub_of_le (BitVec.le_def.mpr (by omega)), hk, Nat.add_sub_cancel]
      have hrest := ih hk' (Nat.le_of_succ_le_succ hn) (hbody D cur s s₁ h hround) hrun
      rwa [rounds_succ, Set.union_insert, ← Set.insert_union]

theorem forKernel_rounds
    (hbody : ∀ D cur s s', P D s → body cur s = .ok () s' → P (insert cur D) s')
    (hpos : 0 < step.toNat) {areas : List (VmArea a)}
    (hdvd : ∀ vma ∈ areas, step.toNat ∣ (vma.area.stop - vma.area.start).toNat)
    (h : P D s) (hrun : forKernel step body areas s = .ok () s') :
    P (D ∪ kernelSteps areas step) s' := by
  induction areas generalizing D s with
  | nil =>
    cases hrun
    have hempty : kernelSteps ([] : List (VmArea a)) step = ∅ := by
      ext w
      simp [kernelSteps]
    rwa [hempty, Set.union_empty]
  | cons vma rest ih =>
    obtain ⟨u, s₁, harea, hrest⟩ := bind_eq_ok hrun
    have hdvd' := fun vma' hmem => hdvd vma' (List.mem_cons_of_mem vma hmem)
    cases hkernel : vma.kernel with
    | false =>
      rw [hkernel] at harea
      cases harea
      have hcons : kernelSteps (vma :: rest) step = kernelSteps rest step := by
        ext w
        simp [kernelSteps, hkernel]
      rw [hcons]
      exact ih hdvd' h hrest
    | true =>
      rw [hkernel] at harea
      obtain ⟨k, hk⟩ := hdvd vma List.mem_cons_self
      rw [Nat.mul_comm] at hk
      have hle : k ≤ (vma.area.stop - vma.area.start).toNat := by
        rw [hk]
        exact Nat.le_mul_of_pos_right k hpos
      have hsteps : {w | ∃ i < k, w = vma.area.start + BitVec.ofNat _ i * step} =
          steps vma.area step := by
        ext w
        refine exists_congr fun i => and_congr_left fun _ => ?_
        rw [hk, Nat.mul_lt_mul_right hpos]
      have hcons : kernelSteps (vma :: rest) step =
          steps vma.area step ∪ kernelSteps rest step := by
        ext w
        simp [kernelSteps, hkernel]
      have harea' := forRange_rounds hbody hpos hk hle h harea
      rw [hsteps] at harea'
      rw [hcons, ← Set.union_assoc]
      exact ih hdvd' harea' hrest

end loops

/-- The step of the copying loop in `protect`. -/
abbrev spread (a : Arch) : Word a := 1#a.width <<< (pgtables a 1).shift

theorem spread_dvd {vma : VmArea a} (h : vma ∈ vmAreas a) :
    (spread a).toNat ∣ (vma.area.stop - vma.area.start).toNat := by
  revert vma
  cases a <;> decide

theorem pgsize_dvd {vma : VmArea a} (h : vma ∈ vmAreas a) :
    (pgsize : Word a).toNat ∣ (vma.area.stop - vma.area.start).toNat := by
  revert vma
  cases a <;> decide

theorem indexof_round (start : Word a) (i : Nat) :
    indexof (start + BitVec.ofNat _ i * spread a) (pgtables a 1) =
      (indexof start (pgtables a 1) + i) % 2 ^ levelBits a := by
  rw [indexof_hwIndex le_rfl ptlevels_pos.le, indexof_hwIndex le_rfl ptlevels_pos.le, hwIndex,
    hwIndex, BitVec.toNat_add, BitVec.toNat_mul, BitVec.toNat_ofNat]
  cases a with
  | i386 =>
    have hspread : (spread .i386).toNat = 4194304 := by decide
    rw [hspread]
    show (start.toNat + i % 2 ^ 32 * 4194304 % 2 ^ 32) % 2 ^ 32 / 2 ^ 22 % 2 ^ 10 =
      (start.toNat / 2 ^ 22 % 2 ^ 10 + i) % 2 ^ 10
    omega
  | x86_64 =>
    have hspread : (spread .x86_64).toNat = 549755813888 := by decide
    rw [hspread]
    show (start.toNat + i % 2 ^ 64 * 549755813888 % 2 ^ 64) % 2 ^ 64 / 2 ^ 39 % 2 ^ 9 =
      (start.toNat / 2 ^ 39 % 2 ^ 9 + i) % 2 ^ 9
    omega

theorem spread_indices (j : Nat) :
    (∃ w ∈ kernelSteps (vmAreas a) (spread a), indexof w (pgtables a 1) = j) ↔ KernelIndex a j := by
  constructor
  · rintro ⟨w, ⟨vma, hvma, hkernel, i, hi, rfl⟩, rfl⟩
    rw [indexof_round]
    cases a with
    | i386 =>
      rcases hvma with _ | ⟨_, _ | ⟨_, _ | ⟨_, ⟨⟩⟩⟩⟩
      · cases hkernel
      · have hlt : i * 4194304 < 1073741824 := hi
        show (0 + i) % 1024 < 256 ∨ _
        omega
      · have hlt : i * 4194304 < 50331648 := hi
        show _ ∨ 1012 ≤ (1012 + i) % 1024 ∧ (1012 + i) % 1024 < 1024
        omega
    | x86_64 =>
      rcases hvma with _ | ⟨_, _ | ⟨_, ⟨⟩⟩⟩
      · cases hkernel
      · have hlt : i * 549755813888 < 549755813888 := hi
        show (0 + i) % 512 = 0
        omega
  · intro hj
    cases a with
    | i386 =>
      rcases hj with hj | ⟨hle, hj⟩
      · refine ⟨_, ⟨_, .tail _ (.head _), rfl, j, ?_, rfl⟩, ?_⟩
        · show j * 4194304 < 1073741824
          omega
        · rw [indexof_round]
          show (0 + j) % 1024 = j
          omega
      · refine ⟨_, ⟨_, .tail _ (.tail _ (.head _)), rfl, j - 1012, ?_, rfl⟩, ?_⟩
        · show (j - 1012) * 4194304 < 50331648
          omega
        · rw [indexof_round]
          show (1012 + (j - 1012)) % 1024 = j
          omega
    | x86_64 =>
      cases hj
      exact ⟨_, ⟨_, .tail _ (.head _), rfl, 0, by decide, rfl⟩, by decide⟩

theorem spread_pgsize : kernelSteps (vmAreas a) (spread a) ⊆ kernelSteps (vmAreas a) pgsize := by
  rintro w ⟨vma, hvma, hkernel, i, hi, rfl⟩
  have hspread : spread a = BitVec.ofNat _ ((spread a).toNat / 4096) * pgsize ∧
      (spread a).toNat = (spread a).toNat / 4096 * (pgsize : Word a).toNat := by
    cases a <;> decide
  refine ⟨vma, hvma, hkernel, i * ((spread a).toNat / 4096), ?_, ?_⟩
  · rw [Nat.mul_assoc, ← hspread.2]
    exact hi
  · rw [BitVec.ofNat_mul, BitVec.mul_assoc, ← hspread.1]

variable [DecidableEq α] {al : Allocator a α} {K : Kernel a} {s s' : St a α}
  {F : Forest (Space α) (Loc a α)} {leaf : Space α → List Nat → Word a}

/-- In `s'` the level-1 table `upt` has the kernel's entries for the values in `D` and no others;
nothing else is written since `s`. -/
structure Sharing (s : St a α) (upt : Word a) (D : Set (Word a)) (s' : St a α) : Prop where
  same : s' = { s with mem := s'.mem }
  others : ∀ t, t ≠ .page upt → s'.mem t = s.mem t
  copied : ∀ w ∈ D, s'.mem (.page upt) (indexof w (pgtables a 1)) =
    s.mem (.page s.kpt) (indexof w (pgtables a 1))
  clear : ∀ j, (∀ w ∈ D, indexof w (pgtables a 1) ≠ j) → s'.mem (.page upt) j = 0#_

theorem Sharing.step {upt cur : Word a} {D : Set (Word a)} {t t' : St a α} (hne : s.kpt ≠ upt)
    (h : Sharing s upt D t) (hrun : shareKernel upt cur t = .ok () t') :
    Sharing s upt (insert cur D) t' := by
  have hkpt : t.kpt = s.kpt := by rw [h.same]
  have hentry : ∀ j, t.mem (.page t.kpt) j = s.mem (.page s.kpt) j := by
    intro j
    rw [hkpt, h.others]
    rintro heq
    cases heq
    exact hne rfl
  cases hrun
  constructor
  case same => 
    show t.put _ _ _ = _
    rw [h.same]
    rfl
  case others =>
    intro l hl
    rw [← h.others l hl]
    exact Function.update_of_ne hl _ _
  case copied =>
    intro w hw
    by_cases hidx : indexof w (pgtables a 1) = indexof cur (pgtables a 1)
    · rw [hidx, ← hentry]
      exact put_same _ _ _
    · rw [put_other _ _ _ fun hc => hidx hc.2]
      refine h.copied w (hw.resolve_left ?_)
      rintro rfl
      exact hidx rfl
  case clear =>
    intro j hj
    rw [put_other _ _ _ fun hc => hj cur (Set.mem_insert _ _) hc.2.symm]
    exact h.clear j fun w hw => hj w (Set.mem_insert_of_mem cur hw)

theorem spread_pos : 0 < (spread a).toNat := by cases a <;> decide

/-- What `protect` writes. -/
structure Protected (s : St a α) (as : α) (upt : Word a) (s' : St a α) : Prop where
  kpt : s'.kpt = s.kpt
  freed : s'.freed = s.freed
  tables : s'.tables = upt :: s.tables
  owned : s'.owned = Function.update s.owned (.user as) [upt]
  others : ∀ t, t ≠ .slot (.user as) → t ≠ .page upt → s'.mem t = s.mem t
  slot : s'.mem (.slot (.user as)) 0 = upt ||| linkFlags (.user as) 0
  copied : ∀ j, KernelIndex a j → s'.mem (.page upt) j = s.mem (.page s.kpt) j
  clear : ∀ j, ¬KernelIndex a j → s'.mem (.page upt) j = 0#_

theorem protect_ok {as : α} (hkpt : s.kpt ∈ s.tables) (hrun : protect al as s = .ok () s') :
    ∃ upt, IsPage upt ∧ upt ∉ s.tables ∧ Protected s as upt s' := by
  obtain ⟨u₀, s₀, hreset, hrun⟩ := bind_eq_ok hrun
  obtain ⟨upt, s₁, halloc, hrun⟩ := bind_eq_ok hrun
  obtain ⟨u₂, s₂, hloop, hrun⟩ := bind_eq_ok hrun
  obtain ⟨u₃, s₃, hinfo, hslot⟩ := bind_eq_ok hrun
  cases hreset
  obtain ⟨hpage, hfresh, hs₁⟩ := pgallocz_ok halloc
  have hne : s.kpt ≠ upt := fun heq => hfresh (heq ▸ hkpt)
  have hkpt₁ : s₁.kpt = s.kpt := by rw [hs₁]; rfl
  have hold : ∀ t, t ≠ .page upt → s₁.mem t = s.mem t := by
    intro t ht
    rw [hs₁]
    exact grow_other _ _ ht
  have hnew : ∀ j, s₁.mem (.page upt) j = 0#_ := by
    intro j
    rw [hs₁]
    exact grow_new _ _ _
  have hstart : Sharing s₁ upt ∅ s₁ := ⟨rfl, fun _ _ => rfl, fun _ => False.elim, fun j _ => hnew j⟩
  have hroot : s₁.kpt ≠ upt := hkpt₁ ▸ hne
  have h₂ := forKernel_rounds (fun D cur t t' ht => Sharing.step hroot ht) spread_pos
    (fun vma => spread_dvd) hstart hloop
  rw [Set.empty_union] at h₂
  have hs₂ := h₂.same
  have hput : ∃ info, s' =
      ({ s₂ with info := info } : St a α).put (.slot (.user as)) 0 (upt ||| pteP ||| pteU) := by
    cases hinfo
    cases hslot
    exact ⟨_, rfl⟩
  obtain ⟨info, rfl⟩ := hput
  have hcur : ∀ j, (∃ w ∈ kernelSteps (vmAreas a) (spread a), indexof w (pgtables a 1) = j) ↔
      KernelIndex a j := spread_indices
  refine ⟨upt, hpage, hfresh, ?_⟩
  constructor
  case kpt =>
    show s₂.kpt = s.kpt
    rw [hs₂, hs₁]
    rfl
  case freed =>
    show s₂.freed = s.freed
    rw [hs₂, hs₁]
    rfl
  case tables =>
    show s₂.tables = upt :: s.tables
    rw [hs₂, hs₁]
    rfl
  case owned =>
    show s₂.owned = Function.update s.owned (.user as) [upt]
    rw [hs₂, hs₁]
    show Function.update (Function.update s.owned (.user as) []) (.user as)
      (upt :: Function.update s.owned (.user as) [] (.user as)) = _
    rw [Function.update_idem, Function.update_self]
  case others =>
    intro t ht htp
    rw [← hold t htp, ← h₂.others t htp]
    exact Function.update_of_ne ht _ _
  case slot =>
    rw [put_same, BitVec.or_assoc]
    rfl
  case copied =>
    intro j hj
    obtain ⟨w, hw, rfl⟩ := (hcur j).mpr hj
    have hcopied := h₂.copied w hw
    rw [hkpt₁, hold] at hcopied
    · exact hcopied
    · rintro heq
      cases heq
      exact hne rfl
  case clear =>
    intro j hj
    exact h₂.clear j fun w hw heq => hj ((hcur j).mp ⟨w, hw, heq⟩)

theorem protect_spec {as : α} (h : Inv K.toFrozen s F leaf) (hkpt : s.kpt = K.root)
    (hrun : protect al as s = .ok () s') :
    ∃ F' p, Inv K.toFrozen s' F' (Function.update leaf (.user as) fun _ => 0#_) ∧
      F'.node (.user as) [0] = some (.page p) ∧ (∀ sp, sp ≠ .user as → F'.node sp = F.node sp) ∧
      s'.kpt = s.kpt ∧ s'.freed = s.freed ∧ ∀ q ∈ s.tables, q ∈ s'.tables := by
  have hroot := h.kernel K.root_mem
  obtain ⟨upt, hpage, hfresh, hp⟩ := protect_ok (hkpt ▸ hroot.1) hrun
  have hfelled : Inv K.toFrozen s (F.fell (.user as)) (Function.update leaf (.user as) fun _ => 0#_) :=
    h.fell (fun _ _ => rfl) (fun _ hq _ => hq) fun _ _ => rfl
  obtain ⟨F', hinv, hnode, hothers⟩ := hfelled.plant (fun π => Forest.fell_self) hpage hfresh
    hp.others hp.slot (fun j hj => by rw [hp.copied j hj, hkpt, hroot.2]) hp.clear hp.tables hp.owned
  refine ⟨F', upt, hinv, hnode, fun sp hne => ?_, hp.kpt, hp.freed, fun q hq => ?_⟩
  · rw [hothers sp hne]
    exact funext fun π => Forest.fell_old hne
  · rw [hp.tables]
    exact List.mem_cons_of_mem upt hq

/-- The page tables that `start64.S` has made. -/
def startKernel (s : St .x86_64 α) (h : AtStart s) : Kernel .x86_64 where
  root := pml4Addr
  pages := s.tables
  mem := s.pages
  root_isPage := by unfold IsPage; decide
  root_mem := by
    rw [h.tables]
    exact List.mem_cons_self
  entry := by
    rintro j rfl
    rw [St.pages, h.pml4 rfl]
    decide
  next := by
    rintro j rfl
    rw [St.pages, h.pml4 rfl, h.tables]
    decide
  last := by
    rintro j rfl i hi
    have hnext : frameOf (s.pages pml4Addr 0) = pdptAddr := by
      rw [St.pages, h.pml4 rfl]
      decide
    refine .inr ?_
    rw [hnext, St.pages, h.pdpt rfl i hi, has_or_self]
    rfl

/-- While `vme_init` runs, there are no kernel tables yet. -/
def noKernel (a : Arch) : Frozen a := ⟨0#_, [], fun _ _ => 0#_⟩

/-- The tree of `vme_init` has a table of the last level for every value in `D`. -/
def Mapped (D : Set (Word a)) (s : St a α) : Prop :=
  ∃ F leaf, Inv (noKernel a) s F leaf ∧ F.node .boot [] ≠ none ∧
    ∀ w ∈ D, F.node .boot (place w (ptlevels a)) ≠ none

theorem Mapped.start (howned : s.owned .boot = []) : Mapped ∅ (s.put (.slot .boot) 0 0#_) := by
  let F : Forest (Space α) (Loc a α) := Forest.empty.plant .boot (.slot .boot) (fun _ => rfl)
    fun _ _ h => by cases h
  have hcases : ∀ {sp π t}, F.node sp π = some t → sp = .boot ∧ π = [] ∧ t = .slot .boot := by
    intro sp π t ht
    by_cases hnew : sp = .boot ∧ π = []
    · cases (if_pos hnew).symm.trans ht
      exact ⟨hnew.1, hnew.2, rfl⟩
    · cases (if_neg hnew).symm.trans ht
  refine ⟨F, fun _ _ => 0#_, ?_, ?_, fun _ => False.elim⟩
  · constructor
    case slot =>
      intro sp t ht
      obtain ⟨rfl, -, rfl⟩ := hcases ht
      rfl
    case page =>
      intro sp i π t ht
      cases (hcases ht).2.1
    case place =>
      intro sp i π t ht
      cases (hcases ht).2.1
    case link =>
      intro sp π i t p _ hp
      cases (hcases hp).2.1
    case gap =>
      intro sp π i t ht _ hi _ _
      obtain ⟨rfl, rfl, rfl⟩ := hcases ht
      have hone : entries a [] = 1 := by cases a <;> rfl
      rw [hone, Nat.lt_one_iff] at hi
      rw [hi, put_same]
      exact has_zero _
    case shared =>
      intro sp π i t ht hs
      obtain ⟨-, rfl, -⟩ := hcases ht
      cases hs.root.1
    case leafs =>
      intro sp π i t ht hl
      obtain ⟨-, rfl, -⟩ := hcases ht
      exact absurd hl (Nat.ne_of_lt (Nat.lt_of_succ_lt ptlevels_pos))
    case noleaf => exact fun _ => rfl
    case kernel => exact fun hp => by cases hp
    case owned =>
      intro sp t ht p
      obtain ⟨rfl, -, -⟩ := hcases ht
      rw [put_owned, howned]
      constructor
      · exact fun hp => by cases hp
      · rintro ⟨i, π, hp⟩
        cases (hcases hp).2.1
  · have htop : F.node .boot [] = some (.slot .boot) := Forest.plant_new
    rw [htop]
    exact Option.some_ne_none _

theorem Mapped.step {D : Set (Word a)} {cur : Word a} (h : Mapped D s)
    (hrun : mapKernel al cur s = .ok () s') : Mapped (insert cur D) s' := by
  obtain ⟨F, leaf, hinv, hslot, hD⟩ := h
  obtain ⟨r, s₁, hwalk, hset⟩ := bind_eq_ok hrun
  have hg : Growable F .boot cur pteW := fun n _ => ⟨rfl, id, fun _ => id⟩
  obtain ⟨F₁, hinv₁, hgrown, hlast, -⟩ := ptwalk_spec hinv hslot hg hwalk
  have hkeep : ∀ {π}, F.node .boot π ≠ none → F₁.node .boot π ≠ none :=
    fun hsome hn => hsome (hgrown.missing hn)
  cases hset
  refine ⟨F₁, _, hinv₁.put_leaf hlast (place_length cur _) r.2 (cur ||| pteP ||| pteW),
    hkeep hslot, ?_⟩
  rintro w (rfl | hw)
  · rw [hlast]
    exact Option.some_ne_none _
  · exact hkeep (hD w hw)

omit [DecidableEq α] in
theorem Mapped.kernel (h2 : 2 = ptlevels a) (h : Mapped (kernelSteps (vmAreas a) pgsize) s) :
    ∃ K : Kernel a, K.pages = s.tables ∧ K.mem = s.pages ∧
      K.root = baseof (s.mem (.slot .boot) 0) := by
  obtain ⟨F, leaf, hinv, hslot, hmapped⟩ := h
  -- the level-1 table leads to a table for every kernel entry
  have hentry : ∀ {j}, KernelIndex a j → ∃ q, F.node .boot [j, 0] = some (.page q) ∧ IsPage q ∧
      q ∈ s.tables := by
    intro j hj
    obtain ⟨w, hw, rfl⟩ := spread_indices j |>.mpr hj
    have hnode := hmapped w (spread_pgsize hw)
    rw [← h2, place, place_one] at hnode
    obtain ⟨t, ht⟩ := Option.ne_none_iff_exists'.mp hnode
    obtain ⟨q, rfl, hq, hmem, -⟩ := hinv.page ht
    exact ⟨q, ht, hq, hmem⟩
  have hzero : KernelIndex a 0 := by
    cases a with
    | i386 => exact .inl (by decide)
    | x86_64 => rfl
  obtain ⟨_, hq₀, -⟩ := hentry hzero
  obtain ⟨t, ht⟩ := F.parent_of_child hq₀
  obtain ⟨p, rfl, hp, hptables, -⟩ := hinv.page ht
  obtain ⟨t, htop⟩ := F.parent_of_child ht
  obtain rfl := hinv.slot htop
  have hroot : baseof (s.mem (.slot .boot) 0) = p := by
    rw [hinv.link htop ht]
    exact baseof_or hp (linkFlags_isFlags _ _)
  have hlink : ∀ {j q}, F.node .boot [j, 0] = some (.page q) →
      s.pages p j = q ||| linkFlags (.boot : Space α) 1 := fun hq => hinv.link ht hq
  refine ⟨⟨⟨p, s.tables, s.pages⟩, hp, hptables, ?_, ?_, fun _ _ _ => .inl h2⟩, rfl, rfl, hroot.symm⟩
  · intro j hj
    obtain ⟨q, hq, hpage, -⟩ := hentry hj
    show has (s.pages p j) pteP = true ∧ has (s.pages p j) pteU = false
    rw [hlink hq, has_or hpage pteP_flag, has_or hpage pteU_flag]
    refine ⟨linkFlags_present _ _, ?_⟩
    show has (pteP ||| pteW) pteU = false
    cases a <;> decide
  · intro j hj
    obtain ⟨q, hq, hpage, hqtables⟩ := hentry hj
    show frameOf (s.pages p j) ∈ s.tables
    rw [hlink hq, frameOf_or hpage (linkFlags_isFlags _ _)]
    exact hqtables

theorem vmeInit_spec {cpuCurrent : Nat} {b : Bool} (h : AtStart s)
    (hrun : vmeInit al cpuCurrent s = .ok b s') :
    ∃ K : Kernel a, K.pages = s'.tables ∧ s'.kpt = K.root ∧
      Inv K.toFrozen s' Forest.empty fun _ _ => 0#_ := by
  have hsteps : vmeInit al cpuCurrent s = (panicOn (cpuCurrent != 0)
    "init VME in non-bootstrap CPU" >>= fun _ => buildKernel al >>= fun _ => return true) s := rfl
  rw [hsteps] at hrun
  obtain ⟨-, hrun⟩ := panicOn_bind_ok hrun
  obtain ⟨u, s₁, hbuild, hret⟩ := bind_eq_ok hrun
  cases hret
  have hkernel : ∃ K : Kernel a, K.pages = s'.tables ∧ K.mem = s'.pages ∧ s'.kpt = K.root := by
    cases a with
    | x86_64 =>
      cases hbuild
      exact ⟨startKernel s h, rfl, rfl, rfl⟩
    | i386 =>
      obtain ⟨u₁, s₁, hclear, hbuild⟩ := bind_eq_ok hbuild
      obtain ⟨u₂, s₂, hloop, hkpt⟩ := bind_eq_ok hbuild
      cases hclear
      cases hkpt
      have hmapped := forKernel_rounds (fun D cur t t' ht => Mapped.step ht) (by decide)
        (fun vma => pgsize_dvd) (Mapped.start (h.owned .boot)) hloop
      rw [Set.empty_union] at hmapped
      obtain ⟨K, hpages, hmem, hroot⟩ := hmapped.kernel rfl
      exact ⟨K, hpages, hmem, hroot.symm⟩
  obtain ⟨K, hpages, hmem, hroot⟩ := hkernel
  exact ⟨K, hpages, hroot, Inv.start (by rw [hpages]; exact List.Subset.refl _) hmem⟩

end Riscv32Cpu.X86Vme.Setup
