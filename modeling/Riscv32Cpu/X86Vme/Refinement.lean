/- module: Riscv32Cpu/X86Vme/Refinement
   source: CODE/abstract-machine/am/src/x86/qemu/vme.c
   digest: Address spaces as partial maps; the tables implement them over every run. -/

import Riscv32Cpu.X86Vme.Setup
import Riscv32Cpu.X86Vme.Teardown

set_option autoImplicit false
set_option relaxedAutoImplicit false

namespace Riscv32Cpu.X86Vme.Refinement

open Riscv32Cpu.Lib.Effect Riscv32Cpu.Lib.Trees
open Riscv32Cpu.X86Vme.Config Riscv32Cpu.X86Vme.Model
open Riscv32Cpu.X86Vme.Tables Riscv32Cpu.X86Vme.Walk
open Riscv32Cpu.X86Vme.Setup Riscv32Cpu.X86Vme.Teardown

variable {a : Arch} {α : Type}

/-- The user pages of one address space, with the frame and the `prot` of each. -/
abbrev Mapping (a : Arch) := Word a → Option (PhysAddr a × BitVec 32)

/-- The address spaces; one that `protect` has not made, or `unprotect` has ended, is absent. -/
abbrev Spaces (a : Arch) (α : Type) := α → Option (Mapping a)

def empty : Spaces a α := fun _ => none

/-- What a call does. A space made afresh has no user page. -/
def apply [DecidableEq α] (m : Spaces a α) : Call a α → Spaces a α
  | .protect as => Function.update m as (some fun _ => none)
  | .unprotect as => Function.update m as none
  | .map as va pa prot => Function.update m as ((m as).map fun mapping =>
      Function.update mapping va (if prot = mmapNone then none else some (pa, prot)))

def space : Call a α → α
  | .protect as => as
  | .unprotect as => as
  | .map as _ _ _ => as

/-- `map` and `unprotect` need a space. -/
def Allowed (m : Spaces a α) : Call a α → Prop
  | .protect _ => True
  | .unprotect as => m as ≠ none
  | .map as _ _ _ => m as ≠ none

def AllAllowed [DecidableEq α] (m : Spaces a α) : List (Call a α) → Prop
  | [] => True
  | call :: calls => Allowed m call ∧ AllAllowed (apply m call) calls

theorem apply_other [DecidableEq α] (m : Spaces a α) {call : Call a α} {as : α} (h : as ≠ space call) :
    apply m call as = m as := by
  cases call with
  | protect as' => exact Function.update_of_ne h _ _
  | unprotect as' => exact Function.update_of_ne h _ _
  | map as' va pa prot => exact Function.update_of_ne h _ _

/-- The address of a page of the user area. -/
def UserPage (va : Word a) : Prop := inRange va (uvmArea a) = true ∧ va = rounddown va pgsize

/-- An address in one of the kernel areas; the last one of i386 ends at the end of memory. -/
def KernelAddress (va : Word a) : Prop :=
  ∃ vma ∈ vmAreas a, vma.kernel = true ∧ va - vma.area.start < vma.area.stop - vma.area.start

theorem page_aligned {va : Word a} (h : va = rounddown va pgsize) : va.toNat % 4096 = 0 := by
  have hzero : va &&& (pgsize - 1) = 0#_ := by
    rw [h, rounddown, BitVec.and_assoc, BitVec.and_comm (~~~(pgsize - 1 : Word a)),
      BitVec.and_not_self]
    exact BitVec.and_zero
  have hlow : (pgsize - 1 : Word a).toNat = 2 ^ 12 - 1 := by cases a <;> decide
  have htoNat := congrArg BitVec.toNat hzero
  rwa [BitVec.toNat_and, hlow, Nat.and_two_pow_sub_one_eq_mod, BitVec.toNat_zero] at htoNat

theorem isPage_of_aligned {pa : PhysAddr a} (h : pa.val = rounddown pa.val pgsize) :
    IsPage pa.val := by
  have hmask : frameMask a = ~~~(pgsize - 1) &&& BitVec.ofNat _ (2 ^ physBits a - 1) := by
    cases a <;> decide
  have hlow : (BitVec.ofNat a.width (2 ^ physBits a - 1)).toNat = 2 ^ physBits a - 1 := by
    cases a <;> decide
  have hfits : pa.val &&& BitVec.ofNat _ (2 ^ physBits a - 1) = pa.val := by
    refine BitVec.eq_of_toNat_eq ?_
    rw [BitVec.toNat_and, hlow, Nat.and_two_pow_sub_one_eq_mod, Nat.mod_eq_of_lt pa.lt]
  rw [IsPage, frameOf, hmask, ← BitVec.and_assoc]
  show rounddown pa.val pgsize &&& _ = _
  rw [← h, hfits]

theorem user_bounds {va : Word a} (h : inRange va (uvmArea a) = true) :
    (uvmArea a).start.toNat ≤ va.toNat ∧ va.toNat < (uvmArea a).stop.toNat := by
  rw [inRange, Bool.and_eq_true, BitVec.ule_iff_toNat_le, BitVec.ult_iff_toNat_lt] at h
  exact h

theorem place_inj {va va' : Word a} (h : UserPage va) (h' : UserPage va')
    (hplace : place va (ptlevels a + 1) = place va' (ptlevels a + 1)) : va = va' := by
  have hindex : ∀ {n}, place va (n + 1) = place va' (n + 1) → 1 ≤ n → n ≤ ptlevels a →
      hwIndex va n = hwIndex va' n ∧ place va n = place va' n := by
    intro n heq hpos hle
    obtain ⟨hhead, htail⟩ := List.cons.inj heq
    rw [indexof_hwIndex hpos hle, indexof_hwIndex hpos hle] at hhead
    exact ⟨hhead, htail⟩
  have hbounds := user_bounds h.1
  have hbounds' := user_bounds h'.1
  have haligned := page_aligned h.2
  have haligned' := page_aligned h'.2
  refine BitVec.eq_of_toNat_eq ?_
  cases a with
  | i386 =>
    obtain ⟨h₂, hplace⟩ := hindex hplace (by decide) (by decide)
    obtain ⟨h₁, -⟩ := hindex hplace (by decide) (by decide)
    have e₁ : va.toNat / 2 ^ 22 % 2 ^ 10 = va'.toNat / 2 ^ 22 % 2 ^ 10 := h₁
    have e₂ : va.toNat / 2 ^ 12 % 2 ^ 10 = va'.toNat / 2 ^ 12 % 2 ^ 10 := h₂
    have hlt : va.toNat < 0x80000000 := hbounds.2
    have hlt' : va'.toNat < 0x80000000 := hbounds'.2
    omega
  | x86_64 =>
    obtain ⟨h₄, hplace⟩ := hindex hplace (by decide) (by decide)
    obtain ⟨h₃, hplace⟩ := hindex hplace (by decide) (by decide)
    obtain ⟨h₂, hplace⟩ := hindex hplace (by decide) (by decide)
    obtain ⟨h₁, -⟩ := hindex hplace (by decide) (by decide)
    have e₁ : va.toNat / 2 ^ 39 % 2 ^ 9 = va'.toNat / 2 ^ 39 % 2 ^ 9 := h₁
    have e₂ : va.toNat / 2 ^ 30 % 2 ^ 9 = va'.toNat / 2 ^ 30 % 2 ^ 9 := h₂
    have e₃ : va.toNat / 2 ^ 21 % 2 ^ 9 = va'.toNat / 2 ^ 21 % 2 ^ 9 := h₃
    have e₄ : va.toNat / 2 ^ 12 % 2 ^ 9 = va'.toNat / 2 ^ 12 % 2 ^ 9 := h₄
    have hlt : va.toNat < 0x108000000000 := hbounds.2
    have hlt' : va'.toNat < 0x108000000000 := hbounds'.2
    omega

theorem user_index {va : Word a} (h : UserPage va) : ¬KernelIndex a (hwIndex va 1) := by
  have hbounds := user_bounds h.1
  cases a with
  | i386 =>
    have hlo : 0x40000000 ≤ va.toNat := hbounds.1
    have hhi : va.toNat < 0x80000000 := hbounds.2
    show ¬(va.toNat / 2 ^ 22 % 2 ^ 10 < 256 ∨ 1012 ≤ va.toNat / 2 ^ 22 % 2 ^ 10 ∧ _)
    omega
  | x86_64 =>
    have hlo : 0x100000000000 ≤ va.toNat := hbounds.1
    have hhi : va.toNat < 0x108000000000 := hbounds.2
    show ¬va.toNat / 2 ^ 39 % 2 ^ 9 = 0
    omega

theorem kernel_index {va : Word a} (h : KernelAddress va) : KernelIndex a (hwIndex va 1) := by
  obtain ⟨vma, hvma, hkernel, hlt⟩ := h
  have hlt' := BitVec.lt_def.mp hlt
  rw [BitVec.toNat_sub, BitVec.toNat_sub] at hlt'
  cases a with
  | i386 =>
    have hva : va.toNat < 2 ^ 32 := va.isLt
    rcases hvma with _ | ⟨_, _ | ⟨_, _ | ⟨_, ⟨⟩⟩⟩⟩
    · cases hkernel
    · have hsub : (2 ^ 32 - 0 + va.toNat) % 2 ^ 32 < 0x40000000 := hlt'
      show va.toNat / 2 ^ 22 % 2 ^ 10 < 256 ∨ _
      omega
    · have hsub : (2 ^ 32 - 0xfd000000 + va.toNat) % 2 ^ 32 < 0x03000000 := hlt'
      show _ ∨ 1012 ≤ va.toNat / 2 ^ 22 % 2 ^ 10 ∧ va.toNat / 2 ^ 22 % 2 ^ 10 < 1024
      omega
  | x86_64 =>
    rcases hvma with _ | ⟨_, _ | ⟨_, ⟨⟩⟩⟩
    · cases hkernel
    · have hsub : (2 ^ 64 - 0 + va.toNat) % 2 ^ 64 < 0x008000000000 := hlt'
      have hva : va.toNat < 2 ^ 64 := va.isLt
      show va.toNat / 2 ^ 39 % 2 ^ 9 = 0
      omega

/-- The entry of the last level for a user page. -/
def entryOf : Option (PhysAddr a × BitVec 32) → Word a
  | none => 0#_
  | some (pa, prot) => pteOf pa prot

/-- The translation of a user page. -/
def userTranslation (frame : PhysAddr a × BitVec 32) : Translation a :=
  ⟨frame.1.val, 12, true, frame.2 &&& mmapWrite ≠ 0#_⟩

theorem pteOf_flags (prot : BitVec 32) :
    IsFlags (pteP ||| pteU ||| (if prot &&& mmapWrite ≠ 0#_ then pteW else 0#_) : Word a) := by
  unfold IsFlags
  split
  · cases a <;> decide
  · cases a <;> decide

theorem ofPte_entryOf {frame : Option (PhysAddr a × BitVec 32)}
    (h : ∀ pa prot, frame = some (pa, prot) → IsPage pa.val) :
    ofPte (entryOf frame) = frame.map userTranslation := by
  rcases frame with _ | ⟨pa, prot⟩
  · rw [entryOf, ofPte, has_zero]
    rfl
  · have hpa := h pa prot rfl
    have hflags := pteOf_flags (a := a) prot
    have hassoc : pteOf pa prot =
        pa.val ||| (pteP ||| pteU ||| (if prot &&& mmapWrite ≠ 0#_ then pteW else 0#_)) := by
      rw [pteOf, BitVec.or_assoc, BitVec.or_assoc, BitVec.or_assoc]
    rw [entryOf, ofPte, hassoc, has_or hpa pteP_flag, has_or hpa pteU_flag, has_or hpa pteW_flag,
      frameOf_or hpa hflags]
    show _ = some (userTranslation (pa, prot))
    unfold userTranslation
    by_cases hw : prot &&& mmapWrite ≠ 0#_
    · rw [if_pos hw, decide_eq_true hw]
      cases a <;> rfl
    · rw [if_neg hw, decide_eq_false hw]
      cases a <;> rfl

/-- The state holds the address spaces `m`: each has its tree, and `leaf` has the entries of its
user pages. -/
structure Holds (K : Kernel a) (s : St a α) (F : Forest (Space α) (Loc a α))
    (leaf : Space α → List Nat → Word a) (m : Spaces a α) : Prop where
  inv : Inv K.toFrozen s F leaf
  kpt : s.kpt = K.root
  root : ∀ {as}, m as ≠ none → ∃ p, F.node (.user as) [0] = some (.page p)
  entry : ∀ {as mapping va}, m as = some mapping → UserPage va →
    leaf (.user as) (place va (ptlevels a + 1)) = entryOf (mapping va)
  frame : ∀ {as mapping va pa prot}, m as = some mapping → mapping va = some (pa, prot) →
    IsPage pa.val

variable {K : Kernel a} {s s' : St a α} {F : Forest (Space α) (Loc a α)}
  {leaf : Space α → List Nat → Word a} {m : Spaces a α} {as : α} {va : Word a}

theorem Holds.slot (h : Holds K s F leaf m) (hbuilt : m as ≠ none) : F.node (.user as) [] ≠ none := by
  obtain ⟨p, hp⟩ := h.root hbuilt
  obtain ⟨t, ht⟩ := F.parent_of_child hp
  rw [ht]
  exact Option.some_ne_none t

theorem Holds.translate (h : Holds K s F leaf m) (hbuilt : m as ≠ none) (va : Word a) :
    ∃ p, F.node (.user as) [0] = some (.page p) ∧
      s.translate as va = hwWalk s.pages va (ptlevels a) p true true := by
  obtain ⟨p, hp⟩ := h.root hbuilt
  obtain ⟨t, ht⟩ := F.parent_of_child hp
  obtain rfl := h.inv.slot ht
  obtain ⟨q, hq, hpage, -⟩ := h.inv.page hp
  cases hq
  refine ⟨p, hp, ?_⟩
  rw [St.translate, hwTranslate, h.inv.link ht hp, frameOf_or hpage (linkFlags_isFlags _ _)]

theorem Holds.translate_user (h : Holds K s F leaf m) (hbuilt : m as ≠ none)
    (hva : ¬KernelIndex a (hwIndex va 1)) :
    s.translate as va = ofPte (leaf (.user as) (place va (ptlevels a + 1))) := by
  obtain ⟨p, hp, htranslate⟩ := h.translate hbuilt va
  have hpos := @ptlevels_pos a
  obtain ⟨n, hn⟩ : ∃ n, ptlevels a = n + 1 := ⟨ptlevels a - 1, by omega⟩
  rw [← place_one va, show 1 = ptlevels a - n by omega] at hp
  have hwalk := hwWalk_leaf h.inv hva (by omega) hp
  rw [htranslate, ← hwalk, hn]

theorem Holds.translate_kernel (h : Holds K s F leaf m) (hbuilt : m as ≠ none)
    (hva : KernelIndex a (hwIndex va 1)) :
    s.translate as va = hwWalk K.mem va (ptlevels a) K.root true true := by
  obtain ⟨p, hp, htranslate⟩ := h.translate hbuilt va
  rw [htranslate]
  exact hwWalk_kernel K (fun q hq i => (h.inv.kernel hq).2 i) hva (h.inv.shared hp hva).1

theorem Holds.translate_kpt (h : Holds K s F leaf m) (hva : KernelIndex a (hwIndex va 1)) :
    hwTranslate s.pages s.kpt va = hwWalk K.mem va (ptlevels a) K.root true true := by
  rw [hwTranslate, h.kpt, K.root_isPage]
  exact hwWalk_kernel K (fun q hq i => (h.inv.kernel hq).2 i) hva ((h.inv.kernel K.root_mem).2 _)

/-- What one call does to the tables, and that it leaves the entries of other spaces alone. -/
def Step (K : Kernel a) (s' : St a α) (leaf : Space α → List Nat → Word a) (m : Spaces a α)
    (as : α) : Prop :=
  ∃ F' leaf', Holds K s' F' leaf' m ∧ ∀ as', as' ≠ as → leaf' (.user as') = leaf (.user as')

theorem Holds.of_one (h : Holds K s F leaf m) (as : α) {F' : Forest (Space α) (Loc a α)}
    {leaf' : Space α → List Nat → Word a} {m' : Spaces a α} (hinv : Inv K.toFrozen s' F' leaf')
    (hkpt : s'.kpt = s.kpt)
    (hothers : ∀ as', as' ≠ as → m' as' = m as' ∧ F'.node (.user as') = F.node (.user as') ∧
      leaf' (.user as') = leaf (.user as'))
    (hroot : m' as ≠ none → ∃ p, F'.node (.user as) [0] = some (.page p))
    (hentry : ∀ {mapping}, m' as = some mapping →
      (∀ {va}, UserPage va → leaf' (.user as) (place va (ptlevels a + 1)) = entryOf (mapping va)) ∧
      ∀ {va pa prot}, mapping va = some (pa, prot) → IsPage pa.val) :
    Holds K s' F' leaf' m' := by
  refine ⟨hinv, hkpt.trans h.kpt, ?_, ?_, ?_⟩
  · intro as' hbuilt
    by_cases heq : as' = as
    · subst heq
      exact hroot hbuilt
    · obtain ⟨hm, hnode, -⟩ := hothers as' heq
      rw [hnode]
      exact h.root (hm ▸ hbuilt)
  · intro as' mapping va hmapping hva
    by_cases heq : as' = as
    · subst heq
      exact (hentry hmapping).1 hva
    · obtain ⟨hm, -, hleaf⟩ := hothers as' heq
      rw [hleaf]
      exact h.entry (hm ▸ hmapping) hva
  · intro as' mapping va pa prot hmapping hpa
    by_cases heq : as' = as
    · subst heq
      exact (hentry hmapping).2 hpa
    · exact h.frame ((hothers as' heq).1 ▸ hmapping) hpa

theorem user_ne {as as' : α} (h : as' ≠ as) : (Space.user as' : Space α) ≠ .user as := by
  rintro ⟨⟩
  exact h rfl

theorem Holds.growable (h : Holds K s F leaf m) (hbuilt : m as ≠ none) (hva : UserPage va) :
    Growable F (.user as) va (pteW ||| pteU) := by
  obtain ⟨p, hp⟩ := h.root hbuilt
  intro n hn
  cases n with
  | zero =>
    rw [place_one, hp] at hn
    cases hn
  | succ n =>
    refine ⟨rfl, fun hs => ?_, fun j hs => ?_⟩
    · have hone : n = 0 := by
        have hlen := congrArg List.length hs.root.1
        rw [place_length] at hlen
        exact Nat.succ.inj hlen
      subst hone
      exact user_index hva (indexof_hwIndex le_rfl ptlevels_pos.le va ▸ hs.root.2)
    · have hlen := congrArg List.length hs.root.1
      rw [place_length] at hlen
      cases hlen

variable [DecidableEq α] {al : Allocator a α}

theorem protect_step (h : Holds K s F leaf m) (hrun : protect al as s = .ok () s') :
    Step K s' leaf (apply m (.protect as)) as := by
  obtain ⟨F', p, hinv, hroot, hothers, hkpt, -, -⟩ := protect_spec h.inv h.kpt hrun
  refine ⟨F', _, h.of_one as hinv hkpt ?_ (fun _ => ⟨p, hroot⟩) ?_, ?_⟩
  · intro as' hne
    exact ⟨apply_other m hne, hothers _ (user_ne hne), Function.update_of_ne (user_ne hne) _ _⟩
  · intro mapping hm
    rw [apply, Function.update_self] at hm
    cases hm
    refine ⟨fun _ => ?_, fun hpa => by cases hpa⟩
    rw [Function.update_self]
    rfl
  · intro as' hne
    exact Function.update_of_ne (user_ne hne) _ _

theorem unprotect_step (h : Holds K s F leaf m) (hbuilt : m as ≠ none)
    (hrun : unprotect al as s = .ok () s') : Step K s' leaf (apply m (.unprotect as)) as := by
  obtain ⟨l, -, -, -, hkpt, hinv⟩ := unprotect_spec h.inv (h.slot hbuilt) hrun
  have hgone : apply m (.unprotect as) as = none := Function.update_self _ _ _
  refine ⟨F.fell (.user as), _, h.of_one as hinv hkpt ?_ ?_ ?_, ?_⟩
  · intro as' hne
    exact ⟨apply_other m hne, funext fun π => Forest.fell_old (user_ne hne),
      Function.update_of_ne (user_ne hne) _ _⟩
  · intro hsome
    exact absurd hgone hsome
  · intro mapping hm
    cases hgone.symm.trans hm
  · intro as' hne
    exact Function.update_of_ne (user_ne hne) _ _

theorem setPte_ok {pt : Loc a α} {index : Nat} {pa : PhysAddr a} {prot : BitVec 32}
    (h : setPte pt index pa prot s = .ok () s') :
    s' = s.put pt index (entryOf (if prot = mmapNone then none else some (pa, prot))) := by
  by_cases hnone : prot = mmapNone
  · have hsteps : setPte pt index pa prot s =
        (panicOn (!has (s.mem pt index) pteP) "unmapping a non-mapped page" >>= fun _ =>
          setEntry pt index 0#_) s := congrFun (if_pos hnone) s
    rw [hsteps] at h
    cases (panicOn_bind_ok h).2
    rw [if_pos hnone]
    rfl
  · have hsteps : setPte pt index pa prot s =
        (panicOn (has (s.mem pt index) pteP) "remapping a mapped page" >>= fun _ =>
          setEntry pt index (pteOf pa prot)) s := congrFun (if_neg hnone) s
    rw [hsteps] at h
    cases (panicOn_bind_ok h).2
    rw [if_neg hnone]
    rfl

theorem map_step {pa : PhysAddr a} {prot : BitVec 32} (h : Holds K s F leaf m) (hbuilt : m as ≠ none)
    (hrun : map al as va pa prot s = .ok () s') :
    Step K s' leaf (apply m (.map as va pa prot)) as := by
  obtain ⟨hrange, hrun⟩ := panicOn_bind_ok hrun
  obtain ⟨haligned, hrun⟩ := panicOn_bind_ok hrun
  rw [Bool.not_eq_false'] at hrange
  rw [Bool.or_eq_false_iff, bne_eq_false_iff_eq, bne_eq_false_iff_eq] at haligned
  have hva : UserPage va := ⟨hrange, haligned.1⟩
  obtain ⟨⟨pt, index⟩, s₁, hwalk, hrun⟩ := bind_eq_ok hrun
  obtain ⟨u, s₂, hset, hrun⟩ := bind_eq_ok hrun
  obtain ⟨r, s₃, hwalk', hret⟩ := bind_eq_ok hrun
  cases hret
  have hg := h.growable hbuilt hva
  obtain ⟨F₁, hinv₁, hgrown₁, hlast, hindex⟩ := ptwalk_spec h.inv (h.slot hbuilt) hg hwalk
  obtain rfl := setPte_ok hset
  have hinv₂ := hinv₁.put_leaf hlast (place_length va _) index
    (entryOf (if prot = mmapNone then none else some (pa, prot)))
  -- the second walk adds nothing that matters
  have hslot₁ : F₁.node (.user as) [] ≠ none := fun hn => h.slot hbuilt (hgrown₁.missing hn)
  obtain ⟨F₂, hinv₃, hgrown₂, -, -⟩ := ptwalk_spec hinv₂ hslot₁ (hg.grown hgrown₁) hwalk'
  have hgrown : Grown (.user as) s s' F F₂ := hgrown₁.trans ⟨hgrown₂.mono, hgrown₂.others,
    hgrown₂.kpt, hgrown₂.freed, hgrown₂.tables⟩
  obtain rfl : index = indexof va (pgtables a (ptlevels a)) := hindex
  refine ⟨F₂, _, h.of_one as hinv₃ hgrown.kpt ?_ ?_ ?_, ?_⟩
  · intro as' hne
    refine ⟨apply_other m hne, hgrown.others (user_ne hne), funext fun ρ => if_neg fun hc => ?_⟩
    exact user_ne hne hc.1
  · intro _
    obtain ⟨p, hp⟩ := h.root hbuilt
    exact ⟨p, hgrown.mono hp⟩
  · intro mapping hm
    obtain ⟨old, hold⟩ := Option.ne_none_iff_exists'.mp hbuilt
    rw [apply, Function.update_self, hold] at hm
    obtain rfl : mapping = Function.update old va (if prot = mmapNone then none else
      some (pa, prot)) := (Option.some.inj hm).symm
    constructor
    · intro va' hva'
      by_cases heq : va' = va
      · subst heq
        rw [Function.update_self]
        exact if_pos ⟨rfl, rfl⟩
      · rw [Function.update_of_ne heq, ← h.entry hold hva']
        exact if_neg fun hc => heq (place_inj hva' hva hc.2)
    · intro va' pa' prot' hpa
      by_cases heq : va' = va
      · subst heq
        rw [Function.update_self] at hpa
        split at hpa
        · cases hpa
        · cases hpa
          exact isPage_of_aligned haligned.2
      · rw [Function.update_of_ne heq] at hpa
        exact h.frame hold hpa
  · intro as' hne
    exact funext fun ρ => if_neg fun hc => user_ne hne hc.1

theorem call_step {call : Call a α} (h : Holds K s F leaf m) (hallowed : Allowed m call)
    (hrun : call.run al s = .ok () s') : Step K s' leaf (apply m call) (space call) := by
  cases call with
  | protect as => exact protect_step h hrun
  | unprotect as => exact unprotect_step h hallowed hrun
  | map as va pa prot => exact map_step h hallowed hrun

theorem run_holds {calls : List (Call a α)} (h : Holds K s F leaf m) (hallowed : AllAllowed m calls)
    (hrun : runCalls al calls s = .ok () s') :
    ∃ F' leaf', Holds K s' F' leaf' (calls.foldl apply m) := by
  induction calls generalizing s F leaf m with
  | nil =>
    cases hrun
    exact ⟨F, leaf, h⟩
  | cons call calls ih =>
    obtain ⟨u, s₁, hcall, hrest⟩ := bind_eq_ok hrun
    obtain ⟨F₁, leaf₁, h₁, -⟩ := call_step h hallowed.1 hcall
    exact ih h₁ hallowed.2 hrest

theorem init_holds {cpuCurrent : Nat} {b : Bool} (hstart : AtStart s)
    (hinit : vmeInit al cpuCurrent s = .ok b s') :
    ∃ K : Kernel a, K.pages = s'.tables ∧
      Holds K s' Forest.empty (fun _ _ => 0#_) (empty : Spaces a α) := by
  obtain ⟨K, hpages, hkpt, hinv⟩ := vmeInit_spec hstart hinit
  refine ⟨K, hpages, hinv, hkpt, fun hbuilt => absurd rfl hbuilt, ?_, ?_⟩
  · intro as mapping va hm
    cases hm
  · intro as mapping va pa prot hm
    cases hm

/-- The tables of `vme.c` implement the abstract spaces over every run, on either architecture. -/
theorem vme_implements_spaces {cpuCurrent : Nat} {b : Bool} {s₀ s₁ : St a α}
    {calls : List (Call a α)} (hstart : AtStart s₀) (hinit : vmeInit al cpuCurrent s₀ = .ok b s₁)
    (hallowed : AllAllowed empty calls) (hrun : runCalls al calls s₁ = .ok () s) :
    (∀ as mapping, calls.foldl apply empty as = some mapping →
      (∀ va, UserPage va → s.translate as va = (mapping va).map userTranslation) ∧
      ∀ va, KernelAddress va → s.translate as va = hwTranslate s.pages s.kpt va ∧
        hwTranslate s.pages s.kpt va = hwTranslate s₁.pages s₁.kpt va) ∧
    ∀ call s', Allowed (calls.foldl apply empty) call → call.run al s = .ok () s' →
      ∀ as, as ≠ space call → calls.foldl apply empty as ≠ none →
        ∀ va, s'.translate as va = s.translate as va := by
  obtain ⟨K, -, h₁⟩ := init_holds hstart hinit
  obtain ⟨F, leaf, h⟩ := run_holds h₁ hallowed hrun
  refine ⟨fun as mapping hm => ⟨fun va hva => ?_, fun va hva => ?_⟩, ?_⟩
  · have hbuilt : calls.foldl apply empty as ≠ none := by
      rw [hm]
      exact Option.some_ne_none mapping
    rw [h.translate_user hbuilt (user_index hva), h.entry hm hva]
    exact ofPte_entryOf fun pa prot => h.frame hm
  · have hbuilt : calls.foldl apply empty as ≠ none := by
      rw [hm]
      exact Option.some_ne_none mapping
    have hindex := kernel_index hva
    rw [h.translate_kernel hbuilt hindex, h.translate_kpt hindex, h₁.translate_kpt hindex]
    exact ⟨rfl, rfl⟩
  · intro call s' hcall hstep as hne hbuilt va
    obtain ⟨F', leaf', h', hleaf⟩ := call_step h hcall hstep
    have hbuilt' : apply (calls.foldl apply empty) call as ≠ none := by
      rwa [apply_other _ hne]
    by_cases hindex : KernelIndex a (hwIndex va 1)
    · rw [h'.translate_kernel hbuilt' hindex, h.translate_kernel hbuilt hindex]
    · rw [h'.translate_user hbuilt' hindex, h.translate_user hbuilt hindex, hleaf as hne]

def bumpPage (s : St .x86_64 Unit) : Word .x86_64 :=
  0x100000 + 0x1000 * BitVec.ofNat _ s.tables.length

/-- Pages in order, from 1 MiB on. -/
def bumpAllocator : Allocator .x86_64 Unit where
  page s := if frameOf (bumpPage s) = bumpPage s ∧ bumpPage s ∉ s.tables then bumpPage s else 0#_
  fresh s h := by
    split at h
    · next hp =>
      rw [if_pos hp]
      exact hp
    · exact absurd rfl h
  scribble _ _ _ := 0#_

/-- The memory as `start64.S` leaves it. -/
def bootState : St .x86_64 Unit where
  mem
    | .page p, i =>
      if p = pml4Addr then if i = 0 then pdptAddr ||| pteP ||| pteW else 0#_
      else if p = pdptAddr then BitVec.ofNat _ i <<< 30 ||| pteP ||| pteW ||| ptePS
      else 0#_
    | .slot _, _ => 0#_
  kpt := 0#_
  info _ := ⟨0#_, ⟨0#_, 0#_⟩⟩
  tables := startTables .x86_64
  owned _ := []
  freed := []

theorem bootState_start : AtStart bootState where
  tables := rfl
  owned _ := rfl
  pml4 _ := rfl
  pdpt _ _ _ := rfl

def demoPage : Word .x86_64 := 0x100000000000

theorem demoPage_user : UserPage demoPage := ⟨by decide, by decide⟩

/-- One space with one writable page. -/
def demoCalls : List (Call .x86_64 Unit) :=
  [.protect (), .map () demoPage ⟨0x5000#64, by decide⟩ 3#32]

theorem demoCalls_allowed : AllAllowed empty demoCalls :=
  ⟨trivial, Option.some_ne_none _, trivial⟩

theorem demo_runs : ∃ s₁ s, vmeInit bumpAllocator 0 bootState = .ok true s₁ ∧
    runCalls bumpAllocator demoCalls s₁ = .ok () s := by
  have hreturned : returned ((vmeInit bumpAllocator 0 >>= fun _ =>
    runCalls bumpAllocator demoCalls) bootState) = true := by decide +kernel
  obtain ⟨u, s, hok⟩ := exists_of_returned hreturned
  obtain ⟨b, s₁, hinit, hrun⟩ := bind_eq_ok hok
  cases hinit
  exact ⟨_, s, rfl, hrun⟩

theorem demo_translates : ∃ s₁ s, vmeInit bumpAllocator 0 bootState = .ok true s₁ ∧
    runCalls bumpAllocator demoCalls s₁ = .ok () s ∧
    s.translate () demoPage = some ⟨0x5000#64, 12, true, true⟩ := by
  obtain ⟨s₁, s, hinit, hrun⟩ := demo_runs
  have hspaces := vme_implements_spaces bootState_start hinit demoCalls_allowed hrun
  exact ⟨s₁, s, hinit, hrun, (hspaces.1 () _ rfl).1 demoPage demoPage_user⟩

/-- `unprotect` frees each page obtained for the space since its `protect` once, and neither a page
of the kernel's tables, nor one of another space, nor a mapped frame. -/
theorem unprotect_frees_owned {cpuCurrent : Nat} {b : Bool} {s₀ s₁ : St a α}
    {calls : List (Call a α)} (hstart : AtStart s₀) (hinit : vmeInit al cpuCurrent s₀ = .ok b s₁)
    (hallowed : AllAllowed empty calls) (hrun : runCalls al calls s₁ = .ok () s)
    (hbuilt : calls.foldl apply empty as ≠ none) (hfree : unprotect al as s = .ok () s') :
    ∃ l : List (Word a), s'.freed = l.map .page ++ s.freed ∧ l.Nodup ∧
      (∀ p, p ∈ l ↔ p ∈ s.owned (.user as)) ∧ (∀ p ∈ s₁.tables, p ∉ l) ∧
      (∀ as', as' ≠ as → calls.foldl apply empty as' ≠ none → ∀ p ∈ s.owned (.user as'), p ∉ l) ∧
      ∀ as' mapping va pa prot, calls.foldl apply empty as' = some mapping →
        mapping va = some (pa, prot) → pa.val ∉ s.tables → pa.val ∉ l := by
  obtain ⟨K, hpages, h₁⟩ := init_holds hstart hinit
  obtain ⟨F, leaf, h⟩ := run_holds h₁ hallowed hrun
  obtain ⟨l, hfreed, hnodup, hmem, -, -⟩ := unprotect_spec h.inv (h.slot hbuilt) hfree
  -- a freed page stands in the tree of `as`
  have hnode : ∀ {as'}, calls.foldl apply empty as' ≠ none → ∀ {p}, p ∈ s.owned (.user as') →
      ∃ i π, F.node (.user as') (i :: π) = some (.page p) := by
    intro as' hbuilt' p hp
    obtain ⟨t, ht⟩ := Option.ne_none_iff_exists'.mp (h.slot hbuilt')
    exact (h.inv.owned ht p).mp hp
  refine ⟨l, hfreed, hnodup, hmem, ?_, ?_, ?_⟩
  · intro p hp hpl
    obtain ⟨i, π, hi⟩ := hnode hbuilt ((hmem p).mp hpl)
    rw [← hpages] at hp
    exact h.inv.not_kernel hp _ _ hi
  · intro as' hne hbuilt' p hp hpl
    obtain ⟨i, π, hi⟩ := hnode hbuilt ((hmem p).mp hpl)
    obtain ⟨i', π', hi'⟩ := hnode hbuilt' hp
    exact user_ne hne (F.inj hi' hi).1
  · intro as' mapping va pa prot _ _ hnot hpl
    obtain ⟨i, π, hi⟩ := hnode hbuilt ((hmem pa.val).mp hpl)
    obtain ⟨q, hq, -, hqtables, -⟩ := h.inv.page hi
    cases hq
    exact hnot hqtables

theorem demo_frees : ∃ s s', unprotect bumpAllocator () s = .ok () s' ∧
    ∃ l : List (Word .x86_64), s'.freed = l.map .page ++ s.freed ∧ l.Nodup ∧
      ∀ p, p ∈ l ↔ p ∈ s.owned (.user ()) := by
  obtain ⟨s₁, s, hinit, hrun⟩ := demo_runs
  have hbuilt : demoCalls.foldl apply empty () ≠ none := Option.some_ne_none _
  obtain ⟨l, hfreed, hnodup, hmem, -⟩ := unprotect_frees_owned bootState_start hinit
    demoCalls_allowed hrun hbuilt rfl
  exact ⟨s, _, rfl, l, hfreed, hnodup, hmem⟩

end Riscv32Cpu.X86Vme.Refinement
