/- module: Riscv32Cpu/X86Vme/Walk
   source: CODE/abstract-machine/am/src/x86/qemu/vme.c
   digest: `ptwalk` follows the forest and grows it; the page walk of the processor reads it. -/

import Riscv32Cpu.X86Vme.Tables

set_option autoImplicit false
set_option relaxedAutoImplicit false

namespace Riscv32Cpu.X86Vme.Walk

open Riscv32Cpu.Lib.Effect Riscv32Cpu.Lib.Trees
open Riscv32Cpu.X86Vme.Config Riscv32Cpu.X86Vme.Model Riscv32Cpu.X86Vme.Tables

variable {a : Arch} {α : Type}

/-- The place of the table of level `n` that the walk for `addr` comes to. -/
def place (addr : Word a) : Nat → List Nat
  | 0 => []
  | n + 1 => indexof addr (pgtables a n) :: place addr n

theorem place_length (addr : Word a) (n : Nat) : (place addr n).length = n := by
  induction n with
  | zero => rfl
  | succ n ih => exact congrArg Nat.succ ih

theorem place_one (addr : Word a) : place addr 1 = [0] := by
  rw [place, place, indexof_zero]

theorem place_of_le (addr : Word a) {m n : Nat} (h : m ≤ n) :
    ∃ σ, place addr n = σ ++ place addr m := by
  induction n with
  | zero =>
    obtain rfl := Nat.le_zero.mp h
    exact ⟨[], rfl⟩
  | succ n ih =>
    rcases Nat.le_succ_iff.mp h with hle | rfl
    · obtain ⟨σ, hσ⟩ := ih hle
      exact ⟨indexof addr (pgtables a n) :: σ, by rw [place, hσ, List.cons_append]⟩
    · exact ⟨[], rfl⟩

theorem indexof_entries {addr : Word a} {n : Nat} (h : n ≤ ptlevels a) :
    indexof addr (pgtables a n) < entries a (place addr n) := by
  rw [entries, place_length]
  exact indexof_lt h addr

/-- What a step that only adds tables to `sp` keeps. -/
structure Grown (sp : Space α) (s s' : St a α) (F F' : Forest (Space α) (Loc a α)) : Prop where
  mono : ∀ {sp' π t}, F.node sp' π = some t → F'.node sp' π = some t
  others : ∀ {sp'}, sp' ≠ sp → F'.node sp' = F.node sp'
  kpt : s'.kpt = s.kpt
  freed : s'.freed = s.freed
  tables : ∀ {p}, p ∈ s.tables → p ∈ s'.tables

theorem Grown.refl (sp : Space α) (s : St a α) (F : Forest (Space α) (Loc a α)) :
    Grown sp s s F F := ⟨fun h => h, fun _ => rfl, rfl, rfl, fun h => h⟩

theorem Grown.trans {sp : Space α} {s₁ s₂ s₃ : St a α} {F₁ F₂ F₃ : Forest (Space α) (Loc a α)}
    (h : Grown sp s₁ s₂ F₁ F₂) (h' : Grown sp s₂ s₃ F₂ F₃) : Grown sp s₁ s₃ F₁ F₃ where
  mono ht := h'.mono (h.mono ht)
  others hne := (h'.others hne).trans (h.others hne)
  kpt := h'.kpt.trans h.kpt
  freed := h'.freed.trans h.freed
  tables hp := h'.tables (h.tables hp)

theorem Grown.missing {sp sp' : Space α} {s s' : St a α} {F F' : Forest (Space α) (Loc a α)}
    (h : Grown sp s s' F F') {π : List Nat} (hn : F'.node sp' π = none) : F.node sp' π = none := by
  cases hold : F.node sp' π with
  | none => rfl
  | some t => cases (h.mono hold).symm.trans hn

variable {K : Frozen a} {s s' : St a α} {F : Forest (Space α) (Loc a α)}
  {leaf : Space α → List Nat → Word a}

/-- What an entry of the last level translates to. -/
def ofPte (entry : Word a) : Option (Translation a) :=
  if has entry pteP then some ⟨frameOf entry, 12, has entry pteU, has entry pteW⟩ else none

theorem levelShift_last : levelShift a (ptlevels a) = 12 := by
  rw [levelShift, Nat.sub_self, Nat.mul_zero]

theorem frameOf_aligned (entry : Word a) :
    frameOf entry &&& ~~~(1#a.width <<< 12 - 1#a.width) = frameOf entry := by
  have hmask : frameMask a &&& ~~~(1#a.width <<< 12 - 1#a.width) = frameMask a := by
    cases a <;> decide
  rw [frameOf, BitVec.and_assoc, hmask]

theorem hwWalk_leaf (h : Inv K s F leaf) {as : α} {va : Word a}
    (huser : ¬KernelIndex a (hwIndex va 1)) {n : Nat} (hn : n < ptlevels a) {p : Word a}
    (hp : F.node (.user as) (place va (ptlevels a - n)) = some (.page p)) :
    hwWalk s.pages va (n + 1) p true true = ofPte (leaf (.user as) (place va (ptlevels a + 1))) := by
  induction n generalizing p with
  | zero =>
    have hpos : 1 ≤ ptlevels a := ptlevels_pos.le
    have hentry : s.pages p (hwIndex va (ptlevels a)) =
        leaf (.user as) (place va (ptlevels a + 1)) := by
      rw [← indexof_hwIndex hpos le_rfl]
      exact h.leafs hp (place_length va _)
    rw [hwWalk, Nat.sub_zero, hentry, levelShift_last, frameOf_aligned, ofPte]
    cases has (leaf (.user as) (place va (ptlevels a + 1))) pteP with
    | true => simp
    | false => simp
  | succ n ih =>
    obtain ⟨l, hl⟩ : ∃ l, ptlevels a - (n + 1) = l := ⟨_, rfl⟩
    have hpos : 1 ≤ l := by omega
    have hlt : l < ptlevels a := by omega
    rw [show ptlevels a - n = l + 1 by omega] at ih
    rw [hl] at hp
    have hown : ¬Shared a (.user as) (place va l) (indexof va (pgtables a l)) := by
      intro hs
      have hone : l = 1 := by
        have hlength := congrArg List.length hs.root.1
        rwa [place_length] at hlength
      subst hone
      exact huser (indexof_hwIndex hpos hlt.le va ▸ hs.root.2)
    have hentry : s.pages p (hwIndex va l) = s.mem (.page p) (indexof va (pgtables a l)) := by
      rw [indexof_hwIndex hpos hlt.le]
      rfl
    rw [hwWalk, hl, hentry]
    cases hnext : F.node (.user as) (place va (l + 1)) with
    | none =>
      have hgap := h.gap hp (by rwa [place_length]) (indexof_entries hlt.le) hnext hown
      have hleaf : leaf (.user as) (place va (ptlevels a + 1)) = 0#_ := by
        obtain ⟨σ, hσ⟩ := place_of_le va (show l + 1 ≤ ptlevels a by omega)
        refine h.noleaf ?_
        rw [hσ]
        exact F.none_below hnext σ
      rw [hleaf, ofPte, has_zero]
      simp [hgap]
    | some t =>
      obtain ⟨q, rfl, hq, -⟩ := h.page hnext
      rw [h.link hp hnext, place_length]
      obtain ⟨m, rfl⟩ : ∃ m, l = m + 1 := ⟨l - 1, by omega⟩
      have hflags := linkFlags_isFlags (a := a) (.user as) (m + 1)
      simp only [has_or hq pteP_flag, has_or hq pteW_flag, has_or hq pteU_flag, has_or hq ptePS_flag,
        linkFlags_present, linkFlags_small, linkFlags_user, linkFlags_writable, frameOf_or hq hflags,
        Bool.and_true, Bool.and_false, Bool.not_true, Bool.false_eq_true, if_false,
        Nat.add_eq_zero_iff, Nat.succ_ne_self, and_false, or_self]
      exact ih (by omega) hnext

/-- Through a copy of a kernel entry, the walk goes as in the kernel's own tables. -/
theorem hwWalk_kernel (K : Kernel a) {mem : Word a → Nat → Word a}
    (hmem : ∀ p ∈ K.pages, ∀ i, mem p i = K.mem p i) {va : Word a}
    (hk : KernelIndex a (hwIndex va 1)) {p : Word a}
    (hroot : mem p (hwIndex va 1) = K.mem K.root (hwIndex va 1)) :
    hwWalk mem va (ptlevels a) p true true = hwWalk K.mem va (ptlevels a) K.root true true := by
  obtain ⟨n, hn⟩ : ∃ n, ptlevels a = n + 2 := ⟨ptlevels a - 2, by have := @ptlevels_pos a; omega⟩
  have hone : ptlevels a - (n + 1) = 1 := by omega
  have htwo : ptlevels a - n = 2 := by omega
  have hlast := K.last hk (hwIndex va 2) (Nat.mod_lt _ (Nat.two_pow_pos _))
  have hnext := hmem _ (K.next hk) (hwIndex va 2)
  have hsmall : largePage a 1 = false := by cases a <;> rfl
  rw [hn, hwWalk, hwWalk, hone, hroot]
  simp only [(K.entry hk).1, hsmall, Bool.not_true, Bool.false_and, Bool.false_eq_true, if_false,
    Nat.succ_ne_zero, or_self]
  rw [hwWalk, hwWalk, htwo, hnext]
  -- an entry of the second level ends the walk
  have hend : n = 0 ∨ (largePage a 2 &&
      has (K.mem (frameOf (K.mem K.root (hwIndex va 1))) (hwIndex va 2)) ptePS) = true :=
    hlast.imp_left fun htop => by omega
  simp only [if_pos hend]

theorem panicOn_bind_ok {β : Type} {cond : Bool} {msg : String} {f : Unit → M a α β} {b : β}
    (h : (panicOn cond msg >>= f) s = .ok b s') : cond = false ∧ f () s = .ok b s' := by
  obtain ⟨hcond, h⟩ := guard_bind_ok ⟨_, _, rfl⟩ h
  exact ⟨Bool.eq_false_of_not_eq_true hcond, h⟩

/-- What `ptwalk` needs where it adds a table: its flags are those of the level, and the entry and
the new table are no part of the kernel's. -/
def Growable (F : Forest (Space α) (Loc a α)) (sp : Space α) (addr flags : Word a) : Prop :=
  ∀ n, F.node sp (place addr (n + 1)) = none →
    pteP ||| flags = linkFlags sp n ∧ ¬Shared a sp (place addr n) (indexof addr (pgtables a n)) ∧
      ∀ j, ¬Shared a sp (place addr (n + 1)) j

theorem Growable.grown {sp : Space α} {addr flags : Word a} {F' : Forest (Space α) (Loc a α)}
    (hg : Growable F sp addr flags) (h : Grown sp s s' F F') : Growable F' sp addr flags :=
  fun n hn => hg n (h.missing hn)

variable [DecidableEq α] {al : Allocator a α}

theorem pgallocz_ok {sp : Space α} {p : Word a} (h : pgallocz al sp s = .ok p s') :
    IsPage p ∧ p ∉ s.tables ∧ s' = s.grow sp p := by
  have hsteps : pgallocz al sp s = (panicOn (al.page s == 0#_) "cannot allocate page" >>= fun _ => do
      modify fun s' => s'.grow sp (al.page s)
      return al.page s) s := rfl
  rw [hsteps] at h
  obtain ⟨hnonzero, h⟩ := panicOn_bind_ok h
  cases h
  obtain ⟨hpage, hfresh⟩ := al.fresh s (by simpa using hnonzero)
  exact ⟨hpage, hfresh, rfl⟩

theorem ptwalkLoop_missing {sp : Space α} {addr flags : Word a} {n : Nat} {pt : Loc a α}
    (h : has (s.mem pt (indexof addr (pgtables a (ptlevels a - (n + 1))))) pteP = false) :
    ptwalkLoop al sp addr flags (n + 1) pt s = (pgallocz al sp >>= fun next => do
      setEntry pt (indexof addr (pgtables a (ptlevels a - (n + 1)))) (next ||| pteP ||| flags)
      ptwalkLoop al sp addr flags n (.page next)) s := by
  have hcond : (!has (s.mem pt (indexof addr (pgtables a (ptlevels a - (n + 1))))) pteP) = true := by
    rw [h, Bool.not_false]
  exact congrFun (if_pos hcond) s

theorem ptwalkLoop_present {sp : Space α} {addr flags : Word a} {n : Nat} {pt : Loc a α}
    (h : has (s.mem pt (indexof addr (pgtables a (ptlevels a - (n + 1))))) pteP = true) :
    ptwalkLoop al sp addr flags (n + 1) pt s = ptwalkLoop al sp addr flags n
      (.page (baseof (s.mem pt (indexof addr (pgtables a (ptlevels a - (n + 1))))))) s := by
  have hcond : (!has (s.mem pt (indexof addr (pgtables a (ptlevels a - (n + 1))))) pteP) ≠ true := by
    rw [h]
    exact Bool.false_ne_true
  exact congrFun (if_neg hcond) s

theorem ptwalkLoop_spec {sp : Space α} {addr flags : Word a} {n : Nat} (hn : n ≤ ptlevels a)
    {pt : Loc a α} {r : Loc a α × Nat} (h : Inv K s F leaf)
    (hpt : F.node sp (place addr (ptlevels a - n)) = some pt)
    (hg : Growable F sp addr flags) (hrun : ptwalkLoop al sp addr flags n pt s = .ok r s') :
    ∃ F', Inv K s' F' leaf ∧ Grown sp s s' F F' ∧ F'.node sp (place addr (ptlevels a)) = some r.1 ∧
      r.2 = indexof addr (pgtables a (ptlevels a)) := by
  induction n generalizing pt s F with
  | zero =>
    cases hrun
    exact ⟨F, h, Grown.refl _ _ _, hpt, rfl⟩
  | succ n ih =>
    -- the table stands at level `l`, the next one at level `l + 1`
    obtain ⟨l, hl⟩ : ∃ l, ptlevels a - (n + 1) = l := ⟨_, rfl⟩
    have hlt : l < ptlevels a := by omega
    have hlen : (place addr l).length < ptlevels a := by rwa [place_length]
    have hidx : indexof addr (pgtables a l) < entries a (place addr l) := indexof_entries hlt.le
    have ih := @ih
    rw [show ptlevels a - n = l + 1 by omega] at ih
    rw [hl] at hpt
    cases hpresent : has (s.mem pt (indexof addr (pgtables a l))) pteP with
    | true =>
      rw [← hl] at hpresent
      rw [ptwalkLoop_present hpresent, hl] at hrun
      rw [hl] at hpresent
      have hown : ¬Shared a sp (place addr l) (indexof addr (pgtables a l)) := by
        intro hs
        exact (hg l (h.shared hpt hs).2).2.1 hs
      obtain ⟨p, hp, hpage, hentry⟩ := h.next_table hpt hlen hidx hpresent hown
      rw [hentry, baseof_or hpage (linkFlags_isFlags sp _)] at hrun
      exact ih (Nat.le_of_succ_le hn) h hp hg hrun
    | false =>
      rw [← hl] at hpresent
      rw [ptwalkLoop_missing hpresent, hl] at hrun
      rw [hl] at hpresent
      obtain ⟨p, s₁, halloc, hrun⟩ := bind_eq_ok hrun
      obtain ⟨hpage, hfresh, rfl⟩ := pgallocz_ok halloc
      obtain ⟨u, s₂, hset, hrun⟩ := bind_eq_ok hrun
      cases hset
      -- were there a table, the entry would be present
      have hnone : F.node sp (place addr (l + 1)) = none := by
        cases hnext : F.node sp (place addr (l + 1)) with
        | none => rfl
        | some t =>
          obtain ⟨q, rfl, hq, -⟩ := h.page hnext
          rw [h.link hpt hnext, has_or hq pteP_flag, linkFlags_present] at hpresent
          cases hpresent
      obtain ⟨hflags, hown, hnot⟩ := hg l hnone
      have hentry : p ||| pteP ||| flags = p ||| linkFlags sp (place addr l).length := by
        rw [BitVec.or_assoc, hflags, place_length]
      rw [hentry] at hrun
      obtain ⟨F₁, h₁, hnew, hold⟩ := h.graft hpt hlen hidx hnone hown hnot hpage hfresh
      have hgrown : Grown sp s ((s.grow sp p).put pt (indexof addr (pgtables a l))
          (p ||| linkFlags sp (place addr l).length)) F F₁ := by
        refine ⟨fun {sp' π t} ht => ?_, fun {sp'} hne => funext fun π => ?_, rfl, rfl,
          fun hq => List.mem_cons_of_mem p hq⟩
        · rw [hold sp' π, ht]
          rintro ⟨rfl, rfl⟩
          cases hnone.symm.trans ht
        · exact hold sp' π fun hc => hne hc.1
      obtain ⟨F₂, h₂, hgrown', hlast, hindex⟩ :=
        ih (Nat.le_of_succ_le hn) h₁ hnew (hg.grown hgrown) hrun
      exact ⟨F₂, h₂, hgrown.trans hgrown', hlast, hindex⟩

theorem ptwalk_spec {sp : Space α} {addr flags : Word a} {r : Loc a α × Nat} (h : Inv K s F leaf)
    (hslot : F.node sp [] ≠ none) (hg : Growable F sp addr flags)
    (hrun : ptwalk al sp addr flags s = .ok r s') :
    ∃ F', Inv K s' F' leaf ∧ Grown sp s s' F F' ∧ F'.node sp (place addr (ptlevels a)) = some r.1 ∧
      r.2 = indexof addr (pgtables a (ptlevels a)) := by
  obtain ⟨t, ht⟩ := Option.ne_none_iff_exists'.mp hslot
  obtain rfl := h.slot ht
  refine ptwalkLoop_spec le_rfl h ?_ hg hrun
  rw [Nat.sub_self]
  exact ht

end Riscv32Cpu.X86Vme.Walk
