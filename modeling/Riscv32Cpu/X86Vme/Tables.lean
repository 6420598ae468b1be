/- module: Riscv32Cpu/X86Vme/Tables
   source: CODE/abstract-machine/am/src/x86/qemu/vme.c
   digest: The page tables of all address spaces as one forest; what each write does to it. -/

import Riscv32Cpu.Lib.Trees
import Riscv32Cpu.X86Vme.Model

set_option autoImplicit false
set_option relaxedAutoImplicit false

namespace Riscv32Cpu.X86Vme.Tables

open Riscv32Cpu.Lib.Trees Riscv32Cpu.X86Vme.Config Riscv32Cpu.X86Vme.Model

variable {a : Arch} {α : Type}

/-- The entries of a level-1 table that belong to kernel areas. -/
def KernelIndex : Arch → Nat → Prop
  | .i386, j => j < 256 ∨ (1012 ≤ j ∧ j < 1024)
  | .x86_64, j => j = 0

/-- Tables that no call writes: their pages and what these hold. -/
structure Frozen (a : Arch) where
  root : Word a
  pages : List (Word a)
  mem : Word a → Nat → Word a

/-- The kernel's page tables. -/
structure Kernel (a : Arch) extends Frozen a where
  root_isPage : IsPage root
  root_mem : root ∈ pages
  /-- A kernel entry is present and not for the user. -/
  entry : ∀ {j}, KernelIndex a j → has (mem root j) pteP = true ∧ has (mem root j) pteU = false
  /-- It leads to another of the pages. -/
  next : ∀ {j}, KernelIndex a j → frameOf (mem root j) ∈ pages
  /-- The walk ends there. -/
  last : ∀ {j}, KernelIndex a j → ∀ i < 2 ^ levelBits a, 2 = ptlevels a ∨
    (largePage a 2 && has (mem (frameOf (mem root j)) i) ptePS) = true

/-- The flags of an entry that leads to a table. -/
def linkFlags : Space α → Nat → Word a
  | .boot, _ => pteP ||| pteW
  | .user _, 0 => pteP ||| pteU
  | .user _, _ + 1 => pteP ||| (pteW ||| pteU)

/-- Entry `i` of the table at place `π` is a copy of the kernel's. -/
def Shared (a : Arch) : Space α → List Nat → Nat → Prop
  | .user _, [0], i => KernelIndex a i
  | _, _, _ => False

/-- The number of entries of the table at place `π`, whose level is its depth. -/
def entries (a : Arch) (π : List Nat) : Nat := 2 ^ (pgtables a π.length).bits

/-- The memory holds the tables of the forest `F`, with the entries `leaf` at the last level and
the kernel's tables as they are. -/
structure Inv (K : Frozen a) (s : St a α) (F : Forest (Space α) (Loc a α))
    (leaf : Space α → List Nat → Word a) : Prop where
  slot : ∀ {sp t}, F.node sp [] = some t → t = .slot sp
  page : ∀ {sp i π t}, F.node sp (i :: π) = some t →
    ∃ p, t = .page p ∧ IsPage p ∧ p ∈ s.tables ∧ p ∉ K.pages
  place : ∀ {sp i π t}, F.node sp (i :: π) = some t → π.length < ptlevels a ∧ i < entries a π
  link : ∀ {sp π i t p}, F.node sp π = some t → F.node sp (i :: π) = some (.page p) →
    s.mem t i = p ||| linkFlags sp π.length
  gap : ∀ {sp π i t}, F.node sp π = some t → π.length < ptlevels a → i < entries a π →
    F.node sp (i :: π) = none → ¬Shared a sp π i → has (s.mem t i) pteP = false
  shared : ∀ {sp π i t}, F.node sp π = some t → Shared a sp π i →
    s.mem t i = K.mem K.root i ∧ F.node sp (i :: π) = none
  leafs : ∀ {sp π i t}, F.node sp π = some t → π.length = ptlevels a → s.mem t i = leaf sp (i :: π)
  noleaf : ∀ {sp π i}, F.node sp π = none → leaf sp (i :: π) = 0#_
  kernel : ∀ {p}, p ∈ K.pages → p ∈ s.tables ∧ ∀ i, s.mem (.page p) i = K.mem p i
  owned : ∀ {sp t}, F.node sp [] = some t →
    ∀ p, p ∈ s.owned sp ↔ ∃ i π, F.node sp (i :: π) = some (.page p)

variable {K : Frozen a} {s : St a α} {F : Forest (Space α) (Loc a α)}
  {leaf : Space α → List Nat → Word a}

theorem linkFlags_cases (sp : Space α) (n : Nat) : (linkFlags sp n : Word a) = pteP ||| pteW ∨
    (linkFlags sp n : Word a) = pteP ||| pteU ∨
    (linkFlags sp n : Word a) = pteP ||| (pteW ||| pteU) := by
  cases sp with
  | boot => exact .inl rfl
  | user as =>
    cases n with
    | zero => exact .inr (.inl rfl)
    | succ n => exact .inr (.inr rfl)

theorem linkFlags_isFlags (sp : Space α) (n : Nat) : IsFlags (linkFlags sp n : Word a) := by
  unfold IsFlags
  rcases linkFlags_cases (a := a) sp n with h | h | h <;> rw [h] <;> cases a <;> decide

theorem linkFlags_present (sp : Space α) (n : Nat) : has (linkFlags sp n : Word a) pteP = true := by
  rcases linkFlags_cases (a := a) sp n with h | h | h <;> rw [h] <;> cases a <;> decide

theorem linkFlags_small (sp : Space α) (n : Nat) : has (linkFlags sp n : Word a) ptePS = false := by
  rcases linkFlags_cases (a := a) sp n with h | h | h <;> rw [h] <;> cases a <;> decide

theorem linkFlags_user (as : α) (n : Nat) : has (linkFlags (.user as) n : Word a) pteU = true := by
  cases n with
  | zero =>
    show has (pteP ||| pteU) pteU = true
    cases a <;> decide
  | succ n =>
    show has (pteP ||| (pteW ||| pteU)) pteU = true
    cases a <;> decide

theorem linkFlags_writable (as : α) (n : Nat) :
    has (linkFlags (.user as) (n + 1) : Word a) pteW = true := by
  show has (pteP ||| (pteW ||| pteU)) pteW = true
  cases a <;> decide

theorem ptlevels_pos : 1 < ptlevels a := by cases a <;> decide

theorem Shared.root {sp : Space α} {π : List Nat} {i : Nat} (h : Shared a sp π i) :
    π = [0] ∧ KernelIndex a i := by
  unfold Shared at h
  split at h
  · exact ⟨rfl, h⟩
  · cases h

theorem Inv.fresh (h : Inv K s F leaf) {p : Word a} (hp : p ∉ s.tables) (sp : Space α)
    (π : List Nat) : F.node sp π ≠ some (.page p) := by
  intro hnode
  cases π with
  | nil => cases h.slot hnode
  | cons i π =>
    obtain ⟨q, hq, -, hmem, -⟩ := h.page hnode
    cases hq
    exact hp hmem

theorem Inv.not_kernel (h : Inv K s F leaf) {p : Word a} (hp : p ∈ K.pages) (sp : Space α)
    (π : List Nat) : F.node sp π ≠ some (.page p) := by
  intro hnode
  cases π with
  | nil => cases h.slot hnode
  | cons i π =>
    obtain ⟨q, hq, -, -, hnot⟩ := h.page hnode
    cases hq
    exact hnot hp

theorem Inv.next_table (h : Inv K s F leaf) {sp : Space α} {π : List Nat} {i : Nat} {t : Loc a α}
    (ht : F.node sp π = some t) (hlen : π.length < ptlevels a) (hi : i < entries a π)
    (hpresent : has (s.mem t i) pteP = true) (hown : ¬Shared a sp π i) :
    ∃ p, F.node sp (i :: π) = some (.page p) ∧ IsPage p ∧
      s.mem t i = p ||| linkFlags sp π.length := by
  cases hnext : F.node sp (i :: π) with
  | none =>
    rw [h.gap ht hlen hi hnext hown] at hpresent
    cases hpresent
  | some t' =>
    obtain ⟨p, rfl, hp, -⟩ := h.page hnext
    exact ⟨p, rfl, hp, h.link ht hnext⟩

theorem Inv.start (hpages : K.pages ⊆ s.tables) (hmem : K.mem = s.pages) :
    Inv K s Forest.empty fun _ _ => 0#_ := by
  constructor
  case noleaf => exact fun _ => rfl
  case kernel => exact fun hp => ⟨hpages hp, fun i => by rw [hmem]; rfl⟩
  all_goals exact fun ht => by cases ht

variable [DecidableEq α]

@[simp] theorem put_owned (t : Loc a α) (i : Nat) (v : Word a) : (s.put t i v).owned = s.owned := rfl

theorem put_same (t : Loc a α) (i : Nat) (v : Word a) : (s.put t i v).mem t i = v := by
  show Function.update s.mem t (Function.update (s.mem t) i v) t i = v
  rw [Function.update_self, Function.update_self]

theorem put_other (t : Loc a α) (i : Nat) (v : Word a) {t' : Loc a α} {i' : Nat}
    (h : ¬(t' = t ∧ i' = i)) : (s.put t i v).mem t' i' = s.mem t' i' := by
  show Function.update s.mem t (Function.update (s.mem t) i v) t' i' = s.mem t' i'
  by_cases ht : t' = t
  · subst ht
    rw [Function.update_self, Function.update_of_ne fun hi => h ⟨rfl, hi⟩]
  · rw [Function.update_of_ne ht]

theorem grow_new (sp : Space α) (p : Word a) (i : Nat) : (s.grow sp p).mem (.page p) i = 0#_ := by
  show Function.update s.mem (.page p) (fun _ => 0#_) (.page p) i = 0#_
  rw [Function.update_self]

theorem grow_other (sp : Space α) (p : Word a) {t : Loc a α} (h : t ≠ .page p) :
    (s.grow sp p).mem t = s.mem t := Function.update_of_ne h _ _

theorem Inv.put_leaf (h : Inv K s F leaf) {sp : Space α} {π : List Nat} {t : Loc a α}
    (ht : F.node sp π = some t) (hlen : π.length = ptlevels a) (i : Nat) (v : Word a) :
    Inv K (s.put t i v) F fun sp' ρ => if sp' = sp ∧ ρ = i :: π then v else leaf sp' ρ := by
  -- an entry of a table above the last level is not the one written
  have habove : ∀ {sp' π' t' i'}, F.node sp' π' = some t' → π'.length ≠ ptlevels a →
      (s.put t i v).mem t' i' = s.mem t' i' := by
    intro sp' π' t' i' ht' hne
    refine put_other t i v fun hsame => hne ?_
    rw [hsame.1] at ht'
    rw [(F.inj ht' ht).2, hlen]
  refine ⟨h.slot, h.page, h.place, fun hp hc => ?_, fun hp hl hi hn hs => ?_, fun hp hs => ?_,
    fun {sp' π' i' t'} hp hl => ?_, fun {sp' π' i'} hn => ?_, fun hp => ⟨(h.kernel hp).1, ?_⟩,
    h.owned⟩
  · rw [habove hp (Nat.ne_of_lt (h.place hc).1)]
    exact h.link hp hc
  · rw [habove hp (Nat.ne_of_lt hl)]
    exact h.gap hp hl hi hn hs
  · have hroot := h.shared hp hs
    refine ⟨?_, hroot.2⟩
    rw [habove hp]
    · exact hroot.1
    · rw [hs.root.1]
      exact Nat.ne_of_lt ptlevels_pos
  · by_cases hnew : sp' = sp ∧ i' :: π' = i :: π
    · rw [if_pos hnew]
      obtain ⟨rfl, hpath⟩ := hnew
      cases hpath
      cases ht.symm.trans hp
      exact put_same t i v
    · rw [if_neg hnew, put_other t i v]
      · exact h.leafs hp hl
      · rintro ⟨rfl, rfl⟩
        obtain ⟨rfl, rfl⟩ := F.inj hp ht
        exact hnew ⟨rfl, rfl⟩
  · have hold : ¬(sp' = sp ∧ i' :: π' = i :: π) := by
      rintro ⟨rfl, hpath⟩
      cases hpath
      cases ht.symm.trans hn
    rw [if_neg hold]
    exact h.noleaf hn
  · intro j
    rw [put_other t i v]
    · exact (h.kernel hp).2 j
    · rintro ⟨rfl, rfl⟩
      exact h.not_kernel hp _ _ ht

theorem Inv.mem_grafted (h : Inv K s F leaf) {sp : Space α} {π : List Nat} {i : Nat} {t : Loc a α}
    (ht : F.node sp π = some t) {p : Word a} (hfresh : p ∉ s.tables) (v : Word a) {sp' : Space α}
    {π' : List Nat} {t' : Loc a α} {i' : Nat} (ht' : F.node sp' π' = some t')
    (hne : ¬(sp' = sp ∧ i' :: π' = i :: π)) :
    ((s.grow sp p).put t i v).mem t' i' = s.mem t' i' := by
  rw [put_other, grow_other]
  · exact fun heq => h.fresh hfresh sp' π' (heq ▸ ht')
  · rintro ⟨rfl, rfl⟩
    obtain ⟨rfl, rfl⟩ := F.inj ht' ht
    exact hne ⟨rfl, rfl⟩

theorem Inv.mem_new (h : Inv K s F leaf) {sp : Space α} {π : List Nat} {t : Loc a α}
    (ht : F.node sp π = some t) {p : Word a} (hfresh : p ∉ s.tables) (i : Nat) (v : Word a)
    (j : Nat) : ((s.grow sp p).put t i v).mem (.page p) j = 0#_ := by
  rw [put_other, grow_new]
  exact fun heq => h.fresh hfresh sp π (heq.1 ▸ ht)

theorem mem_update_cons {f : Space α → List (Word a)} {sp sp' : Space α} {p q : Word a} :
    q ∈ Function.update f sp (p :: f sp) sp' ↔ (sp' = sp ∧ q = p) ∨ q ∈ f sp' := by
  by_cases hsp : sp' = sp
  · subst hsp
    rw [Function.update_self, List.mem_cons, eq_self, true_and]
  · rw [Function.update_of_ne hsp]
    exact (or_iff_right fun hnew => hsp hnew.1).symm

theorem Inv.graft (h : Inv K s F leaf) {sp : Space α} {π : List Nat} {i : Nat} {t : Loc a α}
    (ht : F.node sp π = some t) (hlen : π.length < ptlevels a) (hi : i < entries a π)
    (hnone : F.node sp (i :: π) = none) (hown : ¬Shared a sp π i)
    (hnot : ∀ j, ¬Shared a sp (i :: π) j) {p : Word a} (hp : IsPage p) (hfresh : p ∉ s.tables) :
    ∃ F', Inv K ((s.grow sp p).put t i (p ||| linkFlags sp π.length)) F' leaf ∧
      F'.node sp (i :: π) = some (.page p) ∧
      (∀ sp' π', ¬(sp' = sp ∧ π' = i :: π) → F'.node sp' π' = F.node sp' π') := by
  have hparent : F.node sp π ≠ none := by
    rw [ht]
    exact Option.some_ne_none t
  refine ⟨F.graft sp π i (.page p) hparent (h.fresh hfresh), ?_, Forest.graft_new,
    fun sp' π' => Forest.graft_old⟩
  constructor
  case slot =>
    intro sp' t' ht'
    rcases Forest.graft_eq_some ht' with ⟨-, hpath, -⟩ | hold
    · cases hpath
    · exact h.slot hold
  case page =>
    intro sp' i' π' t' ht'
    rcases Forest.graft_eq_some ht' with ⟨-, -, rfl⟩ | hold
    · exact ⟨p, rfl, hp, List.mem_cons_self, fun hk => hfresh (h.kernel hk).1⟩
    · obtain ⟨q, hq, hqp, hmem, hnk⟩ := h.page hold
      exact ⟨q, hq, hqp, List.mem_cons_of_mem p hmem, hnk⟩
  case place =>
    intro sp' i' π' t' ht'
    rcases Forest.graft_eq_some ht' with ⟨-, hpath, -⟩ | hold
    · cases hpath
      exact ⟨hlen, hi⟩
    · exact h.place hold
  case link =>
    intro sp' π' i' t' q ht' hq
    rcases Forest.graft_eq_some hq with ⟨rfl, hpath, hqp⟩ | hold
    · cases hpath
      cases hqp
      rcases Forest.graft_eq_some ht' with ⟨-, hbad, -⟩ | hold'
      · exact absurd hbad.symm (List.cons_ne_self i π)
      · cases ht.symm.trans hold'
        exact put_same _ _ _
    · obtain ⟨u, hu⟩ := F.parent_of_child hold
      cases (Forest.graft_mono hnone hu).symm.trans ht'
      rw [h.mem_grafted ht hfresh _ hu]
      · exact h.link hu hold
      · rintro ⟨rfl, hpath⟩
        rw [hpath, hnone] at hold
        cases hold
  case gap =>
    intro sp' π' i' t' ht' hl hi' hn hs
    rcases Forest.graft_eq_some ht' with ⟨-, -, rfl⟩ | hold
    · rw [h.mem_new ht hfresh]
      exact has_zero _
    · obtain ⟨hne, hn'⟩ := Forest.graft_eq_none hn
      rw [h.mem_grafted ht hfresh _ hold hne]
      exact h.gap hold hl hi' hn' hs
  case shared =>
    intro sp' π' i' t' ht' hs
    rcases Forest.graft_eq_some ht' with ⟨rfl, rfl, -⟩ | hold
    · exact absurd hs (hnot i')
    · have hne : ¬(sp' = sp ∧ i' :: π' = i :: π) := by
        rintro ⟨rfl, hpath⟩
        cases hpath
        exact hown hs
      rw [h.mem_grafted ht hfresh _ hold hne, Forest.graft_old hne]
      exact h.shared hold hs
  case leafs =>
    intro sp' π' i' t' ht' hl
    rcases Forest.graft_eq_some ht' with ⟨rfl, rfl, rfl⟩ | hold
    · rw [h.mem_new ht hfresh, h.noleaf hnone]
    · rw [h.mem_grafted ht hfresh _ hold]
      · exact h.leafs hold hl
      · rintro ⟨rfl, hpath⟩
        cases hpath
        exact Nat.ne_of_lt hlen hl
  case noleaf =>
    intro sp' π' i' hn
    exact h.noleaf (Forest.graft_eq_none hn).2
  case kernel =>
    intro q hq
    refine ⟨List.mem_cons_of_mem p (h.kernel hq).1, fun j => ?_⟩
    rw [put_other, grow_other, (h.kernel hq).2 j]
    · rintro heq
      cases heq
      exact hfresh (h.kernel hq).1
    · rintro ⟨rfl, -⟩
      exact h.not_kernel hq _ _ ht
  case owned =>
    intro sp' t' ht' q
    have hold : F.node sp' [] = some t' := by
      rcases Forest.graft_eq_some ht' with ⟨-, hpath, -⟩ | hold
      · cases hpath
      · exact hold
    show q ∈ Function.update s.owned sp (p :: s.owned sp) sp' ↔ _
    rw [mem_update_cons, h.owned hold q]
    constructor
    · rintro (⟨rfl, rfl⟩ | ⟨i', π', hnode⟩)
      · exact ⟨i, π, Forest.graft_new⟩
      · exact ⟨i', π', Forest.graft_mono hnone hnode⟩
    · rintro ⟨i', π', hnode⟩
      rcases Forest.graft_eq_some hnode with ⟨hsp, -, hqp⟩ | hnode
      · cases hqp
        exact .inl ⟨hsp, rfl⟩
      · exact .inr ⟨i', π', hnode⟩

theorem Inv.fell (h : Inv K s F leaf) {sp : Space α} {s' : St a α}
    (hmem : ∀ t, (∀ π, F.node sp π ≠ some t) → s'.mem t = s.mem t)
    (htables : ∀ p ∈ s.tables, (∀ π, F.node sp π ≠ some (.page p)) → p ∈ s'.tables)
    (howned : ∀ sp', sp' ≠ sp → s'.owned sp' = s.owned sp') :
    Inv K s' (F.fell sp) (Function.update leaf sp fun _ => 0#_) := by
  -- the other trees keep their tables
  have hother : ∀ {sp' π' t}, sp' ≠ sp → F.node sp' π' = some t → ∀ π, F.node sp π ≠ some t := by
    intro sp' π' t hne ht π hsame
    exact hne (F.inj ht hsame).1
  have hnone : ∀ {sp' π'}, sp' ≠ sp → (F.fell sp).node sp' π' = none → F.node sp' π' = none :=
    fun hne hn => (Forest.fell_old hne).symm.trans hn
  constructor
  case slot =>
    intro sp' t ht
    exact h.slot (Forest.fell_eq_some ht).2
  case page =>
    intro sp' i π t ht
    obtain ⟨hne, hold⟩ := Forest.fell_eq_some ht
    obtain ⟨p, rfl, hp, hmem', hk⟩ := h.page hold
    exact ⟨p, rfl, hp, htables p hmem' (hother hne hold), hk⟩
  case place =>
    intro sp' i π t ht
    exact h.place (Forest.fell_eq_some ht).2
  case link =>
    intro sp' π i t p ht hp
    obtain ⟨hne, hold⟩ := Forest.fell_eq_some ht
    rw [hmem t (hother hne hold)]
    exact h.link hold (Forest.fell_eq_some hp).2
  case gap =>
    intro sp' π i t ht hl hi hn hs
    obtain ⟨hne, hold⟩ := Forest.fell_eq_some ht
    rw [hmem t (hother hne hold)]
    exact h.gap hold hl hi (hnone hne hn) hs
  case shared =>
    intro sp' π i t ht hs
    obtain ⟨hne, hold⟩ := Forest.fell_eq_some ht
    rw [hmem t (hother hne hold), Forest.fell_old hne]
    exact h.shared hold hs
  case leafs =>
    intro sp' π i t ht hl
    obtain ⟨hne, hold⟩ := Forest.fell_eq_some ht
    rw [hmem t (hother hne hold), Function.update_of_ne hne]
    exact h.leafs hold hl
  case noleaf =>
    intro sp' π i hn
    by_cases hne : sp' = sp
    · rw [hne, Function.update_self]
    · rw [Function.update_of_ne hne]
      exact h.noleaf (hnone hne hn)
  case kernel =>
    intro p hp
    obtain ⟨htab, hentries⟩ := h.kernel hp
    have hnot := h.not_kernel hp sp
    rw [hmem _ hnot]
    exact ⟨htables p htab hnot, hentries⟩
  case owned =>
    intro sp' t ht p
    obtain ⟨hne, hold⟩ := Forest.fell_eq_some ht
    rw [howned sp' hne, h.owned hold p]
    refine exists_congr fun i => exists_congr fun π => ?_
    rw [Forest.fell_old hne]

theorem Inv.plant (h : Inv K s F leaf) {as : α} (hnone : ∀ π, F.node (.user as) π = none)
    {p : Word a} (hp : IsPage p) (hfresh : p ∉ s.tables) {s' : St a α}
    (hmem : ∀ t, t ≠ .slot (.user as) → t ≠ .page p → s'.mem t = s.mem t)
    (hslot : s'.mem (.slot (.user as)) 0 = p ||| linkFlags (.user as) 0)
    (hcopied : ∀ j, KernelIndex a j → s'.mem (.page p) j = K.mem K.root j)
    (hclear : ∀ j, ¬KernelIndex a j → s'.mem (.page p) j = 0#_)
    (htables : s'.tables = p :: s.tables)
    (howned : s'.owned = Function.update s.owned (.user as) [p]) :
    ∃ F', Inv K s' F' leaf ∧ F'.node (.user as) [0] = some (.page p) ∧
      (∀ sp, sp ≠ .user as → F'.node sp = F.node sp) := by
  have hpage := h.fresh hfresh
  have hnew : ∀ sp' π', F.node sp' π' ≠ some (.slot (.user as)) := by
    intro sp' π' hnode
    cases π' with
    | nil =>
      cases h.slot hnode
      cases (hnone []).symm.trans hnode
    | cons i π' =>
      obtain ⟨q, hq, -⟩ := h.page hnode
      cases hq
  obtain ⟨F', hslotNode, hrootNode, hold, hcases⟩ :=
    F.exists_plant_graft 0 hnone hnew hpage (w := .page p) fun heq => by cases heq
  have hkeep : ∀ {sp π t}, F.node sp π = some t → s'.mem t = s.mem t := by
    intro sp π t ht
    refine hmem t ?_ ?_
    · rintro rfl
      exact hnew sp π ht
    · rintro rfl
      exact hpage sp π ht
  have hdeep : ∀ i j π, F'.node (.user as) (i :: j :: π) = none := by
    intro i j π
    cases hnode : F'.node (.user as) (i :: j :: π) with
    | none => rfl
    | some t =>
      rcases hcases _ _ _ hnode with ⟨-, hpath, -⟩ | ⟨-, hpath, -⟩ | ⟨hne, -⟩
      · cases hpath
      · cases hpath
      · exact absurd rfl hne
  refine ⟨F', ?_, hrootNode, fun sp hne => funext (hold sp hne)⟩
  constructor
  case slot =>
    intro sp t ht
    rcases hcases _ _ _ ht with ⟨rfl, -, rfl⟩ | ⟨-, hpath, -⟩ | ⟨-, ht⟩
    · rfl
    · cases hpath
    · exact h.slot ht
  case page =>
    intro sp i π t ht
    rcases hcases _ _ _ ht with ⟨-, hpath, -⟩ | ⟨-, -, rfl⟩ | ⟨-, ht⟩
    · cases hpath
    · refine ⟨p, rfl, hp, ?_, fun hk => hfresh (h.kernel hk).1⟩
      rw [htables]
      exact List.mem_cons_self
    · obtain ⟨q, rfl, hq, hq', hk⟩ := h.page ht
      refine ⟨q, rfl, hq, ?_, hk⟩
      rw [htables]
      exact List.mem_cons_of_mem p hq'
  case place =>
    intro sp i π t ht
    rcases hcases _ _ _ ht with ⟨-, hpath, -⟩ | ⟨-, hpath, -⟩ | ⟨-, ht⟩
    · cases hpath
    · cases hpath
      exact ⟨Nat.lt_of_succ_lt ptlevels_pos, Nat.two_pow_pos _⟩
    · exact h.place ht
  case link =>
    intro sp π i t q ht hq
    rcases hcases _ _ _ hq with ⟨-, hpath, -⟩ | ⟨rfl, hpath, hqp⟩ | ⟨hne, hq⟩
    · cases hpath
    · cases hpath
      cases hqp
      cases hslotNode.symm.trans ht
      exact hslot
    · have ht' := (hold _ hne _).symm.trans ht
      rw [hkeep ht']
      exact h.link ht' hq
  case gap =>
    intro sp π i t ht hl hi hn hs
    rcases hcases _ _ _ ht with ⟨rfl, rfl, -⟩ | ⟨rfl, rfl, rfl⟩ | ⟨hne, ht⟩
    · have hzero : i = 0 := by
        have hone : entries a [] = 1 := by cases a <;> rfl
        rw [hone] at hi
        exact Nat.lt_one_iff.mp hi
      rw [hzero, hrootNode] at hn
      cases hn
    · rw [hclear i hs]
      exact has_zero _
    · rw [hkeep ht]
      exact h.gap ht hl hi ((hold _ hne _).symm.trans hn) hs
  case shared =>
    intro sp π i t ht hs
    rcases hcases _ _ _ ht with ⟨rfl, rfl, -⟩ | ⟨rfl, rfl, rfl⟩ | ⟨hne, ht⟩
    · cases hs.root.1
    · exact ⟨hcopied i hs, hdeep i 0 []⟩
    · rw [hkeep ht, hold _ hne]
      exact h.shared ht hs
  case leafs =>
    intro sp π i t ht hl
    rcases hcases _ _ _ ht with ⟨-, rfl, -⟩ | ⟨-, rfl, -⟩ | ⟨-, ht⟩
    · exact absurd hl (Nat.ne_of_lt (Nat.lt_of_succ_lt ptlevels_pos))
    · exact absurd hl (Nat.ne_of_lt ptlevels_pos)
    · rw [hkeep ht]
      exact h.leafs ht hl
  case noleaf =>
    intro sp π i hn
    by_cases hne : sp = .user as
    · rw [hne]
      exact h.noleaf (hnone π)
    · exact h.noleaf ((hold _ hne _).symm.trans hn)
  case kernel =>
    intro q hq
    obtain ⟨htab, hentries⟩ := h.kernel hq
    refine ⟨?_, fun i => ?_⟩
    · rw [htables]
      exact List.mem_cons_of_mem p htab
    · rw [hmem (.page q) (by rintro ⟨⟩), hentries i]
      rintro heq
      cases heq
      exact hfresh htab
  case owned =>
    intro sp t ht q
    by_cases hne : sp = .user as
    · subst hne
      rw [howned, Function.update_self, List.mem_singleton]
      constructor
      · rintro rfl
        exact ⟨0, [], hrootNode⟩
      · rintro ⟨i, π, hnode⟩
        rcases hcases _ _ _ hnode with ⟨-, hpath, -⟩ | ⟨-, -, hq⟩ | ⟨hne, -⟩
        · cases hpath
        · cases hq
          rfl
        · exact absurd rfl hne
    · rw [howned, Function.update_of_ne hne, h.owned ((hold _ hne _).symm.trans ht) q]
      refine exists_congr fun i => exists_congr fun π => ?_
      rw [hold _ hne]

end Riscv32Cpu.X86Vme.Tables
