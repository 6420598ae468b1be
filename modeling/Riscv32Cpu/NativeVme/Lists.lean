/- module: Riscv32Cpu/NativeVme/Lists
   source: CODE/abstract-machine/am/src/native/vme.c
   digest: Page lists, hash tables and host mappings stay in step until a page is mapped again. -/

import Riscv32Cpu.NativeVme.Model

set_option autoImplicit false
set_option relaxedAutoImplicit false

namespace Riscv32Cpu.NativeVme.Lists

open Riscv32Cpu.Lib.Effect Riscv32Cpu.Lib.Chains Riscv32Cpu.NativeVme.Model

variable {α : Type}

theorem digitChars_inj {l l' : List Nat} (h : ∀ d ∈ l, d < 16) (h' : ∀ d ∈ l', d < 16)
    (heq : l.map Nat.digitChar = l'.map Nat.digitChar) : l = l' := by
  have hread : ∀ d < 16, ((List.range 16).map Nat.digitChar).idxOf (Nat.digitChar d) = d := by
    decide
  have hback : ∀ {l : List Nat}, (∀ d ∈ l, d < 16) →
      (l.map Nat.digitChar).map ((List.range 16).map Nat.digitChar).idxOf = l := by
    intro l hl
    rw [List.map_map]
    exact (List.map_congr_left fun d hd => hread d (hl d hd)).trans (List.map_id l)
  rw [← hback h, heq, hback h']

theorem userSpace_bounds {p : Ptr} (h : inUserSpace p = true) :
    0x40000000 ≤ p.toNat ∧ p.toNat < 0xc0000000 := by
  rw [inUserSpace, Bool.and_eq_true, BitVec.ule_iff_toNat_le, BitVec.ult_iff_toNat_lt] at h
  exact h

theorem hexKey_inj {va va' : Ptr} (h : inUserSpace va = true) (h' : inUserSpace va' = true)
    (hkey : hexKey va = hexKey va') : va = va' := by
  have hdigits : ∀ {p : Ptr}, inUserSpace p = true →
      hexKey p = (Nat.digits 16 p.toNat).reverse.map Nat.digitChar := by
    intro p hp
    obtain ⟨hle, hlt⟩ := userSpace_bounds hp
    have hnat : (p.setWidth 32).toNat = p.toNat := by
      rw [BitVec.toNat_setWidth, Nat.mod_eq_of_lt (by omega)]
    have hne : (p.setWidth 32).toNat ≠ 0 := by omega
    rw [hexKey, if_neg hne, hnat]
  have hsmall : ∀ n, ∀ d ∈ (Nat.digits 16 n).reverse, d < 16 := fun n d hd =>
    Nat.digits_lt_base (by decide) (List.mem_reverse.mp hd)
  rw [hdigits h, hdigits h'] at hkey
  have hreverse := digitChars_inj (hsmall _) (hsmall _) hkey
  exact BitVec.eq_of_toNat_eq (Nat.digits_inj_iff.mp (List.reverse_injective hreverse))

/-- A page of the list `l` maps `va` to `pa` with `prot`. -/
def Listed (s : St α) (l : List Ptr) (va pa : Ptr) (prot : BitVec 32) : Prop :=
  ∃ p ∈ l, (s.pages p).va = va ∧ (s.pages p).pa = pa ∧ (s.pages p).prot = prot

/-- The lists of the `VMHead` objects are `L`. -/
structure Inv (s : St α) (L : Ptr → List Ptr) : Prop where
  enabled : s.vme_enable = true
  chain : ∀ {h}, h ∈ s.made → Chain (link s) 0 (s.heads h).head (L h)
  made : ∀ {h}, h ∈ s.made → h ≠ 0 ∧ h ∈ s.used
  page : ∀ {h p}, h ∈ s.made → p ∈ L h → p ∈ s.used ∧ inUserSpace (s.pages p).va = true
  owner : ∀ {h h' p}, h ∈ s.made → h' ∈ s.made → p ∈ L h → p ∈ L h' → h = h'
  nodup : ∀ {h}, h ∈ s.made → ((L h).map fun p => (s.pages p).va).Nodup
  hash : ∀ {h va p}, h ∈ s.made → inUserSpace va = true →
    ((s.heads h).hash (hexKey va) = some p ↔ p ∈ L h ∧ (s.pages p).va = va)
  latest : ∀ {h}, h ∈ s.made → ∀ va pa prot, Listed s (L h) va pa prot ↔
    s.latest h va = some (pa, prot)
  mapped : ∀ {h p}, h ∈ s.made → p ∈ L h → ((s.pages p).is_mapped = true ↔ h = s.vm_head)
  current : s.vm_head = 0 ∨ s.vm_head ∈ s.made
  host : ∀ va, s.host va = if s.vm_head = 0 then none else s.latest s.vm_head va

/-- The page list of a `VMHead`; `NULL` has none. -/
def PageList (s : St α) (h : Ptr) (l : List Ptr) : Prop :=
  if h = 0 then l = [] else Chain (link s) 0 (s.heads h).head l

section operations
variable {s s' : St α} {as : α} {va pa : Ptr} {prot : BitVec 32}

theorem check_bind_ok {β : Type} {cond : Bool} {stop : Stop} {f : Unit → M α β} {b : β}
    (h : (check cond stop >>= f) s = .ok b s') : cond = true ∧ f () s = .ok b s' :=
  ensure_bind_ok h

variable {al : Allocator α}

theorem pgalloc_ok {stop : Stop} {p : Ptr} (h : pgalloc al stop s = .ok p s') :
    p ≠ 0 ∧ p ∉ s.used ∧ s' = { s with used := p :: s.used } := by
  have hsteps : pgalloc al stop s = (check (al.page s != 0) stop >>= fun _ => do
    modify fun s' => { s' with used := al.page s :: s'.used }
    return al.page s) s := rfl
  rw [hsteps] at h
  obtain ⟨hnonzero, h⟩ := check_bind_ok h
  cases h
  have hne : al.page s ≠ 0 := bne_iff_ne.mp hnonzero
  exact ⟨hne, al.fresh s hne, rfl⟩

theorem protect_ok [DecidableEq α] (hrun : protect al as s = .ok () s') : ∃ h, h ≠ 0 ∧ h ∉ s.used ∧
    s' = { s with
      heads := Function.update s.heads h ⟨0, fun _ => none, 0⟩
      ptr := Function.update s.ptr as h
      used := h :: s.used
      made := h :: s.made
      latest := Function.update s.latest h fun _ => none } := by
  obtain ⟨h, s₁, halloc, hrun⟩ := bind_eq_ok hrun
  obtain ⟨hne, hfresh, rfl⟩ := pgalloc_ok halloc
  cases hrun
  exact ⟨h, hne, hfresh, rfl⟩

/-- `pp` was filled in and put at the head of the list of `h`, whose table is now `hash`. -/
structure Entered (s : St α) (h pp va pa : Ptr) (prot : BitVec 32)
    (hash : List Char → Option Ptr) (s' : St α) : Prop where
  pages : ∃ key, s'.pages = Function.update s.pages pp
    ⟨va, pa, (s.heads h).head, prot, decide (h = s.vm_head), key⟩
  heads : ∃ nr_page, s'.heads = Function.update s.heads h ⟨pp, hash, nr_page⟩
  latest : s'.latest =
    Function.update s.latest h (Function.update (s.latest h) va (some (pa, prot)))
  host : s'.host =
    if h = s.vm_head then Function.update s.host va (some (pa, prot)) else s.host
  vme_enable : s'.vme_enable = s.vme_enable
  made : s'.made = s.made
  vm_head : s'.vm_head = s.vm_head

theorem enter_ok {h pp : Ptr} (hrun : (linkPage h pp va pa prot >>= fun _ => do
      if h = (← get).vm_head then enforceMap pp else return) s = .ok () s') :
    Entered s h pp va pa prot (s.heads h).hash s' ∧ s'.used = s.used := by
  obtain ⟨u, s₁, hlink, hrun⟩ := bind_eq_ok hrun
  cases hlink
  by_cases hcur : h = s.vm_head
  · have henforce := (congrFun (if_pos hcur) _).symm.trans hrun
    cases henforce
    refine ⟨⟨⟨(s.pages pp).key, ?_⟩, ⟨(s.heads h).nr_page, rfl⟩, rfl, ?_, rfl, rfl, rfl⟩, rfl⟩
    · simp [hcur]
    · simp [hcur]
  · have hskip := (congrFun (if_neg hcur) _).symm.trans hrun
    cases hskip
    refine ⟨⟨⟨(s.pages pp).key, ?_⟩, ⟨(s.heads h).nr_page, rfl⟩, rfl, ?_, rfl, rfl, rfl⟩, rfl⟩
    · rw [decide_eq_false hcur]
    · rw [if_neg hcur]

theorem findPage_found {h pp : Ptr} (hlookup : (s.heads h).hash (hexKey va) = some pp) :
    findPage al h va s = .ok pp s := by
  rw [findPage_eq, hlookup]
  rfl

theorem findPage_new {h pp : Ptr} (hlookup : (s.heads h).hash (hexKey va) = none)
    (hrun : findPage al h va s = .ok pp s') : pp ≠ 0 ∧ pp ∉ s.used ∧ s' = { s with
      used := pp :: s.used
      pages := Function.update s.pages pp { s.pages pp with key := hexKey va }
      heads := Function.update s.heads h { s.heads h with
        hash := Function.update (s.heads h).hash (hexKey va) (some pp)
        nr_page := (s.heads h).nr_page + 1 } } := by
  rw [findPage_eq, hlookup] at hrun
  obtain ⟨p, s₁, halloc, hrun⟩ := bind_eq_ok hrun
  obtain ⟨hne, hfresh, rfl⟩ := pgalloc_ok halloc
  cases hrun
  exact ⟨hne, hfresh, rfl⟩

theorem map_ok {pgsize : Nat} (hrun : map al pgsize as va pa prot s = .ok () s') :
    inUserSpace va = true ∧ ((∃ pp, (s.heads (s.ptr as)).hash (hexKey va) = some pp ∧
        Entered s (s.ptr as) pp va pa prot (s.heads (s.ptr as)).hash s' ∧ s'.used = s.used) ∨
      ∃ pp, (s.heads (s.ptr as)).hash (hexKey va) = none ∧ pp ≠ 0 ∧ pp ∉ s.used ∧
        Entered s (s.ptr as) pp va pa prot
          (Function.update (s.heads (s.ptr as)).hash (hexKey va) (some pp)) s' ∧
        s'.used = pp :: s.used) := by
  obtain ⟨hva, hrun⟩ := check_bind_ok hrun
  obtain ⟨-, hrun⟩ := check_bind_ok hrun
  obtain ⟨-, hrun⟩ := check_bind_ok hrun
  have hsteps := check_bind_ok hrun
  obtain ⟨-, hrun⟩ := hsteps
  obtain ⟨pp, s₁, hfind, hrun⟩ := bind_eq_ok hrun
  refine ⟨hva, ?_⟩
  cases hlookup : (s.heads (s.ptr as)).hash (hexKey va) with
  | some q =>
    cases (findPage_found hlookup).symm.trans hfind
    exact .inl ⟨_, rfl, enter_ok hrun⟩
  | none =>
    obtain ⟨hne, hfresh, rfl⟩ := findPage_new hlookup hfind
    obtain ⟨henter, hused⟩ := enter_ok hrun
    refine .inr ⟨pp, rfl, hne, hfresh, ?_, hused⟩
    obtain ⟨⟨key, hpages⟩, ⟨nr_page, hheads⟩, hlatest, hhost, henable, hmade, hcur⟩ := henter
    refine ⟨⟨key, ?_⟩, ⟨nr_page, ?_⟩, hlatest, hhost, henable, hmade, hcur⟩
    · rw [hpages]
      simp
    · rw [hheads]
      simp

end operations

section invariant
variable {s s' : St α} {L : Ptr → List Ptr} {as : α} {va pa : Ptr} {prot : BitVec 32}
  {al : Allocator α}

theorem Inv.ne_of_fresh (h : Inv s L) {q : Ptr} (hq : q ∉ s.used) {v : Ptr} (hv : v ∈ s.made) :
    v ≠ q ∧ q ∉ L v := by
  refine ⟨?_, fun hmem => hq (h.page hv hmem).1⟩
  rintro rfl
  exact hq (h.made hv).2

theorem protect_inv [DecidableEq α] (h : Inv s L) (hrun : protect al as s = .ok () s') :
    ∃ L', Inv s' L' := by
  obtain ⟨v, hne, hfresh, rfl⟩ := protect_ok hrun
  refine ⟨Function.update L v [], ?_⟩
  have hold : ∀ {u}, u ∈ s.made → u ≠ v := fun hu => (h.ne_of_fresh hfresh hu).1
  have hcur : s.vm_head ≠ v := by
    rcases h.current with hzero | hmade
    · rw [hzero]
      exact hne.symm
    · exact hold hmade
  -- the new space has no page, and the other lists are the old ones
  have hlist : ∀ {u p}, u ∈ v :: s.made → p ∈ Function.update L v [] u → u ∈ s.made ∧ p ∈ L u := by
    intro u p hu hp
    rcases List.mem_cons.mp hu with rfl | hu
    · rw [Function.update_self] at hp
      cases hp
    · rw [Function.update_of_ne (hold hu)] at hp
      exact ⟨hu, hp⟩
  constructor
  case enabled => exact h.enabled
  case chain =>
    intro u hu
    rcases List.mem_cons.mp hu with rfl | hu
    · simp [Chain]
    · rw [Function.update_of_ne (hold hu)]
      show Chain (link s) 0 (Function.update s.heads v _ u).head (L u)
      rw [Function.update_of_ne (hold hu)]
      exact h.chain hu
  case made =>
    intro u hu
    rcases List.mem_cons.mp hu with rfl | hu
    · exact ⟨hne, List.mem_cons_self⟩
    · exact ⟨(h.made hu).1, List.mem_cons_of_mem v (h.made hu).2⟩
  case page =>
    intro u p hu hp
    obtain ⟨hu, hp⟩ := hlist hu hp
    exact ⟨List.mem_cons_of_mem v (h.page hu hp).1, (h.page hu hp).2⟩
  case owner =>
    intro u u' p hu hu' hp hp'
    obtain ⟨hu, hp⟩ := hlist hu hp
    obtain ⟨hu', hp'⟩ := hlist hu' hp'
    exact h.owner hu hu' hp hp'
  case nodup =>
    intro u hu
    rcases List.mem_cons.mp hu with rfl | hu
    · rw [Function.update_self]
      exact List.nodup_nil
    · rw [Function.update_of_ne (hold hu)]
      exact h.nodup hu
  case hash =>
    intro u va p hu hva
    show (Function.update s.heads v _ u).hash _ = _ ↔ _
    rcases List.mem_cons.mp hu with rfl | hu
    · simp
    · rw [Function.update_of_ne (hold hu), Function.update_of_ne (hold hu)]
      exact h.hash hu hva
  case latest =>
    intro u hu va pa prot
    show Listed s (Function.update L v [] u) va pa prot ↔ Function.update s.latest v _ u va = _
    rcases List.mem_cons.mp hu with rfl | hu
    · simp [Listed]
    · rw [Function.update_of_ne (hold hu), Function.update_of_ne (hold hu)]
      exact h.latest hu va pa prot
  case mapped =>
    intro u p hu hp
    obtain ⟨hu, hp⟩ := hlist hu hp
    exact h.mapped hu hp
  case current => exact h.current.imp_right fun hmade => List.mem_cons_of_mem v hmade
  case host =>
    intro va
    show s.host va = if s.vm_head = 0 then none else Function.update s.latest v _ s.vm_head va
    rw [Function.update_of_ne hcur]
    exact h.host va

/-- A page that is new to the space `v` is entered in its list. -/
structure EntersNew (s : St α) (L : Ptr → List Ptr) (v pp va pa : Ptr) (prot : BitVec 32)
    (s' : St α) : Prop where
  inv : Inv s L
  space : v ∈ s.made
  user : inUserSpace va = true
  new : (s.heads v).hash (hexKey va) = none
  ne : pp ≠ 0
  fresh : pp ∉ s.used
  entered : Entered s v pp va pa prot (Function.update (s.heads v).hash (hexKey va) (some pp)) s'
  used : s'.used = pp :: s.used

theorem EntersNew.page {v pp : Ptr} (h : EntersNew s L v pp va pa prot s') : ∃ key,
    s'.pages pp = ⟨va, pa, (s.heads v).head, prot, decide (v = s.vm_head), key⟩ := by
  obtain ⟨key, hpages⟩ := h.entered.pages
  exact ⟨key, by rw [hpages, Function.update_self]⟩

theorem EntersNew.keep {v pp : Ptr} (h : EntersNew s L v pp va pa prot s') {u q : Ptr}
    (hu : u ∈ s.made) (hq : q ∈ L u) : s'.pages q = s.pages q := by
  obtain ⟨key, hpages⟩ := h.entered.pages
  rw [hpages, Function.update_of_ne]
  rintro rfl
  exact (h.inv.ne_of_fresh h.fresh hu).2 hq

theorem EntersNew.head {v pp : Ptr} (h : EntersNew s L v pp va pa prot s') : (s'.heads v).head = pp ∧
    (s'.heads v).hash = Function.update (s.heads v).hash (hexKey va) (some pp) := by
  obtain ⟨nr_page, hheads⟩ := h.entered.heads
  rw [hheads, Function.update_self]
  exact ⟨rfl, rfl⟩

theorem EntersNew.headOther {v pp : Ptr} (h : EntersNew s L v pp va pa prot s') {u : Ptr}
    (hu : u ≠ v) : s'.heads u = s.heads u := by
  obtain ⟨nr_page, hheads⟩ := h.entered.heads
  rw [hheads, Function.update_of_ne hu]

theorem EntersNew.va_ne {v pp : Ptr} (h : EntersNew s L v pp va pa prot s') {q : Ptr}
    (hq : q ∈ L v) : (s.pages q).va ≠ va := by
  intro hqva
  cases h.new.symm.trans ((h.inv.hash h.space h.user).mpr ⟨hq, hqva⟩)

theorem mem_grown {v pp u q : Ptr} (hq : q ∈ Function.update L v (pp :: L v) u) :
    (u = v ∧ q = pp) ∨ q ∈ L u := by
  by_cases huv : u = v
  · subst huv
    rw [Function.update_self] at hq
    rcases List.mem_cons.mp hq with rfl | hq
    · exact .inl ⟨rfl, rfl⟩
    · exact .inr hq
  · rw [Function.update_of_ne huv] at hq
    exact .inr hq

theorem EntersNew.chain {v pp : Ptr} (h : EntersNew s L v pp va pa prot s') {u : Ptr}
    (hu : u ∈ s.made) :
    Chain (link s') 0 (s'.heads u).head (Function.update L v (pp :: L v) u) := by
  have hlink : ∀ q ∈ L u, link s' q = link s q := by
    intro q hq
    rw [link, link, h.keep hu hq]
  by_cases huv : u = v
  · subst huv
    obtain ⟨key, hpage⟩ := h.page
    rw [Function.update_self, h.head.1]
    refine ⟨rfl, h.ne, ?_⟩
    rw [link, hpage]
    exact chain_congr hlink (h.inv.chain hu)
  · rw [Function.update_of_ne huv, h.headOther huv]
    exact chain_congr hlink (h.inv.chain hu)

theorem EntersNew.nodup {v pp : Ptr} (h : EntersNew s L v pp va pa prot s') {u : Ptr}
    (hu : u ∈ s.made) :
    ((Function.update L v (pp :: L v) u).map fun q => (s'.pages q).va).Nodup := by
  have hmap : (L u).map (fun q => (s'.pages q).va) = (L u).map fun q => (s.pages q).va :=
    List.map_congr_left fun q hq => by rw [h.keep hu hq]
  by_cases huv : u = v
  · subst huv
    obtain ⟨key, hpage⟩ := h.page
    rw [Function.update_self, List.map_cons, hmap, hpage]
    refine List.nodup_cons.mpr ⟨fun hmem => ?_, h.inv.nodup hu⟩
    obtain ⟨q, hq, hqva⟩ := List.mem_map.mp hmem
    exact h.va_ne hq hqva
  · rw [Function.update_of_ne huv, hmap]
    exact h.inv.nodup hu

theorem EntersNew.hash {v pp : Ptr} (h : EntersNew s L v pp va pa prot s') {u va' q : Ptr}
    (hu : u ∈ s.made) (hva' : inUserSpace va' = true) :
    (s'.heads u).hash (hexKey va') = some q ↔
      q ∈ Function.update L v (pp :: L v) u ∧ (s'.pages q).va = va' := by
  obtain ⟨key, hpage⟩ := h.page
  by_cases huv : u = v
  · subst huv
    rw [h.head.2, Function.update_self]
    by_cases heq : va' = va
    · subst heq
      rw [Function.update_self]
      constructor
      · rintro ⟨⟩
        exact ⟨List.mem_cons_self, by rw [hpage]⟩
      · rintro ⟨hq, hqva⟩
        rcases List.mem_cons.mp hq with rfl | hq
        · rfl
        · rw [h.keep hu hq] at hqva
          exact absurd hqva (h.va_ne hq)
    · rw [Function.update_of_ne fun hkey => heq (hexKey_inj hva' h.user hkey), h.inv.hash hu hva']
      constructor
      · rintro ⟨hq, hqva⟩
        exact ⟨List.mem_cons_of_mem pp hq, by rw [h.keep hu hq, hqva]⟩
      · rintro ⟨hq, hqva⟩
        rcases List.mem_cons.mp hq with rfl | hq
        · rw [hpage] at hqva
          exact absurd hqva.symm heq
        · exact ⟨hq, by rwa [h.keep hu hq] at hqva⟩
  · rw [h.headOther huv, Function.update_of_ne huv, h.inv.hash hu hva']
    exact and_congr_right fun hq => by rw [h.keep hu hq]

theorem EntersNew.latest {v pp : Ptr} (h : EntersNew s L v pp va pa prot s') {u : Ptr}
    (hu : u ∈ s.made) (va' pa' : Ptr) (prot' : BitVec 32) :
    Listed s' (Function.update L v (pp :: L v) u) va' pa' prot' ↔
      s'.latest u va' = some (pa', prot') := by
  have hlisted : Listed s' (L u) va' pa' prot' ↔ Listed s (L u) va' pa' prot' :=
    exists_congr fun q => and_congr_right fun hq => by rw [h.keep hu hq]
  rw [h.entered.latest]
  by_cases huv : u = v
  · subst huv
    obtain ⟨key, hpage⟩ := h.page
    have hcons : Listed s' (pp :: L u) va' pa' prot' ↔
        (va = va' ∧ pa = pa' ∧ prot = prot') ∨ Listed s (L u) va' pa' prot' := by
      rw [← hlisted]
      simp [Listed, hpage]
    rw [Function.update_self, Function.update_self, hcons, h.inv.latest hu]
    by_cases heq : va' = va
    · subst heq
      have hnone : s.latest u va' ≠ some (pa', prot') := by
        intro hsome
        obtain ⟨q, hq, hqva, -⟩ := (h.inv.latest hu _ _ _).mpr hsome
        exact h.va_ne hq hqva
      rw [Function.update_self]
      constructor
      · rintro (⟨-, rfl, rfl⟩ | hsome)
        · rfl
        · exact absurd hsome hnone
      · rintro ⟨⟩
        exact .inl ⟨rfl, rfl, rfl⟩
    · rw [Function.update_of_ne heq]
      refine or_iff_right fun hsame => heq hsame.1.symm
  · rw [Function.update_of_ne huv, Function.update_of_ne huv, hlisted]
    exact h.inv.latest hu va' pa' prot'

theorem EntersNew.host {v pp : Ptr} (h : EntersNew s L v pp va pa prot s') (va' : Ptr) :
    s'.host va' = if s'.vm_head = 0 then none else s'.latest s'.vm_head va' := by
  have hold := h.inv.host va'
  rw [h.entered.host, h.entered.vm_head, h.entered.latest]
  by_cases hcurrent : v = s.vm_head
  · subst hcurrent
    have hvne := (h.inv.made h.space).1
    rw [if_neg hvne] at hold
    rw [if_pos rfl, if_neg hvne, Function.update_self]
    by_cases heq : va' = va
    · rw [heq, Function.update_self, Function.update_self]
    · rw [Function.update_of_ne heq, Function.update_of_ne heq, hold]
  · rw [if_neg hcurrent, Function.update_of_ne (Ne.symm hcurrent)]
    exact hold

theorem enter_inv {v pp : Ptr} (h : EntersNew s L v pp va pa prot s') :
    Inv s' (Function.update L v (pp :: L v)) := by
  obtain ⟨key, hpage⟩ := h.page
  have hnot : ∀ {u}, u ∈ s.made → pp ∉ L u := fun hu => (h.inv.ne_of_fresh h.fresh hu).2
  have hmade : ∀ {u}, u ∈ s'.made → u ∈ s.made := fun hu => h.entered.made ▸ hu
  constructor
  case enabled => rw [h.entered.vme_enable, h.inv.enabled]
  case chain => exact fun hu => h.chain (hmade hu)
  case made =>
    intro u hu
    rw [h.used]
    exact ⟨(h.inv.made (hmade hu)).1, List.mem_cons_of_mem pp (h.inv.made (hmade hu)).2⟩
  case page =>
    intro u q hu hq
    rw [h.used]
    rcases mem_grown hq with ⟨rfl, rfl⟩ | hq
    · rw [hpage]
      exact ⟨List.mem_cons_self, h.user⟩
    · rw [h.keep (hmade hu) hq]
      exact ⟨List.mem_cons_of_mem pp (h.inv.page (hmade hu) hq).1, (h.inv.page (hmade hu) hq).2⟩
  case owner =>
    intro u u' q hu hu' hq hq'
    rcases mem_grown hq with ⟨huv, hqpp⟩ | hin
    · rcases mem_grown hq' with ⟨huv', -⟩ | hin'
      · rw [huv, huv']
      · exact absurd hin' (hqpp ▸ hnot (hmade hu'))
    · rcases mem_grown hq' with ⟨-, hqpp⟩ | hin'
      · exact absurd hin (hqpp ▸ hnot (hmade hu))
      · exact h.inv.owner (hmade hu) (hmade hu') hin hin'
  case nodup => exact fun hu => h.nodup (hmade hu)
  case hash => exact fun hu hva' => h.hash (hmade hu) hva'
  case latest => exact fun hu => h.latest (hmade hu)
  case mapped =>
    intro u q hu hq
    rw [h.entered.vm_head]
    rcases mem_grown hq with ⟨rfl, rfl⟩ | hq
    · rw [hpage]
      exact decide_eq_true_iff
    · rw [h.keep (hmade hu) hq]
      exact h.inv.mapped (hmade hu) hq
  case current =>
    rw [h.entered.vm_head, h.entered.made]
    exact h.inv.current
  case host => exact h.host

/-- From `s` to `t` only `is_mapped` fields and host mappings changed. -/
structure Remapped (s t : St α) : Prop where
  same : t = { s with pages := t.pages, host := t.host }
  page : ∀ q, t.pages q = { s.pages q with is_mapped := (t.pages q).is_mapped }

theorem Remapped.refl (s : St α) : Remapped s s := ⟨rfl, fun _ => rfl⟩

theorem Remapped.form {t : St α} (h : Remapped s t) :
    ∃ (flags : Ptr → Bool) (host : Ptr → Option (Ptr × BitVec 32)), t = { s with
    pages := fun q => { s.pages q with is_mapped := flags q }
    host := host } := by
  refine ⟨fun q => (t.pages q).is_mapped, t.host, ?_⟩
  calc t = { s with pages := t.pages, host := t.host } := h.same
    _ = _ := congrArg (fun pages => { s with pages := pages, host := t.host }) (funext h.page)

theorem Remapped.link_eq {t : St α} (h : Remapped s t) : link t = link s := by
  funext q
  rw [link, h.page]
  rfl

/-- No page of any list is mapped any more. -/
structure Cleared (s t : St α) (L : Ptr → List Ptr) : Prop where
  remapped : Remapped s t
  host : ∀ va, t.host va = none
  pages : ∀ {u q}, u ∈ s.made → q ∈ L u → (t.pages q).is_mapped = false

/-- One page and the host mappings change. -/
def remapPage (t : St α) (q : Ptr) (mapped : Bool) (host : Ptr → Option (Ptr × BitVec 32)) : St α :=
  { t with
    host := host
    pages := Function.update t.pages q { t.pages q with is_mapped := mapped } }

theorem remap_self (t : St α) (q : Ptr) (mapped : Bool) (host : Ptr → Option (Ptr × BitVec 32)) :
    (remapPage t q mapped host).pages q = { t.pages q with is_mapped := mapped } :=
  Function.update_self _ _ _

theorem remap_other (t : St α) {q q' : Ptr} (hne : q' ≠ q) (mapped : Bool)
    (host : Ptr → Option (Ptr × BitVec 32)) : (remapPage t q mapped host).pages q' = t.pages q' :=
  Function.update_of_ne hne _ _

theorem Remapped.remap {t : St α} (h : Remapped s t) (q : Ptr) (mapped : Bool)
    (host : Ptr → Option (Ptr × BitVec 32)) : Remapped s (remapPage t q mapped host) := by
  refine ⟨?_, fun q' => ?_⟩
  · calc remapPage t q mapped host = remapPage { s with pages := t.pages, host := t.host } q mapped
          host := congrArg (fun t' => remapPage t' q mapped host) h.same
      _ = _ := rfl
  · by_cases heq : q' = q
    · rw [heq, remap_self, h.page]
    · rw [remap_other t heq]
      exact h.page q'

/-- While a list is unmapped, only its pages `r` still to come may be mapped. -/
structure Unmapping (s : St α) (L : Ptr → List Ptr) (r : List Ptr) (t : St α) : Prop where
  remapped : Remapped s t
  host : ∀ {va}, t.host va ≠ none → ∃ q ∈ r, (s.pages q).va = va ∧ (t.pages q).is_mapped = true
  pages : ∀ {u q}, u ∈ s.made → q ∈ L u → (t.pages q).is_mapped = true → q ∈ r

theorem Unmapping.skip {q : Ptr} {r : List Ptr} {t : St α} (h : Unmapping s L (q :: r) t)
    (hmapped : (t.pages q).is_mapped = false) :
    unmapPage q t = .ok () t ∧ Unmapping s L r t := by
  have hcond : (t.pages q).is_mapped ≠ true := by
    rw [hmapped]
    exact Bool.false_ne_true
  have htail : ∀ {q'}, q' ∈ q :: r → (t.pages q').is_mapped = true → q' ∈ r := by
    intro q' hq' hm
    refine (List.mem_cons.mp hq').resolve_left ?_
    rintro rfl
    exact hcond hm
  refine ⟨congrFun (if_neg hcond) t, h.remapped, fun hne => ?_, fun hu hq' hm => ?_⟩
  · obtain ⟨q', hq', hva, hm⟩ := h.host hne
    exact ⟨q', htail hq' hm, hva, hm⟩
  · exact htail (h.pages hu hq' hm) hm

theorem Unmapping.unmap {q : Ptr} {r : List Ptr} {t : St α} (h : Unmapping s L (q :: r) t)
    (hmapped : (t.pages q).is_mapped = true) :
    ∃ t', unmapPage q t = .ok () t' ∧ Unmapping s L r t' := by
  have hva : (t.pages q).va = (s.pages q).va := by rw [h.remapped.page]
  refine ⟨remapPage t q false (Function.update t.host (t.pages q).va none),
    congrFun (if_pos hmapped) t, h.remapped.remap q _ _, fun {va} hne => ?_,
    fun {u q'} hu hq' hm => ?_⟩
  · have hva' : va ≠ (t.pages q).va := by
      rintro rfl
      exact hne (Function.update_self _ _ _)
    have hhost : (remapPage t q false (Function.update t.host (t.pages q).va none)).host va =
        t.host va := Function.update_of_ne hva' _ _
    obtain ⟨q', hq', hq'va, hm⟩ := h.host (hhost ▸ hne)
    have heq : q' ≠ q := by
      rintro rfl
      exact hva' (hq'va.symm.trans hva.symm)
    exact ⟨q', (List.mem_cons.mp hq').resolve_left heq, hq'va, by rw [remap_other t heq, hm]⟩
  · have heq : q' ≠ q := by
      rintro rfl
      rw [remap_self] at hm
      cases hm
    rw [remap_other t heq] at hm
    exact (List.mem_cons.mp (h.pages hu hq' hm)).resolve_left heq

theorem Unmapping.step {q : Ptr} {r : List Ptr} {t : St α} (h : Unmapping s L (q :: r) t) :
    ∃ t', unmapPage q t = .ok () t' ∧ Unmapping s L r t' ∧ link t' = link t := by
  cases hmapped : (t.pages q).is_mapped with
  | false => exact ⟨t, (h.skip hmapped).1, (h.skip hmapped).2, rfl⟩
  | true =>
    obtain ⟨t', hrun, h'⟩ := h.unmap hmapped
    exact ⟨t', hrun, h', by rw [h'.remapped.link_eq, h.remapped.link_eq]⟩

theorem Unmapping.start (h : Inv s L) (hcur : s.vm_head ∈ s.made) :
    Unmapping s L (L s.vm_head) s := by
  refine ⟨Remapped.refl s, fun {va} hne => ?_, fun {u q} hu hq hm => ?_⟩
  · rw [h.host, if_neg (h.made hcur).1] at hne
    obtain ⟨⟨pa, prot⟩, hsome⟩ := Option.ne_none_iff_exists'.mp hne
    obtain ⟨q, hq, hva, -⟩ := (h.latest hcur va pa prot).mpr hsome
    exact ⟨q, hq, hva, (h.mapped hcur hq).mpr rfl⟩
  · rwa [← (h.mapped hu hq).mp hm]

theorem Unmapping.done {t : St α} (h : Unmapping s L [] t) : Cleared s t L := by
  refine ⟨h.remapped, fun va => ?_, fun {u q} hu hq => ?_⟩
  · by_contra hne
    obtain ⟨q, hq, -⟩ := h.host hne
    cases hq
  · by_contra hne
    cases h.pages hu hq (Bool.not_eq_false _ ▸ hne)

theorem unmap_all (h : Inv s L) (hcur : s.vm_head ∈ s.made) (n : Nat) :
    (∃ t, listForeach unmapPage n (s.heads s.vm_head).head s = .ok () t ∧ Cleared s t L ∧
        (L s.vm_head).length < n) ∨
      ((∃ t, listForeach unmapPage n (s.heads s.vm_head).head s = .error .outOfFuel t) ∧
        n ≤ (L s.vm_head).length) := by
  rcases forEach_chain (fun _ _ _ => Unmapping.step) (h.chain hcur) (Unmapping.start h hcur) n with
    ⟨t, hrun, hdone, hlt⟩ | hstuck
  · exact .inl ⟨t, hrun, hdone.done, hlt⟩
  · exact .inr hstuck

/-- While the list of `v` is mapped, the pages walked so far are the ones mapped. -/
structure Mapping (s : St α) (L : Ptr → List Ptr) (v : Ptr) (done r : List Ptr) (t : St α) :
    Prop where
  remapped : Remapped s t
  split : L v = done ++ r
  host : ∀ va pa prot, t.host va = some (pa, prot) ↔ Listed s done va pa prot
  pages : ∀ {u q}, u ∈ s.made → q ∈ L u → ((t.pages q).is_mapped = true ↔ q ∈ done)

theorem Mapping.va_ne (h : Inv s L) {v : Ptr} (hv : v ∈ s.made) {done r : List Ptr} {q : Ptr}
    {t : St α} (hm : Mapping s L v done (q :: r) t) {q' : Ptr} (hq' : q' ∈ done) :
    (s.pages q').va ≠ (s.pages q).va := by
  intro heq
  have hnodup := h.nodup hv
  rw [hm.split, List.map_append, List.map_cons] at hnodup
  have hdisjoint := (List.nodup_append.mp hnodup).2.2
  exact hdisjoint _ (List.mem_map_of_mem hq') _ List.mem_cons_self heq

theorem Mapping.step (h : Inv s L) {v : Ptr} (hv : v ∈ s.made) {done r : List Ptr} {q : Ptr}
    {t : St α} (hm : Mapping s L v done (q :: r) t) :
    ∃ t', mapPage q t = .ok () t' ∧ Mapping s L v (done ++ [q]) r t' ∧ link t' = link t := by
  have hq : q ∈ L v := by
    rw [hm.split]
    exact List.mem_append_right done List.mem_cons_self
  have hpage := hm.remapped.page q
  have hva : (t.pages q).va = (s.pages q).va := by rw [hpage]
  have hpa : (t.pages q).pa = (s.pages q).pa := by rw [hpage]
  have hprot : (t.pages q).prot = (s.pages q).prot := by rw [hpage]
  have hstep : mapPage q t = .ok () (remapPage t q true
      (Function.update t.host (t.pages q).va (some ((t.pages q).pa, (t.pages q).prot)))) := by
    have hsteps : mapPage q t = (check (inUserSpace (t.pages q).va) .assertion >>= fun _ =>
      enforceMap q) t := rfl
    rw [hsteps, hva, (h.page hv hq).2, ← hva]
    rfl
  have hremapped := hm.remapped.remap q true
    (Function.update t.host (t.pages q).va (some ((t.pages q).pa, (t.pages q).prot)))
  refine ⟨_, hstep, ⟨hremapped, by rw [hm.split]; simp, fun va pa prot => ?_,
    fun {u q'} hu hq' => ?_⟩, ?_⟩
  · have hlisted : Listed s (done ++ [q]) va pa prot ↔ Listed s done va pa prot ∨
        ((s.pages q).va = va ∧ (s.pages q).pa = pa ∧ (s.pages q).prot = prot) := by
      simp [Listed, or_and_right, exists_or]
    rw [hlisted]
    show Function.update t.host _ _ va = _ ↔ _
    by_cases heq : va = (s.pages q).va
    · rw [hva, hpa, hprot, heq, Function.update_self]
      constructor
      · rintro ⟨⟩
        exact .inr ⟨rfl, rfl, rfl⟩
      · rintro (⟨q', hq', hq'va, -⟩ | ⟨-, rfl, rfl⟩)
        · exact absurd hq'va (hm.va_ne h hv hq')
        · rfl
    · rw [hva, Function.update_of_ne heq, hm.host]
      exact (or_iff_left fun hsame => heq hsame.1.symm).symm
  · rw [List.mem_append, List.mem_singleton]
    by_cases heq : q' = q
    · rw [heq, remap_self]
      simp
    · rw [remap_other t heq, hm.pages hu hq']
      exact (or_iff_left heq).symm
  · rw [hremapped.link_eq, hm.remapped.link_eq]

theorem Mapping.start {t₀ : St α} (hclear : Cleared s t₀ L) (v : Ptr) :
    Mapping s L v [] (L v) t₀ := by
  refine ⟨hclear.remapped, rfl, fun va pa prot => ?_, fun {u q} hu hq => ?_⟩
  · rw [hclear.host]
    simp [Listed]
  · rw [hclear.pages hu hq]
    simp

theorem map_all (h : Inv s L) {t₀ : St α} (hclear : Cleared s t₀ L) {v : Ptr} (hv : v ∈ s.made)
    (n : Nat) :
    (∃ t, listForeach mapPage n (s.heads v).head t₀ = .ok () t ∧ Remapped s t ∧
        (∀ va pa prot, t.host va = some (pa, prot) ↔ Listed s (L v) va pa prot) ∧
        (∀ u q, u ∈ s.made → q ∈ L u → ((t.pages q).is_mapped = true ↔ u = v)) ∧
        (L v).length < n) ∨
      ((∃ t, listForeach mapPage n (s.heads v).head t₀ = .error .outOfFuel t) ∧
        n ≤ (L v).length) := by
  have hbody : ∀ q r t, (∃ done, Mapping s L v done (q :: r) t) →
      ∃ t', mapPage q t = .ok () t' ∧ (∃ done, Mapping s L v done r t') ∧ link t' = link t := by
    rintro q r t ⟨done, hm⟩
    obtain ⟨t', hrun, hm', hlink⟩ := hm.step h hv
    exact ⟨t', hrun, ⟨_, hm'⟩, hlink⟩
  have hchain : Chain (link t₀) 0 (s.heads v).head (L v) := by
    rw [hclear.remapped.link_eq]
    exact h.chain hv
  rcases forEach_chain (I := fun r t => ∃ done, Mapping s L v done r t) hbody hchain
      ⟨[], Mapping.start hclear v⟩ n with
    ⟨t, hrun, ⟨done, hm⟩, hlt⟩ | hstuck
  · have hdone : L v = done := by rw [hm.split, List.append_nil]
    subst hdone
    refine .inl ⟨t, hrun, hm.remapped, hm.host, fun u q hu hq => ?_, hlt⟩
    rw [hm.pages hu hq]
    constructor
    · exact fun hqv => h.owner hu hv hq hqv
    · rintro rfl
      exact hq
  · exact .inr hstuck

theorem switched_inv (h : Inv s L) {t : St α} (hre : Remapped s t) {head : Ptr}
    (hhead : head = 0 ∨ head ∈ s.made)
    (hhost : ∀ va, t.host va = if head = 0 then none else s.latest head va)
    (hpages : ∀ u q, u ∈ s.made → q ∈ L u → ((t.pages q).is_mapped = true ↔ u = head)) :
    Inv { t with vm_head := head } L := by
  obtain ⟨flags, host, rfl⟩ := hre.form
  exact ⟨h.enabled, h.chain, h.made, h.page, h.owner, h.nodup, h.hash, h.latest,
    fun hu hq => hpages _ _ hu hq, hhead, hhost⟩

theorem leave_spec (h : Inv s L) (n : Nat) :
    (∃ t, (if s.vm_head ≠ 0 then listForeach unmapPage n (s.heads s.vm_head).head else return) s =
        .ok () t ∧ Cleared s t L) ∨
      ((∃ t, (if s.vm_head ≠ 0 then listForeach unmapPage n (s.heads s.vm_head).head else return) s =
        .error .outOfFuel t) ∧ n ≤ (L s.vm_head).length) := by
  by_cases hzero : s.vm_head = 0
  · refine .inl ⟨s, congrFun (if_neg (not_not.mpr hzero)) s, Remapped.refl s, fun va => ?_,
      fun {u q} hu hq => ?_⟩
    · rw [h.host, if_pos hzero]
    · by_contra hne
      have heq := (h.mapped hu hq).mp (Bool.not_eq_false _ ▸ hne)
      exact (h.made hu).1 (heq.trans hzero)
  · have hcur := h.current.resolve_left hzero
    rw [if_pos hzero]
    rcases unmap_all h hcur n with ⟨t, hrun, hclear, -⟩ | hstuck
    · exact .inl ⟨t, hrun, hclear⟩
    · exact .inr hstuck

theorem arrive_spec (h : Inv s L) {t : St α} (hclear : Cleared s t L) {head : Ptr}
    (hhead : head = 0 ∨ head ∈ s.made) (n : Nat) :
    (∃ t', (if head ≠ 0 then listForeach mapPage n (t.heads head).head else return) t =
        .ok () t' ∧ Inv { t' with vm_head := head } L) ∨
      ((∃ t', (if head ≠ 0 then listForeach mapPage n (t.heads head).head else return) t =
        .error .outOfFuel t') ∧ n ≤ (L head).length) := by
  have hheads : t.heads = s.heads := by rw [hclear.remapped.same]
  by_cases hzero : head = 0
  · refine .inl ⟨t, congrFun (if_neg (not_not.mpr hzero)) t,
      switched_inv h hclear.remapped hhead (fun va => ?_) fun u q hu hq => ?_⟩
    · rw [hclear.host, if_pos hzero]
    · rw [hclear.pages hu hq, hzero]
      exact iff_of_false Bool.false_ne_true (h.made hu).1
  · have hmade := hhead.resolve_left hzero
    rw [if_pos hzero, hheads]
    rcases map_all h hclear hmade n with ⟨t', hrun, hre, hhost, hpages, -⟩ | hstuck
    · refine .inl ⟨t', hrun, switched_inv h hre hhead (fun va => ?_) hpages⟩
      rw [if_neg hzero]
      refine Option.ext fun ⟨pa, prot⟩ => ?_
      rw [hhost, h.latest hmade]
    · exact .inr hstuck

theorem amSwitch_enabled {head : Ptr} (henable : s.vme_enable = true) (n : Nat) :
    amSwitch n head s = ((if head = s.vm_head then return
      else do
        (if s.vm_head ≠ 0 then listForeach unmapPage n (s.heads s.vm_head).head else return)
        let t ← get
        (if head ≠ 0 then listForeach mapPage n (t.heads head).head else return) : M α Unit) >>=
      fun _ => modify fun t => { t with vm_head := head }) s := by
  have hcond : (!s.vme_enable) ≠ true := by
    rw [henable]
    exact Bool.false_ne_true
  exact congrFun (if_neg hcond) s

theorem amSwitch_steps {head : Ptr} (henable : s.vme_enable = true) (hne : head ≠ s.vm_head)
    (n : Nat) : amSwitch n head s = ((do
      (if s.vm_head ≠ 0 then listForeach unmapPage n (s.heads s.vm_head).head else return)
      let t ← get
      (if head ≠ 0 then listForeach mapPage n (t.heads head).head else return) : M α Unit) >>=
    fun _ => modify fun t => { t with vm_head := head }) s := by
  rw [amSwitch_enabled henable, if_neg hne]

theorem amSwitch_same {head : Ptr} (henable : s.vme_enable = true) (heq : head = s.vm_head)
    (n : Nat) : amSwitch n head s = .ok () { s with vm_head := head } := by
  rw [amSwitch_enabled henable, if_pos heq]
  rfl

theorem switch_spec (h : Inv s L) {head : Ptr} (hhead : head = 0 ∨ head ∈ s.made) (n : Nat) :
    (∃ s', amSwitch n head s = .ok () s' ∧ Inv s' L) ∨
      ((∃ s', amSwitch n head s = .error .outOfFuel s') ∧
        (n ≤ (L s.vm_head).length ∨ n ≤ (L head).length)) := by
  by_cases hsame : head = s.vm_head
  · refine .inl ⟨_, amSwitch_same h.enabled hsame n,
      switched_inv h (Remapped.refl s) hhead (fun va => ?_) fun u q hu hq => ?_⟩
    · rw [hsame]
      exact h.host va
    · rw [hsame]
      exact h.mapped hu hq
  · rw [amSwitch_steps h.enabled hsame]
    rcases leave_spec h n with ⟨t, hleave, hclear⟩ | ⟨⟨t, hstuck⟩, hle⟩
    · rcases arrive_spec h hclear hhead n with ⟨t', harrive, hinv⟩ | ⟨⟨t', hstuck⟩, hle⟩
      · exact .inl ⟨_, bind_of_ok ((bind_of_ok hleave).trans harrive), hinv⟩
      · exact .inr ⟨⟨t', bind_of_error ((bind_of_ok hleave).trans hstuck)⟩, .inr hle⟩
    · exact .inr ⟨⟨t, bind_of_error (bind_of_error hstuck)⟩, .inl hle⟩

end invariant

end Riscv32Cpu.NativeVme.Lists
