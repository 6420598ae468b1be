/- module: Riscv32Cpu/NativeVme/Remap
   source: CODE/abstract-machine/am/src/native/vme.c
   digest: The page lists and the host mappings agree exactly in the runs that map no page twice. -/

import Riscv32Cpu.NativeVme.Lists

set_option autoImplicit false
set_option relaxedAutoImplicit false

namespace Riscv32Cpu.NativeVme.Remap

open Riscv32Cpu.Lib.Effect Riscv32Cpu.Lib.Chains
open Riscv32Cpu.NativeVme.Model Riscv32Cpu.NativeVme.Lists

variable {α : Type}

def NeverStuck {β : Type} (x : M α β) : Prop := ∀ s s', x s ≠ .error .outOfFuel s'

section stuck
variable {β γ : Type}

theorem neverStuck_bind {x : M α β} {f : β → M α γ} (hx : NeverStuck x)
    (hf : ∀ b, NeverStuck (f b)) : NeverStuck (x >>= f) := by
  intro s s' hstuck
  cases hrun : x s with
  | ok b t => exact hf b t s' ((bind_of_ok hrun).symm.trans hstuck)
  | error e t =>
    cases (bind_of_error hrun).symm.trans hstuck
    exact hx s s' hrun

theorem neverStuck_pure (b : β) : NeverStuck (pure b : M α β) := fun _ _ h => by cases h

theorem neverStuck_get : NeverStuck (get : M α (St α)) := fun _ _ h => by cases h

theorem neverStuck_modify (f : St α → St α) : NeverStuck (modify f : M α Unit) :=
  fun _ _ h => by cases h

theorem neverStuck_check {cond : Bool} {stop : Stop} (h : stop ≠ .outOfFuel) :
    NeverStuck (check cond stop : M α Unit) := by
  intro s s' hstuck
  cases cond with
  | true => cases hstuck
  | false =>
    cases hstuck
    exact h rfl

theorem pgalloc_neverStuck {al : Allocator α} {stop : Stop} (h : stop ≠ .outOfFuel) :
    NeverStuck (pgalloc al stop) :=
  neverStuck_bind neverStuck_get fun _ => neverStuck_bind (neverStuck_check h) fun _ =>
    neverStuck_bind (neverStuck_modify _) fun _ => neverStuck_pure _

theorem protect_neverStuck [DecidableEq α] (al : Allocator α) (as : α) :
    NeverStuck (protect al as) :=
  neverStuck_bind (pgalloc_neverStuck (by rintro ⟨⟩)) fun _ =>
    neverStuck_bind (neverStuck_modify _) fun _ => neverStuck_modify _

theorem findPage_neverStuck (al : Allocator α) (h va : Ptr) : NeverStuck (findPage al h va) := by
  refine neverStuck_bind neverStuck_get fun s => ?_
  split
  · exact neverStuck_pure _
  · exact neverStuck_bind (pgalloc_neverStuck (by rintro ⟨⟩)) fun _ =>
      neverStuck_bind (neverStuck_modify _) fun _ =>
        neverStuck_bind (neverStuck_modify _) fun _ => neverStuck_pure _

theorem enforceMap_neverStuck (pp : Ptr) : NeverStuck (enforceMap pp : M α Unit) :=
  neverStuck_bind neverStuck_get fun _ =>
    neverStuck_bind (neverStuck_modify _) fun _ => neverStuck_modify _

theorem linkPage_neverStuck (h pp va pa : Ptr) (prot : BitVec 32) :
    NeverStuck (linkPage h pp va pa prot : M α Unit) :=
  neverStuck_bind neverStuck_get fun _ => neverStuck_bind (neverStuck_modify _) fun _ =>
    neverStuck_bind (neverStuck_modify _) fun _ => neverStuck_modify _

theorem map_neverStuck (al : Allocator α) (pgsize : Nat) (as : α) (va pa : Ptr)
    (prot : BitVec 32) : NeverStuck (map al pgsize as va pa prot) := by
  have hassert : Stop.assertion ≠ .outOfFuel := by rintro ⟨⟩
  refine neverStuck_bind (neverStuck_check hassert) fun _ => ?_
  refine neverStuck_bind (neverStuck_check hassert) fun _ => ?_
  refine neverStuck_bind (neverStuck_check hassert) fun _ => ?_
  refine neverStuck_bind neverStuck_get fun s => ?_
  refine neverStuck_bind (neverStuck_check hassert) fun _ => ?_
  refine neverStuck_bind (findPage_neverStuck al _ _) fun pp => ?_
  refine neverStuck_bind (linkPage_neverStuck _ _ _ _ _) fun _ => ?_
  refine neverStuck_bind neverStuck_get fun t => ?_
  split
  · exact enforceMap_neverStuck pp
  · exact neverStuck_pure _

end stuck

variable [DecidableEq α] (al : Allocator α) (pgsize : Nat)

/-- The state in which the client calls `vme_init`. -/
structure AtStart (s : St α) : Prop where
  vm_head : s.vm_head = 0
  host : ∀ va, s.host va = none
  made : s.made = []

/-- A state in step: the lists and the host mappings are those of the latest calls, and the next call
ends. -/
structure Good (s : St α) : Prop where
  lists : ∀ h ∈ s.made, ∃ l, PageList s h l ∧ (l.map fun p => (s.pages p).va).Nodup ∧
    ∀ va pa prot, Listed s l va pa prot ↔ s.latest h va = some (pa, prot)
  host : ∃ l, PageList s s.vm_head l ∧
    ∀ va pa prot, s.host va = some (pa, prot) ↔ Listed s l va pa prot
  ends : ∀ call, Allowed s call → ∃ n, ∀ s', Call.run al pgsize n call s ≠ .error .outOfFuel s'

/-- A call maps no page that its space already has. -/
def Fresh (s : St α) : Call α → Prop
  | .map as va _ _ => s.latest (s.ptr as) va = none
  | _ => True

/-- From `s` the calls were made, with the state after each. -/
def Steps : St α → List (Call α × St α) → Prop
  | _, [] => True
  | s, (call, s') :: trace =>
    Allowed s call ∧ (∃ n, Call.run al pgsize n call s = .ok () s') ∧ Steps s' trace

def AllFresh : St α → List (Call α × St α) → Prop
  | _, [] => True
  | s, (call, s') :: trace => Fresh s call ∧ AllFresh s' trace

variable {al pgsize} {s s' : St α} {L : Ptr → List Ptr}

omit [DecidableEq α] in
theorem start_inv (h : AtStart s) : ∃ s', vmeInit s = .ok true s' ∧ Inv s' fun _ => [] := by
  refine ⟨_, rfl, ?_⟩
  have hnone : ∀ {u}, u ∉ s.made := by
    intro u hu
    rw [h.made] at hu
    cases hu
  constructor
  case enabled => rfl
  case current => exact .inl h.vm_head
  case host =>
    intro va
    show s.host va = if s.vm_head = 0 then none else _
    rw [h.host, if_pos h.vm_head]
  all_goals exact fun hu => absurd hu hnone

theorem good_of_inv (h : Inv s L) : Good al pgsize s := by
  constructor
  case lists =>
    intro v hv
    refine ⟨L v, ?_, h.nodup hv, h.latest hv⟩
    rw [PageList, if_neg (h.made hv).1]
    exact h.chain hv
  case host =>
    by_cases hzero : s.vm_head = 0
    · refine ⟨[], by rw [PageList, if_pos hzero], fun va pa prot => ?_⟩
      rw [h.host, if_pos hzero]
      simp [Listed]
    · have hcur := h.current.resolve_left hzero
      refine ⟨L s.vm_head, ?_, fun va pa prot => ?_⟩
      · rw [PageList, if_neg hzero]
        exact h.chain hcur
      · rw [h.host, if_neg hzero, h.latest hcur]
  case ends =>
    intro call hallowed
    cases call with
    | protect as => exact ⟨0, protect_neverStuck al as s⟩
    | map as va pa prot => exact ⟨0, map_neverStuck al pgsize as va pa prot s⟩
    | switch head =>
      refine ⟨(L s.vm_head).length + (L head).length + 1, fun s' hstuck => ?_⟩
      rcases switch_spec h hallowed ((L s.vm_head).length + (L head).length + 1) with
        ⟨t, hrun, -⟩ | ⟨-, hle⟩
      · cases hrun.symm.trans hstuck
      · omega

theorem fresh_step (h : Inv s L) {call : Call α} {n : Nat} (hallowed : Allowed s call)
    (hfresh : Fresh s call) (hrun : Call.run al pgsize n call s = .ok () s') : ∃ L', Inv s' L' := by
  cases call with
  | protect as => exact protect_inv h hrun
  | switch head =>
    rcases switch_spec h hallowed n with ⟨t, hok, hinv⟩ | ⟨⟨t, hstuck⟩, -⟩
    · cases hok.symm.trans hrun
      exact ⟨L, hinv⟩
    · cases hstuck.symm.trans hrun
  | map as va pa prot =>
    obtain ⟨hva, ⟨pp, hfound, -⟩ | ⟨pp, hnew, hne, hpp, henter, hused⟩⟩ := map_ok hrun
    · obtain ⟨hpp, hppva⟩ := (h.hash hallowed hva).mp hfound
      have hlisted : s.latest (s.ptr as) va = some ((s.pages pp).pa, (s.pages pp).prot) :=
        (h.latest hallowed _ _ _).mp ⟨pp, hpp, hppva, rfl, rfl⟩
      cases hfresh.symm.trans hlisted
    · exact ⟨_, enter_inv ⟨h, hallowed, hva, hnew, hne, hpp, henter, hused⟩⟩

/-- Mapping a page again links it in front of the list that it is part of: the list becomes a
cycle. -/
theorem remap_step (h : Inv s L) {call : Call α} {n : Nat} (hallowed : Allowed s call)
    (hagain : ¬Fresh s call) (hrun : Call.run al pgsize n call s = .ok () s') :
    ¬Good al pgsize s' := by
  cases call with
  | protect as => exact absurd trivial hagain
  | switch head => exact absurd trivial hagain
  | map as va pa prot =>
    intro hgood
    obtain ⟨hva, ⟨pp, hfound, henter, -⟩ | ⟨pp, hnew, -⟩⟩ := map_ok hrun
    · obtain ⟨hpp, -⟩ := (h.hash hallowed hva).mp hfound
      obtain ⟨⟨key, hpages⟩, ⟨nr_page, hheads⟩, -, -, -, hmade, -⟩ := henter
      obtain ⟨l, hlist, -⟩ := hgood.lists (s.ptr as) (hmade ▸ hallowed)
      rw [PageList, if_neg (h.made hallowed).1, hheads, Function.update_self] at hlist
      have hlink : link s' = Function.update (link s) pp (s.heads (s.ptr as)).head := by
        funext q
        rw [link, hpages]
        by_cases heq : q = pp
        · rw [heq, Function.update_self, Function.update_self]
        · rw [Function.update_of_ne heq, Function.update_of_ne heq]
          rfl
      rw [hlink] at hlist
      exact no_chain_of_relink (h.chain hallowed) hpp ⟨l, hlist⟩
    · obtain ⟨⟨pa', prot'⟩, hsome⟩ := Option.ne_none_iff_exists'.mp hagain
      obtain ⟨q, hq, hqva, -⟩ := (h.latest hallowed _ _ _).mpr hsome
      cases hnew.symm.trans ((h.hash hallowed hva).mpr ⟨hq, hqva⟩)

theorem run_good_iff (h : Inv s L) {trace : List (Call α × St α)} (hsteps : Steps al pgsize s trace) :
    (∀ t ∈ s :: trace.map Prod.snd, Good al pgsize t) ↔ AllFresh s trace := by
  induction trace generalizing s L with
  | nil =>
    refine iff_of_true (fun t ht => ?_) trivial
    rw [List.mem_singleton.mp ht]
    exact good_of_inv h
  | cons step trace ih =>
    obtain ⟨call, s₁⟩ := step
    obtain ⟨hallowed, ⟨n, hrun⟩, hrest⟩ := hsteps
    by_cases hfresh : Fresh s call
    · obtain ⟨L₁, h₁⟩ := fresh_step h hallowed hfresh hrun
      rw [AllFresh, and_iff_right hfresh, ← ih h₁ hrest]
      constructor
      · exact fun hall t ht => hall t (List.mem_cons_of_mem s ht)
      · intro hall t ht
        rcases List.mem_cons.mp ht with rfl | ht
        · exact good_of_inv h
        · exact hall t ht
    · refine iff_of_false (fun hall => ?_) fun hall => hfresh hall.1
      exact remap_step h hallowed hfresh hrun
        (hall s₁ (List.mem_cons_of_mem s List.mem_cons_self))

/-- After `vme_init`, the lists, the host mappings and the loops are as they should be in every
state reached exactly when no call maps a page that its space already has. -/
theorem lists_in_step_iff {s₀ : St α} {b : Bool} {trace : List (Call α × St α)}
    (hstart : AtStart s₀) (hinit : vmeInit s₀ = .ok b s) (hsteps : Steps al pgsize s trace) :
    (∀ t ∈ s :: trace.map Prod.snd, Good al pgsize t) ↔ AllFresh s trace := by
  obtain ⟨s₁, hok, hinv⟩ := start_inv hstart
  cases hok.symm.trans hinit
  exact run_good_iff hinv hsteps

def demoPage (s : St Unit) : Ptr := 0x2000000#64 + 0x1000#64 * BitVec.ofNat 64 s.used.length

/-- Pages in order, from 32 MiB on. -/
def demoAllocator : Allocator Unit where
  page s := if demoPage s ∉ s.used then demoPage s else 0
  fresh s h := by
    split at h
    · next hp =>
      rw [if_pos hp]
      exact hp
    · exact absurd rfl h

def demoStart : St Unit where
  vme_enable := true
  pages _ := ⟨0, 0, 0, 0, false, []⟩
  heads _ := ⟨0, fun _ => none, 0⟩
  ptr _ := 0
  vm_head := 0
  host _ := none
  used := []
  made := []
  latest _ _ := none

/-- The state after a call that ends. -/
def after (call : Call Unit) (s : St Unit) : St Unit :=
  finalState (Call.run demoAllocator 4096 1 call s)

theorem after_ok {call : Call Unit} {s : St Unit}
    (h : returned (Call.run demoAllocator 4096 1 call s) = true) :
    Call.run demoAllocator 4096 1 call s = .ok () (after call s) := by
  obtain ⟨u, s', hrun⟩ := exists_of_returned h
  rw [after, hrun]
  rfl

def demoProtected : St Unit := after (.protect ()) demoStart
def demoMapped : St Unit := after (.map () 0x40000000 0x1000000 3) demoProtected
def demoRemapped : St Unit := after (.map () 0x40000000 0x1001000 3) demoMapped

theorem demoStart_start : AtStart demoStart := ⟨rfl, fun _ => rfl, rfl⟩

theorem demo_steps : Steps demoAllocator 4096 demoStart [(.protect (), demoProtected),
    (.map () 0x40000000 0x1000000 3, demoMapped)] :=
  ⟨trivial, ⟨1, after_ok (by decide +kernel)⟩, by unfold Allowed; decide +kernel,
    ⟨1, after_ok (by decide +kernel)⟩, trivial⟩

theorem mapped_once_in_step :
    Good demoAllocator 4096 demoProtected ∧ Good demoAllocator 4096 demoMapped := by
  have hfresh : AllFresh demoStart [(.protect (), demoProtected),
      (.map () 0x40000000 0x1000000 3, demoMapped)] :=
    ⟨trivial, by unfold Fresh; decide +kernel, trivial⟩
  have hgood := (lists_in_step_iff demoStart_start rfl demo_steps).mpr hfresh
  exact ⟨hgood demoProtected (.tail _ (.head _)), hgood demoMapped (.tail _ (.tail _ (.head _)))⟩

omit [DecidableEq α] in
theorem cycle_never_ends {s : St α} {pp : Ptr} (hne : pp ≠ 0) (hlink : link s pp = pp)
    (huser : inUserSpace (s.pages pp).va = true) (n : Nat) :
    ∃ s', listForeach mapPage n pp s = .error .outOfFuel s' := by
  let I : Ptr → St α → Prop := fun q t => q = pp ∧ link t pp = pp ∧
    inUserSpace (t.pages pp).va = true
  refine forEach_stuck (I := I) ?_ ⟨rfl, hlink, huser⟩ n
  rintro q t ⟨rfl, hq, huser⟩
  let t' : St α := { t with
    host := Function.update t.host (t.pages q).va (some ((t.pages q).pa, (t.pages q).prot))
    pages := Function.update t.pages q { t.pages q with is_mapped := true } }
  have hstep : mapPage q t = .ok () t' := by
    have hsteps : mapPage q t = (check (inUserSpace (t.pages q).va) .assertion >>= fun _ =>
      enforceMap q) t := rfl
    rw [hsteps, huser]
    rfl
  have hself : t'.pages q = { t.pages q with is_mapped := true } := Function.update_self _ _ _
  have hlink' : link t' q = q := by
    rw [link, hself]
    exact hq
  refine ⟨hne, t', hstep, hlink', hlink', ?_⟩
  rw [hself]
  exact huser

/-- After the same page is mapped twice, switching to the space never ends. -/
theorem remap_never_ends : Steps demoAllocator 4096 demoStart [(.protect (), demoProtected),
      (.map () 0x40000000 0x1000000 3, demoMapped),
      (.map () 0x40000000 0x1001000 3, demoRemapped)] ∧
    Allowed demoRemapped (.switch 0x2000000) ∧
    ∀ n, ∃ s', Call.run demoAllocator 4096 n (.switch 0x2000000) demoRemapped =
      .error .outOfFuel s' := by
  refine ⟨⟨trivial, demo_steps.2.1, demo_steps.2.2.1, demo_steps.2.2.2.1, ?_, ⟨1, after_ok ?_⟩,
    trivial⟩, ?_, fun n => ?_⟩
  · unfold Allowed
    decide +kernel
  · decide +kernel
  · unfold Allowed
    decide +kernel
  · have hloop : ∃ s', listForeach mapPage n 0x2001000 demoRemapped = .error .outOfFuel s' :=
      cycle_never_ends (by decide) (by decide +kernel) (by decide +kernel) n
    have hidle : demoRemapped.vm_head = 0 := by decide +kernel
    have hhead : (demoRemapped.heads 0x2000000).head = 0x2001000 := by decide +kernel
    obtain ⟨s', hstuck⟩ := hloop
    have hleave : (if demoRemapped.vm_head ≠ 0 then
        listForeach unmapPage n (demoRemapped.heads demoRemapped.vm_head).head
        else return : M Unit Unit) demoRemapped = .ok () demoRemapped :=
      congrFun (if_neg (not_not.mpr hidle)) demoRemapped
    have hne : (0x2000000 : Ptr) ≠ demoRemapped.vm_head := by
      rw [hidle]
      decide
    refine ⟨s', (amSwitch_steps (by decide +kernel) hne n).trans ?_⟩
    refine bind_of_error ((bind_of_ok hleave).trans ?_)
    rw [← hhead] at hstuck
    exact hstuck

end Riscv32Cpu.NativeVme.Remap
