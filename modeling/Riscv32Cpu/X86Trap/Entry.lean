/- module: Riscv32Cpu/X86Trap/Entry
   source: abstract-machine/am/src/x86/qemu/trap32.S, trap64.S, cte.c, src/x86/x86.h
   digest: The trap frame that delivery, stub and `trap` leave, and the context completed from it. -/

import Riscv32Cpu.X86Trap.Stack

set_option autoImplicit false
set_option relaxedAutoImplicit false

namespace Riscv32Cpu.X86Trap

open Lib.Memory Lib.Slots

variable {m : Mode}

/-- The state in which `__am_irq_handle` is called. -/
def Cpu.atCall (s : Cpu m) (sys : System m) (vector : Nat) (err : Option (Word m)) : Cpu m :=
  execAll (irqStub vector ++ trap m) (deliver sys err s)

/-- The argument of that call, before the return address is pushed. -/
def Cpu.tf (t : Cpu m) : Word m := if m = .m32 then t.top 0 else t.gpr .di

/-- The general registers other than the stack pointer. -/
def generalRegs : Mode → List Gpr
  | .m32 => [.ax, .bx, .cx, .dx, .si, .di, .bp]
  | .m64 => [.ax, .bx, .cx, .dx, .si, .di, .bp, .r8, .r9, .r10, .r11, .r12, .r13, .r14, .r15]

/-- `IRQS` has the vector with `ERR`. -/
def expectsErr (vector : Nat) : Bool := (irqs.find? fun irq => irq.1 = vector).any (·.2)

/-- What the hardware pushes below an error code, top first. -/
def hwWords (s : Cpu m) : List (Word m) :=
  [s.ip, s.cs.setWidth _, s.flags] ++
    if m = .m32 ∧ s.cpl = 0 then [] else [s.gpr .sp, (s.seg .ss).setWidth _]

theorem length_hwWords (s : Cpu m) : 3 ≤ (hwWords s).length ∧ (hwWords s).length ≤ 5 := by
  unfold hwWords
  split
  · exact ⟨Nat.le_refl 3, Nat.le_add_right 3 2⟩
  · exact ⟨Nat.le_add_right 3 2, Nat.le_refl 5⟩

/-- Only memory and registers count on the way to the call. -/
def Cpu.Same (t t' : Cpu m) : Prop := t.mem = t'.mem ∧ t.gpr = t'.gpr

theorem Cpu.Same.pushWord {t t' : Cpu m} (h : t.Same t') (v : Word m) :
    (t.pushWord v).Same (t'.pushWord v) := by
  obtain ⟨hmem, hgpr⟩ := h
  constructor
  · show store t.mem (t.gpr .sp - _) _ v = store t'.mem (t'.gpr .sp - _) _ v
    rw [hmem, hgpr]
  · show Function.update t.gpr .sp (t.gpr .sp - _) = Function.update t'.gpr .sp (t'.gpr .sp - _)
    rw [hgpr]

theorem Cpu.Same.pushWords {t t' : Cpu m} (h : t.Same t') (l : List (Word m)) :
    (t.pushWords l).Same (t'.pushWords l) := by
  induction l with
  | nil => exact h
  | cons v l ih => exact ih.pushWord v

/-- The stack that delivery goes to; it keeps the current one only where it may. -/
theorem pushStack_spec (sys : System m) (s : Cpu m) : ∃ b : Cpu m,
    pushStack sys s = b.pushWords
      (if m = .m32 ∧ s.cpl = 0 then [] else [s.gpr .sp, (s.seg .ss).setWidth _]) ∧
    (∀ r, r ≠ .sp → b.gpr r = s.gpr r) ∧
    (m = .m32 → s.cpl = 0 → b.gpr .sp = s.gpr .sp) := by
  unfold pushStack
  by_cases hm : m = .m32
  · by_cases hcpl : s.cpl = 0
    · rw [if_pos hm, if_pos hcpl, if_pos ⟨hm, hcpl⟩]
      exact ⟨s, rfl, fun r _ => rfl, fun _ _ => rfl⟩
    · have hswitch : ¬(m = .m32 ∧ s.cpl = 0) := fun h => hcpl h.2
      rw [if_pos hm, if_neg hcpl, if_neg hswitch]
      exact ⟨_, rfl, fun r hr => Function.update_of_ne hr _ _, fun _ h => absurd h hcpl⟩
  · have hswitch : ¬(m = .m32 ∧ s.cpl = 0) := fun h => hm h.1
    rw [if_neg hm, if_neg hswitch]
    refine ⟨_, rfl, fun r hr => ?_, fun h => absurd h hm⟩
    refine (Function.update_of_ne hr _ _).trans ?_
    by_cases hcpl : s.cpl = 0
    · rw [if_pos hcpl]
    · rw [if_neg hcpl]
      exact Function.update_of_ne hr _ _

theorem deliver_spec (sys : System m) (err : Option (Word m)) (s : Cpu m) : ∃ b : Cpu m,
    (deliver sys err s).Same (b.pushWords (err.toList ++ hwWords s)) ∧
    (∀ r, r ≠ .sp → b.gpr r = s.gpr r) ∧
    (m = .m32 → s.cpl = 0 → b.gpr .sp = s.gpr .sp) := by
  obtain ⟨b, hpush, hgpr, hsp⟩ := pushStack_spec sys s
  refine ⟨b, ?_, hgpr, hsp⟩
  rw [pushWords_append, hwWords, pushWords_append, ← hpush]
  cases err with
  | none => exact ⟨rfl, rfl⟩
  | some e => exact ⟨rfl, rfl⟩

/-- What the stub of a vector pushes, top first. -/
def stubWords (m : Mode) (vector : Nat) : List (Word m) :=
  match irqs.find? (fun irq => irq.1 = vector) with
  | some (id, true) => [BitVec.ofInt _ id]
  | some (id, false) => [BitVec.ofInt _ id, 0]
  | none => [BitVec.ofInt _ (-1), 0]

theorem irqStub_spec (vector : Nat) (t : Cpu m) :
    (execAll (irqStub vector) t).Same (t.pushWords (stubWords m vector)) := by
  unfold irqStub stubWords
  generalize irqs.find? (fun irq => irq.1 = vector) = found
  rcases found with _ | ⟨id, _ | _⟩ <;> exact ⟨rfl, rfl⟩

theorem stubWords_eq (m : Mode) (vector : Nat) :
    ∃ id : Word m, stubWords m vector = if expectsErr vector then [id] else [id, 0] := by
  unfold stubWords expectsErr
  generalize irqs.find? (fun irq => irq.1 = vector) = found
  rcases found with _ | ⟨id, _ | _⟩ <;> exact ⟨_, rfl⟩

/-- Room for the members of the context that `trap` does not push. -/
def Cpu.reserve (t : Cpu m) (k : Nat) : Cpu m :=
  t.setGpr .sp (t.gpr .sp - BitVec.ofNat _ (m.n * k))

theorem slot_reserve (t : Cpu m) (k : Nat) : slot ((t.reserve k).gpr .sp) k = t.gpr .sp := by
  have hsp : (t.reserve k).gpr .sp = t.gpr .sp - BitVec.ofNat _ (m.n * k) :=
    gpr_setGpr_self t .sp _
  rw [hsp, slot, BitVec.sub_add_cancel]

/-- What `trap` pushes in 32-bit mode, with `ds` in the low part of `dsw`. -/
def pushed32 (t : Cpu .m32) (dsw : Word .m32) : List (Word .m32) :=
  [0, dsw, t.gpr .ax, t.gpr .bx, t.gpr .cx, t.gpr .dx, 0, t.gpr .si, t.gpr .di, t.gpr .bp]

def pushed64 (t : Cpu .m64) : List (Word .m64) :=
  [0, t.gpr .ax, t.gpr .bx, t.gpr .cx, t.gpr .dx, t.gpr .bp, t.gpr .si, t.gpr .di, t.gpr .r8,
    t.gpr .r9, t.gpr .r10, t.gpr .r11, t.gpr .r12, t.gpr .r13, t.gpr .r14, t.gpr .r15]

theorem execAll_trap32 (t : Cpu .m32) : ∃ dsw,
    (execAll (trap .m32) t).mem = (((t.reserve 5).pushWords (pushed32 t dsw)).pushWord
      (((t.reserve 5).pushWords (pushed32 t dsw)).gpr .sp)).mem ∧
    (execAll (trap .m32) t).gpr .sp = (((t.reserve 5).pushWords (pushed32 t dsw)).pushWord
      (((t.reserve 5).pushWords (pushed32 t dsw)).gpr .sp)).gpr .sp :=
  ⟨setLowWord (t.gpr .ax) (t.seg .ds), rfl, rfl⟩

theorem execAll_trap64 (t : Cpu .m64) :
    (execAll (trap .m64) t).mem = ((t.reserve 6).pushWords (pushed64 t)).mem ∧
    (execAll (trap .m64) t).gpr .di = ((t.reserve 6).pushWords (pushed64 t)).gpr .sp :=
  ⟨rfl, rfl⟩

/-- The context that `trap` leaves at `tf`, over the stack `l` that it finds. -/
structure Trapped (t : Cpu m) (mem : Mem (8 * m.n)) (tf : Word m) (l : List (Word m))
    (c : Member → Word m) : Prop where
  frame : Frame mem tf c l
  gpr : ∀ r ∈ generalRegs m, c (.gpr r) = t.gpr r
  above : slot tf (contextWords m) = t.gpr .sp

theorem trapped32 {t : Cpu .m32} {l : List (Word .m32)} (h : t.Sees l) (hl : l.length ≤ 32) :
    ∃ c, Trapped t (execAll (trap .m32) t).mem (execAll (trap .m32) t).tf l c := by
  obtain ⟨dsw, hmem, hsp⟩ := execAll_trap32 t
  obtain ⟨room, hroom, hsees⟩ := h.reserve (slot_reserve t 5) rfl
  have hlen : (pushed32 t dsw ++ room).length = contextWords .m32 := by
    rw [List.length_append, hroom]
    rfl
  have hpushed := hsees.pushWords (pushed32 t dsw) (by
    rw [List.length_append, hroom]
    show 10 + (5 + l.length) ≤ 64
    omega)
  -- the argument of the call goes on top
  have hcall := hpushed.pushWord (by
    rw [← List.append_assoc, List.length_append, hlen]
    show 15 + l.length < 64
    omega) (((t.reserve 5).pushWords (pushed32 t dsw)).gpr .sp)
  rw [Cpu.Sees, ← hmem, ← hsp] at hcall
  obtain ⟨harg, hcontext⟩ := stack_cons.mp hcall
  have htf : (execAll (trap .m32) t).tf = ((t.reserve 5).pushWords (pushed32 t dsw)).gpr .sp := by
    rw [← harg]
    show load _ (slot _ 0) _ = _
    rw [slot_zero]
  obtain ⟨c, hc⟩ := exists_members hlen
  refine ⟨c, ?_, ?_, ?_⟩
  · rw [hsp, slot_pushWord, ← htf, ← List.append_assoc, hc] at hcontext
    exact hcontext
  · simp only [pushed32, contextMembers, List.cons_append, List.map_cons, List.cons.injEq] at hc
    obtain ⟨-, -, hax, hbx, hcx, hdx, -, hsi, hdi, hbp, -⟩ := hc
    simp only [generalRegs, List.forall_mem_cons]
    exact ⟨hax.symm, hbx.symm, hcx.symm, hdx.symm, hsi.symm, hdi.symm, hbp.symm,
      fun _ hr => absurd hr List.not_mem_nil⟩
  · have habove : slot (((t.reserve 5).pushWords (pushed32 t dsw)).gpr .sp) 10 =
        (t.reserve 5).gpr .sp := slot_pushWords _ (pushed32 t dsw)
    rw [htf, ← slot_reserve t 5, ← habove, slot_slot]
    rfl

theorem trapped64 {t : Cpu .m64} {l : List (Word .m64)} (h : t.Sees l) (hl : l.length ≤ 32) :
    ∃ c, Trapped t (execAll (trap .m64) t).mem (execAll (trap .m64) t).tf l c := by
  obtain ⟨hmem, hdi⟩ := execAll_trap64 t
  obtain ⟨room, hroom, hsees⟩ := h.reserve (slot_reserve t 6) rfl
  have hlen : (pushed64 t ++ room).length = contextWords .m64 := by
    rw [List.length_append, hroom]
    rfl
  have hcontext := hsees.pushWords (pushed64 t) (by
    rw [List.length_append, hroom]
    show 16 + (6 + l.length) ≤ 64
    omega)
  have htf : (execAll (trap .m64) t).tf = ((t.reserve 6).pushWords (pushed64 t)).gpr .sp := hdi
  obtain ⟨c, hc⟩ := exists_members hlen
  refine ⟨c, ?_, ?_, ?_⟩
  · rw [Cpu.Sees, ← hmem, ← htf, ← List.append_assoc, hc] at hcontext
    exact hcontext
  · simp only [pushed64, contextMembers, List.cons_append, List.map_cons, List.cons.injEq] at hc
    obtain ⟨-, hax, hbx, hcx, hdx, hbp, hsi, hdi, h8, h9, h10, h11, h12, h13, h14, h15, -⟩ := hc
    simp only [generalRegs, List.forall_mem_cons]
    exact ⟨hax.symm, hbx.symm, hcx.symm, hdx.symm, hsi.symm, hdi.symm, hbp.symm, h8.symm, h9.symm,
      h10.symm, h11.symm, h12.symm, h13.symm, h14.symm, h15.symm,
      fun _ hr => absurd hr List.not_mem_nil⟩
  · have habove : slot (((t.reserve 6).pushWords (pushed64 t)).gpr .sp) 16 =
        (t.reserve 6).gpr .sp := slot_pushWords _ (pushed64 t)
    rw [htf, ← slot_reserve t 6, ← habove, slot_slot]
    rfl

theorem trapped {t : Cpu m} {l : List (Word m)} (h : t.Sees l) (hl : l.length ≤ 32) :
    ∃ c, Trapped t (execAll (trap m) t).mem (execAll (trap m) t).tf l c := by
  cases m with
  | m32 => exact trapped32 h hl
  | m64 => exact trapped64 h hl

/-- The words between the context and where delivery began. -/
def entryWords (vector : Nat) (err : Option (Word m)) (s : Cpu m) : List (Word m) :=
  stubWords m vector ++ (err.toList ++ hwWords s)

theorem length_entryWords (vector : Nat) (err : Option (Word m)) (s : Cpu m) :
    4 ≤ (entryWords vector err s).length ∧ (entryWords vector err s).length ≤ 8 := by
  obtain ⟨id, hid⟩ := stubWords_eq m vector
  have hstub : 1 ≤ (stubWords m vector).length ∧ (stubWords m vector).length ≤ 2 := by
    rw [hid]
    split_ifs <;> simp
  have herr : err.toList.length ≤ 1 := by cases err <;> simp
  have hhw := length_hwWords s
  rw [entryWords, List.length_append, List.length_append]
  omega

theorem atCall_spec (sys : System m) (vector : Nat) (err : Option (Word m)) (s : Cpu m) :
    ∃ c above, above.length = 3 ∧
      Frame (s.atCall sys vector err).mem (s.atCall sys vector err).tf c
        (entryWords vector err s ++ above) ∧
      (∀ r ∈ generalRegs m, c (.gpr r) = s.gpr r) ∧
      (m = .m32 → s.cpl = 0 → slot (s.atCall sys vector err).tf
        (contextWords m + (entryWords vector err s).length) = s.gpr .sp) := by
  obtain ⟨b, hdeliver, hgpr, hbase⟩ := deliver_spec sys err s
  obtain ⟨above, habove, hb⟩ := exists_stack b.mem (b.gpr .sp) 3
  have hwords := length_entryWords vector err s
  have hstub : (execAll (irqStub vector) (deliver sys err s)).Same
      (b.pushWords (entryWords vector err s)) := by
    have hpush := hdeliver.pushWords (stubWords m vector)
    have hirq := irqStub_spec vector (deliver sys err s)
    rw [entryWords, pushWords_append]
    exact ⟨hirq.1.trans hpush.1, hirq.2.trans hpush.2⟩
  have hsees : (execAll (irqStub vector) (deliver sys err s)).Sees
      (entryWords vector err s ++ above) := by
    have hpush := Cpu.Sees.pushWords (s := b) hb (entryWords vector err s) (by omega)
    rw [Cpu.Sees, hstub.1, hstub.2]
    exact hpush
  obtain ⟨c, htrapped⟩ := trapped hsees (by rw [List.length_append]; omega)
  have hcall : s.atCall sys vector err =
      execAll (trap m) (execAll (irqStub vector) (deliver sys err s)) := execAll_append _ _ _
  rw [hcall]
  refine ⟨c, above, habove, htrapped.frame, fun r hr => ?_, fun hm hcpl => ?_⟩
  · have hr' : r ≠ .sp := by
      rintro rfl
      revert hr
      cases m <;> decide
    rw [htrapped.gpr r hr, hstub.2, gpr_pushWords b _ hr', hgpr r hr']
  · rw [← slot_slot, htrapped.above, hstub.2, slot_pushWords, hbase hm hcpl]

section

variable {mem : Mem (8 * m.n)} {tf : Word m} {c : Member → Word m}
  {irq errcode ip cs flags sp ss : Word m} {l : List (Word m)}

/-- A trap frame with these members after the context. -/
abbrev TrapFrame (mem : Mem (8 * m.n)) (tf : Word m) (c : Member → Word m)
    (irq errcode ip cs flags sp ss : Word m) (l : List (Word m)) : Prop :=
  Frame mem tf c (irq :: errcode :: ip :: cs :: flags :: sp :: ss :: l)

theorem TrapFrame.getTrap (h : TrapFrame mem tf c irq errcode ip cs flags sp ss l) :
    getTrap mem tf .ip = ip ∧ getTrap mem tf .cs = cs ∧ getTrap mem tf .flags = flags ∧
      getTrap mem tf .sp = sp ∧ getTrap mem tf .ss = ss := by
  have hlt : ∀ x : TrapMember, trapMembers.idxOf x <
      (irq :: errcode :: ip :: cs :: flags :: sp :: ss :: l).length := by
    intro x
    have hidx : trapMembers.idxOf x < 7 := by cases x <;> decide
    exact Nat.lt_of_lt_of_le hidx (Nat.le_add_left 7 l.length)
  exact ⟨Frame.getTrap h (hlt .ip), Frame.getTrap h (hlt .cs), Frame.getTrap h (hlt .flags),
    Frame.getTrap h (hlt .sp), Frame.getTrap h (hlt .ss)⟩

/-- The members that `__am_irq_handle` fills in. -/
def completed : List Member := [.ip, .cs, .flags, .sp, .sp0, .ss, .cr3]

theorem TrapFrame.set (h : TrapFrame mem tf c irq errcode ip cs flags sp ss l)
    (hl : l.length ≤ 20) {x : Member} (hx : x ∈ completed) {v w : Word m} (hv : v = w) :
    TrapFrame (setMember tf x v mem) tf (Function.update c x w) irq errcode ip cs flags sp ss l := by
  have hcompleted : completed ⊆ contextMembers m := by cases m <;> decide
  rw [← hv]
  refine Frame.setMember h ?_ (hcompleted hx) v
  show l.length + 7 ≤ 32
  omega

theorem TrapFrame.savedSp (h : TrapFrame mem tf c irq errcode ip cs flags sp ss l)
    (hm : m = .m32) :
    (if X86Trap.getTrap mem tf .cs &&& BitVec.ofNat _ dplUser ≠ 0 then X86Trap.getTrap mem tf .sp
      else slot tf (trapFrameWords m) - 8) =
      if cs &&& 3 = 0 then slot tf (contextWords m + 5) else sp := by
  have hbase : slot tf (trapFrameWords m) - 8 = slot tf (contextWords m + 5) := by
    subst hm
    exact slot_sub tf 20 2
  rw [h.getTrap.2.1, h.getTrap.2.2.2.1, hbase]
  exact ite_not _ _ _

theorem saveContext_spec (sys : System m)
    (h : TrapFrame mem tf c irq errcode ip cs flags sp ss l) (hl : l.length ≤ 20) : ∃ c',
    TrapFrame (saveContext sys tf mem) tf c' irq errcode ip cs flags sp ss l ∧
      (∀ r, c' (.gpr r) = c (.gpr r)) ∧ c' .ip = ip ∧ c' .cs = cs ∧ c' .flags = flags ∧
      c' .sp = if m = .m32 ∧ cs &&& 3 = 0 then slot tf (contextWords m + 5) else sp := by
  have hip := h.set hl (x := .ip) (by decide) h.getTrap.1
  have hcs := hip.set hl (x := .cs) (by decide) hip.getTrap.2.1
  have hflags := hcs.set hl (x := .flags) (by decide) hcs.getTrap.2.2.1
  simp only [saveContext]
  by_cases hm : m = .m64
  · have hsp := hflags.set hl (x := .sp) (by decide) hflags.getTrap.2.2.2.1
    have hsp0 := hsp.set hl (x := .sp0) (by decide) (v := sys.sp0) rfl
    have hss := hsp0.set hl (x := .ss) (by decide) hsp0.getTrap.2.2.2.2
    have hcr3 := hss.set hl (x := .cr3) (by decide) (v := sys.cr3) rfl
    have h32 : ¬(m = .m32 ∧ cs &&& 3 = 0) := by
      rintro ⟨rfl, -⟩
      cases hm
    rw [if_pos hm, if_neg h32]
    refine ⟨_, hcr3, fun r => ?_, ?_, ?_, ?_, ?_⟩ <;> simp
  · have hm32 : m = .m32 := by
      cases m with
      | m32 => rfl
      | m64 => exact absurd rfl hm
    have hsp0 := hflags.set hl (x := .sp0) (by decide) (v := sys.sp0) rfl
    have hss := hsp0.set hl (x := .ss) (by decide) (v := (usel segUdata).setWidth _) rfl
    have hsp := hss.set hl (x := .sp) (by decide) (hss.savedSp hm32)
    have hcr3 := hsp.set hl (x := .cr3) (by decide) (v := sys.cr3) rfl
    rw [if_neg hm]
    refine ⟨_, hcr3, fun r => ?_, ?_, ?_, ?_, ?_⟩ <;> simp [hm32]

end

end Riscv32Cpu.X86Trap
