/- module: Riscv32Cpu/RiscvTrap/Frame
   source: abstract-machine/am/src/riscv/nemu/trap.S, cte.c, include/arch/riscv.h
   digest: What the stub stores, what the handler reads of it, and what the return restores. -/

import Riscv32Cpu.Lib.Slots
import Riscv32Cpu.RiscvTrap.Model

set_option autoImplicit false
set_option relaxedAutoImplicit false

namespace Riscv32Cpu.RiscvTrap

open Lib.Memory Lib.Slots

variable {c : Config}

/-- The state in which `__am_irq_handle` is called for a trap taken in `s`. -/
def Hart.atCall (s : Hart c) : Hart c := execAll (asmTrapEntry c) s

/-- The context that `__am_irq_handle` is passed. -/
def Hart.passed (s : Hart c) : Context c := readContext s.atCall.mem (s.atCall.x a0)

/-- Through `struct Context` the handler reads the interrupted registers. -/
structure Agrees (s : Hart c) : Prop where
  gpr : ∀ i ∈ c.regs, s.passed.gpr i = s.x i
  mcause : s.passed.mcause = s.csr .mcause
  mstatus : s.passed.mstatus = s.csr .mstatus
  mepc : s.passed.mepc = s.csr .mepc

/-- The bytes of the context at `p` are the same. -/
def SameContext (p : Word c) (m m' : Mem (8 * c.xlen)) : Prop :=
  ∀ x, (x - p).toNat < sizeofContext c → m' x = m x

/-- The call made in `s` returns in `t`: the handler gave back the context it was passed,
unmodified. The compiled code keeps `sp` and writes no memory of its own from there on; all other
registers may have changed. -/
structure Returned (userHandler : Option (UserHandler c)) (s t : Hart c) : Prop where
  handled : ∃ m, amIrqHandle userHandler (s.x a0) s.mem = some (t.x a0, m) ∧
    SameContext (s.x a0) s.mem m ∧ SameContext (s.x a0) m t.mem
  returned : t.x a0 = s.x a0
  sp : t.x sp = s.x sp

/-- After a call that leaves the context unmodified the stub restores what was interrupted. -/
def Resumes (s : Hart c) : Prop :=
  ∀ userHandler t, Returned userHandler s.atCall t →
    (∀ i < c.nrRegs, (execAll (asmTrapExit c) t).x i = s.x i) ∧
      (execAll (asmTrapExit c) t).csr .mstatus = s.csr .mstatus ∧
      (execAll (asmTrapExit c) t).csr .mepc = s.csr .mepc

theorem mem_regs {i : Nat} : i ∈ c.regs ↔ i < c.nrRegs ∧ i ≠ 0 ∧ i ≠ 2 := by
  have hregs : c.regs = (List.range c.nrRegs).filter fun i => i ≠ 0 ∧ i ≠ 2 := by
    unfold Config.regs Config.regsHi16 Config.nrRegs
    cases c.riscvE <;> rfl
  rw [hregs, List.mem_filter, List.mem_range, decide_eq_true_iff]

theorem frame_fits : c.xlen * (c.nrRegs + 3) ≤ 2 ^ (8 * c.xlen) := by
  unfold Config.xlen Config.nrRegs
  cases c.rv64 <;> cases c.riscvE <;> decide

@[simp] theorem x_zero (s : Hart c) : s.x 0 = 0 := rfl

theorem x_of_ne {s : Hart c} {r : Nat} (hr : r ≠ 0) : s.x r = s.gpr r := if_neg hr

theorem x_setX (s : Hart c) {r i : Nat} (hr : r ≠ 0) (v : Word c) :
    (s.setX r v).x i = if i = r then v else s.x i := by
  simp only [Hart.setX, Hart.x, Function.update_apply]
  split_ifs <;> first | rfl | omega

theorem execAll_append (is js : List Instr) (s : Hart c) :
    execAll (is ++ js) s = execAll js (execAll is s) := List.foldl_append

theorem execAll_cons (i : Instr) (is : List Instr) (s : Hart c) :
    execAll (i :: is) s = execAll is (exec i s) := rfl

theorem slot_offset (p : Word c) (j : Nat) :
    p + BitVec.ofNat (8 * c.xlen) (j * c.xlen) = slot p j :=
  congrArg (fun k => p + BitVec.ofNat (8 * c.xlen) k) (Nat.mul_comm j c.xlen)

theorem execAll_push (l : List Nat) {s : Hart c} {count : Nat} {f : Nat → Word c}
    (hl : ∀ r ∈ l, r < count) (hfit : c.xlen * count ≤ 2 ^ (8 * c.xlen))
    (h : Holds s.mem (s.x sp) count f) :
    (execAll (l.map (push c)) s).gpr = s.gpr ∧ (execAll (l.map (push c)) s).csr = s.csr ∧
      Holds (execAll (l.map (push c)) s).mem (s.x sp) count
        fun j => if j ∈ l then s.x j else f j := by
  induction l generalizing s f with
  | nil => exact ⟨rfl, rfl, fun j hj => (h j hj).trans (if_neg List.not_mem_nil).symm⟩
  | cons r l ih =>
    have hstore := h.store hfit (hl r List.mem_cons_self) (s.x r)
    obtain ⟨hgpr, hcsr, hmem⟩ := ih (s := exec (push c r) s) (f := Function.update f r (s.x r))
      (fun i hi => hl i (List.mem_cons_of_mem r hi)) (by
        have hexec : (exec (push c r) s).mem = store s.mem (slot (s.x sp) r) c.xlen (s.x r) := by
          rw [← slot_offset]
          rfl
        rw [hexec]
        exact hstore)
    refine ⟨hgpr, hcsr, fun j hj => (hmem j hj).trans ?_⟩
    show (if j ∈ l then s.x j else Function.update f r (s.x r) j) =
      if j ∈ r :: l then s.x j else f j
    by_cases hjl : j ∈ l
    · rw [if_pos hjl, if_pos (List.mem_cons_of_mem r hjl)]
    · by_cases hjr : j = r
      · rw [if_neg hjl, hjr, if_pos List.mem_cons_self, Function.update_self]
      · rw [if_neg hjl, Function.update_of_ne hjr, if_neg (by simp [hjl, hjr])]

theorem execAll_pop (l : List Nat) {s : Hart c} {count : Nat} {f : Nat → Word c}
    (hl : ∀ r ∈ l, r < count ∧ r ≠ 0 ∧ r ≠ sp) (h : Holds s.mem (s.x sp) count f) :
    (execAll (l.map (pop c)) s).csr = s.csr ∧
      ∀ i, (execAll (l.map (pop c)) s).x i = if i ∈ l then f i else s.x i := by
  induction l generalizing s with
  | nil => exact ⟨rfl, fun i => (if_neg List.not_mem_nil).symm⟩
  | cons r l ih =>
    obtain ⟨hcount, hzero, hsp⟩ := hl r List.mem_cons_self
    have hexec : exec (pop c r) s = s.setX r (f r) := by
      rw [← h r hcount, ← slot_offset]
      rfl
    have hbase : (s.setX r (f r)).x sp = s.x sp := by
      rw [x_setX s hzero, if_neg (Ne.symm hsp)]
    obtain ⟨hcsr, hx⟩ := ih (s := exec (pop c r) s)
      (fun i hi => hl i (List.mem_cons_of_mem r hi)) (by
        rw [hexec, hbase]
        exact h)
    rw [hexec] at hcsr hx
    rw [List.map_cons, execAll_cons, hexec]
    refine ⟨hcsr, fun i => (hx i).trans ?_⟩
    by_cases hil : i ∈ l
    · rw [if_pos hil, if_pos (List.mem_cons_of_mem r hil)]
    · rw [if_neg hil, x_setX s hzero]
      by_cases hir : i = r
      · rw [if_pos hir, hir, if_pos List.mem_cons_self]
      · rw [if_neg hir, if_neg (by simp [hil, hir])]

/-- Where the stub puts its frame. -/
def Hart.frame (s : Hart c) : Word c := s.x sp + BitVec.ofInt _ (-(c.contextSize : Int))

theorem frame_add_size (s : Hart c) : s.frame + BitVec.ofNat _ c.contextSize = s.x sp := by
  rw [Hart.frame, BitVec.ofInt_neg, BitVec.ofInt_natCast, BitVec.add_assoc,
    BitVec.add_comm (-_), BitVec.add_neg_eq_sub, BitVec.sub_self, BitVec.add_zero]

/-- The words of the frame that the stub stores for a trap taken in `s`; the word of `sp` is left
as it was. -/
def Hart.stored (s : Hart c) (j : Nat) : Word c :=
  if j = c.nrRegs + 2 then s.csr .mepc
  else if j = c.nrRegs + 1 then s.csr .mstatus
  else if j = c.nrRegs then s.csr .mcause
  else if j ∈ c.regs then s.x j
  else load s.mem (slot s.frame j) _

theorem exec_storeCsrs {s : Hart c} {f : Nat → Word c}
    (h : Holds s.mem (s.x sp) (c.nrRegs + 3) f) {t : Hart c}
    (ht : t = execAll [.csrr t0 .mcause, .csrr t1 .mstatus, .csrr t2 .mepc,
      .store t0 c.offsetCause sp, .store t1 c.offsetStatus sp, .store t2 c.offsetEpc sp,
      .li a0 (1 <<< 17), .or t1 t1 a0, .csrw .mstatus t1, .mv a0 sp] s) :
    t.x a0 = s.x sp ∧ t.x sp = s.x sp ∧
      Holds t.mem (s.x sp) (c.nrRegs + 3) (Function.update (Function.update (Function.update f
        c.nrRegs (s.csr .mcause)) (c.nrRegs + 1) (s.csr .mstatus)) (c.nrRegs + 2)
          (s.csr .mepc)) := by
  subst ht
  refine ⟨rfl, rfl, ?_⟩
  have hcause := h.store frame_fits (j := c.nrRegs) (by omega) (s.csr .mcause)
  have hstatus := hcause.store frame_fits (j := c.nrRegs + 1) (by omega) (s.csr .mstatus)
  have hepc := hstatus.store frame_fits (j := c.nrRegs + 2) (by omega) (s.csr .mepc)
  rw [← slot_offset, ← slot_offset, ← slot_offset] at hepc
  exact hepc

theorem atCall_spec (s : Hart c) : s.atCall.x a0 = s.frame ∧ s.atCall.x sp = s.frame ∧
    Holds s.atCall.mem s.frame (c.nrRegs + 3) s.stored := by
  have hregs : ∀ r ∈ c.regs, r < c.nrRegs + 3 := fun r hr =>
    Nat.lt_add_right 3 (mem_regs.mp hr).1
  have hbase : (s.setX sp s.frame).x sp = s.frame := by
    rw [x_setX s (by decide), if_pos rfl]
  obtain ⟨hgpr, hcsr, hmem⟩ := execAll_push c.regs (s := s.setX sp s.frame) hregs frame_fits
    (holds_load _ _ _)
  have hsp : (execAll (c.regs.map (push c)) (s.setX sp s.frame)).x sp = s.frame := by
    rw [x_of_ne (by decide), hgpr, ← x_of_ne (by decide), hbase]
  rw [hbase] at hmem
  obtain ⟨ha0, hsp', hall⟩ := exec_storeCsrs
    (s := execAll (c.regs.map (push c)) (s.setX sp s.frame)) (by rw [hsp]; exact hmem)
    (t := s.atCall) (by
      rw [Hart.atCall, asmTrapEntry, execAll_append, execAll_append]
      rfl)
  rw [hsp] at ha0 hsp' hall
  refine ⟨ha0, hsp', fun j hj => (hall j hj).trans ?_⟩
  rw [hcsr]
  show _ = s.stored j
  simp only [Function.update_apply, Hart.stored]
  split_ifs with hepc hstatus hcause hsaved
  · rfl
  · rfl
  · rfl
  · rw [x_setX s (by decide)]
    exact if_neg (mem_regs.mp hsaved).2.2
  · rfl

theorem sizeofContext_ge (c : Config) : c.xlen * (c.nrRegs + 3) ≤ sizeofContext c :=
  Nat.mul_le_mul_left _ (by omega)

theorem stored_reg {s : Hart c} {i : Nat} (hi : i ∈ c.regs) : s.stored i = s.x i := by
  have hlt := (mem_regs.mp hi).1
  rw [Hart.stored, if_neg (by omega), if_neg (by omega), if_neg (by omega), if_pos hi]

theorem exec_loadCsrs {s : Hart c} {f : Nat → Word c} (h : Holds s.mem (s.x sp) (c.nrRegs + 3) f)
    {t : Hart c} (ht : t = execAll [.load t1 c.offsetStatus sp, .load t2 c.offsetEpc sp,
      .csrw .mstatus t1, .csrw .mepc t2] s) :
    t.mem = s.mem ∧ t.x sp = s.x sp ∧ t.csr .mstatus = f (c.nrRegs + 1) ∧
      t.csr .mepc = f (c.nrRegs + 2) := by
  have hstatus := h (c.nrRegs + 1) (by omega)
  have hepc := h (c.nrRegs + 2) (by omega)
  rw [← slot_offset] at hstatus hepc
  subst ht
  exact ⟨rfl, rfl, hstatus, hepc⟩

/-- The stub restores what it stored, whatever the call did to the registers. -/
theorem resumes (s : Hart c) : Resumes s := by
  intro userHandler t h
  obtain ⟨ha0, hsp, hframe⟩ := atCall_spec s
  obtain ⟨m, -, hhandler, hcompiled⟩ := h.handled
  have htsp : t.x sp = s.frame := h.sp.trans hsp
  have hmem : Holds t.mem (t.x sp) (c.nrRegs + 3) s.stored := by
    rw [htsp]
    refine hframe.congr frame_fits fun x hx => ?_
    have hin : (x - s.atCall.x a0).toNat < sizeofContext c := by
      rw [ha0]
      exact Nat.lt_of_lt_of_le hx (sizeofContext_ge c)
    exact (hcompiled x hin).trans (hhandler x hin)
  obtain ⟨hmem', hsp', hstatus, hepc⟩ := exec_loadCsrs hmem rfl
  rw [← hmem', ← hsp'] at hmem
  have hregs : ∀ r ∈ c.regs, r < c.nrRegs + 3 ∧ r ≠ 0 ∧ r ≠ sp := by
    intro r hr
    obtain ⟨hlt, hzero, htwo⟩ := mem_regs.mp hr
    exact ⟨Nat.lt_add_right 3 hlt, hzero, htwo⟩
  obtain ⟨hcsr, hx⟩ := execAll_pop c.regs hregs hmem
  rw [asmTrapExit, execAll_append, execAll_append]
  refine ⟨fun i hi => ?_, ?_, ?_⟩
  · show Hart.x (Hart.setX _ sp (Hart.x _ sp + BitVec.ofInt _ _)) i = s.x i
    have hspNot : sp ∉ c.regs := fun hmem => (mem_regs.mp hmem).2.2 rfl
    rw [x_setX _ (by decide), hx, hx, if_neg hspNot, hsp', htsp]
    split_ifs with hisp hsaved
    · rw [hisp, BitVec.ofInt_natCast, frame_add_size]
    · exact stored_reg hsaved
    · have hzero : i = 0 := by
        by_contra hne
        exact hsaved (mem_regs.mpr ⟨hi, hne, hisp⟩)
      rw [hzero, x_zero, x_zero]
  · show (execAll (c.regs.map (pop c)) _).csr .mstatus = s.csr .mstatus
    rw [hcsr, hstatus, Hart.stored, if_neg (by omega), if_pos rfl]
  · show (execAll (c.regs.map (pop c)) _).csr .mepc = s.csr .mepc
    rw [hcsr, hepc, Hart.stored, if_pos rfl]

theorem passed_word (s : Hart c) {j : Nat} (hj : j < c.nrRegs + 3) :
    load s.atCall.mem (s.atCall.x a0 + BitVec.ofNat (8 * c.xlen) (c.xlen * j)) (8 * c.xlen) =
      s.stored j := by
  obtain ⟨ha0, -, hframe⟩ := atCall_spec s
  rw [ha0]
  exact hframe j hj

/-- The registers that the stub saves, the control registers and the word the frame is laid over
first all hold one value. -/
def Uniform (s : Hart c) (v : Word c) : Prop :=
  (∀ i ∈ c.regs, s.x i = v) ∧ (∀ r, s.csr r = v) ∧ load s.mem s.frame _ = v

theorem nrRegs_cases (c : Config) : c.nrRegs = 16 ∨ c.nrRegs = 32 := by
  unfold Config.nrRegs
  cases c.riscvE
  · exact .inr rfl
  · exact .inl rfl

theorem Uniform.stored {s : Hart c} {v : Word c} (h : Uniform s v) {j : Nat}
    (hj : j < c.nrRegs + 3) (htwo : j ≠ 2) : s.stored j = v := by
  unfold Hart.stored
  split_ifs with hepc hstatus hcause hsaved
  · exact h.2.1 _
  · exact h.2.1 _
  · exact h.2.1 _
  · exact h.1 j hsaved
  · have hzero : j = 0 := by
      by_contra hne
      exact hsaved (mem_regs.mpr ⟨by omega, hne, htwo⟩)
    rw [hzero, slot_zero]
    exact h.2.2

/-- Registers that are two apart are equal where the handler reads them right, as `gpr` starts at
word 2 of the context. -/
theorem Agrees.two_apart {s : Hart c} (h : Agrees s) {i : Nat} (hi : i ∈ c.regs) :
    s.stored (i + 2) = s.stored i := by
  have hlt := (mem_regs.mp hi).1
  rw [stored_reg hi, ← h.gpr i hi, Nat.add_comm, ← passed_word s (by omega)]
  rfl

theorem Agrees.odd {s : Hart c} (h : Agrees s) {k : Nat} (hk : 2 * k ≤ c.nrRegs) :
    s.stored (2 * k + 1) = s.csr .mcause := by
  have hnr := nrRegs_cases c
  induction k with
  | zero =>
    rw [← h.mcause, ← passed_word s (by omega)]
    rfl
  | succ k ih =>
    rw [← ih (by omega)]
    exact h.two_apart (i := 2 * k + 1) (mem_regs.mpr (by omega))

theorem Agrees.even {s : Hart c} (h : Agrees s) {k : Nat} (hk : 2 * k + 4 ≤ c.nrRegs) :
    s.stored (2 * k + 4) = s.stored 4 := by
  induction k with
  | zero => rfl
  | succ k ih =>
    rw [← ih (by omega)]
    exact h.two_apart (i := 2 * k + 4) (mem_regs.mpr (by omega))

theorem Agrees.stored_eq {s : Hart c} (h : Agrees s) {j : Nat} (hpos : 0 < j)
    (hle : j ≤ c.nrRegs + 1) (htwo : j ≠ 2) : s.stored j = s.csr .mcause := by
  have hnr := nrRegs_cases c
  have hlast : s.stored 4 = s.csr .mcause := by
    rw [← h.even (k := (c.nrRegs - 4) / 2) (by omega), Hart.stored, if_neg (by omega),
      if_neg (by omega), if_pos (by omega)]
  obtain ⟨k, hk⟩ | ⟨k, hk⟩ : (∃ k, j = 2 * k + 1) ∨ ∃ k, j = 2 * k + 4 := by
    rcases Nat.mod_two_eq_zero_or_one j with heven | hodd
    · exact .inr ⟨(j - 4) / 2, by omega⟩
    · exact .inl ⟨j / 2, by omega⟩
  · rw [hk]
    exact h.odd (by omega)
  · rw [hk, h.even (by omega), hlast]

theorem Agrees.uniform {s : Hart c} (h : Agrees s) : Uniform s (s.csr .mcause) := by
  have hnr := nrRegs_cases c
  have hstatus : s.csr .mstatus = s.csr .mcause := by
    rw [← h.stored_eq (j := c.nrRegs + 1) (by omega) (by omega) (by omega), Hart.stored,
      if_neg (by omega), if_pos rfl]
  have hepc : s.csr .mepc = s.csr .mcause := by
    rw [← hstatus, ← h.mstatus]
    refine Eq.trans ?_ (passed_word s (j := 2 + c.nrRegs) (by omega)).symm
    rw [Hart.stored, if_pos (by omega)]
  refine ⟨fun i hi => ?_, fun r => ?_, ?_⟩
  · obtain ⟨hlt, hzero, htwo⟩ := mem_regs.mp hi
    rw [← stored_reg hi]
    exact h.stored_eq (by omega) (by omega) htwo
  · cases r with
    | mcause => rfl
    | mstatus => exact hstatus
    | mepc => exact hepc
  · have hnot : 0 ∉ c.regs := fun hmem => (mem_regs.mp hmem).2.1 rfl
    rw [← hepc, ← h.mepc]
    refine Eq.trans ?_ (passed_word s (j := 0) (by omega)).symm
    rw [Hart.stored, if_neg (by omega), if_neg (by omega), if_neg (by omega), if_neg hnot,
      slot_zero]

theorem Uniform.agrees {s : Hart c} {v : Word c} (h : Uniform s v) : Agrees s := by
  have hnr := nrRegs_cases c
  have hword : ∀ j, j < c.nrRegs + 3 → j ≠ 2 →
      load s.atCall.mem (s.atCall.x a0 + BitVec.ofNat (8 * c.xlen) (c.xlen * j)) (8 * c.xlen) =
        v := fun j hj htwo => (passed_word s hj).trans (h.stored hj htwo)
  refine ⟨fun i hi => ?_, ?_, ?_, ?_⟩
  · obtain ⟨hlt, hzero, -⟩ := mem_regs.mp hi
    rw [h.1 i hi]
    exact hword (2 + i) (by omega) (by omega)
  · rw [h.2.1]
    exact hword 1 (by omega) (by omega)
  · rw [h.2.1]
    exact hword (2 + c.nrRegs) (by omega) (by omega)
  · rw [h.2.1]
    exact hword 0 (by omega) (by omega)

theorem agrees_iff (s : Hart c) : Agrees s ↔ ∃ v, Uniform s v :=
  ⟨fun h => ⟨_, h.uniform⟩, fun ⟨_, h⟩ => h.agrees⟩

/-- In every configuration the return restores what was interrupted, but the handler reads the
interrupted registers only where it could not tell them apart. -/
theorem trapFrame_agrees_iff (c : Config) (s : Hart c) :
    Agrees s ∧ Resumes s ↔ ∃ v, Uniform s v := by
  rw [and_iff_left (resumes s)]
  exact agrees_iff s

/-- An environment call on RV32, with every register holding its own number. -/
def ecallHart : Hart ⟨false, false⟩ where
  gpr i := BitVec.ofNat _ i
  mem _ := 0
  csr
    | .mcause => 11
    | .mstatus => 0x1800
    | .mepc => 0x80000000

theorem ecallHart_disagrees : ¬Agrees ecallHart := by
  intro h
  obtain ⟨v, hregs, -, -⟩ := (agrees_iff ecallHart).mp h
  have hra : ecallHart.x 1 = v := hregs 1 (by decide)
  have hgp : ecallHart.x 3 = v := hregs 3 (by decide)
  exact absurd (hra.trans hgp.symm) (by decide)

end Riscv32Cpu.RiscvTrap
