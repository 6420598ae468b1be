/- module: Riscv32Cpu/Nemu/Refinement
   source: CODE/nemu/src/isa/riscv32/inst.c, src/cpu/cpu-exec.c
   digest: NEMU runs auipc, lbu and sb as RV32I defines them, and stops at ebreak. -/

import Riscv32Cpu.Nemu.Cpu
import Riscv32Cpu.Nemu.Monitor

set_option autoImplicit false
set_option relaxedAutoImplicit false

namespace Riscv32Cpu.Nemu.Refinement

open Riscv32Cpu.Lib.Memory Riscv32Cpu.Lib.Run Riscv32Cpu.Lib.Effect Riscv32Cpu.Isa.Rv32i
open Riscv32Cpu.Nemu.Memory Riscv32Cpu.Nemu.Decode Riscv32Cpu.Nemu.Cpu Riscv32Cpu.Nemu.Monitor

variable {pmem : BitVec 64} {csDisasm : Word → Word → Nat}

/-- The machine shows the hart `s`: registers, `pc`, and the memory that `pmem` stands for. -/
structure Shows (pmem : BitVec 64) (s : State) (m : Machine) : Prop where
  regs : ∀ r, m.cpu.gpr r = s.x r
  pc : m.cpu.pc = s.pc
  mem : ∀ a, inPmem a = true → m.host (guestToHost pmem a) = s.mem a

theorem Shows.fetch {s : State} {m : Machine} (h : Shows pmem s m) (hpc : inPmem s.pc = true)
    (h4 : s.pc.toNat % 4 = 0) : load m.host (guestToHost pmem s.pc) 32 = load s.mem s.pc 32 := by
  refine ofBytes_congr fun k hk => ?_
  obtain ⟨hin, hoff⟩ := inPmem_add hpc h4 (k := k) (by omega)
  have haddr : guestToHost pmem s.pc + BitVec.ofNat 64 k =
      guestToHost pmem (s.pc + BitVec.ofNat 32 k) := by
    rw [guestToHost_eq pmem hpc, guestToHost_eq pmem hin, hoff, BitVec.ofNat_add,
      BitVec.add_assoc]
  show m.host (guestToHost pmem s.pc + BitVec.ofNat 64 k) = s.mem (s.pc + BitVec.ofNat 32 k)
  rw [haddr, h.mem _ hin]

/-- The hart a machine shows; what lies outside `pmem` is arbitrary. -/
def guest (pmem : BitVec 64) (m : Machine) (h0 : m.cpu.gpr 0 = 0) : State where
  x := ⟨m.cpu.gpr, h0⟩
  mem a := m.host (guestToHost pmem a)
  pc := m.cpu.pc

theorem shows_guest (m : Machine) (h0 : m.cpu.gpr 0 = 0) : Shows pmem (guest pmem m h0) m :=
  ⟨fun _ => rfl, rfl, fun _ _ => rfl⟩

/-- The instructions NEMU implements besides `ebreak`. -/
def Supported : Inst → Bool
  | .auipc .. => true
  | .op (.lbu ..) => true
  | .op (.sb ..) => true
  | _ => false

/-- The hart of the specification, which stops at the first other instruction. -/
def specFetch (s : State) : Option Inst := (fetchMem s).filter Supported

/-- In the word of every instruction that NEMU implements capstone finds this one instruction. -/
def Disassembles (csDisasm : Word → Word → Nat) : Prop :=
  ∀ pc inst i, Encodes inst i → Supported i = true ∨ i = .ebreak → csDisasm pc inst = 1

/-- The address of the data access of an instruction. -/
def dataAddr (s : State) : Inst → Option Word
  | .op (.lbu _ imm rs1) => some (s.x rs1 + imm.signExtend 32)
  | .op (.sb _ imm rs1) => some (s.x rs1 + imm.signExtend 32)
  | _ => none

/-- The accesses of the next instruction fall in `pmem`. -/
def AccessesInPmem (s : State) : Prop :=
  inPmem s.pc = true ∧
    ∀ i a, fetchMem s = some i → dataAddr s i = some a → inPmem a = true

theorem Shows.congr {s : State} {m m' : Machine} (h : Shows pmem s m) (hcpu : m'.cpu = m.cpu)
    (hhost : m'.host = m.host) : Shows pmem s m' := by
  refine ⟨fun r => ?_, ?_, fun a ha => ?_⟩
  · rw [hcpu, h.regs]
  · rw [hcpu, h.pc]
  · rw [hhost, h.mem a ha]

theorem Shows.touching {s : State} {m : Machine} (h : Shows pmem s m) (a : BitVec 64) (n : Nat) :
    Shows pmem s (m.touching a n) := h.congr rfl rfl

theorem Shows.retire_setReg {s : State} {m : Machine} (h : Shows pmem s m) (rd : Reg)
    (v pc : Word) :
    Shows pmem { s with x := s.x.set rd v, pc := pc } (retire (setReg m rd v) pc) := by
  refine ⟨fun r => ?_, rfl, h.mem⟩
  show Function.update (Function.update m.cpu.gpr rd v) 0 0 r = s.x.set rd v r
  by_cases h0 : r = 0
  · subst h0
    rw [Function.update_self, RegFile.get_zero]
  · rw [Function.update_of_ne h0, RegFile.get_set, Function.update_apply]
    by_cases hrd : r = rd
    · rw [if_pos hrd, if_pos ⟨hrd, hrd ▸ h0⟩]
    · rw [if_neg hrd, if_neg fun hr => hrd hr.1, h.regs]

theorem Shows.retire {s : State} {m : Machine} (h : Shows pmem s m) (pc : Word) :
    Shows pmem { s with pc := pc } (retire m pc) := by
  refine ⟨fun r => ?_, rfl, h.mem⟩
  show Function.update m.cpu.gpr 0 0 r = s.x r
  by_cases h0 : r = 0
  · subst h0
    rw [Function.update_self, RegFile.get_zero]
  · rw [Function.update_of_ne h0, h.regs]

theorem Shows.store {s : State} {m : Machine} (h : Shows pmem s m) {a : Word}
    (ha : inPmem a = true) (v : Word) :
    Shows pmem { s with mem := store s.mem a 1 v }
      { m with host := store m.host (guestToHost pmem a) 1 v } := by
  refine ⟨h.regs, h.pc, fun b hb => ?_⟩
  show Lib.Memory.store m.host (guestToHost pmem a) 1 v (guestToHost pmem b) =
    Lib.Memory.store s.mem a 1 v b
  rw [store_byte, store_byte, Function.update_apply, Function.update_apply]
  by_cases hab : b = a
  · rw [if_pos (congrArg _ hab), if_pos hab]
  · rw [if_neg (guestToHost_ne ha hb hab), if_neg hab, h.mem b hb]

/-- What a round keeps besides the shown hart: the run state and the host outside `pmem`. -/
structure Frame (pmem : BitVec 64) (m m' : Machine) : Prop where
  nemuState : m'.nemuState = m.nemuState
  host : ∀ b : BitVec 64, ¬(b - pmem).toNat < configMsize.toNat → m'.host b = m.host b

theorem store_frame {a : Word} (ha : inPmem a = true) (mem : Mem 64) (v : Word) {b : BitVec 64}
    (hb : ¬(b - pmem).toNat < configMsize.toNat) :
    store mem (guestToHost pmem a) 1 v b = mem b := by
  rw [store_byte]
  refine Function.update_of_ne (fun heq => hb ?_) _ _
  have hlt := (toNat_of_inPmem ha).2
  rw [heq, guestToHost_eq pmem ha, toNat_add_sub pmem (by omega)]
  exact hlt

theorem execOnce_auipc (hdis : Disassembles csDisasm) {s : State} {m : Machine}
    (h : Shows pmem s m) (hpc : inPmem s.pc = true)
    {rd : Reg} {imm : BitVec 20} (henc : Encodes (load m.host (guestToHost pmem s.pc) 32)
      (.auipc rd imm)) (d : DecodeInfo) :
    ∃ d' m', execOnce pmem csDisasm d s.pc m = .ok d' m' ∧ Frame pmem m m' ∧
      Shows pmem { s with x := s.x.set rd (s.pc + upper imm), pc := s.pc + 4 } m' := by
  have hcount := hdis s.pc _ _ henc (.inl rfl)
  obtain ⟨hop, rfl, rfl⟩ := henc
  have ht := h.touching (guestToHost pmem s.pc) 4
  have harm := (instPats_auipc pmem
    (s := ⟨s.pc, s.pc + 4, s.pc + 4, load m.host (guestToHost pmem s.pc) 32⟩) hop
    (m.touching (guestToHost pmem s.pc) 4)).trans (setGpr_eq rfl _ _)
  refine ⟨_, _, execOnce_eq hpc hcount harm d, ⟨rfl, fun _ _ => rfl⟩, ?_⟩
  exact ht.retire_setReg _ _ _

theorem execOnce_lbu (hdis : Disassembles csDisasm) {s : State} {m : Machine}
    (h : Shows pmem s m) (hpc : inPmem s.pc = true)
    {rd rs1 : Reg} {imm : BitVec 12} (henc : Encodes (load m.host (guestToHost pmem s.pc) 32)
      (.op (.lbu rd imm rs1))) (ha : inPmem (s.x rs1 + imm.signExtend 32) = true)
    (d : DecodeInfo) :
    ∃ d' m', execOnce pmem csDisasm d s.pc m = .ok d' m' ∧ Frame pmem m m' ∧
      Shows pmem { s with x := s.x.set rd ((s.mem (s.x rs1 + imm.signExtend 32)).setWidth 32),
                          pc := s.pc + 4 } m' := by
  have hcount := hdis s.pc _ _ henc (.inl rfl)
  obtain ⟨hop, rfl, rfl, rfl⟩ := henc
  have ht := h.touching (guestToHost pmem s.pc) 4
  have harm := instPats_lbu pmem
    (s := ⟨s.pc, s.pc + 4, s.pc + 4, load m.host (guestToHost pmem s.pc) 32⟩) hop
    (m.touching (guestToHost pmem s.pc) 4)
  rw [ht.regs, bind_of_ok (vaddrRead_in ha (.inl rfl) _), setGpr_eq rfl] at harm
  refine ⟨_, _, execOnce_eq hpc hcount harm d, ⟨rfl, fun _ _ => rfl⟩, ?_⟩
  have hbyte : load m.host (guestToHost pmem _) 8 = s.mem _ := (load_byte _ _).trans (h.mem _ ha)
  rw [← hbyte]
  exact (ht.touching _ 1).retire_setReg _ _ _

theorem execOnce_sb (hdis : Disassembles csDisasm) {s : State} {m : Machine}
    (h : Shows pmem s m) (hpc : inPmem s.pc = true)
    {rs2 rs1 : Reg} {imm : BitVec 12} (henc : Encodes (load m.host (guestToHost pmem s.pc) 32)
      (.op (.sb rs2 imm rs1))) (ha : inPmem (s.x rs1 + imm.signExtend 32) = true)
    (d : DecodeInfo) :
    ∃ d' m', execOnce pmem csDisasm d s.pc m = .ok d' m' ∧ Frame pmem m m' ∧
      Shows pmem { s with mem := store s.mem (s.x rs1 + imm.signExtend 32) 1 (s.x rs2),
                          pc := s.pc + 4 } m' := by
  have hcount := hdis s.pc _ _ henc (.inl rfl)
  obtain ⟨hop, rfl, rfl, rfl⟩ := henc
  have ht := h.touching (guestToHost pmem s.pc) 4
  have harm := instPats_sb pmem
    (s := ⟨s.pc, s.pc + 4, s.pc + 4, load m.host (guestToHost pmem s.pc) 32⟩) hop
    (m.touching (guestToHost pmem s.pc) 4)
  rw [ht.regs, ht.regs, vaddrWrite_in ha (.inl rfl)] at harm
  refine ⟨_, _, execOnce_eq hpc hcount harm d, ⟨rfl, fun b hb => store_frame ha m.host _ hb⟩, ?_⟩
  exact ((ht.touching _ 1).store ha _).retire _

theorem execOnce_refines (hdis : Disassembles csDisasm) {s s' : State} {m : Machine}
    (h : Shows pmem s m) (h4 : s.pc.toNat % 4 = 0) (hacc : AccessesInPmem s)
    (hstep : step specFetch s = some s') (d : DecodeInfo) :
    (∃ d' m', execOnce pmem csDisasm d s.pc m = .ok d' m' ∧ Frame pmem m m' ∧ Shows pmem s' m') ∧
      s'.pc = s.pc + 4 := by
  obtain ⟨i, hi, hexec⟩ := Option.bind_eq_some_iff.mp hstep
  obtain ⟨hfetch, hsup⟩ := Option.filter_eq_some_iff.mp hi
  have henc := encodes_of_decode hfetch
  rw [← h.fetch hacc.1 h4] at henc
  cases i with
  | auipc rd imm =>
    cases hexec
    exact ⟨execOnce_auipc hdis h hacc.1 henc d, rfl⟩
  | op o =>
    cases o with
    | lbu rd imm rs1 =>
      cases hexec
      exact ⟨execOnce_lbu hdis h hacc.1 henc (hacc.2 _ _ hfetch rfl) d, rfl⟩
    | sb rs2 imm rs1 =>
      cases hexec
      exact ⟨execOnce_sb hdis h hacc.1 henc (hacc.2 _ _ hfetch rfl) d, rfl⟩
    | _ => cases hsup
  | jalr rd rs1 imm => cases hsup
  | ebreak => cases hsup

theorem execOnce_ebreak (hdis : Disassembles csDisasm) {s : State} {m : Machine}
    (h : Shows pmem s m) (h4 : s.pc.toNat % 4 = 0)
    (hpc : inPmem s.pc = true) (hfetch : fetchMem s = some .ebreak) (d : DecodeInfo) :
    ∃ d' m', execOnce pmem csDisasm d s.pc m = .ok d' m' ∧ m'.nemuState = ⟨.end, s.pc, s.x 10⟩ ∧
      Shows pmem { s with pc := s.pc + 4 } m' := by
  have hword : load m.host (guestToHost pmem s.pc) 32 = 0x00100073 :=
    (h.fetch hpc h4).trans (encodes_of_decode hfetch)
  have hcount := hdis s.pc _ .ebreak hword (.inr rfl)
  have ht := h.touching (guestToHost pmem s.pc) 4
  have harm := instPats_ebreak pmem
    (s := ⟨s.pc, s.pc + 4, s.pc + 4, load m.host (guestToHost pmem s.pc) 32⟩) hword
    (m.touching (guestToHost pmem s.pc) 4)
  refine ⟨_, _, execOnce_eq hpc hcount harm d, ?_, ?_⟩
  · show NemuState.mk .end s.pc (m.cpu.gpr 10) = ⟨.end, s.pc, s.x 10⟩
    rw [h.regs]
  · refine Shows.retire ?_ _
    exact h.congr rfl rfl

/-- One round of `execute` that does not leave the loop. -/
def round (pmem : BitVec 64) (csDisasm : Word → Word → Nat) (t : DecodeInfo × Machine) :
    Option (DecodeInfo × Machine) :=
  match execOnce pmem csDisasm t.1 t.2.cpu.pc t.2 with
  | .ok d m =>
    if m.nemuState.state = .running then some (d, { m with gNrGuestInst := m.gNrGuestInst + 1 })
    else none
  | .error _ _ => none

theorem executeLoop_of_round {t t' : DecodeInfo × Machine} (h : round pmem csDisasm t = some t')
    (n : Nat) : executeLoop pmem csDisasm (n + 1) t.1 t.2 = executeLoop pmem csDisasm n t'.1 t'.2 := by
  unfold round at h
  cases hexec : execOnce pmem csDisasm t.1 t.2.cpu.pc t.2 with
  | error e m =>
    rw [hexec] at h
    cases h
  | ok d m =>
    rw [hexec] at h
    by_cases hrun : m.nemuState.state = .running
    · cases (if_pos hrun).symm.trans h
      rw [executeLoop_succ hexec, if_pos hrun]
    · cases (if_neg hrun).symm.trans h

theorem executeLoop_of_runN {n : Nat} {t t' : DecodeInfo × Machine}
    (h : runN (round pmem csDisasm) n t = some t') (k : Nat) :
    executeLoop pmem csDisasm (n + k) t.1 t.2 = executeLoop pmem csDisasm k t'.1 t'.2 := by
  induction n generalizing t with
  | zero =>
    cases h
    rw [Nat.zero_add]
  | succ n ih =>
    obtain ⟨u, hu, hrun⟩ := Option.bind_eq_some_iff.mp h
    rw [Nat.add_right_comm, executeLoop_of_round hu, ih hrun]

/-- The simulation between harts and machines, for runs that start in `m₀`. -/
structure Simulates (pmem : BitVec 64) (m₀ : Machine) (s : State) (t : DecodeInfo × Machine) :
    Prop where
  hart : Shows pmem s t.2
  aligned : s.pc.toNat % 4 = 0
  frame : Frame pmem m₀ t.2

theorem Frame.trans {m m' m'' : Machine} (h : Frame pmem m m') (h' : Frame pmem m' m'') :
    Frame pmem m m'' :=
  ⟨h'.nemuState.trans h.nemuState, fun b hb => (h'.host b hb).trans (h.host b hb)⟩

theorem round_simulates (hdis : Disassembles csDisasm) {m₀ : Machine}
    (hrun : m₀.nemuState.state = .running) {s s' : State} {t : DecodeInfo × Machine}
    (h : Simulates pmem m₀ s t) (hacc : AccessesInPmem s) (hstep : step specFetch s = some s') :
    ∃ t', round pmem csDisasm t = some t' ∧ Simulates pmem m₀ s' t' := by
  obtain ⟨⟨d, m, hexec, hframe, hshow⟩, hpc⟩ :=
    execOnce_refines hdis h.hart h.aligned hacc hstep t.1
  have hkeep := h.frame.trans hframe
  have hstate : m.nemuState.state = .running := by rw [hkeep.nemuState, hrun]
  refine ⟨(d, { m with gNrGuestInst := m.gNrGuestInst + 1 }), ?_, ?_⟩
  · rw [round, h.hart.pc, hexec]
    exact if_pos hstate
  · refine ⟨hshow.congr rfl rfl, ?_, ⟨hkeep.nemuState, hkeep.host⟩⟩
    rw [hpc, BitVec.toNat_add]
    show (s.pc.toNat + 4) % 2 ^ 32 % 4 = 0
    have := h.aligned
    omega

/-- NEMU refines RV32I on `auipc`, `lbu` and `sb`, and `ebreak` ends the run. -/
theorem execute_refines_rv32i (pmem : BitVec 64) (csDisasm : Word → Word → Nat) (s s' : State)
    (m : Machine) (n : Nat) (hdis : Disassembles csDisasm) (hshow : Shows pmem s m)
    (haligned : s.pc.toNat % 4 = 0) (hstate : m.nemuState.state = .running)
    (hrun : runN (step specFetch) n s = some s')
    (hacc : ∀ k < n, ∀ u, runN (step specFetch) k s = some u → AccessesInPmem u) :
    (∃ m', execute pmem csDisasm n m = .ok () m' ∧ Shows pmem s' m' ∧ Frame pmem m m') ∧
    (fetchMem s' = some .ebreak → inPmem s'.pc = true → ∀ k, ∃ m',
      execute pmem csDisasm (n + 1 + k) m = .ok () m' ∧
        m'.nemuState = ⟨.end, s'.pc, s'.x 10⟩ ∧ Shows pmem { s' with pc := s'.pc + 4 } m') := by
  have hstart : Simulates pmem m s (⟨0, 0, 0, 0⟩, m) :=
    ⟨hshow, haligned, ⟨rfl, fun _ _ => rfl⟩⟩
  obtain ⟨t, ht, hsim⟩ := runN_simulation
    (fun _ _ _ h hok hst => round_simulates hdis hstate h hok hst) hrun hacc hstart
  have hloop := executeLoop_of_runN ht
  constructor
  · exact ⟨t.2, hloop 0, hsim.hart, hsim.frame⟩
  · intro hbreak hpc k
    obtain ⟨d, m', hexec, hend, hshow'⟩ :=
      execOnce_ebreak hdis hsim.hart hsim.aligned hpc hbreak t.1
    rw [← hsim.hart.pc] at hexec
    have hstop : ¬m'.nemuState.state = .running := by
      intro hrunning
      rw [hend] at hrunning
      cases hrunning
    refine ⟨{ m' with gNrGuestInst := m'.gNrGuestInst + 1 }, ?_, hend, hshow'.congr rfl rfl⟩
    rw [execute, Nat.add_assoc, hloop (1 + k), Nat.add_comm 1 k, executeLoop_succ hexec,
      if_neg hstop]

/-- A host address for `pmem`. -/
def imgPmem : BitVec 64 := 0x10000

/-- A machine about to run the built-in image. -/
def imgMachine : Machine :=
  finalState (initIsa imgPmem ⟨⟨fun _ => 0, 0⟩, fun _ => 0, ⟨.running, 0, 0⟩, 0, []⟩)

def imgHart : State := guest imgPmem imgMachine rfl

/-- After `auipc t0,0`. -/
def imgHart₁ : State :=
  { imgHart with x := imgHart.x.set 5 (imgHart.pc + upper 0), pc := imgHart.pc + 4 }

/-- After `sb zero,16(t0)`. -/
def imgHart₂ : State :=
  { imgHart₁ with
    mem := store imgHart₁.mem (imgHart₁.x 5 + (16#12).signExtend 32) 1 (imgHart₁.x 0)
    pc := imgHart₁.pc + 4 }

/-- After `lbu a0,16(t0)`. -/
def imgHart₃ : State :=
  { imgHart₂ with
    x := imgHart₂.x.set 10 ((imgHart₂.mem (imgHart₂.x 5 + (16#12).signExtend 32)).setWidth 32)
    pc := imgHart₂.pc + 4 }

private theorem img_step {s s' : State} {i : Inst} (hf : fetchMem s = some i)
    (hs : Supported i = true) (he : i.exec s = some s') (hpc : inPmem s.pc = true)
    (ha : ∀ a, dataAddr s i = some a → inPmem a = true) :
    step specFetch s = some s' ∧ AccessesInPmem s := by
  constructor
  · rw [step, specFetch, hf, Option.filter_some_pos hs, Option.bind_some, he]
  · refine ⟨hpc, fun j a hj => ?_⟩
    cases hf.symm.trans hj
    exact ha a

private theorem img_auipc : step specFetch imgHart = some imgHart₁ ∧ AccessesInPmem imgHart := by
  refine img_step (i := .auipc 5 0) (by decide +kernel) rfl rfl (by decide) fun a ha => ?_
  cases ha

private theorem img_sb : step specFetch imgHart₁ = some imgHart₂ ∧ AccessesInPmem imgHart₁ := by
  refine img_step (i := .op (.sb 0 16 5)) (by decide +kernel) rfl rfl (by decide) fun a ha => ?_
  rw [← Option.some.inj ha]
  decide +kernel

private theorem img_lbu : step specFetch imgHart₂ = some imgHart₃ ∧ AccessesInPmem imgHart₂ := by
  refine img_step (i := .op (.lbu 10 16 5)) (by decide +kernel) rfl rfl (by decide) fun a ha => ?_
  rw [← Option.some.inj ha]
  decide +kernel

/-- The built-in image ends in a good trap at its fourth instruction. -/
theorem builtin_image_hits_good_trap :
    (∃ m', execute imgPmem oneInst 3 imgMachine = .ok () m' ∧ Shows imgPmem imgHart₃ m' ∧
      Frame imgPmem imgMachine m') ∧
    ∃ m', execute imgPmem oneInst 4 imgMachine = .ok () m' ∧
      m'.nemuState = ⟨.end, 0x8000000c, 0⟩ := by
  have hrun : runN (step specFetch) 3 imgHart = some imgHart₃ := by
    rw [runN_succ_of_step img_auipc.1, runN_succ_of_step img_sb.1, runN_succ_of_step img_lbu.1,
      runN_zero]
  have hacc : ∀ k < 3, ∀ u, runN (step specFetch) k imgHart = some u → AccessesInPmem u := by
    intro k hk u hu
    rcases k with _ | _ | _ | k
    · cases hu
      exact img_auipc.2
    · rw [runN_succ_of_step img_auipc.1] at hu
      cases hu
      exact img_sb.2
    · rw [runN_succ_of_step img_auipc.1, runN_succ_of_step img_sb.1] at hu
      cases hu
      exact img_lbu.2
    · omega
  obtain ⟨hthree, hbreak⟩ := execute_refines_rv32i imgPmem oneInst imgHart imgHart₃ imgMachine 3
    (fun _ _ _ _ _ => rfl) (shows_guest imgMachine rfl) (by decide) rfl hrun hacc
  obtain ⟨m', hexec, hend, -⟩ := hbreak (by decide +kernel) (by decide) 0
  have hret : imgHart₃.x 10 = 0 := by decide +kernel
  exact ⟨hthree, m', hexec, by rw [hend, hret]; rfl⟩

end Riscv32Cpu.Nemu.Refinement
