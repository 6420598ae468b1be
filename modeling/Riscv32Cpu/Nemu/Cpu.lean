/- module: Riscv32Cpu/Nemu/Cpu
   source: CODE/nemu/src/isa/riscv32/inst.c, src/cpu/cpu-exec.c, src/engine/interpreter/hostcall.c
   digest: NEMU's interpreter: one instruction, the execution loop, and its traps. -/

import Riscv32Cpu.Nemu.Decode

set_option autoImplicit false
set_option relaxedAutoImplicit false

namespace Riscv32Cpu.Nemu.Cpu

open Riscv32Cpu.Lib.Memory Riscv32Cpu.Lib.Effect Riscv32Cpu.Isa.Rv32i Riscv32Cpu.Nemu.Memory
open Riscv32Cpu.Nemu.Decode

variable (pmem : BitVec 64)

/-- Fetch and advance: the word at `pc` and the new value of `pc`. -/
def instFetch (pc : Word) (len : Nat) : M (Word × Word) := do
  return (← vaddrIfetch pmem pc len, pc + BitVec.ofNat 32 len)

/-- `difftest_skip_ref` is empty, as `CONFIG_DIFFTEST` is not set. -/
def setNemuState (state : RunState) (pc : Word) (haltRet : Word) : M Unit :=
  modify fun m => { m with nemuState := ⟨state, pc, haltRet⟩ }

/-- Only the fetches of the report matter for the machine; its text goes to the terminal. -/
def invalidInst (thispc : Word) : M Unit := do
  let (_, pc) ← instFetch pmem thispc 4
  let _ ← instFetch pmem pc 4
  setNemuState .abort thispc (-1)

def nemuTrap (thispc : Word) (code : Word) : M Unit := setNemuState .end thispc code

/-- The table from `INSTPAT_START` to `INSTPAT_END`. -/
def instPats (s : DecodeInfo) : M Unit :=
  instPat s auipcPattern .U (fun o => setGpr o.rd (s.pc + o.imm)) <|
  instPat s lbuPattern .I (fun o => do setGpr o.rd (← vaddrRead pmem (o.src1 + o.imm) 1)) <|
  instPat s sbPattern .S (fun o => vaddrWrite pmem (o.src1 + o.imm) 1 o.src2) <|
  instPat s ebreakPattern .N (fun _ => do nemuTrap s.pc (← gpr 10)) <|
  instPat s invPattern .N (fun _ => invalidInst pmem s.pc) (pure ())

def decodeExec (s : DecodeInfo) : M DecodeInfo := do
  let s := { s with dnpc := s.snpc }
  instPats pmem s
  setGpr 0 0
  return s

def isaExecOnce (s : DecodeInfo) : M DecodeInfo := do
  let (inst, snpc) ← instFetch pmem s.snpc 4
  decodeExec pmem { s with inst := inst, snpc := snpc }

section

-- The number of instructions that `cs_disasm` of capstone finds at an address in four bytes.
variable (csDisasm : Word → Word → Nat)

def assertCount : String := "Assertion \x60count == 1' failed."

/-- The text that `disassemble` makes of the instruction is left out. -/
def disassemble (pc inst : Word) : M Unit :=
  if csDisasm pc inst = 1 then pure () else throw assertCount

/-- `CONFIG_ITRACE` is set; the rest of its log text is left out. -/
def execOnce (s : DecodeInfo) (pc : Word) : M DecodeInfo := do
  let s ← isaExecOnce pmem { s with pc := pc, snpc := pc }
  modify fun m => { m with cpu := { m.cpu with pc := s.dnpc } }
  disassemble csDisasm s.pc s.inst
  return s

/-- The loop of `execute`, with `n` rounds to go. -/
def executeLoop : Nat → DecodeInfo → M Unit
  | 0, _ => return
  | n + 1, s => do
    let s ← execOnce pmem csDisasm s (← get).cpu.pc
    modify fun m => { m with gNrGuestInst := m.gNrGuestInst + 1 }
    if (← get).nemuState.state ≠ .running then return
    executeLoop n s

/-- The local `Decode s`; its fields are written before they are read. -/
def execute (n : Nat) : M Unit := executeLoop pmem csDisasm n ⟨0, 0, 0, 0⟩

/-- The timing and the closing report of `cpu_exec` are left out. -/
def cpuExec (n : Nat) : M Unit := do
  match (← get).nemuState.state with
  | .end | .abort | .quit => return
  | _ => modify fun m => { m with nemuState := { m.nemuState with state := .running } }
  execute pmem csDisasm n
  if (← get).nemuState.state = .running then
    modify fun m => { m with nemuState := { m.nemuState with state := .stop } }

end

theorem instPats_auipc {s : DecodeInfo} (h : opcode s.inst = 0b0010111) (m : Machine) :
    instPats pmem s m =
      setGpr (rdField s.inst).val (s.pc + upper (immUField s.inst)) m :=
  instPat_take auipcPattern_fixes (by decide) (by decide) ⟨h, Subsingleton.elim _ _⟩ .U _ _ m

theorem instPats_lbu {s : DecodeInfo} (h : opcode s.inst = 0b0000011 ∧ funct3 s.inst = 0b100)
    (m : Machine) : instPats pmem s m =
      (do setGpr (rdField s.inst).val (← vaddrRead pmem
        (m.cpu.gpr (rs1Field s.inst) + (immIField s.inst).signExtend 32) 1) : M Unit) m := by
  have hskip : ¬opcode s.inst = 0b0010111 := by
    rw [h.1]
    decide
  rw [instPats, instPat_skip auipcPattern_fixes (by decide) (by decide) fun hs => hskip hs.1]
  exact instPat_take lbuPattern_fixes (by decide) (by decide) h .I _ _ m

theorem instPats_sb {s : DecodeInfo} (h : opcode s.inst = 0b0100011 ∧ funct3 s.inst = 0b000)
    (m : Machine) : instPats pmem s m =
      vaddrWrite pmem (m.cpu.gpr (rs1Field s.inst) + (immSField s.inst).signExtend 32) 1
        (m.cpu.gpr (rs2Field s.inst)) m := by
  have hauipc : ¬opcode s.inst = 0b0010111 := by
    rw [h.1]
    decide
  have hlbu : ¬opcode s.inst = 0b0000011 := by
    rw [h.1]
    decide
  rw [instPats, instPat_skip auipcPattern_fixes (by decide) (by decide) fun hs => hauipc hs.1,
    instPat_skip lbuPattern_fixes (by decide) (by decide) fun hs => hlbu hs.1]
  exact instPat_take sbPattern_fixes (by decide) (by decide) h .S _ _ m

theorem instPats_ebreak {s : DecodeInfo} (h : s.inst = 0x00100073) (m : Machine) :
    instPats pmem s m = .ok () { m with nemuState := ⟨.end, s.pc, m.cpu.gpr 10⟩ } := by
  have hop : s.inst.extractLsb' 0 7 = 0b1110011#7 := by
    rw [h]
    decide
  rw [instPats,
    instPat_skip auipcPattern_fixes (by decide) (by decide) fun hs =>
      absurd (hop.symm.trans hs.1) (by decide),
    instPat_skip lbuPattern_fixes (by decide) (by decide) fun hs =>
      absurd (hop.symm.trans hs.1) (by decide),
    instPat_skip sbPattern_fixes (by decide) (by decide) fun hs =>
      absurd (hop.symm.trans hs.1) (by decide),
    instPat_take ebreakPattern_fixes (by decide) (by decide)
      ⟨by rw [h]; decide, Subsingleton.elim _ _⟩ .N _ _ m]
  rfl

theorem instPats_inv {s : DecodeInfo} (hauipc : ¬opcode s.inst = 0b0010111)
    (hlbu : ¬(opcode s.inst = 0b0000011 ∧ funct3 s.inst = 0b100))
    (hsb : ¬(opcode s.inst = 0b0100011 ∧ funct3 s.inst = 0b000)) (hebreak : ¬s.inst = 0x00100073)
    (m : Machine) : instPats pmem s m = invalidInst pmem s.pc m := by
  have hword : s.inst.extractLsb' 0 32 = s.inst := by
    rw [BitVec.extractLsb'_eq_self]
  obtain ⟨p, hdec, hacc⟩ := invPattern_accepts
  rw [instPats, instPat_skip auipcPattern_fixes (by decide) (by decide) fun hs => hauipc hs.1,
    instPat_skip lbuPattern_fixes (by decide) (by decide) hlbu,
    instPat_skip sbPattern_fixes (by decide) (by decide) hsb,
    instPat_skip ebreakPattern_fixes (by decide) (by decide) fun hs =>
      hebreak (hword.symm.trans hs.1), instPat, hdec]
  show (if p.accepts s.inst = true then do
    let _ ← decodeOperand s .N
    invalidInst pmem s.pc else pure ()) m = _
  rw [if_pos (hacc s.inst), bind_of_ok (decodeOperand_eq s .N m)]

variable {pmem} {csDisasm : Word → Word → Nat}

/-- What `isa_exec_once` and `exec_once` do after the arm: `R(0) = 0` and `cpu.pc = dnpc`. -/
def retire (m : Machine) (pc : Word) : Machine :=
  { m with cpu := ⟨Function.update m.cpu.gpr 0 0, pc⟩ }

theorem disassemble_ok {pc inst : Word} {m m' : Machine}
    (h : disassemble csDisasm pc inst m = .ok () m') : m' = m := by
  rw [disassemble] at h
  split at h
  · cases h
    rfl
  · cases h

theorem instFetch_eq {pc : Word} (hpc : inPmem pc = true) (m : Machine) :
    instFetch pmem pc 4 m = .ok (load m.host (guestToHost pmem pc) 32, pc + 4)
      (m.touching (guestToHost pmem pc) 4) := by
  have hread := vaddrRead_in (b := pmem) hpc (.inr (.inr rfl)) m
  rw [instFetch, vaddrIfetch, ← vaddrRead, bind_of_ok hread, BitVec.setWidth_eq]
  rfl

theorem execOnce_arm {pc : Word} (hpc : inPmem pc = true) {m m' : Machine}
    (harm : instPats pmem ⟨pc, pc + 4, pc + 4, load m.host (guestToHost pmem pc) 32⟩
      (m.touching (guestToHost pmem pc) 4) = .ok () m') (s : DecodeInfo) :
    execOnce pmem csDisasm s pc m =
      (do disassemble csDisasm pc (load m.host (guestToHost pmem pc) 32)
          return ⟨pc, pc + 4, pc + 4, load m.host (guestToHost pmem pc) 32⟩ : M DecodeInfo)
        (retire m' (pc + 4)) := by
  have hdec : isaExecOnce pmem { s with pc := pc, snpc := pc } m =
      .ok ⟨pc, pc + 4, pc + 4, load m.host (guestToHost pmem pc) 32⟩ (setReg m' 0 0) := by
    rw [isaExecOnce, bind_of_ok (instFetch_eq hpc m)]
    show decodeExec pmem ⟨pc, pc + 4, s.dnpc, _⟩ _ = _
    rw [decodeExec, bind_of_ok harm, bind_of_ok (setGpr_eq (r := 0) (by decide) 0 m')]
    rfl
  rw [execOnce, bind_of_ok hdec]
  rfl

theorem execOnce_eq {pc : Word} (hpc : inPmem pc = true) {m m' : Machine}
    (hcount : csDisasm pc (load m.host (guestToHost pmem pc) 32) = 1)
    (harm : instPats pmem ⟨pc, pc + 4, pc + 4, load m.host (guestToHost pmem pc) 32⟩
      (m.touching (guestToHost pmem pc) 4) = .ok () m') (s : DecodeInfo) :
    execOnce pmem csDisasm s pc m =
      .ok ⟨pc, pc + 4, pc + 4, load m.host (guestToHost pmem pc) 32⟩ (retire m' (pc + 4)) := by
  rw [execOnce_arm hpc harm, disassemble, if_pos hcount]
  rfl

theorem executeLoop_succ {d d' : DecodeInfo} {m m' : Machine}
    (h : execOnce pmem csDisasm d m.cpu.pc m = .ok d' m') (n : Nat) :
    executeLoop pmem csDisasm (n + 1) d m =
      if m'.nemuState.state = .running then
        executeLoop pmem csDisasm n d' { m' with gNrGuestInst := m'.gNrGuestInst + 1 }
      else .ok () { m' with gNrGuestInst := m'.gNrGuestInst + 1 } := by
  have hget : (get : M Machine) m = .ok m m := rfl
  rw [executeLoop, bind_of_ok hget, bind_of_ok h]
  show (if m'.nemuState.state ≠ .running then pure () else executeLoop pmem csDisasm n d')
    { m' with gNrGuestInst := m'.gNrGuestInst + 1 } = _
  by_cases hrun : m'.nemuState.state = .running
  · rw [if_pos hrun, if_neg (not_not_intro hrun)]
  · rw [if_neg hrun, if_pos hrun]
    rfl

end Riscv32Cpu.Nemu.Cpu
