/- module: Riscv32Cpu/Nemu/Invalid
   source: CODE/nemu/src/engine/interpreter/hostcall.c, src/isa/riscv32/inst.c, src/memory/paddr.c
   digest: What becomes of an instruction that no pattern matches. -/

import Riscv32Cpu.Nemu.Confinement

set_option autoImplicit false
set_option relaxedAutoImplicit false

namespace Riscv32Cpu.Nemu.Invalid

open Riscv32Cpu.Lib.Memory Riscv32Cpu.Lib.Effect Riscv32Cpu.Isa.Rv32i Riscv32Cpu.Nemu.Memory
open Riscv32Cpu.Nemu.Decode Riscv32Cpu.Nemu.Cpu Riscv32Cpu.Nemu.Monitor
open Riscv32Cpu.Nemu.Confinement

/-- No pattern but the last one matches the word. -/
def Unimplemented (inst : Word) : Prop :=
  ∀ pattern ∈ [auipcPattern, lbuPattern, sbPattern, ebreakPattern],
    ∀ p, patternDecode pattern = .ok p → p.accepts inst = false

variable (pmem : BitVec 64) (csDisasm : Word → Word → Nat)

/-- The instruction at `pc` ends in a recorded abort that loses nothing. -/
def AbortsCleanly (pmem : BitVec 64) (csDisasm : Word → Word → Nat) (s : DecodeInfo) (pc : Word)
    (m : Machine) : Prop :=
  ∃ s' m', execOnce pmem csDisasm s pc m = .ok s' m' ∧ m'.nemuState = ⟨.abort, pc, -1⟩ ∧
    m'.cpu.gpr = m.cpu.gpr ∧ m'.host = m.host

theorem rejects_iff {pattern : String} {lo n lo' n' : Nat} {c : BitVec n} {d : BitVec n'}
    (hp : ∃ p, patternDecode pattern = .ok p ∧ p.Fixes lo c lo' d) (h : lo + n ≤ 32)
    (h' : lo' + n' ≤ 32) (inst : Word) :
    (∀ p, patternDecode pattern = .ok p → p.accepts inst = false) ↔
      ¬(inst.extractLsb' lo n = c ∧ inst.extractLsb' lo' n' = d) := by
  obtain ⟨p, hdec, hfix⟩ := hp
  rw [← hfix.accepts_iff h h' inst, Bool.not_eq_true]
  constructor
  · intro hrej
    exact hrej p hdec
  · intro hrej q hq
    cases hdec.symm.trans hq
    exact hrej

theorem unimplemented_iff (inst : Word) :
    Unimplemented inst ↔ ¬opcode inst = 0b0010111 ∧
      ¬(opcode inst = 0b0000011 ∧ funct3 inst = 0b100) ∧
      ¬(opcode inst = 0b0100011 ∧ funct3 inst = 0b000) ∧ ¬inst = 0x00100073 := by
  have hword : inst.extractLsb' 0 32 = inst := by
    rw [BitVec.extractLsb'_eq_self]
  have hauipc := rejects_iff auipcPattern_fixes (by decide) (by decide) inst
  have hlbu := rejects_iff lbuPattern_fixes (by decide) (by decide) inst
  have hsb := rejects_iff sbPattern_fixes (by decide) (by decide) inst
  have hebreak := rejects_iff ebreakPattern_fixes (by decide) (by decide) inst
  have hempty : inst.extractLsb' 0 0 = 0#0 := Subsingleton.elim _ _
  rw [and_iff_left hempty] at hauipc hebreak
  rw [hword] at hebreak
  rw [Unimplemented, List.forall_mem_cons, List.forall_mem_cons, List.forall_mem_cons,
    List.forall_mem_singleton, hauipc, hlbu, hsb, hebreak]
  rfl

theorem instPats_unimplemented {s : DecodeInfo} (h : Unimplemented s.inst) (m : Machine) :
    instPats pmem s m = invalidInst pmem s.pc m := by
  obtain ⟨hauipc, hlbu, hsb, hebreak⟩ := (unimplemented_iff s.inst).mp h
  exact instPats_inv pmem hauipc hlbu hsb hebreak m

theorem invalidInst_ok {thispc : Word} (hpc : inPmem thispc = true)
    (hnext : inPmem (thispc + 4) = true) (m : Machine) :
    invalidInst pmem thispc m = .ok ()
      { (m.touching (guestToHost pmem thispc) 4).touching (guestToHost pmem (thispc + 4)) 4 with
        nemuState := ⟨.abort, thispc, -1⟩ } := by
  rw [invalidInst, bind_of_ok (instFetch_eq hpc m)]
  exact bind_of_ok (instFetch_eq hnext _)

theorem invalidInst_error {thispc : Word} (hpc : inPmem thispc = true)
    (hnext : inPmem (thispc + 4) = false) (m : Machine) :
    ∃ e m', invalidInst pmem thispc m = .error e m' := by
  obtain ⟨e, -, he⟩ := paddrRead_out (b := pmem) hnext 4 (m.touching (guestToHost pmem thispc) 4)
  have hfetch : instFetch pmem (thispc + 4) 4 (m.touching (guestToHost pmem thispc) 4) =
      .error e (m.touching (guestToHost pmem thispc) 4) := bind_of_error he
  rw [invalidInst, bind_of_ok (instFetch_eq hpc m)]
  exact ⟨e, _, bind_of_error hfetch⟩

theorem execOnce_error {pc : Word} (hpc : inPmem pc = true) {m m' : Machine} {e : String}
    (harm : instPats pmem ⟨pc, pc + 4, pc + 4, load m.host (guestToHost pmem pc) 32⟩
      (m.touching (guestToHost pmem pc) 4) = .error e m') (s : DecodeInfo) :
    execOnce pmem csDisasm s pc m = .error e m' := by
  have hdec : isaExecOnce pmem { s with pc := pc, snpc := pc } m = .error e m' := by
    rw [isaExecOnce, bind_of_ok (instFetch_eq hpc m)]
    show decodeExec pmem ⟨pc, pc + 4, s.dnpc, _⟩ _ = _
    rw [decodeExec]
    exact bind_of_error harm
  rw [execOnce, bind_of_error hdec]

/-- `$zero` is zero after every instruction, so the register half of the condition below holds
from the reset on. -/
theorem execOnce_zero {s s' : DecodeInfo} {pc : Word} {m m' : Machine}
    (h : execOnce pmem csDisasm s pc m = .ok s' m') : m'.cpu.gpr 0 = 0 := by
  obtain ⟨d, t, hisa, hpc⟩ := bind_eq_ok h
  obtain ⟨w, t₁, -, hdec⟩ := bind_eq_ok hisa
  obtain ⟨_, t₂, -, hrest⟩ := bind_eq_ok hdec
  obtain ⟨_, t₃, hzero, hret⟩ := bind_eq_ok hrest
  obtain ⟨_, t₄, hset, hlog⟩ := bind_eq_ok hpc
  obtain ⟨_, t₅, hcount, hend⟩ := bind_eq_ok hlog
  cases hset
  cases hend
  cases hret
  rw [disassemble_ok hcount]
  cases (setGpr_eq (r := 0) rfl 0 t₂).symm.trans hzero
  show Function.update t₂.cpu.gpr 0 0 0 = 0
  exact Function.update_self _ _ _

section

variable {pmem} {csDisasm} {pc : Word} {m : Machine}
  (hinst : Unimplemented (load m.host (guestToHost pmem pc) 32))

include hinst

theorem instPats_report {r : EStateM.Result String Machine Unit}
    (h : invalidInst pmem pc (m.touching (guestToHost pmem pc) 4) = r) :
    instPats pmem ⟨pc, pc + 4, pc + 4, load m.host (guestToHost pmem pc) 32⟩
      (m.touching (guestToHost pmem pc) 4) = r :=
  (instPats_unimplemented pmem (s := ⟨pc, pc + 4, pc + 4, _⟩) hinst _).trans h

variable (hpc : inPmem pc = true)

include hpc

theorem not_clean_last (hnext : inPmem (pc + 4) = false) (s : DecodeInfo) :
    ¬AbortsCleanly pmem csDisasm s pc m := by
  rintro ⟨s', m'', hexec, -⟩
  obtain ⟨e, m', herr⟩ := invalidInst_error pmem hpc hnext (m.touching (guestToHost pmem pc) 4)
  cases (execOnce_error pmem csDisasm hpc (instPats_report hinst herr) s).symm.trans hexec

theorem not_clean_count (hnext : inPmem (pc + 4) = true)
    (hcount : ¬csDisasm pc (load m.host (guestToHost pmem pc) 32) = 1) (s : DecodeInfo) :
    ¬AbortsCleanly pmem csDisasm s pc m := by
  rintro ⟨s', m', hexec, -⟩
  rw [execOnce_arm hpc (instPats_report hinst (invalidInst_ok pmem hpc hnext _)), disassemble,
    if_neg hcount] at hexec
  cases hexec

end

/-- Exactly when the word behind it is in `pmem` too and capstone finds one instruction in it, an
unimplemented instruction aborts cleanly. -/
theorem invalid_aborts_iff (pmem : BitVec 64) (csDisasm : Word → Word → Nat) (s : DecodeInfo)
    (pc : Word) (m : Machine) (hin : ∀ k < 4, inPmem (pc + BitVec.ofNat 32 k) = true)
    (hinst : Unimplemented (load m.host (guestToHost pmem pc) 32)) :
    AbortsCleanly pmem csDisasm s pc m ↔ inPmem (pc + 4) = true ∧
      csDisasm pc (load m.host (guestToHost pmem pc) 32) = 1 ∧ m.cpu.gpr 0 = 0 := by
  have hpc : inPmem pc = true := by
    have hfirst := hin 0 (by decide)
    rwa [show pc + BitVec.ofNat 32 0 = pc from BitVec.add_zero pc] at hfirst
  constructor
  · intro hclean
    have hnext : inPmem (pc + 4) = true := by
      by_contra hout
      exact not_clean_last hinst hpc (Bool.eq_false_iff.mpr hout) s hclean
    refine ⟨hnext, ?_, ?_⟩
    · by_contra hcount
      exact not_clean_count hinst hpc hnext hcount s hclean
    · obtain ⟨s', m', hexec, -, hgpr, -⟩ := hclean
      rw [← hgpr]
      exact execOnce_zero pmem csDisasm hexec
  · rintro ⟨hnext, hcount, hzero⟩
    have harm := instPats_report hinst (invalidInst_ok pmem hpc hnext _)
    refine ⟨_, _, execOnce_eq hpc hcount harm s, rfl, ?_, rfl⟩
    show Function.update m.cpu.gpr 0 0 = m.cpu.gpr
    rw [← hzero, Function.update_eq_self]

/-- `addi x0, x0, 0`, which NEMU does not implement, at `pc`. -/
def nopMachine (pc : Word) : Machine :=
  { startMachine with
    host := store startMachine.host (guestToHost 0x10000 pc) 4 (0x00000013 : Word) }

theorem nopMachine_unimplemented (pc : Word) :
    Unimplemented (load (nopMachine pc).host (guestToHost 0x10000 pc) 32) := by
  have hword : load (nopMachine pc).host (guestToHost 0x10000 pc) 32 = 0x00000013 :=
    load_store startMachine.host _ _ rfl (by decide)
  rw [hword, unimplemented_iff]
  decide

theorem first_word_aborts :
    AbortsCleanly 0x10000 oneInst ⟨0, 0, 0, 0⟩ 0x80000000 (nopMachine 0x80000000) :=
  (invalid_aborts_iff 0x10000 oneInst ⟨0, 0, 0, 0⟩ 0x80000000 (nopMachine 0x80000000) (by decide)
    (nopMachine_unimplemented _)).mpr ⟨by decide, rfl, rfl⟩

/-- The last word of `pmem` lies in `pmem` and is not implemented, but does not abort cleanly. Nor
does the word 0 anywhere, in which capstone finds no instruction. -/
theorem report_fails :
    ((∀ k < 4, inPmem (0x87fffffc + BitVec.ofNat 32 k) = true) ∧
      Unimplemented (load (nopMachine 0x87fffffc).host (guestToHost 0x10000 0x87fffffc) 32) ∧
      ¬AbortsCleanly 0x10000 oneInst ⟨0, 0, 0, 0⟩ 0x87fffffc (nopMachine 0x87fffffc)) ∧
    (∀ k < 4, inPmem (0x80000000 + BitVec.ofNat 32 k) = true) ∧
      Unimplemented (load startMachine.host (guestToHost 0x10000 0x80000000) 32) ∧
      ¬AbortsCleanly 0x10000 (fun _ _ => 0) ⟨0, 0, 0, 0⟩ 0x80000000 startMachine := by
  have hlast : inPmem 0x87fffffc = true := by decide
  have hfirst : inPmem 0x80000000 = true := by decide
  have hzero : Unimplemented (load startMachine.host (guestToHost 0x10000 0x80000000) 32) := by
    have hword : load startMachine.host (guestToHost 0x10000 0x80000000) 32 = 0 := by
      rw [← ofBytes_byteAt (0 : Word)]
      exact ofBytes_congr fun k _ => (byteAt_zero k).symm
    rw [hword, unimplemented_iff]
    decide
  refine ⟨⟨by decide, nopMachine_unimplemented _, ?_⟩, by decide, hzero, ?_⟩
  · exact not_clean_last (nopMachine_unimplemented _) hlast (by decide) _
  · exact not_clean_count hzero hfirst (by decide) (by decide) _

end Riscv32Cpu.Nemu.Invalid
