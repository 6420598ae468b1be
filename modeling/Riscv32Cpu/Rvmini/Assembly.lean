/- module: Riscv32Cpu/Rvmini/Assembly
   source: CODE/abstract-machine/tools/rvmini/inst-replace.h, rvmini-common.sh
   digest: Assembly source as RV32I means it, and the code the header makes of it. -/

import Riscv32Cpu.Rvmini.Branch
import Riscv32Cpu.Rvmini.Logic
import Riscv32Cpu.Rvmini.SubWord

set_option autoImplicit false
set_option relaxedAutoImplicit false

namespace Riscv32Cpu.Rvmini.Assembly

open Riscv32Cpu.Lib.Memory Riscv32Cpu.Lib.Run Riscv32Cpu.Isa.Rv32i Riscv32Cpu.Rvmini.Scratch
open Riscv32Cpu.Rvmini.Meaning Riscv32Cpu.Rvmini.Logic Riscv32Cpu.Rvmini.Compare
open Riscv32Cpu.Rvmini.Shift Riscv32Cpu.Rvmini.SubWord Riscv32Cpu.Rvmini.Branch
open Riscv32Cpu.Rvmini.Macros (RegName Symbols)

/-- A line of assembly source. What the assembler takes as it stands is an `op`; `L` is what
labels are written as. -/
inductive Line (L : Type)
  | op (o : Op)
  | la (rd : RegName) (label : L)
  | logic (i : LogicInst)
  | shift (i : ShiftInst)
  | set (i : SetInst)
  | seqz (rd rs : RegName)
  | subWord (i : SubWordInst)
  | branch (i : BranchInst) (label : L)
  | jal (rd : RegName) (label : L)
  | call (label : L)
  | tail (label : L)
  | j (label : L)
  | jalr (rd rs1 : RegName) (imm : BitVec 12)
  | ebreak

namespace Line

variable {L M : Type}

def map (f : L → M) : Line L → Line M
  | op o => op o
  | la rd label => la rd (f label)
  | logic i => logic i
  | shift i => shift i
  | set i => set i
  | seqz rd rs => seqz rd rs
  | subWord i => subWord i
  | branch i label => branch i (f label)
  | jal rd label => jal rd (f label)
  | call label => call (f label)
  | tail label => tail (f label)
  | j label => j (f label)
  | jalr rd rs1 imm => jalr rd rs1 imm
  | ebreak => ebreak

/-- The assembler's own alias; `ret` is `jr ra`. -/
def jr (rs : RegName) : Line L := jalr Macros.zero rs 0

/-- What RV32I does at a line, with the next one at `next`. -/
def exec (next : Word) : Line Word → State → Option State
  | op o, s => some { o.exec s.toCore with pc := next }
  | la rd addr, s => some { s with x := s.x.set rd addr, pc := next }
  | logic i, s => some { s with x := s.x.set i.rd (i.result s.x), pc := next }
  | shift i, s => some { s with x := s.x.set i.rd (i.result s.x), pc := next }
  | set i, s => some { s with x := s.x.set i.rd (flag (i.holds s.x)), pc := next }
  | seqz rd rs, s => some { s with x := s.x.set rd (flag (decide (s.x rs = 0))), pc := next }
  | subWord i, s => some { i.exec s.toCore with pc := next }
  | branch i target, s => some { s with pc := if i.taken s.x then target else next }
  | jal rd target, s => some { s with x := s.x.set rd next, pc := target }
  | call target, s => some { s with x := s.x.set 1 next, pc := target }
  | tail target, s => some { s with pc := target }
  | j target, s => some { s with pc := target }
  | jalr rd rs1 imm, s =>
    some { s with x := s.x.set rd next, pc := (s.x rs1 + imm.signExtend 32) &&& ~~~1 }
  | ebreak, _ => none

/-- What the header makes of a line, if the assembler takes it. -/
def expand (sym : Symbols) (next : Word) : Line Word → Option (List Inst)
  | op o => some [.op o]
  | la rd addr => some ((Macros.la rd addr).map .op)
  | logic i => (i.expand sym).map (List.map .op)
  | shift i => some ((i.expand sym).map .op)
  | set i => some ((i.expand sym).map .op)
  | seqz rd rs => some ((Macros.seqz sym rd rs).map .op)
  | subWord i => (i.expand sym).map (List.map .op)
  | branch i target => some (i.expand sym target next)
  | jal rd target => some (Macros.jal rd target)
  | call target => some (Macros.call target)
  | tail target => some (Macros.tail target)
  | j target => some (Macros.j target)
  | jalr rd rs1 imm => some [.jalr rd rs1 imm]
  | ebreak => some [.ebreak]

end Line

/-- The `n` addresses from `a` on. -/
def bytes (a : Word) (n : Nat) : Set Word := {b | (b - a).toNat < n}

section Operands

def opSources : Op → List Reg
  | .add _ rs1 rs2 => [rs1, rs2]
  | .addi _ rs1 _ | .lw _ _ rs1 | .lbu _ _ rs1 => [rs1]
  | .lui _ _ => []
  | .sw rs2 _ rs1 | .sb rs2 _ rs1 => [rs1, rs2]

def opLoads (x : RegFile) : Op → Set Word
  | .lw _ imm rs1 => bytes (x rs1 + imm.signExtend 32) 4
  | .lbu _ imm rs1 => bytes (x rs1 + imm.signExtend 32) 1
  | .add .. | .addi .. | .lui .. | .sw .. | .sb .. => ∅

def opStores (x : RegFile) : Op → Set Word
  | .sw _ imm rs1 => bytes (x rs1 + imm.signExtend 32) 4
  | .sb _ imm rs1 => bytes (x rs1 + imm.signExtend 32) 1
  | .add .. | .addi .. | .lui .. | .lw .. | .lbu .. => ∅

def logicSources : LogicInst → List Reg
  | .and _ rs1 rs2 | .or _ rs1 rs2 | .xor _ rs1 rs2 | .sub _ rs1 rs2 => [rs1, rs2]
  | .andi _ rs1 _ | .ori _ rs1 _ | .xori _ rs1 _ | .not _ rs1 | .neg _ rs1 => [rs1]

def shiftSources : ShiftInst → List Reg
  | .sll _ rs1 rs2 | .srl _ rs1 rs2 | .sra _ rs1 rs2 => [rs1, rs2]
  | .slli _ rs1 _ | .srli _ rs1 _ | .srai _ rs1 _ => [rs1]

def setSources : SetInst → List Reg
  | .slt _ rs1 rs2 | .sltu _ rs1 rs2 | .sgt _ rs1 rs2 | .sgtu _ rs1 rs2 => [rs1, rs2]
  | .slti _ rs1 _ | .sltiu _ rs1 _ | .snez _ rs1 | .sltz _ rs1 | .sgtz _ rs1 => [rs1]

def branchSources : BranchInst → List Reg
  | .beq rs1 rs2 | .bne rs1 rs2 | .blt rs1 rs2 | .bltu rs1 rs2 | .bge rs1 rs2 | .bgeu rs1 rs2
  | .bgt rs1 rs2 | .ble rs1 rs2 | .bgtu rs1 rs2 | .bleu rs1 rs2 => [rs1, rs2]
  | .beqz rs | .bnez rs | .blez rs | .bgez rs | .bltz rs | .bgtz rs => [rs]

variable {x y : RegFile}

theorem logic_result_congr {i : LogicInst} (h : ∀ r ∈ logicSources i, x r = y r) :
    i.result x = i.result y := by
  cases i <;> simp_all [logicSources, LogicInst.result]

theorem shift_result_congr {i : ShiftInst} (h : ∀ r ∈ shiftSources i, x r = y r) :
    i.result x = i.result y := by
  cases i <;> simp_all [shiftSources, ShiftInst.result]

theorem set_holds_congr {i : SetInst} (h : ∀ r ∈ setSources i, x r = y r) :
    i.holds x = i.holds y := by
  cases i <;> simp_all [setSources, SetInst.holds]

theorem branch_taken_congr {i : BranchInst} (h : ∀ r ∈ branchSources i, x r = y r) :
    i.taken x = i.taken y := by
  cases i <;> simp_all [branchSources, BranchInst.taken]

end Operands

namespace Line

variable {L : Type}

def sources : Line L → List Reg
  | op o => opSources o
  | logic i => logicSources i
  | shift i => shiftSources i
  | set i => setSources i
  | seqz _ rs => [rs]
  | subWord i => [i.base, i.data]
  | branch i _ => branchSources i
  | jalr _ rs1 _ => [rs1]
  | la .. | jal .. | call .. | tail .. | j .. | ebreak => []

def loads (x : RegFile) : Line L → Set Word
  | op o => opLoads x o
  | subWord (.lb rd imm base) => bytes (SubWordInst.address (.lb rd imm base) x) 1
  | subWord (.lh rd imm base) => bytes (SubWordInst.address (.lh rd imm base) x) 2
  | subWord (.lhu rd imm base) => bytes (SubWordInst.address (.lhu rd imm base) x) 2
  | _ => ∅

def stores (x : RegFile) : Line L → Set Word
  | op o => opStores x o
  | subWord (.sh rs imm base) => bytes (SubWordInst.address (.sh rs imm base) x) 2
  | _ => ∅

/-- The assumptions of the header on one line: the compiler does not use `tp` and `gp`, and
computes in other registers than `sp` where a macro stands. -/
def Allowed : Line L → Prop
  | la rd _ => (rd : Reg) ≠ 2
  | logic i => i.Allowed
  | shift i => i.Allowed
  | set i => i.Allowed
  | seqz rd _ => (rd : Reg) ≠ 2 ∧ (rd : Reg) ≠ 8
  | subWord i => i.Allowed ∧ i.Fits
  | branch i _ => i.Allowed
  | jal rd _ => (rd : Reg) ≠ 2
  | op _ | call _ | tail _ | j _ | jalr .. | ebreak => True

instance : DecidablePred (Allowed (L := L))
  | la rd _ => inferInstanceAs (Decidable ((rd : Reg) ≠ 2))
  | logic i => inferInstanceAs (Decidable i.Allowed)
  | shift i => inferInstanceAs (Decidable i.Allowed)
  | set i => inferInstanceAs (Decidable i.Allowed)
  | seqz rd _ => inferInstanceAs (Decidable ((rd : Reg) ≠ 2 ∧ (rd : Reg) ≠ 8))
  | subWord i => inferInstanceAs (Decidable (i.Allowed ∧ i.imm.toInt + i.width ≤ 2048))
  | branch i _ => inferInstanceAs (Decidable i.Allowed)
  | jal rd _ => inferInstanceAs (Decidable ((rd : Reg) ≠ 2))
  | op _ | call _ | tail _ | j _ | jalr .. | ebreak => instDecidableTrue

/-- Labels stand at even addresses. -/
def Aligned : Line Word → Prop
  | branch _ target | jal _ target | call target | tail target | j target => target.toNat % 2 = 0
  | op _ | la .. | logic _ | shift _ | set _ | seqz .. | subWord _ | jalr .. | ebreak => True

end Line

/-- A line and the address of the one after it. -/
structure Entry where
  line : Line Word
  next : Word

/-- A program with its labels resolved: the line at each address. -/
abbrev Listing := Word → Option Entry

def Listing.step (prog : Listing) (s : State) : Option State :=
  (prog s.pc).bind fun e => e.line.exec e.next s

/-- `code` is what the header makes of the program. -/
structure Assembled (sym : Symbols) (prog : Listing) (code : Code) : Prop where
  placed : ∀ {pc e}, prog pc = some e → ∃ is, e.line.expand sym e.next = some is ∧
    Placed code pc is ∧ e.next = after pc is.length
  even : ∀ {pc e}, prog pc = some e → pc.toNat % 2 = 0 ∧ e.line.Aligned

end Riscv32Cpu.Rvmini.Assembly
