/- module: Riscv32Cpu/Isa/Rv32i
   digest: The RV32I instructions the repository builds on: encoding, state and meaning. -/

import Riscv32Cpu.Lib.Memory
import Riscv32Cpu.Lib.Run

set_option autoImplicit false
set_option relaxedAutoImplicit false

namespace Riscv32Cpu.Isa.Rv32i

open Riscv32Cpu.Lib.Memory Riscv32Cpu.Lib.Run

abbrev Word := BitVec 32
abbrev Reg := Fin 32

/-- The literals of `Reg` rest on this. -/
instance neZero_regs : @NeZero Nat Zero.ofOfNat0 32 := ⟨by decide⟩

/-- The integer registers; `x0` is hard-wired to zero. -/
structure RegFile where
  val : Reg → Word
  zero : val 0 = 0

namespace RegFile

instance : CoeFun RegFile (fun _ => Reg → Word) := ⟨RegFile.val⟩

@[ext] theorem ext {x y : RegFile} (h : ∀ r, x r = y r) : x = y := by
  cases x
  cases y
  congr
  exact funext h

/-- Write a register; a write to `x0` is discarded. -/
def set (x : RegFile) (d : Reg) (v : Word) : RegFile where
  val r := if r = d ∧ d ≠ 0 then v else x r
  zero := by
    split
    · next h => exact absurd h.1.symm h.2
    · exact x.zero

@[simp] theorem get_zero (x : RegFile) : x 0 = 0 := x.zero

theorem get_set (x : RegFile) (d : Reg) (v : Word) (r : Reg) :
    x.set d v r = if r = d ∧ d ≠ 0 then v else x r := rfl

theorem set_ne (x : RegFile) {d r : Reg} (v : Word) (h : r ≠ d) : x.set d v r = x r :=
  if_neg fun hr => h hr.1

theorem set_self (x : RegFile) {d : Reg} (v : Word) (h : d ≠ 0) : x.set d v d = v :=
  if_pos ⟨rfl, h⟩

@[simp] theorem set_zero (x : RegFile) (v : Word) : x.set 0 v = x := by
  refine RegFile.ext fun r => ?_
  exact if_neg fun hr : r = 0 ∧ (0 : Reg) ≠ 0 => hr.2 rfl

theorem set_set (x : RegFile) (d : Reg) (v w : Word) : (x.set d v).set d w = x.set d w := by
  refine RegFile.ext fun r => ?_
  simp only [get_set]
  split_ifs <;> rfl

end RegFile

/-- What computational instructions work on. -/
structure Core where
  x : RegFile
  mem : Mem 32

/-- A hart: registers, memory and program counter. -/
structure State extends Core where
  pc : Word

/-- The instructions that compute and fall through. -/
inductive Op
  | add (rd rs1 rs2 : Reg)
  | addi (rd rs1 : Reg) (imm : BitVec 12)
  | lui (rd : Reg) (imm : BitVec 20)
  | lw (rd : Reg) (imm : BitVec 12) (rs1 : Reg)
  | lbu (rd : Reg) (imm : BitVec 12) (rs1 : Reg)
  | sw (rs2 : Reg) (imm : BitVec 12) (rs1 : Reg)
  | sb (rs2 : Reg) (imm : BitVec 12) (rs1 : Reg)
  deriving DecidableEq, Repr

inductive Inst
  | op (o : Op)
  | auipc (rd : Reg) (imm : BitVec 20)
  | jalr (rd rs1 : Reg) (imm : BitVec 12)
  | ebreak
  deriving DecidableEq, Repr

/-- A U-type immediate fills bits 31:12. -/
def upper (imm : BitVec 20) : Word := imm.setWidth 32 <<< 12

def Op.exec : Op → Core → Core
  | .add rd rs1 rs2, c => { c with x := c.x.set rd (c.x rs1 + c.x rs2) }
  | .addi rd rs1 imm, c => { c with x := c.x.set rd (c.x rs1 + imm.signExtend 32) }
  | .lui rd imm, c => { c with x := c.x.set rd (upper imm) }
  | .lw rd imm rs1, c => { c with x := c.x.set rd (load c.mem (c.x rs1 + imm.signExtend 32) 32) }
  | .lbu rd imm rs1, c =>
    { c with x := c.x.set rd ((c.mem (c.x rs1 + imm.signExtend 32)).setWidth 32) }
  | .sw rs2 imm rs1, c =>
    { c with mem := store c.mem (c.x rs1 + imm.signExtend 32) 4 (c.x rs2) }
  | .sb rs2 imm rs1, c =>
    { c with mem := store c.mem (c.x rs1 + imm.signExtend 32) 1 (c.x rs2) }

/-- One instruction; `ebreak` hands control to the environment. -/
def Inst.exec : Inst → State → Option State
  | .op o, s => some { o.exec s.toCore with pc := s.pc + 4 }
  | .auipc rd imm, s => some { s with x := s.x.set rd (s.pc + upper imm), pc := s.pc + 4 }
  | .jalr rd rs1 imm, s =>
    some { s with x := s.x.set rd (s.pc + 4), pc := (s.x rs1 + imm.signExtend 32) &&& ~~~1 }
  | .ebreak, _ => none

/-- The hart's step, for a given way of fetching the instruction at `pc`. -/
def step (fetch : State → Option Inst) (s : State) : Option State :=
  (fetch s).bind fun i => i.exec s

def opcode (i : Word) : BitVec 7 := i.extractLsb' 0 7
def funct3 (i : Word) : BitVec 3 := i.extractLsb' 12 3
def funct7 (i : Word) : BitVec 7 := i.extractLsb' 25 7
def rdField (i : Word) : Reg := (i.extractLsb' 7 5).toFin
def rs1Field (i : Word) : Reg := (i.extractLsb' 15 5).toFin
def rs2Field (i : Word) : Reg := (i.extractLsb' 20 5).toFin
def immIField (i : Word) : BitVec 12 := i.extractLsb' 20 12
def immUField (i : Word) : BitVec 20 := i.extractLsb' 12 20
def immSField (i : Word) : BitVec 12 := i.extractLsb' 25 7 ++ i.extractLsb' 7 5

def decode (i : Word) : Option Inst :=
  if i = 0x00100073 then some .ebreak
  else if opcode i = 0b0010111 then some (.auipc (rdField i) (immUField i))
  else if opcode i = 0b0110111 then some (.op (.lui (rdField i) (immUField i)))
  else if opcode i = 0b1100111 ∧ funct3 i = 0 then
    some (.jalr (rdField i) (rs1Field i) (immIField i))
  else if opcode i = 0b0000011 ∧ funct3 i = 0b010 then
    some (.op (.lw (rdField i) (immIField i) (rs1Field i)))
  else if opcode i = 0b0000011 ∧ funct3 i = 0b100 then
    some (.op (.lbu (rdField i) (immIField i) (rs1Field i)))
  else if opcode i = 0b0100011 ∧ funct3 i = 0b010 then
    some (.op (.sw (rs2Field i) (immSField i) (rs1Field i)))
  else if opcode i = 0b0100011 ∧ funct3 i = 0b000 then
    some (.op (.sb (rs2Field i) (immSField i) (rs1Field i)))
  else if opcode i = 0b0010011 ∧ funct3 i = 0 then
    some (.op (.addi (rdField i) (rs1Field i) (immIField i)))
  else if opcode i = 0b0110011 ∧ funct3 i = 0 ∧ funct7 i = 0 then
    some (.op (.add (rdField i) (rs1Field i) (rs2Field i)))
  else none

/-- The word an instruction is read from. -/
def Encodes (i : Word) : Inst → Prop
  | .ebreak => i = 0x00100073
  | .auipc rd imm => opcode i = 0b0010111 ∧ rd = rdField i ∧ imm = immUField i
  | .op (.lui rd imm) => opcode i = 0b0110111 ∧ rd = rdField i ∧ imm = immUField i
  | .jalr rd rs1 imm => (opcode i = 0b1100111 ∧ funct3 i = 0) ∧
      rd = rdField i ∧ rs1 = rs1Field i ∧ imm = immIField i
  | .op (.lw rd imm rs1) => (opcode i = 0b0000011 ∧ funct3 i = 0b010) ∧
      rd = rdField i ∧ imm = immIField i ∧ rs1 = rs1Field i
  | .op (.lbu rd imm rs1) => (opcode i = 0b0000011 ∧ funct3 i = 0b100) ∧
      rd = rdField i ∧ imm = immIField i ∧ rs1 = rs1Field i
  | .op (.sw rs2 imm rs1) => (opcode i = 0b0100011 ∧ funct3 i = 0b010) ∧
      rs2 = rs2Field i ∧ imm = immSField i ∧ rs1 = rs1Field i
  | .op (.sb rs2 imm rs1) => (opcode i = 0b0100011 ∧ funct3 i = 0b000) ∧
      rs2 = rs2Field i ∧ imm = immSField i ∧ rs1 = rs1Field i
  | .op (.addi rd rs1 imm) => (opcode i = 0b0010011 ∧ funct3 i = 0) ∧
      rd = rdField i ∧ rs1 = rs1Field i ∧ imm = immIField i
  | .op (.add rd rs1 rs2) => (opcode i = 0b0110011 ∧ funct3 i = 0 ∧ funct7 i = 0) ∧
      rd = rdField i ∧ rs1 = rs1Field i ∧ rs2 = rs2Field i

private theorem of_ite {c : Prop} [Decidable c] {a inst : Inst} {b : Option Inst} {p : Prop}
    (h : (if c then some a else b) = some inst) (hthen : c → a = inst → p)
    (helse : b = some inst → p) : p := by
  by_cases hc : c
  · rw [if_pos hc] at h
    exact hthen hc (Option.some.inj h)
  · rw [if_neg hc] at h
    exact helse h

theorem encodes_of_decode {i : Word} {inst : Inst} (h : decode i = some inst) :
    Encodes i inst := by
  unfold decode at h
  refine of_ite h (fun hc e => e ▸ hc) fun h => ?_
  refine of_ite h (fun hc e => e ▸ ⟨hc, rfl, rfl⟩) fun h => ?_
  refine of_ite h (fun hc e => e ▸ ⟨hc, rfl, rfl⟩) fun h => ?_
  refine of_ite h (fun hc e => e ▸ ⟨hc, rfl, rfl, rfl⟩) fun h => ?_
  refine of_ite h (fun hc e => e ▸ ⟨hc, rfl, rfl, rfl⟩) fun h => ?_
  refine of_ite h (fun hc e => e ▸ ⟨hc, rfl, rfl, rfl⟩) fun h => ?_
  refine of_ite h (fun hc e => e ▸ ⟨hc, rfl, rfl, rfl⟩) fun h => ?_
  refine of_ite h (fun hc e => e ▸ ⟨hc, rfl, rfl, rfl⟩) fun h => ?_
  refine of_ite h (fun hc e => e ▸ ⟨hc, rfl, rfl, rfl⟩) fun h => ?_
  refine of_ite h (fun hc e => e ▸ ⟨hc, rfl, rfl, rfl⟩) fun h => ?_
  cases h

/-- Fetch from the hart's own memory. -/
def fetchMem (s : State) : Option Inst := decode (load s.mem s.pc 32)

/-- A block of computational instructions, executed in order. -/
def runOps (ops : List Op) (c : Core) : Core := ops.foldl (fun c o => o.exec c) c

@[simp] theorem runOps_nil (c : Core) : runOps [] c = c := by
  rw [runOps, List.foldl_nil]

@[simp] theorem runOps_cons (o : Op) (ops : List Op) (c : Core) :
    runOps (o :: ops) c = runOps ops (o.exec c) := by
  rw [runOps, List.foldl_cons, runOps]

@[simp] theorem runOps_append (l k : List Op) (c : Core) :
    runOps (l ++ k) c = runOps k (runOps l c) := List.foldl_append

/-- A program image: the instruction at each address. -/
abbrev Code := Word → Option Inst

/-- The instructions `is` stand at `pc` and the words after it. -/
def Placed (code : Code) : Word → List Inst → Prop
  | _, [] => True
  | pc, i :: is => code pc = some i ∧ Placed code (pc + 4) is

/-- The address just after `n` instructions from `pc`. -/
def after (pc : Word) (n : Nat) : Word := pc + BitVec.ofNat 32 (4 * n)

@[simp] theorem after_zero (pc : Word) : after pc 0 = pc := by simp [after]

theorem after_succ (pc : Word) (n : Nat) : after (pc + 4) n = after pc (n + 1) := by
  rw [after, after, Nat.mul_add, BitVec.ofNat_add, BitVec.add_comm (BitVec.ofNat 32 (4 * n)),
    ← BitVec.add_assoc]
  rfl

theorem after_after (pc : Word) (m n : Nat) : after (after pc m) n = after pc (m + n) := by
  rw [after, after, after, Nat.mul_add, BitVec.ofNat_add, BitVec.add_assoc]

theorem after_inj {pc : Word} {m n : Nat} (hm : 4 * m < 2 ^ 32) (hn : 4 * n < 2 ^ 32)
    (h : after pc m = after pc n) : m = n := by
  have h4 : BitVec.ofNat 32 (4 * m) = BitVec.ofNat 32 (4 * n) := add_left_cancel h
  have hnat := congrArg BitVec.toNat h4
  rw [BitVec.toNat_ofNat, BitVec.toNat_ofNat, Nat.mod_eq_of_lt hm, Nat.mod_eq_of_lt hn] at hnat
  omega

theorem Placed.append {code : Code} {pc : Word} {l k : List Inst}
    (h : Placed code pc (l ++ k)) : Placed code pc l ∧ Placed code (after pc l.length) k := by
  induction l generalizing pc with
  | nil => exact ⟨trivial, by simpa using h⟩
  | cons i l ih =>
    have hl := ih h.2
    exact ⟨⟨h.1, hl.1⟩, by rw [List.length_cons, ← after_succ]; exact hl.2⟩

theorem runN_ops {code : Code} {ops : List Op} {s : State}
    (h : Placed code s.pc (ops.map .op)) :
    runN (step fun t => code t.pc) ops.length s =
      some { runOps ops s.toCore with pc := after s.pc ops.length } := by
  induction ops generalizing s with
  | nil => simp
  | cons o ops ih =>
    have hstep : step (fun t => code t.pc) s = some { o.exec s.toCore with pc := s.pc + 4 } := by
      rw [step, h.1]
      rfl
    rw [List.length_cons, runN_succ_of_step hstep, ih h.2]
    simp only [runOps_cons, after_succ]

end Riscv32Cpu.Isa.Rv32i
