/- module: Riscv32Cpu/RiscvTrap/Model
   source: abstract-machine/am/src/riscv/nemu/trap.S, cte.c, include/arch/riscv.h
   digest: The trap stub, the context it hands to C, and the handler behind it. -/

import Mathlib.Logic.Function.Basic
import Riscv32Cpu.Lib.Memory

set_option autoImplicit false
set_option relaxedAutoImplicit false

namespace Riscv32Cpu.RiscvTrap

open Lib.Memory

/-- `__riscv_xlen` and `__riscv_e`. -/
structure Config where
  rv64 : Bool
  riscvE : Bool
  deriving DecidableEq

namespace Config

/-- `XLEN`, in bytes. -/
def xlen (c : Config) : Nat := if c.rv64 then 8 else 4

def nrRegs (c : Config) : Nat := if c.riscvE then 16 else 32

def regsLo16 : List Nat := [1, 3, 4, 5, 6, 7, 8, 9, 10, 11, 12, 13, 14, 15]

def regsHi16 (c : Config) : List Nat :=
  if c.riscvE then []
  else [16, 17, 18, 19, 20, 21, 22, 23, 24, 25, 26, 27, 28, 29, 30, 31]

/-- `REGS`: what the stub saves. -/
def regs (c : Config) : List Nat := regsLo16 ++ c.regsHi16

def contextSize (c : Config) : Nat := (c.nrRegs + 3) * c.xlen
def offsetCause (c : Config) : Nat := (c.nrRegs + 0) * c.xlen
def offsetStatus (c : Config) : Nat := (c.nrRegs + 1) * c.xlen
def offsetEpc (c : Config) : Nat := (c.nrRegs + 2) * c.xlen

end Config

-- The configuration, and with it the width of a register.
variable (c : Config)

abbrev Word := BitVec (8 * c.xlen)

inductive Csr
  | mcause
  | mstatus
  | mepc
  deriving DecidableEq

/-- The registers by number, the memory and the control registers the stub uses. -/
structure Hart where
  gpr : Nat → Word c
  mem : Mem (8 * c.xlen)
  csr : Csr → Word c

def sp : Nat := 2
def t0 : Nat := 5
def t1 : Nat := 6
def t2 : Nat := 7
def a0 : Nat := 10

variable {c}

/-- A register as an operand; `x0` is hard-wired to zero. -/
def Hart.x (s : Hart c) (r : Nat) : Word c := if r = 0 then 0 else s.gpr r

def Hart.setX (s : Hart c) (r : Nat) (v : Word c) : Hart c :=
  { s with gpr := Function.update s.gpr r v }

/-- The instructions of the stub. `load` and `store` are those of the register width. -/
inductive Instr
  | addi (rd rs : Nat) (imm : Int)
  | store (rs : Nat) (off : Nat) (base : Nat)
  | load (rd : Nat) (off : Nat) (base : Nat)
  | li (rd : Nat) (imm : Nat)
  | or (rd rs rt : Nat)
  | mv (rd rs : Nat)
  | csrr (rd : Nat) (csr : Csr)
  | csrw (csr : Csr) (rs : Nat)
  deriving DecidableEq

def exec (i : Instr) (s : Hart c) : Hart c :=
  match i with
  | .addi rd rs imm => s.setX rd (s.x rs + BitVec.ofInt _ imm)
  | .store rs off base =>
    { s with mem := Lib.Memory.store s.mem (s.x base + BitVec.ofNat _ off) c.xlen (s.x rs) }
  | .load rd off base => s.setX rd (Lib.Memory.load s.mem (s.x base + BitVec.ofNat _ off) _)
  | .li rd imm => s.setX rd (BitVec.ofNat _ imm)
  | .or rd rs rt => s.setX rd (s.x rs ||| s.x rt)
  | .mv rd rs => s.setX rd (s.x rs)
  | .csrr rd csr => s.setX rd (s.csr csr)
  | .csrw csr rs => { s with csr := Function.update s.csr csr (s.x rs) }

def execAll (is : List Instr) (s : Hart c) : Hart c := is.foldl (fun s i => exec i s) s

variable (c)

def push (n : Nat) : Instr := .store n (n * c.xlen) sp
def pop (n : Nat) : Instr := .load n (n * c.xlen) sp

/-- `__am_asm_trap` up to the call of `__am_irq_handle`. -/
def asmTrapEntry : List Instr :=
  [.addi sp sp (-c.contextSize)] ++ c.regs.map (push c) ++
    [.csrr t0 .mcause, .csrr t1 .mstatus, .csrr t2 .mepc,
      .store t0 c.offsetCause sp, .store t1 c.offsetStatus sp, .store t2 c.offsetEpc sp,
      .li a0 (1 <<< 17), .or t1 t1 a0, .csrw .mstatus t1, .mv a0 sp]

/-- From the return of the call up to the `mret`. -/
def asmTrapExit : List Instr :=
  [.load t1 c.offsetStatus sp, .load t2 c.offsetEpc sp, .csrw .mstatus t1, .csrw .mepc t2] ++
    c.regs.map (pop c) ++ [.addi sp sp c.contextSize]

/-- `struct Context`, its members in the order of the declaration. -/
structure Context where
  mepc : Word c
  mcause : Word c
  gpr : Nat → Word c
  mstatus : Word c
  pdir : Word c

variable {c}

/-- The context that a pointer stands for: every member is a machine word, and `gpr` has `NR_REGS`
of them. -/
def readContext (m : Mem (8 * c.xlen)) (p : Word c) : Context c :=
  let word := fun j : Nat => Lib.Memory.load m (p + BitVec.ofNat _ (c.xlen * j)) (8 * c.xlen)
  { mepc := word 0
    mcause := word 1
    gpr := fun i => word (2 + i)
    mstatus := word (2 + c.nrRegs)
    pdir := word (3 + c.nrRegs) }

def sizeofContext (c : Config) : Nat := c.xlen * (4 + c.nrRegs)

inductive EventKind
  | null
  | yield
  | syscall
  | pagefault
  | error
  | irqTimer
  | irqIodev
  deriving DecidableEq

/-- `user_handler`: it gets the event and the context, may change the memory, and returns a
context. -/
abbrev UserHandler (c : Config) :=
  EventKind → Word c → Mem (8 * c.xlen) → Word c × Mem (8 * c.xlen)

/-- `switch (c->mcause)`, whose only arm is the default one. -/
def eventOf (_mcause : Word c) : EventKind := .error

/-- `none` is the failed `assert`. -/
def amIrqHandle (userHandler : Option (UserHandler c)) (p : Word c) (m : Mem (8 * c.xlen)) :
    Option (Word c × Mem (8 * c.xlen)) :=
  match userHandler with
  | none => some (p, m)
  | some handler =>
    let r := handler (eventOf (readContext m p).mcause) p m
    if r.1 = 0 then none else some r

end Riscv32Cpu.RiscvTrap
