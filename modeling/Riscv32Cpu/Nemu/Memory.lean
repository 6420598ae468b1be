/- module: Riscv32Cpu/Nemu/Memory
   source: CODE/nemu/src/memory/paddr.c, vaddr.c, include/memory/host.h, paddr.h
   digest: NEMU's guest memory inside the host's: translation, range test and accesses. -/

import Riscv32Cpu.Isa.Rv32i
import Riscv32Cpu.Lib.Effect

set_option autoImplicit false
set_option relaxedAutoImplicit false

namespace Riscv32Cpu.Nemu.Memory

open Riscv32Cpu.Lib.Memory Riscv32Cpu.Isa.Rv32i

/-! The constants are those of `include/generated/autoconf.h`; `CONFIG_DEVICE` is not set there,
so the `IFDEF(CONFIG_DEVICE, ..)` lines are empty. -/

def configMbase : Word := 0x80000000
def configMsize : Word := 0x8000000
def configPcResetOffset : Word := 0

def pmemLeft : Word := configMbase
def pmemRight : Word := configMbase + configMsize - 1
def resetVector : Word := pmemLeft + configPcResetOffset

structure CpuState where
  gpr : Reg → Word
  pc : Word

inductive RunState
  | running
  | stop
  | «end»
  | abort
  | quit
  deriving DecidableEq, Repr

structure NemuState where
  state : RunState
  haltPc : Word
  haltRet : Word

/-- Host bytes used by one access to `pmem`. -/
structure Access where
  addr : BitVec 64
  len : Nat

/-- NEMU's globals and the memory of its process. `touched` is not in the source: it records
the host bytes that the memory functions use. -/
structure Machine where
  cpu : CpuState
  host : Mem 64
  nemuState : NemuState
  gNrGuestInst : BitVec 64
  touched : List Access

/-- A failed `assert` and `panic` end the process with a message. -/
abbrev M := EStateM String Machine

/-- Note the use of `len` host bytes from `addr` on. -/
def touch (addr : BitVec 64) (len : Nat) : M Unit :=
  modify fun m => { m with touched := ⟨addr, len⟩ :: m.touched }

/-- The text `FMT_WORD` prints. -/
def fmtWord (w : Word) : String :=
  "0x" ++ String.ofList (List.leftpad 8 '0' (Nat.toDigits 16 w.toNat))

def assertZero : String := "Assertion \x600' failed."

/-- One load of `len` bytes through a host pointer. -/
def hostLoad (addr : BitVec 64) (len : Nat) : M Word := do
  touch addr len
  return (load (← get).host addr (8 * len)).setWidth 32

/-- One store of `len` bytes through a host pointer. -/
def hostStore (addr : BitVec 64) (len : Nat) (data : Word) : M Unit := do
  touch addr len
  modify fun m => { m with host := store m.host addr len data }

def hostRead (addr : BitVec 64) (len : Nat) : M Word :=
  match len with
  | 1 => hostLoad addr 1
  | 2 => hostLoad addr 2
  | 4 => hostLoad addr 4
  | _ => throw assertZero

def hostWrite (addr : BitVec 64) (len : Nat) (data : Word) : M Unit :=
  match len with
  | 1 => hostStore addr 1 data
  | 2 => hostStore addr 2 data
  | 4 => hostStore addr 4 data
  | _ => throw assertZero

def inPmem (addr : Word) : Bool := (addr - configMbase).ult configMsize

def outOfBound (addr : Word) : M Unit := do
  throw ("address = " ++ fmtWord addr ++ " is out of bound of pmem [" ++ fmtWord pmemLeft ++
    ", " ++ fmtWord pmemRight ++ "] at pc = " ++ fmtWord (← get).cpu.pc)

section

-- The host address of the array `pmem`.
variable (pmem : BitVec 64)

def guestToHost (paddr : Word) : BitVec 64 :=
  pmem + paddr.setWidth 64 - configMbase.setWidth 64

def pmemRead (addr : Word) (len : Nat) : M Word := hostRead (guestToHost pmem addr) len

def pmemWrite (addr : Word) (len : Nat) (data : Word) : M Unit :=
  hostWrite (guestToHost pmem addr) len data

def paddrRead (addr : Word) (len : Nat) : M Word := do
  if inPmem addr then return ← pmemRead pmem addr len
  outOfBound addr
  return 0

def paddrWrite (addr : Word) (len : Nat) (data : Word) : M Unit := do
  if inPmem addr then return ← pmemWrite pmem addr len data
  outOfBound addr

def vaddrIfetch (addr : Word) (len : Nat) : M Word := paddrRead pmem addr len
def vaddrRead (addr : Word) (len : Nat) : M Word := paddrRead pmem addr len
def vaddrWrite (addr : Word) (len : Nat) (data : Word) : M Unit := paddrWrite pmem addr len data

end

/-- The access widths of the source. -/
def Width (len : Nat) : Prop := len = 1 ∨ len = 2 ∨ len = 4

/-- `m` after `len` host bytes from `addr` on have been used. -/
def Machine.touching (m : Machine) (addr : BitVec 64) (len : Nat) : Machine :=
  { m with touched := ⟨addr, len⟩ :: m.touched }

theorem hostRead_eq {len : Nat} (hl : Width len) (addr : BitVec 64) (m : Machine) :
    hostRead addr len m =
      .ok ((load m.host addr (8 * len)).setWidth 32) (m.touching addr len) := by
  rcases hl with rfl | rfl | rfl <;> rfl

theorem hostWrite_eq {len : Nat} (hl : Width len) (addr : BitVec 64) (data : Word) (m : Machine) :
    hostWrite addr len data m =
      .ok () { m.touching addr len with host := store m.host addr len data } := by
  rcases hl with rfl | rfl | rfl <;> rfl

theorem hostRead_other {len : Nat} (hl : ¬Width len) (addr : BitVec 64) (m : Machine) :
    hostRead addr len m = .error assertZero m := by
  unfold hostRead
  split <;> first | rfl | exact absurd (by simp [Width]) hl

theorem hostWrite_other {len : Nat} (hl : ¬Width len) (addr : BitVec 64) (data : Word)
    (m : Machine) : hostWrite addr len data m = .error assertZero m := by
  unfold hostWrite
  split <;> first | rfl | exact absurd (by simp [Width]) hl

variable {b : BitVec 64}

theorem paddrRead_in {addr : Word} (h : inPmem addr = true) (len : Nat) (m : Machine) :
    paddrRead b addr len m = hostRead (guestToHost b addr) len m := by
  rw [paddrRead, if_pos h, pmemRead]

theorem paddrWrite_in {addr : Word} (h : inPmem addr = true) (len : Nat) (data : Word)
    (m : Machine) : paddrWrite b addr len data m =
      hostWrite (guestToHost b addr) len data m := by
  rw [paddrWrite, if_pos h, pmemWrite]

theorem vaddrRead_in {addr : Word} (h : inPmem addr = true) {len : Nat} (hl : Width len)
    (m : Machine) : vaddrRead b addr len m =
      .ok ((load m.host (guestToHost b addr) (8 * len)).setWidth 32)
        (m.touching (guestToHost b addr) len) := by
  rw [vaddrRead, paddrRead_in h, hostRead_eq hl]

theorem vaddrWrite_in {addr : Word} (h : inPmem addr = true) {len : Nat} (hl : Width len)
    (data : Word) (m : Machine) : vaddrWrite b addr len data m =
      .ok () { m.touching (guestToHost b addr) len with
        host := store m.host (guestToHost b addr) len data } := by
  rw [vaddrWrite, paddrWrite_in h, hostWrite_eq hl]

theorem paddrRead_out {addr : Word} (h : inPmem addr = false) (len : Nat) (m : Machine) :
    ∃ e, outOfBound addr m = .error e m ∧ paddrRead b addr len m = .error e m := by
  refine ⟨_, rfl, ?_⟩
  rw [paddrRead, if_neg (by rw [h]; decide)]
  rfl

theorem paddrWrite_out {addr : Word} (h : inPmem addr = false) (len : Nat) (data : Word)
    (m : Machine) :
    ∃ e, outOfBound addr m = .error e m ∧ paddrWrite b addr len data m = .error e m := by
  refine ⟨_, rfl, ?_⟩
  rw [paddrWrite, if_neg (by rw [h]; decide)]
  rfl

/-- The offset of a guest address in `pmem`. -/
def offset (addr : Word) : Nat := (addr - configMbase).toNat

theorem inPmem_iff (addr : Word) : inPmem addr = true ↔ offset addr < configMsize.toNat := by
  rw [inPmem, BitVec.ult, decide_eq_true_iff, offset]

theorem toNat_of_inPmem {a : Word} (h : inPmem a = true) :
    a.toNat = 0x80000000 + offset a ∧ offset a < 0x8000000 := by
  rw [inPmem_iff] at h
  have hlt := a.isLt
  have hoff : offset a = (2 ^ 32 - 0x80000000 + a.toNat) % 2 ^ 32 := BitVec.toNat_sub ..
  have hsize : configMsize.toNat = 0x8000000 := rfl
  omega

theorem guestToHost_eq (pmem : BitVec 64) {a : Word} (h : inPmem a = true) :
    guestToHost pmem a = pmem + BitVec.ofNat 64 (offset a) := by
  have hlt := toNat_of_inPmem h
  rw [guestToHost, add_sub_assoc]
  congr 1
  apply BitVec.eq_of_toNat_eq
  rw [BitVec.toNat_sub, BitVec.toNat_setWidth, BitVec.toNat_setWidth, BitVec.toNat_ofNat]
  show (2 ^ 64 - 0x80000000 + a.toNat % 2 ^ 64) % 2 ^ 64 = offset a % 2 ^ 64
  omega

theorem inPmem_add {a : Word} (h : inPmem a = true) (h4 : a.toNat % 4 = 0) {k : Nat} (hk : k < 4) :
    inPmem (a + BitVec.ofNat 32 k) = true ∧ offset (a + BitVec.ofNat 32 k) = offset a + k := by
  have hlt := toNat_of_inPmem h
  have hoff : offset (a + BitVec.ofNat 32 k) = offset a + k := by
    rw [offset, BitVec.toNat_sub, BitVec.toNat_add, BitVec.toNat_ofNat]
    show (2 ^ 32 - 0x80000000 + (a.toNat + k % 2 ^ 32) % 2 ^ 32) % 2 ^ 32 = offset a + k
    omega
  refine ⟨?_, hoff⟩
  rw [inPmem_iff, hoff]
  show offset a + k < 0x8000000
  omega

theorem guestToHost_ne {a c : Word} (ha : inPmem a = true) (hc : inPmem c = true) (h : c ≠ a) :
    guestToHost b c ≠ guestToHost b a := by
  intro heq
  rw [guestToHost_eq b ha, guestToHost_eq b hc] at heq
  have hoff := congrArg BitVec.toNat (add_left_cancel heq)
  have hla := toNat_of_inPmem ha
  have hlc := toNat_of_inPmem hc
  rw [BitVec.toNat_ofNat, BitVec.toNat_ofNat, Nat.mod_eq_of_lt (by omega),
    Nat.mod_eq_of_lt (by omega)] at hoff
  exact h (BitVec.eq_of_toNat_eq (by omega))

end Riscv32Cpu.Nemu.Memory
