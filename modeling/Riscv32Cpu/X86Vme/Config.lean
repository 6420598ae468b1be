/- module: Riscv32Cpu/X86Vme/Config
   source: CODE/abstract-machine/am/src/x86/qemu/vme.c, x86-qemu.h, am/src/x86/x86.h
   digest: The two MMU configurations, table indices and page table entries. -/

import Mathlib.Data.BitVec
import Mathlib.Tactic.IntervalCases

set_option autoImplicit false
set_option relaxedAutoImplicit false

namespace Riscv32Cpu.X86Vme.Config

/-- `vme.c` is compiled for one of these. -/
inductive Arch
  | i386
  | x86_64
  deriving DecidableEq

/-- The width of `uintptr_t`. -/
def Arch.width : Arch → Nat
  | .i386 => 32
  | .x86_64 => 64

abbrev Word (a : Arch) := BitVec a.width

structure PtInfo (a : Arch) where
  mask : Word a
  shift : Nat
  bits : Nat

def ptlevels : Arch → Nat
  | .i386 => 2
  | .x86_64 => 4

/-- The array `mmu.pgtables`; only the indices 0 to `ptlevels` are used. -/
def pgtables : (a : Arch) → Nat → PtInfo a
  | .x86_64, 0 => ⟨0x000000000000, 0, 0⟩
  | .x86_64, 1 => ⟨0xff8000000000, 39, 9⟩
  | .x86_64, 2 => ⟨0x007fc0000000, 30, 9⟩
  | .x86_64, 3 => ⟨0x00003fe00000, 21, 9⟩
  | .x86_64, _ => ⟨0x0000001ff000, 12, 9⟩
  | .i386, 0 => ⟨0x00000000, 0, 0⟩
  | .i386, 1 => ⟨0xffc00000, 22, 10⟩
  | .i386, _ => ⟨0x003ff000, 12, 10⟩

variable {a : Arch}

def pgsize : Word a := 4096

structure Area (a : Arch) where
  start : Word a
  stop : Word a

structure VmArea (a : Arch) where
  area : Area a
  kernel : Bool

def uvmArea : (a : Arch) → Area a
  | .x86_64 => ⟨0x100000000000, 0x108000000000⟩
  | .i386 => ⟨0x40000000, 0x80000000⟩

/-- The array `vm_areas`; its first element is the user area. -/
def vmAreas : (a : Arch) → List (VmArea a)
  | .x86_64 => [⟨uvmArea .x86_64, false⟩, ⟨⟨0x000000000000, 0x008000000000⟩, true⟩]
  | .i386 => [⟨uvmArea .i386, false⟩, ⟨⟨0x00000000, 0x40000000⟩, true⟩,
      ⟨⟨0xfd000000, 0x00000000⟩, true⟩]

def inRange (va : Word a) (area : Area a) : Bool := area.start.ule va && va.ult area.stop

def rounddown (x sz : Word a) : Word a := x &&& ~~~(sz - 1)

def pteP : Word a := 0x001
def pteW : Word a := 0x002
def pteU : Word a := 0x004
def ptePS : Word a := 0x080

def mmapNone : BitVec 32 := 0
def mmapWrite : BitVec 32 := 2

def indexof (addr : Word a) (info : PtInfo a) : Nat := ((addr &&& info.mask) >>> info.shift).toNat

def baseof (addr : Word a) : Word a := addr &&& ~~~(pgsize - 1)

/-- The bits of `e` that `f` selects are not all clear. -/
def has (e f : Word a) : Bool := e &&& f != 0#_

/-- The size of the physical address space; x86-64 has 52-bit physical addresses. -/
def physBits : Arch → Nat
  | .i386 => 32
  | .x86_64 => 52

structure PhysAddr (a : Arch) where
  val : Word a
  lt : val.toNat < 2 ^ physBits a

/-- The frame number field of an entry. -/
def frameMask : (a : Arch) → Word a
  | .i386 => 0xfffff000
  | .x86_64 => 0x000ffffffffff000

def frameOf (e : Word a) : Word a := e &&& frameMask a

/-- A page: nothing but a frame number. -/
def IsPage (p : Word a) : Prop := frameOf p = p

/-- Flags stay below the frame number. -/
def IsFlags (f : Word a) : Prop := frameOf f = 0#_ ∧ baseof f = 0#_

theorem baseof_of_isPage {p : Word a} (h : IsPage p) : baseof p = p := by
  have hmask : frameMask a &&& ~~~(pgsize - 1) = frameMask a := by cases a <;> decide
  rw [← h, frameOf, baseof, BitVec.and_assoc, hmask]

theorem frameOf_or {p f : Word a} (hp : IsPage p) (hf : IsFlags f) : frameOf (p ||| f) = p := by
  rw [frameOf, BitVec.and_or_distrib_right]
  show frameOf p ||| frameOf f = p
  rw [hp, hf.1, BitVec.or_zero]

theorem baseof_or {p f : Word a} (hp : IsPage p) (hf : IsFlags f) : baseof (p ||| f) = p := by
  rw [baseof, BitVec.and_or_distrib_right]
  show baseof p ||| baseof f = p
  rw [baseof_of_isPage hp, hf.2, BitVec.or_zero]

theorem has_or {p f g : Word a} (hp : IsPage p) (hg : frameMask a &&& g = 0#_) :
    has (p ||| f) g = has f g := by
  have hpage : p &&& g = 0#_ := by
    rw [← hp, frameOf, BitVec.and_assoc, hg, BitVec.and_zero]
  rw [has, has, BitVec.and_or_distrib_right, hpage, BitVec.zero_or]

theorem pteP_flag : frameMask a &&& pteP = 0#_ := by cases a <;> decide
theorem pteW_flag : frameMask a &&& pteW = 0#_ := by cases a <;> decide
theorem pteU_flag : frameMask a &&& pteU = 0#_ := by cases a <;> decide
theorem ptePS_flag : frameMask a &&& ptePS = 0#_ := by cases a <;> decide

theorem has_zero (f : Word a) : has 0#_ f = false := by
  rw [has, BitVec.zero_and]
  exact bne_self_eq_false _

theorem has_or_self (e f : Word a) : has (e ||| f) f = (f != 0#_) := by
  have habsorb : (e ||| f) &&& f = f := by
    ext i hi
    rw [BitVec.getElem_and, BitVec.getElem_or]
    cases e[i] <;> cases f[i] <;> rfl
  rw [has, habsorb]

theorem indexof_eq {info : PtInfo a} (h : info.mask.toNat >>> info.shift = 2 ^ info.bits - 1)
    (addr : Word a) : indexof addr info = addr.toNat / 2 ^ info.shift % 2 ^ info.bits := by
  rw [indexof, BitVec.toNat_ushiftRight, BitVec.toNat_and, Nat.shiftRight_and_distrib, h,
    Nat.and_two_pow_sub_one_eq_mod, Nat.shiftRight_eq_div_pow]

theorem pgtables_mask {level : Nat} (h : level ≤ ptlevels a) :
    (pgtables a level).mask.toNat >>> (pgtables a level).shift =
      2 ^ (pgtables a level).bits - 1 := by
  cases a with
  | i386 =>
    have hle : level ≤ 2 := h
    interval_cases level <;> decide
  | x86_64 =>
    have hle : level ≤ 4 := h
    interval_cases level <;> decide

/-- Bits per level as the processor has them. -/
def levelBits : Arch → Nat
  | .i386 => 10
  | .x86_64 => 9

def levelShift (a : Arch) (level : Nat) : Nat := 12 + levelBits a * (ptlevels a - level)

/-- The processor's index of `va` in a table of the given level. -/
def hwIndex (va : Word a) (level : Nat) : Nat :=
  va.toNat / 2 ^ levelShift a level % 2 ^ levelBits a

theorem indexof_hwIndex {level : Nat} (hpos : 1 ≤ level) (h : level ≤ ptlevels a) (va : Word a) :
    indexof va (pgtables a level) = hwIndex va level := by
  have hinfo : (pgtables a level).shift = levelShift a level ∧
      (pgtables a level).bits = levelBits a := by
    cases a with
    | i386 =>
      have hle : level ≤ 2 := h
      interval_cases level <;> decide
    | x86_64 =>
      have hle : level ≤ 4 := h
      interval_cases level <;> decide
  rw [indexof_eq (pgtables_mask h), hinfo.1, hinfo.2, hwIndex]

theorem indexof_zero (va : Word a) : indexof va (pgtables a 0) = 0 := by
  rw [indexof_eq (pgtables_mask (Nat.zero_le _))]
  have hbits : (pgtables a 0).bits = 0 := by cases a <;> rfl
  rw [hbits, Nat.pow_zero, Nat.mod_one]

theorem indexof_lt {level : Nat} (h : level ≤ ptlevels a) (va : Word a) :
    indexof va (pgtables a level) < 2 ^ (pgtables a level).bits := by
  rw [indexof_eq (pgtables_mask h)]
  exact Nat.mod_lt _ (Nat.two_pow_pos _)

end Riscv32Cpu.X86Vme.Config
