/- module: Riscv32Cpu/X86Qemu/Boot
   source: CODE/abstract-machine/am/src/x86/qemu/boot/main.c, am/src/x86/x86.h
   digest: The boot loader: sectors of the disk, and the segments of an ELF file read from them. -/

import Riscv32Cpu.Lib.Memory

set_option autoImplicit false
set_option relaxedAutoImplicit false

namespace Riscv32Cpu.X86Qemu.Boot

open Lib.Memory

abbrev Word := BitVec 32

abbrev Memory := Mem 32

-- `SECTSIZE` is 512 and `ARGSIZE` 1024.
def mainargAddr : Word := 0x10000
def bootrecAddr : Word := 0x7000

/-- Where `load_kernel` puts the ELF header. -/
def elfAddr : Word := 0x8000

/-- The disk image: the boot sector and the arguments, and the ELF file behind them. -/
structure Image where
  head : Nat → Byte
  file : Nat → Byte

def Image.byte (img : Image) (k : Nat) : Byte :=
  if k < 1536 then img.head k else img.file (k - 1536)

/-- The 128 words of a sector at `buf`. Bit 28 of `sect` selects the other drive; there is none, so
`wait_disk` does not end. -/
def readDisk (img : Image) (buf sect : Word) (mem : Memory) : Option Memory :=
  if sect.getLsbD 28 then none
  else some (overlay mem buf 512 fun k => img.byte (512 * (sect.toNat % 2 ^ 28) + k))

/-- The loop of `copy_from_disk`. -/
def copyLoop (img : Image) (ed : Word) : Nat → Word → Word → Memory → Option Memory
  | 0, _, _, _ => none
  | fuel + 1, cur, sect, mem =>
    if cur < ed then do
      let mem ← readDisk img cur sect mem
      copyLoop img ed fuel (cur + 512) (sect + 1) mem
    else some mem

/-- `nbytes` and `disk_offset` are the words that are passed as `int`s. -/
def copyFromDisk (img : Image) (fuel : Nat) (buf nbytes diskOffset : Word) (mem : Memory) :
    Option Memory :=
  let cur := buf &&& ~~~(511 : Word)
  let ed := buf + nbytes
  let sect := BitVec.ofInt 32 (diskOffset.toInt.tdiv 512 + 1024 / 512 + 1)
  copyLoop img ed fuel cur sect mem

/-- The loop that clears `bss`. -/
def zeroLoop (memsz : Word) : Nat → Word → Word → Memory → Option Memory
  | 0, _, _, _ => none
  | fuel + 1, i, bss, mem =>
    if i ≠ memsz then zeroLoop memsz fuel (i + 1) (bss + 1) (Function.update mem bss 0)
    else some mem

def loadProgram (img : Image) (fuel : Nat) (filesz memsz paddr offset : Word) (mem : Memory) :
    Option Memory := do
  let mem ← copyFromDisk img fuel paddr filesz offset mem
  zeroLoop memsz fuel filesz (paddr + filesz) mem

/-- Where the members of the headers are. -/
structure Format where
  wordBits : Nat
  phoff : Nat
  phnum : Nat
  phentsize : Nat
  offset : Nat
  paddr : Nat
  filesz : Nat
  memsz : Nat

def elf32 : Format where
  wordBits := 32
  phoff := 28
  phnum := 44
  phentsize := 32
  offset := 4
  paddr := 12
  filesz := 16
  memsz := 20

def elf64 : Format where
  wordBits := 64
  phoff := 32
  phnum := 56
  phentsize := 56
  offset := 8
  paddr := 24
  filesz := 32
  memsz := 40

structure Phdr where
  offset : Nat
  paddr : Nat
  filesz : Nat
  memsz : Nat
  deriving DecidableEq

variable (fmt : Format)

/-- `elf` is the bytes from the ELF header on. -/
def Format.wordAt (elf : Nat → Byte) (k : Nat) : Nat :=
  (ofBytes fmt.wordBits fun i => elf (k + i)).toNat

def Format.ePhoff (elf : Nat → Byte) : Nat := fmt.wordAt elf fmt.phoff

def Format.ePhnum (elf : Nat → Byte) : Nat := (ofBytes 16 fun i => elf (fmt.phnum + i)).toNat

/-- The program header that begins at byte `k`. -/
def Format.phdrAt (elf : Nat → Byte) (k : Nat) : Phdr where
  offset := fmt.wordAt elf (k + fmt.offset)
  paddr := fmt.wordAt elf (k + fmt.paddr)
  filesz := fmt.wordAt elf (k + fmt.filesz)
  memsz := fmt.wordAt elf (k + fmt.memsz)

/-- What the memory holds from the ELF header on. -/
def elfBytes (mem : Memory) (k : Nat) : Byte := mem (elfAddr + BitVec.ofNat 32 k)

/-- The loop over the program headers; `ph` counts from the ELF header. -/
def loadHeaders (img : Image) : Nat → Nat → Nat → Memory → Option Memory
  | 0, _, _, _ => none
  | fuel + 1, i, ph, mem =>
    if i < fmt.ePhnum (elfBytes mem) then do
      let p := fmt.phdrAt (elfBytes mem) ph
      let mem ← loadProgram img fuel (BitVec.ofNat 32 p.filesz) (BitVec.ofNat 32 p.memsz)
        (BitVec.ofNat 32 p.paddr) (BitVec.ofNat 32 p.offset) mem
      loadHeaders img fuel (i + 1) (ph + fmt.phentsize) mem
    else some mem

def loadElf (img : Image) (fuel : Nat) (mem : Memory) : Option Memory :=
  loadHeaders fmt img fuel 0 (fmt.ePhoff (elfBytes mem)) mem

def loadElf64 (img : Image) (fuel : Nat) (mem : Memory) : Option Memory :=
  loadElf elf64 img fuel mem

def loadElf32 (img : Image) (fuel : Nat) (mem : Memory) : Option Memory :=
  loadElf elf32 img fuel mem

def emX86_64 : BitVec 16 := 62

def eMachine (mem : Memory) : BitVec 16 := ofBytes 16 fun i => elfBytes mem (18 + i)

/-- `load_kernel` up to the jump to the entry point. `is_ap` is the second word of the boot
record. -/
def loadKernel (img : Image) (fuel : Nat) (mem : Memory) : Option Memory :=
  if load mem (bootrecAddr + 4) 32 = 0 then do
    let mem ← copyFromDisk img fuel mainargAddr 1024 (-1024) mem
    let mem ← copyFromDisk img fuel elfAddr 4096 0 mem
    if eMachine mem = emX86_64 then loadElf64 img fuel mem else loadElf32 img fuel mem
  else some mem

end Riscv32Cpu.X86Qemu.Boot
