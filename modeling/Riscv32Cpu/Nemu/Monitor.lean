/- module: Riscv32Cpu/Nemu/Monitor
   source: CODE/nemu/src/isa/riscv32/init.c, src/monitor/monitor.c
   digest: The built-in image, the reset state, and loading an image file. -/

import Riscv32Cpu.Nemu.Memory

set_option autoImplicit false
set_option relaxedAutoImplicit false

namespace Riscv32Cpu.Nemu.Monitor

open Riscv32Cpu.Lib.Memory Riscv32Cpu.Isa.Rv32i Riscv32Cpu.Nemu.Memory

/-- The built-in image: auipc t0,0; sb zero,16(t0); lbu a0,16(t0); ebreak; some data. -/
def img : List Word := [0x00000297, 0x00028823, 0x0102c503, 0x00100073, 0xdeadbeef]

/-- Capstone knows each of its instructions. -/
def oneInst : Word → Word → Nat := fun _ _ => 1

/-- The image as it lies in memory. -/
def imgByte (k : Nat) : Byte := byteAt (img.getD (k / 4) 0) (k % 4)

variable (pmem : BitVec 64)

def restart : M Unit :=
  modify fun m => { m with cpu := ⟨Function.update m.cpu.gpr 0 0, resetVector⟩ }

def initIsa : M Unit := do
  touch (guestToHost pmem resetVector) (4 * img.length)
  modify fun m => { m with
    host := overlay m.host (guestToHost pmem resetVector) (4 * img.length) imgByte }
  restart

/-- A file that can be opened; `ftell` at its end gives `size`, a `long`. -/
structure ImgFile where
  size : Nat
  size_lt : size < 2 ^ 63
  byte : Nat → Byte

/-- `fread` of one item of `size` bytes from the start of `fp`. -/
def fread (ptr : BitVec 64) (size : Nat) (fp : ImgFile) : M Nat := do
  if size = 0 then return 0
  touch ptr size
  modify fun m => { m with host := overlay m.host ptr size fp.byte }
  return 1

def assertRet : String := "Assertion \x60ret == 1' failed."

/-- `imgFile` is the command line's image, `fopen` the file system. -/
def loadImg (fopen : String → Option ImgFile) (imgFile : Option String) : M Nat := do
  match imgFile with
  | none => return 4096
  | some path =>
    match fopen path with
    | none => throw ("Can not open '" ++ path ++ "'")
    | some fp =>
      let ret ← fread (guestToHost pmem resetVector) fp.size fp
      if ret ≠ 1 then throw assertRet
      return fp.size

end Riscv32Cpu.Nemu.Monitor
