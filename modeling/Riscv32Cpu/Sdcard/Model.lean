/- module: Riscv32Cpu/Sdcard/Model
   source: CODE/nemu/src/device/sdcard.c, mmc.h, io/map.c
   digest: The card controller's registers over an image file, and the guest's accesses to them. -/

import Riscv32Cpu.Lib.Effect
import Riscv32Cpu.Lib.Memory

set_option autoImplicit false
set_option relaxedAutoImplicit false

namespace Riscv32Cpu.Sdcard

open Lib.Effect Lib.Memory

abbrev Word := BitVec 32

/-- A stdio file as a byte array that is large enough for every access, and a position in it. -/
structure File where
  bytes : Nat → Byte
  pos : Nat

/-- The little-endian word of a file at `p`. -/
def wordAt (bytes : Nat → Byte) (p : Nat) : Word := ofBytes 32 fun k => bytes (p + k)

def putWord (bytes : Nat → Byte) (p : Nat) (w : Word) : Nat → Byte := fun x =>
  if p ≤ x ∧ x < p + 4 then byteAt w (x - p) else bytes x

/-- `fseek(fp, offset, SEEK_SET)`. -/
def File.fseek (f : File) (offset : Nat) : File := { f with pos := offset }

/-- The word that `fread(.., 4, 1, fp)` gives. -/
def File.word (f : File) : Word := wordAt f.bytes f.pos

def File.skip (f : File) : File := { f with pos := f.pos + 4 }

/-- `fwrite(.., 4, 1, fp)`. -/
def File.fwrite (f : File) (w : Word) : File := ⟨putWord f.bytes f.pos w, f.pos + 4⟩

/-- The registers that the handler knows. -/
inductive Register
  | sdcmd
  | sdarg
  | sdrsp (i : Fin 4)
  | sddata
  deriving DecidableEq

def Register.idx : Register → Nat
  | .sdcmd => 0
  | .sdarg => 1
  | .sdrsp i => 4 + i
  | .sddata => 16

/-- `switch (idx)`. -/
def Register.ofIdx : Nat → Option Register
  | 0 => some .sdcmd
  | 1 => some .sdarg
  | 4 => some (.sdrsp 0)
  | 5 => some (.sdrsp 1)
  | 6 => some (.sdrsp 2)
  | 7 => some (.sdrsp 3)
  | 16 => some .sddata
  | _ => none

/-- The commands of `mmc.h` that the handler knows, and the 52 it has no name for. -/
inductive Mmc
  | goIdleState
  | sendOpCond
  | allSendCid
  | setRelativeAddr
  | sleepAwake
  | selectCard
  | sendExtCsd
  | sendCsd
  | stopTransmission
  | sendStatus
  | readMultipleBlock
  | setBlockCount
  | writeMultipleBlock
  | cmd52
  | appCmd
  deriving DecidableEq

/-- `switch (cmd)`. -/
def Mmc.ofCode : Nat → Option Mmc
  | 0 => some .goIdleState
  | 1 => some .sendOpCond
  | 2 => some .allSendCid
  | 3 => some .setRelativeAddr
  | 5 => some .sleepAwake
  | 7 => some .selectCard
  | 8 => some .sendExtCsd
  | 9 => some .sendCsd
  | 12 => some .stopTransmission
  | 13 => some .sendStatus
  | 18 => some .readMultipleBlock
  | 23 => some .setBlockCount
  | 25 => some .writeMultipleBlock
  | 52 => some .cmd52
  | 55 => some .appCmd
  | _ => none

def memorySize : Nat := 16 * 1024 * 1024 * 1024
def readBlLen : Nat := 15
def blockLen : Nat := 1 <<< readBlLen
def nrBlock : Nat := memorySize / blockLen
def cSizeMult : Nat := 7
def mult : Nat := 1 <<< (cSizeMult + 2)
def cSize : Nat := nrBlock / mult - 1

/-- The registers' bytes at `base`, and the static variables of the file. -/
structure Card where
  base : Mem 32
  fp : Option File
  blkcnt : Word
  blkAddr : Nat
  addr : Word
  writeCmd : Bool
  readExtCsd : Bool

/-- `base[r]`. -/
def Card.reg (s : Card) (r : Register) : Word := load s.base (BitVec.ofNat 32 (4 * r.idx)) 32

/-- The card with `len` bytes of its registers overwritten. -/
def Card.poke (s : Card) (offset : Word) (len : Nat) (data : Word) : Card :=
  { s with base := store s.base offset len data }

def Card.setReg (s : Card) (r : Register) (w : Word) : Card :=
  s.poke (BitVec.ofNat 32 (4 * r.idx)) 4 w

/-- The number of the command that `SDCMD` holds. -/
def Card.cmd (s : Card) : Word := s.reg .sdcmd &&& 0x3f

abbrev D := EStateM String Card

def Card.prepareRw (isWrite : Bool) (s : Card) : Card :=
  let blkAddr := (s.reg .sdarg).toNat
  { s with
    blkAddr := blkAddr
    addr := 0
    fp := s.fp.map fun f => f.fseek (blkAddr <<< 9)
    writeCmd := isWrite }

/-- The arms of `sdcard_handle_cmd`. -/
def Card.handle (c : Mmc) (s : Card) : Card :=
  match c with
  | .sendOpCond => s.setReg (.sdrsp 0) 0x80ff8000
  | .allSendCid =>
    (((s.setReg (.sdrsp 0) 0x00000001).setReg (.sdrsp 1) 0x00000000).setReg (.sdrsp 2)
      0x00000000).setReg (.sdrsp 3) 0x15000000
  | .sendCsd =>
    (((s.setReg (.sdrsp 0) 0x92404001).setReg (.sdrsp 1)
      (0x124b97e3 ||| BitVec.ofNat 32 ((cSize &&& 0x3) <<< 30))).setReg (.sdrsp 2)
      (0x0f508000 ||| BitVec.ofNat 32 (cSize >>> 2) ||| BitVec.ofNat 32 (readBlLen <<< 16))).setReg
      (.sdrsp 3) 0x9026012a
  | .sendExtCsd => { s with readExtCsd := true, addr := 0 }
  | .setBlockCount => { s with blkcnt := s.reg .sdarg &&& 0xffff }
  | .readMultipleBlock => s.prepareRw false
  | .writeMultipleBlock => s.prepareRw true
  | .sendStatus =>
    (((s.setReg (.sdrsp 0) 0x900).setReg (.sdrsp 3) 0).setReg (.sdrsp 2) 0).setReg (.sdrsp 1) 0
  | .goIdleState | .cmd52 | .sleepAwake | .appCmd | .setRelativeAddr | .selectCard
  | .stopTransmission => s

def sdcardHandleCmd (cmd : Word) : D Unit :=
  match Mmc.ofCode cmd.toNat with
  | some c => modify (Card.handle c)
  | none => throw ("unhandled command = " ++ toString cmd.toInt)

/-- The word of the EXT_CSD structure at `addr`. -/
def extCsd (addr : Word) : Word :=
  if addr = 192 then 2 else if addr = 212 then BitVec.ofNat 32 (memorySize / 512) else 0

/-- The `SDDATA` arm of the handler, less its last line. -/
def Card.transfer (s : Card) : Card :=
  if s.readExtCsd then
    { s.setReg .sddata (extCsd s.addr) with
      readExtCsd := if s.addr = 512 - 4 then false else s.readExtCsd }
  else
    match s.fp with
    | none => s
    | some f =>
      if !s.writeCmd then { s.setReg .sddata f.word with fp := some f.skip }
      else { s with fp := some (f.fwrite (s.reg .sddata)) }

def sdcardIoHandler (offset : Word) (_len : Nat) (_isWrite : Bool) : D Unit := do
  match Register.ofIdx (offset.toNat / 4) with
  | some .sdcmd => sdcardHandleCmd (← get).cmd
  | some .sdarg | some (.sdrsp _) => return
  | some .sddata => modify fun s => { s.transfer with addr := s.addr + 4 }
  | none => throw ("unhandle offset = " ++ toString offset.toInt)

def assertZero : String := "Assertion \x600' failed."

def hostRead (offset : Word) (len : Nat) : D Word := do
  match len with
  | 1 | 2 | 4 => return (load (← get).base offset (8 * len)).setWidth 32
  | _ => throw assertZero

def hostWrite (offset : Word) (len : Nat) (data : Word) : D Unit :=
  match len with
  | 1 | 2 | 4 => modify fun s => s.poke offset len data
  | _ => throw assertZero

def assertLen : String := "Assertion \x60len >= 1 && len <= 8' failed."

/-- `map_read` on the map of the card, which the access was found to be inside of. -/
def mapRead (offset : Word) (len : Nat) : D Word := do
  ensure (len ≥ 1 ∧ len ≤ 8) assertLen
  sdcardIoHandler offset len false
  hostRead offset len

def mapWrite (offset : Word) (len : Nat) (data : Word) : D Unit := do
  ensure (len ≥ 1 ∧ len ≤ 8) assertLen
  hostWrite offset len data
  sdcardIoHandler offset len true

/-- `init_sdcard` over the bytes the space of the map happens to hold, with the image at hand. -/
def initSdcard (base : Mem 32) (image : Nat → Byte) : Card where
  base := base
  fp := some ⟨image, 0⟩
  blkcnt := 0
  blkAddr := 0
  addr := 0
  writeCmd := false
  readExtCsd := false

/-- One load or store of the guest in the card's part of the address space. -/
inductive Access
  | read (offset : Word) (len : Nat)
  | write (offset : Word) (len : Nat) (data : Word)
  deriving DecidableEq

/-- What an access returns and leaves; a store returns nothing of interest. -/
def access : Access → D Word
  | .read offset len => mapRead offset len
  | .write offset len data => do
    mapWrite offset len data
    return 0

end Riscv32Cpu.Sdcard
