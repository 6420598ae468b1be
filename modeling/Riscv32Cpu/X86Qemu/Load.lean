/- module: Riscv32Cpu/X86Qemu/Load
   source: CODE/abstract-machine/am/src/x86/qemu/boot/main.c
   digest: Segments placed by the boot loader, and the sectors that overlay their neighbours. -/

import Mathlib.Data.BitVec
import Mathlib.Data.List.Pairwise
import Mathlib.Tactic.ByContra
import Riscv32Cpu.Lib.Align
import Riscv32Cpu.X86Qemu.Boot

set_option autoImplicit false
set_option relaxedAutoImplicit false

namespace Riscv32Cpu.X86Qemu.Boot

open Lib.Align Lib.Memory

theorem and_not_511 (x : Word) :
    x &&& ~~~(511 : Word) = BitVec.ofNat 32 (512 * (x.toNat / 512)) := by
  have hround : (x &&& ~~~(511 : Word)).toNat = x.toNat / 2 ^ 9 * 2 ^ 9 := toNat_and_not_mask x 9
  apply BitVec.eq_of_toNat_eq
  rw [hround, BitVec.toNat_ofNat]
  omega

theorem ofNat_lt_ofNat {m n : Nat} (hm : m < 2 ^ 32) (hn : n < 2 ^ 32) :
    BitVec.ofNat 32 m < BitVec.ofNat 32 n ↔ m < n := by
  rw [BitVec.lt_def, BitVec.toNat_ofNat, BitVec.toNat_ofNat, Nat.mod_eq_of_lt hm,
    Nat.mod_eq_of_lt hn]

theorem readDisk_first {img : Image} {buf : Word} {s : Nat} (hs : s < 2 ^ 28) (mem : Memory) :
    readDisk img buf (BitVec.ofNat 32 s) mem =
      some (overlay mem buf 512 fun k => img.byte (512 * s + k)) := by
  have hbit : (BitVec.ofNat 32 s).getLsbD 28 = false := by
    rw [BitVec.getLsbD_ofNat, Nat.testBit_lt_two_pow hs, Bool.and_false]
  have hlba : (BitVec.ofNat 32 s).toNat % 2 ^ 28 = s := by
    rw [BitVec.toNat_ofNat]
    omega
  rw [readDisk, hbit, hlba]
  rfl

theorem copyLoop_reads {img : Image} {e : Nat} (he : e ≤ 2 ^ 32 - 512) {n c s fuel : Nat}
    (hn : (e + 511) / 512 = c + n ∨ (e + 511) / 512 ≤ c ∧ n = 0) (hc : 512 * c < 2 ^ 32)
    (hs : s + n ≤ 2 ^ 28) (hfuel : n < fuel) (mem : Memory) :
    copyLoop img (BitVec.ofNat 32 e) fuel (BitVec.ofNat 32 (512 * c)) (BitVec.ofNat 32 s) mem =
      some (overlay mem (BitVec.ofNat 32 (512 * c)) (512 * n)
        fun k => img.byte (512 * s + k)) := by
  induction n generalizing c s fuel mem with
  | zero =>
    obtain ⟨fuel, rfl⟩ : ∃ k, fuel = k + 1 := ⟨fuel - 1, by omega⟩
    have hend : ¬BitVec.ofNat 32 (512 * c) < BitVec.ofNat 32 e := by
      rw [ofNat_lt_ofNat hc (by omega)]
      omega
    rw [copyLoop, if_neg hend, Nat.mul_zero, overlay_zero]
  | succ n ih =>
    obtain ⟨fuel, rfl⟩ : ∃ k, fuel = k + 1 := ⟨fuel - 1, by omega⟩
    have hmore : BitVec.ofNat 32 (512 * c) < BitVec.ofNat 32 e := by
      rw [ofNat_lt_ofNat hc (by omega)]
      omega
    have hcur : BitVec.ofNat 32 (512 * c) + 512 = BitVec.ofNat 32 (512 * (c + 1)) := by
      rw [Nat.mul_succ, BitVec.ofNat_add]
      rfl
    have hsect : BitVec.ofNat 32 s + 1 = BitVec.ofNat 32 (s + 1) := by
      rw [BitVec.ofNat_add]
      rfl
    have hbytes : (fun k => img.byte (512 * (s + 1) + k)) =
        fun k => img.byte (512 * s + (512 + k)) := by
      funext k
      congr 1
      omega
    rw [copyLoop, if_pos hmore, readDisk_first (by omega)]
    dsimp only [bind, Option.bind]
    rw [hcur, hsect, ih (by omega) (by omega) (by omega) (by omega), hbytes, Nat.mul_succ,
      BitVec.ofNat_add, overlay_append _ _ _ (by omega), Nat.mul_succ, Nat.add_comm (512 * n)]

theorem copyLoop_never {img : Image} {ed : Word} (hed : 2 ^ 32 - 512 < ed.toNat) (fuel : Nat)
    {cur : Word} (hcur : cur.toNat % 512 = 0) (sect : Word) (mem : Memory) :
    copyLoop img ed fuel cur sect mem = none := by
  induction fuel generalizing cur sect mem with
  | zero => rfl
  | succ fuel ih =>
    have hnext : (cur + 512).toNat % 512 = 0 := by
      rw [BitVec.toNat_add]
      show (cur.toNat + 512) % 2 ^ 32 % 512 = 0
      omega
    have hmore : cur < ed := by
      rw [BitVec.lt_def]
      omega
    rw [copyLoop, if_pos hmore]
    cases readDisk img cur sect mem with
    | none => rfl
    | some mem => exact ih hnext _ mem

theorem copyLoop_other {img : Image} {ed cur sect : Word} (hmore : cur < ed)
    (hsect : sect.getLsbD 28 = true) (fuel : Nat) (mem : Memory) :
    copyLoop img ed fuel cur sect mem = none := by
  cases fuel with
  | zero => rfl
  | succ fuel =>
    rw [copyLoop, if_pos hmore, readDisk, if_pos hsect]
    rfl

theorem copyLoop_mono {img : Image} {ed : Word} {fuel : Nat} {cur sect : Word}
    {mem mem' : Memory} (h : copyLoop img ed fuel cur sect mem = some mem') (k : Nat) :
    copyLoop img ed (fuel + k) cur sect mem = some mem' := by
  induction fuel generalizing cur sect mem with
  | zero => cases h
  | succ fuel ih =>
    rw [Nat.succ_add]
    unfold copyLoop at h ⊢
    split at h
    · next hmore =>
      rw [if_pos hmore]
      obtain ⟨mem₁, hread, hrest⟩ := Option.bind_eq_some_iff.mp h
      exact Option.bind_eq_some_iff.mpr ⟨mem₁, hread, ih hrest⟩
    · next hend =>
      rw [if_neg hend]
      exact h

theorem zeroLoop_mono {memsz : Word} {fuel : Nat} {i bss : Word} {mem mem' : Memory}
    (h : zeroLoop memsz fuel i bss mem = some mem') (k : Nat) :
    zeroLoop memsz (fuel + k) i bss mem = some mem' := by
  induction fuel generalizing i bss mem with
  | zero => cases h
  | succ fuel ih =>
    rw [Nat.succ_add]
    unfold zeroLoop at h ⊢
    split at h
    · next hmore =>
      rw [if_pos hmore]
      exact ih h
    · next hend =>
      rw [if_neg hend]
      exact h

theorem loadProgram_mono {img : Image} {fuel : Nat} {filesz memsz paddr offset : Word}
    {mem mem' : Memory} (h : loadProgram img fuel filesz memsz paddr offset mem = some mem')
    (k : Nat) : loadProgram img (fuel + k) filesz memsz paddr offset mem = some mem' := by
  obtain ⟨mem₁, hcopy, hzero⟩ := Option.bind_eq_some_iff.mp h
  exact Option.bind_eq_some_iff.mpr ⟨mem₁, copyLoop_mono hcopy k, zeroLoop_mono hzero k⟩

theorem update_eq_overlay (mem : Memory) (b : Word) (v : Byte) :
    Function.update mem b v = overlay mem b 1 fun _ => v := by
  have hone := overlay_succ mem b (n := 0) (fun _ => v) (by decide)
  rw [overlay_zero, BitVec.add_zero] at hone
  exact hone.symm

theorem zeroLoop_clears {n i b fuel : Nat} (hi : i + n < 2 ^ 32) (hb : b + n ≤ 2 ^ 32)
    (hfuel : n < fuel) (mem : Memory) :
    zeroLoop (BitVec.ofNat 32 (i + n)) fuel (BitVec.ofNat 32 i) (BitVec.ofNat 32 b) mem =
      some (overlay mem (BitVec.ofNat 32 b) n fun _ => 0) := by
  induction n generalizing i b fuel mem with
  | zero =>
    obtain ⟨fuel, rfl⟩ : ∃ k, fuel = k + 1 := ⟨fuel - 1, by omega⟩
    have hend : ¬BitVec.ofNat 32 i ≠ BitVec.ofNat 32 (i + 0) := not_not.mpr rfl
    rw [zeroLoop, if_neg hend, overlay_zero]
  | succ n ih =>
    obtain ⟨fuel, rfl⟩ : ∃ k, fuel = k + 1 := ⟨fuel - 1, by omega⟩
    have hmore : BitVec.ofNat 32 i ≠ BitVec.ofNat 32 (i + (n + 1)) := by
      intro h
      have hnat := congrArg BitVec.toNat h
      rw [BitVec.toNat_ofNat, BitVec.toNat_ofNat] at hnat
      omega
    have hstep : ∀ k, BitVec.ofNat 32 k + 1 = BitVec.ofNat 32 (k + 1) := by
      intro k
      rw [BitVec.ofNat_add]
      rfl
    have hcount : i + (n + 1) = i + 1 + n := by omega
    rw [zeroLoop, if_pos hmore, hstep, hstep, hcount, ih (by omega) (by omega) (by omega),
      update_eq_overlay, BitVec.ofNat_add, overlay_append mem _ (fun _ => 0) (by omega),
      Nat.add_comm 1 n]

/-- The address is one of the segment's. -/
def Phdr.Holds (p : Phdr) (a : Nat) : Prop := p.paddr ≤ a ∧ a < p.paddr + p.memsz

/-- The segment is as in an ELF file that is loaded above the loader's own memory. -/
structure Phdr.Fits (p : Phdr) : Prop where
  aligned : p.paddr % 512 = p.offset % 512
  filesz_le : p.filesz ≤ p.memsz
  above : 0x10400 ≤ p.paddr
  below : p.paddr < 2 ^ 32
  last : p.paddr + p.memsz ≤ 2 ^ 32

/-- The sectors of memory that are written, of 512 bytes each. -/
def Phdr.firstSector (p : Phdr) : Nat := p.paddr / 512

def Phdr.sectors (p : Phdr) : Nat := (p.paddr + p.filesz + 511) / 512 - p.firstSector

/-- The sector of the disk that is read first. -/
def Phdr.diskSector (p : Phdr) : Nat :=
  (BitVec.ofInt 32 ((BitVec.ofNat 32 p.offset).toInt.tdiv 512 + 3)).toNat

/-- The segment's file part ends a sector below 4 GiB, and its sectors are on the first drive. -/
structure Phdr.Readable (p : Phdr) : Prop where
  ends : p.paddr + p.filesz ≤ 2 ^ 32 - 512
  drive : p.sectors ≠ 0 → p.diskSector < 2 ^ 28

/-- An address in the sectors that are written. -/
def Phdr.Covers (p : Phdr) (a : Nat) : Prop :=
  512 * p.firstSector ≤ a ∧ a < 512 * (p.firstSector + p.sectors)

/-- What is read there. -/
def Phdr.brought (img : Image) (p : Phdr) (a : Nat) : Byte :=
  img.byte (512 * p.diskSector + (a - 512 * p.firstSector))

/-- The memory after `load_program`. -/
def Phdr.after (img : Image) (mem : Memory) (p : Phdr) : Memory :=
  overlay
    (overlay mem (BitVec.ofNat 32 (512 * p.firstSector)) (512 * p.sectors)
      fun k => img.byte (512 * p.diskSector + k))
    (BitVec.ofNat 32 (p.paddr + p.filesz)) (p.memsz - p.filesz) fun _ => 0

theorem diskSector_cases (p : Phdr) :
    p.diskSector < 2 ^ 23 ∨
      2 ^ 28 ≤ p.diskSector ∧ (BitVec.ofNat 32 p.diskSector).getLsbD 28 = true := by
  have hlow := BitVec.le_toInt (BitVec.ofNat 32 p.offset)
  have hhigh := BitVec.toInt_lt (x := BitVec.ofNat 32 p.offset)
  have hdisk : p.diskSector =
      (((BitVec.ofNat 32 p.offset).toInt.tdiv 512 + 3) % 2 ^ 32).toNat := BitVec.toNat_ofInt ..
  generalize (BitVec.ofNat 32 p.offset).toInt = offset at hlow hhigh hdisk
  have hquot : -2 ^ 22 ≤ offset.tdiv 512 ∧ offset.tdiv 512 < 2 ^ 22 := by
    rcases le_total 0 offset with hpos | hneg
    · rw [Int.tdiv_eq_ediv_of_nonneg hpos]
      omega
    · have hflip : offset.tdiv 512 = -((-offset) / 512) := by
        rw [← Int.tdiv_eq_ediv_of_nonneg (by omega), Int.neg_tdiv, neg_neg]
      omega
  generalize offset.tdiv 512 = quot at hdisk hquot
  by_cases hneg : quot + 3 < 0
  · right
    have hwrap : p.diskSector = (2 ^ 32 + (quot + 3)).toNat := by
      have hpos : (quot + 3) % 2 ^ 32 = 2 ^ 32 + (quot + 3) := by
        rw [← Int.add_emod_left, Int.emod_eq_of_lt (by omega) (by omega)]
      rw [hdisk, hpos]
    have hbit : p.diskSector / 2 ^ 28 = 15 := by omega
    refine ⟨by omega, ?_⟩
    rw [BitVec.getLsbD_ofNat, Nat.testBit_eq_decide_div_mod_eq, hbit]
    rfl
  · left
    omega

theorem copyFromDisk_eq (img : Image) (fuel : Nat) (p : Phdr) (hp : p.paddr < 2 ^ 32)
    (mem : Memory) :
    copyFromDisk img fuel (BitVec.ofNat 32 p.paddr) (BitVec.ofNat 32 p.filesz)
        (BitVec.ofNat 32 p.offset) mem =
      copyLoop img (BitVec.ofNat 32 (p.paddr + p.filesz)) fuel
        (BitVec.ofNat 32 (512 * p.firstSector)) (BitVec.ofNat 32 p.diskSector) mem := by
  have hpaddr : (BitVec.ofNat 32 p.paddr).toNat = p.paddr := by
    rw [BitVec.toNat_ofNat, Nat.mod_eq_of_lt hp]
  have hsect : BitVec.ofNat 32 p.diskSector =
      BitVec.ofInt 32 ((BitVec.ofNat 32 p.offset).toInt.tdiv 512 + 3) :=
    BitVec.ofNat_toNat ..
  have hstart : (BitVec.ofNat 32 p.offset).toInt.tdiv 512 + 1024 / 512 + 1 =
      (BitVec.ofNat 32 p.offset).toInt.tdiv 512 + 3 := by omega
  rw [copyFromDisk, and_not_511, hpaddr, hsect, BitVec.ofNat_add, hstart]
  rfl

theorem copyFromDisk_reads {img : Image} {p : Phdr} (hread : p.Readable) {fuel : Nat}
    (hfuel : p.sectors < fuel) (mem : Memory) :
    copyFromDisk img fuel (BitVec.ofNat 32 p.paddr) (BitVec.ofNat 32 p.filesz)
        (BitVec.ofNat 32 p.offset) mem =
      some (overlay mem (BitVec.ofNat 32 (512 * p.firstSector)) (512 * p.sectors)
        fun k => img.byte (512 * p.diskSector + k)) := by
  have hends := hread.ends
  have hsectors : p.sectors = (p.paddr + p.filesz + 511) / 512 - p.paddr / 512 := rfl
  have hfirst : p.firstSector = p.paddr / 512 := rfl
  rw [copyFromDisk_eq img fuel p (by omega)]
  by_cases hnone : p.sectors = 0
  · obtain ⟨fuel, rfl⟩ : ∃ k, fuel = k + 1 := ⟨fuel - 1, by omega⟩
    have hend : ¬BitVec.ofNat 32 (512 * p.firstSector) < BitVec.ofNat 32 (p.paddr + p.filesz) := by
      rw [ofNat_lt_ofNat (by omega) (by omega)]
      omega
    rw [copyLoop, if_neg hend, hnone, Nat.mul_zero, overlay_zero]
  · have hdrive := hread.drive hnone
    rcases diskSector_cases p with hlow | ⟨hhigh, -⟩
    · exact copyLoop_reads hends (.inl (by omega)) (by omega) (by omega) hfuel mem
    · omega

theorem loadProgram_eq {img : Image} {p : Phdr} (hp : p.Fits) (hread : p.Readable) {fuel : Nat}
    (hfuel : 2 ^ 32 < fuel) (mem : Memory) :
    loadProgram img fuel (BitVec.ofNat 32 p.filesz) (BitVec.ofNat 32 p.memsz)
      (BitVec.ofNat 32 p.paddr) (BitVec.ofNat 32 p.offset) mem = some (Phdr.after img mem p) := by
  have habove := hp.above
  have hlast := hp.last
  have hends := hread.ends
  have hfilesz := hp.filesz_le
  have hsectors : p.sectors = (p.paddr + p.filesz + 511) / 512 - p.paddr / 512 := rfl
  have hmemsz : p.memsz = p.filesz + (p.memsz - p.filesz) := by omega
  rw [loadProgram, copyFromDisk_reads hread (by omega)]
  dsimp only [bind, Option.bind]
  rw [← BitVec.ofNat_add, Phdr.after]
  conv_lhs => rw [hmemsz]
  exact zeroLoop_clears (by omega) (by omega) (by omega) _

theorem copyFromDisk_never {img : Image} {p : Phdr} (hp : p.Fits)
    (hlow : 2 ^ 32 - 512 < p.paddr + p.filesz) (hhigh : p.paddr + p.filesz < 2 ^ 32) (fuel : Nat)
    (mem : Memory) :
    copyFromDisk img fuel (BitVec.ofNat 32 p.paddr) (BitVec.ofNat 32 p.filesz)
      (BitVec.ofNat 32 p.offset) mem = none := by
  have hbelow := hp.below
  have hfirst : p.firstSector = p.paddr / 512 := rfl
  have hed : 2 ^ 32 - 512 < (BitVec.ofNat 32 (p.paddr + p.filesz)).toNat := by
    rw [BitVec.toNat_ofNat, Nat.mod_eq_of_lt hhigh]
    exact hlow
  have hstart : 512 * p.firstSector < 2 ^ 32 := by omega
  have hcur : (BitVec.ofNat 32 (512 * p.firstSector)).toNat % 512 = 0 := by
    rw [BitVec.toNat_ofNat, Nat.mod_eq_of_lt hstart]
    omega
  rw [copyFromDisk_eq img fuel p hbelow]
  exact copyLoop_never hed fuel hcur _ mem

theorem drive_of_copyFromDisk {img : Image} {p : Phdr} (hp : p.Fits)
    (hends : p.paddr + p.filesz ≤ 2 ^ 32 - 512) {fuel : Nat} {mem mem' : Memory}
    (h : copyFromDisk img fuel (BitVec.ofNat 32 p.paddr) (BitVec.ofNat 32 p.filesz)
      (BitVec.ofNat 32 p.offset) mem = some mem') (hsome : p.sectors ≠ 0) :
    p.diskSector < 2 ^ 28 := by
  have hbelow := hp.below
  have hsectors : p.sectors = (p.paddr + p.filesz + 511) / 512 - p.paddr / 512 := rfl
  have hfirst : p.firstSector = p.paddr / 512 := rfl
  rcases diskSector_cases p with hlow | ⟨-, hother⟩
  · omega
  · have hmore : BitVec.ofNat 32 (512 * p.firstSector) < BitVec.ofNat 32 (p.paddr + p.filesz) := by
      rw [ofNat_lt_ofNat (by omega) (by omega)]
      omega
    rw [copyFromDisk_eq img fuel p hbelow, copyLoop_other hmore hother] at h
    cases h

theorem loadProgram_wraps {img : Image} {p : Phdr} (hp : p.Fits)
    (hwrap : p.paddr + p.filesz = 2 ^ 32) (fuel : Nat) (mem : Memory) :
    loadProgram img (fuel + 1) (BitVec.ofNat 32 p.filesz) (BitVec.ofNat 32 p.memsz)
      (BitVec.ofNat 32 p.paddr) (BitVec.ofNat 32 p.offset) mem = some mem := by
  have hlast := hp.last
  have hfilesz := hp.filesz_le
  have hnone : p.memsz = p.filesz := by omega
  have hend : ¬BitVec.ofNat 32 (512 * p.firstSector) < 0#32 := by
    rw [BitVec.lt_def]
    exact Nat.not_lt_zero _
  have hzero : BitVec.ofNat 32 (2 ^ 32) = 0#32 := rfl
  rw [loadProgram, copyFromDisk_eq img _ p hp.below, hwrap, hzero, copyLoop, if_neg hend]
  dsimp only [bind, Option.bind]
  rw [hnone, zeroLoop, if_neg (not_not.mpr rfl)]

theorem readable_of_loadProgram {img : Image} {p : Phdr} (hp : p.Fits) {fuel : Nat}
    {mem mem' : Memory}
    (h : loadProgram img fuel (BitVec.ofNat 32 p.filesz) (BitVec.ofNat 32 p.memsz)
      (BitVec.ofNat 32 p.paddr) (BitVec.ofNat 32 p.offset) mem = some mem') :
    p.Readable ∨ p.paddr + p.filesz = 2 ^ 32 ∧ mem' = mem := by
  have hlast := hp.last
  have hfilesz := hp.filesz_le
  obtain ⟨mem₁, hcopy, hzero⟩ := Option.bind_eq_some_iff.mp h
  by_cases hends : p.paddr + p.filesz ≤ 2 ^ 32 - 512
  · exact .inl ⟨hends, drive_of_copyFromDisk hp hends hcopy⟩
  · by_cases hwrap : p.paddr + p.filesz = 2 ^ 32
    · cases fuel with
      | zero => cases hcopy
      | succ fuel =>
        rw [loadProgram_wraps hp hwrap] at h
        exact .inr ⟨hwrap, (Option.some.inj h).symm⟩
    · rw [copyFromDisk_never hp (by omega) (by omega)] at hcopy
      cases hcopy

instance (p : Phdr) (a : Nat) : Decidable (p.Covers a) := inferInstanceAs (Decidable (_ ∧ _))

theorem after_at {img : Image} {p : Phdr} (hp : p.Fits) (hread : p.Readable) (mem : Memory)
    {a : Nat} (ha : a < 2 ^ 32) :
    Phdr.after img mem p (BitVec.ofNat 32 a) =
      if p.paddr + p.filesz ≤ a ∧ a < p.paddr + p.memsz then 0
      else if p.Covers a then p.brought img a
      else mem (BitVec.ofNat 32 a) := by
  have hlast := hp.last
  have hends := hread.ends
  have hfilesz := hp.filesz_le
  have hsectors : p.sectors = (p.paddr + p.filesz + 511) / 512 - p.paddr / 512 := rfl
  have hfirst : p.firstSector = p.paddr / 512 := rfl
  rw [Phdr.after, overlay_ofNat _ _ (by omega) ha, overlay_ofNat _ _ (by omega) ha]
  refine if_congr (by omega) rfl (if_congr ?_ rfl rfl)
  rw [Phdr.Covers, Nat.mul_add]

/-- What the sectors of the last segment that covers an address bring there. -/
def lastBrought (img : Image) : List Phdr → Nat → Option Byte
  | [], _ => none
  | p :: ps, a => (lastBrought img ps a).or (if p.Covers a then some (p.brought img a) else none)

/-- Over a segment's bytes the last sectors, from its own on, bring its own bytes, and over its
`bss` those of the segments behind it bring zeros, if anything. -/
def Undisturbed (img : Image) : List Phdr → Prop
  | [] => True
  | p :: ps =>
    ((∀ k < p.filesz, lastBrought img (p :: ps) (p.paddr + k) = some (img.file (p.offset + k))) ∧
      ∀ k, p.filesz ≤ k → k < p.memsz → (lastBrought img ps (p.paddr + k)).getD 0 = 0) ∧
    Undisturbed img ps

/-- The segment is where it belongs. -/
structure Phdr.Placed (p : Phdr) (file : Nat → Byte) (mem : Memory) : Prop where
  bytes : ∀ k < p.filesz, mem (BitVec.ofNat 32 (p.paddr + k)) = file (p.offset + k)
  bss : ∀ k, p.filesz ≤ k → k < p.memsz → mem (BitVec.ofNat 32 (p.paddr + k)) = 0

def Phdr.Disjoint (p q : Phdr) : Prop := ∀ a, ¬(p.Holds a ∧ q.Holds a)

instance : Std.Symm Phdr.Disjoint := ⟨fun _ _ h a ha => h a ha.symm⟩

theorem foldl_after_at {img : Image} {ps : List Phdr} (hfits : ∀ p ∈ ps, p.Fits)
    (hread : ∀ p ∈ ps, p.Readable) {a : Nat} (ha : a < 2 ^ 32)
    (hbss : ∀ p ∈ ps, ¬(p.paddr + p.filesz ≤ a ∧ a < p.paddr + p.memsz)) (mem : Memory) :
    ps.foldl (Phdr.after img) mem (BitVec.ofNat 32 a) =
      (lastBrought img ps a).getD (mem (BitVec.ofNat 32 a)) := by
  induction ps generalizing mem with
  | nil => rfl
  | cons p ps ih =>
    have hmem : ∀ q ∈ ps, q ∈ p :: ps := fun _ => List.mem_cons_of_mem _
    have hp : p ∈ p :: ps := List.mem_cons_self ..
    rw [List.foldl_cons, ih (fun q hq => hfits q (hmem q hq)) (fun q hq => hread q (hmem q hq))
      (fun q hq => hbss q (hmem q hq)), after_at (hfits p hp) (hread p hp) mem ha,
      if_neg (hbss p hp), lastBrought]
    cases lastBrought img ps a with
    | some v => rfl
    | none =>
      by_cases hcovers : p.Covers a
      · rw [if_pos hcovers, if_pos hcovers]
        rfl
      · rw [if_neg hcovers, if_neg hcovers]
        rfl

theorem covers_bytes {p : Phdr} {k : Nat} (hk : k < p.filesz) : p.Covers (p.paddr + k) := by
  have hsectors : p.sectors = (p.paddr + p.filesz + 511) / 512 - p.paddr / 512 := rfl
  have hfirst : p.firstSector = p.paddr / 512 := rfl
  constructor <;> omega

theorem placed_cons_iff {img : Image} {p : Phdr} {ps : List Phdr} (hp : p.Fits)
    (hpread : p.Readable) (hfits : ∀ q ∈ ps, q.Fits) (hread : ∀ q ∈ ps, q.Readable)
    (hdisj : ∀ q ∈ ps, p.Disjoint q) (mem : Memory) :
    p.Placed img.file (ps.foldl (Phdr.after img) (Phdr.after img mem p)) ↔
      (∀ k < p.filesz,
        lastBrought img (p :: ps) (p.paddr + k) = some (img.file (p.offset + k))) ∧
      ∀ k, p.filesz ≤ k → k < p.memsz → (lastBrought img ps (p.paddr + k)).getD 0 = 0 := by
  have hlast := hp.last
  have hfilesz := hp.filesz_le
  have hafter : ∀ k < p.memsz,
      ps.foldl (Phdr.after img) (Phdr.after img mem p) (BitVec.ofNat 32 (p.paddr + k)) =
        (lastBrought img ps (p.paddr + k)).getD
          (Phdr.after img mem p (BitVec.ofNat 32 (p.paddr + k))) := by
    intro k hk
    refine foldl_after_at hfits hread (by omega) (fun q hq hbss => ?_) _
    exact hdisj q hq (p.paddr + k) ⟨⟨by omega, by omega⟩, by omega, hbss.2⟩
  have hbytes : ∀ k < p.filesz,
      ps.foldl (Phdr.after img) (Phdr.after img mem p) (BitVec.ofNat 32 (p.paddr + k)) =
          img.file (p.offset + k) ↔
        lastBrought img (p :: ps) (p.paddr + k) = some (img.file (p.offset + k)) := by
    intro k hk
    rw [hafter k (by omega), after_at hp hpread mem (by omega), if_neg (by omega),
      if_pos (covers_bytes hk), lastBrought, if_pos (covers_bytes hk)]
    cases lastBrought img ps (p.paddr + k) with
    | none => exact Option.some_inj.symm
    | some v => exact Option.some_inj.symm
  have hbss : ∀ k, p.filesz ≤ k → k < p.memsz →
      ps.foldl (Phdr.after img) (Phdr.after img mem p) (BitVec.ofNat 32 (p.paddr + k)) =
        (lastBrought img ps (p.paddr + k)).getD 0 := by
    intro k hlow hhigh
    rw [hafter k hhigh, after_at hp hpread mem (by omega), if_pos (by omega)]
  constructor
  · rintro ⟨hplaced, hzero⟩
    refine ⟨fun k hk => (hbytes k hk).mp (hplaced k hk), fun k hlow hhigh => ?_⟩
    rw [← hbss k hlow hhigh, hzero k hlow hhigh]
  · rintro ⟨hplaced, hzero⟩
    refine ⟨fun k hk => (hbytes k hk).mpr (hplaced k hk), fun k hlow hhigh => ?_⟩
    rw [hbss k hlow hhigh, hzero k hlow hhigh]

theorem placed_iff_undisturbed {img : Image} {ps : List Phdr} (hfits : ∀ p ∈ ps, p.Fits)
    (hread : ∀ p ∈ ps, p.Readable) (hdisj : ps.Pairwise Phdr.Disjoint) (mem : Memory) :
    (∀ p ∈ ps, p.Placed img.file (ps.foldl (Phdr.after img) mem)) ↔ Undisturbed img ps := by
  induction ps generalizing mem with
  | nil => exact iff_of_true (fun p hp => nomatch hp) trivial
  | cons p ps ih =>
    have hmem : ∀ q ∈ ps, q ∈ p :: ps := fun _ => List.mem_cons_of_mem _
    have hp : p ∈ p :: ps := List.mem_cons_self ..
    obtain ⟨hfirst, hrest⟩ := List.pairwise_cons.mp hdisj
    rw [List.forall_mem_cons, List.foldl_cons, Undisturbed,
      placed_cons_iff (hfits p hp) (hread p hp) (fun q hq => hfits q (hmem q hq))
        (fun q hq => hread q (hmem q hq)) hfirst mem,
      ih (fun q hq => hfits q (hmem q hq)) (fun q hq => hread q (hmem q hq)) hrest]

/-- The program headers of a file. -/
def Format.header (fmt : Format) (file : Nat → Byte) (i : Nat) : Phdr :=
  fmt.phdrAt file (fmt.ePhoff file + fmt.phentsize * i)

def Format.headers (fmt : Format) (file : Nat → Byte) : List Phdr :=
  (List.range (fmt.ePhnum file)).map (fmt.header file)

/-- A file whose program headers are in its first 4096 bytes and describe segments that can be
loaded side by side. -/
structure Format.WellFormed (fmt : Format) (file : Nat → Byte) : Prop where
  inside : fmt.ePhoff file + fmt.phentsize * fmt.ePhnum file ≤ 4096
  fits : ∀ p ∈ fmt.headers file, p.Fits
  disjoint : (fmt.headers file).Pairwise Phdr.Disjoint

/-- The first 4096 bytes of the file are in memory, from the ELF header on. -/
def HeaderAt (file : Nat → Byte) (mem : Memory) : Prop := ∀ k < 4096, elfBytes mem k = file k

/-- The loader returns, and every segment is where it belongs. -/
def Format.Places (fmt : Format) (img : Image) (mem : Memory) : Prop :=
  ∃ fuel mem', loadElf fmt img fuel mem = some mem' ∧
    ∀ p ∈ fmt.headers img.file, p.Placed img.file mem'

theorem elfBytes_ofNat (mem : Memory) (k : Nat) :
    elfBytes mem k = mem (BitVec.ofNat 32 (0x8000 + k)) := by
  rw [elfBytes, BitVec.ofNat_add]
  rfl

theorem HeaderAt.after {img : Image} {p : Phdr} (hp : p.Fits) (hread : p.Readable)
    {mem : Memory} (h : HeaderAt img.file mem) : HeaderAt img.file (Phdr.after img mem p) := by
  intro k hk
  have habove := hp.above
  have hcovers : ¬p.Covers (0x8000 + k) := by
    rintro ⟨hlow, -⟩
    have hfirst : p.firstSector = p.paddr / 512 := rfl
    omega
  rw [elfBytes_ofNat, after_at hp hread mem (by omega), if_neg (by omega), if_neg hcovers,
    ← elfBytes_ofNat mem k, h k hk]

theorem wordAt_congr {fmt : Format} (hfmt : fmt = elf32 ∨ fmt = elf64) {elf file : Nat → Byte}
    {k : Nat} (h : ∀ i < 8, elf (k + i) = file (k + i)) : fmt.wordAt elf k = fmt.wordAt file k := by
  refine congrArg BitVec.toNat (ofBytes_congr fun i hi => h i ?_)
  rcases hfmt with rfl | rfl
  · have : elf32.wordBits = 32 := rfl
    omega
  · have : elf64.wordBits = 64 := rfl
    omega

theorem phdrAt_congr {fmt : Format} (hfmt : fmt = elf32 ∨ fmt = elf64) {elf file : Nat → Byte}
    (h : ∀ i < 4096, elf i = file i) {k : Nat} (hk : k + fmt.phentsize ≤ 4096) :
    fmt.phdrAt elf k = fmt.phdrAt file k := by
  have hword : ∀ j, j + 8 ≤ fmt.phentsize → fmt.wordAt elf (k + j) = fmt.wordAt file (k + j) :=
    fun j hj => wordAt_congr hfmt fun i hi => h _ (by omega)
  have hmembers : fmt.offset + 8 ≤ fmt.phentsize ∧ fmt.paddr + 8 ≤ fmt.phentsize ∧
      fmt.filesz + 8 ≤ fmt.phentsize ∧ fmt.memsz + 8 ≤ fmt.phentsize := by
    rcases hfmt with rfl | rfl <;> decide
  obtain ⟨hoffset, hpaddr, hfilesz, hmemsz⟩ := hmembers
  rw [Format.phdrAt, hword _ hoffset, hword _ hpaddr, hword _ hfilesz, hword _ hmemsz]
  rfl

theorem ePhnum_congr {fmt : Format} (hfmt : fmt = elf32 ∨ fmt = elf64) {elf file : Nat → Byte}
    (h : ∀ i < 4096, elf i = file i) : fmt.ePhnum elf = fmt.ePhnum file := by
  have hphnum : fmt.phnum + 2 ≤ 4096 := by
    rcases hfmt with rfl | rfl <;> decide
  exact congrArg BitVec.toNat (ofBytes_congr fun i hi => h _ (by omega))

theorem ePhoff_congr {fmt : Format} (hfmt : fmt = elf32 ∨ fmt = elf64) {elf file : Nat → Byte}
    (h : ∀ i < 4096, elf i = file i) : fmt.ePhoff elf = fmt.ePhoff file := by
  have hphoff : fmt.phoff + 8 ≤ 4096 := by
    rcases hfmt with rfl | rfl <;> decide
  exact wordAt_congr hfmt fun i hi => h _ (by omega)

section

variable {fmt : Format} {img : Image}

theorem loadHeaders_succ (hfmt : fmt = elf32 ∨ fmt = elf64)
    (hinside : fmt.ePhoff img.file + fmt.phentsize * fmt.ePhnum img.file ≤ 4096) {i : Nat}
    (hi : i < fmt.ePhnum img.file) (fuel : Nat) {mem : Memory} (hmem : HeaderAt img.file mem) :
    loadHeaders fmt img (fuel + 1) i (fmt.ePhoff img.file + fmt.phentsize * i) mem =
      (loadProgram img fuel (BitVec.ofNat 32 (fmt.header img.file i).filesz)
        (BitVec.ofNat 32 (fmt.header img.file i).memsz)
        (BitVec.ofNat 32 (fmt.header img.file i).paddr)
        (BitVec.ofNat 32 (fmt.header img.file i).offset) mem).bind fun mem =>
          loadHeaders fmt img fuel (i + 1) (fmt.ePhoff img.file + fmt.phentsize * (i + 1)) mem := by
  have hend : fmt.phentsize * (i + 1) ≤ fmt.phentsize * fmt.ePhnum img.file :=
    Nat.mul_le_mul_left _ hi
  rw [Nat.mul_succ] at hend
  have hnext : fmt.ePhoff img.file + fmt.phentsize * (i + 1) =
      fmt.ePhoff img.file + fmt.phentsize * i + fmt.phentsize := by
    rw [Nat.mul_succ, Nat.add_assoc]
  rw [hnext, loadHeaders, ePhnum_congr hfmt hmem, if_pos hi, phdrAt_congr hfmt hmem (by omega)]
  rfl

theorem loadHeaders_end (hfmt : fmt = elf32 ∨ fmt = elf64) {i : Nat}
    (hi : fmt.ePhnum img.file ≤ i) (fuel ph : Nat) {mem : Memory} (hmem : HeaderAt img.file mem) :
    loadHeaders fmt img (fuel + 1) i ph mem = some mem := by
  rw [loadHeaders, ePhnum_congr hfmt hmem, if_neg (Nat.not_lt.mpr hi)]

theorem loadHeaders_eq (hfmt : fmt = elf32 ∨ fmt = elf64)
    (hinside : fmt.ePhoff img.file + fmt.phentsize * fmt.ePhnum img.file ≤ 4096) {n i fuel : Nat}
    (hi : i + n = fmt.ePhnum img.file)
    (hfits : ∀ p ∈ (List.range' i n).map (fmt.header img.file), p.Fits)
    (hread : ∀ p ∈ (List.range' i n).map (fmt.header img.file), p.Readable)
    (hfuel : 2 ^ 32 + n < fuel) {mem : Memory} (hmem : HeaderAt img.file mem) :
    loadHeaders fmt img fuel i (fmt.ePhoff img.file + fmt.phentsize * i) mem =
      some (((List.range' i n).map (fmt.header img.file)).foldl (Phdr.after img) mem) := by
  induction n generalizing i fuel mem with
  | zero =>
    obtain ⟨fuel, rfl⟩ : ∃ k, fuel = k + 1 := ⟨fuel - 1, by omega⟩
    exact loadHeaders_end hfmt (by omega) fuel _ hmem
  | succ n ih =>
    obtain ⟨fuel, rfl⟩ : ∃ k, fuel = k + 1 := ⟨fuel - 1, by omega⟩
    rw [List.range'_succ, List.map_cons] at hfits hread ⊢
    obtain ⟨hp, hfits⟩ := List.forall_mem_cons.mp hfits
    obtain ⟨hpread, hread⟩ := List.forall_mem_cons.mp hread
    rw [loadHeaders_succ hfmt hinside (by omega) fuel hmem,
      loadProgram_eq hp hpread (by omega)]
    exact ih (by omega) hfits hread (by omega) (hmem.after hp hpread)

theorem loadHeaders_mono {fuel i ph : Nat} {mem mem' : Memory}
    (h : loadHeaders fmt img fuel i ph mem = some mem') (k : Nat) :
    loadHeaders fmt img (fuel + k) i ph mem = some mem' := by
  induction fuel generalizing i ph mem with
  | zero => cases h
  | succ fuel ih =>
    rw [Nat.succ_add]
    unfold loadHeaders at h ⊢
    split at h
    · next hmore =>
      rw [if_pos hmore]
      obtain ⟨mem₁, hload, hrest⟩ := Option.bind_eq_some_iff.mp h
      exact Option.bind_eq_some_iff.mpr ⟨mem₁, loadProgram_mono hload k, ih hrest⟩
    · next hend =>
      rw [if_neg hend]
      exact h

/-- The last byte of the address space, which no sector reaches. -/
def topByte (mem : Memory) : Byte := mem (BitVec.ofNat 32 (2 ^ 32 - 1))

theorem topByte_after {p : Phdr} (hp : p.Fits) (hread : p.Readable) (mem : Memory)
    (hbss : p.paddr + p.memsz < 2 ^ 32 ∨ p.memsz = p.filesz) :
    topByte (Phdr.after img mem p) = topByte mem := by
  have hends := hread.ends
  have hcovers : ¬p.Covers (2 ^ 32 - 1) := by
    rintro ⟨-, hhigh⟩
    have hsectors : p.sectors = (p.paddr + p.filesz + 511) / 512 - p.paddr / 512 := rfl
    have hfirst : p.firstSector = p.paddr / 512 := rfl
    omega
  rw [topByte, after_at hp hread mem (by omega), if_neg (by omega), if_neg hcovers]
  rfl

theorem readable_of_loadHeaders (hfmt : fmt = elf32 ∨ fmt = elf64)
    (hinside : fmt.ePhoff img.file + fmt.phentsize * fmt.ePhnum img.file ≤ 4096) {n i fuel : Nat}
    (hi : i + n = fmt.ePhnum img.file)
    (hfits : ∀ p ∈ (List.range' i n).map (fmt.header img.file), p.Fits)
    {mem mem' : Memory} (hmem : HeaderAt img.file mem)
    (h : loadHeaders fmt img fuel i (fmt.ePhoff img.file + fmt.phentsize * i) mem = some mem') :
    (∀ p ∈ (List.range' i n).map (fmt.header img.file),
      p.Readable ∨ p.paddr + p.filesz = 2 ^ 32) ∧
    ((∀ p ∈ (List.range' i n).map (fmt.header img.file),
      p.paddr + p.memsz < 2 ^ 32 ∨ p.memsz = p.filesz) → topByte mem' = topByte mem) := by
  induction n generalizing i fuel mem with
  | zero =>
    refine ⟨fun p hp => ?_, fun _ => ?_⟩
    · cases hp
    cases fuel with
    | zero => cases h
    | succ fuel =>
      rw [loadHeaders_end hfmt (by omega) fuel _ hmem] at h
      rw [Option.some.inj h]
  | succ n ih =>
    cases fuel with
    | zero => cases h
    | succ fuel =>
      rw [List.range'_succ, List.map_cons] at hfits ⊢
      obtain ⟨hp, hfits⟩ := List.forall_mem_cons.mp hfits
      rw [loadHeaders_succ hfmt hinside (by omega) fuel hmem] at h
      obtain ⟨mem₁, hload, hrest⟩ := Option.bind_eq_some_iff.mp h
      rcases readable_of_loadProgram hp hload with hread | ⟨hwrap, rfl⟩
      · have hafter := (loadProgram_eq hp hread (by omega) mem).symm.trans
          (loadProgram_mono hload (2 ^ 32 + 1))
        cases hafter
        obtain ⟨hreads, htop⟩ := ih (by omega) hfits (hmem.after hp hread) hrest
        refine ⟨List.forall_mem_cons.mpr ⟨.inl hread, hreads⟩, fun hbss => ?_⟩
        obtain ⟨hpbss, hbss⟩ := List.forall_mem_cons.mp hbss
        rw [htop hbss, topByte_after hp hread mem hpbss]
      · obtain ⟨hreads, htop⟩ := ih (by omega) hfits hmem hrest
        refine ⟨List.forall_mem_cons.mpr ⟨.inr hwrap, hreads⟩, fun hbss => ?_⟩
        exact htop (List.forall_mem_cons.mp hbss).2

theorem headers_eq (fmt : Format) (file : Nat → Byte) :
    fmt.headers file = (List.range' 0 (fmt.ePhnum file)).map (fmt.header file) := by
  rw [Format.headers, List.range_eq_range']

theorem loadElf_eq (hfmt : fmt = elf32 ∨ fmt = elf64) (hfile : fmt.WellFormed img.file)
    (hread : ∀ p ∈ fmt.headers img.file, p.Readable) {fuel : Nat}
    (hfuel : 2 ^ 32 + fmt.ePhnum img.file < fuel) {mem : Memory} (hmem : HeaderAt img.file mem) :
    loadElf fmt img fuel mem = some ((fmt.headers img.file).foldl (Phdr.after img) mem) := by
  have hfits := hfile.fits
  rw [headers_eq] at hfits hread ⊢
  rw [loadElf, ePhoff_congr hfmt hmem]
  exact loadHeaders_eq hfmt hfile.inside (Nat.zero_add _) hfits hread hfuel hmem

/-- A memory with the headers in it and this last byte. -/
def headerMemory (file : Nat → Byte) (top : Byte) : Memory := fun a =>
  if a = BitVec.ofNat 32 (2 ^ 32 - 1) then top else file (a - elfAddr).toNat

theorem headerMemory_headerAt (file : Nat → Byte) (top : Byte) :
    HeaderAt file (headerMemory file top) := by
  intro k hk
  have hne : elfAddr + BitVec.ofNat 32 k ≠ BitVec.ofNat 32 (2 ^ 32 - 1) := by
    intro h
    have hnat := congrArg BitVec.toNat h
    rw [BitVec.toNat_add, BitVec.toNat_ofNat, BitVec.toNat_ofNat] at hnat
    have helf : elfAddr.toNat = 0x8000 := rfl
    omega
  rw [elfBytes, headerMemory, if_neg hne, toNat_add_sub _ (by omega)]

theorem bss_below_top {file : Nat → Byte} (hfile : fmt.WellFormed file) {p : Phdr}
    (hp : p ∈ fmt.headers file) (hwrap : p.paddr + p.filesz = 2 ^ 32) :
    ∀ q ∈ fmt.headers file, q.paddr + q.memsz < 2 ^ 32 ∨ q.memsz = q.filesz := by
  intro q hq
  have hbelow := (hfile.fits p hp).below
  have hfilesz := (hfile.fits p hp).filesz_le
  have hlast := (hfile.fits p hp).last
  by_cases hqp : q = p
  · subst hqp
    right
    omega
  · left
    have hqbelow := (hfile.fits q hq).below
    have hqlast := (hfile.fits q hq).last
    by_contra hqtop
    exact hfile.disjoint.forall hq hp hqp (2 ^ 32 - 1) ⟨⟨by omega, by omega⟩, by omega, by omega⟩

theorem readable_of_places (hfmt : fmt = elf32 ∨ fmt = elf64) (hfile : fmt.WellFormed img.file)
    (h : ∀ mem, HeaderAt img.file mem → fmt.Places img mem) :
    ∀ p ∈ fmt.headers img.file, p.Readable := by
  intro p hp
  obtain ⟨top, htop⟩ : ∃ top : Byte, top ≠ img.file (p.offset + (p.filesz - 1)) :=
    ⟨_, fun heq => absurd (add_eq_left.mp heq) (by decide : (1 : Byte) ≠ 0)⟩
  have hmem := headerMemory_headerAt img.file top
  obtain ⟨fuel, mem', hrun, hplaced⟩ := h _ hmem
  have hfits := hfile.fits
  have hbelow := (hfits p hp).below
  rw [loadElf, ePhoff_congr hfmt hmem] at hrun
  rw [headers_eq] at hfits
  obtain ⟨hreads, hkept⟩ :=
    readable_of_loadHeaders hfmt hfile.inside (Nat.zero_add _) hfits hmem hrun
  rw [← headers_eq] at hreads hkept
  refine (hreads p hp).resolve_right fun hwrap => ?_
  -- The segment that ends at 4 GiB was skipped, and nothing else has written its last byte.
  have hsame := hkept (bss_below_top hfile hp hwrap)
  have hbyte := (hplaced p hp).bytes (p.filesz - 1) (by omega)
  have haddr : p.paddr + (p.filesz - 1) = 2 ^ 32 - 1 := by omega
  rw [haddr] at hbyte
  have hinitial : topByte (headerMemory img.file top) = top := by
    rw [topByte, headerMemory, if_pos rfl]
  exact htop (hinitial.symm.trans (hsame.symm.trans hbyte))

theorem undisturbed_of_places (hfmt : fmt = elf32 ∨ fmt = elf64)
    (hfile : fmt.WellFormed img.file) (h : ∀ mem, HeaderAt img.file mem → fmt.Places img mem) :
    Undisturbed img (fmt.headers img.file) := by
  have hread := readable_of_places hfmt hfile h
  have hmem := headerMemory_headerAt img.file 0
  obtain ⟨fuel, mem', hrun, hplaced⟩ := h _ hmem
  have hfoldl := (loadElf_eq hfmt hfile hread (by omega) hmem).symm.trans
    (loadHeaders_mono hrun (2 ^ 32 + fmt.ePhnum img.file + 1))
  cases hfoldl
  exact (placed_iff_undisturbed hfile.fits hread hfile.disjoint _).mp hplaced

theorem places_of_undisturbed (hfmt : fmt = elf32 ∨ fmt = elf64)
    (hfile : fmt.WellFormed img.file) (hread : ∀ p ∈ fmt.headers img.file, p.Readable)
    (hkept : Undisturbed img (fmt.headers img.file)) {mem : Memory}
    (hmem : HeaderAt img.file mem) : fmt.Places img mem :=
  ⟨_, _, loadElf_eq hfmt hfile hread (Nat.lt_succ_self _) hmem,
    (placed_iff_undisturbed hfile.fits hread hfile.disjoint mem).mpr hkept⟩

/-- Segments of an ELF file are placed, whatever is in memory before, exactly when each ends a
sector below 4 GiB and is read from the first drive, and none is disturbed. -/
theorem segments_placed_iff (hfmt : fmt = elf32 ∨ fmt = elf64)
    (hfile : fmt.WellFormed img.file) :
    (∀ mem, HeaderAt img.file mem → fmt.Places img mem) ↔
      (∀ p ∈ fmt.headers img.file, p.Readable) ∧ Undisturbed img (fmt.headers img.file) :=
  ⟨fun h => ⟨readable_of_places hfmt hfile h, undisturbed_of_places hfmt hfile h⟩,
    fun h _ => places_of_undisturbed hfmt hfile h.1 h.2⟩

end

theorem diskSector_low {p : Phdr} (h : p.offset < 2 ^ 31) : p.diskSector = p.offset / 512 + 3 := by
  have hint : (BitVec.ofNat 32 p.offset).toInt = p.offset := by
    rw [BitVec.toInt_eq_toNat_of_lt (by rw [BitVec.toNat_ofNat]; omega), BitVec.toNat_ofNat,
      Nat.mod_eq_of_lt (by omega)]
  have hquot : (p.offset : Int).tdiv 512 + 3 = (p.offset / 512 + 3 : Nat) := by
    rw [Int.natCast_add, Int.ofNat_tdiv]
    rfl
  have hsmall : p.offset / 512 + 3 < 2 ^ 32 := by omega
  rw [Phdr.diskSector, hint, hquot, BitVec.ofInt_natCast, BitVec.toNat_ofNat]
  exact Nat.mod_eq_of_lt hsmall

theorem brought_low {img : Image} {p : Phdr} (hp : p.Fits) (h : p.offset < 2 ^ 31) {a : Nat}
    (ha : p.Covers a) : p.brought img a = img.file (p.offset + a - p.paddr) := by
  have halign := hp.aligned
  have hfirst : p.firstSector = p.paddr / 512 := rfl
  have hlow := ha.1
  have hindex : 512 * (p.offset / 512 + 3) + (a - 512 * p.firstSector) - 1536 =
      p.offset + a - p.paddr := by omega
  rw [Phdr.brought, diskSector_low h, Image.byte, if_neg (by omega), hindex]

theorem lastBrought_none {img : Image} {ps : List Phdr} {a : Nat} (h : ∀ q ∈ ps, ¬q.Covers a) :
    lastBrought img ps a = none := by
  induction ps with
  | nil => rfl
  | cons q ps ih =>
    obtain ⟨hq, hrest⟩ := List.forall_mem_cons.mp h
    rw [lastBrought, ih hrest, if_neg hq]
    rfl

/-- Segments are not disturbed where no sector of a later one reaches into an earlier one. -/
theorem undisturbed_of_apart {img : Image} {ps : List Phdr} (hfits : ∀ p ∈ ps, p.Fits)
    (hlow : ∀ p ∈ ps, p.offset < 2 ^ 31)
    (hapart : ps.Pairwise fun p q => ∀ a, p.Holds a → ¬q.Covers a) : Undisturbed img ps := by
  induction ps with
  | nil => trivial
  | cons p ps ih =>
    obtain ⟨hp, hfits⟩ := List.forall_mem_cons.mp hfits
    obtain ⟨hplow, hlow⟩ := List.forall_mem_cons.mp hlow
    obtain ⟨hfirst, hapart⟩ := List.pairwise_cons.mp hapart
    have hfilesz := hp.filesz_le
    have hnone : ∀ k < p.memsz, lastBrought img ps (p.paddr + k) = none := fun k hk =>
      lastBrought_none fun q hq => hfirst q hq _ ⟨by omega, by omega⟩
    refine ⟨⟨fun k hk => ?_, fun k _ hk => ?_⟩, ih hfits hlow hapart⟩
    · have hback : p.offset + (p.paddr + k) - p.paddr = p.offset + k := by omega
      rw [lastBrought, hnone k (by omega), if_pos (covers_bytes hk),
        brought_low hp hplow (covers_bytes hk), hback]
      rfl
    · rw [hnone k hk]
      rfl

theorem loadKernel_headers (img : Image) {fuel : Nat} (hfuel : 8 < fuel) {mem : Memory}
    (hboot : load mem (bootrecAddr + 4) 32 = 0) :
    ∃ mem', HeaderAt img.file mem' ∧ loadKernel img fuel mem =
      if eMachine mem' = emX86_64 then loadElf64 img fuel mem' else loadElf32 img fuel mem' := by
  have hargs : ∃ mem', copyFromDisk img fuel mainargAddr 1024 (-1024) mem = some mem' :=
    ⟨_, copyFromDisk_reads (p := ⟨2 ^ 32 - 1024, 0x10000, 1024, 1024⟩)
      ⟨by decide, fun _ => by decide⟩ ((by decide : _ ≤ 8).trans_lt hfuel) mem⟩
  obtain ⟨mem₁, hargs⟩ := hargs
  have helf : copyFromDisk img fuel elfAddr 4096 0 mem₁ =
      some (overlay mem₁ (BitVec.ofNat 32 0x8000) 4096 fun k => img.byte (512 * 3 + k)) :=
    copyFromDisk_reads (p := ⟨0, 0x8000, 4096, 4096⟩)
      ⟨by decide, fun _ => by decide⟩ ((by decide : _ ≤ 8).trans_lt hfuel) mem₁
  refine ⟨overlay mem₁ (BitVec.ofNat 32 0x8000) 4096 fun k => img.byte (512 * 3 + k), ?_, ?_⟩
  · intro k hk
    have hindex : 512 * 3 + (0x8000 + k - 0x8000) - 1536 = k := by omega
    rw [elfBytes_ofNat, overlay_ofNat _ _ (by omega) (by omega), if_pos (by omega), Image.byte,
      if_neg (by omega), hindex]
  · rw [loadKernel, if_pos hboot, hargs]
    dsimp only [bind, Option.bind]
    rw [helf]

/-- The 32-bit file with these program headers behind an ELF header of 52 bytes; the bytes from
8192 on are ones. -/
def demoFile (entries : List (Nat × Byte)) (k : Nat) : Byte :=
  if 8192 ≤ k then 1 else (entries.lookup k).getD 0

/-- Two segments of 16 bytes, side by side in one sector of the file, and 16 bytes of `bss` behind
them. -/
def sharedSector : Image where
  head _ := 0
  file := demoFile [(28, 52), (44, 2), (57, 0x20), (66, 0x10), (68, 0x10), (72, 0x10),
    (88, 0x10), (89, 0x20), (96, 0x10), (98, 0x10), (100, 0x10), (104, 0x20)]

theorem sharedSector_headers :
    elf32.headers sharedSector.file =
      [⟨0x2000, 0x100000, 0x10, 0x10⟩, ⟨0x2010, 0x100010, 0x10, 0x20⟩] := by
  decide +kernel

theorem sharedSector_wellFormed : elf32.WellFormed sharedSector.file where
  inside := by decide +kernel
  fits := by
    rw [sharedSector_headers]
    intro p hp
    rcases List.mem_pair.mp hp with rfl | rfl <;> constructor <;> decide
  disjoint := by
    rw [sharedSector_headers]
    refine List.pairwise_pair.mpr fun a h => ?_
    have hfirst : a < 0x100000 + 0x10 := h.1.2
    have hsecond : 0x100010 ≤ a := h.2.1
    omega

/-- The sector is read twice, and the bytes of the first segment stay what they are. -/
theorem sharedSector_placed : elf32.Places sharedSector (headerMemory sharedSector.file 0) := by
  refine (segments_placed_iff (.inl rfl) sharedSector_wellFormed).mpr ⟨?_, ?_⟩ _
    (headerMemory_headerAt sharedSector.file 0)
  · rw [sharedSector_headers]
    intro p hp
    rcases List.mem_pair.mp hp with rfl | rfl <;> exact ⟨by decide, fun _ => by decide⟩
  · rw [sharedSector_headers]
    refine ⟨⟨by decide +kernel, fun k hlow hhigh => ?_⟩, ⟨by decide +kernel, fun _ _ _ => rfl⟩,
      trivial⟩
    exact absurd hhigh (Nat.not_lt_of_le hlow)

/-- Two segments of 16 bytes, side by side, from different sectors of the file. -/
def twoSegments : Image where
  head _ := 0
  file := demoFile [(28, 52), (44, 2), (57, 0x10), (66, 0x10), (68, 0x10), (72, 0x10),
    (88, 0x10), (89, 0x20), (96, 0x10), (98, 0x10), (100, 0x10), (104, 0x10)]

theorem twoSegments_headers :
    elf32.headers twoSegments.file =
      [⟨0x1000, 0x100000, 0x10, 0x10⟩, ⟨0x2010, 0x100010, 0x10, 0x10⟩] := by
  decide +kernel

theorem twoSegments_wellFormed : elf32.WellFormed twoSegments.file where
  inside := by decide +kernel
  fits := by
    rw [twoSegments_headers]
    intro p hp
    rcases List.mem_pair.mp hp with rfl | rfl <;> constructor <;> decide
  disjoint := by
    rw [twoSegments_headers]
    refine List.pairwise_pair.mpr fun a h => ?_
    have hfirst : a < 0x100000 + 0x10 := h.1.2
    have hsecond : 0x100010 ≤ a := h.2.1
    omega

/-- The sector read for the second segment overwrites the first one. -/
theorem twoSegments_clobbered :
    elf32.WellFormed twoSegments.file ∧
      ¬∀ mem, HeaderAt twoSegments.file mem → elf32.Places twoSegments mem := by
  refine ⟨twoSegments_wellFormed, fun h => ?_⟩
  have hkept := undisturbed_of_places (.inl rfl) twoSegments_wellFormed h
  rw [twoSegments_headers] at hkept
  exact absurd (hkept.1.1 0 (by decide)) (by decide)

end Riscv32Cpu.X86Qemu.Boot
