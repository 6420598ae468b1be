/- module: Riscv32Cpu/NativeDisk/Disk
   source: CODE/abstract-machine/am/src/native/ioe/disk.c
   digest: The native disk: an image file behind the C library's streams. -/

import Riscv32Cpu.Lib.Memory
import Riscv32Cpu.Lib.Rows
import Riscv32Cpu.Lib.Trace

set_option autoImplicit false
set_option relaxedAutoImplicit false

namespace Riscv32Cpu.NativeDisk

open Lib.Memory Lib.Rows Lib.Trace

/-- A file of `size` bytes. What is not in it yet counts as zero. -/
structure File where
  size : Nat
  byte : Nat → Byte
  past_end : ∀ k, size ≤ k → byte k = 0

/-- The file with `n` bytes written at `pos`; a gap before them is filled with zeros. -/
def File.put (f : File) (pos n : Nat) (data : Nat → Byte) : File where
  size := if n = 0 then f.size else max f.size (pos + n)
  byte k := if pos ≤ k ∧ k < pos + n then data (k - pos) else f.byte k
  past_end k hk := by
    split at hk
    · rw [if_neg (by omega)]
      exact f.past_end k hk
    · rw [if_neg (by omega)]
      exact f.past_end k (by omega)

/-- `FILE`. -/
structure Stream where
  file : File
  pos : Nat

/-- `fseek(fp, off, SEEK_SET)`, which leaves the position where a negative offset is asked for. -/
def fseekSet (off : Int) (fp : Stream) : Stream :=
  if off < 0 then fp else { fp with pos := off.toNat }

/-- `fread(buf, size, 1, fp)`: the items and the bytes read. -/
def fread (size : Nat) (fp : Stream) : Nat × List Byte × Stream :=
  let n := min size (fp.file.size - fp.pos)
  (if n = size ∧ size ≠ 0 then 1 else 0, (List.range n).map fun k => fp.file.byte (fp.pos + k),
    { fp with pos := fp.pos + n })

/-- `fwrite(buf, size, 1, fp)`. -/
def fwrite (buf : Nat → Byte) (size : Nat) (fp : Stream) : Nat × Stream :=
  (if size = 0 then 0 else 1, ⟨fp.file.put fp.pos size buf, fp.pos + size⟩)

inductive Stop
  | overflow
  | assert
  deriving DecidableEq

/-- The product of two `int`s. -/
def intMul (a b : Int) : Except Stop Int :=
  if -2 ^ 31 ≤ a * b ∧ a * b < 2 ^ 31 then .ok (a * b) else .error .overflow

/-- An `int` as a `size_t`. -/
def sizeT (n : Int) : Nat := (n % 2 ^ 64).toNat

def blksz : Int := 512

/-- `fp` and `disk_size`. -/
structure Disk where
  fp : Option Stream
  diskSize : Int

/-- `diskimg` is the file of that name, when there is one. -/
def amDiskInit (diskimg : Option File) : Disk :=
  match diskimg with
  | some image => ⟨some ⟨image, 0⟩, (BitVec.ofNat 32 ((image.size + 511) / 512)).toInt⟩
  | none => ⟨none, 0⟩

structure Config where
  present : Bool
  blksz : Int
  blkcnt : Int

def amDiskConfig (d : Disk) : Config := ⟨d.fp.isSome, blksz, d.diskSize⟩

/-- `AM_DISK_BLKIO_T`. -/
structure Blkio where
  write : Bool
  buf : Nat → Byte
  blkno : Int
  blkcnt : Int

/-- The bytes that a read leaves in `io->buf`, and the disk afterwards. -/
def amDiskBlkio (io : Blkio) (d : Disk) : Except Stop (List Byte × Disk) :=
  match d.fp with
  | none => return ([], d)
  | some fp => do
    let fp := fseekSet (← intMul io.blkno blksz) fp
    let size := sizeT (← intMul io.blkcnt blksz)
    if io.write then
      let (ret, fp) := fwrite io.buf size fp
      if ret = 1 then return ([], { d with fp := some fp }) else throw .assert
    else
      let (ret, bytes, fp) := fread size fp
      if ret = 1 then return (bytes, { d with fp := some fp }) else throw .assert

/-- What a list of requests is answered. -/
def runIo : List Blkio → Disk → Except Stop (List (List Byte))
  | [], _ => return []
  | io :: ios, d => do
    let (bytes, d) ← amDiskBlkio io d
    return bytes :: (← runIo ios d)

def step (io : Blkio) (d : Disk) : Option Disk :=
  match amDiskBlkio io d with
  | .ok (_, d) => some d
  | .error _ => none

/-- The request lies in what `__am_disk_config` reports. -/
def Blkio.Advertised (io : Blkio) (image : File) : Prop :=
  0 ≤ io.blkno ∧ 0 < io.blkcnt ∧
    io.blkno + io.blkcnt ≤ (amDiskConfig (amDiskInit (some image))).blkcnt

/-- What a request writes to block `b`, when it writes to it. -/
def Blkio.wrote (b : Nat) (io : Blkio) : Option (Nat → Byte) :=
  if io.write ∧ io.blkno ≤ b ∧ b < io.blkno + io.blkcnt then
    some fun k => io.buf (512 * (b - io.blkno.toNat) + k)
  else none

/-- Block `b` after some requests: the data of the last write to it, or else the image's. -/
def block (image : File) (past : List Blkio) (b : Nat) : Nat → Byte :=
  (past.reverse.findSome? (Blkio.wrote b)).getD fun k => image.byte (512 * b + k)

/-- What a request should be answered after some others. -/
def answer (image : File) (past : List Blkio) (io : Blkio) : List Byte :=
  if io.write then []
  else (List.range io.blkcnt.toNat).flatMap fun i =>
    (List.range 512).map (block image past (io.blkno.toNat + i))

/-- What the requests should be answered. -/
def expected (image : File) : List Blkio → List Blkio → List (List Byte)
  | _, [] => []
  | past, io :: ios => answer image past io :: expected image (past ++ [io]) ios

/-- No assertion fails and nothing overflows, and every read is answered with its blocks. -/
def Served (image : File) (ios : List Blkio) : Prop :=
  runIo ios (amDiskInit (some image)) = .ok (expected image [] ios)

/-- Offset and length of the request are below 2 GiB, and a read ends in the file as it is. -/
def Fits (io : Blkio) (d : Disk) : Prop :=
  io.blkno < 2 ^ 22 ∧ io.blkcnt < 2 ^ 22 ∧
    (io.write = false → ∀ fp ∈ d.fp, 512 * (io.blkno + io.blkcnt) ≤ fp.file.size)

/-- The disk is open, and its file holds the blocks as the requests so far leave them. -/
def Holds (image : File) (past : List Blkio) (d : Disk) : Prop :=
  ∃ fp, d.fp = some fp ∧ ∀ b k, k < 512 → fp.file.byte (512 * b + k) = block image past b k

theorem holds_init (image : File) : Holds image [] (amDiskInit (some image)) :=
  ⟨⟨image, 0⟩, rfl, fun _ _ _ => rfl⟩

theorem block_append (image : File) (past : List Blkio) (io : Blkio) (b : Nat) :
    block image (past ++ [io]) b = (io.wrote b).getD (block image past b) := by
  rw [block, List.reverse_append, List.reverse_singleton, List.singleton_append,
    List.findSome?_cons]
  cases io.wrote b <;> rfl

theorem intMul_blksz {n : Int} (hlow : 0 ≤ n) (hhigh : n < 2 ^ 22) :
    intMul n blksz = .ok (512 * n) := by
  have hcomm : n * blksz = 512 * n := Int.mul_comm ..
  rw [intMul, hcomm, if_pos (by omega)]

theorem intMul_blksz_overflow {n : Int} (h : 2 ^ 22 ≤ n) :
    intMul n blksz = .error .overflow := by
  have hcomm : n * blksz = 512 * n := Int.mul_comm ..
  rw [intMul, hcomm, if_neg (by omega)]

theorem amDiskBlkio_small {io : Blkio} {d : Disk} {fp : Stream} (hfp : d.fp = some fp)
    (hno : 0 ≤ io.blkno) (hcnt : 0 ≤ io.blkcnt) (hno' : io.blkno < 2 ^ 22)
    (hcnt' : io.blkcnt < 2 ^ 22) :
    amDiskBlkio io d =
      let fp : Stream := { fp with pos := 512 * io.blkno.toNat }
      let size := 512 * io.blkcnt.toNat
      if io.write then
        let (ret, fp) := fwrite io.buf size fp
        if ret = 1 then .ok ([], { d with fp := some fp }) else .error .assert
      else
        let (ret, bytes, fp) := fread size fp
        if ret = 1 then .ok (bytes, { d with fp := some fp }) else .error .assert := by
  have hseek : fseekSet (512 * io.blkno) fp = { fp with pos := 512 * io.blkno.toNat } := by
    rw [fseekSet, if_neg (by omega)]
    congr 1
    omega
  have hsize : sizeT (512 * io.blkcnt) = 512 * io.blkcnt.toNat := by
    rw [sizeT]
    omega
  unfold amDiskBlkio
  rw [hfp, intMul_blksz hno hno', intMul_blksz hcnt hcnt']
  dsimp only [bind, Except.bind]
  rw [hseek, hsize]
  rfl

theorem amDiskBlkio_write {io : Blkio} {d : Disk} {fp : Stream} (hfp : d.fp = some fp)
    (hwrite : io.write = true) (hno : 0 ≤ io.blkno) (hcnt : 0 < io.blkcnt)
    (hno' : io.blkno < 2 ^ 22) (hcnt' : io.blkcnt < 2 ^ 22) :
    amDiskBlkio io d = .ok ([], { d with
      fp := some ⟨fp.file.put (512 * io.blkno.toNat) (512 * io.blkcnt.toNat) io.buf,
        512 * io.blkno.toNat + 512 * io.blkcnt.toNat⟩ }) := by
  have hpos : ¬512 * io.blkcnt.toNat = 0 := by omega
  rw [amDiskBlkio_small hfp hno hcnt.le hno' hcnt']
  dsimp only [fwrite]
  rw [if_pos hwrite, if_neg hpos, if_pos rfl]

theorem amDiskBlkio_read {io : Blkio} {d : Disk} {fp : Stream} (hfp : d.fp = some fp)
    (hread : ¬io.write = true) (hno : 0 ≤ io.blkno) (hcnt : 0 < io.blkcnt)
    (hno' : io.blkno < 2 ^ 22) (hcnt' : io.blkcnt < 2 ^ 22) :
    amDiskBlkio io d =
      if 512 * (io.blkno + io.blkcnt) ≤ fp.file.size then
        .ok ((List.range (512 * io.blkcnt.toNat)).map fun k =>
            fp.file.byte (512 * io.blkno.toNat + k),
          { d with fp := some ⟨fp.file, 512 * io.blkno.toNat + 512 * io.blkcnt.toNat⟩ })
      else .error .assert := by
  rw [amDiskBlkio_small hfp hno hcnt.le hno' hcnt']
  dsimp only [fread]
  rw [if_neg hread]
  by_cases hsize : 512 * (io.blkno + io.blkcnt) ≤ fp.file.size
  · have hall : min (512 * io.blkcnt.toNat) (fp.file.size - 512 * io.blkno.toNat) =
        512 * io.blkcnt.toNat := by omega
    have hone : 512 * io.blkcnt.toNat = 512 * io.blkcnt.toNat ∧ 512 * io.blkcnt.toNat ≠ 0 :=
      ⟨rfl, by omega⟩
    rw [if_pos hsize, hall, if_pos hone, if_pos rfl]
  · have hfew : ¬(min (512 * io.blkcnt.toNat) (fp.file.size - 512 * io.blkno.toNat) =
        512 * io.blkcnt.toNat ∧ 512 * io.blkcnt.toNat ≠ 0) := by omega
    rw [if_neg hsize, if_neg hfew, if_neg Nat.zero_ne_one]

theorem put_block {io : Blkio} (hwrite : io.write = true) (hno : 0 ≤ io.blkno) (f : File)
    {b k : Nat} (hk : k < 512) :
    (f.put (512 * io.blkno.toNat) (512 * io.blkcnt.toNat) io.buf).byte (512 * b + k) =
      (io.wrote b).elim (f.byte (512 * b + k)) fun data => data k := by
  by_cases hb : io.blkno ≤ b ∧ b < io.blkno + io.blkcnt
  · have hpos : 512 * b + k - 512 * io.blkno.toNat = 512 * (b - io.blkno.toNat) + k := by omega
    rw [Blkio.wrote, if_pos ⟨hwrite, hb⟩, File.put]
    dsimp only
    rw [if_pos (by omega), hpos]
    rfl
  · rw [Blkio.wrote, if_neg fun h => hb h.2, File.put]
    dsimp only
    rw [if_neg (by omega)]
    rfl

theorem amDiskBlkio_fits {image : File} {past : List Blkio} {io : Blkio} {d : Disk}
    (hio : io.Advertised image) (hd : Holds image past d) (hfits : Fits io d) :
    ∃ d', amDiskBlkio io d = .ok (answer image past io, d') ∧ Holds image (past ++ [io]) d' := by
  obtain ⟨fp, hfp, hbytes⟩ := hd
  obtain ⟨hno, hcnt, -⟩ := hio
  obtain ⟨hno', hcnt', hread⟩ := hfits
  by_cases hwrite : io.write = true
  · rw [amDiskBlkio_write hfp hwrite hno hcnt hno' hcnt', answer, if_pos hwrite]
    refine ⟨_, rfl, _, rfl, fun b k hk => ?_⟩
    dsimp only
    rw [put_block hwrite hno fp.file hk, block_append]
    cases io.wrote b with
    | none => exact hbytes b k hk
    | some data => rfl
  · have hsize : 512 * (io.blkno + io.blkcnt) ≤ fp.file.size :=
      hread (Bool.eq_false_iff.mpr hwrite) fp hfp
    have hanswer : ((List.range (512 * io.blkcnt.toNat)).map fun k =>
        fp.file.byte (512 * io.blkno.toNat + k)) = answer image past io := by
      rw [answer, if_neg hwrite, Nat.mul_comm 512 io.blkcnt.toNat, map_range_mul]
      refine congrArg (List.flatMap · _) (funext fun i => List.map_congr_left fun k hk => ?_)
      rw [← hbytes _ k (List.mem_range.mp hk)]
      congr 1
      omega
    rw [amDiskBlkio_read hfp hwrite hno hcnt hno' hcnt', if_pos hsize, hanswer]
    refine ⟨_, rfl, _, rfl, fun b k hk => ?_⟩
    have hnone : io.wrote b = none := if_neg fun h => hwrite h.1
    rw [block_append, hnone]
    exact hbytes b k hk

theorem amDiskBlkio_stops {image : File} {past : List Blkio} {io : Blkio} {d : Disk}
    (hio : io.Advertised image) (hd : Holds image past d) (hfits : ¬Fits io d) :
    ∃ stop, amDiskBlkio io d = .error stop := by
  obtain ⟨fp, hfp, -⟩ := hd
  obtain ⟨hno, hcnt, -⟩ := hio
  by_cases hno' : io.blkno < 2 ^ 22
  · by_cases hcnt' : io.blkcnt < 2 ^ 22
    · have hread : ¬io.write = true ∧ ¬512 * (io.blkno + io.blkcnt) ≤ fp.file.size := by
        constructor
        · intro hwrite
          exact hfits ⟨hno', hcnt', fun h => absurd (hwrite.symm.trans h) (by decide)⟩
        · intro hsize
          refine hfits ⟨hno', hcnt', fun _ f hf => ?_⟩
          rw [hfp] at hf
          cases hf
          exact hsize
      refine ⟨.assert, ?_⟩
      rw [amDiskBlkio_read hfp hread.1 hno hcnt hno' hcnt', if_neg hread.2]
    · refine ⟨.overflow, ?_⟩
      unfold amDiskBlkio
      rw [hfp, intMul_blksz hno hno', intMul_blksz_overflow (by omega)]
      rfl
  · refine ⟨.overflow, ?_⟩
    unfold amDiskBlkio
    rw [hfp, intMul_blksz_overflow (by omega)]
    rfl

theorem step_eq_some {io : Blkio} {d d' : Disk} {bytes : List Byte}
    (h : amDiskBlkio io d = .ok (bytes, d')) : step io d = some d' := by
  rw [step, h]

theorem runIo_cons {io : Blkio} {ios : List Blkio} {d d' : Disk} {bytes : List Byte}
    (h : amDiskBlkio io d = .ok (bytes, d')) (rest : List (List Byte)) :
    runIo (io :: ios) d = .ok (bytes :: rest) ↔ runIo ios d' = .ok rest := by
  have hrun : runIo (io :: ios) d = (runIo ios d').map (bytes :: ·) := by
    rw [runIo, h]
    rfl
  rw [hrun]
  cases runIo ios d' with
  | error stop =>
    refine iff_of_false (fun h => ?_) fun h => ?_
    · cases h
    · cases h
  | ok rest' => simp [Except.map]

theorem runIo_iff_fits {image : File} {past ios : List Blkio} {d : Disk}
    (hios : ∀ io ∈ ios, io.Advertised image) (hd : Holds image past d) :
    runIo ios d = .ok (expected image past ios) ↔ Along step Fits ios d := by
  induction ios generalizing past d with
  | nil => exact iff_of_true rfl trivial
  | cons io ios ih =>
    have hio := hios io (List.mem_cons_self ..)
    have hrest : ∀ io ∈ ios, io.Advertised image := fun _ h => hios _ (List.mem_cons_of_mem _ h)
    rw [expected]
    by_cases hfits : Fits io d
    · obtain ⟨d', hrun, hd'⟩ := amDiskBlkio_fits hio hd hfits
      rw [runIo_cons hrun, along_cons_iff (step_eq_some hrun), ih hrest hd']
      exact (and_iff_right hfits).symm
    · obtain ⟨stop, hrun⟩ := amDiskBlkio_stops hio hd hfits
      refine iff_of_false (fun h => ?_) fun h => hfits h.1
      rw [runIo, hrun] at h
      cases h

/-- Requests for advertised blocks are served, from the start, exactly as long as they fit. -/
theorem advertised_served_iff {image : File} {ios : List Blkio}
    (hios : ∀ io ∈ ios, io.Advertised image) :
    Served image ios ↔ Along step Fits ios (amDiskInit (some image)) :=
  runIo_iff_fits hios (holds_init image)

theorem advertised_whole {image : File} {io : Blkio} (hio : io.Advertised image)
    (hwhole : image.size % 512 = 0) (hsmall : image.size < 2 ^ 31) :
    512 * (io.blkno + io.blkcnt) ≤ image.size := by
  obtain ⟨-, -, hlast⟩ := hio
  have hlt : (image.size + 511) / 512 < 2 ^ 31 := by omega
  have hcnt :
      (amDiskConfig (amDiskInit (some image))).blkcnt = ((image.size + 511) / 512 : Nat) := by
    show (BitVec.ofNat 32 ((image.size + 511) / 512)).toInt = _
    rw [BitVec.toInt_ofNat', Int.bmod_eq_of_le (by omega) (by omega)]
  omega

theorem size_le_of_step {image : File} {io : Blkio} {d d' : Disk} {fp : Stream}
    (hio : io.Advertised image) (hfits : Fits io d) (hfp : d.fp = some fp)
    (hstep : step io d = some d') : ∃ fp', d'.fp = some fp' ∧ fp.file.size ≤ fp'.file.size := by
  obtain ⟨hno, hcnt, -⟩ := hio
  obtain ⟨hno', hcnt', hread⟩ := hfits
  by_cases hwrite : io.write = true
  · rw [step, amDiskBlkio_write hfp hwrite hno hcnt hno' hcnt'] at hstep
    cases hstep
    refine ⟨_, rfl, ?_⟩
    dsimp only [File.put]
    rw [if_neg (by omega)]
    exact Nat.le_max_left ..
  · rw [step, amDiskBlkio_read hfp hwrite hno hcnt hno' hcnt',
      if_pos (hread (Bool.eq_false_iff.mpr hwrite) fp hfp)] at hstep
    cases hstep
    exact ⟨_, rfl, le_rfl⟩

theorem whole_blocks_served {image : File} (hwhole : image.size % 512 = 0)
    (hsmall : image.size < 2 ^ 31) {ios : List Blkio} (hios : ∀ io ∈ ios, io.Advertised image) :
    Served image ios := by
  refine (runIo_iff_fits hios (holds_init image)).mpr ?_
  have hfits : ∀ io ∈ ios, ∀ d : Disk,
      (∃ fp, d.fp = some fp ∧ image.size ≤ fp.file.size) → Fits io d := by
    rintro io hio d ⟨fp, hfp, hsize⟩
    have hend := advertised_whole (hios io hio) hwhole hsmall
    obtain ⟨hno, hcnt, -⟩ := hios io hio
    refine ⟨by omega, by omega, fun _ f hf => ?_⟩
    cases hfp.symm.trans hf
    omega
  refine along_of_invariant hfits ?_ ⟨⟨image, 0⟩, rfl, le_rfl⟩
  rintro io hio d d' ⟨fp, hfp, hsize⟩ hstep
  obtain ⟨fp', hfp', hle⟩ :=
    size_le_of_step (hios io hio) (hfits io hio d ⟨fp, hfp, hsize⟩) hfp hstep
  exact ⟨fp', hfp', hsize.trans hle⟩

def zeros (size : Nat) : File := ⟨size, fun _ => 0, fun _ _ => rfl⟩

def firstBlock (write : Bool) : Blkio := ⟨write, fun _ => 7, 0, 1⟩

theorem firstBlock_advertised (write : Bool) : (firstBlock write).Advertised (zeros 100) := by
  cases write <;> exact ⟨by decide, by decide, by decide⟩

/-- The block of an image of 100 bytes can be read once it has been written. -/
theorem written_block_served : Served (zeros 100) [firstBlock true, firstBlock false] := by
  refine (advertised_served_iff fun io hio => ?_).mpr ?_
  · rcases List.mem_pair.mp hio with rfl | rfl <;> exact firstBlock_advertised _
  · refine ⟨⟨by decide, by decide, fun h => nomatch h⟩, ⟨by decide, by decide, ?_⟩, trivial⟩
    rintro _ fp ⟨⟩
    decide

/-- The one block of an image of 100 bytes is advertised, and reading it fails the assertion. -/
theorem partial_block_unreadable :
    (∀ io ∈ [firstBlock false], io.Advertised (zeros 100)) ∧
      runIo [firstBlock false] (amDiskInit (some (zeros 100))) = .error .assert ∧
      ¬Served (zeros 100) [firstBlock false] := by
  have hrun : runIo [firstBlock false] (amDiskInit (some (zeros 100))) = .error .assert := by
    rfl
  refine ⟨?_, hrun, fun h => ?_⟩
  · intro io hio
    rw [List.mem_singleton.mp hio]
    exact firstBlock_advertised false
  · rw [Served, hrun] at h
    cases h

end Riscv32Cpu.NativeDisk
