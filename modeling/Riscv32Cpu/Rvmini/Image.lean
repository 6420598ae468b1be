/- module: Riscv32Cpu/Rvmini/Image
   source: CODE/abstract-machine/tools/rvmini/inst-replace.h
   digest: The read-only section as the header lays it out is a linked image. -/

import Riscv32Cpu.Rvmini.Meaning

set_option autoImplicit false
set_option relaxedAutoImplicit false

namespace Riscv32Cpu.Rvmini.Image

open Riscv32Cpu.Lib.Memory Riscv32Cpu.Lib.Run Riscv32Cpu.Isa.Rv32i Riscv32Cpu.Rvmini.Scratch
open Riscv32Cpu.Rvmini.Tables Riscv32Cpu.Rvmini.Meaning
open Riscv32Cpu.Rvmini.Macros (RegName Symbols)

/-- The section from `_check_same_array` on; `.align 8` pads to a multiple of 256. -/
def rodata : List Byte :=
  List.replicate 256 0 ++ sameResultBytes ++ check8bit0Bytes ++ slt1Bytes ++ sltu1Bytes ++
    or1Bytes ++ List.replicate 228 0 ++ lutBin

def symbolsAt (base : Word) : Symbols where
  checkSameArray := base
  sameResultTable := base + BitVec.ofNat 32 256
  check8bit0Table := base + BitVec.ofNat 32 264
  slt1Table := base + BitVec.ofNat 32 520
  sltu1Table := base + BitVec.ofNat 32 528
  or1Table := base + BitVec.ofNat 32 536
  logicShiftTable := base + BitVec.ofNat 32 768

theorem length_check8bit0Bytes : check8bit0Bytes.length = 256 := by
  rw [check8bit0Bytes, List.length_cons, List.length_replicate]

theorem length_rodata : rodata.length = 295680 := by
  simp only [rodata, List.length_append, List.length_replicate, length_check8bit0Bytes,
    length_lutBin]
  rfl

variable {v base : Word} {m : Mem 32}

theorem At.slice (pre t post : List Byte) (h : At v m base (pre ++ t ++ post)) {n : Nat}
    (hn : pre.length = n) : At v m (base + BitVec.ofNat 32 n) t := by
  intro k hk
  have hat := h (n + k) (by simp only [List.length_append]; omega)
  rw [BitVec.add_assoc, ← BitVec.ofNat_add]
  refine ⟨hat.1, hat.2.trans ?_⟩
  rw [List.append_assoc, List.getD_append_right _ _ _ _ (by omega), hn, Nat.add_sub_cancel_left,
    List.getD_append _ _ _ _ hk]

theorem linked_of_rodata (h : At v m base rodata) : Linked (symbolsAt base) v m where
  sameResult := At.slice (List.replicate 256 0) sameResultBytes
    (check8bit0Bytes ++ slt1Bytes ++ sltu1Bytes ++ or1Bytes ++ List.replicate 228 0 ++ lutBin)
    (by simpa only [rodata, List.append_assoc] using h) (List.length_replicate ..)
  check8bit0 := At.slice (List.replicate 256 0 ++ sameResultBytes) check8bit0Bytes
    (slt1Bytes ++ sltu1Bytes ++ or1Bytes ++ List.replicate 228 0 ++ lutBin)
    (by simpa only [rodata, List.append_assoc] using h)
    (by rw [List.length_append, List.length_replicate]; rfl)
  slt1 := At.slice (List.replicate 256 0 ++ sameResultBytes ++ check8bit0Bytes)
    slt1Bytes (sltu1Bytes ++ or1Bytes ++ List.replicate 228 0 ++ lutBin)
    (by simpa only [rodata, List.append_assoc] using h)
    (by simp only [List.length_append, List.length_replicate, length_check8bit0Bytes]; rfl)
  sltu1 := At.slice (List.replicate 256 0 ++ sameResultBytes ++ check8bit0Bytes ++ slt1Bytes)
    sltu1Bytes (or1Bytes ++ List.replicate 228 0 ++ lutBin)
    (by simpa only [rodata, List.append_assoc] using h)
    (by simp only [List.length_append, List.length_replicate, length_check8bit0Bytes]; rfl)
  or1 := At.slice
    (List.replicate 256 0 ++ sameResultBytes ++ check8bit0Bytes ++ slt1Bytes ++ sltu1Bytes)
    or1Bytes (List.replicate 228 0 ++ lutBin)
    (by simpa only [rodata, List.append_assoc] using h)
    (by simp only [List.length_append, List.length_replicate, length_check8bit0Bytes]; rfl)
  lut := At.slice
    (List.replicate 256 0 ++ sameResultBytes ++ check8bit0Bytes ++ slt1Bytes ++ sltu1Bytes ++
      or1Bytes ++ List.replicate 228 0)
    lutBin []
    (by simpa only [rodata, List.append_nil] using h)
    (by simp only [List.length_append, List.length_replicate, length_check8bit0Bytes]; rfl)
  checkSame := fun k hk => (h k (by rw [length_rodata]; omega)).1
  checkSame_apart := by
    intro j hj k hk heq
    rw [symbolsAt, BitVec.add_assoc, ← BitVec.ofNat_add, add_right_inj, ← BitVec.toNat_inj,
      BitVec.toNat_ofNat, BitVec.toNat_ofNat] at heq
    omega

/-- A memory that holds the section at `base` and zeros elsewhere. -/
def imageMem (base : Word) : Mem 32 :=
  overlay (fun _ => 0) base rodata.length fun k => rodata.getD k 0

theorem linked_imageMem
    (hclear : ∀ k < 295680, ¬InScratch v (base + BitVec.ofNat 32 k)) :
    Linked (symbolsAt base) v (imageMem base) := by
  refine linked_of_rodata fun k hk => ⟨hclear k (by rw [← length_rodata]; exact hk), ?_⟩
  exact overlay_in _ _ _ hk (by rw [length_rodata]; decide)

theorem imageMem_out {a : Word} (h : ¬(a - base).toNat < 295680) : imageMem base a = 0 := by
  rw [← length_rodata] at h
  exact overlay_out (fun _ => 0) _ h

/-- The instructions `is` from `pc` on, and nothing else. -/
def codeAt (pc : Word) (is : List Inst) : Code := fun a => is[(a - pc).toNat / 4]?

theorem placed_codeAt {pc : Word} {is : List Inst} (h : 4 * is.length < 2 ^ 32) :
    Placed (codeAt pc is) pc is := by
  have hsuffix : ∀ (pre rest : List Inst), is = pre ++ rest →
      Placed (codeAt pc is) (after pc pre.length) rest := by
    intro pre rest
    induction rest generalizing pre with
    | nil => exact fun _ => trivial
    | cons i rest ih =>
      intro his
      have hlen : is.length = pre.length + (rest.length + 1) := by
        rw [his, List.length_append, List.length_cons]
      refine ⟨?_, ?_⟩
      · rw [codeAt, after, toNat_add_sub pc (by omega), Nat.mul_div_cancel_left _ (by decide), his,
          List.getElem?_append_right (Nat.le_refl _), Nat.sub_self, List.getElem?_cons_zero]
      · have hnext := ih (pre ++ [i]) (by rw [his, List.append_assoc]; rfl)
        have haddr : after pc pre.length + 4 = after pc (pre ++ [i]).length := by
          rw [List.length_append, after, after, List.length_singleton, Nat.mul_add,
            BitVec.ofNat_add, ← BitVec.add_assoc]
          rfl
        rw [haddr]
        exact hnext
  have h0 := hsuffix [] is rfl
  rwa [List.length_nil, after_zero] at h0

def zeroRegs : RegFile := ⟨fun _ => 0, rfl⟩

def sectionBase : Word := 0x80100000#32
def stackTop : Word := 0x80200000#32

theorem section_clear {k : Nat} (hk : k < 295680) :
    ¬InScratch stackTop (sectionBase + BitVec.ofNat 32 k) := by
  have hscratch : (stackTop - 28).toNat = 2149580772 := by decide
  have hbase : sectionBase.toNat = 2148532224 := by decide
  have hoff : (sectionBase + BitVec.ofNat 32 k - (stackTop - 28)).toNat = 4293918748 + k := by
    rw [BitVec.toNat_sub, hscratch, BitVec.toNat_add, BitVec.toNat_ofNat, hbase]
    omega
  rw [InScratch, scratchBase, hoff]
  omega

/-- A hart about to run the code at `0x80000000`, with its stack above the section. -/
def hartWith (a0 a1 : Word) : State where
  x := ((zeroRegs.set 2 stackTop).set 10 a0).set 11 a1
  mem := imageMem sectionBase
  pc := 0x80000000#32

theorem hartWith_linked (a0 a1 : Word) :
    Linked (symbolsAt sectionBase) ((hartWith a0 a1).x 2) (hartWith a0 a1).mem := by
  have hsp : (hartWith a0 a1).x 2 = stackTop := by
    simp [hartWith, RegFile.get_set]
  have hmem : (hartWith a0 a1).mem = imageMem sectionBase := by
    unfold hartWith
    dsimp only
  rw [hsp, hmem]
  exact linked_imageMem fun k hk => section_clear hk

end Riscv32Cpu.Rvmini.Image
