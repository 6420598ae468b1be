/- module: Riscv32Cpu/Rvmini/Tables
   source: CODE/abstract-machine/tools/rvmini/gen-lut.c, inst-replace.h
   digest: The read-only tables: their bytes, their places, and what a lookup returns. -/

import Riscv32Cpu.Lib.Rows
import Riscv32Cpu.Rvmini.Scratch

set_option autoImplicit false
set_option relaxedAutoImplicit false

namespace Riscv32Cpu.Rvmini.Tables

open Riscv32Cpu.Lib.Memory Riscv32Cpu.Lib.Rows Riscv32Cpu.Isa.Rv32i Riscv32Cpu.Rvmini.Scratch
open Riscv32Cpu.Rvmini.Macros (Symbols)

/-- The bytes one `gen_table` loop writes. -/
def genTable (row col entrySize : Nat) (expr : Nat → Nat → Word) : List Byte :=
  (List.range row).flatMap fun j => (List.range col).flatMap fun i =>
    (List.range entrySize).map (byteAt (expr j i))

def and8 (j i : Nat) : Word := BitVec.ofNat 32 j &&& BitVec.ofNat 32 i
def or8 (j i : Nat) : Word := BitVec.ofNat 32 j ||| BitVec.ofNat 32 i
def xor8 (j i : Nat) : Word := BitVec.ofNat 32 j ^^^ BitVec.ofNat 32 i
def sll8 (j i : Nat) : Word := BitVec.ofNat 32 i <<< j
def srl8 (j i : Nat) : Word := (BitVec.ofNat 32 i <<< 24) >>> j
def sra8 (j i : Nat) : Word := (BitVec.ofNat 32 i <<< 24).sshiftRight j

/-- `lut.bin`. -/
def lutBin : List Byte :=
  genTable 256 256 1 and8 ++ genTable 256 256 1 or8 ++ genTable 256 256 1 xor8 ++
    genTable 32 256 4 sll8 ++ genTable 32 256 4 srl8 ++ genTable 32 256 4 sra8

theorem length_genTable (row col entrySize : Nat) (expr : Nat → Nat → Word) :
    (genTable row col entrySize expr).length = row * (col * entrySize) := by
  refine length_flatMap_range _ _ fun j => ?_
  exact length_flatMap_range _ _ fun i => by simp

theorem getElem?_genTable {row col entrySize j i b : Nat} (expr : Nat → Nat → Word)
    (hj : j < row) (hi : i < col) (hb : b < entrySize) :
    (genTable row col entrySize expr)[j * (col * entrySize) + (i * entrySize + b)]? =
      some (byteAt (expr j i) b) := by
  have hlt : i * entrySize + b < col * entrySize := by
    calc i * entrySize + b < i * entrySize + entrySize := by omega
      _ = (i + 1) * entrySize := by rw [Nat.succ_mul]
      _ ≤ col * entrySize := Nat.mul_le_mul_right _ hi
  have hrow : ∀ j, ((List.range col).flatMap fun i =>
      (List.range entrySize).map (byteAt (expr j i))).length = col * entrySize :=
    fun j => length_flatMap_range _ _ fun i => by simp
  rw [genTable, getElem?_flatMap_range _ hrow hj hlt,
    getElem?_flatMap_range _ (fun i => by simp) hi hb]
  simp [hb]

theorem length_lutBin : lutBin.length = 294912 := by
  simp only [lutBin, List.length_append, length_genTable]

/-- Byte `k` of `lut.bin`. -/
def lutByte (k : Nat) : Byte := lutBin.getD k 0

/-- The table stands in `lut.bin` from byte `o` on. -/
def InLut (o : Nat) (tab : List Byte) : Prop :=
  ∃ pre post, lutBin = pre ++ tab ++ post ∧ pre.length = o

theorem lut_layout :
    InLut 0 (genTable 256 256 1 and8) ∧ InLut 65536 (genTable 256 256 1 or8) ∧
      InLut 131072 (genTable 256 256 1 xor8) ∧ InLut 196608 (genTable 32 256 4 sll8) ∧
      InLut 229376 (genTable 32 256 4 srl8) ∧ InLut 262144 (genTable 32 256 4 sra8) := by
  let bytes := genTable 256 256 1
  let words := genTable 32 256 4
  refine ⟨⟨[], bytes or8 ++ bytes xor8 ++ words sll8 ++ words srl8 ++ words sra8, ?_⟩,
    ⟨bytes and8, bytes xor8 ++ words sll8 ++ words srl8 ++ words sra8, ?_⟩,
    ⟨bytes and8 ++ bytes or8, words sll8 ++ words srl8 ++ words sra8, ?_⟩,
    ⟨bytes and8 ++ bytes or8 ++ bytes xor8, words srl8 ++ words sra8, ?_⟩,
    ⟨bytes and8 ++ bytes or8 ++ bytes xor8 ++ words sll8, words sra8, ?_⟩,
    ⟨bytes and8 ++ bytes or8 ++ bytes xor8 ++ words sll8 ++ words srl8, [], ?_⟩⟩
  all_goals
    simp only [lutBin, bytes, words, List.nil_append, List.append_nil, List.append_assoc,
      List.length_append, List.length_nil, length_genTable, true_and]

theorem lutByte_of_inLut {o k : Nat} {tab : List Byte} {x : Byte} (h : InLut o tab)
    (hk : tab[k]? = some x) : lutByte (o + k) = x := by
  obtain ⟨pre, post, hsplit, rfl⟩ := h
  have hlt : k < tab.length := by
    rw [List.getElem?_eq_some_iff] at hk
    exact hk.1
  rw [lutByte, List.getD_eq_getElem?_getD, hsplit, List.append_assoc,
    List.getElem?_append_right (by omega), Nat.add_sub_cancel_left,
    List.getElem?_append_left hlt, hk, Option.getD_some]

theorem lutByte_bytes {o : Nat} {expr : Nat → Nat → Word} (h : InLut o (genTable 256 256 1 expr))
    {j i : Nat} (hj : j < 256) (hi : i < 256) :
    lutByte (o + (j * 256 + i)) = byteAt (expr j i) 0 := by
  have hentry := lutByte_of_inLut h (getElem?_genTable expr hj hi Nat.zero_lt_one)
  simpa only [Nat.mul_one, Nat.add_zero] using hentry

theorem lutByte_words {o : Nat} {expr : Nat → Nat → Word} (h : InLut o (genTable 32 256 4 expr))
    {j i b : Nat} (hj : j < 32) (hi : i < 256) (hb : b < 4) :
    lutByte (o + (j * 1024 + (i * 4 + b))) = byteAt (expr j i) b :=
  lutByte_of_inLut h (getElem?_genTable expr hj hi hb)

def sameResultBytes : List Byte := [1, 0, 0, 0, 0, 0, 0, 0]
def check8bit0Bytes : List Byte := 0 :: List.replicate 255 1
def slt1Bytes : List Byte := [0, 1, 0, 0, 1, 1, 0, 1]
def sltu1Bytes : List Byte := [0, 1, 1, 1, 0, 0, 0, 1]
def or1Bytes : List Byte := [0, 1, 1, 1]

/-- The bytes `t` stand at `base`, clear of the scratch words of `sp = v`. -/
def At (v : Word) (m : Mem 32) (base : Word) (t : List Byte) : Prop :=
  ∀ k < t.length, ¬InScratch v (base + BitVec.ofNat 32 k) ∧
    m (base + BitVec.ofNat 32 k) = t.getD k 0

/-- A linked image: every table where its symbol says, the scratch words apart from all of
them, and the array `seq` writes apart from the table it reads last. -/
structure Linked (sym : Symbols) (v : Word) (m : Mem 32) : Prop where
  sameResult : At v m sym.sameResultTable sameResultBytes
  check8bit0 : At v m sym.check8bit0Table check8bit0Bytes
  slt1 : At v m sym.slt1Table slt1Bytes
  sltu1 : At v m sym.sltu1Table sltu1Bytes
  or1 : At v m sym.or1Table or1Bytes
  lut : At v m sym.logicShiftTable lutBin
  checkSame : ∀ k < 256, ¬InScratch v (sym.checkSameArray + BitVec.ofNat 32 k)
  checkSame_apart : ∀ j < 256, ∀ k < 8,
    sym.checkSameArray + BitVec.ofNat 32 j ≠ sym.sameResultTable + BitVec.ofNat 32 k

variable {sym : Symbols} {v : Word} {m : Mem 32}

theorem or8Table_eq : sym.or8Table = sym.logicShiftTable + BitVec.ofNat 32 65536 := rfl

theorem xor8Table_eq : sym.xor8Table = sym.logicShiftTable + BitVec.ofNat 32 131072 := by
  rw [Symbols.xor8Table, or8Table_eq, BitVec.add_assoc]
  rfl

theorem sll8Table_eq : sym.sll8Table = sym.logicShiftTable + BitVec.ofNat 32 196608 := by
  rw [Symbols.sll8Table, xor8Table_eq, BitVec.add_assoc]
  rfl

theorem srl8Table_eq : sym.srl8Table = sym.logicShiftTable + BitVec.ofNat 32 229376 := by
  rw [Symbols.srl8Table, sll8Table_eq, BitVec.add_assoc]
  rfl

theorem sra8Table_eq : sym.sra8Table = sym.logicShiftTable + BitVec.ofNat 32 262144 := by
  rw [Symbols.sra8Table, srl8Table_eq, BitVec.add_assoc]
  rfl

/-- A byte table reads `op j i` at `256 * j + i`. -/
def ByteTable (v : Word) (m : Mem 32) (base : Word) (op : Nat → Nat → Word) : Prop :=
  ∀ j < 256, ∀ i < 256, ¬InScratch v (base + BitVec.ofNat 32 (j * 256 + i)) ∧
    m (base + BitVec.ofNat 32 (j * 256 + i)) = byteAt (op j i) 0

/-- A word table reads `op j i` at `1024 * j + 4 * i`. -/
def WordTable (v : Word) (m : Mem 32) (base : Word) (op : Nat → Nat → Word) : Prop :=
  ∀ j < 32, ∀ i < 256,
    (∀ k < 4, ¬InScratch v (base + BitVec.ofNat 32 (j * 1024 + i * 4) + BitVec.ofNat 32 k)) ∧
    load m (base + BitVec.ofNat 32 (j * 1024 + i * 4)) 32 = op j i

private theorem lut_at (h : Linked sym v m) {o k : Nat} {x : Byte} (hk : o + k < 294912)
    (hx : lutByte (o + k) = x) :
    ¬InScratch v (sym.logicShiftTable + BitVec.ofNat 32 o + BitVec.ofNat 32 k) ∧
      m (sym.logicShiftTable + BitVec.ofNat 32 o + BitVec.ofNat 32 k) = x := by
  have hlut := h.lut (o + k) (by rw [length_lutBin]; exact hk)
  rw [BitVec.add_assoc, ← BitVec.ofNat_add]
  exact ⟨hlut.1, hlut.2.trans hx⟩

private theorem byteTable_of_lut (h : Linked sym v m) {o : Nat} {op : Nat → Nat → Word}
    (ho : o ≤ 131072) (hlut : InLut o (genTable 256 256 1 op)) :
    ByteTable v m (sym.logicShiftTable + BitVec.ofNat 32 o) op := by
  intro j hj i hi
  exact lut_at h (by omega) (lutByte_bytes hlut hj hi)

private theorem wordTable_of_lut (h : Linked sym v m) {o : Nat} {op : Nat → Nat → Word}
    (ho : o ≤ 262144) (hlut : InLut o (genTable 32 256 4 op)) :
    WordTable v m (sym.logicShiftTable + BitVec.ofNat 32 o) op := by
  intro j hj i hi
  have hbyte : ∀ b < 4,
      ¬InScratch v (sym.logicShiftTable + BitVec.ofNat 32 o +
        BitVec.ofNat 32 (j * 1024 + i * 4) + BitVec.ofNat 32 b) ∧
      m (sym.logicShiftTable + BitVec.ofNat 32 o + BitVec.ofNat 32 (j * 1024 + i * 4) +
        BitVec.ofNat 32 b) = byteAt (op j i) b := by
    intro b hb
    rw [BitVec.add_assoc _ (BitVec.ofNat 32 (j * 1024 + i * 4)), ← BitVec.ofNat_add,
      Nat.add_assoc]
    exact lut_at h (by omega) (lutByte_words hlut hj hi hb)
  refine ⟨fun k hk => (hbyte k hk).1, ?_⟩
  rw [← ofBytes_byteAt (op j i)]
  exact ofBytes_congr fun k hk => (hbyte k (by omega)).2

namespace Linked

variable (h : Linked sym v m)
include h

theorem and8 : ByteTable v m sym.and8Table Tables.and8 := by
  have htable := byteTable_of_lut h (Nat.zero_le _) lut_layout.1
  rwa [BitVec.add_zero] at htable

theorem or8 : ByteTable v m sym.or8Table Tables.or8 :=
  byteTable_of_lut h (by decide) lut_layout.2.1

theorem xor8 : ByteTable v m sym.xor8Table Tables.xor8 := by
  rw [xor8Table_eq]
  exact byteTable_of_lut h (by decide) lut_layout.2.2.1

theorem sll8 : WordTable v m sym.sll8Table Tables.sll8 := by
  rw [sll8Table_eq]
  exact wordTable_of_lut h (by decide) lut_layout.2.2.2.1

theorem srl8 : WordTable v m sym.srl8Table Tables.srl8 := by
  rw [srl8Table_eq]
  exact wordTable_of_lut h (by decide) lut_layout.2.2.2.2.1

theorem sra8 : WordTable v m sym.sra8Table Tables.sra8 := by
  rw [sra8Table_eq]
  exact wordTable_of_lut h (by decide) lut_layout.2.2.2.2.2

end Linked

end Riscv32Cpu.Rvmini.Tables
