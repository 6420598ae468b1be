/- module: Riscv32Cpu/X86Qemu/MpTable
   source: CODE/abstract-machine/am/src/x86/qemu/trm.c, am/src/x86/x86.h
   digest: The multiprocessor configuration table, and the processors counted in it. -/

import Riscv32Cpu.Lib.Memory

set_option autoImplicit false
set_option relaxedAutoImplicit false

namespace Riscv32Cpu.X86Qemu.MpTable

open Lib.Memory

/-- Physical memory. A pointer is the number of its byte. -/
abbrev Memory := Nat → Byte

def read16 (mem : Memory) (a : Nat) : BitVec 16 := ofBytes 16 fun k => mem (a + k)
def read32 (mem : Memory) (a : Nat) : BitVec 32 := ofBytes 32 fun k => mem (a + k)

def maxCpu : Nat := 8

def sizeofMPConf : Nat := 44
def length (mem : Memory) (conf : Nat) : Nat := (read16 mem (conf + 4)).toNat
def lapicaddr (mem : Memory) (conf : Nat) : BitVec 32 := read32 mem (conf + 36)
def confOf (mem : Memory) (desc : Nat) : Nat := (read32 mem (desc + 4)).toNat

inductive Stop
  | panic (msg : String)
  | bug
  | unfinished

/-- `__am_lapic` and `__am_ncpu`, and the addresses at which the loop has read an entry's type. -/
structure Mp where
  lapic : BitVec 32
  ncpu : Nat
  reads : List Nat

/-- The loop over the entries; with the state it also gives the pointer it ends with. -/
def entryLoop (mem : Memory) (conf : Nat) : Nat → Nat → Mp → Except Stop (Nat × Mp)
  | 0, _, _ => .error .unfinished
  | fuel + 1, ptr, mp =>
    if ptr < conf + length mem conf then
      let mp := { mp with reads := mp.reads ++ [ptr] }
      if mem ptr = 0 then
        let ptr := ptr + 12
        let mp := { mp with ncpu := mp.ncpu + 1 }
        if mp.ncpu > maxCpu then .error (.panic "cannot support > MAX_CPU processors")
        else entryLoop mem conf fuel (ptr + 8) mp
      else entryLoop mem conf fuel (ptr + 8) mp
    else .ok (ptr, mp)

/-- The first address that holds `_MP_`. -/
def findDesc (mem : Memory) : Option Nat :=
  (List.range' 0xf0000 (0xffffff - 0xf0000)).find? fun st => read32 mem st = 0x5f504d5f

def amLapicInit (mem : Memory) (fuel : Nat) (mp : Mp) : Except Stop Mp :=
  match findDesc mem with
  | none => .error .bug
  | some st => do
    let conf := confOf mem st
    let (_, mp) ← entryLoop mem conf fuel (conf + sizeofMPConf)
      { mp with lapic := lapicaddr mem conf }
    return mp

/-- An entry of the table: its type and the bytes behind it. -/
structure Entry where
  type : Byte
  rest : List Byte
  known : type ≤ 4
  size : rest.length = if type = 0 then 19 else 7

def Entry.bytes (e : Entry) : List Byte := e.type :: e.rest

def Entry.processor (e : Entry) : Bool := e.type = 0

/-- The addresses of the entries of a list that is laid out from `a` on. -/
def starts : Nat → List Entry → List Nat
  | _, [] => []
  | a, e :: es => a :: starts (a + e.bytes.length) es

/-- The bytes from `a` on. -/
def Laid (mem : Memory) (a : Nat) (bytes : List Byte) : Prop :=
  ∀ k (h : k < bytes.length), mem (a + k) = bytes[k]

/-- A table whose bytes behind the header are these entries. -/
structure Table (mem : Memory) (conf : Nat) (entries : List Entry) : Prop where
  total : length mem conf = sizeofMPConf + (entries.flatMap Entry.bytes).length
  laid : Laid mem (conf + sizeofMPConf) (entries.flatMap Entry.bytes)

theorem Laid.split {mem : Memory} {a : Nat} {bs cs : List Byte} (h : Laid mem a (bs ++ cs)) :
    Laid mem a bs ∧ Laid mem (a + bs.length) cs := by
  constructor
  · intro k hk
    rw [h k (by rw [List.length_append]; omega), List.getElem_append_left]
  · intro k hk
    rw [Nat.add_assoc, h (bs.length + k) (by rw [List.length_append]; omega),
      List.getElem_append_right (by omega)]
    simp

theorem starts_bounds {a : Nat} {entries : List Entry} :
    ∀ p ∈ starts a entries, a ≤ p ∧ p < a + (entries.flatMap Entry.bytes).length := by
  induction entries generalizing a with
  | nil =>
    intro p hp
    cases hp
  | cons e es ih =>
    intro p hp
    have hpos : 0 < e.bytes.length := Nat.succ_pos _
    rw [List.flatMap_cons, List.length_append]
    rcases List.mem_cons.mp hp with rfl | hp
    · omega
    · have := ih p hp
      omega

theorem entryLoop_entry {mem : Memory} {conf ptr : Nat} {e : Entry} {mp : Mp} (fuel : Nat)
    (hin : ptr < conf + length mem conf) (htype : mem ptr = e.type)
    (hroom : mp.ncpu + (if e.processor then 1 else 0) ≤ maxCpu) :
    entryLoop mem conf (fuel + 1) ptr mp =
      entryLoop mem conf fuel (ptr + e.bytes.length)
        { mp with
          ncpu := mp.ncpu + if e.processor then 1 else 0
          reads := mp.reads ++ [ptr] } := by
  have hsize : e.bytes.length = (if e.type = 0 then 20 else 8) := by
    rw [Entry.bytes, List.length_cons, e.size]
    split <;> rfl
  rw [entryLoop, if_pos hin, htype, hsize]
  dsimp only
  by_cases hzero : e.type = 0
  · have hprocessor : e.processor = true := decide_eq_true hzero
    rw [if_pos hprocessor] at hroom ⊢
    rw [if_pos hzero, if_pos hzero, if_neg (by omega)]
  · have hprocessor : ¬e.processor = true := by
      rw [Entry.processor, decide_eq_true_iff]
      exact hzero
    rw [if_neg hprocessor, if_neg hzero, if_neg hzero]
    rfl

/-- The loop from an entry boundary: it reads the type of every entry left, counts the processors
among them and ends at the end of the table. -/
theorem entryLoop_entries {mem : Memory} {conf ptr : Nat} {entries : List Entry} {mp : Mp}
    (hend : conf + length mem conf = ptr + (entries.flatMap Entry.bytes).length)
    (hlaid : Laid mem ptr (entries.flatMap Entry.bytes))
    (hcount : mp.ncpu + entries.countP Entry.processor ≤ maxCpu) {fuel : Nat}
    (hfuel : entries.length < fuel) :
    entryLoop mem conf fuel ptr mp = .ok (conf + length mem conf,
      { mp with
        ncpu := mp.ncpu + entries.countP Entry.processor
        reads := mp.reads ++ starts ptr entries }) := by
  obtain ⟨fuel, rfl⟩ : ∃ k, fuel = k + 1 := ⟨fuel - 1, by omega⟩
  induction entries generalizing ptr mp fuel with
  | nil =>
    rw [List.flatMap_nil, List.length_nil, Nat.add_zero] at hend
    rw [entryLoop, if_neg (by omega), hend, starts, List.append_nil]
    rfl
  | cons e es ih =>
    have hpos : 0 < e.bytes.length := Nat.succ_pos _
    rw [List.flatMap_cons, List.length_append] at hend
    obtain ⟨hhead, htail⟩ := Laid.split (List.flatMap_cons ▸ hlaid)
    rw [List.countP_cons] at hcount
    rw [List.length_cons] at hfuel
    obtain ⟨fuel, rfl⟩ : ∃ k, fuel = k + 1 := ⟨fuel - 1, by omega⟩
    have hin : ptr < conf + length mem conf := by omega
    have hroom : mp.ncpu + (if e.processor then 1 else 0) ≤ maxCpu := by omega
    rw [entryLoop_entry _ hin (hhead 0 hpos) hroom]
    refine (ih (by omega) htail ?_ fuel (by omega)).trans ?_
    · dsimp only
      omega
    · have hsum : es.countP Entry.processor + (if e.processor then 1 else 0) =
          (if e.processor then 1 else 0) + es.countP Entry.processor := Nat.add_comm ..
      rw [starts, List.countP_cons, hsum, ← Nat.add_assoc, List.append_assoc]
      rfl

/-- The processors of a table are counted exactly, from its entries alone, and the loop ends where
the table does. -/
theorem processors_counted {mem : Memory} {conf : Nat} {entries : List Entry}
    (htable : Table mem conf entries) (hcount : entries.countP Entry.processor ≤ maxCpu)
    {fuel : Nat} (hfuel : entries.length < fuel) (lapic : BitVec 32) :
    ∃ reads,
      entryLoop mem conf fuel (conf + sizeofMPConf) ⟨lapic, 0, []⟩ =
        .ok (conf + length mem conf, ⟨lapic, entries.countP Entry.processor, reads⟩) ∧
      reads = starts (conf + sizeofMPConf) entries ∧
      (∀ p ∈ reads, conf + sizeofMPConf ≤ p ∧ p < conf + length mem conf) ∧
      ∀ st, findDesc mem = some st → confOf mem st = conf →
        amLapicInit mem fuel ⟨lapic, 0, []⟩ =
          .ok ⟨lapicaddr mem conf, entries.countP Entry.processor, reads⟩ := by
  have htotal := htable.total
  have hend : conf + length mem conf =
      conf + sizeofMPConf + (entries.flatMap Entry.bytes).length := by omega
  have hrun : ∀ addr, entryLoop mem conf fuel (conf + sizeofMPConf) ⟨addr, 0, []⟩ =
      .ok (conf + length mem conf,
        ⟨addr, entries.countP Entry.processor, starts (conf + sizeofMPConf) entries⟩) := by
    intro addr
    rw [entryLoop_entries hend htable.laid (by dsimp only; omega) hfuel]
    dsimp only
    rw [Nat.zero_add, List.nil_append]
  refine ⟨starts (conf + sizeofMPConf) entries, hrun lapic, rfl, fun p hp => ?_, ?_⟩
  · have := starts_bounds p hp
    omega
  · intro st hst hconf
    rw [amLapicInit, hst]
    dsimp only
    rw [hconf, hrun]
    rfl

/-- A processor, and a bus whose name is full of zeros. -/
def demoEntries : List Entry :=
  [⟨0, List.replicate 19 7, by decide, by decide⟩, ⟨1, List.replicate 7 0, by decide, by decide⟩]

/-- `_MP_`, and the address of the table. -/
def demoDesc : List Byte := [0x5f, 0x4d, 0x50, 0x5f, 0, 1, 0, 0]

def demoMemory : Memory := fun a =>
  if a = 0x104 then 72
  else if 0xf0000 ≤ a then demoDesc.getD (a - 0xf0000) 0
  else (demoEntries.flatMap Entry.bytes).getD (a - 0x12c) 0

theorem demo_table : Table demoMemory 0x100 demoEntries where
  total := by decide
  laid k hk := by
    have hsize : (demoEntries.flatMap Entry.bytes).length = 28 := by decide
    have hne : ¬0x100 + sizeofMPConf + k = 0x104 := by
      rw [sizeofMPConf]
      omega
    have hlow : ¬0xf0000 ≤ 0x100 + sizeofMPConf + k := by
      rw [sizeofMPConf]
      omega
    have hoff : 0x100 + sizeofMPConf + k - 0x12c = k := by
      rw [sizeofMPConf]
      omega
    rw [demoMemory, if_neg hne, if_neg hlow, hoff, List.getD_eq_getElem?_getD,
      List.getElem?_eq_getElem hk]
    rfl

theorem findDesc_demo : findDesc demoMemory = some 0xf0000 := by
  have hrange : List.range' 0xf0000 (0xffffff - 0xf0000) =
      0xf0000 :: List.range' 0xf0001 (0xfffffe - 0xf0000) := rfl
  rw [findDesc, hrange]
  exact List.find?_cons_of_pos (by decide)

theorem demo_processors_counted :
    ∃ reads,
      entryLoop demoMemory 0x100 3 (0x100 + sizeofMPConf) ⟨0, 0, []⟩ =
        .ok (0x100 + length demoMemory 0x100, ⟨0, 1, reads⟩) ∧
      reads = starts (0x100 + sizeofMPConf) demoEntries ∧
      (∀ p ∈ reads, 0x100 + sizeofMPConf ≤ p ∧ p < 0x100 + length demoMemory 0x100) ∧
      amLapicInit demoMemory 3 ⟨0, 0, []⟩ = .ok ⟨lapicaddr demoMemory 0x100, 1, reads⟩ := by
  obtain ⟨reads, hloop, hreads, hbounds, hinit⟩ :=
    processors_counted demo_table (by decide) (by decide : demoEntries.length < 3) 0
  exact ⟨reads, hloop, hreads, hbounds, hinit 0xf0000 findDesc_demo (by decide)⟩

end Riscv32Cpu.X86Qemu.MpTable
