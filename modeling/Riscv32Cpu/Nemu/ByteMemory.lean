/- module: Riscv32Cpu/Nemu/ByteMemory
   source: CODE/nemu/src/memory/paddr.c, include/memory/host.h
   digest: `pmem` as a memory of bytes under accesses of all widths. -/

import Riscv32Cpu.Nemu.Confinement

set_option autoImplicit false
set_option relaxedAutoImplicit false

namespace Riscv32Cpu.Nemu.ByteMemory

open Riscv32Cpu.Lib.Memory Riscv32Cpu.Lib.Effect Riscv32Cpu.Isa.Rv32i Riscv32Cpu.Nemu.Memory
open Riscv32Cpu.Nemu.Confinement

inductive Call
  | read (addr : Word) (len : Nat)
  | write (addr : Word) (len : Nat) (data : Word)
  deriving DecidableEq

/-- A width of the source, and all bytes in `pmem`. -/
def Inside (addr : Word) (len : Nat) : Prop :=
  Width len ∧ inPmem addr = true ∧ offset addr + len ≤ configMsize.toNat

def Call.Inside : Call → Prop
  | .read addr len => ByteMemory.Inside addr len
  | .write addr len _ => ByteMemory.Inside addr len

def Call.run (pmem : BitVec 64) : Call → M Unit
  | .read addr len => do
    let _ ← paddrRead pmem addr len
  | .write addr len data => paddrWrite pmem addr len data

def runCalls (pmem : BitVec 64) : List Call → M Unit
  | [] => return
  | c :: cs => do
    c.run pmem
    runCalls pmem cs

/-- The byte that a call writes to `a`, when it writes one. -/
def Call.wrote (a : Word) : Call → Option Byte
  | .read _ _ => none
  | .write addr len data =>
    if (a - addr).toNat < len then some (byteAt data (a - addr).toNat) else none

/-- The most recent value written to `a`, or else its initial content. -/
def mostRecent (initial : Word → Byte) (past : List Call) (a : Word) : Byte :=
  (past.reverse.findSome? (Call.wrote a)).getD (initial a)

/-- `len` bytes as a little-endian number, zero-extended to a word. -/
def littleEndian (len : Nat) (f : Nat → Byte) : Word := ofBytes 32 fun k => if k < len then f k else 0

theorem mostRecent_cons (initial : Word → Byte) (c : Call) (past : List Call) (a : Word) :
    mostRecent initial (c :: past) a =
      mostRecent (fun a => (c.wrote a).getD (initial a)) past a := by
  rw [mostRecent, mostRecent, List.reverse_cons, List.findSome?_append, List.findSome?_singleton]
  cases past.reverse.findSome? (Call.wrote a) with
  | none => rfl
  | some b => rfl

theorem setWidth_ofBytes (len : Nat) (f : Nat → Byte) :
    (ofBytes (8 * len) f).setWidth 32 = littleEndian len f := by
  apply BitVec.eq_of_getLsbD_eq
  intro i hi
  rw [BitVec.getLsbD_setWidth, littleEndian, getLsbD_ofBytes, getLsbD_ofBytes]
  have hin : i < 8 * len ↔ i / 8 < len := by omega
  by_cases h : i / 8 < len
  · simp [h, hi, hin]
  · simp [h, hin]

/-- The byte at a guest address. -/
def guestByte (pmem : BitVec 64) (m : Machine) (a : Word) : Byte := m.host (guestToHost pmem a)

variable (pmem : BitVec 64)

theorem eq_base_add (a : Word) : a = configMbase + BitVec.ofNat 32 (offset a) := by
  rw [offset, BitVec.ofNat_toNat, BitVec.setWidth_eq, BitVec.add_comm, BitVec.sub_add_cancel]

theorem inPmem_byte {a : Word} (h : inPmem a = true) {k : Nat}
    (hk : offset a + k < configMsize.toNat) :
    inPmem (a + BitVec.ofNat 32 k) = true ∧
      guestToHost pmem (a + BitVec.ofNat 32 k) = guestToHost pmem a + BitVec.ofNat 64 k := by
  have hsize : configMsize.toNat = 0x8000000 := rfl
  have hoff : offset (a + BitVec.ofNat 32 k) = offset a + k := by
    have hsum : a + BitVec.ofNat 32 k = configMbase + BitVec.ofNat 32 (offset a + k) := by
      rw [BitVec.ofNat_add, ← add_assoc, ← eq_base_add]
    rw [hsum, offset, toNat_add_sub _ (by omega)]
  have hin : inPmem (a + BitVec.ofNat 32 k) = true := by
    rw [inPmem_iff, hoff]
    exact hk
  refine ⟨hin, ?_⟩
  rw [guestToHost_eq pmem hin, guestToHost_eq pmem h, hoff, BitVec.ofNat_add, add_assoc]

theorem distance {a b : Word} (ha : inPmem a = true) (hb : inPmem b = true) {len : Nat}
    (hlen : len ≤ 4) :
    ((guestToHost pmem a - guestToHost pmem b).toNat < len ↔ (a - b).toNat < len) ∧
      ((a - b).toNat < len → (guestToHost pmem a - guestToHost pmem b).toNat = (a - b).toNat) := by
  have hoffa := (toNat_of_inPmem ha).2
  have hoffb := (toNat_of_inPmem hb).2
  have hguest : (a - b).toNat = if offset b ≤ offset a then offset a - offset b
      else 2 ^ 32 + offset a - offset b := by
    have h := toNat_sub_add a configMbase (offset b) (by omega)
    rwa [← eq_base_add] at h
  have hhost : (guestToHost pmem a - guestToHost pmem b).toNat =
      if offset b ≤ offset a then offset a - offset b else 2 ^ 64 + offset a - offset b := by
    have h := toNat_sub_add (guestToHost pmem a) pmem (offset b) (by omega)
    rwa [← guestToHost_eq pmem hb, guestToHost_eq pmem ha, toNat_add_sub _ (by omega),
      ← guestToHost_eq pmem ha] at h
  rw [hguest, hhost]
  split <;> omega

theorem read_spec {addr : Word} {len : Nat} (h : Inside addr len) (m : Machine) :
    paddrRead pmem addr len m =
      .ok (littleEndian len fun k => guestByte pmem m (addr + BitVec.ofNat 32 k))
        (m.touching (guestToHost pmem addr) len) := by
  obtain ⟨hl, hin, hfit⟩ := h
  have hword : (load m.host (guestToHost pmem addr) (8 * len)).setWidth 32 =
      littleEndian len fun k => guestByte pmem m (addr + BitVec.ofNat 32 k) := by
    rw [← setWidth_ofBytes]
    congr 1
    refine ofBytes_congr fun k hk => ?_
    rw [guestByte, (inPmem_byte pmem hin (by omega)).2]
  rw [paddrRead_in hin, hostRead_eq hl, hword]

theorem write_spec {addr : Word} {len : Nat} (h : Inside addr len) (data : Word) (m : Machine) :
    paddrWrite pmem addr len data m =
      .ok () { m.touching (guestToHost pmem addr) len with
        host := store m.host (guestToHost pmem addr) len data } := by
  obtain ⟨hl, hin, -⟩ := h
  rw [paddrWrite_in hin, hostWrite_eq hl]

theorem call_spec {c : Call} (h : c.Inside) (m : Machine) :
    ∃ m', c.run pmem m = .ok () m' ∧ ∀ a, inPmem a = true →
      guestByte pmem m' a = (c.wrote a).getD (guestByte pmem m a) := by
  cases c with
  | read addr len =>
    refine ⟨m.touching (guestToHost pmem addr) len, ?_, fun a _ => rfl⟩
    rw [Call.run, bind_of_ok (read_spec pmem h m)]
    rfl
  | write addr len data =>
    refine ⟨_, write_spec pmem h data m, fun a ha => ?_⟩
    obtain ⟨hl, hin, -⟩ := h
    have hlen : len ≤ 4 := by
      unfold Width at hl
      omega
    obtain ⟨hiff, hsame⟩ := distance pmem ha hin hlen
    show store m.host (guestToHost pmem addr) len data (guestToHost pmem a) =
      (Call.wrote a (.write addr len data)).getD (guestByte pmem m a)
    rw [store, overlay, Call.wrote]
    by_cases hbyte : (a - addr).toNat < len
    · rw [if_pos (hiff.mpr hbyte), if_pos hbyte, hsame hbyte]
      rfl
    · rw [if_neg fun hcov => hbyte (hiff.mp hcov), if_neg hbyte]
      rfl

theorem calls_spec {past : List Call} (hpast : ∀ c ∈ past, c.Inside) (m : Machine) :
    ∃ m', runCalls pmem past m = .ok () m' ∧ ∀ a, inPmem a = true →
      guestByte pmem m' a = mostRecent (guestByte pmem m) past a := by
  induction past generalizing m with
  | nil => exact ⟨m, rfl, fun a _ => rfl⟩
  | cons c past ih =>
    obtain ⟨m₁, hc, hbyte₁⟩ := call_spec pmem (hpast c List.mem_cons_self) m
    obtain ⟨m', hrest, hbyte⟩ := ih (fun d hd => hpast d (List.mem_cons_of_mem c hd)) m₁
    refine ⟨m', (bind_of_ok hc).trans hrest, fun a ha => ?_⟩
    rw [hbyte a ha, mostRecent_cons, mostRecent, mostRecent, hbyte₁ a ha]

/-- After any calls inside `pmem` a read gives the little-endian composition of what was last
written to its bytes, and a write changes its own bytes only. -/
theorem pmem_is_byte_memory (pmem : BitVec 64) (past : List Call) (hpast : ∀ c ∈ past, c.Inside)
    (m : Machine) :
    ∃ m', runCalls pmem past m = .ok () m' ∧
      (∀ addr len, Inside addr len → ∃ m'',
        paddrRead pmem addr len m' = .ok (littleEndian len fun k =>
            mostRecent (guestByte pmem m) past (addr + BitVec.ofNat 32 k)) m'' ∧
          m''.host = m'.host) ∧
      ∀ addr len data, Inside addr len → ∃ m'',
        paddrWrite pmem addr len data m' = .ok () m'' ∧
          ∀ b, ¬Access.Covers ⟨guestToHost pmem addr, len⟩ b → m''.host b = m'.host b := by
  obtain ⟨m', hrun, hbyte⟩ := calls_spec pmem hpast m
  refine ⟨m', hrun, fun addr len hin =>
    ⟨m'.touching (guestToHost pmem addr) len, ?_, rfl⟩, fun addr len data hin =>
    ⟨_, write_spec pmem hin data m', fun b hb => store_out m'.host data hb⟩⟩
  have hword : (littleEndian len fun k => guestByte pmem m' (addr + BitVec.ofNat 32 k)) =
      littleEndian len fun k => mostRecent (guestByte pmem m) past (addr + BitVec.ofNat 32 k) := by
    refine ofBytes_congr fun k _ => ?_
    by_cases hk : k < len
    · have hend := hin.2.2
      have hbyteIn := (inPmem_byte pmem hin.2.1 (Nat.lt_of_lt_of_le (Nat.add_lt_add_left hk _) hend)).1
      rw [if_pos hk, if_pos hk]
      exact hbyte _ hbyteIn
    · rw [if_neg hk, if_neg hk]
  rw [← hword]
  exact read_spec pmem hin m'

/-- A halfword over the second and third byte of a word, the word read one byte later. -/
def overlapping : List Call :=
  [.write 0x80000000 4 0x44332211, .write 0x80000001 2 0xabcd7788, .write 0x80000004 1 0x99]

example : ∀ k < 4, mostRecent (fun _ => 0) overlapping (0x80000001 + BitVec.ofNat 32 k) =
    [0x88, 0x77, 0x44, 0x99].getD k 0 := by decide

theorem overlapping_reads :
    ∃ m', runCalls 0x10000 overlapping startMachine = .ok () m' ∧
      (∀ addr len, Inside addr len → ∃ m'',
        paddrRead 0x10000 addr len m' = .ok (littleEndian len fun k =>
            mostRecent (guestByte 0x10000 startMachine) overlapping (addr + BitVec.ofNat 32 k)) m'' ∧
          m''.host = m'.host) ∧
      ∀ addr len data, Inside addr len → ∃ m'',
        paddrWrite 0x10000 addr len data m' = .ok () m'' ∧
          ∀ b, ¬Access.Covers ⟨guestToHost 0x10000 addr, len⟩ b → m''.host b = m'.host b :=
  pmem_is_byte_memory 0x10000 overlapping (List.forall_mem_cons.mpr
    ⟨⟨.inr (.inr rfl), by decide, by decide⟩, List.forall_mem_cons.mpr
      ⟨⟨.inr (.inl rfl), by decide, by decide⟩, List.forall_mem_singleton.mpr
        ⟨.inl rfl, by decide, by decide⟩⟩⟩) startMachine

end Riscv32Cpu.Nemu.ByteMemory
