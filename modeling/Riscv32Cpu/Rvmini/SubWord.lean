/- module: Riscv32Cpu/Rvmini/SubWord
   source: CODE/abstract-machine/tools/rvmini/inst-replace.h
   digest: Loads and stores of bytes and halfwords, taken apart into single bytes. -/

import Riscv32Cpu.Rvmini.Shift

set_option autoImplicit false
set_option relaxedAutoImplicit false

namespace Riscv32Cpu.Rvmini.SubWord

open Riscv32Cpu.Lib.Memory Riscv32Cpu.Lib.Run Riscv32Cpu.Isa.Rv32i Riscv32Cpu.Rvmini.Scratch
open Riscv32Cpu.Rvmini.Tables Riscv32Cpu.Rvmini.Blocks Riscv32Cpu.Rvmini.Meaning
open Riscv32Cpu.Rvmini.Image Riscv32Cpu.Rvmini.Shift
open Riscv32Cpu.Rvmini.Macros (RegName Operand Symbols spVar spVarByte)

/-- The instructions `op r, imm(base)` that the header takes apart. -/
inductive SubWordInst
  | lb (rd : RegName) (imm : BitVec 12) (base : RegName)
  | lh (rd : RegName) (imm : BitVec 12) (base : RegName)
  | lhu (rd : RegName) (imm : BitVec 12) (base : RegName)
  | sh (rs : RegName) (imm : BitVec 12) (base : RegName)

namespace SubWordInst

def data : SubWordInst → RegName
  | lb r _ _ | lh r _ _ | lhu r _ _ | sh r _ _ => r

def imm : SubWordInst → BitVec 12
  | lb _ imm _ | lh _ imm _ | lhu _ imm _ | sh _ imm _ => imm

def base : SubWordInst → RegName
  | lb _ _ base | lh _ _ base | lhu _ _ base | sh _ _ base => base

/-- How many bytes are accessed. -/
def width : SubWordInst → Nat
  | lb .. => 1
  | lh .. | lhu .. | sh .. => 2

def address (i : SubWordInst) (x : RegFile) : Word := x i.base + i.imm.signExtend 32

/-- The macro argument `addr`. -/
def operand (i : SubWordInst) : Operand := ⟨i.imm.toInt, i.base⟩

/-- The memory operands that the expansion makes of `addr`. -/
def operands (i : SubWordInst) : List Operand :=
  match i with
  | lb .. => [i.operand]
  | lh .. | lhu .. | sh .. => [⟨0 + i.operand.off, i.base⟩, ⟨1 + i.operand.off, i.base⟩]

def ops (sym : Symbols) (i : SubWordInst) : List Op :=
  match i with
  | lb rd _ _ => Macros.lb sym rd i.operand
  | lh rd _ _ => Macros.lh sym rd i.operand
  | lhu rd _ _ => Macros.lhu rd i.operand
  | sh rs _ _ => Macros.sh rs i.operand

/-- What RV32I does. -/
def exec (i : SubWordInst) (c : Core) : Core :=
  match i with
  | lb rd _ _ => { c with x := c.x.set rd ((c.mem (i.address c.x)).signExtend 32) }
  | lh rd _ _ => { c with x := c.x.set rd ((load c.mem (i.address c.x) 16).signExtend 32) }
  | lhu rd _ _ => { c with x := c.x.set rd ((load c.mem (i.address c.x) 16).setWidth 32) }
  | sh rs _ _ => { c with mem := store c.mem (i.address c.x) 2 (c.x rs) }

/-- `tp` and `gp` belong to the macros, and data does not pass through `sp`. -/
def Allowed (i : SubWordInst) : Prop :=
  Plain i.data ∧ (i.base : Reg) ≠ 3 ∧ (i.base : Reg) ≠ 4

instance (i : SubWordInst) : Decidable i.Allowed := inferInstanceAs (Decidable (_ ∧ _))

end SubWordInst

/-- A displacement that fits the instruction; the assembler rejects any other. -/
def Encodable (a : Operand) : Prop := -2048 ≤ a.off ∧ a.off < 2048

instance (a : Operand) : Decidable (Encodable a) := inferInstanceAs (Decidable (_ ∧ _))

/-- The assembled expansion, if every instruction of it is legal. -/
def SubWordInst.expand (sym : Symbols) (i : SubWordInst) : Option (List Op) :=
  if ∀ a ∈ i.operands, Encodable a then some (i.ops sym) else none

/-- Two harts that differ in `gp`, `tp` and the scratch words below `sp` only. -/
structure Agrees (sp : Word) (c c' : Core) : Prop where
  x : ∀ r, r ≠ 3 → r ≠ 4 → c'.x r = c.x r
  mem : ∀ a, ¬InScratch sp a → c'.mem a = c.mem a

/-- Placed in a linked image, `ops` does what `i` does, unless `i` accesses a scratch word. -/
def Meets (sym : Symbols) (ops : List Op) (i : SubWordInst) : Prop :=
  ∀ (code : Code) (s : State), Placed code s.pc (ops.map .op) → Linked sym (s.x 2) s.mem →
    (∀ k < i.width, ¬InScratch (s.x 2) (i.address s.x + BitVec.ofNat 32 k)) →
      ∃ s', runN (step fun t => code t.pc) ops.length s = some s' ∧
        s'.pc = after s.pc ops.length ∧ Agrees (s.x 2) (i.exec s.toCore) s'.toCore

theorem signExtend_ofInt {k : Int} (h : -2048 ≤ k) (h' : k < 2048) :
    (BitVec.ofInt 12 k).signExtend 32 = BitVec.ofInt 32 k := by
  rw [BitVec.signExtend, BitVec.toInt_ofInt_eq_self (by decide) (by omega) (by omega)]

theorem imm_bounds (imm : BitVec 12) : -2048 ≤ imm.toInt ∧ imm.toInt < 2048 := by
  have hlt := BitVec.toInt_lt (x := imm)
  have hle := BitVec.le_toInt imm
  omega

variable {sym : Symbols}

theorem addr_plus (f : Frame) (i : SubWordInst) {k : Nat} (hk : i.imm.toInt + k < 2048) :
    f.addr ⟨k + i.operand.off, i.operand.base⟩ = i.address f.x + BitVec.ofNat 32 k := by
  have hb := imm_bounds i.imm
  have hself : i.imm.signExtend 32 = BitVec.ofInt 32 i.imm.toInt := rfl
  show f.x i.base + (BitVec.ofInt 12 (k + i.imm.toInt)).signExtend 32 = _
  rw [signExtend_ofInt (by omega) (by omega), SubWordInst.address, BitVec.ofInt_add, hself,
    BitVec.ofInt_natCast, BitVec.add_comm (BitVec.ofNat 32 k), BitVec.add_assoc]

/-- The halfword of two bytes. -/
def halfword (b₀ b₁ : Byte) : BitVec 16 := ofBytes 16 fun k => if k = 0 then b₀ else b₁

theorem halfword_toNat (b₀ b₁ : Byte) : (halfword b₀ b₁).toNat = b₀.toNat + 256 * b₁.toNat := by
  have hbyte : ∀ k < 2, byteAt (halfword b₀ b₁) k = if k = 0 then b₀ else b₁ :=
    fun k hk => byteAt_ofBytes _ (by omega)
  have h0 := congrArg BitVec.toNat (hbyte 0 (by omega))
  have h1 := congrArg BitVec.toNat (hbyte 1 (by omega))
  have hlt := (halfword b₀ b₁).isLt
  rw [byteAt_toNat] at h0 h1
  simp only [if_true, Nat.one_ne_zero, if_false] at h0 h1
  omega

theorem load_halfword (m : Mem 32) (a : Word) :
    load m a 16 = halfword (m (a + BitVec.ofNat 32 0)) (m (a + BitVec.ofNat 32 1)) := by
  refine ofBytes_congr fun k hk => ?_
  have hk2 : k = 0 ∨ k = 1 := by omega
  rcases hk2 with rfl | rfl
  · rfl
  · rfl

theorem setWidth_halfword (b₀ b₁ : Byte) :
    (b₀.setWidth 32 + setByte 0#32 1 b₁ : Word) = (halfword b₀ b₁).setWidth 32 := by
  have h0 := b₀.isLt
  have h1 := b₁.isLt
  apply BitVec.eq_of_toNat_eq
  rw [setByte_one, BitVec.toNat_add, BitVec.toNat_setWidth, BitVec.toNat_setWidth,
    BitVec.toNat_ofNat, halfword_toNat]
  omega

theorem signExtend_halfword (b₀ b₁ : Byte) :
    (b₀.setWidth 32 + (b₁.setWidth 32 <<< 24 : Word).sshiftRight 16 : Word) =
      (halfword b₀ b₁).signExtend 32 := by
  have h0 := b₀.isLt
  have h1 := b₁.isLt
  have hhalf := halfword_toNat b₀ b₁
  have hup : (b₁.setWidth 32 <<< 24 : Word).toNat = b₁.toNat * 2 ^ 24 := by
    rw [BitVec.toNat_shiftLeft, BitVec.toNat_setWidth, Nat.shiftLeft_eq]
    omega
  have hsum : (b₁.setWidth 32 <<< 24 : Word).toInt / 2 ^ 16 + (b₀.toNat : Int) =
      (halfword b₀ b₁).toInt := by
    rw [BitVec.toInt_eq_toNat_cond, BitVec.toInt_eq_toNat_cond, hup, hhalf]
    split <;> split <;> omega
  have hlow : (b₀.setWidth 32 : Word) = BitVec.ofInt 32 b₀.toNat := by
    rw [BitVec.ofInt_natCast, BitVec.ofNat_toNat]
  rw [sshiftRight_eq_ofInt, hlow, ← BitVec.ofInt_add, Int.add_comm, hsum, BitVec.signExtend]

theorem signExtend_byte (b : Byte) :
    (b.setWidth 32 <<< 24 : Word).sshiftRight 24 = b.signExtend 32 := by
  have h := b.isLt
  have hup : (b.setWidth 32 <<< 24 : Word).toNat = b.toNat * 2 ^ 24 := by
    rw [BitVec.toNat_shiftLeft, BitVec.toNat_setWidth, Nat.shiftLeft_eq]
    omega
  have hint : (b.setWidth 32 <<< 24 : Word).toInt / 2 ^ 24 = b.toInt := by
    rw [BitVec.toInt_eq_toNat_cond, BitVec.toInt_eq_toNat_cond, hup]
    split <;> split <;> omega
  rw [sshiftRight_eq_ofInt, hint, BitVec.signExtend]

theorem leaves_append {pre ops : List Op} {f g : Frame} {rd : Reg} {v w : Word} {clob : List Reg}
    (hpre : runOps pre f.core = g.core) (hx : ∀ r, r ≠ rd → r ∉ clob → g.x r = f.x r)
    (hrest : g.rest = f.rest) (h : Leaves ops g rd v clob) (hvw : rd ≠ 0 → v = w) :
    Leaves (pre ++ ops) f rd w clob := by
  obtain ⟨k, hrun, hvalue, hkeep, hkrest⟩ := h
  refine ⟨k, ?_, fun h0 => (hvalue h0).trans (hvw h0),
    fun r hr hc => (hkeep r hr hc).trans (hx r hr hc), hkrest.trans hrest⟩
  rw [runOps_append, hpre, hrun]

theorem run_topByte {r : RegName} {a : Operand} (f : Frame) (hr : (r : Reg) ≠ 2)
    (ha : ¬InScratch (f.x 2) (f.addr a)) :
    ∃ g : Frame, runOps [Macros.sw Macros.x0 (spVar Macros.varA), Macros.lbu r a,
        Macros.sb r (spVarByte Macros.varA 3), Macros.lw r (spVar Macros.varA)] f.core = g.core ∧
      ((r : Reg) ≠ 0 → g.x r = (f.rest (f.addr a)).setWidth 32 <<< 24) ∧
      (∀ q, q ≠ (r : Reg) → g.x q = f.x q) ∧ g.rest = f.rest := by
  simp only [runOps_cons, runOps_nil]
  rw [Frame.exec_sw_var _ (by decide) (by decide), Frame.exec_lbu_out _ hr (by exact ha),
    Frame.exec_sb_var _ (by decide) (by decide) (by decide),
    Frame.exec_lw_var _ hr (by decide) (by decide)]
  refine ⟨_, rfl, fun h0 => ?_, fun q hq => ?_, rfl⟩
  · simp [h0, setByte_three]
  · simp [hq]

theorem lb_leaves {rd : RegName} {a : Operand} (f : Frame) (hd : Plain rd)
    (ha : ¬InScratch (f.x 2) (f.addr a)) (hlinked : Linked sym (f.x 2) f.rest) :
    Leaves (Macros.lb sym rd a) f rd ((f.rest (f.addr a)).signExtend 32) [3, 4] := by
  obtain ⟨g, hpre, hvalue, hkeep, hrest⟩ := run_topByte f hd.1 ha
  have hg : Linked sym (g.x 2) g.rest := by
    rw [hkeep 2 hd.1.symm, hrest]
    exact hlinked
  have hshift : Leaves (Macros.srai sym rd rd 24) g rd _ [3, 4] := shiftRight24_leaves g hd hg
  refine leaves_append hpre (fun r hr _ => hkeep r hr) hrest hshift fun h0 => ?_
  rw [if_pos rfl, hvalue h0, signExtend_byte]

/-- The two operands of a halfword macro, clear of the scratch words. -/
structure Clear (f : Frame) (a : Operand) : Prop where
  low : ¬InScratch (f.x 2) (f.addr ⟨0 + a.off, a.base⟩)
  high : ¬InScratch (f.x 2) (f.addr ⟨1 + a.off, a.base⟩)

/-- The halfword they address. -/
def halfwordAt (f : Frame) (a : Operand) : BitVec 16 :=
  halfword (f.rest (f.addr ⟨0 + a.off, a.base⟩)) (f.rest (f.addr ⟨1 + a.off, a.base⟩))

theorem lhu_leaves {rd : RegName} {a : Operand} (f : Frame) (hd : Plain rd)
    (hbase : (a.base : Reg) ≠ 4) (ha : Clear f a) :
    Leaves (Macros.lhu rd a) f rd ((halfwordAt f a).setWidth 32) [3, 4] := by
  unfold Leaves
  rw [Macros.lhu]
  simp only [runOps_cons, runOps_nil]
  rw [Frame.exec_sw_var _ (by decide) (by decide), Frame.exec_lbu_out _ (by decide) (by exact ha.high),
    Frame.exec_sb_var _ (by decide) (by decide) (by decide),
    Frame.exec_lw_var _ (by decide) (by decide) (by decide)]
  -- the base register still holds the address, as only `tp` has been written
  have hlow : ∀ g : Frame, (∀ r, r ≠ 4 → g.x r = f.x r) →
      g.addr ⟨0 + a.off, a.base⟩ = f.addr ⟨0 + a.off, a.base⟩ := by
    intro g hg
    rw [Frame.addr, Frame.addr, hg _ hbase]
  rw [Frame.exec_lbu_out _ hd.1 (by
    rw [hlow _ fun r hr => by simp [hr]]
    simpa using ha.low), hlow _ fun r hr => by simp [hr], Frame.exec_add _ hd.1]
  refine ⟨_, rfl, fun h0 => ?_, fun r hr hc => ?_, rfl⟩
  · rw [halfwordAt, ← setWidth_halfword]
    simp [h0, hd.2.2.symm, byteAt_setWidth]
  · have h34 : r ≠ 3 ∧ r ≠ 4 := by simpa using hc
    simp [hr, h34]

theorem lh_leaves {rd : RegName} {a : Operand} (f : Frame) (hd : Plain rd)
    (hbase : (a.base : Reg) ≠ 3 ∧ (a.base : Reg) ≠ 4) (ha : Clear f a)
    (hlinked : Linked sym (f.x 2) f.rest) :
    Leaves (Macros.lh sym rd a) f rd ((halfwordAt f a).signExtend 32) [3, 4] := by
  obtain ⟨g, hpre, hvalue, hkeep, hrest⟩ := run_topByte (r := Macros.gp) f (by decide) ha.high
  have hg : Linked sym (g.x 2) g.rest := by
    rw [hkeep 2 (by decide), hrest]
    exact hlinked
  have hsrai : Leaves (Macros.srai sym Macros.gp Macros.gp 16) g 3 _ [3, 4] :=
    shiftRightSlow_leaves true g (by decide) (by simp) (by simp [amount]) hg
  obtain ⟨k, hshift, hsum, hkept, hkrest⟩ := hsrai
  have hreg : ∀ r, r ≠ 3 → r ≠ 4 → k.x r = f.x r := fun r h3 h4 =>
    (hkept r h3 (by simp [h3, h4])).trans (hkeep r h3)
  have hlow : k.addr ⟨0 + a.off, a.base⟩ = f.addr ⟨0 + a.off, a.base⟩ := by
    rw [Frame.addr, Frame.addr, hreg _ hbase.1 hbase.2]
  have hup : k.x 3 = (((f.rest (f.addr ⟨1 + a.off, a.base⟩)).setWidth 32 <<< 24 : Word)).sshiftRight
      16 := by
    refine (hsum (by decide)).trans ?_
    rw [if_pos rfl, hvalue (by decide)]
    rfl
  unfold Leaves
  rw [Macros.lh, runOps_append, runOps_append, hpre]
  simp only [runOps_cons, runOps_nil]
  rw [hshift, Frame.exec_lbu_out _ hd.1 (by
    rw [hlow, hreg 2 (by decide) (by decide)]
    exact ha.low), hlow, Frame.exec_add _ hd.1]
  refine ⟨_, rfl, fun h0 => ?_, fun r hr hc => ?_, hkrest.trans hrest⟩
  · rw [halfwordAt, ← signExtend_halfword, ← hup]
    simp [h0, hd.2.1.symm, hkrest, hrest]
  · have h34 : r ≠ 3 ∧ r ≠ 4 := by simpa using hc
    simp [hr, hreg r h34.1 h34.2]

theorem run_sh (rs : RegName) {a : Operand} (f : Frame)
    (hbase : (a.base : Reg) ≠ 4) (ha : Clear f a) :
    ∃ g : Frame, runOps (Macros.sh rs a) f.core = g.core ∧ (∀ r, r ≠ 4 → g.x r = f.x r) ∧
      g.rest = Function.update (Function.update f.rest (f.addr ⟨0 + a.off, a.base⟩)
        (byteAt (f.x rs) 0)) (f.addr ⟨1 + a.off, a.base⟩) (byteAt (f.x rs) 1) := by
  have hhigh : ∀ g : Frame, (∀ r, r ≠ 4 → g.x r = f.x r) →
      g.addr ⟨1 + a.off, a.base⟩ = f.addr ⟨1 + a.off, a.base⟩ := by
    intro g hg
    rw [Frame.addr, Frame.addr, hg _ hbase]
  rw [Macros.sh]
  simp only [runOps_append, runOps_cons, runOps_nil]
  rw [Frame.exec_sb_out _ ha.low, run_getbyte _ (by decide) (by decide), Frame.exec_sb_out _ (by
    rw [hhigh _ fun r hr => by simp [hr]]
    simpa using ha.high), hhigh _ fun r hr => by simp [hr]]
  refine ⟨_, rfl, fun r hr => by simp [hr], ?_⟩
  simp [Frame.poke, byteAt_setWidth]

theorem meets_of_frame {ops : List Op} {i : SubWordInst}
    (h : ∀ f : Frame, Linked sym (f.x 2) f.rest →
      (∀ k < i.width, ¬InScratch (f.x 2) (i.address f.x + BitVec.ofNat 32 k)) →
        ∃ g : Frame, runOps ops f.core = g.core ∧ Agrees (f.x 2) (i.exec f.core) g.core) :
    Meets sym ops i := by
  intro code s hplaced hlinked hclear
  obtain ⟨g, hrun, hagrees⟩ := h (ofCore s.toCore) hlinked hclear
  rw [ofCore_core] at hrun hagrees
  exact ⟨_, runN_ops hplaced, rfl, hrun ▸ hagrees⟩

theorem agrees_of_leaves {ops : List Op} {f : Frame} {rd : Reg} {v : Word}
    (h : Leaves ops f rd v [3, 4]) (hrd : rd ≠ 2) :
    ∃ g : Frame, runOps ops f.core = g.core ∧
      Agrees (f.x 2) { f.core with x := f.x.set rd v } g.core := by
  obtain ⟨g, hrun, hvalue, hkeep, hrest⟩ := h
  have hsp : g.x 2 = f.x 2 := hkeep 2 hrd.symm (by decide)
  refine ⟨g, hrun, fun r h3 h4 => ?_, fun a ha => ?_⟩
  · show g.x r = f.x.set rd v r
    rw [RegFile.get_set]
    by_cases hr : r = rd
    · by_cases h0 : rd = 0
      · rw [hr, h0, RegFile.get_zero, if_neg (by simp), RegFile.get_zero]
      · rw [if_pos ⟨hr, h0⟩, hr, hvalue h0]
    · rw [if_neg fun hc => hr hc.1, hkeep r hr (by simp [h3, h4])]
  · show g.core.mem a = f.core.mem a
    rw [Frame.core_mem_out f ha, Frame.core_mem_out g (by rw [hsp]; exact ha), hrest]

/-- Only a halfword at displacement 2047 has an operand that cannot be written. -/
def SubWordInst.Fits (i : SubWordInst) : Prop := i.imm.toInt + i.width ≤ 2048

theorem encodable_iff (i : SubWordInst) : (∀ a ∈ i.operands, Encodable a) ↔ i.Fits := by
  have hb := imm_bounds i.imm
  have hoff : i.operand.off = i.imm.toInt := rfl
  cases i with
  | lb rd imm base =>
    rw [SubWordInst.operands, List.forall_mem_singleton, Encodable, SubWordInst.Fits,
      SubWordInst.width, hoff]
    omega
  | lh r imm base | lhu r imm base | sh r imm base =>
    rw [SubWordInst.operands, List.forall_mem_cons, List.forall_mem_singleton, Encodable,
      Encodable, SubWordInst.Fits, SubWordInst.width, hoff]
    dsimp only
    omega

theorem addr_operand (f : Frame) (i : SubWordInst) : f.addr i.operand = i.address f.x := by
  show f.x i.base + (BitVec.ofInt 12 i.imm.toInt).signExtend 32 = _
  rw [BitVec.ofInt_toInt, SubWordInst.address]

theorem lb_meets {rd base : RegName} {imm : BitVec 12} (hd : Plain rd) :
    Meets sym (SubWordInst.ops sym (.lb rd imm base)) (.lb rd imm base) := by
  refine meets_of_frame fun f hlinked hclear => ?_
  have haddr := addr_operand f (.lb rd imm base)
  have ha : ¬InScratch (f.x 2) (f.addr (SubWordInst.lb rd imm base).operand) := by
    rw [haddr, ← BitVec.add_zero (SubWordInst.address _ _)]
    exact hclear 0 Nat.one_pos
  obtain ⟨g, hrun, hagrees⟩ := agrees_of_leaves (lb_leaves f hd ha hlinked) hd.1
  rw [← f.core_mem_out ha, haddr] at hagrees
  exact ⟨g, hrun, hagrees⟩

theorem clear_of_fits {f : Frame} {i : SubWordInst} (hw : i.width = 2) (hfit : i.Fits)
    (hclear : ∀ k < i.width, ¬InScratch (f.x 2) (i.address f.x + BitVec.ofNat 32 k)) :
    Clear f i.operand ∧ halfwordAt f i.operand = load f.core.mem (i.address f.x) 16 ∧
      f.addr ⟨0 + i.operand.off, i.operand.base⟩ = i.address f.x + BitVec.ofNat 32 0 ∧
      f.addr ⟨1 + i.operand.off, i.operand.base⟩ = i.address f.x + BitVec.ofNat 32 1 := by
  rw [SubWordInst.Fits, hw] at hfit
  have hlow : f.addr ⟨0 + i.operand.off, i.operand.base⟩ = i.address f.x + BitVec.ofNat 32 0 :=
    addr_plus f i (k := 0) (by omega)
  have hhigh : f.addr ⟨1 + i.operand.off, i.operand.base⟩ = i.address f.x + BitVec.ofNat 32 1 :=
    addr_plus f i (k := 1) (by omega)
  have h0 := hclear 0 (by omega)
  have h1 := hclear 1 (by omega)
  refine ⟨⟨?_, ?_⟩, ?_, hlow, hhigh⟩
  · exact hlow ▸ h0
  · exact hhigh ▸ h1
  · rw [load_halfword, f.core_mem_out h0, f.core_mem_out h1, ← hlow, ← hhigh]
    rfl

theorem lhu_meets {rd base : RegName} {imm : BitVec 12} (hd : Plain rd) (hb : (base : Reg) ≠ 4)
    (hfit : (SubWordInst.lhu rd imm base).Fits) :
    Meets sym (SubWordInst.ops sym (.lhu rd imm base)) (.lhu rd imm base) := by
  refine meets_of_frame fun f _ hclear => ?_
  obtain ⟨ha, hload, -⟩ := clear_of_fits rfl hfit hclear
  obtain ⟨g, hrun, hagrees⟩ := agrees_of_leaves (lhu_leaves f hd hb ha) hd.1
  rw [hload] at hagrees
  exact ⟨g, hrun, hagrees⟩

theorem lh_meets {rd base : RegName} {imm : BitVec 12} (hd : Plain rd)
    (hb : (base : Reg) ≠ 3 ∧ (base : Reg) ≠ 4) (hfit : (SubWordInst.lh rd imm base).Fits) :
    Meets sym (SubWordInst.ops sym (.lh rd imm base)) (.lh rd imm base) := by
  refine meets_of_frame fun f hlinked hclear => ?_
  obtain ⟨ha, hload, -⟩ := clear_of_fits rfl hfit hclear
  obtain ⟨g, hrun, hagrees⟩ := agrees_of_leaves (lh_leaves f hd hb ha hlinked) hd.1
  rw [hload] at hagrees
  exact ⟨g, hrun, hagrees⟩

theorem sh_meets {rs base : RegName} {imm : BitVec 12} (hb : (base : Reg) ≠ 4)
    (hfit : (SubWordInst.sh rs imm base).Fits) :
    Meets sym (SubWordInst.ops sym (.sh rs imm base)) (.sh rs imm base) := by
  refine meets_of_frame fun f _ hclear => ?_
  obtain ⟨ha, -, hlow, hhigh⟩ := clear_of_fits rfl hfit hclear
  obtain ⟨g, hrun, hx, hrest⟩ := run_sh rs f hb ha
  have hsp : g.x 2 = f.x 2 := hx 2 (by decide)
  refine ⟨g, hrun, fun r _ h4 => hx r h4, fun a hclear' => ?_⟩
  rw [Frame.core_mem_out g (by rw [hsp]; exact hclear'), hrest]
  show _ = store f.core.mem _ 2 (f.x rs) a
  rw [store, overlay_succ _ _ _ (by decide), overlay_succ _ _ _ (by decide), overlay_zero,
    hlow, hhigh, Function.update_apply, Function.update_apply, Function.update_apply,
    Function.update_apply, f.core_mem_out hclear']
  rfl

theorem subWord_meets {i : SubWordInst} (h : i.Allowed) (hfit : i.Fits) :
    Meets sym (i.ops sym) i := by
  cases i with
  | lb rd imm base => exact lb_meets h.1
  | lh rd imm base => exact lh_meets h.1 h.2 hfit
  | lhu rd imm base => exact lhu_meets h.1 h.2.2 hfit
  | sh rs imm base => exact sh_meets h.2.2 hfit

/-- The expansions of `lb`, `lh`, `lhu` and `sh` mean what RV32I means by them, at every
displacement but 2047 of a halfword. -/
theorem expansion_of_subword_meets_rv32i_iff (sym : Symbols) (i : SubWordInst) (h : i.Allowed) :
    (∃ ops, i.expand sym = some ops ∧ Meets sym ops i) ↔ i.Fits := by
  constructor
  · rintro ⟨ops, hops, -⟩
    by_contra hfit
    rw [SubWordInst.expand, if_neg ((encodable_iff i).not.mpr hfit)] at hops
    cases hops
  · intro hfit
    exact ⟨i.ops sym, if_pos ((encodable_iff i).mpr hfit), subWord_meets h hfit⟩

/-- `lh a0, -4(a0)` in a program linked at `sectionBase`. -/
theorem lh_expands : ∃ ops, (SubWordInst.lh (.abi 10) (-4) (.abi 10)).expand
    (symbolsAt sectionBase) = some ops ∧
      Meets (symbolsAt sectionBase) ops (.lh (.abi 10) (-4) (.abi 10)) :=
  (expansion_of_subword_meets_rv32i_iff _ _ (by decide)).mpr (by
    unfold SubWordInst.Fits
    decide)

/-- The assembler rejects what `lhu a0, 2047(a1)` expands to. -/
theorem lhu_2047_rejected :
    (SubWordInst.lhu (.abi 10) 2047 (.abi 11)).Allowed ∧
      ¬∃ ops, (SubWordInst.lhu (.abi 10) 2047 (.abi 11)).expand (symbolsAt sectionBase) = some ops ∧
        Meets (symbolsAt sectionBase) ops (.lhu (.abi 10) 2047 (.abi 11)) := by
  refine ⟨by decide, ?_⟩
  rintro ⟨ops, hops, -⟩
  have hnone : (SubWordInst.lhu (.abi 10) 2047 (.abi 11)).expand (symbolsAt sectionBase) = none :=
    rfl
  cases hnone.symm.trans hops

end Riscv32Cpu.Rvmini.SubWord
