/- module: Riscv32Cpu/Rvmini/Scratch
   source: CODE/abstract-machine/tools/rvmini/inst-replace.h
   digest: Registers, the seven scratch words below sp, and the rest of memory. -/

import Mathlib.Tactic.IntervalCases
import Riscv32Cpu.Rvmini.Macros

set_option autoImplicit false
set_option relaxedAutoImplicit false

namespace Riscv32Cpu.Rvmini.Scratch

open Riscv32Cpu.Lib.Memory Riscv32Cpu.Isa.Rv32i
open Riscv32Cpu.Rvmini.Macros (RegName Operand spVar spVarByte hi lo)

@[simp] theorem reg_x0 : Macros.x0.reg = 0 := by decide
@[simp] theorem reg_zero : Macros.zero.reg = 0 := by decide
@[simp] theorem reg_sp : Macros.sp.reg = 2 := by decide
@[simp] theorem reg_gp : Macros.gp.reg = 3 := by decide
@[simp] theorem reg_tp : Macros.tp.reg = 4 := by decide
@[simp] theorem reg_s0 : Macros.s0.reg = 8 := by decide
@[simp] theorem reg_s1 : Macros.s1.reg = 9 := by decide

attribute [simp] Macros.varA Macros.varB Macros.varC Macros.varD Macros.push Macros.pop

/-- The lowest scratch address, `-28(sp)`. -/
def scratchBase (v : Word) : Word := v - 28

/-- `a` is one of the bytes of `-4(sp) … -28(sp)`, for `sp = v`. -/
def InScratch (v a : Word) : Prop := (a - scratchBase v).toNat < 28

instance (v a : Word) : Decidable (InScratch v a) := inferInstanceAs (Decidable (_ < _))

/-- A hart seen by the macros: `var n` is the word `SP_VAR(n)`, `rest` the memory under the
scratch words. -/
structure Frame where
  x : RegFile
  var : Nat → Word
  rest : Mem 32

/-- Byte `k` of the scratch area, from its lowest address up. -/
def scratchByte (var : Nat → Word) (k : Nat) : Byte := byteAt (var (7 - k / 4)) (k % 4)

def Frame.core (f : Frame) : Core where
  x := f.x
  mem := overlay f.rest (scratchBase (f.x 2)) 28 (scratchByte f.var)

/-- Every hart is the hart of a frame. -/
def ofCore (c : Core) : Frame where
  x := c.x
  var n := load c.mem (scratchBase (c.x 2) + BitVec.ofNat 32 (28 - 4 * n)) 32
  rest := c.mem

namespace Frame

def set (f : Frame) (d : Reg) (v : Word) : Frame := { f with x := f.x.set d v }

def put (f : Frame) (n : Nat) (v : Word) : Frame := { f with var := Function.update f.var n v }

def poke (f : Frame) (a : Word) (b : Byte) : Frame :=
  { f with rest := Function.update f.rest a b }

variable (f : Frame) (d : Reg) (v : Word) (n : Nat)

@[simp] theorem set_x (r : Reg) : (f.set d v).x r = if r = d ∧ d ≠ 0 then v else f.x r := rfl

@[simp high] theorem set_x_zero : (f.set d v).x 0 = 0 := RegFile.get_zero _

@[simp] theorem set_var : (f.set d v).var = f.var := rfl
@[simp] theorem set_rest : (f.set d v).rest = f.rest := rfl
@[simp] theorem put_x : (f.put n v).x = f.x := rfl
@[simp] theorem put_rest : (f.put n v).rest = f.rest := rfl
@[simp] theorem poke_x (b : Byte) : (f.poke v b).x = f.x := rfl
@[simp] theorem poke_var (b : Byte) : (f.poke v b).var = f.var := rfl

@[simp] theorem put_var (k : Nat) : (f.put n v).var k = if k = n then v else f.var k :=
  Function.update_apply ..

theorem poke_rest (b : Byte) (a : Word) : (f.poke v b).rest a = if a = v then b else f.rest a :=
  Function.update_apply ..

@[simp] theorem set_zero : f.set 0 v = f := by
  simp [set]

theorem set_set (w : Word) : (f.set d v).set d w = f.set d w := by
  simp [set, RegFile.set_set]

theorem set_put (w : Word) : (f.set d v).put n w = (f.put n w).set d v := rfl

theorem put_put (w : Word) : (f.put n v).put n w = f.put n w := by
  simp [put]

theorem put_comm {n k : Nat} (h : n ≠ k) (w : Word) :
    (f.put n v).put k w = (f.put k w).put n v := by
  rw [put, put, put, put, Function.update_comm h]

theorem set_self : f.set d (f.x d) = f := by
  have hx : f.x.set d (f.x d) = f.x := by
    refine RegFile.ext fun r => ?_
    rw [RegFile.get_set]
    split
    · next h => rw [h.1]
    · rfl
  rw [set, hx]

theorem core_mem : f.core.mem = overlay f.rest (scratchBase (f.x 2)) 28 (scratchByte f.var) := rfl

theorem core_mem_out {a : Word} (h : ¬InScratch (f.x 2) a) : f.core.mem a = f.rest a :=
  overlay_out _ _ h

end Frame

theorem ofCore_core (c : Core) : (ofCore c).core = c := by
  have hbytes : ∀ k < 28, scratchByte (ofCore c).var k =
      c.mem (scratchBase (c.x 2) + BitVec.ofNat 32 k) := by
    intro k hk
    have hpos : 28 - 4 * (7 - k / 4) + k % 4 = k := by omega
    change byteAt (load _ _ 32) (k % 4) = _
    rw [load, byteAt_ofBytes _ (by omega), BitVec.add_assoc, ← BitVec.ofNat_add, hpos]
  have hmem : (ofCore c).core.mem = c.mem := by
    rw [Frame.core, overlay_congr _ _ hbytes]
    exact overlay_self c.mem _ 28
  cases c
  exact congrArg _ hmem

theorem upper_hi_add_lo (a : Word) : upper (hi a) + (lo a).signExtend 32 = a := by
  apply BitVec.eq_of_toNat_eq
  have hmsb : (lo a).msb = decide (2048 ≤ (lo a).toNat) := BitVec.msb_eq_decide ..
  have hlo : (lo a).toNat = a.toNat % 4096 := by
    simp [lo, BitVec.extractLsb'_toNat]
  have hhi : (hi a).toNat = (a.toNat + 2048) % 2 ^ 32 / 4096 % 2 ^ 20 := by
    simp [hi, BitVec.extractLsb'_toNat, Nat.shiftRight_eq_div_pow]
  have hup : (upper (hi a)).toNat = (hi a).toNat * 4096 % 2 ^ 32 := by
    rw [upper, BitVec.toNat_shiftLeft, BitVec.toNat_setWidth, Nat.shiftLeft_eq]
    omega
  have hlt := a.isLt
  rw [BitVec.toNat_add, BitVec.toNat_signExtend, BitVec.toNat_setWidth, hup, hmsb, hlo, hhi]
  by_cases h : 2048 ≤ a.toNat % 4096 <;> simp only [h, decide_true, decide_false, if_true,
    Bool.false_eq_true, if_false] <;> omega

theorem spVarByte_addr (v : Word) {n b : Nat} (h1 : 1 ≤ n) (h7 : n ≤ 7) (hb : b < 4) :
    v + (BitVec.ofInt 12 (spVarByte n b).off).signExtend 32 =
      scratchBase v + BitVec.ofNat 32 (28 - 4 * n + b) := by
  have hoff : (BitVec.ofInt 12 (spVarByte n b).off).signExtend 32 =
      BitVec.ofNat 32 (28 - 4 * n + b) - 28 := by
    interval_cases n <;> interval_cases b <;> decide
  rw [hoff, scratchBase, sub_add_eq_add_sub, add_sub_assoc]

/-! What one instruction of an expansion does to the frame. None of them writes `sp`. -/

namespace Frame

variable (f : Frame)

theorem core_set {d : Reg} (hd : d ≠ 2) (v : Word) :
    { f.core with x := f.x.set d v } = (f.set d v).core := by
  have hsp : (f.set d v).x 2 = f.x 2 := RegFile.set_ne _ _ hd.symm
  simp only [core, hsp]
  rfl

@[simp] theorem exec_add {rd rs1 rs2 : RegName} (hd : (rd : Reg) ≠ 2) :
    (Macros.add rd rs1 rs2).exec f.core = (f.set rd (f.x rs1 + f.x rs2)).core :=
  f.core_set hd _

@[simp] theorem exec_addi {rd rs1 : RegName} (imm : BitVec 12) (hd : (rd : Reg) ≠ 2) :
    (Macros.addi rd rs1 imm).exec f.core = (f.set rd (f.x rs1 + imm.signExtend 32)).core :=
  f.core_set hd _

@[simp] theorem exec_mv {rd rs : RegName} (hd : (rd : Reg) ≠ 2) :
    (Macros.mv rd rs).exec f.core = (f.set rd (f.x rs)).core := by
  have hzero : f.x rs + (0 : BitVec 12).signExtend 32 = f.x rs := by simp
  rw [Macros.mv, exec_addi f _ hd, hzero]

@[simp] theorem exec_li {rd : RegName} (imm : BitVec 12) (hd : (rd : Reg) ≠ 2) :
    (Macros.li rd imm).exec f.core = (f.set rd (imm.signExtend 32)).core := by
  have hzero : f.x Macros.zero.reg + imm.signExtend 32 = imm.signExtend 32 := by
    have h0 : f.x Macros.zero.reg = 0 := f.x.zero
    rw [h0, zero_add]
  rw [Macros.li, exec_addi f _ hd, hzero]

@[simp] theorem run_la {r : RegName} (a : Word) (hr : (r : Reg) ≠ 2) :
    runOps (Macros.la r a) f.core = (f.set r a).core := by
  rw [Macros.la, runOps_cons, runOps_cons, runOps_nil]
  have hlui : (Op.lui r (hi a)).exec f.core = (f.set r (upper (hi a))).core := f.core_set hr _
  rw [hlui, exec_addi _ _ hr, set_set, set_x]
  by_cases h0 : (r : Reg) = 0
  · rw [h0, set_zero, set_zero]
  · rw [if_pos ⟨rfl, h0⟩, upper_hi_add_lo]

variable {n b : Nat}

theorem core_put (h1 : 1 ≤ n) (h7 : n ≤ 7) (hb : b < 4) (v : Byte) :
    overlay f.core.mem (scratchBase (f.x 2) + BitVec.ofNat 32 (28 - 4 * n + b)) 1 (fun _ => v) =
      (f.put n (setByte (f.var n) b v)).core.mem := by
  rw [core, overlay_overlay_inside _ _ _ _ (by omega) (by decide) (by decide), core]
  refine overlay_congr _ _ fun k hk => ?_
  rw [scratchByte, scratchByte, put_var]
  by_cases hn : 7 - k / 4 = n
  · rw [if_pos hn, byteAt_setByte _ _ (by omega), hn]
    by_cases hkb : k % 4 = b
    · rw [if_pos (by omega), if_pos hkb]
    · rw [if_neg (by omega), if_neg hkb]
  · rw [if_neg hn, if_neg (by omega)]

@[simp] theorem exec_sb_var {rs : RegName} (h1 : 1 ≤ n) (h7 : n ≤ 7) (hb : b < 4) :
    (Macros.sb rs (spVarByte n b)).exec f.core =
      (f.put n (setByte (f.var n) b (byteAt (f.x rs) 0))).core := by
  have haddr := spVarByte_addr (f.x 2) h1 h7 hb
  have hmem : store f.core.mem (f.x 2 + (BitVec.ofInt 12 (spVarByte n b).off).signExtend 32) 1
      (f.x rs) = (f.put n (setByte (f.var n) b (byteAt (f.x rs) 0))).core.mem := by
    rw [haddr, ← core_put f h1 h7 hb, store]
    exact overlay_congr _ _ fun k hk => by rw [Nat.lt_one_iff.mp hk]
  exact congrArg (Core.mk f.x) hmem

@[simp] theorem exec_sw_var {rs : RegName} (h1 : 1 ≤ n) (h7 : n ≤ 7) :
    (Macros.sw rs (spVar n)).exec f.core = (f.put n (f.x rs)).core := by
  have haddr := spVarByte_addr (f.x 2) h1 h7 (by decide : 0 < 4)
  have hmem : store f.core.mem (f.x 2 + (BitVec.ofInt 12 (spVar n).off).signExtend 32) 4
      (f.x rs) = (f.put n (f.x rs)).core.mem := by
    rw [spVar, haddr, store, core, overlay_overlay_inside _ _ _ _ (by omega) (by decide)
      (by decide), core]
    refine overlay_congr _ _ fun k hk => ?_
    rw [scratchByte, scratchByte, put_var]
    by_cases hn : 7 - k / 4 = n
    · have hk4 : k - (28 - 4 * n + 0) = k % 4 := by omega
      rw [if_pos hn, if_pos (by omega), hk4]
    · rw [if_neg hn, if_neg (by omega)]
  exact congrArg (Core.mk f.x) hmem

theorem core_mem_var (h1 : 1 ≤ n) (h7 : n ≤ 7) (hb : b < 4) :
    f.core.mem (scratchBase (f.x 2) + BitVec.ofNat 32 (28 - 4 * n + b)) = byteAt (f.var n) b := by
  have hn : 7 - (28 - 4 * n + b) / 4 = n := by omega
  have hm : (28 - 4 * n + b) % 4 = b := by omega
  rw [core_mem, overlay_in _ _ _ (by omega) (by decide), scratchByte, hn, hm]

@[simp] theorem exec_lbu_var {rd : RegName} (hd : (rd : Reg) ≠ 2) (h1 : 1 ≤ n) (h7 : n ≤ 7)
    (hb : b < 4) : (Macros.lbu rd (spVarByte n b)).exec f.core =
      (f.set rd ((byteAt (f.var n) b).setWidth 32)).core := by
  have hmem : f.core.mem (f.x 2 + (BitVec.ofInt 12 (spVarByte n b).off).signExtend 32) =
      byteAt (f.var n) b := by
    rw [spVarByte_addr (f.x 2) h1 h7 hb, core_mem_var f h1 h7 hb]
  rw [← hmem]
  exact f.core_set hd _

@[simp] theorem exec_lw_var {rd : RegName} (hd : (rd : Reg) ≠ 2) (h1 : 1 ≤ n) (h7 : n ≤ 7) :
    (Macros.lw rd (spVar n)).exec f.core = (f.set rd (f.var n)).core := by
  have hmem : load f.core.mem (f.x 2 + (BitVec.ofInt 12 (spVar n).off).signExtend 32) 32 =
      f.var n := by
    rw [spVar, spVarByte_addr (f.x 2) h1 h7 (by decide)]
    refine (ofBytes_congr fun k hk => ?_).trans (ofBytes_byteAt _)
    rw [BitVec.add_assoc, ← BitVec.ofNat_add, Nat.add_zero, core_mem_var f h1 h7 (by omega)]
  have h := f.core_set hd (load f.core.mem
    (f.x 2 + (BitVec.ofInt 12 (spVar n).off).signExtend 32) 32)
  rw [hmem] at h
  rw [← h, ← hmem]
  rfl

theorem at0_addr (v : Word) (r : RegName) :
    v + (BitVec.ofInt 12 (Macros.at0 r).off).signExtend 32 = v := by
  have h : (BitVec.ofInt 12 (Macros.at0 r).off).signExtend 32 = 0 := rfl
  rw [h, add_zero]

/-- The address of a memory operand. -/
def addr (a : Operand) : Word := f.x a.base + (BitVec.ofInt 12 a.off).signExtend 32

@[simp] theorem addr_put (n : Nat) (v : Word) (a : Operand) : (f.put n v).addr a = f.addr a := rfl

@[simp] theorem addr_poke (b : Word) (v : Byte) (a : Operand) : (f.poke b v).addr a = f.addr a :=
  rfl

theorem exec_lbu_out {rd : RegName} {a : Operand} (hd : (rd : Reg) ≠ 2)
    (h : ¬InScratch (f.x 2) (f.addr a)) :
    (Macros.lbu rd a).exec f.core = (f.set rd ((f.rest (f.addr a)).setWidth 32)).core := by
  rw [← core_mem_out f h]
  exact f.core_set hd _

theorem exec_lbu_at0 {rd r : RegName} (hd : (rd : Reg) ≠ 2) (h : ¬InScratch (f.x 2) (f.x r)) :
    (Macros.lbu rd (Macros.at0 r)).exec f.core =
      (f.set rd ((f.rest (f.x r)).setWidth 32)).core := by
  have haddr : f.addr (Macros.at0 r) = f.x r := at0_addr (f.x r) r
  rw [exec_lbu_out f hd (by rw [haddr]; exact h), haddr]

theorem exec_lbu_any (rd : RegName) (a : Operand) (hd : (rd : Reg) ≠ 2) :
    ∃ v, (Macros.lbu rd a).exec f.core = (f.set rd v).core := ⟨_, f.core_set hd _⟩

theorem exec_lw_any (rd : RegName) (a : Operand) (hd : (rd : Reg) ≠ 2) :
    ∃ v, (Macros.lw rd a).exec f.core = (f.set rd v).core := ⟨_, f.core_set hd _⟩

theorem exec_lw_at0 {rd r : RegName} (hd : (rd : Reg) ≠ 2)
    (h : ∀ k < 4, ¬InScratch (f.x 2) (f.x r + BitVec.ofNat 32 k)) :
    (Macros.lw rd (Macros.at0 r)).exec f.core = (f.set rd (load f.rest (f.x r) 32)).core := by
  have hmem : load f.core.mem (f.x r + (BitVec.ofInt 12 (Macros.at0 r).off).signExtend 32) 32 =
      load f.rest (f.x r) 32 := by
    rw [at0_addr]
    exact load_congr fun k hk => core_mem_out f (h k (by omega))
  rw [← hmem]
  exact f.core_set hd _

theorem exec_sb_out {rs : RegName} {a : Operand} (h : ¬InScratch (f.x 2) (f.addr a)) :
    (Macros.sb rs a).exec f.core = (f.poke (f.addr a) (byteAt (f.x rs) 0)).core := by
  have hmem : store f.core.mem (f.addr a) 1 (f.x rs) =
      (f.poke (f.addr a) (byteAt (f.x rs) 0)).core.mem := by
    funext b
    rw [store_byte, Function.update_apply]
    by_cases hb : b = f.addr a
    · subst hb
      rw [if_pos rfl, core_mem_out (f.poke _ _) h, poke_rest, if_pos rfl]
    · rw [if_neg hb]
      simp only [core, overlay, poke_x, poke_var, poke_rest, if_neg hb]
  exact congrArg (Core.mk f.x) hmem

theorem exec_sb_at0 {rs r : RegName} (h : ¬InScratch (f.x 2) (f.x r)) :
    (Macros.sb rs (Macros.at0 r)).exec f.core =
      (f.poke (f.x r) (byteAt (f.x rs) 0)).core := by
  have haddr : f.addr (Macros.at0 r) = f.x r := at0_addr (f.x r) r
  rw [exec_sb_out f (by rw [haddr]; exact h), haddr]

end Frame

end Riscv32Cpu.Rvmini.Scratch
