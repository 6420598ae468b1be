/- module: Riscv32Cpu/Rvmini/Blocks
   source: CODE/abstract-machine/tools/rvmini/inst-replace.h
   digest: What the inner macros do to a frame: bytes, small shifts, sign bits, complement. -/

import Mathlib.Tactic.IntervalCases
import Riscv32Cpu.Rvmini.Tables

set_option autoImplicit false
set_option relaxedAutoImplicit false

namespace Riscv32Cpu.Rvmini.Blocks

open Riscv32Cpu.Lib.Memory Riscv32Cpu.Isa.Rv32i Riscv32Cpu.Rvmini.Scratch
open Riscv32Cpu.Rvmini.Tables
open Riscv32Cpu.Rvmini.Macros (RegName Symbols spVar spVarByte)

variable (f : Frame)

theorem run_getbyte {rd rs1 : RegName} {b : Nat} (hd : (rd : Reg) ≠ 2) (hb : b < 4) :
    runOps (Macros.getbyte rd rs1 b) f.core =
      ((f.put 6 (f.x rs1)).set rd ((byteAt (f.x rs1) b).setWidth 32)).core := by
  simp [Macros.getbyte, hd, hb]

theorem double_shiftLeft (x : Word) (n : Nat) : (x + x) <<< n = x <<< (n + 1) := by
  have hdouble : x + x = x <<< 1 := by
    apply BitVec.eq_of_toNat_eq
    rw [BitVec.toNat_add, BitVec.toNat_shiftLeft, Nat.shiftLeft_eq]
    omega
  rw [hdouble, ← BitVec.shiftLeft_add, Nat.add_comm]

theorem run_doublings {rd : RegName} (hd : (rd : Reg) ≠ 2) (n : Nat) :
    runOps (List.replicate n (Macros.add rd rd rd)) f.core = (f.set rd (f.x rd <<< n)).core := by
  induction n generalizing f with
  | zero =>
    have hself : f.x rd <<< 0 = f.x rd := BitVec.shiftLeft_zero _
    rw [hself, Frame.set_self, List.replicate_zero, runOps_nil]
  | succ n ih =>
    rw [List.replicate_succ, runOps_cons, Frame.exec_add _ hd, ih, Frame.set_set, Frame.set_x]
    by_cases h0 : (rd : Reg) = 0
    · rw [h0, Frame.set_zero, Frame.set_zero]
    · rw [if_pos ⟨rfl, h0⟩, double_shiftLeft]

theorem run_slli_small {rd rs1 : RegName} {imm : Nat} (hd : (rd : Reg) ≠ 2) (h1 : 1 ≤ imm)
    (h16 : imm < 16) :
    runOps (Macros.slli rd rs1 imm) f.core = (f.set rd (f.x rs1 <<< imm)).core := by
  obtain ⟨n, rfl⟩ : ∃ n, imm = n + 1 := ⟨imm - 1, by omega⟩
  rw [Macros.slli, if_neg (by omega), if_neg (by omega), if_neg (by omega), runOps_append,
    runOps_cons, runOps_nil, Frame.exec_add _ hd, Nat.add_sub_cancel, run_doublings _ hd,
    Frame.set_set, Frame.set_x]
  by_cases h0 : (rd : Reg) = 0
  · rw [h0, Frame.set_zero, Frame.set_zero]
  · rw [if_pos ⟨rfl, h0⟩, double_shiftLeft]

theorem sh_spVar (rs : RegName) (n : Nat) :
    Macros.sh rs (spVarByte n 2) = [Macros.sb rs (spVarByte n 2)] ++ Macros.getbyte Macros.tp rs 1 ++
      [Macros.sb Macros.tp (spVarByte n 3)] := by
  have h0 : (0 : Int) + (spVarByte n 2).off = (spVarByte n 2).off := zero_add _
  have h1 : (1 : Int) + (spVarByte n 2).off = (spVarByte n 3).off := by
    simp only [spVarByte]
    omega
  rw [Macros.sh, h0, h1]
  rfl

/-- A word with its low half put into the upper half of another. -/
def upperHalf (w x : Word) : Word := setByte (setByte w 2 (byteAt x 0)) 3 (byteAt x 1)

theorem run_sh_spVar {rs : RegName} {n : Nat} (h1 : 1 ≤ n) (h5 : n ≤ 5) :
    runOps (Macros.sh rs (spVarByte n 2)) f.core =
      (((f.put 6 (f.x rs)).put n (upperHalf (f.var n) (f.x rs))).set 4
        ((byteAt (f.x rs) 1).setWidth 32)).core := by
  have h7 : n ≤ 7 := by omega
  have h6 : n ≠ 6 := by omega
  rw [sh_spVar]
  simp only [runOps_append, runOps_cons, runOps_nil]
  rw [Frame.exec_sb_var _ h1 h7 (by decide), run_getbyte _ (by decide) (by decide),
    Frame.exec_sb_var _ h1 h7 (by decide), Frame.set_put, Frame.put_comm _ _ h6, Frame.put_put]
  simp [byteAt_setWidth, upperHalf]

/-- The sign bit as a word. -/
def signBit (x : Word) : Word := BitVec.ofNat 32 x.msb.toNat

theorem msb_toNat (x : Word) : x.msb.toNat = x.toNat / 2 ^ 31 := by
  have hlt := x.isLt
  rw [BitVec.msb_eq_decide]
  by_cases h : 2 ^ 31 ≤ x.toNat
  · rw [decide_eq_true h, Bool.toNat_true]
    omega
  · rw [decide_eq_false h, Bool.toNat_false]
    omega

theorem byteAt_sign (x : Word) :
    (byteAt ((byteAt x 3).setWidth 32 <<< 1 : Word) 1).setWidth 32 = signBit x := by
  apply BitVec.eq_of_toNat_eq
  have hlt := x.isLt
  have hb : (byteAt x 3).toNat = x.toNat / 2 ^ 24 := by
    rw [byteAt_toNat]
    omega
  rw [signBit, BitVec.toNat_setWidth, byteAt_toNat, BitVec.toNat_shiftLeft, BitVec.toNat_setWidth,
    Nat.shiftLeft_eq, hb, BitVec.toNat_ofNat, msb_toNat]
  omega

theorem run_msb {rd rs1 : RegName} (hd : (rd : Reg) ≠ 2) (h0 : (rd : Reg) ≠ 0) :
    runOps (Macros.msb rd rs1) f.core =
      ((f.put 6 ((byteAt (f.x rs1) 3).setWidth 32 <<< 1)).set rd (signBit (f.x rs1))).core := by
  rw [Macros.msb, runOps_append, runOps_append, run_getbyte _ hd (by decide),
    run_slli_small _ hd (by decide) (by decide), run_getbyte _ hd (by decide)]
  simp [Frame.set_set, Frame.set_put, Frame.put_put, h0, byteAt_sign]

/-- The row of `_xor8_table` that complements. -/
def complementRow (sym : Symbols) : Word := sym.xor8Table + (0xff : Word) <<< 8

theorem complement_byte (b : Byte) : byteAt (xor8 255 b.toNat) 0 = ~~~b := by
  apply BitVec.eq_of_getLsbD_eq
  intro i hi
  rw [getLsbD_byteAt, xor8, BitVec.getLsbD_xor, BitVec.getLsbD_ofNat, BitVec.getLsbD_ofNat,
    BitVec.getLsbD_not]
  have h32 : i < 32 := by omega
  have h255 : Nat.testBit 255 i = true := by interval_cases i <;> rfl
  simp only [Nat.mul_zero, Nat.zero_add, hi, h32, h255, decide_true, Bool.true_and, Bool.true_xor]
  rfl

theorem run_notByte {sym : Symbols} {b : Nat} (hb : b < 4) (hlut : Linked sym (f.x 2) f.rest)
    (htp : f.x 4 = complementRow sym) :
    runOps (Macros.notByte b) f.core =
      ((f.put 7 (setByte (f.var 7) b (~~~ byteAt (f.var 6) b))).set 3
        ((~~~ byteAt (f.var 6) b).setWidth 32)).core := by
  have haddr : (byteAt (f.var 6) b).setWidth 32 + complementRow sym =
      sym.xor8Table + BitVec.ofNat 32 (255 * 256 + (byteAt (f.var 6) b).toNat) := by
    rw [complementRow, BitVec.add_comm, BitVec.add_assoc, BitVec.ofNat_add]
    simp
  have hget := hlut.xor8 255 (by decide) _ (byteAt (f.var 6) b).isLt
  rw [← haddr, complement_byte] at hget
  rw [Macros.notByte]
  simp only [runOps_cons, runOps_nil]
  rw [Frame.exec_lbu_var _ (by decide) (by decide) (by decide) hb, Frame.exec_add _ (by decide),
    Frame.exec_lbu_at0 _ (by decide) (by simpa [htp] using hget.1),
    Frame.exec_sb_var _ (by decide) (by decide) hb]
  simp [htp, hget.2, Frame.set_put, Frame.set_set, byteAt_setWidth]

theorem setBytes_complement (w x : Word) :
    setByte (setByte (setByte (setByte w 3 (~~~ byteAt x 3)) 2 (~~~ byteAt x 2)) 1
      (~~~ byteAt x 1)) 0 (~~~ byteAt x 0) = ~~~ x := by
  refine eq_of_byteAt_eq fun k hk => ?_
  have hnot : byteAt (~~~ x) k = ~~~ byteAt x k := by
    apply BitVec.eq_of_getLsbD_eq
    intro i hi
    have h32 : 8 * k + i < 32 := by omega
    simp only [getLsbD_byteAt, BitVec.getLsbD_not, hi, h32, decide_true, Bool.true_and]
  have hk4 : k < 4 := by omega
  rw [hnot, byteAt_setByte _ _ (by omega), byteAt_setByte _ _ (by omega),
    byteAt_setByte _ _ (by omega), byteAt_setByte _ _ (by omega)]
  interval_cases k <;> rfl

theorem run_not {sym : Symbols} (rd rs1 : RegName) (hd : (rd : Reg) ≠ 2)
    (hlut : Linked sym (f.x 2) f.rest) :
    ∃ g : Frame, runOps (Macros.not sym rd rs1) f.core = g.core ∧
      g.x = (f.x.set 4 (complementRow sym)).set rd (~~~ f.x rs1) ∧
      (∀ n, n ≠ 3 → n ≠ 6 → n ≠ 7 → g.var n = f.var n) ∧ g.rest = f.rest := by
  let f₁ := ((f.put 3 (f.x 3)).put 6 (f.x rs1)).set 4 (complementRow sym)
  have hpre : runOps ([Macros.push Macros.gp 3, Macros.sw rs1 (spVar Macros.varC)] ++
      Macros.la Macros.tp (sym.xor8Table + (0xff : Word) <<< 8)) f.core = f₁.core := by
    simp [f₁, complementRow]
  -- `tp` and the tables stay put while the four bytes are complemented
  have hbyte : ∀ (g : Frame) (b : Nat), b < 4 → g.x 2 = f.x 2 → g.rest = f.rest →
      g.x 4 = complementRow sym → runOps (Macros.notByte b) g.core =
        ((g.put 7 (setByte (g.var 7) b (~~~ byteAt (g.var 6) b))).set 3
          ((~~~ byteAt (g.var 6) b).setWidth 32)).core := by
    intro g b hb hsp hrest htp
    exact run_notByte g hb (by rw [hsp, hrest]; exact hlut) htp
  rw [Macros.not, runOps_append, runOps_append, runOps_append, runOps_append, runOps_append, hpre,
    hbyte _ 3 (by decide) (by simp [f₁]) (by simp [f₁]) (by simp [f₁]),
    hbyte _ 2 (by decide) (by simp [f₁]) (by simp [f₁]) (by simp [f₁]),
    hbyte _ 1 (by decide) (by simp [f₁]) (by simp [f₁]) (by simp [f₁]),
    hbyte _ 0 (by decide) (by simp [f₁]) (by simp [f₁]) (by simp [f₁])]
  simp only [Frame.set_put, Frame.put_put, Frame.set_set, Frame.set_var, Frame.put_var, f₁]
  simp only [Macros.pop, runOps_cons, runOps_nil]
  simp [hd, setBytes_complement]
  refine ⟨_, rfl, RegFile.ext fun r => ?_, fun n h3 h6 h7 => ?_, rfl⟩
  · by_cases hr : r = 3
    · subst hr
      simp [RegFile.get_set]
    · simp [RegFile.get_set, hr]
  · simp [h3, h6, h7]

theorem run_sub {sym : Symbols} (rd rs1 rs2 : RegName) (hd : (rd : Reg) ≠ 2)
    (h1 : (rs1 : Reg) ≠ 4) (hlut : Linked sym (f.x 2) f.rest) :
    ∃ g : Frame, runOps (Macros.sub sym rd rs1 rs2) f.core = g.core ∧
      g.x = (f.x.set 4 (~~~ f.x rs2)).set rd (f.x rs1 - f.x rs2) ∧
      (∀ n, n ≠ 3 → n ≠ 6 → n ≠ 7 → g.var n = f.var n) ∧ g.rest = f.rest := by
  obtain ⟨g, hrun, hx, hvar, hrest⟩ :=
    run_not f Macros.tp rs2 (by decide) hlut
  have hx4 : g.x = f.x.set 4 (~~~ f.x rs2) := by
    rw [hx, reg_tp, RegFile.set_set]
  have htp : g.x 4 = ~~~ f.x rs2 := by simp [hx4, RegFile.get_set]
  have hrs1 : g.x rs1 = f.x rs1 := by simp [hx4, RegFile.get_set, h1]
  have hsum : f.x rs1 + ~~~ f.x rs2 + 1#32 = f.x rs1 - f.x rs2 := by
    rw [BitVec.add_assoc, ← BitVec.neg_eq_not_add, BitVec.sub_eq_add_neg]
  refine ⟨g.set rd (f.x rs1 - f.x rs2), ?_, ?_, ?_, hrest⟩
  · rw [Macros.sub, runOps_append, hrun]
    by_cases h0 : (rd : Reg) = 0
    · simp [h0]
    · simp [hd, h0, htp, hrs1, hsum, Frame.set_set]
  · rw [← hx4]
    rfl
  · intro n h3 h6 h7
    simpa using hvar n h3 h6 h7

end Riscv32Cpu.Rvmini.Blocks
