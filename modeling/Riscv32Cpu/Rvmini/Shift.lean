/- module: Riscv32Cpu/Rvmini/Shift
   source: CODE/abstract-machine/tools/rvmini/inst-replace.h, gen-lut.c
   digest: Shifts assembled from one table word for each byte of the operand. -/

import Mathlib.Tactic.IntervalCases
import Riscv32Cpu.Rvmini.Image

set_option autoImplicit false
set_option relaxedAutoImplicit false

namespace Riscv32Cpu.Rvmini.Shift

open Riscv32Cpu.Lib.Memory Riscv32Cpu.Lib.Run Riscv32Cpu.Isa.Rv32i Riscv32Cpu.Rvmini.Scratch
open Riscv32Cpu.Rvmini.Tables Riscv32Cpu.Rvmini.Blocks Riscv32Cpu.Rvmini.Meaning
open Riscv32Cpu.Rvmini.Image
open Riscv32Cpu.Rvmini.Macros (RegName Symbols spVar spVarByte)

theorem ediv_add_low (p : Int) {q : Int} {k : Nat} (s : Nat) (h0 : 0 ≤ q) (hq : q < 2 ^ k) :
    (p * 2 ^ k + q) / 2 ^ s = p * 2 ^ k / 2 ^ s + q / 2 ^ s := by
  rcases Nat.le_total s k with hsk | hks
  · obtain ⟨d, rfl⟩ := Nat.exists_eq_add_of_le hsk
    have hdvd : (2 : Int) ^ s ∣ p * 2 ^ (s + d) := by
      rw [pow_add]
      exact Dvd.dvd.mul_left (Dvd.intro _ rfl) p
    exact Int.add_ediv_of_dvd_left hdvd
  · obtain ⟨d, rfl⟩ := Nat.exists_eq_add_of_le hks
    have hpos : (0 : Int) < 2 ^ k := pow_pos (by decide) k
    have hlow : q / 2 ^ (k + d) = 0 := by
      refine Int.ediv_eq_zero_of_lt h0 (hq.trans_le ?_)
      exact pow_le_pow_right₀ (by decide) (Nat.le_add_right k d)
    rw [hlow, add_zero, pow_add, ← Int.ediv_ediv_of_nonneg hpos.le, ← Int.ediv_ediv_of_nonneg hpos.le,
      Int.mul_ediv_cancel _ hpos.ne', Int.add_comm, Int.add_mul_ediv_right _ _ hpos.ne',
      Int.ediv_eq_zero_of_lt h0 hq, zero_add]

theorem div_add_low (p : Nat) {q k : Nat} (s : Nat) (hq : q < 2 ^ k) :
    (p * 2 ^ k + q) / 2 ^ s = p * 2 ^ k / 2 ^ s + q / 2 ^ s := by
  have h := ediv_add_low p (q := q) (k := k) s (Int.natCast_nonneg q) (by exact_mod_cast hq)
  exact_mod_cast h

/-- What the three lower bytes contribute to a right shift. -/
def lowShift (x : Word) (s : Nat) : Nat := x.toNat % 2 ^ 24 / 2 ^ s

theorem lowShift_bytes (x : Word) (s : Nat) :
    lowShift x s = (byteAt x 2).toNat * 2 ^ 16 / 2 ^ s + (byteAt x 1).toNat * 2 ^ 8 / 2 ^ s +
      (byteAt x 0).toNat / 2 ^ s := by
  have h0 := (byteAt x 0).isLt
  have h1 := (byteAt x 1).isLt
  have hlow : x.toNat % 2 ^ 24 =
      (byteAt x 2).toNat * 2 ^ 16 + ((byteAt x 1).toNat * 2 ^ 8 + (byteAt x 0).toNat) := by
    have hx := toNat_eq_bytes x
    have h2 := (byteAt x 2).isLt
    omega
  rw [lowShift, hlow, div_add_low _ _ (by omega), div_add_low _ _ (by omega), Nat.add_assoc]

theorem ushiftRight_pieces (x : Word) (s : Nat) :
    x >>> s = srl8 s (byteAt x 3).toNat + BitVec.ofNat 32 (lowShift x s) := by
  have hx := x.isLt
  have h3 : (byteAt x 3).toNat = x.toNat / 2 ^ 24 := by
    rw [byteAt_toNat]
    omega
  have hsplit : x.toNat / 2 ^ s = x.toNat / 2 ^ 24 * 2 ^ 24 / 2 ^ s + lowShift x s := by
    rw [lowShift, ← div_add_low _ _ (Nat.mod_lt _ (by decide)), Nat.div_add_mod']
  have htop : (srl8 s (byteAt x 3).toNat).toNat = x.toNat / 2 ^ 24 * 2 ^ 24 / 2 ^ s := by
    rw [srl8, BitVec.toNat_ushiftRight, BitVec.toNat_shiftLeft, BitVec.toNat_ofNat,
      Nat.shiftRight_eq_div_pow, Nat.shiftLeft_eq, h3]
    congr 1
    omega
  apply BitVec.eq_of_toNat_eq
  have hlt : x.toNat / 2 ^ s < 2 ^ 32 := (Nat.div_le_self _ _).trans_lt hx
  rw [BitVec.toNat_ushiftRight, BitVec.toNat_add, BitVec.toNat_ofNat, htop,
    Nat.shiftRight_eq_div_pow, hsplit, Nat.add_mod_mod, Nat.mod_eq_of_lt (hsplit ▸ hlt)]

theorem sshiftRight_eq_ofInt (x : Word) (s : Nat) :
    x.sshiftRight s = BitVec.ofInt 32 (x.toInt / 2 ^ s) := by
  rw [BitVec.sshiftRight, Int.shiftRight_eq_div_pow, Nat.cast_pow, Nat.cast_ofNat]

theorem toInt_top (x : Word) : ∃ p : Int,
    (BitVec.ofNat 32 (byteAt x 3).toNat <<< 24 : Word).toInt = p * 2 ^ 24 ∧
      x.toInt = p * 2 ^ 24 + (x.toNat % 2 ^ 24 : Nat) := by
  have hx := x.isLt
  have h3 : (byteAt x 3).toNat = x.toNat / 2 ^ 24 := by
    rw [byteAt_toNat]
    omega
  have htop : (BitVec.ofNat 32 (byteAt x 3).toNat <<< 24 : Word).toNat =
      x.toNat / 2 ^ 24 * 2 ^ 24 := by
    rw [BitVec.toNat_shiftLeft, BitVec.toNat_ofNat, Nat.shiftLeft_eq, h3]
    omega
  rw [BitVec.toInt_eq_toNat_cond, BitVec.toInt_eq_toNat_cond, htop]
  by_cases hs : 2 * x.toNat < 2 ^ 32
  · exact ⟨(x.toNat / 2 ^ 24 : Nat), by rw [if_pos (by omega)]; omega, by rw [if_pos hs]; omega⟩
  · exact ⟨(x.toNat / 2 ^ 24 : Nat) - 256, by rw [if_neg (by omega)]; omega,
      by rw [if_neg hs]; omega⟩

theorem sshiftRight_pieces (x : Word) (s : Nat) :
    x.sshiftRight s = sra8 s (byteAt x 3).toNat + BitVec.ofNat 32 (lowShift x s) := by
  obtain ⟨p, hp, hxp⟩ := toInt_top x
  have hlow : (x.toNat % 2 ^ 24 : Nat) < (2 : Int) ^ 24 := by omega
  have hcast : ((lowShift x s : Nat) : Int) = (x.toNat % 2 ^ 24 : Nat) / 2 ^ s := by
    rw [lowShift, Int.natCast_ediv, Nat.cast_pow, Nat.cast_ofNat]
  rw [sra8, sshiftRight_eq_ofInt, sshiftRight_eq_ofInt, hp, hxp,
    ediv_add_low p s (Int.natCast_nonneg _) hlow, BitVec.ofInt_add, ← hcast, BitVec.ofInt_natCast]

theorem shiftLeft_pieces (x : Word) (s : Nat) :
    x <<< s = sll8 s (byteAt x 3).toNat <<< 24 + sll8 s (byteAt x 2).toNat <<< 16 +
      sll8 s (byteAt x 1).toNat <<< 8 + sll8 s (byteAt x 0).toNat := by
  have hpiece : ∀ b k : Nat, sll8 s b <<< k = BitVec.ofNat 32 (b * 2 ^ k * 2 ^ s) := by
    intro b k
    apply BitVec.eq_of_toNat_eq
    rw [sll8, BitVec.toNat_shiftLeft, BitVec.toNat_shiftLeft, BitVec.toNat_ofNat,
      BitVec.toNat_ofNat, Nat.shiftLeft_eq, Nat.shiftLeft_eq, Nat.mod_mul_mod, Nat.mul_assoc,
      Nat.mod_mul_mod, Nat.mul_comm (2 ^ s), Nat.mul_assoc]
  have hx : x <<< s = BitVec.ofNat 32 (x.toNat * 2 ^ s) := by
    apply BitVec.eq_of_toNat_eq
    rw [BitVec.toNat_shiftLeft, BitVec.toNat_ofNat, Nat.shiftLeft_eq]
  have h0 : sll8 s (byteAt x 0).toNat = BitVec.ofNat 32 ((byteAt x 0).toNat * 2 ^ s) := by
    have h := hpiece (byteAt x 0).toNat 0
    rw [BitVec.shiftLeft_zero, pow_zero, Nat.mul_one] at h
    exact h
  rw [hx, hpiece, hpiece, hpiece, h0, ← BitVec.ofNat_add, ← BitVec.ofNat_add, ← BitVec.ofNat_add,
    ← Nat.add_mul, ← Nat.add_mul, ← Nat.add_mul]
  congr 2
  have hbytes := toNat_eq_bytes x
  omega

theorem no_carry {p q r s : Nat} (hp : p < 256) (hq : q < 256) (hr : r < 256) (hs : s < 32) :
    p * 2 ^ 16 / 2 ^ s % 256 + q * 2 ^ 8 / 2 ^ s % 256 + r / 2 ^ s < 256 ∧
      p * 2 ^ 16 / 2 ^ s / 256 % 256 + q * 2 ^ 8 / 2 ^ s / 256 < 256 := by
  interval_cases s <;> omega

/-- The word `shift_right_template` assembles from the table words of bytes 2, 1 and 0. -/
def mergeLow (w₂ w₁ w₀ : Word) : Word :=
  setByte (setByte
    ((byteAt w₂ 1).setWidth 32 + (byteAt w₁ 2).setWidth 32 + (byteAt w₀ 3).setWidth 32)
    1 (byteAt ((byteAt w₂ 2).setWidth 32 + (byteAt w₁ 3).setWidth 32 : Word) 0))
    2 (byteAt w₂ 3)

theorem mergeLow_toNat {w₂ w₁ w₀ : Word}
    (h0 : (byteAt w₂ 1).toNat + (byteAt w₁ 2).toNat + (byteAt w₀ 3).toNat < 256)
    (h1 : (byteAt w₂ 2).toNat + (byteAt w₁ 3).toNat < 256) :
    (mergeLow w₂ w₁ w₀).toNat =
      (byteAt w₂ 1).toNat + (byteAt w₁ 2).toNat + (byteAt w₀ 3).toNat +
        256 * ((byteAt w₂ 2).toNat + (byteAt w₁ 3).toNat) + 65536 * (byteAt w₂ 3).toNat := by
  have hsum : ((byteAt w₂ 1).setWidth 32 + (byteAt w₁ 2).setWidth 32 +
      (byteAt w₀ 3).setWidth 32 : Word).toNat =
        (byteAt w₂ 1).toNat + (byteAt w₁ 2).toNat + (byteAt w₀ 3).toNat := by
    simp only [BitVec.toNat_add, BitVec.toNat_setWidth]
    omega
  have hmid : ((byteAt w₂ 2).setWidth 32 + (byteAt w₁ 3).setWidth 32 : Word).toNat =
      (byteAt w₂ 2).toNat + (byteAt w₁ 3).toNat := by
    simp only [BitVec.toNat_add, BitVec.toNat_setWidth]
    omega
  have hbyte : ∀ k < 4, byteAt (mergeLow w₂ w₁ w₀) k =
      if k = 2 then byteAt w₂ 3 else if k = 1 then
        byteAt ((byteAt w₂ 2).setWidth 32 + (byteAt w₁ 3).setWidth 32 : Word) 0
      else byteAt ((byteAt w₂ 1).setWidth 32 + (byteAt w₁ 2).setWidth 32 +
        (byteAt w₀ 3).setWidth 32 : Word) k := by
    intro k hk
    rw [mergeLow, byteAt_setByte _ _ (by omega), byteAt_setByte _ _ (by omega)]
  rw [toNat_eq_bytes, hbyte 0 (by decide), hbyte 1 (by decide), hbyte 2 (by decide),
    hbyte 3 (by decide)]
  simp only [if_true, if_false, Nat.reduceEqDiff, OfNat.zero_ne_ofNat, zero_ne_one,
    byteAt_toNat (_ + _), hsum, hmid]
  omega

theorem mergeLow_eq (x : Word) {s : Nat} (hs : s < 32) :
    mergeLow (srl8 s (byteAt x 2).toNat) (srl8 s (byteAt x 1).toNat)
      (srl8 s (byteAt x 0).toNat) = BitVec.ofNat 32 (lowShift x s) := by
  have hp := (byteAt x 2).isLt
  have hq := (byteAt x 1).isLt
  have hr := (byteAt x 0).isLt
  have hlow := lowShift_bytes x s
  obtain ⟨hc0, hc1⟩ := no_carry hp hq hr hs
  -- byte `j` of a table word counts from the place its piece has in the result
  have hword : ∀ b : Byte, ∀ k j, 8 * k + j = 24 →
      (srl8 s b.toNat).toNat / 2 ^ (8 * k) = b.toNat * 2 ^ j / 2 ^ s := by
    intro b k j hkj
    have hb := b.isLt
    have htop : (srl8 s b.toNat).toNat = b.toNat * 2 ^ 24 / 2 ^ s := by
      rw [srl8, BitVec.toNat_ushiftRight, BitVec.toNat_shiftLeft, BitVec.toNat_ofNat,
        Nat.shiftRight_eq_div_pow, Nat.shiftLeft_eq]
      congr 1
      omega
    rw [htop, Nat.div_div_eq_div_mul, Nat.mul_comm (2 ^ s), ← Nat.div_div_eq_div_mul, ← hkj,
      pow_add, Nat.mul_left_comm, Nat.mul_div_cancel_left _ (Nat.two_pow_pos _)]
  have h2 := hword (byteAt x 2) 1 16 rfl
  have h1 := hword (byteAt x 1) 2 8 rfl
  have h0 := hword (byteAt x 0) 3 0 rfl
  rw [pow_zero, Nat.mul_one] at h0
  rw [← h2, ← h1, ← h0] at hlow hc0
  rw [← h2, ← h1] at hc1
  have hlt : lowShift x s < 2 ^ 24 := (Nat.div_le_self _ _).trans_lt (Nat.mod_lt _ (by decide))
  generalize srl8 s (byteAt x 2).toNat = w₂, srl8 s (byteAt x 1).toNat = w₁,
    srl8 s (byteAt x 0).toNat = w₀ at hlow hc0 hc1 ⊢
  have hw₂ := w₂.isLt
  have hw₁ := w₁.isLt
  have hw₀ := w₀.isLt
  apply BitVec.eq_of_toNat_eq
  rw [mergeLow_toNat (by simp only [byteAt_toNat]; omega) (by simp only [byteAt_toNat]; omega),
    BitVec.toNat_ofNat, hlow]
  simp only [byteAt_toNat]
  omega

/-- The shift amount RV32I takes from a register. -/
def shamt (x : Word) : Nat := x.toNat % 32

theorem shamt_lookup (x : Word) :
    (byteAt (and8 31 (byteAt x 0).toNat) 0).setWidth 32 = BitVec.ofNat 32 (shamt x) := by
  have hb : (byteAt x 0).toNat = x.toNat % 256 := by
    rw [byteAt_toNat]
    omega
  have hand : 31 &&& (byteAt x 0).toNat = x.toNat % 32 := by
    rw [Nat.land_comm, hb]
    have h := Nat.and_two_pow_sub_one_eq_mod (x.toNat % 256) 5
    rw [Nat.mod_mod_of_dvd _ (by decide)] at h
    exact h
  have hlt : x.toNat % 32 < 32 := Nat.mod_lt _ (by decide)
  have hentry : (and8 31 (byteAt x 0).toNat).toNat = x.toNat % 32 := by
    have h31 : 31 < 2 ^ 32 := by decide
    rw [and8, BitVec.toNat_and, BitVec.toNat_ofNat, BitVec.toNat_ofNat, Nat.mod_eq_of_lt h31,
      Nat.mod_eq_of_lt (by omega : (byteAt x 0).toNat < 2 ^ 32), hand]
  apply BitVec.eq_of_toNat_eq
  rw [BitVec.toNat_setWidth, byteAt_toNat, hentry, shamt, BitVec.toNat_ofNat]
  omega

theorem run_getshamt {sym : Symbols} (f : Frame) (rs : RegName)
    (hlinked : Linked sym (f.x 2) f.rest) :
    ∃ g : Frame, runOps (Macros.getshamt sym Macros.s0 rs) f.core = g.core ∧
      g.x 8 = BitVec.ofNat 32 (shamt (f.x rs)) ∧ (∀ r, r ≠ 4 → r ≠ 8 → g.x r = f.x r) ∧
      (∀ n, n ≠ 5 → g.var n = f.var n) ∧ g.rest = f.rest := by
  have hget := hlinked.and8 31 (by decide) _ (byteAt (f.x rs) 0).isLt
  rw [Macros.getshamt]
  have haddr : (byteAt (f.x rs) 0).setWidth 32 + (sym.and8Table + (0x1f : Word) <<< 8) =
      sym.and8Table + BitVec.ofNat 32 (31 * 256 + (byteAt (f.x rs) 0).toNat) := by
    rw [BitVec.add_comm, BitVec.add_assoc, BitVec.ofNat_add]
    simp
  rw [← haddr] at hget
  generalize sym.and8Table + (0x1f : Word) <<< 8 = row at hget ⊢
  rw [runOps_append, runOps_append]
  simp [byteAt_setByte]
  rw [Frame.exec_lbu_at0 _ (by decide) (by simpa using hget.1)]
  refine ⟨_, rfl, ?_, fun r h4 h8 => ?_, fun n h5 => ?_, rfl⟩
  · simp [hget.2, shamt_lookup]
  · simp [h4, h8]
  · simp [h5]

theorem entry_offset (b : Byte) : (b.setWidth 32 : Word) <<< 2 = BitVec.ofNat 32 (b.toNat * 4) := by
  apply BitVec.eq_of_toNat_eq
  rw [BitVec.toNat_shiftLeft, BitVec.toNat_setWidth, BitVec.toNat_ofNat, Nat.shiftLeft_eq,
    Nat.mod_mul_mod]

theorem run_getShiftByteInTp (t : Word) (op : Nat → Nat → Word) {j b : Nat} (f : Frame)
    (htab : WordTable (f.x 2) f.rest t op) (hj : j < 32) (hb : b < 4)
    (hbase : f.x 8 = t + BitVec.ofNat 32 (j * 1024)) :
    runOps (Macros.getShiftByteInTp Macros.s0 b) f.core =
      (f.set 4 (op j (byteAt (f.var 4) b).toNat)).core := by
  have hget := htab j hj _ (byteAt (f.var 4) b).isLt
  have haddr : f.x 8 + (byteAt (f.var 4) b).setWidth 32 <<< 2 =
      t + BitVec.ofNat 32 (j * 1024 + (byteAt (f.var 4) b).toNat * 4) := by
    rw [hbase, entry_offset, BitVec.add_assoc, ← BitVec.ofNat_add]
  rw [← haddr] at hget
  rw [Macros.getShiftByteInTp, runOps_append, runOps_append]
  simp only [runOps_cons, runOps_nil]
  rw [Frame.exec_lbu_var _ (by decide) (by decide) (by decide) hb,
    run_slli_small _ (by decide) (by decide) (by decide),
    Frame.exec_add _ (by decide), Frame.exec_lw_at0 _ (by decide) (by simpa using hget.1)]
  simp [Frame.set_set, hget.2]

theorem setByte_one (b : Byte) : setByte 0#32 1 b = BitVec.ofNat 32 (b.toNat * 256) := by
  have hb := b.isLt
  apply BitVec.eq_of_toNat_eq
  rw [toNat_eq_bytes, byteAt_setByte _ _ (by decide), byteAt_setByte _ _ (by decide),
    byteAt_setByte _ _ (by decide), byteAt_setByte _ _ (by decide), BitVec.toNat_ofNat]
  simp [byteAt_zero]
  omega

theorem run_shiftRow {sym : Symbols} (rs : RegName) (t : Word) (f : Frame)
    (hlinked : Linked sym (f.x 2) f.rest) :
    ∃ g : Frame, runOps (Macros.getshamt sym Macros.s0 rs ++
        [Macros.sw Macros.x0 (spVar Macros.varB), Macros.sb Macros.s0 (spVarByte Macros.varB 1),
          Macros.lw Macros.s0 (spVar Macros.varB)] ++ Macros.slli Macros.s0 Macros.s0 2 ++
        Macros.la Macros.tp t ++ [Macros.add Macros.s0 Macros.s0 Macros.tp]) f.core = g.core ∧
      g.x 8 = t + BitVec.ofNat 32 (shamt (f.x rs) * 1024) ∧
      (∀ r, r ≠ 4 → r ≠ 8 → g.x r = f.x r) ∧ (∀ n, n ≠ 5 → g.var n = f.var n) ∧
      g.rest = f.rest := by
  obtain ⟨g, hrun, hs, hx, hvar, hrest⟩ := run_getshamt f rs hlinked
  have hrow : setByte 0#32 1 (byteAt (BitVec.ofNat 32 (shamt (f.x rs))) 0) <<< 2 =
      BitVec.ofNat 32 (shamt (f.x rs) * 1024) := by
    have hlt : shamt (f.x rs) < 32 := Nat.mod_lt _ (by decide)
    apply BitVec.eq_of_toNat_eq
    rw [setByte_one, byteAt_toNat, BitVec.toNat_shiftLeft, BitVec.toNat_ofNat, BitVec.toNat_ofNat,
      BitVec.toNat_ofNat, Nat.shiftLeft_eq]
    omega
  rw [runOps_append, runOps_append, runOps_append, runOps_append, hrun]
  simp only [runOps_cons, runOps_nil]
  rw [Frame.exec_sw_var _ (by decide) (by decide), Frame.exec_sb_var _ (by decide) (by decide)
    (by decide), Frame.exec_lw_var _ (by decide) (by decide) (by decide),
    run_slli_small _ (by decide) (by decide) (by decide), Frame.run_la _ _ (by decide),
    Frame.exec_add _ (by decide)]
  refine ⟨_, rfl, ?_, fun r h4 h8 => ?_, fun n h5 => ?_, hrest⟩
  · simp [hs, hrow, BitVec.add_comm]
  · simp [h4, h8, hx]
  · simp [h5, hvar]

theorem setByte_three (x : Word) : setByte 0#32 3 (byteAt x 0) = x <<< 24 := by
  apply BitVec.eq_of_toNat_eq
  rw [toNat_eq_bytes, byteAt_setByte _ _ (by decide), byteAt_setByte _ _ (by decide),
    byteAt_setByte _ _ (by decide), byteAt_setByte _ _ (by decide), BitVec.toNat_shiftLeft,
    Nat.shiftLeft_eq]
  simp [byteAt_zero, byteAt_toNat]
  omega

theorem upperHalf_eq {w : Word} (h0 : byteAt w 0 = 0) (h1 : byteAt w 1 = 0) (x : Word) :
    upperHalf w x = x <<< 16 := by
  have hbyte : ∀ k < 4, byteAt (upperHalf w x) k =
      if k = 3 then byteAt x 1 else if k = 2 then byteAt x 0 else byteAt w k := by
    intro k hk
    rw [upperHalf, byteAt_setByte _ _ (by omega), byteAt_setByte _ _ (by omega)]
  apply BitVec.eq_of_toNat_eq
  rw [toNat_eq_bytes, hbyte 0 (by decide), hbyte 1 (by decide), hbyte 2 (by decide),
    hbyte 3 (by decide), BitVec.toNat_shiftLeft, Nat.shiftLeft_eq]
  simp [h0, h1, byteAt_toNat]
  omega

theorem upperHalf_above (x y : Word) : upperHalf (x <<< 24) y = y <<< 16 := by
  have hlow : ∀ k, k ≠ 3 → 8 * k + 8 ≤ 32 → byteAt (x <<< 24) k = 0 := by
    intro k h3 hk
    rw [← setByte_three, byteAt_setByte _ _ hk, if_neg h3, byteAt_zero]
    rfl
  exact upperHalf_eq (hlow 0 (by decide) (by decide)) (hlow 1 (by decide) (by decide)) y

theorem sll_leaves {sym : Symbols} {rd rs1 rs2 : RegName} (f : Frame) (hd : Plain rd)
    (hlinked : Linked sym (f.x 2) f.rest) :
    Leaves (Macros.sll sym rd rs1 rs2) f rd (f.x rs1 <<< shamt (f.x rs2)) [3, 4] := by
  let f₁ := (f.put 1 (f.x 8)).put 4 (f.x rs1)
  have hpre : runOps [Macros.push Macros.s0 1, Macros.sw rs1 (spVar Macros.varA)] f.core =
      f₁.core := by
    simp [f₁]
  obtain ⟨g, hrow, hs0, hx, hvar, hrest⟩ :=
    run_shiftRow rs2 sym.sll8Table f₁ (by simpa [f₁] using hlinked)
  have hlt : shamt (f.x rs2) < 32 := Nat.mod_lt _ (by decide)
  have hget : ∀ (h : Frame) (b : Nat), b < 4 → h.x 2 = g.x 2 → h.rest = g.rest →
      h.x 8 = g.x 8 → h.var 4 = g.var 4 →
      runOps (Macros.getShiftByteInTp Macros.s0 b) h.core =
        (h.set 4 (sll8 (shamt (f.x rs2)) (byteAt (f.x rs1) b).toNat)).core := by
    intro h b hb h2 hr h8 h4
    have htab : WordTable (h.x 2) h.rest sym.sll8Table sll8 := by
      rw [h2, hr, hrest, hx 2 (by decide) (by decide)]
      exact hlinked.sll8
    rw [run_getShiftByteInTp _ _ h htab hlt hb (by rw [h8, hs0]; rfl), h4, hvar 4 (by decide)]
    simp [f₁]
  simp only [runOps_append] at hrow
  unfold Leaves
  rw [Macros.sll]
  simp only [runOps_append]
  rw [hpre, hrow]
  simp only [runOps_cons, runOps_nil, Macros.pop]
  rw [Frame.exec_sw_var _ (by decide) (by decide),
    hget _ 3 (by decide) (by simp) (by simp) (by simp) (by simp),
    Frame.exec_sb_var _ (by decide) (by decide) (by decide),
    Frame.exec_lw_var _ (by decide) (by decide) (by decide),
    hget _ 2 (by decide) (by simp) (by simp) (by simp) (by simp),
    run_sh_spVar _ (by decide) (by decide), Frame.exec_lw_var _ (by decide) (by decide) (by decide),
    Frame.exec_add _ (by decide), hget _ 1 (by decide) (by simp) (by simp) (by simp) (by simp),
    run_slli_small _ (by decide) (by decide) (by decide), Frame.exec_add _ (by decide),
    hget _ 0 (by decide) (by simp) (by simp) (by simp) (by simp),
    Frame.exec_lw_var _ (by decide) (by decide) (by decide), Frame.exec_add _ hd.1]
  refine ⟨_, rfl, fun h0 => ?_, fun r hr hc => ?_, ?_⟩
  · rw [shiftLeft_pieces (f.x rs1)]
    simp [h0, upperHalf_above, setByte_three]
  · have hvar1 : g.var 1 = f.x 8 := by
      rw [hvar 1 (by decide)]
      simp [f₁]
    have h34 : r ≠ 3 ∧ r ≠ 4 := by simpa using hc
    by_cases h8 : r = 8
    · subst h8
      simp [hr, hvar1]
    · simp [hr, h8, h34, hx, f₁]
  · simp [hrest, f₁]

theorem run_slli_self {rd : RegName} {k : Nat} (f : Frame) (hd : (rd : Reg) ≠ 2) (hk : k < 16) :
    runOps (Macros.slli rd rd k) f.core = (f.set rd (f.x rd <<< k)).core := by
  rcases Nat.eq_zero_or_pos k with rfl | hpos
  · have hnone : Macros.slli rd rd 0 = [] := by
      rw [Macros.slli, if_pos rfl, if_neg (not_not.mpr rfl)]
    have hself : f.x rd <<< 0 = f.x rd := BitVec.shiftLeft_zero _
    rw [hnone, runOps_nil, hself, Frame.set_self]
  · exact run_slli_small f hd hpos hk

theorem slli_leaves {rd rs1 : RegName} {imm : Nat} (f : Frame) (hd : Plain rd) (hi : imm < 32) :
    Leaves (Macros.slli rd rs1 imm) f rd (f.x rs1 <<< imm) [3, 4] := by
  unfold Leaves
  by_cases h24 : 24 ≤ imm
  · rw [Macros.slli, if_neg (by omega), if_pos h24, runOps_append]
    simp only [runOps_cons, runOps_nil]
    rw [Frame.exec_sw_var _ (by decide) (by decide),
      Frame.exec_sb_var _ (by decide) (by decide) (by decide),
      Frame.exec_lw_var _ hd.1 (by decide) (by decide), run_slli_self _ hd.1 (by omega)]
    refine ⟨_, rfl, fun h0 => ?_, fun r hr _ => by simp [hr], rfl⟩
    have himm : 24 + (imm - 24) = imm := by omega
    simp [h0, setByte_three, ← BitVec.shiftLeft_add, himm]
  by_cases h16 : 16 ≤ imm
  · rw [Macros.slli, if_neg (by omega), if_neg h24, if_pos h16, runOps_append, runOps_append,
      runOps_append]
    simp only [runOps_cons, runOps_nil]
    rw [Frame.exec_sw_var _ (by decide) (by decide), run_sh_spVar _ (by decide) (by decide),
      Frame.exec_lw_var _ hd.1 (by decide) (by decide), run_slli_self _ hd.1 (by omega)]
    refine ⟨_, rfl, fun h0 => ?_, fun r hr hc => ?_, rfl⟩
    · have himm : 16 + (imm - 16) = imm := by omega
      simp [h0, upperHalf_eq (byteAt_zero 0) (byteAt_zero 1), ← BitVec.shiftLeft_add, himm]
    · have h34 : r ≠ 3 ∧ r ≠ 4 := by simpa using hc
      simp [hr, h34]
  rcases Nat.eq_zero_or_pos imm with rfl | hpos
  · have hself : f.x rs1 <<< 0 = f.x rs1 := BitVec.shiftLeft_zero _
    rw [hself, Macros.slli, if_pos rfl]
    split
    · rw [runOps_cons, runOps_nil, Frame.exec_mv _ hd.1]
      exact ⟨_, rfl, fun h0 => by simp [h0], fun r hr _ => by simp [hr], rfl⟩
    · next hsame =>
      -- nothing to do for one and the same register
      rw [not_not.mp hsame]
      exact ⟨f, runOps_nil _, fun _ => rfl, fun _ _ _ => rfl, rfl⟩
  · rw [run_slli_small _ hd.1 hpos (by omega)]
    exact ⟨_, rfl, fun h0 => by simp [h0], fun r hr _ => by simp [hr], rfl⟩

theorem run_mergeBytes (f : Frame) :
    ∃ g : Frame, runOps Macros.mergeBytes f.core = g.core ∧
      g.x 3 = mergeLow (f.var 5) (f.var 6) (f.var 7) ∧ (∀ r, r ≠ 3 → r ≠ 4 → g.x r = f.x r) ∧
      (∀ n, n ≠ 7 → g.var n = f.var n) ∧ g.rest = f.rest := by
  rw [Macros.mergeBytes]
  simp
  refine ⟨_, rfl, ?_, fun r h3 h4 => ?_, fun n h7 => ?_, rfl⟩
  · simp [mergeLow, byteAt_setWidth]
  · simp [h3, h4]
  · simp [h7]

/-- The shift amount an operand of `shift_right_template` stands for. -/
def amount (x : RegFile) : Macros.Shamt → Nat
  | .reg r => shamt (x r)
  | .imm n => n

theorem run_shiftRightRow {sym : Symbols} (rs2 : Macros.Shamt) (f : Frame)
    (hlinked : Linked sym (f.x 2) f.rest) :
    ∃ g : Frame, runOps (Macros.shiftRightRow sym rs2) f.core = g.core ∧
      g.x 8 = sym.srl8Table + BitVec.ofNat 32 (amount f.x rs2 * 1024) ∧
      (∀ r, r ≠ 4 → r ≠ 8 → g.x r = f.x r) ∧ (∀ n, n ≠ 5 → g.var n = f.var n) ∧
      g.rest = f.rest := by
  cases rs2 with
  | reg r => exact run_shiftRow r sym.srl8Table f hlinked
  | imm n =>
    rw [Macros.shiftRightRow, Frame.run_la _ _ (by decide), Nat.shiftLeft_eq]
    exact ⟨_, rfl, by simp [amount], fun r _ h8 => by simp [h8], fun _ _ => rfl, rfl⟩

theorem run_topByte {sym : Symbols} (isArith : Bool) {s : Nat} (g : Frame) (hs : s < 32)
    (hlinked : Linked sym (g.x 2) g.rest)
    (hrow : g.x 8 = sym.srl8Table + BitVec.ofNat 32 (s * 1024)) :
    ∃ h : Frame, runOps (Macros.getShiftByteInTp Macros.s0 3)
      (runOps (if isArith then Macros.la Macros.tp (sym.sra8Table - sym.srl8Table) ++
        [Macros.add Macros.s0 Macros.s0 Macros.tp] else []) g.core) = h.core ∧
      h.x 4 = (if isArith then sra8 s (byteAt (g.var 4) 3).toNat
        else srl8 s (byteAt (g.var 4) 3).toNat) ∧
      (∀ r, r ≠ 4 → r ≠ 8 → h.x r = g.x r) ∧ h.var = g.var ∧ h.rest = g.rest := by
  cases isArith with
  | false =>
    rw [if_neg (by decide), runOps_nil,
      run_getShiftByteInTp sym.srl8Table srl8 g hlinked.srl8 hs (by decide) hrow]
    exact ⟨_, rfl, by simp, fun r h4 _ => by simp [h4], rfl, rfl⟩
  | true =>
    have hmove : g.x 8 + (sym.sra8Table - sym.srl8Table) =
        sym.sra8Table + BitVec.ofNat 32 (s * 1024) := by
      rw [hrow, add_right_comm, add_sub_cancel]
    rw [if_pos rfl, runOps_append, Frame.run_la _ _ (by decide), runOps_cons, runOps_nil,
      Frame.exec_add _ (by decide), run_getShiftByteInTp sym.sra8Table sra8 _
        (by simpa using hlinked.sra8) hs (by decide) (by simp [hmove])]
    exact ⟨_, rfl, by simp, fun r h4 h8 => by simp [h4, h8], rfl, rfl⟩

/-- With the row in `s0`, the operand in `VAR_A` and the saved `s0` in the first slot, the rest
of the template looks up four words and adds them. -/
theorem run_shiftRightTail {sym : Symbols} {rd : RegName} (isArith : Bool) {s : Nat} (f : Frame)
    (hd : (rd : Reg) ≠ 2) (hs : s < 32) (hlinked : Linked sym (f.x 2) f.rest)
    (hrow : f.x 8 = sym.srl8Table + BitVec.ofNat 32 (s * 1024)) :
    ∃ g : Frame, runOps (Macros.shiftRightTail sym rd isArith) f.core = g.core ∧
      ((rd : Reg) ≠ 0 →
        g.x rd = if isArith then (f.var 4).sshiftRight s else f.var 4 >>> s) ∧
      (∀ r : Reg, r ≠ rd → r ∉ [3, 4] → g.x r = if r = 8 then f.var 1 else f.x r) ∧
      g.rest = f.rest := by
  have hget : ∀ (h : Frame) (b : Nat), b < 4 → h.x 2 = f.x 2 → h.rest = f.rest →
      h.x 8 = f.x 8 → h.var 4 = f.var 4 →
      runOps (Macros.getShiftByteInTp Macros.s0 b) h.core =
        (h.set 4 (srl8 s (byteAt (f.var 4) b).toNat)).core := by
    intro h b hb h2 hr h8 h4
    rw [run_getShiftByteInTp _ _ h (by rw [h2, hr]; exact hlinked.srl8) hs hb (by rw [h8, hrow]), h4]
  let f₁ := (((f.put 5 (srl8 s (byteAt (f.var 4) 2).toNat)).put 6
    (srl8 s (byteAt (f.var 4) 1).toNat)).put 7 (srl8 s (byteAt (f.var 4) 0).toNat)).set 4
    (srl8 s (byteAt (f.var 4) 0).toNat)
  have hbytes : runOps (Macros.getShiftByteInTp Macros.s0 2 ++
      [Macros.sw Macros.tp (spVar Macros.varB)] ++ Macros.getShiftByteInTp Macros.s0 1 ++
      [Macros.sw Macros.tp (spVar Macros.varC)] ++ Macros.getShiftByteInTp Macros.s0 0 ++
      [Macros.sw Macros.tp (spVar Macros.varD)]) f.core = f₁.core := by
    simp only [runOps_append, runOps_cons, runOps_nil]
    rw [hget _ 2 (by decide) rfl rfl rfl rfl, Frame.exec_sw_var _ (by decide) (by decide),
      hget _ 1 (by decide) (by simp) (by simp) (by simp) (by simp),
      Frame.exec_sw_var _ (by decide) (by decide),
      hget _ 0 (by decide) (by simp) (by simp) (by simp) (by simp),
      Frame.exec_sw_var _ (by decide) (by decide)]
    simp [f₁, Frame.set_put, Frame.set_set]
  obtain ⟨g, hmerge, hgp, hx, hvar, hrest⟩ := run_mergeBytes f₁
  have hg4 : g.var 4 = f.var 4 := by
    rw [hvar 4 (by decide)]
    simp [f₁]
  have hg8 : g.x 8 = f.x 8 := by
    rw [hx 8 (by decide) (by decide)]
    simp [f₁]
  have hg2 : g.x 2 = f.x 2 := by
    rw [hx 2 (by decide) (by decide)]
    simp [f₁]
  have hlinked' : Linked sym (g.x 2) g.rest := by
    rw [hg2, hrest]
    simpa [f₁] using hlinked
  obtain ⟨h, hrun, htp, hhx, hhvar, hhrest⟩ :=
    run_topByte isArith g hs hlinked' (hg8.trans hrow)
  rw [hg4] at htp
  have hlow := mergeLow_eq (f.var 4) hs
  have hgp' : g.x 3 = BitVec.ofNat 32 (lowShift (f.var 4) s) := by
    rw [hgp, ← hlow]
    simp [f₁]
  rw [Macros.shiftRightTail, runOps_append, runOps_append, runOps_append, runOps_append, hbytes,
    hmerge, hrun]
  simp only [runOps_cons, runOps_nil, Macros.pop]
  rw [Frame.exec_lw_var _ (by decide) (by decide) (by decide), Frame.exec_add _ hd]
  refine ⟨_, rfl, fun h0 => ?_, fun r hr hc => ?_, ?_⟩
  · rw [sshiftRight_pieces, ushiftRight_pieces]
    cases isArith with
    | false => simp [h0, hhx, htp, hgp', BitVec.add_comm]
    | true => simp [h0, hhx, htp, hgp', BitVec.add_comm]
  · have h34 : r ≠ 3 ∧ r ≠ 4 := by simpa using hc
    by_cases h8 : r = 8
    · subst h8
      simp [hr, hhvar, hvar, f₁]
    · simp [hr, h8, h34, hhx, hx, f₁]
  · simp [hhrest, hrest, f₁]

theorem shiftRightTemplate_slow {sym : Symbols} {rd rs1 : RegName} {rs2 : Macros.Shamt}
    (isArith : Bool) (h : rs2 ≠ .imm 24) :
    Macros.shiftRightTemplate sym rd rs1 rs2 isArith =
      [Macros.push Macros.s0 1, Macros.sw rs1 (spVar Macros.varA)] ++
        Macros.shiftRightRow sym rs2 ++ Macros.shiftRightTail sym rd isArith := by
  unfold Macros.shiftRightTemplate
  split
  · exact absurd rfl h
  · rfl

theorem shiftRightTemplate_fast {sym : Symbols} {rd rs1 : RegName} (isArith : Bool) :
    Macros.shiftRightTemplate sym rd rs1 (.imm 24) isArith =
      if isArith then
        [Macros.sw rs1 (spVar Macros.varA)] ++
          Macros.la Macros.tp (sym.sra8Table + (24 : Word) <<< 10) ++
          [Macros.lbu rd (spVarByte Macros.varA 3)] ++ Macros.slli rd rd 2 ++
          [Macros.add Macros.tp Macros.tp rd, Macros.lw rd (Macros.at0 Macros.tp)]
      else Macros.getbyte rd rs1 3 := rfl

theorem byteAt_three (x : Word) : ((byteAt x 3).setWidth 32 : Word) = x >>> 24 := by
  have hx := x.isLt
  apply BitVec.eq_of_toNat_eq
  rw [BitVec.toNat_setWidth, byteAt_toNat, BitVec.toNat_ushiftRight, Nat.shiftRight_eq_div_pow]
  omega

theorem sra8_top (x : Word) : sra8 24 (byteAt x 3).toNat = x.sshiftRight 24 := by
  have hlow : lowShift x 24 = 0 := Nat.div_eq_of_lt (Nat.mod_lt _ (by decide))
  have hsum := sshiftRight_pieces x 24
  rw [hlow] at hsum
  exact (hsum.trans (BitVec.add_zero _)).symm

theorem shiftRight24_leaves {sym : Symbols} {rd rs1 : RegName} {isArith : Bool} (f : Frame)
    (hd : Plain rd) (hlinked : Linked sym (f.x 2) f.rest) :
    Leaves (Macros.shiftRightTemplate sym rd rs1 (.imm 24) isArith) f rd
      (if isArith then (f.x rs1).sshiftRight 24 else f.x rs1 >>> 24) [3, 4] := by
  unfold Leaves
  rw [shiftRightTemplate_fast]
  cases isArith with
  | false =>
    rw [if_neg (by decide), run_getbyte _ hd.1 (by decide), if_neg (by decide)]
    exact ⟨_, rfl, fun h0 => by simp [h0, byteAt_three], fun r hr _ => by simp [hr], rfl⟩
  | true =>
    rw [if_pos rfl, if_pos rfl, runOps_append, runOps_append, runOps_append, runOps_append]
    simp only [runOps_cons, runOps_nil]
    rw [Frame.exec_sw_var _ (by decide) (by decide), Frame.run_la _ _ (by decide),
      Frame.exec_lbu_var _ hd.1 (by decide) (by decide) (by decide),
      run_slli_small _ hd.1 (by decide) (by decide), Frame.exec_add _ (by decide)]
    have hkeep : ∀ r : Reg, r ∉ [3, 4] → r ≠ 3 ∧ r ≠ 4 := fun r hc => by simpa using hc
    by_cases h0 : (rd : Reg) = 0
    · -- the entry is looked up at the wrong place, and dropped
      obtain ⟨v, hv⟩ := Frame.exec_lw_any _ rd (Macros.at0 Macros.tp) hd.1
      rw [hv]
      exact ⟨_, rfl, fun h => absurd h0 h, fun r _ hc => by simp [hkeep r hc, h0], rfl⟩
    · have hget := hlinked.sra8 24 (by decide) _ (byteAt (f.x rs1) 3).isLt
      have haddr : sym.sra8Table + (24 : Word) <<< 10 +
          (byteAt (f.x rs1) 3).setWidth 32 <<< 2 =
            sym.sra8Table + BitVec.ofNat 32 (24 * 1024 + (byteAt (f.x rs1) 3).toNat * 4) := by
        rw [entry_offset, BitVec.add_assoc, BitVec.ofNat_add]
        rfl
      rw [← haddr] at hget
      rw [Frame.exec_lw_at0 _ hd.1 (by simpa [h0, hd.1.symm, hd.2.2.symm] using hget.1)]
      refine ⟨_, rfl, fun _ => ?_, fun r hr hc => by simp [hr, hkeep r hc], rfl⟩
      simpa [h0, hd.2.2.symm, sra8_top] using hget.2

theorem shiftRightSlow_leaves {sym : Symbols} {rd rs1 : RegName} {rs2 : Macros.Shamt}
    (isArith : Bool) (f : Frame) (hd : (rd : Reg) ≠ 2) (hslow : rs2 ≠ .imm 24)
    (hs : amount f.x rs2 < 32) (hlinked : Linked sym (f.x 2) f.rest) :
    Leaves (Macros.shiftRightTemplate sym rd rs1 rs2 isArith) f rd
      (if isArith then (f.x rs1).sshiftRight (amount f.x rs2) else f.x rs1 >>> amount f.x rs2)
      [3, 4] := by
  let f₁ := (f.put 1 (f.x 8)).put 4 (f.x rs1)
  have hpre : runOps [Macros.push Macros.s0 1, Macros.sw rs1 (spVar Macros.varA)] f.core =
      f₁.core := by
    simp [f₁]
  obtain ⟨g, hrow, hs0, hx, hvar, hrest⟩ :=
    run_shiftRightRow rs2 f₁ (by simpa [f₁] using hlinked)
  have hg : Linked sym (g.x 2) g.rest := by
    rw [hx 2 (by decide) (by decide), hrest]
    simpa [f₁] using hlinked
  obtain ⟨h, hrun, hvalue, hkeep, hhrest⟩ := run_shiftRightTail isArith g hd hs hg hs0
  have hg4 : g.var 4 = f.x rs1 := by
    rw [hvar 4 (by decide)]
    simp [f₁]
  have hg1 : g.var 1 = f.x 8 := by
    rw [hvar 1 (by decide)]
    simp [f₁]
  refine ⟨h, ?_, ?_, fun r hr hc => ?_, by rw [hhrest, hrest]; simp [f₁]⟩
  · rw [shiftRightTemplate_slow isArith hslow, runOps_append, runOps_append, hpre, hrow, hrun]
  · rw [← hg4]
    exact hvalue
  · rw [hkeep r hr hc, hg1]
    have h34 : r ≠ 3 ∧ r ≠ 4 := by simpa using hc
    by_cases h8 : r = 8
    · rw [if_pos h8, h8]
    · rw [if_neg h8, hx r h34.2 h8]
      simp [f₁]

theorem shiftRight_leaves {sym : Symbols} {rd rs1 : RegName} (rs2 : Macros.Shamt) (isArith : Bool)
    (f : Frame) (hd : Plain rd) (hs : amount f.x rs2 < 32) (hlinked : Linked sym (f.x 2) f.rest) :
    Leaves (Macros.shiftRightTemplate sym rd rs1 rs2 isArith) f rd
      (if isArith then (f.x rs1).sshiftRight (amount f.x rs2) else f.x rs1 >>> amount f.x rs2)
      [3, 4] := by
  by_cases hfast : rs2 = .imm 24
  · subst hfast
    exact shiftRight24_leaves f hd hlinked
  · exact shiftRightSlow_leaves isArith f hd.1 hfast hs hlinked

/-- The shift instructions; an immediate is a constant below 32. -/
inductive ShiftInst
  | sll (rd rs1 rs2 : RegName)
  | srl (rd rs1 rs2 : RegName)
  | sra (rd rs1 rs2 : RegName)
  | slli (rd rs1 : RegName) (imm : Fin 32)
  | srli (rd rs1 : RegName) (imm : Fin 32)
  | srai (rd rs1 : RegName) (imm : Fin 32)

namespace ShiftInst

def rd : ShiftInst → RegName
  | sll rd _ _ | srl rd _ _ | sra rd _ _ | slli rd _ _ | srli rd _ _ | srai rd _ _ => rd

def expand (sym : Symbols) : ShiftInst → List Op
  | sll rd rs1 rs2 => Macros.sll sym rd rs1 rs2
  | srl rd rs1 rs2 => Macros.srl sym rd rs1 rs2
  | sra rd rs1 rs2 => Macros.sra sym rd rs1 rs2
  | slli rd rs1 imm => Macros.slli rd rs1 imm
  | srli rd rs1 imm => Macros.srli sym rd rs1 imm
  | srai rd rs1 imm => Macros.srai sym rd rs1 imm

/-- What RV32I writes to `rd`. -/
def result (x : RegFile) : ShiftInst → Word
  | sll _ rs1 rs2 => x rs1 <<< ((x rs2).toNat % 32)
  | srl _ rs1 rs2 => x rs1 >>> ((x rs2).toNat % 32)
  | sra _ rs1 rs2 => (x rs1).sshiftRight ((x rs2).toNat % 32)
  | slli _ rs1 imm => x rs1 <<< imm.val
  | srli _ rs1 imm => x rs1 >>> imm.val
  | srai _ rs1 imm => (x rs1).sshiftRight imm

def Allowed : ShiftInst → Prop
  | sll rd rs1 rs2 | srl rd rs1 rs2 | sra rd rs1 rs2 => Plain rd ∧ Plain rs1 ∧ Plain rs2
  | slli rd rs1 _ | srli rd rs1 _ | srai rd rs1 _ => Plain rd ∧ Plain rs1

instance (i : ShiftInst) : Decidable i.Allowed := by
  cases i <;> exact inferInstanceAs (Decidable (_ ∧ _))

end ShiftInst

theorem shift_implements (sym : Symbols) {i : ShiftInst} (h : i.Allowed) :
    Implements sym (i.expand sym) i.rd i.result [3, 4] ∅ := by
  have hamount : ∀ x : Word, shamt x < 32 := fun x => Nat.mod_lt _ (by decide)
  have hof : (i.rd : Reg) ≠ 2 → (∀ f : Frame, Linked sym (f.x 2) f.rest →
      Leaves (i.expand sym) f i.rd (i.result f.x) [3, 4]) →
        Implements sym (i.expand sym) i.rd i.result [3, 4] ∅ :=
    fun hrd h => implements_of_leaves hrd (by decide : (2 : Reg) ∉ [3, 4]) h
  cases i with
  | sll rd rs1 rs2 => exact hof h.1.1 fun f => sll_leaves f h.1
  | srl rd rs1 rs2 =>
    exact hof h.1.1 fun f => shiftRight_leaves (.reg rs2) false f h.1 (hamount _)
  | sra rd rs1 rs2 =>
    exact hof h.1.1 fun f => shiftRight_leaves (.reg rs2) true f h.1 (hamount _)
  | slli rd rs1 imm => exact hof h.1.1 fun f _ => slli_leaves f h.1 imm.isLt
  | srli rd rs1 imm =>
    exact hof h.1.1 fun f => shiftRight_leaves (.imm imm) false f h.1 imm.isLt
  | srai rd rs1 imm =>
    exact hof h.1.1 fun f => shiftRight_leaves (.imm imm) true f h.1 imm.isLt

/-- Every shift expands to code that leaves RV32I's result in `rd`; only `rd`, `gp`, `tp` and
scratch words change. -/
theorem expansion_of_shift_meets_rv32i (sym : Symbols) (i : ShiftInst) (h : i.Allowed) :
    Implements sym (i.expand sym) i.rd (fun x => i.result x) [3, 4] ∅ := shift_implements sym h

/-- `sra a0, a0, a1` run on a hart that holds `0x80000000` and 36, which counts as 4. -/
theorem sra_runs_at_image : ∃ s', runN (step fun t => codeAt 0x80000000#32
      (((ShiftInst.sra (.abi 10) (.abi 10) (.abi 11)).expand (symbolsAt sectionBase)).map .op) t.pc)
      ((ShiftInst.sra (.abi 10) (.abi 10) (.abi 11)).expand (symbolsAt sectionBase)).length
      (hartWith 0x80000000 36) = some s' ∧ s'.x 10 = 0xf8000000 := by
  have himplements := expansion_of_shift_meets_rv32i (symbolsAt sectionBase)
    (.sra (.abi 10) (.abi 10) (.abi 11)) (by decide)
  have hlen : ((ShiftInst.sra (.abi 10) (.abi 10) (.abi 11)).expand
      (symbolsAt sectionBase)).length = 57 := by
    simp [ShiftInst.expand, Macros.sra, shiftRightTemplate_slow, Macros.shiftRightRow,
      Macros.shiftRightTail, Macros.getShiftByteInTp, Macros.mergeBytes, Macros.getshamt,
      Macros.slli, Macros.la]
  obtain ⟨s', hrun, -, hcomputes⟩ := himplements _ (hartWith 0x80000000 36)
    (placed_codeAt (by rw [List.length_map, hlen]; decide)) (hartWith_linked _ _)
  exact ⟨s', hrun, hcomputes.value (by decide)⟩

end Riscv32Cpu.Rvmini.Shift
