/- module: Riscv32Cpu/Libgcc/Div
   source: CODE/abstract-machine/am/src/riscv/npc/libgcc/div.S
   digest: The 32-bit division routines divide as RV32M does, for all operands. -/

import Riscv32Cpu.Lib.Division
import Riscv32Cpu.Rvmini.Assembler

set_option autoImplicit false
set_option relaxedAutoImplicit false

namespace Riscv32Cpu.Libgcc.Div

open Riscv32Cpu.Lib.Memory Riscv32Cpu.Lib.Run Riscv32Cpu.Lib.Division Riscv32Cpu.Isa.Rv32i
open Riscv32Cpu.Rvmini Riscv32Cpu.Rvmini.Tables Riscv32Cpu.Rvmini.Image
open Riscv32Cpu.Rvmini.Logic Riscv32Cpu.Rvmini.Shift
open Riscv32Cpu.Rvmini.Branch Riscv32Cpu.Rvmini.Assembly Riscv32Cpu.Rvmini.Lines
open Riscv32Cpu.Rvmini.Simulation Riscv32Cpu.Rvmini.Assembler
open Riscv32Cpu.Rvmini.Macros (RegName Symbols mv li ra)

def t0 : RegName := .abi 5
def a0 : RegName := .abi 10
def a1 : RegName := .abi 11
def a2 : RegName := .abi 12
def a3 : RegName := .abi 13

/-! The labels; with 32-bit registers the `di3` names are the `si3` ones. -/

abbrev divsi3 : Nat := 0
abbrev udivsi3 : Nat := 2
abbrev L1 : Nat := 8
abbrev L2 : Nat := 12
abbrev L3 : Nat := 13
abbrev L4 : Nat := 16
abbrev L5 : Nat := 19
abbrev umodsi3 : Nat := 20
abbrev L10 : Nat := 24
abbrev L11 : Nat := 28
abbrev L12 : Nat := 29
abbrev modsi3 : Nat := 33
abbrev L30 : Nat := 36
abbrev L31 : Nat := 39
abbrev L32 : Nat := 41

def divS : Text :=
  [.branch (.bltz a0) L10,
   .branch (.bltz a1) L11,
   -- `__udivsi3`
   .op (mv a2 a1),
   .op (mv a1 a0),
   .op (li a0 (-1)),
   .branch (.beqz a2) L5,
   .op (li a3 1),
   .branch (.bgeu a2 a1) L2,
   -- `.L1`
   .branch (.blez a2) L2,
   .shift (.slli a2 a2 1),
   .shift (.slli a3 a3 1),
   .branch (.bgtu a1 a2) L1,
   -- `.L2`
   .op (li a0 0),
   -- `.L3`
   .branch (.bltu a1 a2) L4,
   .logic (.sub a1 a1 a2),
   .logic (.or a0 a0 a3),
   -- `.L4`
   .shift (.srli a3 a3 1),
   .shift (.srli a2 a2 1),
   .branch (.bnez a3) L3,
   -- `.L5`
   .jr ra,
   -- `__umodsi3`
   .op (mv t0 ra),
   .call udivsi3,
   .op (mv a0 a1),
   .jr t0,
   -- `.L10`
   .logic (.neg a0 a0),
   .branch (.bgtz a1) L12,
   .logic (.neg a1 a1),
   .j udivsi3,
   -- `.L11`
   .logic (.neg a1 a1),
   -- `.L12`
   .op (mv t0 ra),
   .call udivsi3,
   .logic (.neg a0 a0),
   .jr t0,
   -- `__modsi3`
   .op (mv t0 ra),
   .branch (.bltz a1) L31,
   .branch (.bltz a0) L32,
   -- `.L30`
   .call udivsi3,
   .op (mv a0 a1),
   .jr t0,
   -- `.L31`
   .logic (.neg a1 a1),
   .branch (.bgez a0) L30,
   -- `.L32`
   .logic (.neg a0 a0),
   .call udivsi3,
   .logic (.neg a0 a1),
   .jr t0]

section Loops

variable {prog : Listing} {addr : Nat → Word} {m : Mem 32} {n b : Nat}

theorem run_subtract (h : Laid prog addr divS) {i : Nat} {x : RegFile}
    (hdiv : Divided n b (i + 1) (x 10).toNat (x 11).toNat) (hb : (x 12).toNat = b * 2 ^ i)
    (hi : (x 13).toNat = 2 ^ i) :
    ∃ y : RegFile, Reaches prog.step ⟨⟨x, m⟩, addr L3⟩ ⟨⟨y, m⟩, addr L4⟩ ∧
      Divided n b i (y 10).toNat (y 11).toNat ∧ SameBut [10, 11] x y := by
  by_cases hlt : (x 11).toNat < b * 2 ^ i
  · refine ⟨x, h.taken (k := L3) rfl ?_ (Reaches.refl _), hdiv.keep hlt, fun _ _ => rfl⟩
    exact decide_eq_true (hb ▸ hlt)
  · have hle : (x 12).toNat ≤ (x 11).toNat := by omega
    have hpast : (x 11).ult (x 12) = false := decide_eq_false (by omega)
    refine ⟨(x.set 11 (x 11 - x 12)).set 10 (x 10 ||| x 13), ?_, ?_, ?_⟩
    · refine h.passed (k := L3) rfl hpast ?_
      refine h.step (k := 14) rfl rfl ?_
      exact h.step (k := 15) rfl rfl (Reaches.refl _)
    · have hsub := hdiv.subtract (hb ▸ hle)
      simpa [RegFile.get_set, BitVec.toNat_sub_of_le hle, hb, hi] using hsub
    · exact (SameBut.set _ _ (by decide)).trans (SameBut.set _ _ (by decide))

theorem run_round (h : Laid prog addr divS) {i : Nat} {x : RegFile}
    (hdiv : Divided n b (i + 1) (x 10).toNat (x 11).toNat) (hb : (x 12).toNat = b * 2 ^ i)
    (hi : (x 13).toNat = 2 ^ i) :
    ∃ y : RegFile, Reaches prog.step ⟨⟨x, m⟩, addr L3⟩ ⟨⟨y, m⟩, addr 18⟩ ∧
      Divided n b i (y 10).toNat (y 11).toNat ∧ (y 12).toNat = b * 2 ^ i / 2 ∧
      (y 13).toNat = 2 ^ i / 2 ∧ SameBut [10, 11, 12, 13] x y := by
  obtain ⟨y, hrun, hdiv', hsame⟩ := run_subtract (m := m) h hdiv hb hi
  have h12 : y 12 = x 12 := hsame 12 (by decide)
  have h13 : y 13 = x 13 := hsame 13 (by decide)
  refine ⟨(y.set 13 (y 13 >>> 1)).set 12 (y 12 >>> 1), hrun.trans ?_, ?_, ?_, ?_, ?_⟩
  · refine h.step (k := L4) rfl rfl ?_
    exact h.step (k := 17) rfl rfl (Reaches.refl _)
  · simpa [RegFile.get_set] using hdiv'
  · simp [RegFile.get_set, h12, hb, Nat.shiftRight_succ]
  · simp [RegFile.get_set, h13, hi, Nat.shiftRight_succ]
  · refine (hsame.mono (by decide)).trans ?_
    exact (SameBut.set _ _ (by decide)).trans (SameBut.set _ _ (by decide))

theorem run_L3 (h : Laid prog addr divS) {i : Nat} {x : RegFile}
    (hdiv : Divided n b (i + 1) (x 10).toNat (x 11).toNat) (hb : (x 12).toNat = b * 2 ^ i)
    (hi : (x 13).toNat = 2 ^ i) :
    ∃ y : RegFile, Reaches prog.step ⟨⟨x, m⟩, addr L3⟩ ⟨⟨y, m⟩, addr L5⟩ ∧
      (y 10).toNat = n / b ∧ (y 11).toNat = n % b ∧ SameBut [10, 11, 12, 13] x y := by
  induction i generalizing x with
  | zero =>
    obtain ⟨y, hrun, hdiv', -, h13, hsame⟩ := run_round (m := m) h hdiv hb hi
    obtain ⟨hq, hr⟩ := hdiv'.done
    refine ⟨y, hrun.trans (h.passed (k := 18) rfl ?_ (Reaches.refl _)), hq, hr, hsame⟩
    have hzero : y 13 = 0 := BitVec.eq_of_toNat_eq h13
    exact decide_eq_false (not_not.mpr hzero)
  | succ i ih =>
    obtain ⟨y, hrun, hdiv', h12, h13, hsame⟩ := run_round (m := m) h hdiv hb hi
    have hb' : (y 12).toNat = b * 2 ^ i := by
      rw [h12, Nat.pow_succ, ← Nat.mul_assoc, Nat.mul_div_cancel _ (by decide)]
    have hi' : (y 13).toNat = 2 ^ i := by
      rw [h13, Nat.pow_succ, Nat.mul_div_cancel _ (by decide)]
    obtain ⟨z, hrun', hq, hr, hsame'⟩ := ih hdiv' hb' hi'
    refine ⟨z, hrun.trans (h.taken (k := 18) rfl ?_ hrun'), hq, hr, hsame.trans hsame'⟩
    have hne : y 13 ≠ 0 := by
      intro hzero
      rw [hzero] at hi'
      exact absurd hi'.symm (Nat.pow_pos (by decide)).ne'
    exact decide_eq_true hne

theorem sle_zero (x : Word) : x.sle 0 = decide (x.toNat = 0 ∨ 2 ^ 31 ≤ x.toNat) := by
  have h0 : (0 : Word).toNat = 0 := rfl
  rw [BitVec.sle_eq_decide, decide_eq_decide, BitVec.toInt_eq_toNat_cond,
    BitVec.toInt_eq_toNat_cond, h0]
  split <;> split <;> omega

theorem toNat_double (x : Word) (h : x.toNat < 2 ^ 31) : (x <<< 1).toNat = 2 * x.toNat := by
  rw [BitVec.toNat_shiftLeft, Nat.shiftLeft_eq]
  omega

/-- `.L1` doubles divisor and bit until the divisor reaches the dividend, or would overflow. -/
theorem run_L1 (h : Laid prog addr divS) (d : Nat) {i : Nat} {x : RegFile} (hd : i + d = 32)
    (hpos : 0 < b) (hb : (x 12).toNat = b * 2 ^ i) (hi : (x 13).toNat = 2 ^ i) :
    ∃ (y : RegFile) (j : Nat), Reaches prog.step ⟨⟨x, m⟩, addr L1⟩ ⟨⟨y, m⟩, addr L2⟩ ∧
      (y 12).toNat = b * 2 ^ j ∧ (y 13).toNat = 2 ^ j ∧ (x 11).toNat < b * 2 ^ (j + 1) ∧
      SameBut [12, 13] x y := by
  have hlt := (x 12).isLt
  have hn := (x 11).isLt
  have hle : 2 ^ i ≤ b * 2 ^ i := Nat.le_mul_of_pos_left _ hpos
  induction d generalizing i x with
  | zero =>
    obtain rfl : i = 32 := hd
    omega
  | succ d ih =>
    have hdouble : b * 2 ^ (i + 1) = 2 * (b * 2 ^ i) := by ring
    have hpow : 0 < 2 ^ i := Nat.pow_pos (by decide)
    have htest := sle_zero (x 12)
    by_cases hbig : 2 ^ 31 ≤ (x 12).toNat
    · rw [decide_eq_true (.inr hbig)] at htest
      exact ⟨x, i, h.taken (k := L1) rfl htest (Reaches.refl _), hb, hi, by omega, fun _ _ => rfl⟩
    · rw [decide_eq_false (by omega)] at htest
      let y := (x.set 12 (x 12 <<< 1)).set 13 (x 13 <<< 1)
      have hrun : ∀ {t}, Reaches prog.step ⟨⟨y, m⟩, addr 11⟩ t →
          Reaches prog.step ⟨⟨x, m⟩, addr L1⟩ t := by
        intro t hrest
        refine h.passed (k := L1) rfl htest ?_
        refine h.step (k := 9) rfl rfl ?_
        exact h.step (k := 10) rfl rfl hrest
      have hsame : SameBut [12, 13] x y :=
        (SameBut.set _ _ (by decide)).trans (SameBut.set _ _ (by decide))
      have hb' : (y 12).toNat = b * 2 ^ (i + 1) := by
        rw [hdouble, ← hb, ← toNat_double _ (by omega)]
        simp [y, RegFile.get_set]
      have hi' : (y 13).toNat = 2 ^ (i + 1) := by
        rw [Nat.pow_succ, Nat.mul_comm, ← hi, ← toNat_double _ (by omega)]
        simp [y, RegFile.get_set]
      have h11 : y 11 = x 11 := hsame 11 (by decide)
      by_cases hless : (y 12).toNat < (y 11).toNat
      · -- the doubled divisor still fits
        obtain ⟨z, j, hrun', h12, h13, hrem, hsame'⟩ := ih (x := y) (by omega) hb' hi' (y 12).isLt
          (y 11).isLt (Nat.le_mul_of_pos_left _ hpos)
        have htaken : (y 12).ult (y 11) = true := decide_eq_true hless
        exact ⟨z, j, hrun (h.taken (k := 11) rfl htaken hrun'), h12, h13, h11 ▸ hrem,
          hsame.trans hsame'⟩
      · have hpast : (y 12).ult (y 11) = false := decide_eq_false hless
        refine ⟨y, i + 1, hrun (h.passed (k := 11) rfl hpast (Reaches.refl _)), hb', hi', ?_, hsame⟩
        have hdouble' : b * 2 ^ (i + 1 + 1) = 2 * (b * 2 ^ (i + 1)) := by ring
        rw [h11] at hless
        omega

end Loops

/-- RV32M: division by zero gives all ones, and the dividend as the remainder. -/
def divu (x y : Word) : Word := if y = 0 then -1 else x / y

def div (x y : Word) : Word := if y = 0 then -1 else x.sdiv y

section Signs

variable {x y : Word}

theorem divu_of_ne (hy0 : y ≠ 0) : divu x y = x / y := if_neg hy0

theorem div_of_signs (hy0 : y ≠ 0) : div x y = match x.msb, y.msb with
    | false, false => divu x y
    | false, true => -divu x (-y)
    | true, false => -divu (-x) y
    | true, true => divu (-x) (-y) := by
  have hneg : -y ≠ 0 := fun h => hy0 (neg_eq_zero.mp h)
  rw [div, if_neg hy0, BitVec.sdiv_eq]
  simp only [divu_of_ne hy0, divu_of_ne hneg]
  rfl

theorem ne_zero_of_msb (h : y.msb = true) : y ≠ 0 := by
  rintro rfl
  exact absurd h (by decide)

theorem slt_zero (x : Word) : x.slt 0 = x.msb := BitVec.slt_zero_eq_msb

theorem zero_slt (y : Word) : (0 : Word).slt y = (!y.msb && decide (y ≠ 0)) := by
  have hsle : (0 : Word).slt y = !(y.sle 0) := by rw [BitVec.sle_eq_not_slt, Bool.not_not]
  rw [hsle, sle_zero, BitVec.msb_eq_decide, ← decide_not, ← decide_not, ← Bool.decide_and,
    decide_eq_decide, ne_eq, ← BitVec.toNat_inj]
  have h0 : (0 : Word).toNat = 0 := rfl
  omega

end Signs

section Routines

variable {prog : Listing} {addr : Nat → Word} {m : Mem 32}

theorem run_scale (h : Laid prog addr divS) {x : RegFile} (hpos : 0 < (x 12).toNat)
    (h13 : x 13 = 1) :
    ∃ (y : RegFile) (j : Nat), Reaches prog.step ⟨⟨x, m⟩, addr 7⟩ ⟨⟨y, m⟩, addr L2⟩ ∧
      (y 12).toNat = (x 12).toNat * 2 ^ j ∧ (y 13).toNat = 2 ^ j ∧
      (x 11).toNat < (x 12).toNat * 2 ^ (j + 1) ∧ SameBut [12, 13] x y := by
  have hone : (x 13).toNat = 2 ^ 0 := by rw [h13]; rfl
  by_cases hle : (x 11).toNat ≤ (x 12).toNat
  · have htaken : (x 11).ule (x 12) = true := decide_eq_true hle
    exact ⟨x, 0, h.taken (k := 7) rfl htaken (Reaches.refl _), (Nat.mul_one _).symm, hone,
      by omega, fun _ _ => rfl⟩
  · have hpast : (x 11).ule (x 12) = false := decide_eq_false hle
    obtain ⟨y, j, hrun, hrest⟩ := run_L1 (m := m) h 32 rfl hpos (Nat.mul_one _).symm hone
    exact ⟨y, j, h.passed (k := 7) rfl hpast hrun, hrest⟩

theorem run_udivsi3 (h : Laid prog addr divS) (x : RegFile) :
    ∃ y : RegFile, Reaches prog.step ⟨⟨x, m⟩, addr udivsi3⟩ ⟨⟨y, m⟩, x 1 &&& ~~~1⟩ ∧
      y 10 = divu (x 10) (x 11) ∧ y 11 = x 10 % x 11 ∧ SameBut [10, 11, 12, 13] x y := by
  let x₁ := ((x.set 12 (x 11)).set 11 (x 10)).set 10 (-1)
  have hfront : ∀ {t}, Reaches prog.step ⟨⟨x₁, m⟩, addr 5⟩ t →
      Reaches prog.step ⟨⟨x, m⟩, addr udivsi3⟩ t := by
    intro t hrest
    refine h.mv (k := udivsi3) rfl ?_
    refine h.mv (k := 3) rfl ?_
    exact h.li (k := 4) rfl hrest
  have hsame₁ : SameBut [10, 11, 12, 13] x x₁ :=
    ((SameBut.set _ _ (by decide)).trans (SameBut.set _ _ (by decide))).trans
      (SameBut.set _ _ (by decide))
  by_cases h0 : x 11 = 0
  · refine ⟨x₁, hfront (h.taken (k := 5) rfl (decide_eq_true h0) ?_), ?_, ?_, hsame₁⟩
    · exact h.jr (k := L5) rfl (Reaches.refl _)
    · rw [divu, if_pos h0]
      rfl
    · have hzero : x 10 % (0 : Word) = x 10 := BitVec.umod_zero
      rw [h0, hzero]
      rfl
  · have hpos : 0 < (x 11).toNat := Nat.pos_of_ne_zero fun hz => h0 (BitVec.eq_of_toNat_eq hz)
    obtain ⟨y, j, hscale, h12, h13, hrem, hsame⟩ := run_scale (m := m) h (x := x₁.set 13 1) hpos rfl
    have hrem' : (x 10).toNat < (x 11).toNat * 2 ^ (j + 1) := hrem
    have h11 : (y.set 10 0) 11 = x 10 := hsame 11 (by decide)
    have hstart : Divided (x 10).toNat (x 11).toNat (j + 1) ((y.set 10 0) 10).toNat
        ((y.set 10 0) 11).toNat := by
      rw [h11]
      exact Divided.start hrem'
    obtain ⟨z, hdiv, hq, hr, hsame'⟩ := run_L3 (m := m) h hstart h12 h13
    have hall : SameBut [10, 11, 12, 13] x z := by
      refine (hsame₁.trans (SameBut.set x₁ (d := 13) 1 (by decide))).trans ?_
      exact ((hsame.mono (by decide)).trans (SameBut.set y (d := 10) 0 (by decide))).trans hsame'
    refine ⟨z, hfront ?_, ?_, ?_, hall⟩
    · refine h.passed (k := 5) rfl (decide_eq_false h0) ?_
      refine h.li (k := 6) rfl (hscale.trans ?_)
      refine h.li (k := L2) rfl (hdiv.trans ?_)
      refine h.jr (k := L5) rfl ?_
      have hra : z ra = x 1 := hall 1 (by decide)
      rw [hra]
      exact Reaches.refl _
    · rw [divu, if_neg h0]
      exact BitVec.eq_of_toNat_eq (by rw [hq, BitVec.toNat_udiv])
    · exact BitVec.eq_of_toNat_eq (by rw [hr, BitVec.toNat_umod])

section Callers

variable (h : Laid prog addr divS) (heven : ∀ k, (addr k).toNat % 2 = 0)
include h heven

theorem run_call {k : Nat} (hl : divS[k]? = some (.call udivsi3)) (x : RegFile) :
    ∃ y : RegFile, Reaches prog.step ⟨⟨x, m⟩, addr k⟩ ⟨⟨y, m⟩, addr (k + 1)⟩ ∧
      y 10 = divu (x 10) (x 11) ∧ y 11 = x 10 % x 11 ∧ SameBut [1, 10, 11, 12, 13] x y := by
  obtain ⟨y, hrun, hq, hr, hsame⟩ := run_udivsi3 (m := m) h (x.set 1 (addr (k + 1)))
  have hback : (x.set 1 (addr (k + 1))) 1 &&& ~~~1 = addr (k + 1) := even_and (heven (k + 1))
  rw [hback] at hrun
  exact ⟨y, h.step hl rfl hrun, hq, hr,
    (SameBut.set _ _ (by decide)).trans (hsame.mono (by decide))⟩

theorem run_umodsi3 (x : RegFile) :
    ∃ y : RegFile, Reaches prog.step ⟨⟨x, m⟩, addr umodsi3⟩ ⟨⟨y, m⟩, x 1 &&& ~~~1⟩ ∧
      y 10 = x 10 % x 11 ∧ SameBut [1, 5, 10, 11, 12, 13] x y := by
  obtain ⟨y, hrun, -, hr, hsame⟩ := run_call (m := m) h heven (k := 21) rfl (x.set 5 (x 1))
  have ht0 : (y.set 10 (y 11)) 5 = x 1 := hsame 5 (by decide)
  refine ⟨y.set 10 (y 11), h.mv (k := umodsi3) rfl (hrun.trans ?_), hr, ?_⟩
  · refine h.mv (k := 22) rfl ?_
    rw [← ht0]
    exact h.jr (k := 23) rfl (Reaches.refl _)
  · exact (SameBut.set _ _ (by decide)).trans ((hsame.mono (by decide)).trans
      (SameBut.set _ _ (by decide)))

theorem run_L12 (x : RegFile) :
    ∃ y : RegFile, Reaches prog.step ⟨⟨x, m⟩, addr L12⟩ ⟨⟨y, m⟩, x 1 &&& ~~~1⟩ ∧
      y 10 = -divu (x 10) (x 11) ∧ SameBut [1, 5, 10, 11, 12, 13] x y := by
  obtain ⟨y, hrun, hq, -, hsame⟩ := run_call (m := m) h heven (k := 30) rfl (x.set 5 (x 1))
  have ht0 : (y.set 10 (-y 10)) 5 = x 1 := hsame 5 (by decide)
  refine ⟨y.set 10 (-y 10), h.mv (k := L12) rfl (hrun.trans ?_), congrArg (- ·) hq, ?_⟩
  · refine h.step (k := 31) rfl rfl ?_
    rw [← ht0]
    exact h.jr (k := 32) rfl (Reaches.refl _)
  · exact (SameBut.set _ _ (by decide)).trans ((hsame.mono (by decide)).trans
      (SameBut.set _ _ (by decide)))

theorem run_divsi3 (x : RegFile) :
    ∃ y : RegFile, Reaches prog.step ⟨⟨x, m⟩, addr divsi3⟩ ⟨⟨y, m⟩, x 1 &&& ~~~1⟩ ∧
      y 10 = div (x 10) (x 11) ∧ SameBut [1, 5, 10, 11, 12, 13] x y := by
  have hwide : ∀ {y z : RegFile}, SameBut [10, 11] x y → SameBut [1, 5, 10, 11, 12, 13] y z →
      SameBut [1, 5, 10, 11, 12, 13] x z := fun hy hz => (hy.mono (by decide)).trans hz
  have hdivu : ∀ {y z : RegFile}, SameBut [10, 11, 12, 13] y z →
      SameBut [1, 5, 10, 11, 12, 13] y z := fun hz => hz.mono (by decide)
  have h10 := slt_zero (x 10)
  have h11 := slt_zero (x 11)
  cases hx : (x 10).msb with
  | false =>
    rw [hx] at h10
    cases hy : (x 11).msb with
    | false =>
      -- falls into `__udivsi3`
      rw [hy] at h11
      obtain ⟨z, hrun, hq, -, hsame⟩ := run_udivsi3 (m := m) h x
      refine ⟨z, h.passed (k := divsi3) rfl h10 (h.passed (k := 1) rfl h11 hrun), ?_, hdivu hsame⟩
      rw [hq]
      by_cases h0 : x 11 = 0
      · rw [divu, div, if_pos h0, if_pos h0]
      · rw [div_of_signs h0, hx, hy]
    | true =>
      rw [hy] at h11
      obtain ⟨z, hrun, hq, hsame⟩ := run_L12 (m := m) h heven (x.set 11 (-x 11))
      refine ⟨z, h.passed (k := divsi3) rfl h10 (h.taken (k := 1) rfl h11 ?_), ?_,
        hwide (SameBut.set _ _ (by decide)) hsame⟩
      · exact h.step (k := L11) rfl rfl hrun
      · rw [hq, div_of_signs (ne_zero_of_msb hy), hx, hy]
        rfl
  | true =>
    rw [hx] at h10
    have htest := zero_slt (x 11)
    cases hpos : (0 : Word).slt (x 11) with
    | true =>
      rw [hpos, eq_comm, Bool.and_eq_true, Bool.not_eq_true', decide_eq_true_iff] at htest
      obtain ⟨z, hrun, hq, hsame⟩ := run_L12 (m := m) h heven (x.set 10 (-x 10))
      refine ⟨z, h.taken (k := divsi3) rfl h10 (h.step (k := L10) rfl rfl ?_), ?_,
        hwide (SameBut.set _ _ (by decide)) hsame⟩
      · exact h.taken (k := 25) rfl hpos hrun
      · rw [hq, div_of_signs htest.2, hx, htest.1]
        rfl
    | false =>
      obtain ⟨z, hrun, hq, -, hsame⟩ :=
        run_udivsi3 (m := m) h ((x.set 10 (-x 10)).set 11 (-x 11))
      refine ⟨z, h.taken (k := divsi3) rfl h10 (h.step (k := L10) rfl rfl ?_), ?_,
        hwide ((SameBut.set _ _ (by decide)).trans (SameBut.set _ _ (by decide))) (hdivu hsame)⟩
      · refine h.passed (k := 25) rfl hpos (h.step (k := 26) rfl rfl ?_)
        exact h.step (k := 27) rfl rfl hrun
      · have hq' : z 10 = divu (-x 10) (-x 11) := hq
        rw [hq']
        by_cases h0 : x 11 = 0
        · rw [div, h0, neg_zero, divu, if_pos rfl, if_pos rfl]
        · have hy : (x 11).msb = true := by
            rw [hpos, decide_eq_true h0, Bool.and_true, eq_comm, Bool.not_eq_false'] at htest
            exact htest
          rw [div_of_signs h0, hx, hy]

theorem run_L32 (x : RegFile) :
    ∃ y : RegFile, Reaches prog.step ⟨⟨x, m⟩, addr L32⟩ ⟨⟨y, m⟩, x 5 &&& ~~~1⟩ ∧
      y 10 = -(-x 10 % x 11) ∧ SameBut [1, 5, 10, 11, 12, 13] x y := by
  obtain ⟨y, hrun, -, hr, hsame⟩ := run_call (m := m) h heven (k := 42) rfl (x.set 10 (-x 10))
  have ht0 : (y.set 10 (-y 11)) 5 = x 5 := hsame 5 (by decide)
  refine ⟨y.set 10 (-y 11), h.step (k := L32) rfl rfl (hrun.trans ?_), congrArg (- ·) hr, ?_⟩
  · refine h.step (k := 43) rfl rfl ?_
    rw [← ht0]
    exact h.jr (k := 44) rfl (Reaches.refl _)
  · exact (SameBut.set _ _ (by decide)).trans ((hsame.mono (by decide)).trans
      (SameBut.set _ _ (by decide)))

theorem run_L30 (x : RegFile) :
    ∃ y : RegFile, Reaches prog.step ⟨⟨x, m⟩, addr L30⟩ ⟨⟨y, m⟩, x 5 &&& ~~~1⟩ ∧
      y 10 = x 10 % x 11 ∧ SameBut [1, 5, 10, 11, 12, 13] x y := by
  obtain ⟨y, hrun, -, hr, hsame⟩ := run_call (m := m) h heven (k := L30) rfl x
  have ht0 : (y.set 10 (y 11)) 5 = x 5 := hsame 5 (by decide)
  refine ⟨y.set 10 (y 11), hrun.trans (h.mv (k := 37) rfl ?_), hr, ?_⟩
  · rw [← ht0]
    exact h.jr (k := 38) rfl (Reaches.refl _)
  · exact (hsame.mono (by decide)).trans (SameBut.set _ _ (by decide))

theorem run_modsi3 (x : RegFile) :
    ∃ y : RegFile, Reaches prog.step ⟨⟨x, m⟩, addr modsi3⟩ ⟨⟨y, m⟩, x 1 &&& ~~~1⟩ ∧
      y 10 = (x 10).srem (x 11) ∧ SameBut [1, 5, 10, 11, 12, 13] x y := by
  have hwide : ∀ {y z : RegFile}, SameBut [5, 11] x y → SameBut [1, 5, 10, 11, 12, 13] y z →
      SameBut [1, 5, 10, 11, 12, 13] x z := fun hy hz => (hy.mono (by decide)).trans hz
  have h10 := slt_zero (x 10)
  have h11 := slt_zero (x 11)
  have hge : (0 : Word).sle (x 10) = !(x 10).msb := by rw [BitVec.sle_eq_not_slt, h10]
  rw [BitVec.srem_eq]
  cases hy : (x 11).msb with
  | false =>
    rw [hy] at h11
    cases hx : (x 10).msb with
    | false =>
      rw [hx] at h10
      obtain ⟨z, hrun, hr, hsame⟩ := run_L30 (m := m) h heven (x.set 5 (x 1))
      refine ⟨z, h.mv (k := modsi3) rfl (h.passed (k := 34) rfl h11 ?_), hr,
        hwide (SameBut.set _ _ (by decide)) hsame⟩
      exact h.passed (k := 35) rfl h10 hrun
    | true =>
      rw [hx] at h10
      obtain ⟨z, hrun, hr, hsame⟩ := run_L32 (m := m) h heven (x.set 5 (x 1))
      refine ⟨z, h.mv (k := modsi3) rfl (h.passed (k := 34) rfl h11 ?_), hr,
        hwide (SameBut.set _ _ (by decide)) hsame⟩
      exact h.taken (k := 35) rfl h10 hrun
  | true =>
    rw [hy] at h11
    have hsame₁ : SameBut [5, 11] x ((x.set 5 (x 1)).set 11 (-x 11)) :=
      (SameBut.set _ _ (by decide)).trans (SameBut.set _ _ (by decide))
    cases hx : (x 10).msb with
    | false =>
      rw [hx] at hge
      obtain ⟨z, hrun, hr, hsame⟩ := run_L30 (m := m) h heven ((x.set 5 (x 1)).set 11 (-x 11))
      refine ⟨z, h.mv (k := modsi3) rfl (h.taken (k := 34) rfl h11 ?_), hr, hwide hsame₁ hsame⟩
      exact h.step (k := L31) rfl rfl (h.taken (k := 40) rfl hge hrun)
    | true =>
      rw [hx] at hge
      obtain ⟨z, hrun, hr, hsame⟩ := run_L32 (m := m) h heven ((x.set 5 (x 1)).set 11 (-x 11))
      refine ⟨z, h.mv (k := modsi3) rfl (h.taken (k := 34) rfl h11 ?_), hr, hwide hsame₁ hsame⟩
      exact h.step (k := L31) rfl rfl (h.passed (k := 40) rfl hge hrun)

end Callers

end Routines

/-- The entry points, under their 32-bit names. -/
inductive Routine
  | divsi3
  | udivsi3
  | modsi3
  | umodsi3

namespace Routine

def entry : Routine → Nat
  | divsi3 => Div.divsi3
  | udivsi3 => Div.udivsi3
  | modsi3 => Div.modsi3
  | umodsi3 => Div.umodsi3

/-- The RV32M instruction the routine stands in for. -/
def result (x y : Word) : Routine → Word
  | divsi3 => div x y
  | udivsi3 => divu x y
  | modsi3 => x.srem y
  | umodsi3 => x % y

end Routine

/-- What a routine may leave changed: `ra`, `t0` and `a0` to `a3`. -/
def clobbered : List Reg := [1, 5, 10, 11, 12, 13]

/-- The routines divide as RV32M does: all operands, zero divisors and the overflow of the least
number by -1 included, wherever the text is laid out and whatever called it. -/
theorem division_meets_rv32m (r : Routine) {prog : Listing} {addr : Nat → Word}
    (h : Laid prog addr divS) (heven : ∀ k, (addr k).toNat % 2 = 0) (x : RegFile) (m : Mem 32) :
    ∃ y : RegFile, Reaches prog.step ⟨⟨x, m⟩, addr r.entry⟩ ⟨⟨y, m⟩, x 1 &&& ~~~1⟩ ∧
      y 10 = r.result (x 10) (x 11) ∧ SameBut clobbered x y := by
  cases r with
  | divsi3 => exact run_divsi3 h heven x
  | udivsi3 =>
    obtain ⟨y, hrun, hq, -, hsame⟩ := run_udivsi3 (m := m) h x
    exact ⟨y, hrun, hq, hsame.mono (by decide)⟩
  | modsi3 => exact run_modsi3 h heven x
  | umodsi3 => exact run_umodsi3 h heven x

theorem divS_sizes (sym : Symbols) : divS.map (size sym) =
    [16, 16, 1, 1, 1, 35, 1, 65, 27, 1, 1, 65, 1, 65, 24, 38, 42, 42, 35, 1,
     1, 3, 1, 1, 24, 27, 24, 3, 24, 1, 3, 24, 1, 1, 16, 16, 3, 1, 1, 24, 65, 24, 3, 24, 1] := by
  simp [divS, size, Line.map, Line.expand, Line.jr, BranchInst.expand, LogicInst.expand,
    ShiftInst.expand, Macros.bltz, Macros.beqz, Macros.bgeu, Macros.blez, Macros.bgtu,
    Macros.bltu, Macros.bnez, Macros.bgtz, Macros.bgez, Macros.blt, Macros.bge, Macros.beq,
    Macros.bne, Macros.branchEq, Macros.isZero, Macros.x0, Macros.zero, Macros.branchResolve,
    Macros.branchSlots, Macros.slli, Macros.la, Macros.msb, Macros.getbyte, Macros.signTest,
    Macros.seqz, Macros.check8bit0, Macros.sltu, Macros.slt, Macros.sltTemplate, Macros.sub,
    Macros.not, Macros.notByte, Macros.neg, Macros.or, Macros.logic, Macros.logic8ByteInternal,
    Macros.srli, Macros.shiftRightTemplate, Macros.shiftRightRow, Macros.shiftRightTail,
    Macros.getShiftByteInTp, Macros.mergeBytes, Macros.call, Macros.callTemplate, Macros.j,
    Macros.mv, Macros.li, a0, a1, a2, a3, t0, Macros.ra, Macros.sp, Macros.gp, Macros.tp]

theorem divS_laid (sym : Symbols) (origin : Word) :
    Laid (listing sym origin divS) (addressOf sym origin divS) divS := by
  refine laid_listing ?_ fun l hl hzero => ?_
  · rw [offset, List.take_length, divS_sizes]
    decide
  · have hmem : 0 ∈ divS.map (size sym) := List.mem_map.mpr ⟨l, hl, hzero⟩
    rw [divS_sizes] at hmem
    exact absurd hmem (by decide)

theorem divS_inRegisters : ∀ l ∈ divS, InRegisters l := by decide

/-- `__divsi3` called with -7 and 2, laid out at `0x80000000`. -/
theorem divsi3_divides : ∃ y : RegFile,
    Reaches (listing (symbolsAt sectionBase) 0x80000000#32 divS).step
      ⟨⟨(hartWith (-7) 2).x, fun _ => 0⟩,
        addressOf (symbolsAt sectionBase) 0x80000000#32 divS Routine.divsi3.entry⟩
      ⟨⟨y, fun _ => 0⟩, (hartWith (-7) 2).x 1 &&& ~~~1⟩ ∧
    y 10 = Routine.result (-7) 2 .divsi3 ∧ SameBut clobbered (hartWith (-7) 2).x y :=
  division_meets_rv32m .divsi3 (divS_laid _ _) (addressOf_even (by decide)) _ _

example : Routine.result (-7) 2 .divsi3 = -3 ∧ Routine.result (-7) 2 .modsi3 = -1 := by decide

/-- So they do when rvmini has rewritten them to its eight instructions: `gp`, `tp`, the words
below `sp` and the array of `seq` are the price. -/
theorem rewritten_division_meets_rv32m (r : Routine) {sym : Symbols} {origin : Word}
    {is : List Inst} {code : Code} (horigin : origin.toNat % 2 = 0) (hapart : Apart sym)
    (hassemble : assemble sym origin divS = some is) (hplaced : Placed code origin is) {t : State}
    (hlinked : Linked sym (t.x 2) t.mem) (hpc : t.pc = addressOf sym origin divS r.entry) :
    ∃ n u, runN (step fun s => code s.pc) n t = some u ∧ u.pc = t.x 1 &&& ~~~1 ∧
      u.x 10 = r.result (t.x 10) (t.x 11) ∧ SameBut (3 :: 4 :: clobbered) t.x u.x ∧
      ∀ a, a ∉ scratchArea sym (t.x 2) → u.mem a = t.mem a := by
  obtain ⟨y, hrun, hresult, hsame⟩ := division_meets_rv32m r (divS_laid sym origin)
    (addressOf_even horigin) t.x t.mem
  rw [← hpc] at hrun
  obtain ⟨n, u, hn, hupc, hx, hkeep, hmem⟩ := rewritten_routine hassemble hplaced horigin hapart
    divS_inRegisters hlinked hrun hsame
  exact ⟨n, u, hn, hupc, (hx 10 (by decide) (by decide)).trans hresult, hkeep, hmem⟩

/-- The same call, on the image that rvmini makes. -/
theorem rewritten_divsi3_divides : ∃ (code : Code) (n : Nat) (u : State),
    runN (step fun s => code s.pc) n (hartWith (-7) 2) = some u ∧ u.x 10 = -3 := by
  have hsome : ∃ is, assemble (symbolsAt sectionBase) 0x80000000#32 divS = some is :=
    assembleFrom_isSome fun l hl => ((divS_inRegisters l hl).map _).allowed
  obtain ⟨is, his⟩ := hsome
  have hlen : 4 * is.length < 2 ^ 32 := by
    rw [length_assembleFrom his, offset, List.take_length, divS_sizes]
    decide
  obtain ⟨n, u, hrun, -, hresult, -⟩ := rewritten_division_meets_rv32m .divsi3 (by decide)
    (apart_symbolsAt sectionBase) his (placed_codeAt hlen) (hartWith_linked (-7) 2)
    (by rw [addressOf, Routine.entry, offset_zero, after_zero]; rfl)
  exact ⟨_, n, u, hrun, hresult⟩

end Riscv32Cpu.Libgcc.Div
