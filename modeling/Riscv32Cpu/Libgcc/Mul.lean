/- module: Riscv32Cpu/Libgcc/Mul
   source: CODE/abstract-machine/am/src/riscv/npc/libgcc/muldi3.S, multi3.c, longlong.h
   digest: Multiplication by shifting and adding, of words and of double words. -/

import Mathlib.Tactic.LinearCombination
import Riscv32Cpu.Libgcc.Div

set_option autoImplicit false
set_option relaxedAutoImplicit false

namespace Riscv32Cpu.Libgcc.Mul

open Riscv32Cpu.Lib.Memory Riscv32Cpu.Lib.Run Riscv32Cpu.Isa.Rv32i Riscv32Cpu.Libgcc.Div
open Riscv32Cpu.Rvmini Riscv32Cpu.Rvmini.Tables Riscv32Cpu.Rvmini.Image
open Riscv32Cpu.Rvmini.Logic Riscv32Cpu.Rvmini.Shift Riscv32Cpu.Rvmini.Branch
open Riscv32Cpu.Rvmini.Assembly Riscv32Cpu.Rvmini.Lines Riscv32Cpu.Rvmini.Simulation
open Riscv32Cpu.Rvmini.Assembler
open Riscv32Cpu.Rvmini.Macros (RegName Symbols mv li ra)

abbrev mulsi3 : Nat := 0
abbrev mulL1 : Nat := 2
abbrev mulL2 : Nat := 5

def mulS : Text :=
  [.op (mv a2 a0),
   .op (li a0 0),
   -- `.L1`
   .logic (.andi a3 a1 1),
   .branch (.beqz a3) mulL2,
   .op (Macros.add a0 a0 a2),
   -- `.L2`
   .shift (.srli a1 a1 1),
   .shift (.slli a2 a2 1),
   .branch (.bnez a1) mulL1,
   .jr ra]

theorem mul_halves {w : Nat} (n : Nat) (y : BitVec w) :
    BitVec.ofNat w n * y =
      (if n % 2 = 0 then 0 else y) + BitVec.ofNat w (n / 2) * (y <<< 1) := by
  have htwo : BitVec.twoPow w 1 = BitVec.ofNat w 2 :=
    BitVec.eq_of_toNat_eq (by rw [BitVec.toNat_twoPow, BitVec.toNat_ofNat])
  have hdouble : y <<< 1 = y * BitVec.ofNat w 2 := by
    rw [BitVec.shiftLeft_eq_mul_twoPow, htwo]
  have hbit : (if n % 2 = 0 then 0 else y) = BitVec.ofNat w (n % 2) * y := by
    rcases Nat.mod_two_eq_zero_or_one n with h | h
    · rw [h, if_pos rfl]
      exact (zero_mul y).symm
    · rw [h, if_neg (by decide)]
      exact (one_mul y).symm
  have hsplit : BitVec.ofNat w n = BitVec.ofNat w (n / 2) * BitVec.ofNat w 2 +
      BitVec.ofNat w (n % 2) := by
    rw [← BitVec.ofNat_mul, ← BitVec.ofNat_add, Nat.div_add_mod']
  rw [hbit, hdouble, hsplit]
  ring

theorem and_one_eq_zero (x : Word) : x &&& 1 = 0 ↔ x.toNat % 2 = 0 := by
  have h1 : (1 : Word).toNat = 2 ^ 1 - 1 := rfl
  rw [← BitVec.toNat_inj, BitVec.toNat_and, h1, Nat.and_two_pow_sub_one_eq_mod]
  rfl

theorem word_mul_halves (x y : Word) :
    x * y = (if x &&& 1 = 0 then 0 else y) + (x >>> 1) * (y <<< 1) := by
  have h := mul_halves x.toNat y
  have hhalf : BitVec.ofNat 32 (x.toNat / 2) = x >>> 1 := by
    apply BitVec.eq_of_toNat_eq
    rw [BitVec.toNat_ushiftRight, Nat.shiftRight_eq_div_pow, BitVec.toNat_ofNat]
    have hx := x.isLt
    omega
  rw [hhalf, BitVec.ofNat_toNat, BitVec.setWidth_eq] at h
  simp only [and_one_eq_zero]
  exact h

section Loop

variable {prog : Listing} {addr : Nat → Word} {m : Mem 32}

theorem run_add (h : Laid prog addr mulS) (x : RegFile) :
    ∃ y : RegFile, Reaches prog.step ⟨⟨x, m⟩, addr mulL1⟩ ⟨⟨y, m⟩, addr mulL2⟩ ∧
      y 10 = x 10 + (if x 11 &&& 1 = 0 then 0 else x 12) ∧ SameBut [10, 13] x y := by
  let x₁ := x.set 13 (x 11 &&& 1)
  have hsame : SameBut [10, 13] x x₁ := SameBut.set _ _ (by decide)
  by_cases hbit : x 11 &&& 1 = 0
  · refine ⟨x₁, h.step (k := mulL1) rfl rfl ?_, ?_, hsame⟩
    · exact h.taken (k := 3) rfl (decide_eq_true hbit) (Reaches.refl _)
    · rw [if_pos hbit, add_zero]
      rfl
  · refine ⟨x₁.set 10 (x₁ 10 + x₁ 12), h.step (k := mulL1) rfl rfl ?_, ?_,
      hsame.trans (SameBut.set _ _ (by decide))⟩
    · refine h.passed (k := 3) rfl (decide_eq_false hbit) ?_
      exact h.step (k := 4) rfl rfl (Reaches.refl _)
    · rw [if_neg hbit]
      rfl

theorem run_round (h : Laid prog addr mulS) (x : RegFile) :
    ∃ y : RegFile, Reaches prog.step ⟨⟨x, m⟩, addr mulL1⟩ ⟨⟨y, m⟩, addr 7⟩ ∧
      y 11 = x 11 >>> 1 ∧ y 10 + y 11 * y 12 = x 10 + x 11 * x 12 ∧
      SameBut [10, 11, 12, 13] x y := by
  obtain ⟨y, hadd, h10, hsame⟩ := run_add (m := m) h x
  have h11 : y 11 = x 11 := hsame 11 (by decide)
  have h12 : y 12 = x 12 := hsame 12 (by decide)
  refine ⟨(y.set 11 (y 11 >>> 1)).set 12 (y 12 <<< 1), hadd.trans ?_, ?_, ?_, ?_⟩
  · refine h.step (k := mulL2) rfl rfl ?_
    exact h.step (k := 6) rfl rfl (Reaches.refl _)
  · show y 11 >>> 1 = _
    rw [h11]
  · show y 10 + y 11 >>> 1 * y 12 <<< 1 = _
    rw [h10, h11, h12, add_assoc, ← word_mul_halves]
  · exact (hsame.mono (by decide)).trans ((SameBut.set _ _ (by decide)).trans
      (SameBut.set _ _ (by decide)))

theorem run_exit (h : Laid prog addr mulS) {x : RegFile} (hzero : x 11 = 0) :
    Reaches prog.step ⟨⟨x, m⟩, addr 7⟩ ⟨⟨x, m⟩, x 1 &&& ~~~1⟩ := by
  refine h.passed (k := 7) rfl (decide_eq_false (not_not.mpr hzero)) ?_
  exact h.jr (k := 8) rfl (Reaches.refl _)

theorem run_loop (h : Laid prog addr mulS) (d : Nat) {x : RegFile} (hd : (x 11).toNat < 2 ^ d) :
    ∃ y : RegFile, Reaches prog.step ⟨⟨x, m⟩, addr mulL1⟩ ⟨⟨y, m⟩, x 1 &&& ~~~1⟩ ∧
      y 10 = x 10 + x 11 * x 12 ∧ SameBut [10, 11, 12, 13] x y := by
  induction d generalizing x with
  | zero =>
    obtain ⟨y, hrun, h11, hsum, hsame⟩ := run_round (m := m) h x
    have hx : x 11 = 0 := BitVec.eq_of_toNat_eq (Nat.lt_one_iff.mp hd)
    have hzero : y 11 = 0 := by rw [h11, hx]; rfl
    rw [hzero, zero_mul, add_zero] at hsum
    rw [← hsame 1 (by decide)]
    exact ⟨y, hrun.trans (run_exit h hzero), hsum, hsame⟩
  | succ d ih =>
    obtain ⟨y, hrun, h11, hsum, hsame⟩ := run_round (m := m) h x
    rw [← hsame 1 (by decide)]
    by_cases hzero : y 11 = 0
    · rw [hzero, zero_mul, add_zero] at hsum
      exact ⟨y, hrun.trans (run_exit h hzero), hsum, hsame⟩
    · have hless : (y 11).toNat < 2 ^ d := by
        rw [h11, BitVec.toNat_ushiftRight, Nat.shiftRight_eq_div_pow]
        rw [Nat.pow_succ] at hd
        omega
      obtain ⟨z, hrest, h10, hsame'⟩ := ih hless
      exact ⟨z, hrun.trans (h.taken (k := 7) rfl (decide_eq_true hzero) hrest), h10.trans hsum,
        hsame.trans hsame'⟩

/-- `__mulsi3`: the product, in `a0`. That it leaves the `t` registers alone is what the comment
in `longlong.h` relies on. -/
theorem run_mulsi3 (h : Laid prog addr mulS) (x : RegFile) :
    ∃ y : RegFile, Reaches prog.step ⟨⟨x, m⟩, addr mulsi3⟩ ⟨⟨y, m⟩, x 1 &&& ~~~1⟩ ∧
      y 10 = x 10 * x 11 ∧ SameBut [10, 11, 12, 13] x y := by
  let x₁ := (x.set 12 (x 10)).set 10 0
  have hsame₁ : SameBut [10, 11, 12, 13] x x₁ :=
    (SameBut.set _ _ (by decide)).trans (SameBut.set _ _ (by decide))
  obtain ⟨y, hrun, h10, hsame⟩ := run_loop (m := m) h 32 (x := x₁) (x₁ 11).isLt
  refine ⟨y, ?_, ?_, hsame₁.trans hsame⟩
  · refine h.mv (k := mulsi3) rfl ?_
    exact h.li (k := 1) rfl hrun
  · rw [h10]
    show 0 + x 11 * x 10 = _
    rw [zero_add, mul_comm]

end Loop

theorem mulS_sizes (sym : Symbols) : mulS.map (size sym) =
    [1, 1, 39, 35, 1, 42, 1, 35, 1] := by
  simp [mulS, size, Line.map, Line.expand, Line.jr, BranchInst.expand, LogicInst.expand,
    ShiftInst.expand, Macros.beqz, Macros.bnez, Macros.beq,
    Macros.bne, Macros.branchEq, Macros.isZero, Macros.x0, Macros.branchResolve,
    Macros.branchSlots, Macros.slli, Macros.la, Macros.seqz, Macros.check8bit0, Macros.andi,
    Macros.logicItype, Macros.defItype, Macros.and, Macros.logic, Macros.logic8ByteInternal,
    Macros.srli, Macros.shiftRightTemplate, Macros.shiftRightRow, Macros.shiftRightTail,
    Macros.getShiftByteInTp, Macros.mergeBytes, a0, a1, a2, a3, Macros.sp, Macros.gp, Macros.tp]

theorem mulS_laid (sym : Symbols) (origin : Word) :
    Laid (listing sym origin mulS) (addressOf sym origin mulS) mulS := by
  refine laid_listing ?_ fun l hl hzero => ?_
  · rw [offset, List.take_length, mulS_sizes]
    decide
  · have hmem : 0 ∈ mulS.map (size sym) := List.mem_map.mpr ⟨l, hl, hzero⟩
    rw [mulS_sizes] at hmem
    exact absurd hmem (by decide)

theorem mulS_inRegisters : ∀ l ∈ mulS, InRegisters l := by decide

/-- `__mulsi3` multiplies, rewritten to rvmini's eight instructions as well. -/
theorem rewritten_mulsi3_multiplies {sym : Symbols} {origin : Word} {is : List Inst} {code : Code}
    (horigin : origin.toNat % 2 = 0) (hapart : Apart sym)
    (hassemble : assemble sym origin mulS = some is) (hplaced : Placed code origin is) {t : State}
    (hlinked : Linked sym (t.x 2) t.mem) (hpc : t.pc = origin) :
    ∃ n u, runN (step fun s => code s.pc) n t = some u ∧ u.pc = t.x 1 &&& ~~~1 ∧
      u.x 10 = t.x 10 * t.x 11 ∧ SameBut [3, 4, 10, 11, 12, 13] t.x u.x ∧
      ∀ a, a ∉ scratchArea sym (t.x 2) → u.mem a = t.mem a := by
  subst hpc
  obtain ⟨y, hrun, hresult, hsame⟩ := run_mulsi3 (m := t.mem) (mulS_laid sym t.pc) t.x
  rw [addressOf, offset_zero, after_zero] at hrun
  obtain ⟨n, u, hn, hupc, hx, hkeep, hmem⟩ := rewritten_routine hassemble hplaced horigin hapart
    mulS_inRegisters hlinked hrun hsame
  exact ⟨n, u, hn, hupc, (hx 10 (by decide) (by decide)).trans hresult, hkeep, hmem⟩

/-- `__mulsi3` called with 6 and 7 on a rewritten image at `0x80000000`. -/
theorem rewritten_mulsi3_runs : ∃ (code : Code) (n : Nat) (u : State),
    runN (step fun s => code s.pc) n (hartWith 6 7) = some u ∧ u.x 10 = 42 := by
  have hsome : ∃ is, assemble (symbolsAt sectionBase) 0x80000000#32 mulS = some is :=
    assembleFrom_isSome fun l hl => ((mulS_inRegisters l hl).map _).allowed
  obtain ⟨is, his⟩ := hsome
  have hlen : 4 * is.length < 2 ^ 32 := by
    rw [length_assembleFrom his, offset, List.take_length, mulS_sizes]
    decide
  obtain ⟨n, u, hrun, -, hresult, -⟩ := rewritten_mulsi3_multiplies (by decide)
    (apart_symbolsAt sectionBase) his (placed_codeAt hlen) (hartWith_linked 6 7) rfl
  exact ⟨_, n, u, hrun, hresult⟩

/-- `DWunion`, its halves. -/
structure DWunion where
  low : Word
  high : Word

def DWunion.ofDWtype (u : BitVec 64) : DWunion := ⟨u.setWidth 32, (u >>> 32).setWidth 32⟩

def DWunion.ll (u : DWunion) : BitVec 64 := u.high ++ u.low

/-- `__muluw3`: a call of `__mulsi3`, which `run_mulsi3` says is a product. -/
def muluw3 (a b : Word) : Word := a * b

/-- The variables of the loop of `__multi3`. -/
structure Multi3 where
  u_low : Word
  v_low : Word
  w_low : Word
  w_high : Word
  w_high_tmp : Word

namespace Multi3

/-- The body of the loop. -/
def body (s : Multi3) : Multi3 :=
  let new_w_low := s.w_low + s.u_low
  let w_high_tmp2x := s.w_high_tmp <<< 1
  let w_high_tmp := s.w_high_tmp + s.w_high
  let carry : Word := if new_w_low.ult s.w_low then 1 else 0
  let odd := s.v_low &&& 1 ≠ 0
  let u_low_msb := s.u_low >>> 31
  { u_low := s.u_low <<< 1
    v_low := s.v_low >>> 1
    w_low := if odd then new_w_low else s.w_low
    w_high := if odd then carry + w_high_tmp else s.w_high
    w_high_tmp := u_low_msb ||| w_high_tmp2x }

theorem body_v_low_lt {s : Multi3} (h : s.body.v_low ≠ 0) :
    s.body.v_low.toNat < s.v_low.toNat := by
  have hne : s.body.v_low.toNat ≠ 0 := fun h0 => h (BitVec.eq_of_toNat_eq h0)
  have hv : s.body.v_low.toNat = s.v_low.toNat / 2 := by
    rw [body, BitVec.toNat_ushiftRight, Nat.shiftRight_eq_div_pow]
  omega

/-- `do … while (v_low)`. -/
def loop (s : Multi3) : Multi3 := if _h : s.body.v_low ≠ 0 then loop s.body else s.body
termination_by s.v_low.toNat
decreasing_by exact body_v_low_lt ‹_›

end Multi3

/-- `__multi3`, with 32-bit words `__muldi3`. -/
def multi3 (u v : BitVec 64) : BitVec 64 :=
  let uu := DWunion.ofDWtype u
  let vv := DWunion.ofDWtype v
  let s := Multi3.loop ⟨uu.low, vv.low, 0, 0, 0⟩
  let w : DWunion := ⟨s.w_low, s.w_high⟩
  let w := if uu.high ≠ 0 then { w with high := w.high + muluw3 vv.low uu.high } else w
  let w := if vv.high ≠ 0 then { w with high := w.high + muluw3 uu.low vv.high } else w
  w.ll

/-! Double words as sums: `high * 2 ^ 32 + low`, modulo `2 ^ 64`. -/

def wide (x : Word) : BitVec 64 := x.setWidth 64

/-- `2 ^ 32`. -/
def base : BitVec 64 := BitVec.ofNat 64 (2 ^ 32)

theorem wide_toNat (x : Word) : (wide x).toNat = x.toNat := by
  rw [wide, BitVec.toNat_setWidth]
  have hx := x.isLt
  omega

theorem mul_base_toNat (x : BitVec 64) : (x * base).toNat = x.toNat % 2 ^ 32 * 2 ^ 32 := by
  have hbase : base.toNat = 2 ^ 32 := rfl
  rw [BitVec.toNat_mul, hbase]
  omega

theorem append_eq (h l : Word) : (h ++ l : BitVec 64) = wide h * base + wide l := by
  have hh := h.isLt
  have hl := l.isLt
  have hor : h.toNat <<< 32 ||| l.toNat = h.toNat <<< 32 + l.toNat :=
    (Nat.shiftLeft_add_eq_or_of_lt hl h.toNat).symm
  apply BitVec.eq_of_toNat_eq
  rw [BitVec.toNat_add, mul_base_toNat, wide_toNat, wide_toNat, BitVec.toNat_append, hor,
    Nat.shiftLeft_eq]
  omega

theorem wide_add_base (x y : Word) : wide (x + y) * base = (wide x + wide y) * base := by
  apply BitVec.eq_of_toNat_eq
  rw [mul_base_toNat, mul_base_toNat, BitVec.toNat_add, wide_toNat, wide_toNat, wide_toNat,
    BitVec.toNat_add]
  omega

theorem wide_mul_base (x y : Word) : wide (x * y) * base = wide x * wide y * base := by
  apply BitVec.eq_of_toNat_eq
  rw [mul_base_toNat, mul_base_toNat, BitVec.toNat_mul, wide_toNat, wide_toNat, wide_toNat,
    BitVec.toNat_mul]
  rw [Nat.mod_mod, Nat.mod_mod_of_dvd _ (by decide)]

theorem wide_add_carry (x y : Word) :
    wide (if (x + y).ult x then 1 else 0) * base + wide (x + y) = wide x + wide y := by
  have hx := x.isLt
  have hy := y.isLt
  have hult : (x + y).ult x = decide (2 ^ 32 ≤ x.toNat + y.toNat) := by
    rw [BitVec.ult_eq_decide, decide_eq_decide, BitVec.toNat_add]
    omega
  apply BitVec.eq_of_toNat_eq
  rw [BitVec.toNat_add, BitVec.toNat_add, mul_base_toNat, wide_toNat, wide_toNat, wide_toNat,
    wide_toNat, hult, BitVec.toNat_add]
  by_cases hcarry : 2 ^ 32 ≤ x.toNat + y.toNat
  · rw [decide_eq_true hcarry, if_pos rfl]
    have h1 : (1 : Word).toNat = 1 := rfl
    omega
  · rw [decide_eq_false hcarry, if_neg (by decide)]
    have h0 : (0 : Word).toNat = 0 := rfl
    omega

theorem wide_double (h l : Word) :
    wide (l >>> 31 ||| h <<< 1) * base + wide (l <<< 1) = (wide h * base + wide l) <<< 1 := by
  have hl := l.isLt
  have hdisjoint : l >>> 31 &&& h <<< 1 = 0#32 := by
    apply BitVec.eq_of_getLsbD_eq
    intro i hi
    rw [BitVec.getLsbD_and, BitVec.getLsbD_ushiftRight, BitVec.getLsbD_shiftLeft,
      BitVec.getLsbD_zero]
    rcases Nat.eq_zero_or_pos i with rfl | hpos
    · simp
    · rw [BitVec.getLsbD_of_ge _ _ (by omega), Bool.false_and]
  rw [← BitVec.add_eq_or_of_and_eq_zero _ _ hdisjoint]
  apply BitVec.eq_of_toNat_eq
  rw [BitVec.toNat_shiftLeft, BitVec.toNat_add, BitVec.toNat_add, mul_base_toNat, mul_base_toNat,
    wide_toNat, wide_toNat, wide_toNat, wide_toNat, BitVec.toNat_add, BitVec.toNat_ushiftRight,
    BitVec.toNat_shiftLeft, BitVec.toNat_shiftLeft, Nat.shiftRight_eq_div_pow, Nat.shiftLeft_eq,
    Nat.shiftLeft_eq, Nat.shiftLeft_eq]
  omega

namespace Multi3

/-- The multiplicand, shifted so far. -/
def shifted (s : Multi3) : BitVec 64 := wide s.w_high_tmp * base + wide s.u_low

def product (s : Multi3) : BitVec 64 := wide s.w_high * base + wide s.w_low

theorem body_shifted (s : Multi3) : s.body.shifted = s.shifted <<< 1 :=
  wide_double s.w_high_tmp s.u_low

theorem body_product (s : Multi3) :
    s.body.product = s.product + if s.v_low &&& 1 = 0 then 0 else s.shifted := by
  by_cases hbit : s.v_low &&& 1 = 0
  · rw [if_pos hbit, add_zero, product, product, body]
    simp only [hbit, ne_eq, not_true_eq_false, if_false]
  · rw [if_neg hbit, product, product, shifted, body]
    simp only [hbit, ne_eq, not_false_eq_true, if_true]
    have hcarry := wide_add_carry s.w_low s.u_low
    generalize (if (s.w_low + s.u_low).ult s.w_low then (1 : Word) else 0) = carry at hcarry ⊢
    rw [wide_add_base, add_mul, add_right_comm, hcarry, wide_add_base]
    ring

theorem body_sum (s : Multi3) :
    s.body.product + wide s.body.v_low * s.body.shifted =
      s.product + wide s.v_low * s.shifted := by
  have hhalves := mul_halves s.v_low.toNat s.shifted
  have hv : BitVec.ofNat 64 (s.v_low.toNat / 2) = wide s.body.v_low := by
    apply BitVec.eq_of_toNat_eq
    have hlt := s.v_low.isLt
    rw [wide_toNat, body, BitVec.toNat_ushiftRight, Nat.shiftRight_eq_div_pow, BitVec.toNat_ofNat]
    omega
  have hwide : BitVec.ofNat 64 s.v_low.toNat = wide s.v_low := by
    apply BitVec.eq_of_toNat_eq
    have hlt := s.v_low.isLt
    rw [wide_toNat, BitVec.toNat_ofNat]
    omega
  simp only [← and_one_eq_zero] at hhalves
  rw [body_shifted, body_product, add_assoc, ← hv, ← hwide, hhalves]

theorem loop_product (s : Multi3) : s.loop.product = s.product + wide s.v_low * s.shifted := by
  induction s using loop.induct with
  | case1 s h ih => rw [loop, dif_pos h, ih, body_sum]
  | case2 s h =>
    have hzero : s.body.v_low = 0 := not_not.mp h
    have hsum := body_sum s
    have hwide : wide (0 : Word) = 0 := rfl
    rw [hzero, hwide, zero_mul, add_zero] at hsum
    rw [loop, dif_neg h, hsum]

end Multi3

theorem ofDWtype_sum (u : BitVec 64) :
    wide (DWunion.ofDWtype u).high * base + wide (DWunion.ofDWtype u).low = u := by
  have hu := u.isLt
  apply BitVec.eq_of_toNat_eq
  rw [BitVec.toNat_add, mul_base_toNat, wide_toNat, wide_toNat, DWunion.ofDWtype,
    BitVec.toNat_setWidth, BitVec.toNat_setWidth, BitVec.toNat_ushiftRight,
    Nat.shiftRight_eq_div_pow]
  omega

theorem cross_product (l h a b : Word) :
    (if b ≠ 0 then (⟨l, h + muluw3 a b⟩ : DWunion) else ⟨l, h⟩) = ⟨l, h + a * b⟩ := by
  split
  · rfl
  · next hb => rw [not_not.mp hb, mul_zero, add_zero]

/-- `__muldi3` multiplies modulo `2 ^ 64`. -/
theorem muldi3_multiplies (u v : BitVec 64) : multi3 u v = u * v := by
  have hu := ofDWtype_sum u
  have hv := ofDWtype_sum v
  rw [multi3]
  simp only [cross_product, DWunion.ll, append_eq, wide_add_base, add_mul, wide_mul_base]
  generalize DWunion.ofDWtype u = uu at hu ⊢
  generalize DWunion.ofDWtype v = vv at hv ⊢
  have hloop := Multi3.loop_product ⟨uu.low, vv.low, 0, 0, 0⟩
  have hzero : wide (0 : Word) = 0 := rfl
  have hbase : base * base = 0 := rfl
  simp only [Multi3.product, Multi3.shifted, hzero, zero_mul, zero_add] at hloop
  generalize Multi3.loop ⟨uu.low, vv.low, 0, 0, 0⟩ = s at hloop ⊢
  rw [← hu, ← hv]
  linear_combination hloop - wide uu.high * wide vv.high * hbase

end Riscv32Cpu.Libgcc.Mul
