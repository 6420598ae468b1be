/- module: Riscv32Cpu/Rvmini/Compare
   source: CODE/abstract-machine/tools/rvmini/inst-replace.h
   digest: Set-less-than from the signs of A, B and A - B. -/

import Riscv32Cpu.Rvmini.Image

set_option autoImplicit false
set_option relaxedAutoImplicit false

namespace Riscv32Cpu.Rvmini.Compare

open Riscv32Cpu.Lib.Memory Riscv32Cpu.Lib.Run Riscv32Cpu.Isa.Rv32i Riscv32Cpu.Rvmini.Scratch
open Riscv32Cpu.Rvmini.Tables Riscv32Cpu.Rvmini.Blocks Riscv32Cpu.Rvmini.Meaning
open Riscv32Cpu.Rvmini.Image
open Riscv32Cpu.Rvmini.Macros (RegName Symbols spVar spVarByte)

theorem slt_of_signs (x y : Word) :
    x.slt y = ((x - y).msb ^^ ((x.msb ^^ y.msb) && (x.msb ^^ (x - y).msb))) := by
  have hx := x.isLt
  have hy := y.isLt
  have hsub : (x - y).toNat =
      if y.toNat ≤ x.toNat then x.toNat - y.toNat else 4294967296 + x.toNat - y.toNat := by
    rw [BitVec.toNat_sub]
    split <;> omega
  simp only [BitVec.msb_eq_decide, BitVec.slt_eq_decide, BitVec.toInt_eq_toNat_cond, hsub,
    Nat.reduceSub, Nat.reducePow]
  by_cases hxs : 2147483648 ≤ x.toNat <;> by_cases hys : 2147483648 ≤ y.toNat <;>
    by_cases hle : y.toNat ≤ x.toNat <;> simp [hxs, hys, hle] <;> omega

theorem ult_of_slt (x y : Word) : x.ult y = (x.slt y ^^ x.msb ^^ y.msb) := by
  rw [BitVec.slt_eq_ult]
  cases x.msb <;> cases y.msb <;> simp

/-- The index `4A + 2B + R` the template assembles in `gp`. -/
def signIndex (x y : Word) : Nat := x.msb.toNat * 4 + y.msb.toNat * 2 + (x - y).msb.toNat

theorem signIndex_lt (x y : Word) : signIndex x y < 8 := by
  have hbit : ∀ b : Bool, b.toNat ≤ 1 := Bool.toNat_le
  have hx := hbit x.msb
  have hy := hbit y.msb
  have hr := hbit (x - y).msb
  unfold signIndex
  omega

theorem slt1_lookup (x y : Word) : (slt1Bytes.getD (signIndex x y) 0).setWidth 32 = flag (x.slt y) := by
  rw [slt_of_signs, signIndex]
  cases x.msb <;> cases y.msb <;> cases (x - y).msb <;> decide

theorem sltu1_lookup (x y : Word) :
    (sltu1Bytes.getD (signIndex x y) 0).setWidth 32 = flag (x.ult y) := by
  rw [ult_of_slt, slt_of_signs, signIndex]
  cases x.msb <;> cases y.msb <;> cases (x - y).msb <;> decide

theorem signIndex_word (x y : Word) :
    ((signBit x <<< 1 + signBit y) <<< 1 : Word) + signBit (x - y) =
      BitVec.ofNat 32 (signIndex x y) := by
  rw [signBit, signBit, signBit, signIndex]
  cases x.msb <;> cases y.msb <;> cases (x - y).msb <;> decide

theorem run_signs (f : Frame) :
    ∃ g : Frame, runOps (Macros.msb Macros.gp Macros.s0 ++ Macros.slli Macros.gp Macros.gp 1 ++
        Macros.msb Macros.tp Macros.s1 ++ [Macros.add Macros.gp Macros.gp Macros.tp] ++
        Macros.slli Macros.gp Macros.gp 1) f.core = g.core ∧
      g.x 3 = (signBit (f.x 8) <<< 1 + signBit (f.x 9)) <<< 1 ∧
      (∀ r, r ≠ 3 → r ≠ 4 → g.x r = f.x r) ∧ (∀ n, n ≠ 6 → g.var n = f.var n) ∧
      g.rest = f.rest := by
  rw [runOps_append, runOps_append, runOps_append, runOps_append, run_msb _ (by decide) (by decide),
    run_slli_small _ (by decide) (by decide) (by decide), run_msb _ (by decide) (by decide),
    runOps_cons, runOps_nil, Frame.exec_add _ (by decide),
    run_slli_small _ (by decide) (by decide) (by decide)]
  refine ⟨_, rfl, by simp, fun r h3 h4 => ?_, fun n h6 => ?_, rfl⟩
  · simp [h3, h4]
  · simp [h6]

/-- `slt_template` looks its result up at the index of the two operands; `s0` and `s1` are
restored before the result is loaded, so either may be its destination. -/
theorem sltTemplate_leaves {sym : Symbols} {lut : Word} {t : List Byte} {rd rs1 rs2 : RegName}
    (f : Frame) (hd : (rd : Reg) ≠ 2) (hlinked : Linked sym (f.x 2) f.rest)
    (htab : At (f.x 2) f.rest lut t) (hlen : t.length = 8) :
    Leaves (Macros.sltTemplate sym lut rd rs1 rs2) f rd
      ((t.getD (signIndex (f.x rs1) (f.x rs2)) 0).setWidth 32) [3, 4] := by
  let f₁ := ((((f.put 1 (f.x 8)).put 2 (f.x 9)).put 4 (f.x rs2)).set 8 (f.x rs1)).set 9 (f.x rs2)
  have hpre : runOps [Macros.push Macros.s0 1, Macros.push Macros.s1 2,
      Macros.sw rs2 (spVar Macros.varA), Macros.mv Macros.s0 rs1,
      Macros.lw Macros.s1 (spVar Macros.varA)] f.core = f₁.core := by
    simp [f₁]
  obtain ⟨g, hsigns, hgp, hgx, hgvar, hgrest⟩ := run_signs f₁
  obtain ⟨k, hsub, hkx, hkvar, hkrest⟩ := run_sub g Macros.tp Macros.s0 Macros.s1 (by decide)
    (by decide) (by rw [hgrest, hgx 2 (by decide) (by decide)]; simpa [f₁] using hlinked)
  simp only [runOps_append] at hsigns
  unfold Leaves
  rw [Macros.sltTemplate]
  simp only [runOps_append]
  rw [hpre, hsigns, hsub]
  have hk3 : k.x 3 = (signBit (f.x rs1) <<< 1 + signBit (f.x rs2)) <<< 1 := by
    simp [hkx, RegFile.get_set, hgp, f₁]
  have hk4 : k.x 4 = f.x rs1 - f.x rs2 := by
    simp [hkx, RegFile.get_set, hgx, f₁]
  have hkr : ∀ r, r ≠ 3 → r ≠ 4 → k.x r = f₁.x r := by
    intro r h3 h4
    simp [hkx, RegFile.get_set, h4, hgx r h3 h4]
  have hk2 : k.x 2 = f.x 2 := by
    rw [hkr 2 (by decide) (by decide)]
    simp [f₁]
  have hk1v : k.var 1 = f.x 8 := by
    rw [hkvar 1 (by decide) (by decide) (by decide), hgvar 1 (by decide)]
    simp [f₁]
  have hk2v : k.var 2 = f.x 9 := by
    rw [hkvar 2 (by decide) (by decide) (by decide), hgvar 2 (by decide)]
    simp [f₁]
  have hrest : k.rest = f.rest := hkrest.trans hgrest
  have hget := htab _ (hlen ▸ signIndex_lt (f.x rs1) (f.x rs2))
  have hindex := signIndex_word (f.x rs1) (f.x rs2)
  generalize (signBit (f.x rs1) <<< 1 + signBit (f.x rs2)) <<< 1 = p at hk3 hindex
  rw [run_msb _ (by decide) (by decide)]
  simp [hk3, hk4, hindex, hk1v, hk2v]
  rw [Frame.exec_lbu_at0 _ hd (by simpa [hk2] using hget.1)]
  refine ⟨_, rfl, fun h0 => ?_, fun r hr h3 h4 => ?_, by simp [hrest]⟩
  · simp [h0, hrest, hget.2]
  · by_cases h8 : r = 8
    · subst h8
      simp [hr]
    by_cases h9 : r = 9
    · subst h9
      simp [hr]
    · simp [hr, h3, h4, h8, h9, hkr, f₁]

theorem slt_leaves {sym : Symbols} {rd : RegName} (rs1 rs2 : RegName) (f : Frame) (hd : (rd : Reg) ≠ 2)
    (hlinked : Linked sym (f.x 2) f.rest) :
    Leaves (Macros.slt sym rd rs1 rs2) f rd (flag ((f.x rs1).slt (f.x rs2))) [3, 4] := by
  rw [← slt1_lookup]
  exact sltTemplate_leaves f hd hlinked hlinked.slt1 rfl

theorem sltu_leaves {sym : Symbols} {rd : RegName} (rs1 rs2 : RegName) (f : Frame) (hd : (rd : Reg) ≠ 2)
    (hlinked : Linked sym (f.x 2) f.rest) :
    Leaves (Macros.sltu sym rd rs1 rs2) f rd (flag ((f.x rs1).ult (f.x rs2))) [3, 4] := by
  rw [← sltu1_lookup]
  exact sltTemplate_leaves f hd hlinked hlinked.sltu1 rfl

theorem msb_leaves {rd rs : RegName} (f : Frame) (hd : (rd : Reg) ≠ 2) (clob : List Reg) :
    Leaves (Macros.msb rd rs) f rd (flag ((f.x rs).slt 0)) clob := by
  have hsign : flag ((f.x rs).slt 0) = signBit (f.x rs) := by
    have hmsb : (f.x rs).slt 0 = (f.x rs).msb := BitVec.slt_zero_eq_msb
    rw [hmsb, signBit, flag]
    cases (f.x rs).msb <;> rfl
  unfold Leaves
  by_cases h0 : (rd : Reg) = 0
  · rw [Macros.msb, runOps_append, runOps_append, run_getbyte _ hd (by decide),
      run_slli_small _ hd (by decide) (by decide), run_getbyte _ hd (by decide), h0]
    exact ⟨_, rfl, fun h => absurd rfl h, fun r hr _ => by simp, rfl⟩
  · rw [run_msb _ hd h0]
    refine ⟨_, rfl, fun _ => ?_, fun r hr _ => ?_, rfl⟩
    · rw [Frame.set_x, if_pos ⟨rfl, h0⟩, hsign]
    · simp [hr]

/-- The set-less-than instructions and their pseudo-instructions. -/
inductive SetInst
  | slt (rd rs1 rs2 : RegName)
  | sltu (rd rs1 rs2 : RegName)
  | slti (rd rs1 : RegName) (imm : BitVec 12)
  | sltiu (rd rs1 : RegName) (imm : BitVec 12)
  | snez (rd rs : RegName)
  | sltz (rd rs : RegName)
  | sgtz (rd rs : RegName)
  | sgt (rd rs1 rs2 : RegName)
  | sgtu (rd rs1 rs2 : RegName)

namespace SetInst

def rd : SetInst → RegName
  | slt rd _ _ | sltu rd _ _ | slti rd _ _ | sltiu rd _ _ | snez rd _ | sltz rd _ | sgtz rd _
  | sgt rd _ _ | sgtu rd _ _ => rd

def expand (sym : Symbols) : SetInst → List Op
  | slt rd rs1 rs2 => Macros.slt sym rd rs1 rs2
  | sltu rd rs1 rs2 => Macros.sltu sym rd rs1 rs2
  | slti rd rs1 imm => Macros.slti sym rd rs1 imm
  | sltiu rd rs1 imm => Macros.sltiu sym rd rs1 imm
  | snez rd rs => Macros.snez sym rd rs
  | sltz rd rs => Macros.sltz rd rs
  | sgtz rd rs => Macros.sgtz sym rd rs
  | sgt rd rs1 rs2 => Macros.sgt sym rd rs1 rs2
  | sgtu rd rs1 rs2 => Macros.sgtu sym rd rs1 rs2

/-- The comparison RV32I makes. -/
def holds (x : RegFile) : SetInst → Bool
  | slt _ rs1 rs2 => (x rs1).slt (x rs2)
  | sltu _ rs1 rs2 => (x rs1).ult (x rs2)
  | slti _ rs1 imm => (x rs1).slt (imm.signExtend 32)
  | sltiu _ rs1 imm => (x rs1).ult (imm.signExtend 32)
  | snez _ rs => x rs ≠ 0
  | sltz _ rs => (x rs).slt 0
  | sgtz _ rs => (0 : Word).slt (x rs)
  | sgt _ rs1 rs2 => (x rs2).slt (x rs1)
  | sgtu _ rs1 rs2 => (x rs2).ult (x rs1)

def Allowed : SetInst → Prop
  | slt rd rs1 rs2 | sltu rd rs1 rs2 | sgt rd rs1 rs2 | sgtu rd rs1 rs2 =>
    Plain rd ∧ Plain rs1 ∧ Plain rs2
  | slti rd rs _ | sltiu rd rs _ | snez rd rs | sltz rd rs | sgtz rd rs => Plain rd ∧ Plain rs

instance (i : SetInst) : Decidable i.Allowed := by
  cases i <;> exact inferInstanceAs (Decidable (_ ∧ _))

end SetInst

theorem zero_ult (x : Word) : (0 : Word).ult x = decide (x ≠ 0) := by
  rw [BitVec.ult_eq_decide, decide_eq_decide, ne_eq, ← BitVec.toNat_inj]
  exact Nat.pos_iff_ne_zero

theorem setItype_leaves {sym : Symbols} (form : RegName → RegName → RegName → List Op)
    (lt : Word → Word → Bool) {rd rs1 : RegName} {imm : BitVec 12} (f : Frame) (h1 : (rs1 : Reg) ≠ 4)
    (hform : ∀ g : Frame, Linked sym (g.x 2) g.rest →
      Leaves (form rd rs1 Macros.tp) g rd (flag (lt (g.x rs1) (g.x 4))) [3, 4])
    (hlinked : Linked sym (f.x 2) f.rest) :
    Leaves (Macros.li Macros.tp imm :: form rd rs1 Macros.tp) f rd
      (flag (lt (f.x rs1) (imm.signExtend 32))) [3, 4] := by
  have h := hform (f.set 4 (imm.signExtend 32)) (by simpa using hlinked)
  rw [Frame.set_x, Frame.set_x, if_neg fun hr => h1 hr.1, if_pos ⟨rfl, by decide⟩] at h
  exact Leaves.itype h (by decide)

theorem set_implements (sym : Symbols) {i : SetInst} (h : i.Allowed) :
    Implements sym (i.expand sym) i.rd (fun x => flag (i.holds x)) [3, 4] ∅ := by
  have hof : (i.rd : Reg) ≠ 2 → (∀ f : Frame, Linked sym (f.x 2) f.rest →
      Leaves (i.expand sym) f i.rd (flag (i.holds f.x)) [3, 4]) →
        Implements sym (i.expand sym) i.rd (fun x => flag (i.holds x)) [3, 4] ∅ :=
    fun hrd h => implements_of_leaves hrd (by decide : (2 : Reg) ∉ [3, 4]) h
  have hx0 : ∀ f : Frame, f.x Macros.x0 = 0 := fun f => f.x.zero
  cases i with
  | slt rd rs1 rs2 => exact hof h.1.1 fun f => slt_leaves rs1 rs2 f h.1.1
  | sltu rd rs1 rs2 => exact hof h.1.1 fun f => sltu_leaves rs1 rs2 f h.1.1
  | slti rd rs1 imm =>
    exact hof h.1.1 fun f => setItype_leaves (Macros.slt sym) BitVec.slt f h.2.2.2
      fun g => slt_leaves rs1 Macros.tp g h.1.1
  | sltiu rd rs1 imm =>
    exact hof h.1.1 fun f => setItype_leaves (Macros.sltu sym) BitVec.ult f h.2.2.2
      fun g => sltu_leaves rs1 Macros.tp g h.1.1
  | snez rd rs =>
    refine hof h.1.1 fun f hf => ?_
    have hset := sltu_leaves Macros.x0 rs f h.1.1 hf
    rw [hx0, zero_ult] at hset
    exact hset
  | sltz rd rs => exact hof h.1.1 fun f _ => msb_leaves f h.1.1 [3, 4]
  | sgtz rd rs =>
    refine hof h.1.1 fun f hf => ?_
    have hset := slt_leaves Macros.x0 rs f h.1.1 hf
    rw [hx0] at hset
    exact hset
  | sgt rd rs1 rs2 => exact hof h.1.1 fun f => slt_leaves rs2 rs1 f h.1.1
  | sgtu rd rs1 rs2 => exact hof h.1.1 fun f => sltu_leaves rs2 rs1 f h.1.1

/-- Every set-less-than expands to code that leaves 0 or 1 in `rd` as RV32I does; only `rd`,
`gp`, `tp` and scratch words change. -/
theorem expansion_of_set_meets_rv32i (sym : Symbols) (i : SetInst) (h : i.Allowed) :
    Implements sym (i.expand sym) i.rd (fun x => if i.holds x then 1 else 0) [3, 4] ∅ :=
  set_implements sym h

/-- `slt a0, a0, a1` run on a hart that holds -5 and 3. -/
theorem slt_runs_at_image : ∃ s', runN (step fun t => codeAt 0x80000000#32
      (((SetInst.slt (.abi 10) (.abi 10) (.abi 11)).expand (symbolsAt sectionBase)).map .op) t.pc)
      ((SetInst.slt (.abi 10) (.abi 10) (.abi 11)).expand (symbolsAt sectionBase)).length
      (hartWith 0xfffffffb 3) = some s' ∧ s'.x 10 = 1 := by
  have himplements := expansion_of_set_meets_rv32i (symbolsAt sectionBase)
    (.slt (.abi 10) (.abi 10) (.abi 11)) (by decide)
  have hlen : ((SetInst.slt (.abi 10) (.abi 10) (.abi 11)).expand
      (symbolsAt sectionBase)).length = 54 := by
    simp [SetInst.expand, Macros.slt, Macros.sltTemplate, Macros.msb, Macros.getbyte, Macros.slli,
      Macros.sub, Macros.not, Macros.notByte, Macros.la]
  obtain ⟨s', hrun, -, hcomputes⟩ := himplements _ (hartWith 0xfffffffb 3)
    (placed_codeAt (by rw [List.length_map, hlen]; decide)) (hartWith_linked _ _)
  exact ⟨s', hrun, hcomputes.value (by decide)⟩

end Riscv32Cpu.Rvmini.Compare
