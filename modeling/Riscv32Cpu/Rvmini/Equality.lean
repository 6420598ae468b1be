/- module: Riscv32Cpu/Rvmini/Equality
   source: CODE/abstract-machine/tools/rvmini/inst-replace.h
   digest: Equality tests by byte tables, and the destination `seqz` restores away. -/

import Riscv32Cpu.Rvmini.Image

set_option autoImplicit false
set_option relaxedAutoImplicit false

namespace Riscv32Cpu.Rvmini.Equality

open Riscv32Cpu.Lib.Memory Riscv32Cpu.Lib.Run Riscv32Cpu.Isa.Rv32i Riscv32Cpu.Rvmini.Scratch
open Riscv32Cpu.Rvmini.Tables Riscv32Cpu.Rvmini.Blocks Riscv32Cpu.Rvmini.Meaning
open Riscv32Cpu.Rvmini.Image
open Riscv32Cpu.Rvmini.Macros (RegName Symbols spVar spVarByte)

/-- The sum of four flags, the first added first. -/
def flagSum (p : Nat → Bool) : Word := flag (p 0) + flag (p 1) + flag (p 2) + flag (p 3)

theorem flagSum_lt (p : Nat → Bool) : (flagSum p).toNat < 8 := by
  unfold flagSum
  cases p 0 <;> cases p 1 <;> cases p 2 <;> cases p 3 <;> decide

theorem sameResult_lookup (p : Nat → Bool) :
    (sameResultBytes.getD (flagSum p).toNat 0).setWidth 32 = flag (!(p 0 || p 1 || p 2 || p 3)) := by
  unfold flagSum
  cases p 0 <;> cases p 1 <;> cases p 2 <;> cases p 3 <;> decide

theorem eq_iff_bytes (x y : Word) :
    (!(decide (byteAt x 0 ≠ byteAt y 0) || decide (byteAt x 1 ≠ byteAt y 1) ||
      decide (byteAt x 2 ≠ byteAt y 2) || decide (byteAt x 3 ≠ byteAt y 3))) = decide (x = y) := by
  by_cases h : x = y
  · subst h
    simp
  · have hdiff : ¬(byteAt x 0 = byteAt y 0 ∧ byteAt x 1 = byteAt y 1 ∧
        byteAt x 2 = byteAt y 2 ∧ byteAt x 3 = byteAt y 3) := by
      rintro ⟨h0, h1, h2, h3⟩
      refine h (eq_of_byteAt_eq fun k hk => ?_)
      have hk4 : k < 4 := by omega
      interval_cases k
      · exact h0
      · exact h1
      · exact h2
      · exact h3
    simp only [decide_eq_false h]
    simp
    tauto

theorem check8bit0_lookup (b : Byte) :
    (check8bit0Bytes.getD b.toNat 0).setWidth 32 = flag (decide (b ≠ 0)) := by
  have hlt := b.isLt
  rcases Nat.eq_zero_or_pos b.toNat with hz | hpos
  · have hb : b = 0 := BitVec.eq_of_toNat_eq hz
    rw [hb]
    rfl
  · have hb : b ≠ 0 := by
      rintro rfl
      exact absurd hpos (by decide)
    obtain ⟨k, hk⟩ : ∃ k, b.toNat = k + 1 := ⟨b.toNat - 1, by omega⟩
    rw [hk, check8bit0Bytes, List.getD_cons_succ, List.getD_replicate _ (by omega), decide_eq_true hb]
    rfl

theorem run_check8bit0 {sym : Symbols} {rd : RegName} {b : Nat} (f : Frame)
    (hd2 : (rd : Reg) ≠ 2) (hd8 : (rd : Reg) ≠ 8) (hd0 : (rd : Reg) ≠ 0) (hb : b < 4)
    (hlinked : Linked sym (f.x 2) f.rest) (htable : f.x 8 = sym.check8bit0Table) :
    runOps (Macros.check8bit0 Macros.s0 rd b) f.core =
      (f.set rd (flag (decide (byteAt (f.var 4) b ≠ 0)))).core := by
  have hget := hlinked.check8bit0 (byteAt (f.var 4) b).toNat
    (length_check8bit0Bytes ▸ (byteAt (f.var 4) b).isLt)
  rw [BitVec.ofNat_toNat] at hget
  rw [Macros.check8bit0]
  simp only [runOps_cons, runOps_nil]
  rw [Frame.exec_lbu_var _ hd2 (by decide) (by decide) hb, Frame.exec_add _ hd2,
    Frame.exec_lbu_at0 _ hd2 (by simpa [hd0, hd2.symm, hd8.symm, htable] using hget.1),
    Frame.set_set, Frame.set_set, ← check8bit0_lookup, ← hget.2]
  simp [hd0, hd8.symm, htable]

theorem run_sameResult {sym : Symbols} {p : Nat → Bool} (f : Frame) (rd : RegName)
    (hd : (rd : Reg) ≠ 2) (hat : At (f.x 2) f.rest sym.sameResultTable sameResultBytes)
    (hgp : f.x 3 = flagSum p) :
    runOps (Macros.la Macros.tp sym.sameResultTable ++
        [Macros.add Macros.tp Macros.tp Macros.gp, Macros.lbu rd (Macros.at0 Macros.tp)]) f.core =
      ((f.set 4 (sym.sameResultTable + flagSum p)).set rd
        (flag (!(p 0 || p 1 || p 2 || p 3)))).core := by
  have hget := hat (flagSum p).toNat (flagSum_lt p)
  rw [BitVec.ofNat_toNat, BitVec.setWidth_eq] at hget
  rw [runOps_append, Frame.run_la _ _ (by decide)]
  simp only [runOps_cons, runOps_nil]
  rw [Frame.exec_add _ (by decide), Frame.exec_lbu_at0 _ hd (by simpa [hgp] using hget.1),
    ← sameResult_lookup, ← hget.2]
  simp [hgp, Frame.set_set]

theorem run_seqz {sym : Symbols} (f : Frame) (rd rs1 : RegName) (hd2 : (rd : Reg) ≠ 2)
    (hlinked : Linked sym (f.x 2) f.rest) :
    ∃ g : Frame, runOps (Macros.seqz sym rd rs1) f.core = g.core ∧
      ((rd : Reg) ≠ 0 → (rd : Reg) ≠ 8 → g.x rd = flag (decide (f.x rs1 = 0))) ∧
      g.x 8 = f.x 8 ∧ (∀ r : Reg, r ≠ rd → r ≠ 3 → r ≠ 4 → g.x r = f.x r) ∧ g.rest = f.rest := by
  let p : Nat → Bool := fun k => decide (byteAt (f.x rs1) k ≠ 0)
  let f₁ := ((f.put 4 (f.x rs1)).put 1 (f.x 8)).set 8 sym.check8bit0Table
  have hpre : runOps ([Macros.sw rs1 (spVar Macros.varA), Macros.push Macros.s0 1] ++
      Macros.la Macros.s0 sym.check8bit0Table) f.core = f₁.core := by
    simp [f₁]
  have hbyte : ∀ (g : Frame) (rd : RegName) (b : Nat), (rd : Reg) ≠ 2 → (rd : Reg) ≠ 8 →
      (rd : Reg) ≠ 0 → b < 4 → g.x 2 = f.x 2 → g.rest = f.rest → g.x 8 = sym.check8bit0Table →
      g.var 4 = f.x rs1 → runOps (Macros.check8bit0 Macros.s0 rd b) g.core =
        (g.set rd (flag (p b))).core := by
    intro g rd b h2 h8 h0 hb hsp hrest htable h4
    rw [run_check8bit0 g h2 h8 h0 hb (by rw [hsp, hrest]; exact hlinked) htable, h4]
  have hsum : ∃ g : Frame, runOps (Macros.check8bit0 Macros.s0 Macros.gp 0 ++
      Macros.check8bit0 Macros.s0 Macros.tp 1 ++ [Macros.add Macros.gp Macros.gp Macros.tp] ++
      Macros.check8bit0 Macros.s0 Macros.tp 2 ++ [Macros.add Macros.gp Macros.gp Macros.tp] ++
      Macros.check8bit0 Macros.s0 Macros.tp 3 ++ [Macros.add Macros.gp Macros.gp Macros.tp]) f₁.core =
        g.core ∧ g.x 3 = flagSum p ∧ (∀ r, r ≠ 3 → r ≠ 4 → g.x r = f₁.x r) ∧ g.var = f₁.var ∧
        g.rest = f₁.rest := by
    simp only [runOps_append, runOps_cons, runOps_nil]
    rw [hbyte f₁ Macros.gp 0 (by decide) (by decide) (by decide) (by decide) (by simp [f₁]) rfl
        (by simp [f₁]) (by simp [f₁]),
      hbyte _ Macros.tp 1 (by decide) (by decide) (by decide) (by decide) (by simp [f₁])
        (by simp [f₁]) (by simp [f₁]) (by simp [f₁]), Frame.exec_add _ (by decide),
      hbyte _ Macros.tp 2 (by decide) (by decide) (by decide) (by decide) (by simp [f₁])
        (by simp [f₁]) (by simp [f₁]) (by simp [f₁]), Frame.exec_add _ (by decide),
      hbyte _ Macros.tp 3 (by decide) (by decide) (by decide) (by decide) (by simp [f₁])
        (by simp [f₁]) (by simp [f₁]) (by simp [f₁]), Frame.exec_add _ (by decide)]
    exact ⟨_, rfl, by simp [flagSum], fun r h3 h4 => by simp [h3, h4], rfl, rfl⟩
  obtain ⟨g, hrun, hgp, hgx, hgvar, hgrest⟩ := hsum
  have hend := run_sameResult g rd hd2
    (by rw [hgx 2 (by decide) (by decide), hgrest]; simpa [f₁] using hlinked.sameResult) hgp
  simp only [runOps_append, runOps_cons, runOps_nil] at hpre hrun hend
  have heq : (!(p 0 || p 1 || p 2 || p 3)) = decide (f.x rs1 = 0) := by
    have hbytes := eq_iff_bytes (f.x rs1) 0#32
    simp only [byteAt_zero] at hbytes
    exact hbytes
  rw [Macros.seqz]
  simp only [runOps_append, runOps_cons, runOps_nil, Macros.pop]
  rw [hpre, hrun, hend, Frame.exec_lw_var _ (by decide) (by decide) (by decide)]
  refine ⟨_, rfl, fun h0 h8 => ?_, ?_, fun r hr h3 h4 => ?_, by simp [hgrest, f₁]⟩
  · rw [← heq]
    simp [h0, h8]
  · simp [hgvar, f₁]
  · by_cases h8 : r = 8
    · subst h8
      simp [hgvar, f₁]
    · simp [hr, h4, h8, hgx r h3 h4, f₁]

/-- The bytes `seq` marks and clears. -/
def checkSameRegion (sym : Symbols) : Set Word := {a | (a - sym.checkSameArray).toNat < 256}

theorem mem_checkSameRegion {sym : Symbols} (b : Byte) :
    sym.checkSameArray + b.setWidth 32 ∈ checkSameRegion sym := by
  have hsub : sym.checkSameArray + b.setWidth 32 - sym.checkSameArray = b.setWidth 32 :=
    add_sub_cancel_left _ _
  have hb := b.isLt
  rw [checkSameRegion, Set.mem_ofPred_eq, hsub, BitVec.toNat_setWidth]
  omega

theorem run_check8bitSame {sym : Symbols} {b : Nat} (f : Frame) (rd : RegName)
    (hd0 : (rd : Reg) ≠ 0) (hd2 : (rd : Reg) ≠ 2) (hd4 : (rd : Reg) ≠ 4) (hd8 : (rd : Reg) ≠ 8)
    (hb : b < 4)
    (hclear : ∀ k < 256, ¬InScratch (f.x 2) (sym.checkSameArray + BitVec.ofNat 32 k))
    (htable : f.x 8 = sym.checkSameArray) :
    ∃ g : Frame, runOps (Macros.check8bitSame Macros.s0 rd b) f.core = g.core ∧
      g.x rd = flag (decide (byteAt (f.var 4) b ≠ byteAt (f.var 5) b)) ∧
      (∀ r : Reg, r ≠ rd → r ≠ 4 → g.x r = f.x r) ∧ g.var = f.var ∧
      (∀ a, a ∉ checkSameRegion sym → g.rest a = f.rest a) := by
  have hout : ∀ c : Byte, ¬InScratch (f.x 2) (sym.checkSameArray + c.setWidth 32) := by
    intro c
    have h := hclear c.toNat c.isLt
    rwa [BitVec.ofNat_toNat] at h
  have hcancel : ∀ c d : Byte, sym.checkSameArray + c.setWidth 32 =
      sym.checkSameArray + (d.setWidth 32 : Word) ↔ c = d := by
    intro c d
    rw [add_right_inj]
    refine ⟨fun h => ?_, fun h => by rw [h]⟩
    have hc := byteAt_setWidth c
    rw [h, byteAt_setWidth] at hc
    exact hc.symm
  rw [Macros.check8bitSame]
  simp only [runOps_cons, runOps_nil]
  rw [Frame.exec_lbu_var _ hd2 (by decide) (by decide) hb, Frame.exec_add _ (by decide),
    Frame.exec_addi _ _ hd2,
    Frame.exec_sb_at0 _ (by simpa [hd0, hd2.symm, hd4.symm, hd8.symm, htable] using hout _),
    Frame.exec_lbu_var _ hd2 (by decide) (by decide) hb, Frame.exec_add _ hd2,
    Frame.exec_sb_at0 _ (by simpa [hd0, hd2.symm, hd8.symm, htable] using hout _),
    Frame.exec_lbu_at0 _ hd2 (by simpa [hd0, hd2.symm, hd4.symm, hd8.symm, htable] using hout _)]
  refine ⟨_, rfl, ?_, fun r hr h4 => ?_, rfl, fun a ha => ?_⟩
  · simp [hd0, hd4.symm, hd8.symm, htable, Frame.poke_rest, hcancel]
    by_cases h : byteAt (f.var 4) b = byteAt (f.var 5) b
    · rw [if_pos h, decide_eq_true h]
      rfl
    · rw [if_neg h, decide_eq_false h]
      rfl
  · simp [hr, h4]
  · have hne : ∀ c : Byte, a ≠ sym.checkSameArray + c.setWidth 32 := by
      rintro c rfl
      exact ha (mem_checkSameRegion c)
    simp [hd0, hd4.symm, hd8.symm, htable, Frame.poke_rest, hne]

theorem run_countByte {sym : Symbols} {b : Nat} (f : Frame) (hb : b < 4)
    (hclear : ∀ k < 256, ¬InScratch (f.x 2) (sym.checkSameArray + BitVec.ofNat 32 k))
    (htable : f.x 8 = sym.checkSameArray) :
    ∃ g : Frame, runOps (Macros.check8bitSame Macros.s0 Macros.s1 b ++
        [Macros.add Macros.gp Macros.gp Macros.s1]) f.core = g.core ∧
      g.x 3 = f.x 3 + flag (decide (byteAt (f.var 4) b ≠ byteAt (f.var 5) b)) ∧
      (∀ r : Reg, r ≠ 3 → r ≠ 4 → r ≠ 9 → g.x r = f.x r) ∧ g.var = f.var ∧
      (∀ a, a ∉ checkSameRegion sym → g.rest a = f.rest a) := by
  obtain ⟨g, hrun, hs1, hx, hvar, hrest⟩ :=
    run_check8bitSame f Macros.s1 (by decide) (by decide) (by decide) (by decide) hb hclear
      htable
  rw [runOps_append, hrun, runOps_cons, runOps_nil, Frame.exec_add _ (by decide)]
  refine ⟨_, rfl, ?_, fun r h3 h4 h9 => ?_, hvar, hrest⟩
  · have hgp : g.x 3 = f.x 3 := hx 3 (by decide) (by decide)
    rw [reg_s1] at hs1
    simp [hgp, hs1]
  · simp [h3, hx r h9 h4]

theorem sameResult_kept {sym : Symbols} {v : Word} {m m' : Mem 32} (hlinked : Linked sym v m)
    (h : ∀ a, a ∉ checkSameRegion sym → m' a = m a) :
    At v m' sym.sameResultTable sameResultBytes := by
  intro k hk
  have hat := hlinked.sameResult k hk
  have hout : sym.sameResultTable + BitVec.ofNat 32 k ∉ checkSameRegion sym := by
    intro hin
    refine hlinked.checkSame_apart _ hin k hk ?_
    rw [BitVec.ofNat_toNat, BitVec.setWidth_eq, add_sub_cancel]
  exact ⟨hat.1, (h _ hout).trans hat.2⟩

theorem run_seq {sym : Symbols} (f : Frame) (rd rs1 rs2 : RegName) (hd2 : (rd : Reg) ≠ 2)
    (hd8 : (rd : Reg) ≠ 8) (hd9 : (rd : Reg) ≠ 9) (hlinked : Linked sym (f.x 2) f.rest) :
    ∃ g : Frame, runOps (Macros.seq sym rd rs1 rs2) f.core = g.core ∧
      ((rd : Reg) ≠ 0 → g.x rd = flag (decide (f.x rs1 = f.x rs2))) ∧
      (∀ r : Reg, r ≠ rd → r ≠ 3 → r ≠ 4 → g.x r = f.x r) ∧
      (∀ a, a ∉ checkSameRegion sym → g.rest a = f.rest a) := by
  let p : Nat → Bool := fun k => decide (byteAt (f.x rs1) k ≠ byteAt (f.x rs2) k)
  let f₁ := ((((f.put 4 (f.x rs1)).put 5 (f.x rs2)).put 1 (f.x 8)).put 2 (f.x 9)).set 8
    sym.checkSameArray
  have hpre : runOps ([Macros.sw rs1 (spVar Macros.varA), Macros.sw rs2 (spVar Macros.varB),
      Macros.push Macros.s0 1, Macros.push Macros.s1 2] ++
      Macros.la Macros.s0 sym.checkSameArray) f.core = f₁.core := by
    simp [f₁]
  have hclear : ∀ g : Frame, g.x 2 = f.x 2 →
      ∀ k < 256, ¬InScratch (g.x 2) (sym.checkSameArray + BitVec.ofNat 32 k) := by
    intro g hg
    rw [hg]
    exact hlinked.checkSame
  obtain ⟨g₀, hrun₀, hgp₀, hx₀, hvar₀, hrest₀⟩ := run_check8bitSame (b := 0) f₁ Macros.gp
    (by decide) (by decide) (by decide) (by decide) (by decide) (hclear _ (by simp [f₁]))
    (by simp [f₁])
  obtain ⟨g₁, hrun₁, hgp₁, hx₁, hvar₁, hrest₁⟩ := run_countByte (b := 1) g₀ (by decide)
    (hclear _ (by simp [hx₀, f₁])) (by simp [hx₀, f₁])
  obtain ⟨g₂, hrun₂, hgp₂, hx₂, hvar₂, hrest₂⟩ := run_countByte (b := 2) g₁ (by decide)
    (hclear _ (by simp [hx₁, hx₀, f₁])) (by simp [hx₁, hx₀, f₁])
  obtain ⟨g₃, hrun₃, hgp₃, hx₃, hvar₃, hrest₃⟩ := run_countByte (b := 3) g₂ (by decide)
    (hclear _ (by simp [hx₂, hx₁, hx₀, f₁])) (by simp [hx₂, hx₁, hx₀, f₁])
  have hvar : g₃.var = f₁.var := by rw [hvar₃, hvar₂, hvar₁, hvar₀]
  have hx : ∀ r : Reg, r ≠ 3 → r ≠ 4 → r ≠ 9 → g₃.x r = f₁.x r := by
    intro r h3 h4 h9
    rw [hx₃ r h3 h4 h9, hx₂ r h3 h4 h9, hx₁ r h3 h4 h9, hx₀ r h3 h4]
  have hrest : ∀ a, a ∉ checkSameRegion sym → g₃.rest a = f.rest a := by
    intro a ha
    rw [hrest₃ a ha, hrest₂ a ha, hrest₁ a ha, hrest₀ a ha]
    simp [f₁]
  have hgp : g₃.x 3 = flagSum p := by
    rw [reg_gp] at hgp₀
    rw [hgp₃, hgp₂, hgp₁, hgp₀, hvar₂, hvar₁, hvar₀]
    simp [f₁, flagSum, p]
  have hsp : g₃.x 2 = f.x 2 := by
    rw [hx 2 (by decide) (by decide) (by decide)]
    simp [f₁]
  have hend := run_sameResult g₃ rd hd2
    (by rw [hsp]; exact sameResult_kept hlinked hrest) hgp
  have heq : (!(p 0 || p 1 || p 2 || p 3)) = decide (f.x rs1 = f.x rs2) :=
    eq_iff_bytes (f.x rs1) (f.x rs2)
  simp only [runOps_append, runOps_cons, runOps_nil] at hpre hrun₀ hrun₁ hrun₂ hrun₃ hend
  rw [Macros.seq]
  simp only [runOps_append, runOps_cons, runOps_nil, Macros.pop]
  rw [hpre, hrun₀, hrun₁, hrun₂, hrun₃, hend,
    Frame.exec_lw_var _ (by decide) (by decide) (by decide),
    Frame.exec_lw_var _ (by decide) (by decide) (by decide)]
  refine ⟨_, rfl, fun h0 => ?_, fun r hr h3 h4 => ?_, hrest⟩
  · rw [← heq]
    simp [h0, hd8, hd9]
  · by_cases h8 : r = 8
    · subst h8
      simp [hvar, f₁]
    by_cases h9 : r = 9
    · subst h9
      simp [hvar, f₁]
    · simp [hr, h4, h8, h9, hx r h3 h4 h9, f₁]

/-- `seqz` into any destination, and `seq` into `tp` as the branches use it. -/
inductive EqInst
  | seqz (rd rs1 : RegName)
  | seq (rs1 rs2 : RegName)

namespace EqInst

def rd : EqInst → RegName
  | seqz rd _ => rd
  | seq _ _ => Macros.tp

def expand (sym : Symbols) : EqInst → List Op
  | seqz rd rs1 => Macros.seqz sym rd rs1
  | seq rs1 rs2 => Macros.seq sym Macros.tp rs1 rs2

def holds (x : RegFile) : EqInst → Bool
  | seqz _ rs1 => x rs1 = 0
  | seq rs1 rs2 => x rs1 = x rs2

def Allowed : EqInst → Prop
  | seqz rd rs1 => (Plain rd ∨ (rd : Reg) = 4) ∧ Plain rs1
  | seq rs1 rs2 => Plain rs1 ∧ Plain rs2

/-- `s0` is not the destination, or happens to hold already what the test will say. -/
def Survives (x : RegFile) : EqInst → Prop
  | seqz rd rs1 => (rd : Reg) = 8 → x rs1 = 0 ∧ x 8 = 1 ∨ x rs1 ≠ 0 ∧ x 8 = 0
  | seq _ _ => True

instance (i : EqInst) : Decidable i.Allowed := by
  cases i <;> exact inferInstanceAs (Decidable (_ ∧ _))

end EqInst

theorem run_eqInst {sym : Symbols} {i : EqInst} (f : Frame) (h : i.Allowed)
    (hlinked : Linked sym (f.x 2) f.rest) :
    ∃ g : Frame, runOps (i.expand sym) f.core = g.core ∧
      ((i.rd : Reg) ≠ 0 → (i.rd : Reg) ≠ 8 → g.x i.rd = flag (i.holds f.x)) ∧ g.x 8 = f.x 8 ∧
      (∀ r : Reg, r ≠ i.rd → r ≠ 3 → r ≠ 4 → g.x r = f.x r) ∧
      (∀ a, a ∉ checkSameRegion sym → g.rest a = f.rest a) := by
  cases i with
  | seqz rd rs1 =>
    have hd2 : (rd : Reg) ≠ 2 := by
      rcases h.1 with hrd | hrd
      · exact hrd.1
      · rw [hrd]
        decide
    obtain ⟨g, hrun, hvalue, hs0, hkeep, hrest⟩ := run_seqz f rd rs1 hd2 hlinked
    exact ⟨g, hrun, hvalue, hs0, hkeep, fun a _ => by rw [hrest]⟩
  | seq rs1 rs2 =>
    obtain ⟨g, hrun, hvalue, hkeep, hrest⟩ :=
      run_seq f Macros.tp rs1 rs2 (by decide) (by decide) (by decide)
        hlinked
    exact ⟨g, hrun, fun h0 _ => hvalue h0, hkeep 8 (by decide) (by decide) (by decide), hkeep,
      hrest⟩

theorem survives_iff (i : EqInst) (x : RegFile) :
    i.Survives x ↔ ((i.rd : Reg) = 8 → x 8 = flag (i.holds x)) := by
  cases i with
  | seqz rd rs1 =>
    refine forall_congr' fun _ => ?_
    show _ ↔ x 8 = flag (decide (x rs1 = 0))
    by_cases hz : x rs1 = 0
    · rw [decide_eq_true hz]
      exact ⟨fun h => h.elim And.right fun h => absurd hz h.1, fun h => .inl ⟨hz, h⟩⟩
    · rw [decide_eq_false hz]
      exact ⟨fun h => h.elim (fun h => absurd h.1 hz) And.right, fun h => .inr ⟨hz, h⟩⟩
  | seq rs1 rs2 => exact ⟨fun _ (h8 : (4 : Reg) = 8) => absurd h8 (by decide), fun _ => trivial⟩

theorem s0_restored (sym : Symbols) (i : EqInst) {code : Code} {s : State}
    (hallowed : i.Allowed) (hplaced : Placed code s.pc ((i.expand sym).map .op))
    (hlinked : Linked sym (s.x 2) s.mem) :
    ∃ s', runN (step fun t => code t.pc) (i.expand sym).length s = some s' ∧ s'.x 8 = s.x 8 := by
  obtain ⟨g, hrun, -, hs0, -, -⟩ := run_eqInst (ofCore s.toCore) hallowed hlinked
  rw [ofCore_core] at hrun
  refine ⟨_, runN_ops hplaced, ?_⟩
  rw [hrun]
  exact hs0

/-- The tests mean what they say exactly when their result survives: `seqz` restores `s0` after
it loads the result, so into `s0` it is lost. -/
theorem equality_test_performs_iff (sym : Symbols) (i : EqInst) (code : Code) (s : State)
    (hallowed : i.Allowed) (hplaced : Placed code s.pc ((i.expand sym).map .op))
    (hlinked : Linked sym (s.x 2) s.mem) :
    Performs code s (i.expand sym) i.rd (if i.holds s.x then 1 else 0) [3, 4]
      (checkSameRegion sym) ↔ i.Survives s.x := by
  rw [survives_iff]
  constructor
  · rintro ⟨s', hrun, -, hcomputes⟩ h8
    obtain ⟨t, hend, ht⟩ := s0_restored sym i hallowed hplaced hlinked
    have hs' := Option.some.inj (hend.symm.trans hrun)
    have hflag := hcomputes.value (by rw [h8]; decide)
    rw [← hs', h8] at hflag
    exact ht.symm.trans hflag
  · intro hsurvives
    obtain ⟨g, hrun, hvalue, hs0, hkeep, hrest⟩ := run_eqInst (ofCore s.toCore) hallowed hlinked
    have hrd2 : (i.rd : Reg) ≠ 2 := by
      cases i with
      | seqz rd rs1 =>
        rcases hallowed.1 with hrd | hrd
        · exact hrd.1
        · exact fun h => absurd (hrd.symm.trans h) (by decide)
      | seq rs1 rs2 => exact (by decide : (4 : Reg) ≠ 2)
    have hkeep' : ∀ r : Reg, r ≠ i.rd → r ∉ [3, 4] → g.x r = s.x r := by
      intro r hr hc
      have h34 : r ≠ 3 ∧ r ≠ 4 := by simpa using hc
      exact hkeep r hr h34.1 h34.2
    have hvalue' : (i.rd : Reg) ≠ 0 → g.x i.rd = flag (i.holds s.x) := by
      intro h0
      by_cases h8 : (i.rd : Reg) = 8
      · rw [h8, hs0]
        exact hsurvives h8
      · exact hvalue h0 h8
    have hcomputes := computes_of_frame (ofCore s.toCore) _ hrd2 (by decide) hvalue' hkeep' hrest
    rw [ofCore_core] at hcomputes hrun
    exact ⟨_, runN_ops hplaced, rfl, hrun ▸ hcomputes⟩

theorem length_seqz (sym : Symbols) (rd rs1 : RegName) : (Macros.seqz sym rd rs1).length = 24 := by
  simp [Macros.seqz, Macros.check8bit0, Macros.la]

/-- `seqz a1, a0` run on a hart with `a0 = 0`. -/
theorem seqz_a1_performs : Performs
    (codeAt 0x80000000#32 (((EqInst.seqz (.abi 11) (.abi 10)).expand (symbolsAt sectionBase)).map .op))
    (hartWith 0 7) ((EqInst.seqz (.abi 11) (.abi 10)).expand (symbolsAt sectionBase)) 11 1 [3, 4]
    (checkSameRegion (symbolsAt sectionBase)) :=
  (equality_test_performs_iff (symbolsAt sectionBase) (.seqz (.abi 11) (.abi 10)) _ (hartWith 0 7)
    (by decide) (placed_codeAt (by rw [List.length_map]; exact length_seqz .. ▸ by decide))
    (hartWith_linked _ _)).mpr fun h => absurd h (by decide)

/-- `seqz s0, a0` with `a0 = 0` and `s0 = 0` ends with `s0 = 0`, not 1. -/
theorem seqz_s0_loses_result : ¬Performs
    (codeAt 0x80000000#32 (((EqInst.seqz Macros.s0 (.abi 10)).expand (symbolsAt sectionBase)).map .op))
    (hartWith 0 7) ((EqInst.seqz Macros.s0 (.abi 10)).expand (symbolsAt sectionBase)) 8 1 [3, 4]
    (checkSameRegion (symbolsAt sectionBase)) := by
  rintro ⟨s', hrun, -, hcomputes⟩
  obtain ⟨t, hend, ht⟩ := s0_restored (symbolsAt sectionBase) (.seqz Macros.s0 (.abi 10))
    (by decide) (placed_codeAt (by rw [List.length_map]; exact length_seqz .. ▸ by decide))
    (hartWith_linked 0 7)
  have hs' := Option.some.inj (hend.symm.trans hrun)
  have hone := hcomputes.value (by decide)
  rw [← hs', ht] at hone
  exact absurd hone (by decide)

end Riscv32Cpu.Rvmini.Equality
