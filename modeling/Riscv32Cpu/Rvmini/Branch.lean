/- module: Riscv32Cpu/Rvmini/Branch
   source: CODE/abstract-machine/tools/rvmini/inst-replace.h
   digest: Branches: a flag in tp selects one of two addresses stored under sp. -/

import Riscv32Cpu.Rvmini.Compare
import Riscv32Cpu.Rvmini.Equality

set_option autoImplicit false
set_option relaxedAutoImplicit false

namespace Riscv32Cpu.Rvmini.Branch

open Riscv32Cpu.Lib.Memory Riscv32Cpu.Lib.Run Riscv32Cpu.Isa.Rv32i Riscv32Cpu.Rvmini.Scratch
open Riscv32Cpu.Rvmini.Tables Riscv32Cpu.Rvmini.Blocks Riscv32Cpu.Rvmini.Meaning
open Riscv32Cpu.Rvmini.Image Riscv32Cpu.Rvmini.Compare Riscv32Cpu.Rvmini.Equality
open Riscv32Cpu.Rvmini.Macros (RegName Symbols spVar spVarByte)

/-- From `c` to `c'` only `gp`, `tp`, scratch words and the array of `seq` change. -/
structure Preserves (sym : Symbols) (c c' : Core) : Prop where
  keep : ∀ r : Reg, r ≠ 3 → r ≠ 4 → c'.x r = c.x r
  mem : ∀ a, ¬InScratch (c.x 2) a → a ∉ checkSameRegion sym → c'.mem a = c.mem a

/-- The block leaves the flag `b` in `tp`. -/
def Decides (sym : Symbols) (ops : List Op) (f : Frame) (b : Bool) : Prop :=
  ∃ g : Frame, runOps ops f.core = g.core ∧ g.x 4 = flag b ∧
    (∀ r : Reg, r ≠ 3 → r ≠ 4 → g.x r = f.x r) ∧
    (∀ a, a ∉ checkSameRegion sym → g.rest a = f.rest a)

theorem decides_of_leaves {sym : Symbols} {ops : List Op} {f : Frame} {b : Bool}
    (h : Leaves ops f 4 (flag b) [3, 4]) : Decides sym ops f b := by
  obtain ⟨g, hrun, hvalue, hkeep, hrest⟩ := h
  refine ⟨g, hrun, hvalue (by decide), fun r h3 h4 => ?_, fun a _ => by rw [hrest]⟩
  exact hkeep r h4 (by simp [h3, h4])

theorem exec_lw_congr (c : Core) {rd : RegName} {a b : Macros.Operand}
    (h : c.x a.base + (BitVec.ofInt 12 a.off).signExtend 32 =
      c.x b.base + (BitVec.ofInt 12 b.off).signExtend 32) :
    (Macros.lw rd a).exec c = (Macros.lw rd b).exec c := by
  rw [Macros.lw, Macros.lw, Op.exec, Op.exec, h]

theorem exec_lw_slot (f : Frame) {b : Bool} {n : Nat} (hn : n = if b then 4 else 5)
    (htp : f.x 4 = f.x 2 + flag b <<< 2) :
    (Macros.lw Macros.tp ⟨-5 * 4, Macros.tp⟩).exec f.core = (f.set 4 (f.var n)).core := by
  have hoff : flag b <<< 2 + (BitVec.ofInt 12 (-5 * 4)).signExtend 32 =
      (BitVec.ofInt 12 (spVar n).off).signExtend 32 := by
    subst hn
    cases b <;> decide
  have haddr : f.core.x Macros.tp + (BitVec.ofInt 12 (-5 * 4)).signExtend 32 =
      f.core.x (spVar n).base + (BitVec.ofInt 12 (spVar n).off).signExtend 32 := by
    rw [← hoff, ← BitVec.add_assoc]
    exact congrArg (· + _) htp
  have hrange : 1 ≤ n ∧ n ≤ 7 := by
    subst hn
    split <;> decide
  rw [exec_lw_congr f.core (a := ⟨-5 * 4, Macros.tp⟩) (b := spVar n) haddr,
    Frame.exec_lw_var f (by decide) hrange.1 hrange.2, reg_tp]

theorem run_slotPair (f : Frame) (high low : Word) :
    runOps (Macros.la Macros.gp high ++ [Macros.sw Macros.gp (spVar Macros.varA)] ++
      Macros.la Macros.gp low ++ [Macros.sw Macros.gp (spVar Macros.varB)]) f.core =
      (((f.put 4 high).put 5 low).set 3 low).core := by
  simp [Frame.set_put, Frame.set_set]

theorem run_branchSlots {b : Bool} (sel : Bool) (target label : Word) (f : Frame)
    (htp : f.x 4 = flag b) :
    ∃ g : Frame, runOps (Macros.branchSlots target sel label) f.core = g.core ∧
      g.x 4 = (if b = sel then target else label) ∧
      (∀ r : Reg, r ≠ 3 → r ≠ 4 → g.x r = f.x r) ∧ g.rest = f.rest := by
  have hslots : ∃ high low, runOps (Macros.branchSlots target sel label) f.core =
        (Macros.lw Macros.tp ⟨-5 * 4, Macros.tp⟩).exec
          ((((f.set 4 (f.x 2 + flag b <<< 2)).put 4 high).put 5 low).set 3 low).core ∧
      (if b then high else low) = (if b = sel then target else label) := by
    rw [Macros.branchSlots, runOps_append, runOps_append, runOps_append, runOps_cons, runOps_nil,
      run_slli_small _ (by decide) (by decide) (by decide), runOps_cons, runOps_nil,
      Frame.exec_add _ (by decide), Frame.set_set]
    cases sel with
    | false =>
      rw [if_neg (by decide), run_slotPair]
      refine ⟨label, target, by simp [htp], ?_⟩
      cases b <;> rfl
    | true =>
      rw [if_pos rfl, run_slotPair]
      refine ⟨target, label, by simp [htp], ?_⟩
      cases b <;> rfl
  obtain ⟨high, low, hrun, hsel⟩ := hslots
  rw [hrun, exec_lw_slot _ (b := b) rfl (by simp)]
  refine ⟨_, rfl, ?_, fun r h3 h4 => by simp [h3, h4], rfl⟩
  rw [← hsel]
  cases b <;> simp

/-- Run from `s`, the branch transfers control to `dest`. -/
def Branches (sym : Symbols) (code : Code) (s : State) (is : List Inst) (dest : Word) : Prop :=
  ∃ s', runN (step fun t => code t.pc) is.length s = some s' ∧ s'.pc = dest ∧
    Preserves sym s.toCore s'.toCore

theorem branches_of_decides {sym : Symbols} {code : Code} {s : State} {ops : List Op}
    {b sel : Bool} {target label : Word}
    (hdecides : Decides sym ops (ofCore s.toCore) b)
    (hplaced : Placed code s.pc (ops.map .op ++ Macros.branchResolve target sel label))
    (htarget : target &&& ~~~1 = target) (hlabel : label &&& ~~~1 = label) :
    Branches sym code s (ops.map .op ++ Macros.branchResolve target sel label)
      (if b = sel then target else label) := by
  obtain ⟨g, hrun, htp, hkeep, hrest⟩ := hdecides
  obtain ⟨g', hrun', htp', hkeep', hrest'⟩ :=
    run_branchSlots sel target label g htp
  rw [ofCore_core] at hrun
  have hcode : ops.map .op ++ Macros.branchResolve target sel label =
      (ops ++ Macros.branchSlots target sel label).map .op ++ [.jalr 0 Macros.tp 0] := by
    rw [Macros.branchResolve, List.map_append, List.append_assoc]
  rw [hcode] at hplaced
  obtain ⟨hops, hjump, -⟩ := hplaced.append
  rw [List.length_map] at hjump
  have hend := runN_ops hops
  rw [runOps_append, hrun, hrun'] at hend
  -- `jr tp` clears bit 0 of an even address
  have hdest : (g'.x Macros.tp + (0 : BitVec 12).signExtend 32) &&& ~~~1 =
      if b = sel then target else label := by
    have hzero : (0 : BitVec 12).signExtend 32 = (0 : Word) := by decide
    rw [reg_tp, htp', hzero, add_zero]
    split
    · exact htarget
    · exact hlabel
  have hstep : step (fun t => code t.pc)
      { g'.core with pc := after s.pc (ops ++ Macros.branchSlots target sel label).length } =
        some { g'.core with pc := if b = sel then target else label } := by
    rw [step, hjump, Option.bind_some, Inst.exec, RegFile.set_zero]
    exact congrArg (fun d => some (State.mk g'.core d)) hdest
  have hcomputes := computes_of_frame (ofCore s.toCore) (checkSameRegion sym)
    (by decide : (4 : Reg) ≠ 2) (by decide : (2 : Reg) ∉ [(3 : Reg)]) (fun _ => rfl)
    (fun r h4 h3 => by
      have hr3 := List.mem_singleton.not.mp h3
      rw [hkeep' r hr3 h4, hkeep r hr3 h4])
    (fun a ha => by rw [hrest', hrest a ha])
  rw [ofCore_core] at hcomputes
  refine ⟨{ g'.core with pc := if b = sel then target else label }, ?_, rfl,
    ⟨fun r h3 h4 => ?_, hcomputes.mem⟩⟩
  · rw [hcode, List.length_append, List.length_map, runN_add, hend, Option.bind_some]
    exact runN_succ_of_step hstep 0
  · exact hcomputes.keep r h4 (List.mem_singleton.not.mpr h3)

theorem sle_zero_of_signs (x : Word) : x.sle 0 = (x.msb || (x + 4294967295#32).msb) := by
  have hx := x.isLt
  have hpred : (x + 4294967295#32).toNat = if x.toNat = 0 then 4294967295 else x.toNat - 1 := by
    rw [BitVec.toNat_add, BitVec.toNat_ofNat]
    split <;> omega
  have h0 : (0 : Word).toNat = 0 := rfl
  simp only [BitVec.msb_eq_decide, BitVec.sle_eq_decide, BitVec.toInt_eq_toNat_cond, hpred, h0,
    Nat.reduceSub, Nat.reducePow]
  by_cases hz : x.toNat = 0 <;> by_cases hs : 2147483648 ≤ x.toNat <;> simp [hz, hs] <;> omega

theorem or1_lookup (x y : Word) :
    (or1Bytes.getD (signBit x + signBit y).toNat 0).setWidth 32 = flag (x.msb || y.msb) := by
  rw [signBit, signBit]
  cases x.msb <;> cases y.msb <;> decide

theorem decides_signTest {sym : Symbols} {rs2 : RegName} (f : Frame) (h2 : Plain rs2)
    (hlinked : Linked sym (f.x 2) f.rest) :
    Decides sym (Macros.signTest sym rs2) f ((f.x rs2).sle 0) := by
  have hlt : (signBit (f.x rs2) + signBit (f.x rs2 + 4294967295#32)).toNat < or1Bytes.length := by
    rw [signBit, signBit]
    cases (f.x rs2).msb <;> cases (f.x rs2 + 4294967295#32).msb <;> decide
  have hget := hlinked.or1 _ hlt
  rw [BitVec.ofNat_toNat, BitVec.setWidth_eq, BitVec.add_comm sym.or1Table] at hget
  have hm1 : (-1 : BitVec 12).signExtend 32 = 4294967295#32 := by decide
  unfold Decides
  rw [Macros.signTest]
  simp only [runOps_append, runOps_cons, runOps_nil]
  rw [run_msb _ (by decide) (by decide), Frame.exec_addi _ _ (by decide),
    run_msb _ (by decide) (by decide), Frame.exec_add _ (by decide),
    Frame.run_la _ _ (by decide), Frame.exec_add _ (by decide), hm1]
  rw [Frame.exec_lbu_at0 _ (by decide) (by simpa [h2.2.1] using hget.1)]
  refine ⟨_, rfl, ?_, fun r h3 h4 => by simp [h3, h4], fun a _ => rfl⟩
  rw [sle_zero_of_signs, ← or1_lookup, ← hget.2]
  simp [h2.2.1]

theorem reg_of_isZero {r : RegName} (h : Macros.isZero r) : (r : Reg) = 0 := by
  rcases h with rfl | rfl
  · exact reg_zero
  · exact reg_x0

theorem decides_seqz {sym : Symbols} {rs : RegName} (f : Frame)
    (hlinked : Linked sym (f.x 2) f.rest) :
    Decides sym (Macros.seqz sym Macros.tp rs) f (decide (f.x rs = 0)) := by
  obtain ⟨g, hrun, hvalue, -, hkeep, hrest⟩ :=
    run_seqz f Macros.tp rs (by decide) hlinked
  exact ⟨g, hrun, hvalue (by decide) (by decide), fun r h3 h4 => hkeep r h4 h3 h4,
    fun a _ => by rw [hrest]⟩

theorem decides_seq {sym : Symbols} {rs1 rs2 : RegName} (f : Frame)
    (hlinked : Linked sym (f.x 2) f.rest) :
    Decides sym (Macros.seq sym Macros.tp rs1 rs2) f (decide (f.x rs1 = f.x rs2)) := by
  obtain ⟨g, hrun, hvalue, hkeep, hrest⟩ :=
    run_seq f Macros.tp rs1 rs2 (by decide) (by decide) (by decide)
      hlinked
  exact ⟨g, hrun, hvalue (by decide), fun r h3 h4 => hkeep r h4 h3 h4, hrest⟩

/-- A branch macro is a decision about `b` and the slot the target goes to. -/
def Resolves (sym : Symbols) (is : List Inst) (f : Frame) (b : Bool) (target label : Word) : Prop :=
  ∃ ops sel d, is = ops.map .op ++ Macros.branchResolve target sel label ∧ Decides sym ops f d ∧
    b = (d == sel)

section Decisions

variable {sym : Symbols} (rs1 rs2 : RegName) (f : Frame) (hlinked : Linked sym (f.x 2) f.rest)
  (target label : Word)
include hlinked

theorem resolves_branchEq (sel : Bool) :
    Resolves sym (Macros.branchEq sel sym rs1 rs2 target label) f
      (decide (f.x rs1 = f.x rs2) == sel) target label := by
  unfold Macros.branchEq
  split
  · next h2 =>
    have hzero : f.x rs2 = 0 := by rw [reg_of_isZero h2, RegFile.get_zero]
    rw [hzero]
    exact ⟨_, _, _, rfl, decides_seqz f hlinked, rfl⟩
  split
  · next h2 h1 =>
    -- the operands are exchanged, so that the second is zero
    have hzero : f.x rs1 = 0 := by rw [reg_of_isZero h1, RegFile.get_zero]
    have hswap : decide (f.x rs1 = f.x rs2) = decide (f.x rs2 = 0) := by
      rw [hzero, decide_eq_decide]
      exact eq_comm
    rw [Macros.branchEq, if_pos h1, hswap]
    exact ⟨_, _, _, rfl, decides_seqz f hlinked, rfl⟩
  · exact ⟨_, _, _, rfl, decides_seq f hlinked, rfl⟩

theorem resolves_blt (h2 : Plain rs2) :
    Resolves sym (Macros.blt sym rs1 rs2 target label) f ((f.x rs1).slt (f.x rs2)) target label := by
  unfold Macros.blt
  split
  · next hz =>
    have hzero : f.x rs2 = 0 := by rw [reg_of_isZero hz, RegFile.get_zero]
    rw [hzero]
    exact ⟨_, _, _, rfl, decides_of_leaves (msb_leaves f (by decide) _), by simp⟩
  split
  · next _ hz =>
    have hzero : f.x rs1 = 0 := by rw [reg_of_isZero hz, RegFile.get_zero]
    have hneg : (0 : Word).slt (f.x rs2) = !(f.x rs2).sle 0 := by
      rw [BitVec.sle_eq_not_slt, Bool.not_not]
    rw [hzero, hneg]
    exact ⟨_, _, _, rfl, decides_signTest f h2 hlinked, by simp⟩
  · exact ⟨_, _, _, rfl, decides_of_leaves (slt_leaves _ _ f (by decide) hlinked), by simp⟩

theorem resolves_bge (h2 : Plain rs2) :
    Resolves sym (Macros.bge sym rs1 rs2 target label) f (!(f.x rs1).slt (f.x rs2)) target label := by
  unfold Macros.bge
  split
  · next hz =>
    have hzero : f.x rs1 = 0 := by rw [reg_of_isZero hz, RegFile.get_zero]
    have hneg : (0 : Word).slt (f.x rs2) = !(f.x rs2).sle 0 := by
      rw [BitVec.sle_eq_not_slt, Bool.not_not]
    rw [hzero, hneg, Bool.not_not]
    exact ⟨_, _, _, rfl, decides_signTest f h2 hlinked, by simp⟩
  · exact ⟨_, _, _, rfl, decides_of_leaves (slt_leaves _ _ f (by decide) hlinked), by simp⟩

theorem resolves_bltu :
    Resolves sym (Macros.bltu sym rs1 rs2 target label) f ((f.x rs1).ult (f.x rs2)) target label :=
  ⟨_, _, _, rfl, decides_of_leaves (sltu_leaves _ _ f (by decide) hlinked), by simp⟩

theorem resolves_bgeu :
    Resolves sym (Macros.bgeu sym rs1 rs2 target label) f (!(f.x rs1).ult (f.x rs2)) target label :=
  ⟨_, _, _, rfl, decides_of_leaves (sltu_leaves _ _ f (by decide) hlinked), by simp⟩

end Decisions

inductive BranchInst
  | beq (rs1 rs2 : RegName)
  | bne (rs1 rs2 : RegName)
  | blt (rs1 rs2 : RegName)
  | bltu (rs1 rs2 : RegName)
  | bge (rs1 rs2 : RegName)
  | bgeu (rs1 rs2 : RegName)
  | beqz (rs : RegName)
  | bnez (rs : RegName)
  | blez (rs : RegName)
  | bgez (rs : RegName)
  | bltz (rs : RegName)
  | bgtz (rs : RegName)
  | bgt (rs rt : RegName)
  | ble (rs rt : RegName)
  | bgtu (rs rt : RegName)
  | bleu (rs rt : RegName)

namespace BranchInst

def expand (sym : Symbols) (target label : Word) : BranchInst → List Inst
  | beq rs1 rs2 => Macros.beq sym rs1 rs2 target label
  | bne rs1 rs2 => Macros.bne sym rs1 rs2 target label
  | blt rs1 rs2 => Macros.blt sym rs1 rs2 target label
  | bltu rs1 rs2 => Macros.bltu sym rs1 rs2 target label
  | bge rs1 rs2 => Macros.bge sym rs1 rs2 target label
  | bgeu rs1 rs2 => Macros.bgeu sym rs1 rs2 target label
  | beqz rs => Macros.beqz sym rs target label
  | bnez rs => Macros.bnez sym rs target label
  | blez rs => Macros.blez sym rs target label
  | bgez rs => Macros.bgez sym rs target label
  | bltz rs => Macros.bltz sym rs target label
  | bgtz rs => Macros.bgtz sym rs target label
  | bgt rs rt => Macros.bgt sym rs rt target label
  | ble rs rt => Macros.ble sym rs rt target label
  | bgtu rs rt => Macros.bgtu sym rs rt target label
  | bleu rs rt => Macros.bleu sym rs rt target label

/-- The comparison RV32I makes. -/
def taken (x : RegFile) : BranchInst → Bool
  | beq rs1 rs2 => x rs1 = x rs2
  | bne rs1 rs2 => x rs1 ≠ x rs2
  | blt rs1 rs2 => (x rs1).slt (x rs2)
  | bltu rs1 rs2 => (x rs1).ult (x rs2)
  | bge rs1 rs2 => (x rs2).sle (x rs1)
  | bgeu rs1 rs2 => (x rs2).ule (x rs1)
  | beqz rs => x rs = 0
  | bnez rs => x rs ≠ 0
  | blez rs => (x rs).sle 0
  | bgez rs => (0 : Word).sle (x rs)
  | bltz rs => (x rs).slt 0
  | bgtz rs => (0 : Word).slt (x rs)
  | bgt rs rt => (x rt).slt (x rs)
  | ble rs rt => (x rs).sle (x rt)
  | bgtu rs rt => (x rt).ult (x rs)
  | bleu rs rt => (x rs).ule (x rt)

def Allowed : BranchInst → Prop
  | beq rs1 rs2 | bne rs1 rs2 | blt rs1 rs2 | bltu rs1 rs2 | bge rs1 rs2 | bgeu rs1 rs2
  | bgt rs1 rs2 | ble rs1 rs2 | bgtu rs1 rs2 | bleu rs1 rs2 => Plain rs1 ∧ Plain rs2
  | beqz rs | bnez rs | blez rs | bgez rs | bltz rs | bgtz rs => Plain rs

instance (i : BranchInst) : Decidable i.Allowed := by
  cases i <;> exact inferInstanceAs (Decidable (_ ∧ _))

end BranchInst

theorem resolves_branchInst {sym : Symbols} (i : BranchInst) (f : Frame) (target label : Word)
    (hallowed : i.Allowed) (hlinked : Linked sym (f.x 2) f.rest) :
    Resolves sym (i.expand sym target label) f (i.taken f.x) target label := by
  have hzero : f.x Macros.x0 = 0 := f.x.zero
  have hbeq : ∀ rs1 rs2 : RegName, Resolves sym (Macros.beq sym rs1 rs2 target label) f
      (decide (f.x rs1 = f.x rs2)) target label := by
    intro rs1 rs2
    have h := resolves_branchEq rs1 rs2 f hlinked target label true
    rwa [beq_true] at h
  have hbne : ∀ rs1 rs2 : RegName, Resolves sym (Macros.bne sym rs1 rs2 target label) f
      (decide (f.x rs1 ≠ f.x rs2)) target label := by
    intro rs1 rs2
    have h := resolves_branchEq rs1 rs2 f hlinked target label false
    rwa [beq_false, ← decide_not] at h
  have hblt : ∀ rs1 rs2 : RegName, Plain rs2 → Resolves sym (Macros.blt sym rs1 rs2 target label) f
      ((f.x rs1).slt (f.x rs2)) target label :=
    fun _ _ h2 => resolves_blt _ _ f hlinked target label h2
  have hbge : ∀ rs1 rs2 : RegName, Plain rs2 → Resolves sym (Macros.bge sym rs1 rs2 target label) f
      ((f.x rs2).sle (f.x rs1)) target label := by
    intro rs1 rs2 h2
    rw [BitVec.sle_eq_not_slt]
    exact resolves_bge _ _ f hlinked target label h2
  have hbltu : ∀ rs1 rs2 : RegName, Resolves sym (Macros.bltu sym rs1 rs2 target label) f
      ((f.x rs1).ult (f.x rs2)) target label := fun _ _ => resolves_bltu _ _ f hlinked target label
  have hbgeu : ∀ rs1 rs2 : RegName, Resolves sym (Macros.bgeu sym rs1 rs2 target label) f
      ((f.x rs2).ule (f.x rs1)) target label := by
    intro rs1 rs2
    rw [BitVec.ule_eq_not_ult]
    exact resolves_bgeu _ _ f hlinked target label
  cases i with
  | beq rs1 rs2 => exact hbeq rs1 rs2
  | bne rs1 rs2 => exact hbne rs1 rs2
  | blt rs1 rs2 => exact hblt rs1 rs2 hallowed.2
  | bltu rs1 rs2 => exact hbltu rs1 rs2
  | bge rs1 rs2 => exact hbge rs1 rs2 hallowed.2
  | bgeu rs1 rs2 => exact hbgeu rs1 rs2
  | beqz rs =>
    have h := hbeq rs Macros.x0
    rw [hzero] at h
    exact h
  | bnez rs =>
    have h := hbne rs Macros.x0
    rw [hzero] at h
    exact h
  | blez rs =>
    have h := hbge Macros.x0 rs hallowed
    rw [hzero] at h
    exact h
  | bgez rs =>
    have h := hbge rs Macros.x0 (by decide)
    rw [hzero] at h
    exact h
  | bltz rs =>
    have h := hblt rs Macros.x0 (by decide)
    rw [hzero] at h
    exact h
  | bgtz rs =>
    have h := hblt Macros.x0 rs hallowed
    rw [hzero] at h
    exact h
  | bgt rs rt => exact hblt rt rs hallowed.1
  | ble rs rt => exact hbge rt rs hallowed.1
  | bgtu rs rt => exact hbltu rt rs
  | bleu rs rt => exact hbgeu rt rs

theorem even_and {a : Word} (h : a.toNat % 2 = 0) : a &&& ~~~1 = a := by
  apply BitVec.eq_of_getLsbD_eq
  intro i hi
  rw [BitVec.getLsbD_and, BitVec.getLsbD_not, decide_eq_true hi, Bool.true_and]
  rcases Nat.eq_zero_or_pos i with rfl | hpos
  · have hbit : a.getLsbD 0 = false := by
      rw [BitVec.getLsbD, Nat.testBit_zero, h]
      rfl
    rw [hbit, Bool.false_and]
  · have hone : (1 : Word).getLsbD i = false := by
      exact Bool.eq_false_iff.mpr fun h1 =>
        hpos.ne' (Nat.testBit_one_eq_true_iff_self_eq_zero.mp h1)
    rw [hone, Bool.not_false, Bool.and_true]

theorem even_after {pc : Word} (n : Nat) (h : pc.toNat % 2 = 0) : (after pc n).toNat % 2 = 0 := by
  have hpc := pc.isLt
  rw [after, BitVec.toNat_add, BitVec.toNat_ofNat]
  omega

/-- Every branch goes to its target when RV32I's comparison holds and falls through otherwise;
only `gp`, `tp`, scratch words and the array of `seq` change. -/
theorem expansion_of_branch_meets_rv32i (sym : Symbols) (i : BranchInst) (hallowed : i.Allowed)
    (code : Code) (s : State) (target label : Word)
    (hplaced : Placed code s.pc (i.expand sym target label))
    (hlabel : label = after s.pc (i.expand sym target label).length)
    (hlinked : Linked sym (s.x 2) s.mem) (htarget : target.toNat % 2 = 0)
    (hpc : s.pc.toNat % 2 = 0) :
    Branches sym code s (i.expand sym target label) (if i.taken s.x then target else label) := by
  obtain ⟨ops, sel, d, his, hdecides, htaken⟩ :=
    resolves_branchInst i (ofCore s.toCore) target label hallowed hlinked
  have heven : label.toNat % 2 = 0 := by
    rw [hlabel]
    exact even_after _ hpc
  have hbranch := branches_of_decides hdecides (his ▸ hplaced) (even_and htarget) (even_and heven)
  have htaken' : i.taken s.x = (d == sel) := htaken
  rw [his, htaken']
  simpa using hbranch

theorem length_beqz (sym : Symbols) (target label : Word) :
    (Macros.beqz sym (.abi 10) target label).length = 35 := by
  have hx0 : Macros.isZero Macros.x0 := .inr rfl
  rw [Macros.beqz, Macros.beq, Macros.branchEq, if_pos hx0, List.length_append, List.length_map,
    length_seqz]
  simp [Macros.branchResolve, Macros.branchSlots, Macros.slli, Macros.la]

/-- `beqz a0, 0x80000400` run on a hart with `a0 = 0` is taken. -/
theorem beqz_runs_at_image : ∃ s', runN (step fun t => codeAt 0x80000000#32
      ((BranchInst.beqz (.abi 10)).expand (symbolsAt sectionBase) 0x80000400#32 0x8000008c#32) t.pc)
      35 (hartWith 0 7) = some s' ∧ s'.pc = 0x80000400#32 := by
  have hlen := length_beqz (symbolsAt sectionBase) 0x80000400#32 0x8000008c#32
  obtain ⟨s', hrun, hpc, -⟩ := expansion_of_branch_meets_rv32i (symbolsAt sectionBase)
    (.beqz (.abi 10)) (by decide) _ (hartWith 0 7) 0x80000400#32 0x8000008c#32
    (placed_codeAt (by rw [BranchInst.expand, hlen]; decide))
    (by rw [BranchInst.expand, hlen]; decide) (hartWith_linked _ _) (by decide) (by decide)
  rw [BranchInst.expand, hlen] at hrun
  exact ⟨s', hrun, hpc⟩

end Riscv32Cpu.Rvmini.Branch
