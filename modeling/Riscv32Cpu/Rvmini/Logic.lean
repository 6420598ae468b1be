/- module: Riscv32Cpu/Rvmini/Logic
   source: CODE/abstract-machine/tools/rvmini/inst-replace.h
   digest: Bitwise logic, complement, negation and subtraction keep their meaning. -/

import Riscv32Cpu.Rvmini.Image

set_option autoImplicit false
set_option relaxedAutoImplicit false

namespace Riscv32Cpu.Rvmini.Logic

open Riscv32Cpu.Lib.Memory Riscv32Cpu.Lib.Run Riscv32Cpu.Isa.Rv32i Riscv32Cpu.Rvmini.Scratch
open Riscv32Cpu.Rvmini.Tables Riscv32Cpu.Rvmini.Blocks Riscv32Cpu.Rvmini.Meaning
open Riscv32Cpu.Rvmini.Image
open Riscv32Cpu.Rvmini.Macros (RegName Symbols spVar spVarByte)

theorem index_word {w : Word} (hw : w.toNat < 65536) (p q : Byte) :
    setByte (setByte w 1 p) 0 q = BitVec.ofNat 32 (p.toNat * 256 + q.toNat) := by
  have hhigh : ∀ k, 2 ≤ k → k < 4 → (byteAt w k).toNat = 0 := by
    intro k h2 h4
    rw [byteAt_toNat]
    interval_cases k <;> omega
  have hbyte : ∀ k < 4, byteAt (setByte (setByte w 1 p) 0 q) k =
      if k = 0 then q else if k = 1 then p else byteAt w k := by
    intro k hk
    rw [byteAt_setByte _ _ (by omega), byteAt_setByte _ _ (by omega)]
  apply BitVec.eq_of_toNat_eq
  have hp := p.isLt
  have hq := q.isLt
  rw [toNat_eq_bytes, hbyte 0 (by decide), hbyte 1 (by decide), hbyte 2 (by decide),
    hbyte 3 (by decide), BitVec.toNat_ofNat]
  simp only [if_true, if_false, Nat.reduceEqDiff, one_ne_zero, OfNat.ofNat_ne_zero,
    OfNat.ofNat_ne_one, hhigh 2 (by decide) (by decide), hhigh 3 (by decide) (by decide)]
  omega

theorem setBytes_all (w : Word) (h : Nat → Byte) :
    setByte (setByte (setByte (setByte w 3 (h 3)) 2 (h 2)) 1 (h 1)) 0 (h 0) = ofBytes 32 h := by
  refine eq_of_byteAt_eq fun k hk => ?_
  have hk4 : k < 4 := by omega
  rw [byteAt_ofBytes _ (by omega), byteAt_setByte _ _ (by omega), byteAt_setByte _ _ (by omega),
    byteAt_setByte _ _ (by omega), byteAt_setByte _ _ (by omega)]
  interval_cases k <;> rfl

/-- A table operation that works byte by byte like `op`. -/
def Bytewise (tab : Nat → Nat → Word) (op : Word → Word → Word) : Prop :=
  ∀ x y : Word, ∀ k < 4, byteAt (tab (byteAt x k).toNat (byteAt y k).toNat) 0 = byteAt (op x y) k

private theorem getLsbD_ofByte (b : Byte) {i : Nat} (hi : i < 8) :
    (BitVec.ofNat 32 b.toNat).getLsbD (8 * 0 + i) = b.getLsbD i := by
  have h32 : i < 32 := by omega
  rw [BitVec.getLsbD_ofNat, Nat.mul_zero, Nat.zero_add, decide_eq_true h32, Bool.true_and]
  rfl

theorem bytewise_of_bits {op : Word → Word → Word} {g : Bool → Bool → Bool}
    (hop : ∀ x y : Word, ∀ i < 32, (op x y).getLsbD i = g (x.getLsbD i) (y.getLsbD i)) :
    Bytewise (fun j i => op (BitVec.ofNat 32 j) (BitVec.ofNat 32 i)) op := by
  intro x y k hk
  apply BitVec.eq_of_getLsbD_eq
  intro i hi
  have hi32 : 8 * 0 + i < 32 := by omega
  have hk32 : 8 * k + i < 32 := by omega
  rw [getLsbD_byteAt, getLsbD_byteAt, hop _ _ _ hi32, hop _ _ _ hk32, getLsbD_ofByte _ hi,
    getLsbD_ofByte _ hi, getLsbD_byteAt, getLsbD_byteAt, decide_eq_true hi]
  simp only [Bool.true_and]

theorem bytewise_and : Bytewise and8 (· &&& ·) :=
  bytewise_of_bits (g := Bool.and) fun _ _ _ _ => BitVec.getLsbD_and ..

theorem bytewise_or : Bytewise or8 (· ||| ·) :=
  bytewise_of_bits (g := Bool.or) fun _ _ _ _ => BitVec.getLsbD_or ..

theorem bytewise_xor : Bytewise xor8 (· ^^^ ·) :=
  bytewise_of_bits (g := Bool.xor) fun _ _ _ _ => BitVec.getLsbD_xor ..

section Lookup

variable (f : Frame) {base : Word} {tab : Nat → Nat → Word} {rd : RegName}

/-- The index word for byte `b` of two operands. -/
def logicIndex (x y : Word) (b : Nat) : Word :=
  BitVec.ofNat 32 ((byteAt x b).toNat * 256 + (byteAt y b).toNat)

theorem logicIndex_lt (x y : Word) (b : Nat) : (logicIndex x y b).toNat < 65536 := by
  have hx := (byteAt x b).isLt
  have hy := (byteAt y b).isLt
  rw [logicIndex, BitVec.toNat_ofNat]
  omega

theorem run_logic8Byte {op : Word → Word → Word} {b : Nat} (hb : b < 4) (hd : (rd : Reg) ≠ 4)
    (htab : ByteTable (f.x 2) f.rest base tab) (hop : Bytewise tab op) (hbase : f.x rd = base)
    (hidx : (f.var 7).toNat < 65536) :
    runOps (Macros.logic8ByteInternal rd b) f.core =
      (((f.put 7 (logicIndex (f.var 4) (f.var 5) b)).put 6
        (setByte (f.var 6) b (byteAt (op (f.var 4) (f.var 5)) b))).set 4
        ((byteAt (op (f.var 4) (f.var 5)) b).setWidth 32)).core := by
  have hget := htab _ (byteAt (f.var 4) b).isLt _ (byteAt (f.var 5) b).isLt
  have hword := index_word hidx (byteAt (f.var 4) b) (byteAt (f.var 5) b)
  rw [hop _ _ _ hb] at hget
  rw [Macros.logic8ByteInternal]
  simp only [runOps_cons, runOps_nil]
  rw [Frame.exec_lbu_var _ (by decide) (by decide) (by decide) hb]
  simp [hb, hd, hbase, Frame.set_put, Frame.put_put, Frame.set_set, byteAt_setWidth, hword]
  rw [Frame.exec_lbu_at0 _ (by decide) (by simpa [hbase] using hget.1)]
  simp [hb, hget.2, Frame.set_put, Frame.set_set, byteAt_setWidth, logicIndex]

/-- Without a base register the lookup reads some byte; only `tp` and scratch words change. -/
theorem run_logic8Byte_any (rd : RegName) {b : Nat} (hb : b < 4) :
    ∃ v p q, runOps (Macros.logic8ByteInternal rd b) f.core =
      (((f.put 7 p).put 6 q).set 4 v).core := by
  rw [Macros.logic8ByteInternal]
  simp only [runOps_cons, runOps_nil]
  rw [Frame.exec_lbu_var _ (by decide) (by decide) (by decide) hb]
  simp only [Frame.exec_sb_var, Frame.exec_lbu_var, Frame.exec_lw_var, Frame.exec_add, hb, reg_tp,
    Macros.varA, Macros.varB, Macros.varC, Macros.varD, Nat.reduceLeDiff, Nat.reduceLT, ne_eq,
    Fin.reduceEq, not_false_eq_true, Nat.ofNat_pos]
  obtain ⟨v, hv⟩ := Frame.exec_lbu_any _ Macros.tp (Macros.at0 Macros.tp) (by decide)
  rw [hv, Frame.exec_sb_var _ (by decide) (by decide) hb]
  simp only [Frame.set_put, Frame.set_set, Frame.put_put, reg_tp]
  exact ⟨_, _, _, rfl⟩

theorem run_logicBytes {op : Word → Word → Word} (hd2 : (rd : Reg) ≠ 2)
    (hd4 : (rd : Reg) ≠ 4) (htab : ByteTable (f.x 2) f.rest base tab) (hop : Bytewise tab op)
    (hbase : f.x rd = base) (hidx : (f.var 7).toNat < 65536) :
    ∃ w v, runOps (Macros.logic8ByteInternal rd 3 ++ Macros.logic8ByteInternal rd 2 ++
        Macros.logic8ByteInternal rd 1 ++ Macros.logic8ByteInternal rd 0 ++
        [Macros.lw rd (spVar Macros.varC)]) f.core =
      ((((f.put 7 w).put 6 (op (f.var 4) (f.var 5))).set 4 v).set rd
        (op (f.var 4) (f.var 5))).core := by
  have hbyte : ∀ (g : Frame) (b : Nat), b < 4 → g.x 2 = f.x 2 → g.rest = f.rest →
      g.x rd = f.x rd → (g.var 7).toNat < 65536 → g.var 4 = f.var 4 → g.var 5 = f.var 5 →
      runOps (Macros.logic8ByteInternal rd b) g.core =
        (((g.put 7 (logicIndex (f.var 4) (f.var 5) b)).put 6
          (setByte (g.var 6) b (byteAt (op (f.var 4) (f.var 5)) b))).set 4
          ((byteAt (op (f.var 4) (f.var 5)) b).setWidth 32)).core := by
    intro g b hb hsp hrest hrd hi h4 h5
    rw [run_logic8Byte g hb hd4 (by rw [hsp, hrest]; exact htab) hop (by rw [hrd, hbase]) hi, h4,
      h5]
  have hlt := logicIndex_lt (f.var 4) (f.var 5)
  rw [runOps_append, runOps_append, runOps_append, runOps_append,
    hbyte f 3 (by decide) rfl rfl rfl hidx rfl rfl,
    hbyte _ 2 (by decide) (by simp) (by simp) (by simp [hd4]) (by simpa using hlt 3) (by simp)
      (by simp),
    hbyte _ 1 (by decide) (by simp) (by simp) (by simp [hd4]) (by simpa using hlt 2) (by simp)
      (by simp),
    hbyte _ 0 (by decide) (by simp) (by simp) (by simp [hd4]) (by simpa using hlt 1) (by simp)
      (by simp)]
  have h67 : ∀ (g : Frame) (w v u : Word), ((g.put 6 w).put 7 v).put 6 u = (g.put 7 v).put 6 u := by
    intro g w v u
    rw [Frame.put_comm g w (by decide : (6 : Nat) ≠ 7), Frame.put_put]
  simp only [Frame.set_put, Frame.set_set, h67, Frame.put_put, Frame.set_var, Frame.put_var,
    if_true, setBytes_all, ofBytes_byteAt, runOps_cons, runOps_nil]
  rw [Frame.exec_lw_var _ hd2 (by decide) (by decide)]
  simp
  exact ⟨_, _, rfl⟩

theorem run_logic {lut : Word} {op : Word → Word → Word} {rs1 rs2 : RegName} {ops : List Op}
    (hops : Macros.logic lut rd rs1 rs2 = some ops) (hd2 : (rd : Reg) ≠ 2) (hd4 : (rd : Reg) ≠ 4)
    (htab : ByteTable (f.x 2) f.rest lut tab) (hop : Bytewise tab op) :
    Leaves ops f rd (op (f.x rs1) (f.x rs2)) [4] := by
  rw [Macros.logic] at hops
  split_ifs at hops with hx0
  · -- a destination spelled `x0` expands to nothing
    obtain rfl := Option.some.inj hops
    refine ⟨f, runOps_nil _, fun h => absurd (by rw [hx0]; decide) h, fun _ _ _ => rfl, rfl⟩
  obtain rfl := Option.some.inj hops
  let f₁ := (((f.put 4 (f.x rs1)).put 5 (f.x rs2)).put 7 0).set rd lut
  have hpre : runOps ([Macros.sw rs1 (spVar Macros.varA), Macros.sw rs2 (spVar Macros.varB)] ++
      Macros.la rd lut ++ [Macros.sw Macros.x0 (spVar Macros.varD)]) f.core = f₁.core := by
    simp [f₁, hd2, Frame.set_put]
  unfold Leaves
  rw [runOps_append, runOps_append, runOps_append, runOps_append, runOps_append, hpre]
  by_cases hd0 : (rd : Reg) = 0
  · obtain ⟨v₃, p₃, q₃, h₃⟩ := run_logic8Byte_any f₁ rd (b := 3) (by decide)
    obtain ⟨v₂, p₂, q₂, h₂⟩ := run_logic8Byte_any (((f₁.put 7 p₃).put 6 q₃).set 4 v₃) rd
      (b := 2) (by decide)
    obtain ⟨v₁, p₁, q₁, h₁⟩ := run_logic8Byte_any
      (((((f₁.put 7 p₃).put 6 q₃).set 4 v₃).put 7 p₂ |>.put 6 q₂).set 4 v₂) rd (b := 1)
      (by decide)
    obtain ⟨v₀, p₀, q₀, h₀⟩ := run_logic8Byte_any
      (((((((f₁.put 7 p₃).put 6 q₃).set 4 v₃).put 7 p₂ |>.put 6 q₂).set 4 v₂).put 7 p₁ |>.put 6
        q₁).set 4 v₁) rd (b := 0) (by decide)
    rw [h₃, h₂, h₁, h₀, runOps_cons, runOps_nil, Frame.exec_lw_var _ hd2 (by decide) (by decide)]
    refine ⟨_, rfl, fun h => absurd hd0 h, fun r hr h4 => ?_, rfl⟩
    simp [f₁, hr, List.mem_singleton.not.mp h4]
  · have hbytes := run_logicBytes f₁ hd2 hd4 (by simpa [f₁, hd2.symm] using htab) hop
      (by simp [f₁, hd0]) (by simp [f₁])
    obtain ⟨w, v, hrun⟩ := hbytes
    simp only [runOps_append] at hrun
    rw [hrun]
    refine ⟨_, rfl, fun _ => ?_, fun r hr h4 => ?_, rfl⟩
    · simp [f₁, hd0]
    · simp [f₁, hr, List.mem_singleton.not.mp h4]

end Lookup

/-- The instructions built on the logic tables, with operands as they are spelled. -/
inductive LogicInst
  | and (rd rs1 rs2 : RegName)
  | or (rd rs1 rs2 : RegName)
  | xor (rd rs1 rs2 : RegName)
  | andi (rd rs1 : RegName) (imm : BitVec 12)
  | ori (rd rs1 : RegName) (imm : BitVec 12)
  | xori (rd rs1 : RegName) (imm : BitVec 12)
  | not (rd rs : RegName)
  | sub (rd rs1 rs2 : RegName)
  | neg (rd rs : RegName)

namespace LogicInst

def rd : LogicInst → RegName
  | and rd _ _ | or rd _ _ | xor rd _ _ | andi rd _ _ | ori rd _ _ | xori rd _ _ | not rd _
  | sub rd _ _ | neg rd _ => rd

def expand (sym : Symbols) : LogicInst → Option (List Op)
  | and rd rs1 rs2 => Macros.and sym rd rs1 rs2
  | or rd rs1 rs2 => Macros.or sym rd rs1 rs2
  | xor rd rs1 rs2 => Macros.xor sym rd rs1 rs2
  | andi rd rs1 imm => Macros.andi sym rd rs1 imm
  | ori rd rs1 imm => Macros.ori sym rd rs1 imm
  | xori rd rs1 imm => Macros.xori sym rd rs1 imm
  | not rd rs => some (Macros.not sym rd rs)
  | sub rd rs1 rs2 => some (Macros.sub sym rd rs1 rs2)
  | neg rd rs => some (Macros.neg sym rd rs)

/-- What RV32I writes to `rd`. -/
def result (x : RegFile) : LogicInst → Word
  | and _ rs1 rs2 => x rs1 &&& x rs2
  | or _ rs1 rs2 => x rs1 ||| x rs2
  | xor _ rs1 rs2 => x rs1 ^^^ x rs2
  | andi _ rs1 imm => x rs1 &&& imm.signExtend 32
  | ori _ rs1 imm => x rs1 ||| imm.signExtend 32
  | xori _ rs1 imm => x rs1 ^^^ imm.signExtend 32
  | not _ rs => ~~~x rs
  | sub _ rs1 rs2 => x rs1 - x rs2
  | neg _ rs => -x rs

/-- No operand is `sp`, `gp` or `tp`, except that `tp` may be the last of a register form. -/
def Allowed : LogicInst → Prop
  | and rd rs1 rs2 | or rd rs1 rs2 | xor rd rs1 rs2 | sub rd rs1 rs2 =>
    Plain rd ∧ Plain rs1 ∧ (Plain rs2 ∨ (rs2 : Reg) = 4)
  | andi rd rs1 _ | ori rd rs1 _ | xori rd rs1 _ | not rd rs1 => Plain rd ∧ Plain rs1
  | neg rd rs => Plain rd ∧ (Plain rs ∨ (rs : Reg) = 4)

instance (i : LogicInst) : Decidable i.Allowed := by
  cases i <;> exact inferInstanceAs (Decidable (_ ∧ _))

end LogicInst

theorem logic_accepts (lut : Word) {rd rs1 rs2 : RegName} (hrd : Plain rd) (h1 : Plain rs1)
    (h2 : Plain rs2 ∨ (rs2 : Reg) = 4) : ∃ ops, Macros.logic lut rd rs1 rs2 = some ops := by
  have hne : ∀ {r s : RegName}, (r : Reg) ≠ s → r ≠ s := fun h hrs => h (by rw [hrs])
  have h2sp : (rs2 : Reg) ≠ 2 := by
    rcases h2 with h | h
    · exact h.1
    · rw [h]
      decide
  have h2gp : (rs2 : Reg) ≠ 3 := by
    rcases h2 with h | h
    · exact h.2.1
    · rw [h]
      decide
  rw [Macros.logic]
  split_ifs with _ hsp hgp htp
  · exact ⟨_, rfl⟩
  · rcases hsp with h | h | h
    · exact absurd h (hne (by simpa using hrd.1))
    · exact absurd h (hne (by simpa using h1.1))
    · exact absurd h (hne (by simpa using h2sp))
  · rcases hgp with h | h | h
    · exact absurd h (hne (by simpa using hrd.2.1))
    · exact absurd h (hne (by simpa using h1.2.1))
    · exact absurd h (hne (by simpa using h2gp))
  · rcases htp with h | h
    · exact absurd h (hne (by simpa using hrd.2.2))
    · exact absurd h (hne (by simpa using h1.2.2))
  · exact ⟨_, rfl⟩

theorem logic_implements {sym : Symbols} {lut : Word} {tab : Nat → Nat → Word}
    {op : Word → Word → Word} {rd rs1 rs2 : RegName} (hrd : Plain rd) (h1 : Plain rs1)
    (h2 : Plain rs2 ∨ (rs2 : Reg) = 4) (hop : Bytewise tab op)
    (htab : ∀ {v m}, Linked sym v m → ByteTable v m lut tab) :
    ∃ ops, Macros.logic lut rd rs1 rs2 = some ops ∧
      Implements sym ops rd (fun x => op (x rs1) (x rs2)) [4] ∅ := by
  obtain ⟨ops, hops⟩ := logic_accepts lut hrd h1 h2
  refine ⟨ops, hops, implements_of_leaves hrd.1 (by decide) fun f hf => ?_⟩
  exact run_logic f hops hrd.1 hrd.2.2 (htab hf) hop

theorem logicItype_implements {sym : Symbols} {lut : Word} {tab : Nat → Nat → Word}
    {op : Word → Word → Word} {rd rs1 : RegName} (imm : BitVec 12) (hrd : Plain rd)
    (h1 : Plain rs1) (hop : Bytewise tab op)
    (htab : ∀ {v m}, Linked sym v m → ByteTable v m lut tab) :
    ∃ ops, Macros.logicItype (Macros.logic lut) rd rs1 imm = some ops ∧
      Implements sym ops rd (fun x => op (x rs1) (imm.signExtend 32)) [4] ∅ := by
  obtain ⟨ops, hops⟩ := logic_accepts lut hrd h1 (.inr (by decide : (Macros.tp : Reg) = 4))
  refine ⟨_, by rw [Macros.logicItype, Macros.defItype, hops]; rfl,
    implements_of_leaves hrd.1 (by decide) fun f hf => Leaves.itype ?_ (by decide)⟩
  have hrun := run_logic (f.set 4 (imm.signExtend 32)) hops hrd.1 hrd.2.2
    (by simpa using htab hf) hop
  simpa [h1.2.2] using hrun

theorem sub_implements (sym : Symbols) {rd rs1 : RegName} (rs2 : RegName) (hrd : Plain rd)
    (h1 : (rs1 : Reg) ≠ 4) :
    Implements sym (Macros.sub sym rd rs1 rs2) rd (fun x => x rs1 - x rs2) [4] ∅ := by
  refine implements_of_leaves hrd.1 (by decide) fun f hf => ?_
  obtain ⟨g, hrun, hx, -, hrest⟩ := run_sub f rd rs1 rs2 hrd.1 h1 hf
  refine ⟨g, hrun, fun h0 => by rw [hx, RegFile.set_self _ _ h0], fun r hr hc => ?_, hrest⟩
  rw [hx, RegFile.set_ne _ _ hr, RegFile.set_ne _ _ (List.mem_singleton.not.mp hc)]

theorem not_implements {sym : Symbols} {rd rs : RegName} (hrd : Plain rd) :
    Implements sym (Macros.not sym rd rs) rd (fun x => ~~~x rs) [4] ∅ := by
  refine implements_of_leaves hrd.1 (by decide) fun f hf => ?_
  obtain ⟨g, hrun, hx, -, hrest⟩ := run_not f rd rs hrd.1 hf
  refine ⟨g, hrun, fun h0 => by rw [hx, RegFile.set_self _ _ h0], fun r hr hc => ?_, hrest⟩
  rw [hx, RegFile.set_ne _ _ hr, RegFile.set_ne _ _ (List.mem_singleton.not.mp hc)]

theorem logic_expands (sym : Symbols) {i : LogicInst} (h : i.Allowed) :
    ∃ ops, i.expand sym = some ops ∧
      Implements sym ops i.rd i.result [4] ∅ := by
  cases i with
  | and rd rs1 rs2 => exact logic_implements h.1 h.2.1 h.2.2 bytewise_and Linked.and8
  | or rd rs1 rs2 => exact logic_implements h.1 h.2.1 h.2.2 bytewise_or Linked.or8
  | xor rd rs1 rs2 => exact logic_implements h.1 h.2.1 h.2.2 bytewise_xor Linked.xor8
  | andi rd rs1 imm => exact logicItype_implements imm h.1 h.2 bytewise_and Linked.and8
  | ori rd rs1 imm => exact logicItype_implements imm h.1 h.2 bytewise_or Linked.or8
  | xori rd rs1 imm => exact logicItype_implements imm h.1 h.2 bytewise_xor Linked.xor8
  | not rd rs => exact ⟨_, rfl, not_implements h.1⟩
  | sub rd rs1 rs2 => exact ⟨_, rfl, sub_implements sym rs2 h.1 h.2.1.2.2⟩
  | neg rd rs =>
    have hsub := sub_implements sym rs h.1 (by decide : (Macros.x0 : Reg) ≠ 4)
    have hneg : ∀ x : RegFile, x Macros.x0 - x rs = -x rs := fun x => by simp
    simp only [hneg] at hsub
    exact ⟨_, rfl, hsub⟩

/-- Every accepted logic, complement or subtraction expands to code with RV32I's result; only
`rd`, `tp` and scratch words change. -/
theorem expansion_of_logic_meets_rv32i (sym : Symbols) (i : LogicInst) (h : i.Allowed) :
    ∃ ops, i.expand sym = some ops ∧
      Implements sym ops i.rd (fun x => i.result x) [4] ∅ := logic_expands sym h

/-- `and a0, a0, a1` run on a hart that holds `0xff00` and `0x0ff0`. -/
theorem and_runs_at_image : ∃ ops,
    (LogicInst.and (.abi 10) (.abi 10) (.abi 11)).expand (symbolsAt sectionBase) = some ops ∧
      ∃ s', runN (step fun t => codeAt 0x80000000#32 (ops.map .op) t.pc) ops.length
        (hartWith 0xff00 0x0ff0) = some s' ∧ s'.x 10 = 0x0f00 := by
  obtain ⟨ops, hops, himplements⟩ := expansion_of_logic_meets_rv32i (symbolsAt sectionBase)
    (.and (.abi 10) (.abi 10) (.abi 11)) (by decide)
  have hlen : ops.length = 38 := by
    have hmap : ((LogicInst.and (.abi 10) (.abi 10) (.abi 11)).expand
        (symbolsAt sectionBase)).map List.length = some 38 := rfl
    rw [hops] at hmap
    exact Option.some.inj hmap
  obtain ⟨s', hrun, -, hcomputes⟩ := himplements _ (hartWith 0xff00 0x0ff0)
    (placed_codeAt (by rw [List.length_map, hlen]; decide)) (hartWith_linked _ _)
  exact ⟨ops, hops, s', hrun, hcomputes.value (by decide)⟩

end Riscv32Cpu.Rvmini.Logic
