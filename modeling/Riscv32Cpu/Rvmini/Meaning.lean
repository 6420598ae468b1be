/- module: Riscv32Cpu/Rvmini/Meaning
   source: CODE/abstract-machine/tools/rvmini/inst-replace.h
   digest: When an expansion means the instruction it replaces. -/

import Riscv32Cpu.Rvmini.Blocks

set_option autoImplicit false
set_option relaxedAutoImplicit false

namespace Riscv32Cpu.Rvmini.Meaning

open Riscv32Cpu.Lib.Memory Riscv32Cpu.Lib.Run Riscv32Cpu.Isa.Rv32i Riscv32Cpu.Rvmini.Scratch
open Riscv32Cpu.Rvmini.Tables
open Riscv32Cpu.Rvmini.Macros (RegName Symbols)

/-- A register the macros leave to the compiler: not `sp`, `gp` or `tp`. -/
def Plain (r : RegName) : Prop := (r : Reg) ≠ 2 ∧ (r : Reg) ≠ 3 ∧ (r : Reg) ≠ 4

instance (r : RegName) : Decidable (Plain r) := inferInstanceAs (Decidable (_ ∧ _))

def flag (b : Bool) : Word := if b then 1 else 0

/-- From `c` to `c'` the register `rd` receives `v`; besides it only the registers `clob`, the
scratch words below `sp` and the memory `dirty` may change. -/
structure Computes (c c' : Core) (rd : Reg) (v : Word) (clob : List Reg) (dirty : Set Word) :
    Prop where
  value : rd ≠ 0 → c'.x rd = v
  keep : ∀ r, r ≠ rd → r ∉ clob → c'.x r = c.x r
  mem : ∀ a, ¬InScratch (c.x 2) a → a ∉ dirty → c'.mem a = c.mem a

/-- Run from `s`, the expansion reaches the instruction after it and has computed `v` into
`rd`. -/
def Performs (code : Code) (s : State) (ops : List Op) (rd : Reg) (v : Word) (clob : List Reg)
    (dirty : Set Word) : Prop :=
  ∃ s', runN (step fun t => code t.pc) ops.length s = some s' ∧
    s'.pc = after s.pc ops.length ∧ Computes s.toCore s'.toCore rd v clob dirty

/-- The expansion does so wherever it is placed in a linked image. -/
def Implements (sym : Symbols) (ops : List Op) (rd : Reg) (v : RegFile → Word)
    (clob : List Reg) (dirty : Set Word) : Prop :=
  ∀ (code : Code) (s : State), Placed code s.pc (ops.map .op) → Linked sym (s.x 2) s.mem →
    Performs code s ops rd (v s.x) clob dirty

/-- The same seen from a frame: `v` in `rd`, only `clob` and scratch words besides. -/
def Leaves (ops : List Op) (f : Frame) (rd : Reg) (v : Word) (clob : List Reg) : Prop :=
  ∃ g : Frame, runOps ops f.core = g.core ∧ (rd ≠ 0 → g.x rd = v) ∧
    (∀ r, r ≠ rd → r ∉ clob → g.x r = f.x r) ∧ g.rest = f.rest

variable {sym : Symbols} {ops : List Op} {rd : Reg} {clob : List Reg}

theorem computes_of_frame (f : Frame) {g : Frame} {v : Word} (dirty : Set Word) (hrd : rd ≠ 2)
    (hclob : 2 ∉ clob) (hvalue : rd ≠ 0 → g.x rd = v)
    (hkeep : ∀ r, r ≠ rd → r ∉ clob → g.x r = f.x r)
    (hrest : ∀ a, a ∉ dirty → g.rest a = f.rest a) :
    Computes f.core g.core rd v clob dirty := by
  have hsp : g.x 2 = f.x 2 := hkeep 2 hrd.symm hclob
  refine ⟨hvalue, hkeep, fun a ha hdirty => ?_⟩
  rw [Frame.core_mem_out f ha, Frame.core_mem_out g (by rw [hsp]; exact ha), hrest a hdirty]

theorem implements_of_leaves {v : RegFile → Word} (hrd : rd ≠ 2) (hclob : 2 ∉ clob)
    (h : ∀ f : Frame, Linked sym (f.x 2) f.rest → Leaves ops f rd (v f.x) clob) :
    Implements sym ops rd v clob ∅ := by
  intro code s hplaced hlinked
  obtain ⟨g, hrun, hvalue, hkeep, hrest⟩ := h (ofCore s.toCore) hlinked
  have hcomputes := computes_of_frame _ ∅ hrd hclob hvalue hkeep fun a _ => by rw [hrest]
  rw [ofCore_core] at hrun hcomputes
  exact ⟨_, runN_ops hplaced, rfl, hrun ▸ hcomputes⟩

theorem Leaves.itype {f : Frame} {v : Word} {imm : BitVec 12}
    (h : Leaves ops (f.set 4 (imm.signExtend 32)) rd v clob) (hclob : 4 ∈ clob) :
    Leaves (Macros.li Macros.tp imm :: ops) f rd v clob := by
  obtain ⟨g, hrun, hvalue, hkeep, hrest⟩ := h
  refine ⟨g, ?_, hvalue, fun r hr hc => ?_, hrest⟩
  · rw [runOps_cons, Frame.exec_li _ _ (by decide)]
    exact hrun
  · have h4 : r ≠ 4 := fun h => hc (h ▸ hclob)
    rw [hkeep r hr hc, Frame.set_x, if_neg fun h => h4 h.1]

end Riscv32Cpu.Rvmini.Meaning
