/- module: Riscv32Cpu/Rvmini/Lines
   source: CODE/abstract-machine/tools/rvmini/inst-replace.h
   digest: The code made of any line does what RV32I does, but for gp, tp and scratch memory. -/

import Riscv32Cpu.Rvmini.Assembly

set_option autoImplicit false
set_option relaxedAutoImplicit false

namespace Riscv32Cpu.Rvmini.Lines

open Riscv32Cpu.Lib.Memory Riscv32Cpu.Lib.Run Riscv32Cpu.Isa.Rv32i Riscv32Cpu.Rvmini.Scratch
open Riscv32Cpu.Rvmini.Tables Riscv32Cpu.Rvmini.Meaning Riscv32Cpu.Rvmini.Logic
open Riscv32Cpu.Rvmini.Compare Riscv32Cpu.Rvmini.Equality Riscv32Cpu.Rvmini.Shift
open Riscv32Cpu.Rvmini.SubWord Riscv32Cpu.Rvmini.Branch Riscv32Cpu.Rvmini.Assembly
open Riscv32Cpu.Rvmini.Macros (RegName Symbols)

/-- `t` stands where `s` does; only `gp`, `tp` and the addresses in `stale` may differ. -/
structure Mirrors (stale : Set Word) (s t : State) : Prop where
  pc : t.pc = s.pc
  x : ∀ r : Reg, r ≠ 3 → r ≠ 4 → t.x r = s.x r
  mem : ∀ a, a ∉ stale → t.mem a = s.mem a

theorem Mirrors.refl (stale : Set Word) (s : State) : Mirrors stale s s :=
  ⟨rfl, fun _ _ _ => rfl, fun _ _ => rfl⟩

theorem Mirrors.trans {p q : Set Word} {s t u : State} (h : Mirrors p s t) (k : Mirrors q t u) :
    Mirrors (p ∪ q) s u where
  pc := k.pc.trans h.pc
  x r h3 h4 := (k.x r h3 h4).trans (h.x r h3 h4)
  mem a ha := (k.mem a fun hq => ha (.inr hq)).trans (h.mem a fun hp => ha (.inl hp))

theorem Mirrors.mono {p q : Set Word} {s t : State} (h : Mirrors p s t) (hpq : p ⊆ q) :
    Mirrors q s t := ⟨h.pc, h.x, fun a ha => h.mem a fun hp => ha (hpq hp)⟩

section Congruence

variable {stale : Set Word} {s t : State} {m m' : Mem 32} {x x' : RegFile}

theorem bytes_mem {a : Word} {n k : Nat} (hk : k < n) (hn : n ≤ 2 ^ 32) :
    a + BitVec.ofNat 32 k ∈ bytes a n := by
  rw [bytes, Set.mem_ofPred_eq, toNat_add_sub a (by omega)]
  exact hk

theorem set_mirrors (h : ∀ r : Reg, r ≠ 3 → r ≠ 4 → x' r = x r) (d : Reg) (v : Word) (r : Reg)
    (h3 : r ≠ 3) (h4 : r ≠ 4) : x'.set d v r = x.set d v r := by
  rw [RegFile.get_set, RegFile.get_set, h r h3 h4]

theorem load_mirrors (h : ∀ a, a ∉ stale → m' a = m a) {a : Word} {n : Nat} (hn : n ≤ 4)
    (hfresh : ∀ b ∈ bytes a n, b ∉ stale) : load m' a (8 * n) = load m a (8 * n) := by
  refine load_congr fun k hk => h _ (hfresh _ ?_)
  exact bytes_mem (by omega) (by omega)

theorem store_mirrors {w : Nat} (h : ∀ a, a ∉ stale → m' a = m a) (a : Word) (n : Nat)
    (v : BitVec w) : ∀ b, b ∉ stale \ bytes a n → store m' a n v b = store m a n v b := by
  intro b hb
  by_cases hin : (b - a).toNat < n
  · rw [store, store, overlay, overlay, if_pos hin, if_pos hin]
  · rw [store_out _ _ hin, store_out _ _ hin]
    exact h b fun hs => hb ⟨hs, hin⟩

theorem op_mirrors {o : Op} (h : Mirrors stale s t) (next : Word)
    (hsources : ∀ r ∈ opSources o, t.x r = s.x r) (hfresh : ∀ a ∈ opLoads s.x o, a ∉ stale) :
    Mirrors (stale \ opStores s.x o) { o.exec s.toCore with pc := next }
      { o.exec t.toCore with pc := next } := by
  cases o with
  | add rd rs1 rs2 =>
    have h1 : t.x rs1 = s.x rs1 := hsources _ (by simp [opSources])
    have h2 : t.x rs2 = s.x rs2 := hsources _ (by simp [opSources])
    refine ⟨rfl, ?_, fun a ha => h.mem a fun hs => ha ⟨hs, id⟩⟩
    simp only [Op.exec, h1, h2]
    exact set_mirrors h.x _ _
  | addi rd rs1 imm =>
    have h1 : t.x rs1 = s.x rs1 := hsources _ (by simp [opSources])
    refine ⟨rfl, ?_, fun a ha => h.mem a fun hs => ha ⟨hs, id⟩⟩
    simp only [Op.exec, h1]
    exact set_mirrors h.x _ _
  | lui rd imm =>
    refine ⟨rfl, ?_, fun a ha => h.mem a fun hs => ha ⟨hs, id⟩⟩
    simp only [Op.exec]
    exact set_mirrors h.x _ _
  | lw rd imm rs1 =>
    have h1 : t.x rs1 = s.x rs1 := hsources _ (by simp [opSources])
    refine ⟨rfl, ?_, fun a ha => h.mem a fun hs => ha ⟨hs, id⟩⟩
    simp only [Op.exec, h1]
    rw [load_mirrors (n := 4) h.mem (Nat.le_refl _) hfresh]
    exact set_mirrors h.x _ _
  | lbu rd imm rs1 =>
    have h1 : t.x rs1 = s.x rs1 := hsources _ (by simp [opSources])
    refine ⟨rfl, ?_, fun a ha => h.mem a fun hs => ha ⟨hs, id⟩⟩
    simp only [Op.exec, h1]
    rw [← load_byte t.mem, ← load_byte s.mem,
      load_mirrors (n := 1) h.mem (by omega) hfresh]
    exact set_mirrors h.x _ _
  | sw rs2 imm rs1 =>
    have h1 : t.x rs1 = s.x rs1 := hsources _ (by simp [opSources])
    have h2 : t.x rs2 = s.x rs2 := hsources _ (by simp [opSources])
    refine ⟨rfl, h.x, ?_⟩
    simp only [Op.exec, h1, h2]
    exact store_mirrors h.mem _ _ _
  | sb rs2 imm rs1 =>
    have h1 : t.x rs1 = s.x rs1 := hsources _ (by simp [opSources])
    have h2 : t.x rs2 = s.x rs2 := hsources _ (by simp [opSources])
    refine ⟨rfl, h.x, ?_⟩
    simp only [Op.exec, h1, h2]
    exact store_mirrors h.mem _ _ _

theorem subWord_mirrors {i : SubWordInst} (h : Mirrors stale s t) (next : Word)
    (hbase : t.x i.base = s.x i.base) (hdata : t.x i.data = s.x i.data)
    (hfresh : ∀ a ∈ Line.loads (L := Word) s.x (.subWord i), a ∉ stale) :
    Mirrors (stale \ Line.stores (L := Word) s.x (.subWord i)) { i.exec s.toCore with pc := next }
      { i.exec t.toCore with pc := next } := by
  have haddr : i.address t.x = i.address s.x := by
    rw [SubWordInst.address, SubWordInst.address, hbase]
  cases i with
  | lb rd imm base =>
    refine ⟨rfl, ?_, fun a ha => h.mem a fun hs => ha ⟨hs, id⟩⟩
    simp only [SubWordInst.exec, haddr]
    rw [← load_byte t.mem, ← load_byte s.mem, load_mirrors (n := 1) h.mem (by omega) hfresh]
    exact set_mirrors h.x _ _
  | lh rd imm base | lhu rd imm base =>
    refine ⟨rfl, ?_, fun a ha => h.mem a fun hs => ha ⟨hs, id⟩⟩
    simp only [SubWordInst.exec, haddr]
    rw [load_mirrors (n := 2) h.mem (by omega) hfresh]
    exact set_mirrors h.x _ _
  | sh rs imm base =>
    have hrs : t.x rs = s.x rs := hdata
    refine ⟨rfl, h.x, ?_⟩
    simp only [SubWordInst.exec, haddr, hrs]
    exact store_mirrors h.mem _ _ _

/-- RV32I itself cannot tell the two harts apart, as long as a line reads nothing stale; what it
stores is fresh again. -/
theorem exec_mirrors {l : Line Word} {next : Word} {s' : State} (h : Mirrors stale s t)
    (hsources : ∀ r ∈ l.sources, r ≠ 3 ∧ r ≠ 4) (hfresh : ∀ a ∈ l.loads s.x, a ∉ stale)
    (hexec : l.exec next s = some s') :
    ∃ t', l.exec next t = some t' ∧ Mirrors (stale \ l.stores s.x) s' t' := by
  have hx : ∀ r ∈ l.sources, t.x r = s.x r :=
    fun r hr => h.x r (hsources r hr).1 (hsources r hr).2
  have hkeep : ∀ a, a ∉ stale \ (∅ : Set Word) → t.mem a = s.mem a :=
    fun a ha => h.mem a fun hs => ha ⟨hs, id⟩
  cases l with
  | op o =>
    obtain rfl := Option.some.inj hexec
    exact ⟨_, rfl, op_mirrors h next hx hfresh⟩
  | la rd addr =>
    obtain rfl := Option.some.inj hexec
    exact ⟨_, rfl, rfl, set_mirrors h.x _ _, hkeep⟩
  | logic i =>
    obtain rfl := Option.some.inj hexec
    refine ⟨_, rfl, rfl, ?_, hkeep⟩
    rw [logic_result_congr hx]
    exact set_mirrors h.x _ _
  | shift i =>
    obtain rfl := Option.some.inj hexec
    refine ⟨_, rfl, rfl, ?_, hkeep⟩
    rw [shift_result_congr hx]
    exact set_mirrors h.x _ _
  | set i =>
    obtain rfl := Option.some.inj hexec
    refine ⟨_, rfl, rfl, ?_, hkeep⟩
    rw [set_holds_congr hx]
    exact set_mirrors h.x _ _
  | seqz rd rs =>
    obtain rfl := Option.some.inj hexec
    refine ⟨_, rfl, rfl, ?_, hkeep⟩
    rw [hx rs (by simp [Line.sources])]
    exact set_mirrors h.x _ _
  | subWord i =>
    obtain rfl := Option.some.inj hexec
    exact ⟨_, rfl, subWord_mirrors h next (hx _ (by simp [Line.sources]))
      (hx _ (by simp [Line.sources])) hfresh⟩
  | branch i target =>
    obtain rfl := Option.some.inj hexec
    refine ⟨_, rfl, ?_, h.x, hkeep⟩
    rw [branch_taken_congr hx]
  | jal rd target =>
    obtain rfl := Option.some.inj hexec
    exact ⟨_, rfl, rfl, set_mirrors h.x _ _, hkeep⟩
  | call target =>
    obtain rfl := Option.some.inj hexec
    exact ⟨_, rfl, rfl, set_mirrors h.x _ _, hkeep⟩
  | tail target | j target =>
    obtain rfl := Option.some.inj hexec
    exact ⟨_, rfl, rfl, h.x, hkeep⟩
  | jalr rd rs1 imm =>
    obtain rfl := Option.some.inj hexec
    refine ⟨_, rfl, ?_, set_mirrors h.x _ _, hkeep⟩
    rw [hx rs1 (by simp [Line.sources])]
  | ebreak => cases hexec

end Congruence

/-- The memory a macro may leave changed. -/
def scratchArea (sym : Symbols) (sp : Word) : Set Word := {a | InScratch sp a} ∪ checkSameRegion sym

/-- From `t`, the placed code reaches a hart that mirrors `t'`. -/
def Realizes (sym : Symbols) (code : Code) (t t' : State) : Prop :=
  ∃ n u, runN (step fun s => code s.pc) n t = some u ∧ Mirrors (scratchArea sym (t.x 2)) t' u

section Expansions

variable {sym : Symbols} {code : Code} {t : State} {ops : List Op} {rd : Reg}

theorem realizes_of_implements {clob : List Reg} {v : RegFile → Word}
    (h : Implements sym ops rd v clob ∅) (hclob : ∀ r ∈ clob, r = 3 ∨ r = 4)
    (hplaced : Placed code t.pc (ops.map .op)) (hlinked : Linked sym (t.x 2) t.mem) :
    Realizes sym code t { t with x := t.x.set rd (v t.x), pc := after t.pc ops.length } := by
  obtain ⟨u, hrun, hpc, hvalue, hkeep, hmem⟩ := h code t hplaced hlinked
  refine ⟨_, u, hrun, hpc, fun r h3 h4 => ?_, fun a ha => ?_⟩
  · rw [RegFile.get_set]
    by_cases hr : r = rd
    · by_cases h0 : rd = 0
      · rw [hr, h0, RegFile.get_zero, if_neg fun h => h.2 rfl, RegFile.get_zero]
      · rw [if_pos ⟨hr, h0⟩, hr, hvalue h0]
    · rw [if_neg fun h => hr h.1, hkeep r hr fun hc => (hclob r hc).elim h3 h4]
  · exact hmem a (fun hs => ha (.inl hs)) (Set.notMem_empty a)

theorem runOps_la {r : RegName} (hr : (r : Reg) ≠ 2) (addr : Word) (c : Core) :
    runOps (Macros.la r addr) c = { c with x := c.x.set r addr } := by
  have hla := Frame.run_la (ofCore c) addr hr
  rw [← Frame.core_set _ hr, ofCore_core] at hla
  exact hla

theorem run_callTemplate {r : RegName} {addr : Word} (hr0 : (r : Reg) ≠ 0) (hr2 : (r : Reg) ≠ 2)
    (hplaced : Placed code t.pc (Macros.callTemplate r addr)) (heven : addr.toNat % 2 = 0) :
    ∃ n, runN (step fun s => code s.pc) n t =
      some { t with x := t.x.set r (after t.pc 3), pc := addr } := by
  obtain ⟨hla, hjalr, -⟩ := hplaced.append
  have hrun := runN_ops hla
  rw [runOps_la hr2] at hrun
  have hvalue : (t.x.set r addr) r + (0 : BitVec 12).signExtend 32 = addr := by
    have hzero : (0 : BitVec 12).signExtend 32 = (0 : Word) := by decide
    rw [RegFile.set_self _ _ hr0, hzero, add_zero]
  have hlink : after t.pc 2 + 4 = after t.pc 3 := by
    rw [after, after, BitVec.add_assoc]
    rfl
  have hjump : step (fun s => code s.pc)
      { t with x := t.x.set r addr, pc := after t.pc 2 } =
        some { t with x := t.x.set r (after t.pc 3), pc := addr } := by
    have hfetch : code (after t.pc 2) = some (.jalr r r 0) := hjalr
    rw [step, hfetch, Option.bind_some, Inst.exec, hvalue, RegFile.set_set, hlink, even_and heven]
  refine ⟨2 + 1, ?_⟩
  have hlen : (Macros.la r addr).length = 2 := rfl
  rw [hlen] at hrun
  rw [runN_add, hrun, Option.bind_some]
  exact runN_succ_of_step hjump 0

theorem realizes_j {addr : Word} (hplaced : Placed code t.pc (Macros.j addr))
    (heven : addr.toNat % 2 = 0) : Realizes sym code t { t with pc := addr } := by
  obtain ⟨n, hrun⟩ := run_callTemplate (by decide) (by decide) hplaced heven
  exact ⟨n, _, hrun, rfl, fun r _ h4 => RegFile.set_ne _ _ h4, fun _ _ => rfl⟩

theorem realizes_tail {addr : Word} (hplaced : Placed code t.pc (Macros.tail addr))
    (heven : addr.toNat % 2 = 0) : Realizes sym code t { t with pc := addr } := by
  obtain ⟨hjump, -⟩ := hplaced.append
  obtain ⟨hla, hjr, -⟩ := Placed.append hjump
  have hrun := runN_ops hla
  rw [runOps_la (by decide)] at hrun
  have hvalue : (t.x.set 4 addr) Macros.tp + (0 : BitVec 12).signExtend 32 = addr := by
    have hzero : (0 : BitVec 12).signExtend 32 = (0 : Word) := by decide
    rw [reg_tp, RegFile.set_self _ _ (by decide), hzero, add_zero]
  have hstep : step (fun s => code s.pc) { t with x := t.x.set 4 addr, pc := after t.pc 2 } =
      some { t with x := t.x.set 4 addr, pc := addr } := by
    have hfetch : code (after t.pc 2) = some (Macros.jr Macros.tp) := hjr
    rw [step, hfetch, Option.bind_some, Macros.jr, Inst.exec, hvalue, even_and heven,
      RegFile.set_zero]
  have hlen : (Macros.la Macros.tp addr).length = 2 := rfl
  rw [hlen] at hrun
  refine ⟨2 + 1, { t with x := t.x.set 4 addr, pc := addr }, ?_, rfl,
    fun r _ h4 => RegFile.set_ne _ _ h4, fun _ _ => rfl⟩
  rw [runN_add, hrun, Option.bind_some]
  exact runN_succ_of_step hstep 0

theorem la_implements {r : RegName} (hr : (r : Reg) ≠ 2) (addr : Word) :
    Implements sym (Macros.la r addr) r (fun _ => addr) [] ∅ := by
  refine implements_of_leaves hr (by simp) fun f _ => ?_
  refine ⟨f.set r addr, Frame.run_la f addr hr, fun h0 => ?_, fun q hq _ => ?_, rfl⟩
  · rw [Frame.set_x, if_pos ⟨rfl, h0⟩]
  · rw [Frame.set_x, if_neg fun h => hq h.1]

theorem seqz_implements {r rs : RegName} (hr2 : (r : Reg) ≠ 2) (hr8 : (r : Reg) ≠ 8) :
    Implements sym (Macros.seqz sym r rs) r (fun x => flag (decide (x rs = 0))) [3, 4] ∅ := by
  refine implements_of_leaves hr2 (by decide) fun f hf => ?_
  obtain ⟨g, hrun, hvalue, -, hkeep, hrest⟩ := run_seqz f r rs hr2 hf
  refine ⟨g, hrun, fun h0 => hvalue h0 hr8, fun q hq hc => ?_, hrest⟩
  have h34 : q ≠ 3 ∧ q ≠ 4 := by simpa using hc
  exact hkeep q hq h34.1 h34.2

/-- Of every line the header makes code that does what RV32I does, where the line keeps to the
header's assumptions. -/
theorem line_realizes {l : Line Word} {is : List Inst} {t' : State} (hallowed : l.Allowed)
    (haligned : l.Aligned) (hexpand : l.expand sym (after t.pc is.length) = some is)
    (hplaced : Placed code t.pc is) (hpc : t.pc.toNat % 2 = 0)
    (hlinked : Linked sym (t.x 2) t.mem)
    (hclear : ∀ a, a ∈ l.loads t.x ∨ a ∈ l.stores t.x → ¬InScratch (t.x 2) a)
    (hexec : l.exec (after t.pc is.length) t = some t') : Realizes sym code t t' := by
  have hone : ∀ {u : State} {n : Nat}, runN (step fun s => code s.pc) n t = some u →
      Realizes sym code t u := fun h => ⟨_, _, h, Mirrors.refl _ _⟩
  cases l with
  | op o =>
    obtain rfl := Option.some.inj hexpand
    obtain rfl := Option.some.inj hexec
    have hops : Placed code t.pc ([o].map .op) := hplaced
    exact hone (runN_ops hops)
  | la rd addr =>
    obtain rfl := Option.some.inj hexpand
    obtain rfl := Option.some.inj hexec
    rw [List.length_map]
    exact realizes_of_implements (la_implements hallowed addr) (by simp) hplaced hlinked
  | logic i =>
    obtain ⟨ops, hops, rfl⟩ := Option.map_eq_some_iff.mp hexpand
    obtain rfl := Option.some.inj hexec
    rw [List.length_map]
    obtain ⟨ops', hops', himplements⟩ := logic_expands sym hallowed
    obtain rfl : ops = ops' := Option.some.inj (hops.symm.trans hops')
    exact realizes_of_implements himplements (by simp) hplaced hlinked
  | shift i =>
    obtain rfl := Option.some.inj hexpand
    obtain rfl := Option.some.inj hexec
    rw [List.length_map]
    exact realizes_of_implements (shift_implements sym hallowed) (by simp) hplaced hlinked
  | set i =>
    obtain rfl := Option.some.inj hexpand
    obtain rfl := Option.some.inj hexec
    rw [List.length_map]
    exact realizes_of_implements (set_implements sym hallowed) (by simp) hplaced hlinked
  | seqz rd rs =>
    obtain rfl := Option.some.inj hexpand
    obtain rfl := Option.some.inj hexec
    rw [List.length_map]
    exact realizes_of_implements (seqz_implements hallowed.1 hallowed.2) (by simp) hplaced hlinked
  | subWord i =>
    obtain ⟨ops, hops, rfl⟩ := Option.map_eq_some_iff.mp hexpand
    obtain rfl := Option.some.inj hexec
    have hrow : i.ops sym = ops := by
      rw [SubWordInst.expand, if_pos ((encodable_iff i).mpr hallowed.2)] at hops
      exact Option.some.inj hops
    subst hrow
    have hwidth : ∀ k < i.width, ¬InScratch (t.x 2) (i.address t.x + BitVec.ofNat 32 k) := by
      intro k hk
      refine hclear _ ?_
      cases i with
      | lb rd imm base | lh rd imm base | lhu rd imm base =>
        exact .inl (bytes_mem hk (by simp))
      | sh rs imm base => exact .inr (bytes_mem hk (by simp))
    obtain ⟨u, hrun, hupc, hagrees⟩ := subWord_meets hallowed.1 hallowed.2 code t hplaced hlinked
      hwidth
    rw [List.length_map]
    exact ⟨_, u, hrun, hupc, hagrees.x, fun a ha => hagrees.mem a fun hs => ha (.inl hs)⟩
  | branch i target =>
    obtain his := Option.some.inj hexpand
    obtain rfl := Option.some.inj hexec
    obtain ⟨ops, sel, d, hcode, hdecides, htaken⟩ := resolves_branchInst i (ofCore t.toCore) target
      (after t.pc is.length) hallowed hlinked
    rw [his] at hcode
    obtain ⟨u, hrun, hupc, hkeep⟩ := branches_of_decides hdecides (hcode ▸ hplaced)
      (even_and haligned) (even_and (even_after is.length hpc))
    have htaken' : i.taken t.x = (d == sel) := htaken
    refine ⟨_, u, hrun, ?_, hkeep.keep, fun a ha => ?_⟩
    · rw [hupc, htaken']
      cases d <;> cases sel <;> rfl
    · exact hkeep.mem a (fun hs => ha (.inl hs)) fun hr => ha (.inr hr)
  | jal rd target =>
    obtain rfl := Option.some.inj hexpand
    obtain rfl := Option.some.inj hexec
    by_cases h0 : (rd : Reg) = 0
    · -- both spellings of the zero register become `j`
      have hj : Macros.jal rd target = Macros.j target := by
        cases rd with
        | x n =>
          obtain rfl : n = 0 := h0
          rfl
        | abi n =>
          obtain rfl : n = 0 := h0
          rfl
        | fp => cases h0
      rw [hj] at hplaced
      have hrealizes : Realizes sym code t _ := realizes_j hplaced haligned
      simpa only [h0, RegFile.set_zero] using hrealizes
    · have hcall : Macros.jal rd target = Macros.callTemplate rd target := by
        rw [Macros.jal, if_neg fun h => h0 (by rw [h]; rfl), if_neg fun h => h0 (by rw [h]; rfl)]
      rw [hcall] at hplaced ⊢
      obtain ⟨n, hrun⟩ := run_callTemplate h0 hallowed hplaced haligned
      exact hone hrun
  | call target =>
    obtain rfl := Option.some.inj hexpand
    obtain rfl := Option.some.inj hexec
    obtain ⟨n, hrun⟩ := run_callTemplate (by decide) (by decide) hplaced haligned
    exact hone hrun
  | tail target =>
    obtain rfl := Option.some.inj hexpand
    obtain rfl := Option.some.inj hexec
    exact realizes_tail hplaced haligned
  | j target =>
    obtain rfl := Option.some.inj hexpand
    obtain rfl := Option.some.inj hexec
    exact realizes_j hplaced haligned
  | jalr rd rs1 imm =>
    obtain rfl := Option.some.inj hexpand
    obtain rfl := Option.some.inj hexec
    have hstep : step (fun s => code s.pc) t = some { t with
        x := t.x.set rd (t.pc + 4), pc := (t.x rs1 + imm.signExtend 32) &&& ~~~1 } := by
      rw [step, hplaced.1]
      rfl
    exact hone (runN_succ_of_step hstep 0)
  | ebreak => cases hexec

end Expansions

end Riscv32Cpu.Rvmini.Lines
