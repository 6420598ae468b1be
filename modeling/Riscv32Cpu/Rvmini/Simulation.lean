/- module: Riscv32Cpu/Rvmini/Simulation
   source: CODE/abstract-machine/tools/rvmini/inst-replace.h
   digest: A program keeps its meaning when the header rewrites it, over whole runs. -/

import Riscv32Cpu.Rvmini.Lines

set_option autoImplicit false
set_option relaxedAutoImplicit false

namespace Riscv32Cpu.Rvmini.Simulation

open Riscv32Cpu.Lib.Memory Riscv32Cpu.Lib.Run Riscv32Cpu.Isa.Rv32i Riscv32Cpu.Rvmini.Scratch
open Riscv32Cpu.Rvmini.Tables Riscv32Cpu.Rvmini.Meaning Riscv32Cpu.Rvmini.Equality
open Riscv32Cpu.Rvmini.SubWord Riscv32Cpu.Rvmini.Image Riscv32Cpu.Rvmini.Assembly
open Riscv32Cpu.Rvmini.Lines
open Riscv32Cpu.Rvmini.Macros (Symbols)

def onTables (sym : Symbols) : Set Word :=
  bytes sym.sameResultTable 8 ∪ bytes sym.check8bit0Table 256 ∪ bytes sym.slt1Table 8 ∪
    bytes sym.sltu1Table 8 ∪ bytes sym.or1Table 4 ∪ bytes sym.logicShiftTable 294912

section Tables

variable {sym : Symbols} {v : Word} {m m' : Mem 32}

theorem At.congr {base : Word} {t : List Byte} {n : Nat} (h : At v m base t) (hn : t.length = n)
    (hmax : n ≤ 2 ^ 32) (hm : ∀ a ∈ bytes base n, m' a = m a) : At v m' base t := by
  intro k hk
  obtain ⟨hclear, hbyte⟩ := h k hk
  exact ⟨hclear, (hm _ (bytes_mem (hn ▸ hk) hmax)).trans hbyte⟩

theorem At.clear {base : Word} {t : List Byte} {n : Nat} (h : At v m base t) (hn : t.length = n)
    {a : Word} (ha : a ∈ bytes base n) : ¬InScratch v a := by
  have hat := (h (a - base).toNat (hn ▸ ha)).1
  rwa [BitVec.ofNat_toNat, BitVec.setWidth_eq, BitVec.add_comm, BitVec.sub_add_cancel] at hat

theorem length_sameResult : sameResultBytes.length = 8 := rfl
theorem length_slt1 : slt1Bytes.length = 8 := rfl
theorem length_sltu1 : sltu1Bytes.length = 8 := rfl
theorem length_or1 : or1Bytes.length = 4 := rfl

theorem Linked.congr (h : Linked sym v m) (hm : ∀ a ∈ onTables sym, m' a = m a) :
    Linked sym v m' where
  sameResult := At.congr h.sameResult length_sameResult (by decide) fun a ha =>
    hm a (by simp [onTables, ha])
  check8bit0 := At.congr h.check8bit0 Image.length_check8bit0Bytes (by decide) fun a ha =>
    hm a (by simp [onTables, ha])
  slt1 := At.congr h.slt1 length_slt1 (by decide) fun a ha => hm a (by simp [onTables, ha])
  sltu1 := At.congr h.sltu1 length_sltu1 (by decide) fun a ha => hm a (by simp [onTables, ha])
  or1 := At.congr h.or1 length_or1 (by decide) fun a ha => hm a (by simp [onTables, ha])
  lut := At.congr h.lut length_lutBin (by decide) fun a ha => hm a (by simp [onTables, ha])
  checkSame := h.checkSame
  checkSame_apart := h.checkSame_apart

theorem Linked.clear (h : Linked sym v m) {a : Word} (ha : a ∈ onTables sym) :
    ¬InScratch v a := by
  rcases ha with ((((ha | ha) | ha) | ha) | ha) | ha
  · exact At.clear h.sameResult length_sameResult ha
  · exact At.clear h.check8bit0 Image.length_check8bit0Bytes ha
  · exact At.clear h.slt1 length_slt1 ha
  · exact At.clear h.sltu1 length_sltu1 ha
  · exact At.clear h.or1 length_or1 ha
  · exact At.clear h.lut length_lutBin ha

end Tables

/-- A hart of the source program, with the addresses whose contents the macros have spoilt. -/
structure Hart where
  state : State
  stale : Set Word

/-- What a line leaves stale: what was stale and is not stored anew, the words below `sp`, and
the array of `seq`. -/
def staleAfter (sym : Symbols) (l : Line Word) (h : Hart) : Set Word :=
  h.stale \ l.stores h.state.x ∪ scratchArea sym (h.state.x 2)

/-- The assumptions of the header, at one line of a run: `sp` and the tables are sound, memory
below `sp` is not used, and what a line loads is not stale. -/
structure Careful (sym : Symbols) (l : Line Word) (h : Hart) : Prop where
  allowed : l.Allowed
  sources : ∀ r ∈ l.sources, r ≠ 3 ∧ r ≠ 4
  linked : Linked sym (h.state.x 2) h.state.mem
  fresh : ∀ a ∈ l.loads h.state.x, a ∉ h.stale
  clear : ∀ a, a ∈ l.loads h.state.x ∨ a ∈ l.stores h.state.x → ¬InScratch (h.state.x 2) a

/-- The source program's step. -/
def hartStep (sym : Symbols) (prog : Listing) (h : Hart) : Option Hart :=
  (prog h.state.pc).bind fun e =>
    (e.line.exec e.next h.state).map fun s => ⟨s, staleAfter sym e.line h⟩

def CarefulAt (sym : Symbols) (prog : Listing) (h : Hart) : Prop :=
  ∀ e, prog h.state.pc = some e → Careful sym e.line h

/-- The hart `t` of the rewritten program stands for `h`, and no table is stale. -/
structure Stands (sym : Symbols) (h : Hart) (t : State) : Prop where
  mirrors : Mirrors h.stale h.state t
  tables : ∀ a ∈ onTables sym, a ∉ h.stale

section Runs

variable {sym : Symbols} {prog : Listing} {code : Code}

/-- The linker put the array of `seq` apart from the tables. -/
def Apart (sym : Symbols) : Prop := ∀ a ∈ onTables sym, a ∉ checkSameRegion sym

theorem apart_symbolsAt (base : Word) : Apart (symbolsAt base) := by
  have hout : ∀ {a : Word} {k n : Nat}, 256 ≤ k → k + n ≤ 2 ^ 32 →
      a ∈ bytes (base + BitVec.ofNat 32 k) n → ¬(a - base).toNat < 256 := by
    intro a k n hk hn ha hlt
    rw [bytes, Set.mem_ofPred_eq, toNat_sub_add a base k (by omega)] at ha
    split at ha <;> omega
  intro a ha
  rcases ha with ((((ha | ha) | ha) | ha) | ha) | ha
  · exact hout (k := 256) (by omega) (by omega) ha
  · exact hout (k := 264) (by omega) (by omega) ha
  · exact hout (k := 520) (by omega) (by omega) ha
  · exact hout (k := 528) (by omega) (by omega) ha
  · exact hout (k := 536) (by omega) (by omega) ha
  · exact hout (k := 768) (by omega) (by omega) ha

theorem accesses_mirror {h : Hart} {t : State} {l : Line Word} (hm : Mirrors h.stale h.state t)
    (hcareful : Careful sym l h) :
    l.loads t.x = l.loads h.state.x ∧ l.stores t.x = l.stores h.state.x := by
  have hx : ∀ r ∈ l.sources, t.x r = h.state.x r :=
    fun r hr => hm.x r (hcareful.sources r hr).1 (hcareful.sources r hr).2
  cases l with
  | op o =>
    cases o <;> simp_all [Line.loads, Line.stores, opLoads, opStores, Line.sources, opSources]
  | subWord i =>
    have hbase : t.x i.base = h.state.x i.base := hx _ (by simp [Line.sources])
    have haddr : i.address t.x = i.address h.state.x := by
      rw [SubWordInst.address, SubWordInst.address, hbase]
    cases i <;> simp only [Line.loads, Line.stores, haddr, and_self]
  | _ => exact ⟨rfl, rfl⟩

theorem step_stands (hassembled : Assembled sym prog code) (hapart : Apart sym) {h h' : Hart}
    {t : State} (hstands : Stands sym h t) (hcareful : CarefulAt sym prog h)
    (hstep : hartStep sym prog h = some h') :
    ∃ n t', runN (step fun s => code s.pc) n t = some t' ∧ Stands sym h' t' := by
  obtain ⟨e, he, hmap⟩ := Option.bind_eq_some_iff.mp hstep
  obtain ⟨s', hexec, rfl⟩ := Option.map_eq_some_iff.mp hmap
  have hc := hcareful e he
  have hsp : t.x 2 = h.state.x 2 := hstands.mirrors.x 2 (by decide) (by decide)
  obtain ⟨is, hexpand, hplaced, hnext⟩ := hassembled.placed he
  obtain ⟨heven, haligned⟩ := hassembled.even he
  obtain ⟨t₁, hexec₁, hm₁⟩ := exec_mirrors hstands.mirrors hc.sources hc.fresh hexec
  have hlinked : Linked sym (t.x 2) t.mem := by
    rw [hsp]
    exact Linked.congr hc.linked fun a ha => hstands.mirrors.mem a (hstands.tables a ha)
  obtain ⟨hloads, hstores⟩ := accesses_mirror hstands.mirrors hc
  rw [← hstands.mirrors.pc] at hplaced hnext heven
  rw [hnext] at hexpand hexec₁
  obtain ⟨n, u, hrun, hm₂⟩ := line_realizes hc.allowed haligned hexpand hplaced heven hlinked
    (by rw [hloads, hstores, hsp]; exact hc.clear) hexec₁
  rw [hsp] at hm₂
  refine ⟨n, u, hrun, hm₁.trans hm₂, fun a ha hstale => ?_⟩
  rcases hstale with hold | hscratch | hregion
  · exact hstands.tables a ha hold.1
  · exact Linked.clear hc.linked ha hscratch
  · exact hapart a ha hregion

/-- A program keeps its meaning: however many lines it runs, as long as they keep to the
header's assumptions, the rewritten program reaches a hart that stands for the same state. -/
theorem rewritten_program_simulates (hassembled : Assembled sym prog code) (hapart : Apart sym)
    {n : Nat} {h h' : Hart} {t : State} (hstands : Stands sym h t)
    (hrun : runN (hartStep sym prog) n h = some h')
    (hcareful : ∀ k < n, ∀ g, runN (hartStep sym prog) k h = some g → CarefulAt sym prog g) :
    ∃ m t', runN (step fun s => code s.pc) m t = some t' ∧ Stands sym h' t' :=
  runN_simulation_steps (fun _ _ _ hs hc hstep => step_stands hassembled hapart hs hc hstep) hrun
    hcareful hstands

end Runs

/-- `lb a0, 0(a1)`, alone in a program. -/
def lbProg (is : List Inst) : Listing := fun a =>
  if a = 0x80000000#32 then
    some ⟨.subWord (.lb (.abi 10) 0 (.abi 11)), after 0x80000000#32 is.length⟩
  else none

/-- It loads the byte above the stack, which is zero, on the rewritten hart too. -/
theorem lbProg_simulates : ∃ (code : Code) (m : Nat) (t : State),
    runN (step fun s => code s.pc) m (hartWith 5 stackTop) = some t ∧ t.x 10 = 0 := by
  let i : SubWordInst := .lb (.abi 10) 0 (.abi 11)
  let is : List Inst := (i.ops (symbolsAt sectionBase)).map .op
  have hlen : is.length = 12 := by
    simp [is, i, SubWordInst.ops, Macros.lb, Macros.srai, Shift.shiftRightTemplate_fast,
      Macros.slli, Macros.la]
  have hplaced : Placed (codeAt 0x80000000#32 is) 0x80000000#32 is :=
    placed_codeAt (by rw [hlen]; decide)
  have hassembled : Assembled (symbolsAt sectionBase) (lbProg is) (codeAt 0x80000000#32 is) := by
    refine ⟨fun {pc e} he => ?_, fun {pc e} he => ?_⟩ <;> unfold lbProg at he <;>
      split at he <;> cases he <;> subst pc
    · exact ⟨is, rfl, hplaced, rfl⟩
    · exact ⟨by decide, trivial⟩
  have hrun : runN (hartStep (symbolsAt sectionBase) (lbProg is)) 1 ⟨hartWith 5 stackTop, ∅⟩ =
      some ⟨{ i.exec (hartWith 5 stackTop).toCore with pc := after 0x80000000#32 is.length },
        staleAfter (symbolsAt sectionBase) (.subWord i) ⟨hartWith 5 stackTop, ∅⟩⟩ := rfl
  obtain ⟨m, t, ht, hstands⟩ := rewritten_program_simulates hassembled
    (apart_symbolsAt sectionBase) (h := ⟨hartWith 5 stackTop, ∅⟩)
    ⟨Mirrors.refl _ _, fun a _ ha => ha⟩ hrun (by
      intro k hk g hg e he
      obtain rfl : k = 0 := by omega
      obtain rfl := Option.some.inj hg
      obtain rfl : ⟨.subWord i, after 0x80000000#32 is.length⟩ = e := Option.some.inj he
      refine ⟨by decide, by decide, hartWith_linked _ _, fun _ _ => id, fun a ha => ?_⟩
      have hzero : (a - stackTop).toNat < 1 := by
        rcases ha with ha | ha
        · exact ha
        · exact ha.elim
      obtain rfl : a = stackTop :=
        sub_eq_zero.mp (BitVec.eq_of_toNat_eq (Nat.lt_one_iff.mp hzero))
      exact (by decide : ¬InScratch stackTop stackTop))
  refine ⟨_, m, t, ht, ?_⟩
  have hmem : (hartWith 5 stackTop).mem = imageMem sectionBase := by
    unfold hartWith
    dsimp only
  have hbyte : (hartWith 5 stackTop).mem stackTop = 0 := by
    rw [hmem]
    exact imageMem_out (by decide)
  rw [hstands.mirrors.x 10 (by decide) (by decide)]
  show ((hartWith 5 stackTop).mem stackTop).signExtend 32 = 0
  rw [hbyte]
  decide

/-- A line that leaves memory alone, and `sp` where it is no macro. -/
def Quiet {L : Type} : Line L → Prop
  | .op (.add rd _ _) | .op (.addi rd _ _) | .op (.lui rd _) => rd ≠ 2
  | .op (.lw ..) | .op (.lbu ..) | .op (.sw ..) | .op (.sb ..) | .subWord _ => False
  | .jalr rd _ _ => (rd : Reg) ≠ 2
  | .la .. | .logic _ | .shift _ | .set _ | .seqz .. | .branch .. | .jal .. | .call _ | .tail _
  | .j _ | .ebreak => True

instance {L : Type} : DecidablePred (Quiet (L := L))
  | .op (.add rd _ _) | .op (.addi rd _ _) | .op (.lui rd _) => inferInstanceAs (Decidable (rd ≠ 2))
  | .op (.lw ..) | .op (.lbu ..) | .op (.sw ..) | .op (.sb ..) | .subWord _ => instDecidableFalse
  | .jalr rd _ _ => inferInstanceAs (Decidable ((rd : Reg) ≠ 2))
  | .la .. | .logic _ | .shift _ | .set _ | .seqz .. | .branch .. | .jal .. | .call _ | .tail _
  | .j _ | .ebreak => instDecidableTrue

structure InRegisters {L : Type} (l : Line L) : Prop where
  quiet : Quiet l
  allowed : l.Allowed
  sources : ∀ r ∈ l.sources, r ≠ 3 ∧ r ≠ 4

instance {L : Type} (l : Line L) : Decidable (InRegisters l) :=
  decidable_of_iff (Quiet l ∧ l.Allowed ∧ ∀ r ∈ l.sources, r ≠ 3 ∧ r ≠ 4)
    ⟨fun h => ⟨h.1, h.2.1, h.2.2⟩, fun h => ⟨h.1, h.2, h.3⟩⟩

theorem InRegisters.map {L M : Type} {l : Line L} (h : InRegisters l) (f : L → M) :
    InRegisters (l.map f) := by
  obtain ⟨hquiet, hallowed, hsources⟩ := h
  cases l with
  | op o => cases o <;> exact ⟨hquiet, hallowed, hsources⟩
  | _ => exact ⟨hquiet, hallowed, hsources⟩

section InRegisters

variable {sym : Symbols} {prog : Listing} {code : Code} {l : Line Word}

theorem InRegisters.accesses (h : InRegisters l) (x : RegFile) : l.loads x = ∅ ∧ l.stores x = ∅ := by
  have hquiet := h.quiet
  cases l with
  | op o =>
    cases o with
    | add rd rs1 rs2 | addi rd rs1 imm | lui rd imm => exact ⟨rfl, rfl⟩
    | _ => exact hquiet.elim
  | subWord i => exact hquiet.elim
  | _ => exact ⟨rfl, rfl⟩

theorem InRegisters.exec (h : InRegisters l) {next : Word} {s s' : State}
    (hexec : l.exec next s = some s') : s'.mem = s.mem ∧ s'.x 2 = s.x 2 := by
  have hset : ∀ {d : Reg} (v : Word), d ≠ 2 → s.x.set d v 2 = s.x 2 :=
    fun v hd => RegFile.set_ne _ _ hd.symm
  have hquiet := h.quiet
  have hallowed := h.allowed
  cases l with
  | op o =>
    obtain rfl := Option.some.inj hexec
    cases o with
    | add rd rs1 rs2 | addi rd rs1 imm | lui rd imm => exact ⟨rfl, hset _ hquiet⟩
    | _ => exact hquiet.elim
  | subWord i => exact hquiet.elim
  | la rd addr | jal rd target =>
    obtain rfl := Option.some.inj hexec
    exact ⟨rfl, hset _ hallowed⟩
  | logic i =>
    obtain rfl := Option.some.inj hexec
    refine ⟨rfl, hset _ ?_⟩
    cases i <;> exact hallowed.1.1
  | shift i =>
    obtain rfl := Option.some.inj hexec
    refine ⟨rfl, hset _ ?_⟩
    cases i <;> exact hallowed.1.1
  | set i =>
    obtain rfl := Option.some.inj hexec
    refine ⟨rfl, hset _ ?_⟩
    cases i <;> exact hallowed.1.1
  | seqz rd rs =>
    obtain rfl := Option.some.inj hexec
    exact ⟨rfl, hset _ hallowed.1⟩
  | branch i target | tail target | j target =>
    obtain rfl := Option.some.inj hexec
    exact ⟨rfl, rfl⟩
  | call target =>
    obtain rfl := Option.some.inj hexec
    exact ⟨rfl, hset _ (by decide)⟩
  | jalr rd rs1 imm =>
    obtain rfl := Option.some.inj hexec
    exact ⟨rfl, hset _ hquiet⟩
  | ebreak => cases hexec

/-- What such code keeps: the linked image, `sp`, and nothing stale but what macros spoil. -/
structure Settled (sym : Symbols) (v : Word) (h : Hart) : Prop where
  linked : Linked sym (h.state.x 2) h.state.mem
  sp : h.state.x 2 = v
  stale : h.stale ⊆ scratchArea sym v

theorem Settled.step {v : Word} (hprog : ∀ {pc e}, prog pc = some e → InRegisters e.line)
    {h h' : Hart} (hs : Settled sym v h) (hstep : hartStep sym prog h = some h') :
    Settled sym v h' := by
  obtain ⟨e, he, hmap⟩ := Option.bind_eq_some_iff.mp hstep
  obtain ⟨s', hexec, rfl⟩ := Option.map_eq_some_iff.mp hmap
  obtain ⟨hmem, hsp⟩ := (hprog he).exec hexec
  refine ⟨by rw [hmem, hsp]; exact hs.linked, hsp.trans hs.sp, ?_⟩
  rw [staleAfter, hs.sp]
  exact Set.union_subset (fun a ha => hs.stale ha.1) (Set.Subset.refl _)

theorem Settled.careful {v : Word} (hprog : ∀ {pc e}, prog pc = some e → InRegisters e.line)
    {h : Hart} (hs : Settled sym v h) : CarefulAt sym prog h := by
  intro e he
  have hline := hprog he
  obtain ⟨hloads, hstores⟩ := hline.accesses h.state.x
  refine ⟨hline.allowed, hline.sources, hs.linked, fun a ha => ?_, fun a ha => ?_⟩
  · rw [hloads] at ha
    exact ha.elim
  · rw [hloads, hstores] at ha
    exact (or_self_iff.mp ha).elim

theorem realizes_of_inRegisters (hassembled : Assembled sym prog code) (hapart : Apart sym)
    (hprog : ∀ {pc e}, prog pc = some e → InRegisters e.line) {t s' : State}
    (hlinked : Linked sym (t.x 2) t.mem) (hrun : Lib.Run.Reaches prog.step t s') :
    Realizes sym code t s' := by
  obtain ⟨n, hn⟩ := hrun
  let h₀ : Hart := ⟨t, ∅⟩
  have hsettled : Settled sym (t.x 2) h₀ := ⟨hlinked, rfl, Set.empty_subset _⟩
  have hstands : Stands sym h₀ t := ⟨Mirrors.refl _ _, fun a _ ha => ha⟩
  -- the source hart and the plain source program take the same steps
  have hsim : ∃ h', runN (hartStep sym prog) n h₀ = some h' ∧ h'.state = s' := by
    refine runN_simulation (r := fun s (h : Hart) => h.state = s)
      (fun s u h hr (_ : True) hstep => ?_) hn
      (fun _ _ _ _ => trivial) rfl
    obtain ⟨e, he, hexec⟩ := Option.bind_eq_some_iff.mp hstep
    rw [← hr] at he hexec
    refine ⟨⟨u, staleAfter sym e.line h⟩, ?_, rfl⟩
    rw [hartStep, he, Option.bind_some, hexec, Option.map_some]
  obtain ⟨h', hrun', hstate⟩ := hsim
  have hinv : ∀ {k : Nat} {g : Hart}, runN (hartStep sym prog) k h₀ = some g →
      Settled sym (t.x 2) g := fun hg =>
    runN_invariant (fun _ _ hp hs => Settled.step hprog hp hs) hg hsettled
  obtain ⟨m, t', hm, hstands'⟩ := rewritten_program_simulates hassembled hapart hstands hrun'
    fun k _ g hg => (hinv hg).careful hprog
  rw [← hstate]
  exact ⟨m, t', hm, hstands'.mirrors.mono (hinv hrun').stale⟩

end InRegisters

end Riscv32Cpu.Rvmini.Simulation
