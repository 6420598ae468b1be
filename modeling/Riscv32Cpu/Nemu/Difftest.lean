/- module: Riscv32Cpu/Nemu/Difftest
   source: CODE/nemu/src/cpu/difftest/dut.c, src/cpu/cpu-exec.c
   digest: Differential testing: when a step that is not complained about means equal registers. -/

import Riscv32Cpu.Nemu.Cpu

set_option autoImplicit false
set_option relaxedAutoImplicit false

namespace Riscv32Cpu.Nemu.Difftest

open Riscv32Cpu.Lib.Effect Riscv32Cpu.Lib.Memory Riscv32Cpu.Isa.Rv32i Riscv32Cpu.Nemu.Memory
open Riscv32Cpu.Nemu.Decode

/-- The functions `init_difftest` finds in the shared object of the reference: `ref_difftest_exec(1)`
and the two directions of `ref_difftest_regcpy`. -/
structure Reference (σ : Type) where
  exec : σ → σ
  toDut : σ → CpuState
  toRef : CpuState → σ → σ
  toDut_toRef : ∀ cpu s, toDut (toRef cpu s) = cpu

/-- NEMU under test: its globals, the two of `dut.c`, and the state of the reference. The `int` is
an integer, its overflow being undefined. -/
structure Tested (σ : Type) where
  machine : Machine
  isSkipRef : Bool
  skipDutNrInst : Int
  ref : σ

variable {σ : Type}

abbrev D (σ : Type) := EStateM String (Tested σ)

section

variable (R : Reference σ) (isaDifftestCheckregs : CpuState → CpuState → Word → Bool)

def difftestSkipRef : D σ Unit := modify fun s => { s with isSkipRef := true, skipDutNrInst := 0 }

/-- `n` calls of `ref_difftest_exec(1)`. -/
def refExec : Nat → D σ Unit
  | 0 => return
  | n + 1 => do
    modify fun s => { s with ref := R.exec s.ref }
    refExec n

def difftestSkipDut (nrRef nrDut : Int) : D σ Unit := do
  modify fun s => { s with skipDutNrInst := s.skipDutNrInst + nrDut }
  refExec R nrRef.toNat

/-- The registers that `isa_reg_display` prints are left out. -/
def checkregs (ref : CpuState) (pc : Word) : D σ Unit := do
  if !isaDifftestCheckregs (← get).machine.cpu ref pc then
    modify fun s => { s with machine := { s.machine with
      nemuState := { s.machine.nemuState with state := .abort, haltPc := pc } } }

def difftestStep (pc npc : Word) : D σ Unit := do
  let s ← get
  if s.skipDutNrInst > 0 then
    let refR := R.toDut s.ref
    if refR.pc = npc then
      set { s with skipDutNrInst := 0 }
      checkregs isaDifftestCheckregs refR npc
    else
      set { s with skipDutNrInst := s.skipDutNrInst - 1 }
      ensure (s.skipDutNrInst - 1 ≠ 0)
        ("can not catch up with ref.pc = " ++ fmtWord refR.pc ++ " at pc = " ++ fmtWord pc)
  else if s.isSkipRef then
    set { s with ref := R.toRef s.machine.cpu s.ref, isSkipRef := false }
  else
    refExec R 1
    checkregs isaDifftestCheckregs (R.toDut (← get).ref) pc

/-- What can happen to a machine under test: anything that the DUT does by itself, the requests,
and the comparison. -/
inductive Event
  | dut (m : Machine)
  | skipRef
  | skipDut (nrRef nrDut : Int)
  | step (pc npc : Word)

def Event.run : Event → D σ Unit
  | .dut m => modify fun s => { s with machine := m }
  | .skipRef => difftestSkipRef
  | .skipDut nrRef nrDut => difftestSkipDut R nrRef nrDut
  | .step pc npc => difftestStep R isaDifftestCheckregs pc npc

def runEvents : List Event → D σ Unit
  | [] => return
  | event :: events => do
    event.run R isaDifftestCheckregs
    runEvents events

end

variable {R : Reference σ} {isaDifftestCheckregs : CpuState → CpuState → Word → Bool}

/-- The comparison passes equal registers only. -/
def Compares (check : CpuState → CpuState → Word → Bool) : Prop :=
  ∀ cpu ref pc, check cpu ref pc = true ↔ ref = cpu

theorem checkregs_eq (ref : CpuState) (pc : Word) (s : Tested σ) :
    checkregs isaDifftestCheckregs ref pc s = .ok ()
      (if isaDifftestCheckregs s.machine.cpu ref pc then s else { s with machine := { s.machine with
        nemuState := { s.machine.nemuState with state := .abort, haltPc := pc } } }) := by
  have hget : (get : D σ (Tested σ)) s = .ok s s := rfl
  rw [checkregs, bind_of_ok hget]
  cases isaDifftestCheckregs s.machine.cpu ref pc with
  | true => rfl
  | false => rfl

theorem checkregs_agrees (hcheck : Compares isaDifftestCheckregs) {ref : CpuState} {pc : Word}
    {s s' : Tested σ} (h : checkregs isaDifftestCheckregs ref pc s = .ok () s')
    (habort : s'.machine.nemuState.state ≠ .abort) : s' = s ∧ ref = s'.machine.cpu := by
  rw [checkregs_eq] at h
  cases hc : isaDifftestCheckregs s.machine.cpu ref pc with
  | true =>
    rw [hc] at h
    cases h
    exact ⟨rfl, (hcheck _ _ _).mp hc⟩
  | false =>
    rw [hc] at h
    cases h
    exact absurd rfl habort

theorem difftestStep_cases {pc npc : Word} {s s' : Tested σ}
    (h : difftestStep R isaDifftestCheckregs pc npc s = .ok () s') :
    (0 < s.skipDutNrInst ∧ (R.toDut s.ref).pc = npc ∧
      checkregs isaDifftestCheckregs (R.toDut s.ref) npc { s with skipDutNrInst := 0 } =
        .ok () s') ∨
    (0 < s.skipDutNrInst ∧ s.skipDutNrInst - 1 ≠ 0 ∧
      s' = { s with skipDutNrInst := s.skipDutNrInst - 1 }) ∨
    (¬0 < s.skipDutNrInst ∧ s.isSkipRef = true ∧
      s' = { s with ref := R.toRef s.machine.cpu s.ref, isSkipRef := false }) ∨
    (¬0 < s.skipDutNrInst ∧ s.isSkipRef = false ∧
      checkregs isaDifftestCheckregs (R.toDut (R.exec s.ref)) pc { s with ref := R.exec s.ref } =
        .ok () s') := by
  have hget : (get : D σ (Tested σ)) s = .ok s s := rfl
  rw [difftestStep, bind_of_ok hget] at h
  by_cases hskip : s.skipDutNrInst > 0
  · rw [if_pos hskip] at h
    by_cases hpc : (R.toDut s.ref).pc = npc
    · have hset : checkregs isaDifftestCheckregs (R.toDut s.ref) npc { s with skipDutNrInst := 0 } =
          .ok () s' := by
        rw [if_pos hpc] at h
        exact h
      exact .inl ⟨hskip, hpc, hset⟩
    · rw [if_neg hpc] at h
      obtain ⟨u, t, hset, hleft⟩ := bind_eq_ok h
      cases hset
      exact .inr (.inl ⟨hskip, ensure_ok hleft⟩)
  · rw [if_neg hskip] at h
    by_cases hskipRef : s.isSkipRef = true
    · rw [if_pos hskipRef] at h
      cases h
      exact .inr (.inr (.inl ⟨hskip, hskipRef, rfl⟩))
    · rw [if_neg hskipRef] at h
      exact .inr (.inr (.inr ⟨hskip, Bool.eq_false_of_not_eq_true hskipRef, h⟩))

/-- After a comparison that had nothing to complain about and is not still catching up, the two
designs agree. -/
theorem difftestStep_agrees (hcheck : Compares isaDifftestCheckregs) {pc npc : Word}
    {s s' : Tested σ} (h : difftestStep R isaDifftestCheckregs pc npc s = .ok () s')
    (habort : s'.machine.nemuState.state ≠ .abort) (hskip : s'.skipDutNrInst = 0) :
    R.toDut s'.ref = s'.machine.cpu := by
  rcases difftestStep_cases h with ⟨-, -, hregs⟩ | ⟨-, hleft, rfl⟩ | ⟨-, -, rfl⟩ | ⟨-, -, hregs⟩
  · obtain ⟨rfl, heq⟩ := checkregs_agrees hcheck hregs habort
    exact heq
  · exact absurd hskip hleft
  · exact R.toDut_toRef _ _
  · obtain ⟨rfl, heq⟩ := checkregs_agrees hcheck hregs habort
    exact heq

theorem runEvents_append {l k : List Event} {s s' : Tested σ}
    (h : runEvents R isaDifftestCheckregs (l ++ k) s = .ok () s') :
    ∃ t, runEvents R isaDifftestCheckregs l s = .ok () t ∧
      runEvents R isaDifftestCheckregs k t = .ok () s' := by
  induction l generalizing s with
  | nil => exact ⟨s, rfl, h⟩
  | cons event l ih =>
    obtain ⟨u, t, hevent, hrest⟩ := bind_eq_ok h
    obtain ⟨t', hl, hk⟩ := ih hrest
    exact ⟨t', (bind_of_ok hevent).trans hl, hk⟩

/-- Whatever the DUT did and whatever was requested before. -/
theorem difftest_sound (R : Reference σ)
    (isaDifftestCheckregs : CpuState → CpuState → Word → Bool)
    (hcheck : Compares isaDifftestCheckregs) (past : List Event) (pc npc : Word) (s s' : Tested σ)
    (h : runEvents R isaDifftestCheckregs (past ++ [.step pc npc]) s = .ok () s')
    (habort : s'.machine.nemuState.state ≠ .abort) (hskip : s'.skipDutNrInst = 0) :
    R.toDut s'.ref = s'.machine.cpu := by
  obtain ⟨t, -, hlast⟩ := runEvents_append h
  obtain ⟨u, t', hstep, hend⟩ := bind_eq_ok hlast
  cases hend
  exact difftestStep_agrees hcheck hstep habort hskip

/-- A part of the interpreter that does not know of the reference. -/
def liftDut {α : Type} (x : M α) : D σ α := fun s =>
  match x s.machine with
  | .ok a m => .ok a { s with machine := m }
  | .error e m => .error e { s with machine := m }

/-- The loop of `execute` with `CONFIG_DIFFTEST` set. An instruction that leaves the machine not
running has called `set_nemu_state`, and with it `difftest_skip_ref`. -/
def executeLoop (R : Reference σ) (isaDifftestCheckregs : CpuState → CpuState → Word → Bool)
    (pmem : BitVec 64) (csDisasm : Word → Word → Nat) : Nat → DecodeInfo → D σ Unit
  | 0, _ => return
  | n + 1, s => do
    let s ← liftDut (Cpu.execOnce pmem csDisasm s (← get).machine.cpu.pc)
    liftDut (modify fun m => { m with gNrGuestInst := m.gNrGuestInst + 1 })
    (if (← get).machine.nemuState.state ≠ .running then difftestSkipRef else return)
    difftestStep R isaDifftestCheckregs s.pc (← get).machine.cpu.pc
    (if (← get).machine.nemuState.state ≠ .running then return else
      executeLoop R isaDifftestCheckregs pmem csDisasm n s)

theorem liftDut_ok {α : Type} {x : M α} {s s' : Tested σ} {a : α}
    (h : liftDut x s = .ok a s') : ∃ m, s' = { s with machine := m } := by
  unfold liftDut at h
  split at h
  · cases h
    exact ⟨_, rfl⟩
  · cases h

theorem checkregs_skip {ref : CpuState} {pc : Word} {s s' : Tested σ}
    (h : checkregs isaDifftestCheckregs ref pc s = .ok () s') :
    s'.skipDutNrInst = s.skipDutNrInst := by
  rw [checkregs_eq] at h
  cases h
  split
  · rfl
  · rfl

theorem difftestStep_skip {pc npc : Word} {s s' : Tested σ} (hs : s.skipDutNrInst = 0)
    (h : difftestStep R isaDifftestCheckregs pc npc s = .ok () s') : s'.skipDutNrInst = 0 := by
  rcases difftestStep_cases h with ⟨hpos, -⟩ | ⟨hpos, -⟩ | ⟨-, -, rfl⟩ | ⟨-, -, hregs⟩
  · omega
  · omega
  · exact hs
  · exact (checkregs_skip hregs).trans hs

theorem executeLoop_agrees (hcheck : Compares isaDifftestCheckregs) {pmem : BitVec 64}
    {csDisasm : Word → Word → Nat} {n : Nat} {d : DecodeInfo} {s s' : Tested σ}
    (hskip : s.skipDutNrInst = 0) (hstart : R.toDut s.ref = s.machine.cpu)
    (h : executeLoop R isaDifftestCheckregs pmem csDisasm n d s = .ok () s') :
    s'.machine.nemuState.state = .abort ∨ R.toDut s'.ref = s'.machine.cpu := by
  induction n generalizing d s with
  | zero =>
    cases h
    exact .inr hstart
  | succ n ih =>
    obtain ⟨x, t₀, hget, hexec⟩ := bind_eq_ok h
    cases hget
    obtain ⟨d', t₁, hexec, hcount⟩ := bind_eq_ok hexec
    obtain ⟨m₁, rfl⟩ := liftDut_ok hexec
    obtain ⟨u₂, t₂, hcount, hrequest⟩ := bind_eq_ok hcount
    obtain ⟨m₂, rfl⟩ := liftDut_ok hcount
    obtain ⟨x, t₃, hget, hrequest⟩ := bind_eq_ok hrequest
    cases hget
    obtain ⟨u₄, t₄, hrequest, hcompare⟩ := bind_eq_ok hrequest
    have hskip' : t₄.skipDutNrInst = 0 := by
      split at hrequest
      · cases hrequest
        rfl
      · cases hrequest
        exact hskip
    obtain ⟨x, t₅, hget, hcompare⟩ := bind_eq_ok hcompare
    cases hget
    obtain ⟨u₆, t₆, hstep, hgo⟩ := bind_eq_ok hcompare
    have hskip₆ : t₆.skipDutNrInst = 0 := difftestStep_skip hskip' hstep
    obtain ⟨x, t₇, hget, hgo⟩ := bind_eq_ok hgo
    cases hget
    by_cases habort : t₆.machine.nemuState.state = .abort
    · -- an aborted machine is not running, and the loop ends here
      rw [if_pos (by rw [habort]; decide)] at hgo
      cases hgo
      exact .inl habort
    · have hagree : R.toDut t₆.ref = t₆.machine.cpu :=
        difftestStep_agrees hcheck hstep habort hskip₆
      split at hgo
      · cases hgo
        exact .inr hagree
      · exact ih hskip₆ hagree hgo

/-- A hart behind NEMU's register structure; `x0` reads as zero whatever was copied. -/
def rv32iReference : Reference (CpuState × Mem 32) where
  exec s :=
    match step fetchMem ⟨⟨⟨fun r => if r = 0 then 0 else s.1.gpr r, if_pos rfl⟩, s.2⟩, s.1.pc⟩ with
    | some t => (⟨t.x, t.pc⟩, t.mem)
    | none => s
  toDut s := s.1
  toRef cpu s := (cpu, s.2)
  toDut_toRef _ _ := rfl

/-- All registers and the `pc` compared. -/
def compareAll (cpu ref : CpuState) (_ : Word) : Bool :=
  decide (∀ r, ref.gpr r = cpu.gpr r) && decide (ref.pc = cpu.pc)

theorem compareAll_compares : Compares compareAll := by
  intro cpu ref pc
  rw [compareAll, Bool.and_eq_true, decide_eq_true_iff, decide_eq_true_iff]
  constructor
  · rintro ⟨hgpr, hpc⟩
    cases cpu
    cases ref
    cases hpc
    exact congrArg (CpuState.mk · _) (funext hgpr)
  · rintro rfl
    exact ⟨fun _ => rfl, rfl⟩

/-- `auipc t0, 0` at the reset vector, in both designs. -/
def auipcTested : Tested (CpuState × Mem 32) where
  machine := ⟨⟨fun _ => 0, 0x80000000⟩, fun _ => 0, ⟨.running, 0, 0⟩, 0, []⟩
  isSkipRef := false
  skipDutNrInst := 0
  ref := (⟨fun _ => 0, 0x80000000⟩, store (fun _ => 0) 0x80000000 4 (0x00000297 : Word))

/-- NEMU's machine after it. -/
def afterAuipc : Machine :=
  ⟨⟨Function.update (fun _ => 0) 5 0x80000000, 0x80000004⟩, fun _ => 0, ⟨.running, 0, 0⟩, 1, []⟩

/-- The comparison is made, and finds nothing. -/
def quiet (r : EStateM.Result String (Tested σ) Unit) : Bool :=
  match r with
  | .ok _ s => decide (s.machine.nemuState.state ≠ .abort) && decide (s.skipDutNrInst = 0)
  | .error _ _ => false

theorem auipc_agrees : ∃ s', runEvents rv32iReference compareAll
      ([.dut afterAuipc] ++ [.step 0x80000000 0x80000004]) auipcTested = .ok () s' ∧
    rv32iReference.toDut s'.ref = s'.machine.cpu := by
  have hquiet : quiet (runEvents rv32iReference compareAll
      ([.dut afterAuipc] ++ [.step 0x80000000 0x80000004]) auipcTested) = true := by
    decide +kernel
  cases hrun : runEvents rv32iReference compareAll
      ([.dut afterAuipc] ++ [.step 0x80000000 0x80000004]) auipcTested with
  | error e s => cases hrun ▸ hquiet
  | ok u s =>
    rw [hrun] at hquiet
    obtain ⟨habort, hskip⟩ := (Bool.and_eq_true _ _).mp hquiet
    exact ⟨s, rfl, difftest_sound _ _ compareAll_compares _ _ _ _ _ hrun
      (of_decide_eq_true habort) (of_decide_eq_true hskip)⟩

end Riscv32Cpu.Nemu.Difftest
