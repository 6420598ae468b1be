/- module: Riscv32Cpu/Nemu/Skips
   source: CODE/nemu/src/cpu/difftest/dut.c, src/cpu/cpu-exec.c
   digest: Which instructions the two skip requests of differential testing leave out. -/

import Mathlib.Logic.Function.Iterate
import Riscv32Cpu.Lib.Trace
import Riscv32Cpu.Nemu.Difftest

set_option autoImplicit false
set_option relaxedAutoImplicit false

namespace Riscv32Cpu.Nemu.Skips

open Riscv32Cpu.Lib.Effect Riscv32Cpu.Lib.Memory Riscv32Cpu.Lib.Trace Riscv32Cpu.Isa.Rv32i
open Riscv32Cpu.Nemu.Memory Riscv32Cpu.Nemu.Difftest

variable {σ : Type}

inductive Request
  | skipRef
  | skipDut (nrRef nrDut : Int)
  deriving DecidableEq

def Request.event : Request → Event
  | .skipRef => .skipRef
  | .skipDut nrRef nrDut => .skipDut nrRef nrDut

/-- One round of `execute`: the requests made while the instruction executes, in their order, the
machine it leaves, and its address. -/
structure Instruction where
  requests : List Request
  dut : Machine
  pc : Word

/-- The round ends in `difftest_step(s.pc, cpu.pc)`. -/
def Instruction.events (i : Instruction) : List Event :=
  i.requests.map Request.event ++ [.dut i.dut, .step i.pc i.dut.cpu.pc]

/-- `none` when the round ends in a panic. -/
def Instruction.execute (R : Reference σ) (check : CpuState → CpuState → Word → Bool)
    (i : Instruction) (s : Tested σ) : Option (Tested σ) :=
  match runEvents R check i.events s with
  | .ok _ t => some t
  | .error _ _ => none

def Request.apply (R : Reference σ) (s : Tested σ) : Request → Tested σ
  | .skipRef => { s with isSkipRef := true, skipDutNrInst := 0 }
  | .skipDut nrRef nrDut =>
    { s with skipDutNrInst := s.skipDutNrInst + nrDut, ref := R.exec^[nrRef.toNat] s.ref }

/-- The state in which `difftest_step` finds the requests of the instruction. -/
def Instruction.pending (R : Reference σ) (i : Instruction) (s : Tested σ) : Tested σ :=
  { i.requests.foldl (Request.apply R) s with machine := i.dut }

/-- `difftest_step` does not find both a `skip_ref` and an open catch-up window. -/
def Unmixed (R : Reference σ) (i : Instruction) (s : Tested σ) : Prop :=
  ¬((i.pending R s).isSkipRef = true ∧ 0 < (i.pending R s).skipDutNrInst)

/-- The reference executes once, and the registers are compared. -/
def Compared (R : Reference σ) (check : CpuState → CpuState → Word → Bool) (i : Instruction)
    (s : Tested σ) : Prop :=
  runEvents R check i.events s = checkregs check (R.toDut (R.exec s.ref)) i.pc
    { s with machine := i.dut, ref := R.exec s.ref }

/-- The registers are copied to the reference, and the request is used up. -/
def Exempted (R : Reference σ) (check : CpuState → CpuState → Word → Bool) (i : Instruction)
    (s : Tested σ) : Prop :=
  runEvents R check i.events s = .ok () { i.pending R s with
    ref := R.toRef i.dut.cpu (i.pending R s).ref, isSkipRef := false }

variable (R : Reference σ) (check : CpuState → CpuState → Word → Bool)

theorem refExec_eq (n : Nat) (s : Tested σ) :
    refExec R n s = .ok () { s with ref := R.exec^[n] s.ref } := by
  induction n generalizing s with
  | zero => rfl
  | succ n ih =>
    have hset : (modify fun s => { s with ref := R.exec s.ref } : D σ Unit) s =
      .ok () { s with ref := R.exec s.ref } := rfl
    rw [refExec, bind_of_ok hset, ih]
    rfl

theorem run_request (r : Request) (s : Tested σ) :
    r.event.run R check s = .ok () (r.apply R s) := by
  cases r with
  | skipRef => rfl
  | skipDut nrRef nrDut =>
    have hset : (modify fun s => { s with skipDutNrInst := s.skipDutNrInst + nrDut } : D σ Unit) s =
      .ok () { s with skipDutNrInst := s.skipDutNrInst + nrDut } := rfl
    show difftestSkipDut R nrRef nrDut s = _
    rw [difftestSkipDut, bind_of_ok hset, refExec_eq R]
    rfl

theorem runEvents_singleton (e : Event) (s : Tested σ) :
    runEvents R check [e] s = e.run R check s := by
  have hend : runEvents R check [] = pure () := rfl
  rw [runEvents, hend]
  cases h : e.run R check s with
  | ok u t => exact bind_of_ok h
  | error e t => exact bind_of_error h

theorem run_events (i : Instruction) (s : Tested σ) :
    runEvents R check i.events s =
      difftestStep R check i.pc i.dut.cpu.pc (i.pending R s) := by
  rw [Instruction.events, Instruction.pending]
  induction i.requests generalizing s with
  | nil =>
    have hdut : (Event.dut i.dut).run R check s = .ok () { s with machine := i.dut } := rfl
    rw [List.map_nil, List.nil_append, runEvents, bind_of_ok hdut, runEvents_singleton]
    rfl
  | cons r rs ih =>
    rw [List.map_cons, List.cons_append, runEvents, bind_of_ok (run_request R check r s), ih,
      List.foldl_cons]

theorem difftestStep_window (pc npc : Word) {s : Tested σ} (h : 0 < s.skipDutNrInst) :
    difftestStep R check pc npc s =
      if (R.toDut s.ref).pc = npc then
        checkregs check (R.toDut s.ref) npc { s with skipDutNrInst := 0 }
      else if s.skipDutNrInst - 1 = 0 then
        .error ("can not catch up with ref.pc = " ++ fmtWord (R.toDut s.ref).pc ++ " at pc = " ++
          fmtWord pc) { s with skipDutNrInst := s.skipDutNrInst - 1 }
      else .ok () { s with skipDutNrInst := s.skipDutNrInst - 1 } := by
  have hget : (get : D σ (Tested σ)) s = .ok s s := rfl
  rw [difftestStep, bind_of_ok hget, if_pos h]
  by_cases hpc : (R.toDut s.ref).pc = npc
  · rw [if_pos hpc, if_pos hpc]
    rfl
  · have hset : (set { s with skipDutNrInst := s.skipDutNrInst - 1 } : D σ Unit) s =
      .ok () { s with skipDutNrInst := s.skipDutNrInst - 1 } := rfl
    rw [if_neg hpc, if_neg hpc, bind_of_ok hset, ensure]
    by_cases hlast : s.skipDutNrInst - 1 = 0
    · rw [if_pos hlast, if_neg (not_not_intro hlast)]
      rfl
    · rw [if_neg hlast, if_pos hlast]
      rfl

theorem difftestStep_exempt (pc npc : Word) {s : Tested σ} (h : ¬0 < s.skipDutNrInst)
    (hflag : s.isSkipRef = true) : difftestStep R check pc npc s =
      .ok () { s with ref := R.toRef s.machine.cpu s.ref, isSkipRef := false } := by
  have hget : (get : D σ (Tested σ)) s = .ok s s := rfl
  rw [difftestStep, bind_of_ok hget, if_neg h, if_pos hflag]
  rfl

theorem difftestStep_compare (pc npc : Word) {s : Tested σ} (h : ¬0 < s.skipDutNrInst)
    (hflag : s.isSkipRef = false) : difftestStep R check pc npc s =
      checkregs check (R.toDut (R.exec s.ref)) pc { s with ref := R.exec s.ref } := by
  have hget : (get : D σ (Tested σ)) s = .ok s s := rfl
  rw [difftestStep, bind_of_ok hget, if_neg h, if_neg (Bool.eq_false_iff.mp hflag),
    bind_of_ok (refExec_eq R 1 s)]
  rfl

theorem checkregs_keeps (ref : CpuState) (pc : Word) (s : Tested σ) :
    ∃ t, checkregs check ref pc s = .ok () t ∧ t.isSkipRef = s.isSkipRef ∧
      t.skipDutNrInst = s.skipDutNrInst ∧ t.ref = s.ref := by
  rw [checkregs_eq]
  split
  · exact ⟨s, rfl, rfl, rfl, rfl⟩
  · exact ⟨_, rfl, rfl, rfl, rfl⟩

theorem execute_flag {i : Instruction} {s t : Tested σ} (hmix : Unmixed R i s)
    (h : i.execute R check s = some t) : t.isSkipRef = false := by
  rw [Instruction.execute, run_events] at h
  by_cases hwin : 0 < (i.pending R s).skipDutNrInst
  · have hflag : (i.pending R s).isSkipRef = false := by
      rw [← Bool.not_eq_true]
      exact fun hset => hmix ⟨hset, hwin⟩
    rw [difftestStep_window R check _ _ hwin] at h
    split_ifs at h with hpc hlast
    · obtain ⟨u, hu, hkeep, -⟩ := checkregs_keeps check (R.toDut (i.pending R s).ref)
        i.dut.cpu.pc { i.pending R s with skipDutNrInst := 0 }
      rw [hu] at h
      cases h
      exact hkeep.trans hflag
    · cases h
      exact hflag
  · cases hflag : (i.pending R s).isSkipRef with
    | true =>
      rw [difftestStep_exempt R check _ _ hwin hflag] at h
      cases h
      rfl
    | false =>
      obtain ⟨u, hu, hkeep, -⟩ := checkregs_keeps check
        (R.toDut (R.exec (i.pending R s).ref)) i.pc
        { i.pending R s with ref := R.exec (i.pending R s).ref }
      rw [difftestStep_compare R check _ _ hwin hflag, hu] at h
      cases h
      exact hkeep.trans hflag

theorem run_flag {is : List Instruction} {s t : Tested σ} (hstart : s.isSkipRef = false)
    (hrun : play (Instruction.execute R check) is s = some t)
    (hmix : Along (Instruction.execute R check) (Unmixed R) is s) : t.isSkipRef = false :=
  play_invariant (p := fun s => s.isSkipRef = false)
    (fun _ _ _ _ hmix h => execute_flag R check hmix h) hrun hmix hstart

theorem pending_idle {i : Instruction} (hi : i.requests = []) (s : Tested σ) :
    i.pending R s = { s with machine := i.dut } := by
  rw [Instruction.pending, hi]
  rfl

theorem compared_of_idle {i : Instruction} {s : Tested σ} (hflag : s.isSkipRef = false)
    (hwin : ¬0 < s.skipDutNrInst) (hi : i.requests = []) : Compared R check i s := by
  rw [Compared, run_events, pending_idle R hi]
  exact difftestStep_compare R check _ _ hwin hflag

theorem apply_flag {r : Request} {s : Tested σ} (h : s.isSkipRef = true) :
    (r.apply R s).isSkipRef = true := by
  cases r with
  | skipRef => rfl
  | skipDut nrRef nrDut => exact h

theorem pending_flag {i : Instruction} (hi : .skipRef ∈ i.requests) (s : Tested σ) :
    (i.pending R s).isSkipRef = true := by
  have hkeep : ∀ (rs : List Request) (s : Tested σ), s.isSkipRef = true →
      (rs.foldl (Request.apply R) s).isSkipRef = true := by
    intro rs
    induction rs with
    | nil => exact fun _ h => h
    | cons r rs ih => exact fun s h => ih _ (apply_flag R h)
  show (i.requests.foldl (Request.apply R) s).isSkipRef = true
  generalize i.requests = rs at hi
  induction rs generalizing s with
  | nil => cases hi
  | cons r rs ih =>
    rcases List.mem_cons.mp hi with rfl | hi
    · exact hkeep rs _ rfl
    · exact ih _ hi

theorem exempted_of_skipRef {i : Instruction} {s : Tested σ} (hi : .skipRef ∈ i.requests)
    (hmix : Unmixed R i s) : Exempted R check i s := by
  have hflag := pending_flag R hi s
  rw [Exempted, run_events]
  exact difftestStep_exempt R check _ _ (fun hwin => hmix ⟨hflag, hwin⟩) hflag

theorem runEvents_append_eq (l k : List Event) (s : Tested σ) :
    runEvents R check (l ++ k) s =
      (runEvents R check l >>= fun _ => runEvents R check k) s := by
  induction l generalizing s with
  | nil => rfl
  | cons e l ih =>
    rw [List.cons_append, runEvents, runEvents]
    cases h : e.run R check s with
    | ok u t => rw [bind_of_ok h, ih, bind_head (bind_of_ok h)]
    | error e t => rw [bind_of_error h, bind_of_error (bind_of_error h)]

theorem never_panics {steps : List Instruction} (hi : ∀ i ∈ steps, i.requests = [])
    {s : Tested σ} (hwin : ¬0 < s.skipDutNrInst) :
    ∃ t, runEvents R check (steps.flatMap Instruction.events) s = .ok () t := by
  induction steps generalizing s with
  | nil => exact ⟨s, rfl⟩
  | cons i steps ih =>
    have hidle := hi i List.mem_cons_self
    have hone : ∃ t, runEvents R check i.events s = .ok () t ∧ ¬0 < t.skipDutNrInst := by
      rw [run_events, pending_idle R hidle]
      by_cases hflag : s.isSkipRef = true
      · exact ⟨_, difftestStep_exempt R check _ _ (s := { s with machine := i.dut }) hwin hflag,
          hwin⟩
      · rw [difftestStep_compare R check _ _ (s := { s with machine := i.dut }) hwin
          (Bool.eq_false_of_not_eq_true hflag)]
        obtain ⟨t, ht, -, hkeep, -⟩ := checkregs_keeps check (R.toDut (R.exec s.ref)) i.pc
          { s with machine := i.dut, ref := R.exec s.ref }
        refine ⟨t, ht, ?_⟩
        rw [hkeep]
        exact hwin
    obtain ⟨t, ht, hwin'⟩ := hone
    rw [List.flatMap_cons, runEvents_append_eq, bind_of_ok ht]
    exact ih (fun j hj => hi j (List.mem_cons_of_mem i hj)) hwin'

/-- A window of as many steps as are given panics when none of them ends at the reference's pc. -/
theorem window_panics_iff {steps : List Instruction} (hi : ∀ i ∈ steps, i.requests = [])
    (hne : steps ≠ []) {s : Tested σ} (hs : s.skipDutNrInst = steps.length) :
    (∃ e t, runEvents R check (steps.flatMap Instruction.events) s = .error e t) ↔
      ∀ i ∈ steps, i.dut.cpu.pc ≠ (R.toDut s.ref).pc := by
  induction steps generalizing s with
  | nil => exact absurd rfl hne
  | cons i steps ih =>
    have hidle := hi i List.mem_cons_self
    have hrest : ∀ j ∈ steps, j.requests = [] := fun j hj => hi j (List.mem_cons_of_mem i hj)
    rw [List.length_cons] at hs
    have hstep := difftestStep_window R check i.pc i.dut.cpu.pc (s := { s with machine := i.dut })
      (show 0 < s.skipDutNrInst by omega)
    rw [← pending_idle R hidle, ← run_events, pending_idle R hidle] at hstep
    rw [List.flatMap_cons, runEvents_append_eq, List.forall_mem_cons]
    by_cases hpc : (R.toDut s.ref).pc = i.dut.cpu.pc
    · -- caught up: the window is closed, and the rest cannot panic
      obtain ⟨t, ht, -, hkeep, -⟩ := checkregs_keeps check (R.toDut s.ref) i.dut.cpu.pc
        { s with machine := i.dut, skipDutNrInst := 0 }
      rw [if_pos hpc] at hstep
      obtain ⟨u, hu⟩ := never_panics R check hrest (s := t) (by
        rw [hkeep]
        exact lt_irrefl 0)
      rw [bind_of_ok (hstep.trans ht), hu]
      constructor
      · rintro ⟨e, v, h⟩
        cases h
      · rintro ⟨h, -⟩
        exact absurd hpc.symm h
    · rw [if_neg hpc] at hstep
      by_cases hlast : steps = []
      · rw [if_pos (show s.skipDutNrInst - 1 = 0 by rw [hs, hlast]; rfl)] at hstep
        rw [bind_of_error hstep]
        constructor
        · rintro -
          exact ⟨Ne.symm hpc, hlast ▸ fun j hj => absurd hj List.not_mem_nil⟩
        · rintro -
          exact ⟨_, _, rfl⟩
      · have hpos : 0 < steps.length := List.length_pos_of_ne_nil hlast
        rw [if_neg (show ¬s.skipDutNrInst - 1 = 0 by omega)] at hstep
        rw [bind_of_ok hstep, ih hrest hlast (by
          show s.skipDutNrInst - 1 = _
          omega)]
        exact (and_iff_right (Ne.symm hpc)).symm

/-- In a run in which no `difftest_step` finds both requests: an instruction that raises `skip_ref`
is exempted; every other one that requests nothing and lies in no window is compared; and a window
panics exactly when the machine does not catch up in its steps. -/
theorem skips_exact (R : Reference σ) (check : CpuState → CpuState → Word → Bool)
    (is : List Instruction) (s t : Tested σ) (hstart : s.isSkipRef = false)
    (hrun : play (Instruction.execute R check) is s = some t)
    (hmix : Along (Instruction.execute R check) (Unmixed R) is s) :
    (∀ i : Instruction, .skipRef ∈ i.requests → Unmixed R i t → Exempted R check i t) ∧
      (∀ i : Instruction, i.requests = [] → ¬0 < t.skipDutNrInst → Compared R check i t) ∧
      ∀ (u : Tested σ) (nrRef nrDut : Int) (steps : List Instruction), u.skipDutNrInst = 0 →
        (∀ i ∈ steps, i.requests = []) → steps.length = nrDut.toNat →
        ((∃ e v, runEvents R check
            (.skipDut nrRef nrDut :: steps.flatMap Instruction.events) u = .error e v) ↔
          0 < nrDut ∧ ∀ i ∈ steps, i.dut.cpu.pc ≠ (R.toDut (R.exec^[nrRef.toNat] u.ref)).pc) := by
  have hflag := run_flag R check hstart hrun hmix
  refine ⟨fun i hi hclear => exempted_of_skipRef R check hi hclear,
    fun i hi hwin => compared_of_idle R check hflag hwin hi,
    fun u nrRef nrDut steps hu hi hlen => ?_⟩
  have hopen := run_request R check (.skipDut nrRef nrDut) u
  rw [Request.event] at hopen
  rw [runEvents, bind_of_ok hopen]
  by_cases hpos : 0 < nrDut
  · rw [and_iff_right hpos]
    refine window_panics_iff R check hi (fun hnil => ?_) ?_
    · rw [hnil, List.length_nil] at hlen
      omega
    · show u.skipDutNrInst + nrDut = _
      omega
  · have hnil : steps = [] := List.eq_nil_of_length_eq_zero (by omega)
    rw [hnil]
    constructor
    · rintro ⟨e, v, h⟩
      cases h
    · rintro ⟨h, -⟩
      exact absurd h hpos

/-- A reference whose instructions only advance the `pc`. -/
def nopReference : Reference CpuState where
  exec s := { s with pc := s.pc + 4 }
  toDut s := s
  toRef cpu _ := cpu
  toDut_toRef _ _ := rfl

/-- A running machine at `pc`, with `x` in every register. -/
def machineAt (pc x : Word) : Machine := ⟨⟨fun _ => x, pc⟩, fun _ => 0, ⟨.running, 0, 0⟩, 0, []⟩

def resetTested : Tested CpuState where
  machine := machineAt 0x80000000 0
  isSkipRef := false
  skipDutNrInst := 0
  ref := ⟨fun _ => 0, 0x80000000⟩

/-- A load from a device. -/
def deviceLoad : Instruction := ⟨[.skipRef], machineAt 0x80000004 7, 0x80000000⟩

/-- The state after `deviceLoad`. -/
def afterLoad : Tested CpuState := ⟨machineAt 0x80000004 7, false, 0, ⟨fun _ => 7, 0x80000004⟩⟩

theorem play_deviceLoad :
    play (Instruction.execute nopReference compareAll) [deviceLoad] resetTested = some afterLoad :=
  rfl

/-- After a load from a device the requests are exact again. -/
theorem deviceLoad_exact :
    (∀ i : Instruction, .skipRef ∈ i.requests → Unmixed nopReference i afterLoad →
        Exempted nopReference compareAll i afterLoad) ∧
      (∀ i : Instruction, i.requests = [] → ¬0 < afterLoad.skipDutNrInst →
        Compared nopReference compareAll i afterLoad) ∧
      ∀ (u : Tested CpuState) (nrRef nrDut : Int) (steps : List Instruction),
        u.skipDutNrInst = 0 → (∀ i ∈ steps, i.requests = []) → steps.length = nrDut.toNat →
        ((∃ e v, runEvents nopReference compareAll
            (.skipDut nrRef nrDut :: steps.flatMap Instruction.events) u = .error e v) ↔
          0 < nrDut ∧ ∀ i ∈ steps,
            i.dut.cpu.pc ≠ (nopReference.toDut (nopReference.exec^[nrRef.toNat] u.ref)).pc) :=
  skips_exact nopReference compareAll [deviceLoad] resetTested afterLoad rfl play_deviceLoad
    ⟨fun hboth => absurd hboth.2 (by decide), trivial⟩

/-- A load from a device that also asks for a window, which its own step closes. -/
def packedLoad : Instruction := ⟨[.skipRef, .skipDut 1 2], machineAt 0x80000004 0, 0x80000000⟩

/-- The state after `packedLoad`: the window is closed, the other request is still there. -/
def afterPacked : Tested CpuState := ⟨machineAt 0x80000004 0, true, 0, ⟨fun _ => 0, 0x80000004⟩⟩

/-- An instruction that requests nothing, and leaves wrong registers. -/
def wrongInstruction : Instruction := ⟨[], machineAt 0x80000008 1, 0x80000004⟩

/-- The request of `packedLoad` hides the instruction behind it from the comparison. -/
theorem skipRef_outlives_packedLoad :
    play (Instruction.execute nopReference compareAll) [packedLoad] resetTested =
        some afterPacked ∧
      wrongInstruction.requests = [] ∧ ¬0 < afterPacked.skipDutNrInst ∧
      ¬Compared nopReference compareAll wrongInstruction afterPacked := by
  refine ⟨rfl, rfl, by decide, fun hcomp => ?_⟩
  have hskip : runEvents nopReference compareAll wrongInstruction.events afterPacked =
      .ok () ⟨machineAt 0x80000008 1, false, 0, ⟨fun _ => 1, 0x80000008⟩⟩ := rfl
  have hchecked : ∃ t, checkregs compareAll
      (nopReference.toDut (nopReference.exec afterPacked.ref)) wrongInstruction.pc
      { afterPacked with
        machine := wrongInstruction.dut
        ref := nopReference.exec afterPacked.ref } = .ok () t ∧
      t.machine.nemuState.state = .abort := ⟨_, rfl, rfl⟩
  obtain ⟨t, ht, habort⟩ := hchecked
  cases hskip.symm.trans (hcomp.trans ht)
  cases habort

end Riscv32Cpu.Nemu.Skips
