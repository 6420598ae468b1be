/- module: Riscv32Cpu/Nemu/Split
   source: CODE/nemu/src/cpu/cpu-exec.c, src/engine/interpreter/hostcall.c, src/monitor/sdb/sdb.c
   digest: A run of the interpreter may be cut anywhere, and an ended machine stays as it is. -/

import Riscv32Cpu.Nemu.Confinement

set_option autoImplicit false
set_option relaxedAutoImplicit false

namespace Riscv32Cpu.Nemu.Split

open Riscv32Cpu.Lib.Effect Riscv32Cpu.Isa.Rv32i Riscv32Cpu.Nemu.Memory
open Riscv32Cpu.Nemu.Decode Riscv32Cpu.Nemu.Cpu Riscv32Cpu.Nemu.Confinement

variable {pmem : BitVec 64} {csDisasm : Word → Word → Nat}

/-- From `m` to `m'` nothing stopped the machine, or a trap or an invalid instruction did. -/
def Halts (m m' : Machine) : Prop :=
  m'.nemuState = m.nemuState ∨ m'.nemuState.state = .end ∨ m'.nemuState.state = .abort

instance : Std.Refl Halts := ⟨fun _ => .inl rfl⟩

instance : IsTrans Machine Halts where
  trans m m' m'' h h' := by
    rcases h' with h' | h'
    · rw [Halts, h']
      exact h
    · exact .inr h'

theorem halts_setReg (m : Machine) (i : Reg) (v : Word) : Halts m (setReg m i v) := .inl rfl

theorem halts_instFetch (pc : Word) (m : Machine) : Moves Halts (instFetch pmem pc 4) m :=
  moves_bind (moves_paddrRead fun _ _ => .inl rfl) fun _ _ _ => moves_pure _ _

theorem halts_invalidInst (pc : Word) (m : Machine) : Moves Halts (invalidInst pmem pc) m := by
  refine moves_bind (halts_instFetch pc m) fun w m' _ => ?_
  refine moves_bind (halts_instFetch w.2 m') fun _ m'' _ => ?_
  exact .inr (.inr rfl)

theorem halts_instPats (s : DecodeInfo) (m : Machine) : Moves Halts (instPats pmem s) m :=
  moves_instPats halts_setReg (fun _ _ => moves_paddrRead fun _ _ => .inl rfl)
    (fun _ _ _ => moves_paddrWrite fun _ _ => .inl rfl) (fun _ _ => .inr (.inl rfl))
    (halts_invalidInst s.pc) m

theorem halts_execOnce (s : DecodeInfo) (pc : Word) (m : Machine) :
    Moves Halts (execOnce pmem csDisasm s pc) m := by
  refine moves_bind (moves_bind (halts_instFetch pc m) fun w m' _ => ?_) fun s' m' _ =>
    moves_bind (.inl rfl) fun _ t _ =>
      moves_bind (moves_disassemble csDisasm _ _ t) fun _ _ _ => moves_pure _ _
  refine moves_bind (halts_instPats _ m') fun _ m'' _ => ?_
  exact moves_bind (moves_setGpr halts_setReg 0 0 m'') fun _ _ _ => moves_pure _ _

/-- The local `Decode s` of `execute` carries nothing from one instruction to the next. -/
theorem executeLoop_fresh (n : Nat) (d d' : DecodeInfo) :
    executeLoop pmem csDisasm n d = executeLoop pmem csDisasm n d' := by
  cases n with
  | zero => rfl
  | succ n => rfl

theorem executeLoop_error {d : DecodeInfo} {m m' : Machine} {e : String}
    (h : execOnce pmem csDisasm d m.cpu.pc m = .error e m') (n : Nat) :
    executeLoop pmem csDisasm (n + 1) d m = .error e m' := by
  have hget : (get : M Machine) m = .ok m m := rfl
  rw [executeLoop, bind_of_ok hget, bind_of_error h]

theorem executeLoop_state {n : Nat} {d : DecodeInfo} {m m' : Machine}
    (hrun : m.nemuState.state = .running) (h : executeLoop pmem csDisasm n d m = .ok () m') :
    m'.nemuState.state = .running ∨ m'.nemuState.state = .end ∨ m'.nemuState.state = .abort := by
  induction n generalizing d m with
  | zero =>
    cases h
    exact .inl hrun
  | succ n ih =>
    cases hexec : execOnce pmem csDisasm d m.cpu.pc m with
    | error e m₁ => cases (executeLoop_error hexec n).symm.trans h
    | ok d' m₁ =>
      have hround : Halts m m₁ := by
        have hmoves : Moves Halts (execOnce pmem csDisasm d m.cpu.pc) m :=
          halts_execOnce d m.cpu.pc m
        rw [Moves, hexec] at hmoves
        exact hmoves
      rw [executeLoop_succ hexec] at h
      by_cases hrun' : m₁.nemuState.state = .running
      · rw [if_pos hrun'] at h
        exact ih (by exact hrun') h
      · rw [if_neg hrun'] at h
        cases h
        rcases hround with hsame | hend
        · exact absurd (hsame ▸ hrun) hrun'
        · exact .inr hend

/-- `b` more rounds, when the machine is still running. -/
def resume (pmem : BitVec 64) (csDisasm : Word → Word → Nat) (b : Nat) (d : DecodeInfo) :
    M Unit := do
  if (← get).nemuState.state = .running then executeLoop pmem csDisasm b d

theorem resume_running {m : Machine} (h : m.nemuState.state = .running) (b : Nat)
    (d : DecodeInfo) : resume pmem csDisasm b d m = executeLoop pmem csDisasm b d m :=
  congrFun (if_pos h) m

theorem resume_halted {m : Machine} (h : ¬m.nemuState.state = .running) (b : Nat)
    (d : DecodeInfo) : resume pmem csDisasm b d m = .ok () m :=
  congrFun (if_neg h) m

theorem resume_fresh (b : Nat) (d d' : DecodeInfo) :
    resume pmem csDisasm b d = resume pmem csDisasm b d' := by
  rw [resume, resume, executeLoop_fresh b d d']

theorem executeLoop_add (a b : Nat) (d : DecodeInfo) {m : Machine}
    (hrun : m.nemuState.state = .running) :
    executeLoop pmem csDisasm (a + b) d m =
      (executeLoop pmem csDisasm a d >>= fun _ => resume pmem csDisasm b d) m := by
  induction a generalizing m d with
  | zero =>
    have hnone : executeLoop pmem csDisasm 0 d m = .ok () m := rfl
    rw [bind_of_ok hnone, resume_running hrun, Nat.zero_add]
  | succ a ih =>
    rw [Nat.add_right_comm]
    cases hexec : execOnce pmem csDisasm d m.cpu.pc m with
    | error e m' => rw [executeLoop_error hexec, bind_of_error (executeLoop_error hexec a)]
    | ok d' m' =>
      have hsucc := executeLoop_succ hexec a
      by_cases hrun' : m'.nemuState.state = .running
      · rw [if_pos hrun'] at hsucc
        rw [executeLoop_succ hexec, if_pos hrun', ih d' (by exact hrun'), bind_head hsucc,
          resume_fresh b d d']
      · rw [if_neg hrun'] at hsucc
        rw [executeLoop_succ hexec, if_neg hrun', bind_of_ok hsucc, resume_halted (by exact hrun')]

/-- The machine with another `nemu_state.state`. -/
def withState (m : Machine) (state : RunState) : Machine :=
  { m with nemuState := { m.nemuState with state := state } }

/-- The second `switch` of `cpu_exec`. -/
def settle (m : Machine) : Machine :=
  if m.nemuState.state = .running then withState m .stop else m

theorem settle_running {m : Machine} (h : m.nemuState.state = .running) :
    settle m = withState m .stop := if_pos h

theorem settle_halted {m : Machine} (h : ¬m.nemuState.state = .running) : settle m = m :=
  if_neg h

/-- A machine that `cpu_exec` refuses to run. -/
def Ended (m : Machine) : Prop :=
  m.nemuState.state = .end ∨ m.nemuState.state = .abort ∨ m.nemuState.state = .quit

theorem cpuExec_ended {m : Machine} (h : Ended m) (n : Nat) :
    cpuExec pmem csDisasm n m = .ok () m := by
  have hget : (get : M Machine) m = .ok m m := rfl
  rw [cpuExec, bind_of_ok hget]
  rcases h with h | h | h
  · rw [h]
    rfl
  · rw [h]
    rfl
  · rw [h]
    rfl

theorem cpuExec_stop {m m' : Machine} {n : Nat} (h : m.nemuState.state = .stop)
    (hloop : executeLoop pmem csDisasm n ⟨0, 0, 0, 0⟩ (withState m .running) = .ok () m') :
    cpuExec pmem csDisasm n m = .ok () (settle m') := by
  have hget : (get : M Machine) m = .ok m m := rfl
  have hset : (modify fun m : Machine => withState m .running : M Unit) m =
    .ok () (withState m .running) := rfl
  rw [cpuExec, bind_of_ok hget, h]
  refine (bind_of_ok hset).trans ((bind_of_ok hloop).trans ?_)
  by_cases hrun : m'.nemuState.state = .running
  · rw [settle_running hrun]
    exact congrFun (if_pos hrun) m'
  · rw [settle_halted hrun]
    exact congrFun (if_neg hrun) m'

theorem cpuExec_stop_error {m m' : Machine} {n : Nat} {e : String} (h : m.nemuState.state = .stop)
    (hloop : executeLoop pmem csDisasm n ⟨0, 0, 0, 0⟩ (withState m .running) = .error e m') :
    cpuExec pmem csDisasm n m = .error e m' := by
  have hget : (get : M Machine) m = .ok m m := rfl
  have hset : (modify fun m : Machine => withState m .running : M Unit) m =
    .ok () (withState m .running) := rfl
  rw [cpuExec, bind_of_ok hget, h]
  exact (bind_of_ok hset).trans (bind_of_error hloop)

/-- What settling does to a running machine, the next `cpu_exec` undoes. -/
theorem running_settle {m : Machine} (hrun : m.nemuState.state = .running) :
    withState (settle m) .running = m := by
  rw [settle_running hrun]
  obtain ⟨cpu, host, ⟨state, haltPc, haltRet⟩, n, touched⟩ := m
  cases hrun
  rfl

theorem settle_stop {m : Machine} (hrun : m.nemuState.state = .running) :
    (settle m).nemuState.state = .stop := by
  rw [settle_running hrun]
  rfl

/-- Cutting a run in two changes nothing, and nothing moves an ended machine. -/
theorem cpuExec_split (pmem : BitVec 64) (csDisasm : Word → Word → Nat) (m : Machine) :
    (m.nemuState.state = .stop → ∀ a b, a + b < 2 ^ 64 →
      (cpuExec pmem csDisasm a >>= fun _ => cpuExec pmem csDisasm b) m =
        cpuExec pmem csDisasm (a + b) m) ∧
    (Ended m → ∀ n, cpuExec pmem csDisasm n m = .ok () m) := by
  refine ⟨fun hstop a b _ => ?_, fun hend n => cpuExec_ended hend n⟩
  have hrunning : (withState m .running).nemuState.state = .running := rfl
  have hadd : executeLoop pmem csDisasm (a + b) ⟨0, 0, 0, 0⟩ (withState m .running) = _ :=
    executeLoop_add a b _ hrunning
  cases hloop : executeLoop pmem csDisasm a ⟨0, 0, 0, 0⟩ (withState m .running) with
  | error e m' =>
    rw [bind_of_error hloop] at hadd
    rw [bind_of_error (cpuExec_stop_error hstop hloop), cpuExec_stop_error hstop hadd]
  | ok u m' =>
    rw [bind_of_ok hloop] at hadd
    rw [bind_of_ok (cpuExec_stop hstop hloop)]
    rcases executeLoop_state hrunning hloop with hrun | hend
    · rw [resume_running hrun] at hadd
      cases hrest : executeLoop pmem csDisasm b ⟨0, 0, 0, 0⟩ m' with
      | error e m'' =>
        rw [cpuExec_stop_error hstop (hadd.trans hrest)]
        refine cpuExec_stop_error (settle_stop hrun) ?_
        rw [running_settle hrun, hrest]
      | ok u m'' =>
        rw [cpuExec_stop hstop (hadd.trans hrest)]
        refine cpuExec_stop (settle_stop hrun) ?_
        rw [running_settle hrun, hrest]
    · have hhalted : ¬m'.nemuState.state = .running := by
        rcases hend with h | h
        · rw [h]
          decide
        · rw [h]
          decide
      rw [resume_halted hhalted] at hadd
      rw [cpuExec_stop hstop hadd, settle_halted hhalted]
      exact cpuExec_ended (hend.imp_right .inl) b

/-- A machine that has hit its trap. -/
def endedMachine : Machine := { startMachine with nemuState := ⟨.end, 0x80000000, 0⟩ }

/-- The built-in image stepped once and then three times, and a machine that has ended. -/
theorem builtin_image_split :
    (cpuExec 0x10000 Monitor.oneInst 1 >>= fun _ => cpuExec 0x10000 Monitor.oneInst 3)
          (isaMachine 0x10000 startMachine) =
        cpuExec 0x10000 Monitor.oneInst (1 + 3) (isaMachine 0x10000 startMachine) ∧
      cpuExec 0x10000 Monitor.oneInst 4 endedMachine = .ok () endedMachine :=
  ⟨(cpuExec_split _ _ _).1 rfl 1 3 (by decide), (cpuExec_split _ _ _).2 (.inl rfl) 4⟩

end Riscv32Cpu.Nemu.Split
