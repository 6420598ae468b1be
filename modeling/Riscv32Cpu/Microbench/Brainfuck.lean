/- module: Riscv32Cpu/Microbench/Brainfuck
   source: CODE/am-kernels/benchmarks/microbench/src/bf/bf.c
   digest: The Brainfuck interpreter: what its one-pass compiler accepts, and what runs. -/

import Mathlib.Algebra.Group.Nat.Defs
import Mathlib.Logic.Function.Basic
import Riscv32Cpu.Lib.LoopCode

set_option autoImplicit false
set_option relaxedAutoImplicit false

namespace Riscv32Cpu.Microbench.Brainfuck

open Lib.LoopCode

inductive Operator
  | OP_END
  | OP_INC_DP
  | OP_DEC_DP
  | OP_INC_VAL
  | OP_DEC_VAL
  | OP_OUT
  | OP_IN
  | OP_JMP_FWD
  | OP_JMP_BCK
deriving DecidableEq

structure Instruction where
  operator : Operator
  operand : BitVec 16

def PROGRAM_SIZE : Nat := 4096
def STACK_SIZE : Nat := 512
def DATA_SIZE : Nat := 4096

/-- What `compile_bf` works on; `SP` is how long the stack is. -/
structure Compiler where
  PROGRAM : Nat → Instruction
  STACK : List (BitVec 16)
  pc : BitVec 16

namespace Compiler

def setOperator (k : Compiler) (op : Operator) : Compiler :=
  { k with PROGRAM := Function.update k.PROGRAM k.pc.toNat ⟨op, (k.PROGRAM k.pc.toNat).operand⟩ }

def setOperand (k : Compiler) (pc operand : BitVec 16) : Compiler :=
  { k with PROGRAM := Function.update k.PROGRAM pc.toNat ⟨(k.PROGRAM pc.toNat).operator, operand⟩ }

/-- The switch; `none` is `FAILURE`. -/
def switch (k : Compiler) : Char → Option Compiler
  | '>' => some (k.setOperator .OP_INC_DP)
  | '<' => some (k.setOperator .OP_DEC_DP)
  | '+' => some (k.setOperator .OP_INC_VAL)
  | '-' => some (k.setOperator .OP_DEC_VAL)
  | '.' => some (k.setOperator .OP_OUT)
  | ',' => some (k.setOperator .OP_IN)
  | '[' =>
    let k := k.setOperator .OP_JMP_FWD
    if k.STACK.length = STACK_SIZE then none else some { k with STACK := k.pc :: k.STACK }
  | ']' =>
    match k.STACK with
    | [] => none
    | jmp_pc :: STACK =>
      some (({ k with STACK }.setOperator .OP_JMP_BCK).setOperand k.pc jmp_pc
        |>.setOperand jmp_pc k.pc)
  | _ => some { k with pc := k.pc - 1 }

/-- `for (; *code; code ++)`. -/
def loop : List Char → Compiler → Option Compiler
  | [], k => some k
  | c :: code, k =>
    if PROGRAM_SIZE ≤ k.pc.toNat then some k
    else (k.switch c).bind fun k => loop code { k with pc := k.pc + 1 }

end Compiler

/-- The benchmark's own program. -/
def CODE : List Char :=
  (">>+>>>>>,[>+>>,]>+[--[+<<<-]<[<+>-]<[<[->[<<<+>>>>+<-]<<[>>+>[->]<<[<]" ++
    "<-]>]>>>+<[[-]<[>+<-]<]>[[>>>]+<<<-<[<<[<<<]>>+>[>>>]<-]<<[<<<]>[>>[>>" ++
    ">]<+<<[<<<]>-]]+<<<]+[->>>]>>]>>[.>>>]").toList

/-- The program that is there afterwards, from what `PROGRAM` held before; `none` is `FAILURE`. -/
def compile_bf (PROGRAM : Nat → Instruction) (code : List Char) : Option (Nat → Instruction) :=
  (Compiler.loop code ⟨PROGRAM, [], 0⟩).bind fun k =>
    if k.STACK ≠ [] ∨ k.pc.toNat = PROGRAM_SIZE then none
    else some (k.setOperator .OP_END).PROGRAM

/-- `data`, `ptr`, what is left of the input, and the output so far. -/
structure Tape where
  data : Nat → BitVec 16
  ptr : BitVec 32
  input : List (BitVec 8)
  output : List (BitVec 8)

namespace Tape

def cell (t : Tape) : BitVec 16 := t.data t.ptr.toNat

def setCell (t : Tape) (v : BitVec 16) : Tape :=
  { t with data := Function.update t.data t.ptr.toNat v }

end Tape

/-- A `char` as an `unsigned short`; whether `char` has a sign is up to the compiler. -/
def ushort (signed : Bool) (c : BitVec 8) : BitVec 16 :=
  if signed then c.signExtend 16 else c.setWidth 16

/-- `execute_bf`, given fuel. It is stuck (`none`) where it would leave `PROGRAM`, `input` or
`output`. -/
def execute_bf (signed : Bool) (PROGRAM : Nat → Instruction) : Nat → Nat → Tape → Option Tape
  | 0, _, _ => none
  | n + 1, pc, t =>
    if PROGRAM_SIZE ≤ pc then none
    else if (PROGRAM pc).operator ≠ .OP_END ∧ t.ptr.toNat < DATA_SIZE then
      match (PROGRAM pc).operator with
      | .OP_INC_DP => execute_bf signed PROGRAM n (pc + 1) { t with ptr := t.ptr + 1 }
      | .OP_DEC_DP => execute_bf signed PROGRAM n (pc + 1) { t with ptr := t.ptr - 1 }
      | .OP_INC_VAL => execute_bf signed PROGRAM n (pc + 1) (t.setCell (t.cell + 1))
      | .OP_DEC_VAL => execute_bf signed PROGRAM n (pc + 1) (t.setCell (t.cell - 1))
      | .OP_OUT =>
        if t.output.length < DATA_SIZE then
          execute_bf signed PROGRAM n (pc + 1)
            { t with output := t.output ++ [t.cell.setWidth 8] }
        else none
      | .OP_IN =>
        match t.input with
        | [] => none
        | c :: input =>
          execute_bf signed PROGRAM n (pc + 1) { t.setCell (ushort signed c) with input }
      | .OP_JMP_FWD =>
        let pc := if t.cell = 0 then (PROGRAM pc).operand.toNat else pc
        execute_bf signed PROGRAM n (pc + 1) t
      | .OP_JMP_BCK =>
        let pc := if t.cell ≠ 0 then (PROGRAM pc).operand.toNat else pc
        execute_bf signed PROGRAM n (pc + 1) t
      | .OP_END => some t
    else some t

/-- The commands that are not brackets. -/
inductive Command
  | incDp
  | decDp
  | incVal
  | decVal
  | out
  | inp
deriving DecidableEq

def Command.operator : Command → Operator
  | incDp => .OP_INC_DP
  | decDp => .OP_DEC_DP
  | incVal => .OP_INC_VAL
  | decVal => .OP_DEC_VAL
  | out => .OP_OUT
  | inp => .OP_IN

/-- What a character of the text stands for; others are comments. -/
def token : Char → Option (Token Command)
  | '>' => some (.act .incDp)
  | '<' => some (.act .decDp)
  | '+' => some (.act .incVal)
  | '-' => some (.act .decVal)
  | '.' => some (.act .out)
  | ',' => some (.act .inp)
  | '[' => some .opening
  | ']' => some .closing
  | _ => none

def tokens (code : List Char) : List (Token Command) := code.filterMap token

/-- Commands on the tape. There is nothing more to do once the pointer is off the tape. -/
def basis (signed : Bool) : Basis Command Tape where
  act
    | .incDp, t => some { t with ptr := t.ptr + 1 }
    | .decDp, t => some { t with ptr := t.ptr - 1 }
    | .incVal, t => some (t.setCell (t.cell + 1))
    | .decVal, t => some (t.setCell (t.cell - 1))
    | .out, t =>
      if t.output.length < DATA_SIZE then
        some { t with output := t.output ++ [t.cell.setWidth 8] }
      else none
    | .inp, t =>
      match t.input with
      | [] => none
      | c :: input => some { t.setCell (ushort signed c) with input }
  test t := t.cell != 0
  live t := t.ptr.toNat < DATA_SIZE

def Instruction.instr (i : Instruction) : Instr Command :=
  match i.operator with
  | .OP_END => .stop
  | .OP_INC_DP => .act .incDp
  | .OP_DEC_DP => .act .decDp
  | .OP_INC_VAL => .act .incVal
  | .OP_DEC_VAL => .act .decVal
  | .OP_OUT => .act .out
  | .OP_IN => .act .inp
  | .OP_JMP_FWD => .fwd i.operand.toNat
  | .OP_JMP_BCK => .bck i.operand.toNat

def codeOf (PROGRAM : Nat → Instruction) (pc : Nat) : Option (Instr Command) :=
  if PROGRAM_SIZE ≤ pc then none else some (PROGRAM pc).instr

theorem execute_eq_run (signed : Bool) (PROGRAM : Nat → Instruction) (n pc : Nat) (t : Tape) :
    execute_bf signed PROGRAM n pc t = run (basis signed) (codeOf PROGRAM) n pc t := by
  induction n generalizing pc t with
  | zero => rfl
  | succ n ih =>
    rw [execute_bf, run, codeOf]
    by_cases hpc : PROGRAM_SIZE ≤ pc
    · rw [if_pos hpc, if_pos hpc, Option.bind_none]
    · rw [if_neg hpc, if_neg hpc, Option.bind_some]
      by_cases hlive : t.ptr.toNat < DATA_SIZE
      · rw [if_pos (show (basis signed).live t = true from decide_eq_true hlive)]
        cases hop : (PROGRAM pc).operator <;>
          simp only [Instruction.instr, hop, hlive, basis, ih, ne_eq, reduceCtorEq,
            not_false_eq_true, not_true_eq_false, and_true, if_true, if_false, Option.bind_some,
            bne_iff_ne, ite_not]
        · split
          · rfl
          · rfl
        · cases t.input with
          | nil => rfl
          | cons c input => rfl
      · rw [if_neg fun h => hlive h.2, if_neg]
        simpa [basis] using hlive

namespace Compiler

variable {k k' : Compiler}

/-- The switch on what a character stands for. -/
def put (k : Compiler) : Token Command → Option Compiler
  | .act b => some (k.setOperator b.operator)
  | .opening => k.switch '['
  | .closing => k.switch ']'

def putAll : List (Token Command) → Compiler → Option Compiler
  | [], k => some k
  | t :: ts, k =>
    if PROGRAM_SIZE ≤ k.pc.toNat then some k
    else (k.put t).bind fun k => putAll ts { k with pc := k.pc + 1 }

theorem switch_token {c : Char} {t : Token Command} (h : token c = some t) :
    k.switch c = k.put t := by
  unfold token at h
  split at h <;> first | (cases h; rfl) | cases h

/-- A comment takes `pc` back by one, for it to be advanced again. -/
theorem switch_comment {c : Char} (h : token c = none) :
    k.switch c = some { k with pc := k.pc - 1 } := by
  unfold token at h
  split at h <;> try cases h
  unfold switch
  split <;> first | contradiction | rfl

theorem putAll_full (h : PROGRAM_SIZE ≤ k.pc.toNat) (ts : List (Token Command)) :
    putAll ts k = some k := by
  cases ts with
  | nil => rfl
  | cons t ts => exact if_pos h

theorem putAll_cons (h : k.pc.toNat < PROGRAM_SIZE) (t : Token Command)
    (ts : List (Token Command)) :
    putAll (t :: ts) k = (k.put t).bind fun k => putAll ts { k with pc := k.pc + 1 } :=
  if_neg (Nat.not_le.mpr h)

theorem loop_eq (code : List Char) (k : Compiler) : loop code k = putAll (tokens code) k := by
  induction code generalizing k with
  | nil => rfl
  | cons c code ih =>
    rw [loop]
    by_cases hfull : PROGRAM_SIZE ≤ k.pc.toNat
    · rw [if_pos hfull, putAll_full hfull]
    · rw [if_neg hfull, tokens, List.filterMap_cons]
      cases hc : token c with
      | none =>
        simp only [switch_comment hc, Option.bind_some, BitVec.sub_add_cancel]
        exact ih k
      | some t =>
        rw [switch_token hc]
        simp only [putAll_cons (Nat.not_le.mp hfull)]
        exact congrArg _ (funext fun k => ih _)

@[simp] theorem setOperator_pc (op : Operator) : (k.setOperator op).pc = k.pc := rfl

@[simp] theorem setOperator_STACK (op : Operator) : (k.setOperator op).STACK = k.STACK := rfl

@[simp] theorem setOperand_pc (pc operand : BitVec 16) : (k.setOperand pc operand).pc = k.pc := rfl

@[simp] theorem setOperand_STACK (pc operand : BitVec 16) :
    (k.setOperand pc operand).STACK = k.STACK := rfl

theorem toNat_next (h : k.pc.toNat < PROGRAM_SIZE) : (k.pc + 1).toNat = k.pc.toNat + 1 := by
  rw [PROGRAM_SIZE] at h
  have hone : (1 : BitVec 16).toNat = 1 := rfl
  rw [BitVec.toNat_add_of_lt (by omega), hone]

theorem put_opening : k.put .opening =
    if k.STACK.length = STACK_SIZE then none
    else some { k.setOperator .OP_JMP_FWD with STACK := k.pc :: k.STACK } := rfl

theorem put_closing {jmp_pc : BitVec 16} {STACK : List (BitVec 16)}
    (h : k.STACK = jmp_pc :: STACK) : k.put .closing =
      some { ((k.setOperator .OP_JMP_BCK).setOperand k.pc jmp_pc).setOperand jmp_pc k.pc with
        STACK } := by
  obtain ⟨PROGRAM, _, pc⟩ := k
  subst h
  rfl

theorem put_closing_nil (h : k.STACK = []) : k.put .closing = none := by
  obtain ⟨PROGRAM, _, pc⟩ := k
  subst h
  rfl

theorem put_level {t : Token Command} (h : k.put t = some k') (ts : List (Token Command)) :
    level k.STACK.length (t :: ts) = level k'.STACK.length ts ∧ k'.pc = k.pc := by
  cases t with
  | act b =>
    obtain rfl := Option.some.inj h
    exact ⟨rfl, rfl⟩
  | opening =>
    rw [put_opening] at h
    split at h
    · cases h
    · obtain rfl := Option.some.inj h
      exact ⟨rfl, rfl⟩
  | closing =>
    cases hstack : k.STACK with
    | nil =>
      rw [put_closing_nil hstack] at h
      cases h
    | cons jmp_pc STACK =>
      rw [put_closing hstack] at h
      obtain rfl := Option.some.inj h
      exact ⟨rfl, rfl⟩

theorem putAll_level {ts : List (Token Command)} (h : putAll ts k = some k')
    (hroom : k'.pc.toNat < PROGRAM_SIZE) :
    level k.STACK.length ts = some k'.STACK.length ∧ k'.pc.toNat = k.pc.toNat + ts.length := by
  induction ts generalizing k with
  | nil =>
    obtain rfl := Option.some.inj h
    exact ⟨rfl, rfl⟩
  | cons t ts ih =>
    by_cases hfull : PROGRAM_SIZE ≤ k.pc.toNat
    · rw [putAll_full hfull] at h
      exact absurd (Option.some.inj h ▸ hroom) (Nat.not_lt.mpr hfull)
    · have hlt := Nat.not_le.mp hfull
      rw [putAll_cons hlt] at h
      obtain ⟨u, hu, hrest⟩ := Option.bind_eq_some_iff.mp h
      obtain ⟨hlevel, hpc⟩ := put_level hu ts
      obtain ⟨hs, hn⟩ := ih hrest
      refine ⟨hlevel.trans hs, ?_⟩
      rw [hn, hpc, toNat_next hlt, List.length_cons]
      omega

theorem codeOf_eq {PROGRAM : Nat → Instruction} {pc : Nat} {i : Instruction}
    (hpc : pc < PROGRAM_SIZE) (h : PROGRAM pc = i) : codeOf PROGRAM pc = some i.instr := by
  rw [codeOf, if_neg (Nat.not_le.mpr hpc), h]

theorem codeOf_congr {PROGRAM PROGRAM' : Nat → Instruction} {pc : Nat}
    (h : PROGRAM' pc = PROGRAM pc) : codeOf PROGRAM' pc = codeOf PROGRAM pc := by
  rw [codeOf, codeOf, h]

theorem instr_command (b : Command) (operand : BitVec 16) :
    Instruction.instr ⟨b.operator, operand⟩ = .act b := by
  cases b <;> rfl

/-- Where the compiler is after an opening bracket, -/
def opened (k : Compiler) : Compiler :=
  ⟨(k.setOperator .OP_JMP_FWD).PROGRAM, k.pc :: k.STACK, k.pc + 1⟩

/-- and after one that closes the bracket at `jmp_pc`. -/
def closed (k : Compiler) (jmp_pc : BitVec 16) (STACK : List (BitVec 16)) : Compiler :=
  ⟨(((k.setOperator .OP_JMP_BCK).setOperand k.pc jmp_pc).setOperand jmp_pc k.pc).PROGRAM, STACK,
    k.pc + 1⟩

theorem putAll_opening (hlt : k.pc.toNat < PROGRAM_SIZE) (hfree : k.STACK.length ≠ STACK_SIZE)
    (ts : List (Token Command)) : putAll (.opening :: ts) k = putAll ts k.opened := by
  rw [putAll_cons hlt, put_opening, if_neg hfree]
  rfl

theorem putAll_closing {jmp_pc : BitVec 16} {STACK : List (BitVec 16)}
    (hlt : k.pc.toNat < PROGRAM_SIZE) (h : k.STACK = jmp_pc :: STACK) (ts : List (Token Command)) :
    putAll (.closing :: ts) k = putAll ts (k.closed jmp_pc STACK) := by
  rw [putAll_cons hlt, put_closing h]
  rfl

theorem closed_PROGRAM {jmp_pc : BitVec 16} (h : jmp_pc.toNat < k.pc.toNat)
    (STACK : List (BitVec 16)) :
    (k.closed jmp_pc STACK).PROGRAM jmp_pc.toNat = ⟨(k.PROGRAM jmp_pc.toNat).operator, k.pc⟩ ∧
      (k.closed jmp_pc STACK).PROGRAM k.pc.toNat = ⟨.OP_JMP_BCK, jmp_pc⟩ ∧
      ∀ j, j ≠ jmp_pc.toNat → j ≠ k.pc.toNat →
        (k.closed jmp_pc STACK).PROGRAM j = k.PROGRAM j := by
  have hne : jmp_pc.toNat ≠ k.pc.toNat := Nat.ne_of_lt h
  refine ⟨?_, ?_, fun j hj hpc => ?_⟩
  · simp [closed, setOperator, setOperand, hne]
  · simp [closed, setOperator, setOperand, hne.symm]
  · simp [closed, setOperator, setOperand, hj, hpc]

/-- The compiler goes through a program whose loops fit its stack: the brackets know of each
other, and the rest of `PROGRAM` and the stack are as before. -/
theorem putAll_program (p : Prog Command) (ts : List (Token Command))
    (hroom : k.pc.toNat + p.size ≤ PROGRAM_SIZE) (hdepth : k.STACK.length + p.depth ≤ STACK_SIZE) :
    ∃ k', putAll (p.tokens ++ ts) k = putAll ts k' ∧ k'.pc.toNat = k.pc.toNat + p.size ∧
      k'.STACK = k.STACK ∧ Placed (codeOf k'.PROGRAM) k.pc.toNat p ∧
      ∀ j, j < k.pc.toNat ∨ k.pc.toNat + p.size ≤ j → k'.PROGRAM j = k.PROGRAM j := by
  induction p generalizing k ts with
  | done => exact ⟨k, rfl, rfl, rfl, trivial, fun _ _ => rfl⟩
  | act b rest ih =>
    rw [Prog.size] at hroom ⊢
    have hlt : k.pc.toNat < PROGRAM_SIZE := by omega
    have hnext := toNat_next hlt
    obtain ⟨k', hput, hpc, hstack, hplaced, hframe⟩ :=
      ih (k := ⟨(k.setOperator b.operator).PROGRAM, k.STACK, k.pc + 1⟩) ts
        (by dsimp only; omega) hdepth
    simp only [hnext] at hpc hplaced hframe
    refine ⟨k', ?_, by omega, hstack, ⟨?_, hplaced⟩, fun j hj => ?_⟩
    · rw [Prog.tokens, List.cons_append, putAll_cons hlt, ← hput]
      rfl
    · rw [codeOf_eq hlt ((hframe _ (by omega)).trans (Function.update_self ..)), instr_command]
    · rw [hframe j (by omega)]
      exact Function.update_of_ne (by omega) ..
  | loop body rest ihb ihr =>
    rw [Prog.size] at hroom ⊢
    rw [Prog.depth] at hdepth
    have hlt : k.pc.toNat < PROGRAM_SIZE := by omega
    have hnext : k.opened.pc.toNat = k.pc.toNat + 1 := toNat_next hlt
    -- the opening bracket waits on the stack
    obtain ⟨k₁, hput₁, hpc₁, hstack₁, hplaced₁, hframe₁⟩ :=
      ihb (k := k.opened) (.closing :: (rest.tokens ++ ts)) (by omega)
        (by rw [opened, List.length_cons]; omega)
    rw [hnext] at hpc₁ hplaced₁ hframe₁
    have hlt₁ : k₁.pc.toNat < PROGRAM_SIZE := by omega
    have hnext₁ : (k₁.closed k.pc k.STACK).pc.toNat = k₁.pc.toNat + 1 := toNat_next hlt₁
    -- the closing bracket finds it there
    obtain ⟨k₂, hput₂, hpc₂, hstack₂, hplaced₂, hframe₂⟩ :=
      ihr (k := k₁.closed k.pc k.STACK) ts (by omega) (by dsimp only [closed]; omega)
    rw [hnext₁, hpc₁] at hpc₂ hplaced₂ hframe₂
    have hback : k.pc.toNat < k₁.pc.toNat := by omega
    obtain ⟨hopen, hclose, hother⟩ := closed_PROGRAM hback k.STACK
    rw [hpc₁] at hclose hother
    have hkept : k₁.PROGRAM k.pc.toNat = ⟨.OP_JMP_FWD, (k.PROGRAM k.pc.toNat).operand⟩ :=
      (hframe₁ _ (by omega)).trans (Function.update_self ..)
    refine ⟨k₂, ?_, by omega, hstack₂, ⟨?_, ?_, ?_, hplaced₂⟩, fun j hj => ?_⟩
    · rw [Prog.tokens, List.cons_append, List.cons_append, List.append_assoc,
        putAll_opening hlt (by omega), List.cons_append, hput₁, putAll_closing hlt₁ hstack₁, hput₂]
    · rw [codeOf_eq hlt ((hframe₂ _ (by omega)).trans hopen), hkept, ← hpc₁]
      rfl
    · refine hplaced₁.congr fun j hj hj' => codeOf_congr ?_
      exact (hframe₂ j (by omega)).trans (hother j (by omega) (by omega))
    · rw [codeOf_eq (by omega) ((hframe₂ _ (by omega)).trans hclose)]
      rfl
    · rw [hframe₂ j (by omega)]
      refine (hother j (by omega) (by omega)).trans ((hframe₁ j (by omega)).trans ?_)
      exact Function.update_of_ne (by omega) ..

theorem putAll_deep (p : Prog Command) (ts : List (Token Command))
    (hroom : k.pc.toNat + p.size ≤ PROGRAM_SIZE) (hstack : k.STACK.length ≤ STACK_SIZE)
    (hdepth : STACK_SIZE < k.STACK.length + p.depth) : putAll (p.tokens ++ ts) k = none := by
  induction p generalizing k ts with
  | done =>
    rw [Prog.depth] at hdepth
    omega
  | act b rest ih =>
    rw [Prog.size] at hroom
    have hlt : k.pc.toNat < PROGRAM_SIZE := by omega
    rw [Prog.tokens, List.cons_append, putAll_cons hlt]
    exact ih ts (by dsimp only [setOperator_pc]; rw [toNat_next hlt]; omega) hstack hdepth
  | loop body rest ihb ihr =>
    rw [Prog.size] at hroom
    rw [Prog.depth] at hdepth
    have hlt : k.pc.toNat < PROGRAM_SIZE := by omega
    have hnext : k.opened.pc.toNat = k.pc.toNat + 1 := toNat_next hlt
    have hlen : k.opened.STACK.length = k.STACK.length + 1 := rfl
    rw [Prog.tokens, List.cons_append, List.cons_append, List.append_assoc]
    by_cases hfull : k.STACK.length = STACK_SIZE
    · rw [putAll_cons hlt, put_opening, if_pos hfull, Option.bind_none]
    · rw [putAll_opening hlt hfull]
      by_cases hbody : STACK_SIZE < k.STACK.length + 1 + body.depth
      · exact ihb _ (by omega) (by omega) (by omega)
      · -- the body fits, so it is the rest that is too deep
        obtain ⟨k₁, hput₁, hpc₁, hstack₁, -, -⟩ := putAll_program (k := k.opened) body
          (.closing :: (rest.tokens ++ ts)) (by omega) (by omega)
        have hlt₁ : k₁.pc.toNat < PROGRAM_SIZE := by omega
        have hnext₁ : (k₁.closed k.pc k.STACK).pc.toNat = k₁.pc.toNat + 1 := toNat_next hlt₁
        rw [List.cons_append, hput₁, putAll_closing hlt₁ hstack₁]
        exact ihr ts (by omega) hstack (by dsimp only [closed]; omega)

end Compiler

open Compiler

section Compiled

variable {PROGRAM PROGRAM' : Nat → Instruction} {code : List Char} {p : Prog Command}

theorem compile_eq_some : compile_bf PROGRAM code = some PROGRAM' ↔
    ∃ k, putAll (tokens code) ⟨PROGRAM, [], 0⟩ = some k ∧ k.STACK = [] ∧
      k.pc.toNat ≠ PROGRAM_SIZE ∧ (k.setOperator .OP_END).PROGRAM = PROGRAM' := by
  rw [compile_bf, loop_eq, Option.bind_eq_some_iff]
  refine exists_congr fun k => and_congr_right fun _ => ?_
  split
  · next h => simpa using fun hs hpc => absurd h (by simp [hs, hpc])
  · next h => simp_all

theorem putAll_pc {k k' : Compiler} {ts : List (Token Command)} (h : putAll ts k = some k')
    (hroom : k.pc.toNat ≤ PROGRAM_SIZE) : k'.pc.toNat ≤ PROGRAM_SIZE := by
  induction ts generalizing k with
  | nil => exact Option.some.inj h ▸ hroom
  | cons t ts ih =>
    by_cases hfull : PROGRAM_SIZE ≤ k.pc.toNat
    · rw [putAll_full hfull] at h
      exact Option.some.inj h ▸ hroom
    · have hlt := Nat.not_le.mp hfull
      rw [putAll_cons hlt] at h
      obtain ⟨u, hu, hrest⟩ := Option.bind_eq_some_iff.mp h
      refine ih hrest ?_
      rw [(put_level hu ts).2, toNat_next hlt]
      exact hlt

theorem level_of_compile (h : compile_bf PROGRAM code = some PROGRAM') :
    level 0 (tokens code) = some 0 ∧ (tokens code).length < PROGRAM_SIZE := by
  obtain ⟨k, hput, hstack, hpc, -⟩ := compile_eq_some.mp h
  have hle := putAll_pc hput (Nat.zero_le _)
  have hlt : k.pc.toNat < PROGRAM_SIZE := by omega
  obtain ⟨hlevel, hn⟩ := putAll_level hput hlt
  rw [hstack] at hlevel
  refine ⟨hlevel, ?_⟩
  have hzero : (0 : BitVec 16).toNat = 0 := rfl
  simp only [hzero, Nat.zero_add] at hn
  omega

theorem limits_of_compile (h : compile_bf PROGRAM code = some PROGRAM')
    (hp : p.tokens = tokens code) : p.size < PROGRAM_SIZE ∧ p.depth ≤ STACK_SIZE := by
  have hsize : p.size < PROGRAM_SIZE := by
    rw [← p.length_tokens, hp]
    exact (level_of_compile h).2
  refine ⟨hsize, ?_⟩
  by_contra hdepth
  obtain ⟨k, hput, -⟩ := compile_eq_some.mp h
  have hdeep := putAll_deep (k := ⟨PROGRAM, [], 0⟩) p [] (by simpa using Nat.le_of_lt hsize)
    (Nat.zero_le _) (by simpa using Nat.not_le.mp hdepth)
  rw [List.append_nil, hp, hput] at hdeep
  cases hdeep

theorem compile_program (PROGRAM : Nat → Instruction) (hp : p.tokens = tokens code)
    (hsize : p.size < PROGRAM_SIZE) (hdepth : p.depth ≤ STACK_SIZE) :
    ∃ PROGRAM', compile_bf PROGRAM code = some PROGRAM' ∧ Placed (codeOf PROGRAM') 0 p ∧
      codeOf PROGRAM' p.size = some .stop := by
  have hzero : (0 : BitVec 16).toNat = 0 := rfl
  obtain ⟨k, hput, hpc, hstack, hplaced, -⟩ := putAll_program (k := ⟨PROGRAM, [], 0⟩) p []
    (by simpa using Nat.le_of_lt hsize) (by simpa using hdepth)
  simp only [hzero, Nat.zero_add] at hpc hplaced
  rw [List.append_nil, hp] at hput
  refine ⟨_, compile_eq_some.mpr ⟨k, hput, hstack, by omega, rfl⟩, ?_, ?_⟩
  · refine hplaced.congr fun j _ hj => codeOf_congr (Function.update_of_ne ?_ ..)
    omega
  · rw [codeOf_eq hsize (i := ⟨.OP_END, (k.PROGRAM k.pc.toNat).operand⟩)]
    · rfl
    · rw [← hpc]
      exact Function.update_self ..

end Compiled

/-- `compile_bf` succeeds on the texts whose commands are a program that is small enough and not
too deep, whatever comments are among them. -/
theorem compile_accepts_iff (PROGRAM : Nat → Instruction) (code : List Char) :
    (compile_bf PROGRAM code).isSome ↔ ∃ p : Prog Command,
      p.tokens = tokens code ∧ p.size < PROGRAM_SIZE ∧ p.depth ≤ STACK_SIZE := by
  constructor
  · intro h
    obtain ⟨PROGRAM', hcompile⟩ := Option.isSome_iff_exists.mp h
    obtain ⟨p, hp⟩ := exists_tokens (level_of_compile hcompile).1
    exact ⟨p, hp, limits_of_compile hcompile hp⟩
  · rintro ⟨p, hp, hsize, hdepth⟩
    obtain ⟨PROGRAM', hcompile, -⟩ := compile_program PROGRAM hp hsize hdepth
    rw [hcompile]
    rfl

/-- A program that was compiled does what its text says: the interpreter comes to an end exactly
where the program does, and with the same data, output and rest of the input. -/
theorem execute_iff_eval {PROGRAM PROGRAM' : Nat → Instruction} {code : List Char}
    {p : Prog Command} (hcompile : compile_bf PROGRAM code = some PROGRAM')
    (hp : p.tokens = tokens code) (signed : Bool) (t u : Tape) :
    (∃ n, execute_bf signed PROGRAM' n 0 t = some u) ↔ Eval (basis signed) p t u := by
  obtain ⟨hsize, hdepth⟩ := limits_of_compile hcompile hp
  obtain ⟨P, hP, hplaced, hend⟩ := compile_program PROGRAM hp hsize hdepth
  obtain rfl := Option.some.inj (hcompile.symm.trans hP)
  simp only [execute_eq_run]
  exact run_iff_eval hplaced (by rw [Nat.zero_add, hend])

theorem code_means : ∃ (PROGRAM : Nat → Instruction) (p : Prog Command), p.tokens = tokens CODE ∧
    ∀ t u, (∃ n, execute_bf false PROGRAM n 0 t = some u) ↔ Eval (basis false) p t u := by
  have hsome : (compile_bf (fun _ => ⟨.OP_END, 0⟩) CODE).isSome := by decide +kernel
  obtain ⟨PROGRAM, hcompile⟩ := Option.isSome_iff_exists.mp hsome
  obtain ⟨p, hp⟩ := exists_tokens (level_of_compile hcompile).1
  exact ⟨PROGRAM, p, hp, execute_iff_eval hcompile hp false⟩

end Riscv32Cpu.Microbench.Brainfuck
