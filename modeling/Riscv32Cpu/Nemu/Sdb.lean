/- module: Riscv32Cpu/Nemu/Sdb
   source: CODE/nemu/src/monitor/sdb/sdb.c, src/isa/riscv32/reg.c
   digest: The debugger's loop over input lines, its commands, and what ends it. -/

import Riscv32Cpu.Nemu.Confinement

set_option autoImplicit false
set_option relaxedAutoImplicit false

namespace Riscv32Cpu.Nemu.Sdb

open Riscv32Cpu.Lib.Effect Riscv32Cpu.Isa.Rv32i Riscv32Cpu.Nemu.Memory Riscv32Cpu.Nemu.Cpu
open Riscv32Cpu.Nemu.Confinement

/-- A C string up to its terminator; a byte is the character of its code. -/
abbrev Str := List Char

/-- The first token of `strtok(s, " ")`, and what the next `strtok(NULL, " ")` goes on with. -/
def strtok (s : Str) : Option (Str × Str) :=
  match s.dropWhile (· = ' ') with
  | [] => none
  | c :: cs =>
    some ((c :: cs).takeWhile (· ≠ ' '), ((c :: cs).dropWhile (· ≠ ' ')).drop 1)

def isspace (c : Char) : Bool := c = ' ' || (9 ≤ c.toNat && c.toNat ≤ 13)

/-- The value of a digit or letter. -/
def digitValue (c : Char) : Option Nat :=
  if '0' ≤ c ∧ c ≤ '9' then some (c.toNat - '0'.toNat)
  else if 'a' ≤ c ∧ c ≤ 'z' then some (c.toNat - 'a'.toNat + 10)
  else if 'A' ≤ c ∧ c ≤ 'Z' then some (c.toNat - 'A'.toNat + 10)
  else none

def isDigit (base : Nat) (c : Char) : Bool := (digitValue c).any (· < base)

/-- The base that a prefix chooses, and the digits behind it. A `0x` without a digit is the
number 0 before an `x`. -/
def splitBase : Str → Nat × Str
  | '0' :: x :: d :: s =>
    if (x = 'x' ∨ x = 'X') ∧ isDigit 16 d then (16, d :: s) else (8, '0' :: x :: d :: s)
  | '0' :: s => (8, '0' :: s)
  | s => (10, s)

def splitSign : Str → Bool × Str
  | '-' :: s => (true, s)
  | '+' :: s => (false, s)
  | s => (false, s)

def digitsValue (base : Nat) (s : Str) : Nat :=
  s.foldl (fun n c => base * n + (digitValue c).getD 0) 0

/-- `strtoull(nptr, &endptr, 0)`: the number and the string at `endptr`, which is `nptr` again when
there are no digits. -/
def strtoull (nptr : Str) : BitVec 64 × Str :=
  let (neg, s) := splitSign (nptr.dropWhile isspace)
  let (base, s) := splitBase s
  let digits := s.takeWhile (isDigit base)
  if digits = [] then (0, nptr)
  else
    let n := digitsValue base digits
    (if n ≥ 2 ^ 64 then -1 else if neg then -BitVec.ofNat 64 n else BitVec.ofNat 64 n,
      s.dropWhile (isDigit base))

example : strtoull [' ', '-', '0', 'x', 'F', 'f', ' '] = (-255, [' ']) := by decide

/-- NEMU, and the lines that the debugger has printed. -/
structure Session where
  machine : Machine
  out : List String

abbrev S := EStateM String Session

def printf (line : String) : S Unit := modify fun s => { s with out := s.out ++ [line] }

/-- What the interpreter prints is left out. -/
def liftCpu (x : M Unit) : S Unit := fun s =>
  match x s.machine with
  | .ok a m => .ok a { s with machine := m }
  | .error e m => .error e { s with machine := m }

def regs : List String :=
  ["$0", "ra", "sp", "gp", "tp", "t0", "t1", "t2", "s0", "s1", "a0", "a1", "a2", "a3", "a4", "a5",
    "a6", "a7", "s2", "s3", "s4", "s5", "s6", "s7", "s8", "s9", "s10", "s11", "t3", "t4", "t5", "t6"]

/-- `"%-3s = 0x%08x\n"`. -/
def isaRegDisplay : S Unit :=
  (List.finRange 32).forM fun i => do
    let name := regs.getD i ""
    printf (name.pushn ' ' (3 - name.length) ++ " = " ++ fmtWord ((← get).machine.cpu.gpr i))

/-- The entries of `cmd_table`. -/
inductive Cmd
  | help
  | c
  | q
  | si
  | info
  deriving DecidableEq

structure Entry where
  name : Str
  description : String
  handler : Cmd

def cmdTable : List Entry :=
  [⟨['h', 'e', 'l', 'p'], "Display information about all supported commands", .help⟩,
    ⟨['c'], "Continue the execution of the program", .c⟩,
    ⟨['q'], "Exit NEMU", .q⟩,
    ⟨['s', 'i'], "Make the program execute N instructions step by step and then pause. " ++
      "When N is not given, it defaults to 1", .si⟩,
    ⟨['i', 'n', 'f', 'o'], "Print register or watchpoint information", .info⟩]

def Entry.text (e : Entry) : String := String.ofList e.name ++ " - " ++ e.description

section

variable (pmem : BitVec 64) (csDisasm : Word → Word → Nat)

/-- `cpu_exec(-1)`. -/
def cmdC (_args : Option Str) : S Int := do
  liftCpu (cpuExec pmem csDisasm (2 ^ 64 - 1))
  return 0

def cmdQ (_args : Option Str) : S Int := do
  liftCpu (modify fun m => { m with nemuState := { m.nemuState with state := .quit } })
  return -1

def cmdSi (args : Option Str) : S Int := do
  match args with
  | none | some [] =>
    liftCpu (cpuExec pmem csDisasm 1)
    return 0
  | some args =>
    let (n, endptr) := strtoull args
    if endptr ≠ [] then
      printf ("Invalid number format: " ++ String.ofList args)
      return -1
    liftCpu (cpuExec pmem csDisasm n.toNat)
    return 0

def cmdInfo (args : Option Str) : S Int := do
  if args = none ∨ args = some ['r'] then isaRegDisplay
  return 0

/-- `saved` is where `strtok(NULL, " ")` goes on. -/
def cmdHelp (_args : Option Str) (saved : Str) : S Int := do
  match strtok saved with
  | none => cmdTable.forM fun e => printf e.text
  | some (arg, _) =>
    match cmdTable.find? (·.name = arg) with
    | some e => printf e.text
    | none => printf ("Unknown command '" ++ String.ofList arg ++ "'")
  return 0

def Cmd.run (args : Option Str) (saved : Str) : Cmd → S Int
  | .help => cmdHelp args saved
  | .c => cmdC pmem csDisasm args
  | .q => cmdQ args
  | .si => cmdSi pmem csDisasm args
  | .info => cmdInfo args

/-- `cmd + strlen(cmd) + 1`, unless it is not before `str_end`. -/
def argsOf (str cmd : Str) : Option Str :=
  let args := (str.takeWhile (· = ' ')).length + cmd.length + 1
  if args ≥ str.length then none else some (str.drop args)

/-- The body of the loop, and whether it returns. -/
def handleLine (str : Str) : S Bool := do
  match strtok str with
  | none => return false
  | some (cmd, saved) =>
    match cmdTable.find? (·.name = cmd) with
    | some e => return (← e.handler.run pmem csDisasm (argsOf str cmd) saved) < 0
    | none =>
      printf ("Unknown command '" ++ String.ofList cmd ++ "'")
      return false

/-- How the loop was left, with the line it was left after and those not yet read. -/
inductive Return
  | batch
  | endOfInput
  | after (str : Str) (unread : List Str)
  deriving DecidableEq

def sdbLoop : List Str → S Return
  | [] => return .endOfInput
  | str :: rest => do
    if ← handleLine pmem csDisasm str then return .after str rest
    sdbLoop rest

/-- `lines` is what `rl_gets` gives, one after the other, and then `NULL`. -/
def sdbMainloop (isBatchMode : Bool) (lines : List Str) : S Return := do
  if isBatchMode then
    let _ ← cmdC pmem csDisasm none
    return .batch
  sdbLoop pmem csDisasm lines

end

def firstWord (str : Str) : Option Str := (strtok str).map Prod.fst

def Unknown (str : Str) : Prop := ∃ cmd, firstWord str = some cmd ∧ ∀ e ∈ cmdTable, e.name ≠ cmd

/-- `si` with an argument that `strtoull` does not read to its end. -/
def IllNumber (str : Str) : Prop :=
  firstWord str = some ['s', 'i'] ∧
    ∃ args, argsOf str ['s', 'i'] = some args ∧ args ≠ [] ∧ (strtoull args).2 ≠ []

/-- An argument that its command does not know. -/
def IllFormed (str : Str) : Prop :=
  IllNumber str ∨
    (∃ saved arg, strtok str = some (['h', 'e', 'l', 'p'], saved) ∧ firstWord saved = some arg ∧
      ∀ e ∈ cmdTable, e.name ≠ arg) ∨
    firstWord str = some ['i', 'n', 'f', 'o'] ∧
      ∃ args, argsOf str ['i', 'n', 'f', 'o'] = some args ∧ args ≠ ['r']

/-- The loop is left after `q` or at the end of the input only, and a wrong command or argument
before that changes nothing. -/
structure KeepsReading (pmem : BitVec 64) (csDisasm : Word → Word → Nat) (lines : List Str) :
    Prop where
  returns : ∀ s r s', sdbMainloop pmem csDisasm false lines s = .ok r s' →
    r = .endOfInput ∨ ∃ str rest, r = .after str rest ∧ firstWord str = some ['q']
  errors : ∀ str ∈ lines.takeWhile (firstWord · ≠ some ['q']), Unknown str ∨ IllFormed str →
    ∀ rest s, ∃ out, sdbMainloop pmem csDisasm false (str :: rest) s =
      sdbMainloop pmem csDisasm false rest { s with out := out }

/-- The computation gives `a`, and may print. -/
def Prints {α : Type} (x : S α) (a : α) : Prop := ∀ s, ∃ out, x s = .ok a { s with out := out }

theorem prints_pure {α : Type} (a : α) : Prints (pure a : S α) a := fun s => ⟨s.out, rfl⟩

theorem prints_printf (line : String) : Prints (printf line) () := fun s => ⟨s.out ++ [line], rfl⟩

theorem prints_bind {α β : Type} {x : S α} {f : α → S β} {a : α} {b : β} (hx : Prints x a)
    (hf : Prints (f a) b) : Prints (x >>= f) b := by
  intro s
  obtain ⟨out, hout⟩ := hx s
  obtain ⟨out', hout'⟩ := hf { s with out := out }
  exact ⟨out', (bind_of_ok hout).trans hout'⟩

theorem prints_forM {α : Type} {f : α → S Unit} (hf : ∀ a, Prints (f a) ()) (l : List α) :
    Prints (l.forM f) () := by
  induction l with
  | nil => exact prints_pure ()
  | cons a l ih => exact prints_bind (hf a) ih

theorem prints_isaRegDisplay : Prints isaRegDisplay () := by
  refine prints_forM (fun i s => ?_) _
  exact ⟨_, rfl⟩

theorem prints_cmdInfo (args : Option Str) : Prints (cmdInfo args) 0 := by
  by_cases h : args = none ∨ args = some ['r']
  · rw [cmdInfo, if_pos h]
    exact prints_bind prints_isaRegDisplay (prints_pure 0)
  · rw [cmdInfo, if_neg h]
    exact prints_pure 0

theorem prints_cmdHelp (args : Option Str) (saved : Str) : Prints (cmdHelp args saved) 0 := by
  rw [cmdHelp]
  cases strtok saved with
  | none => exact prints_bind (prints_forM (fun e : Entry => prints_printf e.text) _) (prints_pure 0)
  | some w =>
    obtain ⟨arg, rest⟩ := w
    dsimp only
    cases cmdTable.find? (·.name = arg) with
    | none => exact prints_bind (prints_printf _) (prints_pure _)
    | some e => exact prints_bind (prints_printf _) (prints_pure _)

variable (pmem : BitVec 64) (csDisasm : Word → Word → Nat)

theorem find_entry {cmd : Str} {e : Entry} (h : cmdTable.find? (·.name = cmd) = some e) :
    e ∈ cmdTable ∧ e.name = cmd := by
  have hname := List.find?_some h
  rw [decide_eq_true_iff] at hname
  exact ⟨List.mem_of_find?_eq_some h, hname⟩

theorem handleLine_blank {str : Str} (h : strtok str = none) :
    Prints (handleLine pmem csDisasm str) false := by
  rw [handleLine, h]
  exact prints_pure false

theorem handleLine_unknown {str : Str} (h : Unknown str) :
    Prints (handleLine pmem csDisasm str) false := by
  obtain ⟨cmd, hword, hall⟩ := h
  obtain ⟨w, hw, rfl⟩ := Option.map_eq_some_iff.mp hword
  have hnone : cmdTable.find? (·.name = w.1) = none :=
    List.find?_eq_none.mpr fun e he hname => hall e he (of_decide_eq_true hname)
  rw [handleLine, hw]
  dsimp only
  rw [hnone]
  exact prints_bind (prints_printf _) (prints_pure false)

theorem handleLine_entry {str cmd saved : Str} (hw : strtok str = some (cmd, saved)) {e : Entry}
    (he : cmdTable.find? (·.name = cmd) = some e) : handleLine pmem csDisasm str =
      (do return (← e.handler.run pmem csDisasm (argsOf str cmd) saved) < 0) := by
  rw [handleLine, hw]
  dsimp only
  rw [he]

theorem handleLine_help {str saved : Str} (hw : strtok str = some (['h', 'e', 'l', 'p'], saved)) :
    Prints (handleLine pmem csDisasm str) false := by
  rw [handleLine_entry pmem csDisasm hw rfl]
  exact prints_bind (prints_cmdHelp (argsOf str ['h', 'e', 'l', 'p']) saved) (prints_pure _)

theorem handleLine_info {str saved : Str} (hw : strtok str = some (['i', 'n', 'f', 'o'], saved)) :
    Prints (handleLine pmem csDisasm str) false := by
  rw [handleLine_entry pmem csDisasm hw rfl]
  exact prints_bind (prints_cmdInfo (argsOf str ['i', 'n', 'f', 'o'])) (prints_pure _)

theorem handleLine_illNumber {str : Str} (h : IllNumber str) :
    Prints (handleLine pmem csDisasm str) true := by
  obtain ⟨hword, args, hargs, hne, hend⟩ := h
  obtain ⟨⟨cmd, saved⟩, hw, rfl⟩ := Option.map_eq_some_iff.mp hword
  rw [handleLine_entry pmem csDisasm hw rfl, hargs]
  refine prints_bind (a := -1) ?_ (prints_pure _)
  cases args with
  | nil => exact absurd rfl hne
  | cons c args =>
    show Prints (cmdSi pmem csDisasm (some (c :: args))) (-1)
    unfold cmdSi
    dsimp only
    rw [if_pos hend]
    exact prints_bind (prints_printf _) (prints_pure _)

theorem exec_succeeds {n : Nat} {s s' : Session} {b : Bool}
    (h : (do
      let r ← (do
        liftCpu (cpuExec pmem csDisasm n)
        return 0 : S Int)
      return r < 0 : S Bool) s = .ok b s') : b = false := by
  obtain ⟨r, t, hr, hb⟩ := bind_eq_ok h
  obtain ⟨u, t', -, hr⟩ := bind_eq_ok hr
  cases hr
  cases hb
  rfl

theorem handleLine_goes_on {str : Str} (hq : firstWord str ≠ some ['q']) (hnum : ¬IllNumber str)
    {s s' : Session} {b : Bool} (h : handleLine pmem csDisasm str s = .ok b s') : b = false := by
  have hprints : ∀ {x : S Bool}, Prints x false → x s = .ok b s' → b = false := by
    intro x hx hres
    obtain ⟨out, hout⟩ := hx s
    cases hout.symm.trans hres
    rfl
  cases hw : strtok str with
  | none => exact hprints (handleLine_blank pmem csDisasm hw) h
  | some w =>
    obtain ⟨cmd, saved⟩ := w
    have hword : firstWord str = some cmd := by rw [firstWord, hw]; rfl
    cases hfind : cmdTable.find? (·.name = cmd) with
    | none =>
      refine hprints (handleLine_unknown pmem csDisasm ⟨cmd, hword, fun e he hname => ?_⟩) h
      exact List.find?_eq_none.mp hfind e he (decide_eq_true hname)
    | some e =>
      obtain ⟨hmem, rfl⟩ := find_entry hfind
      have hentry := handleLine_entry pmem csDisasm hw hfind
      rw [hentry] at h
      simp only [cmdTable, List.mem_cons, List.not_mem_nil, or_false] at hmem
      rcases hmem with rfl | rfl | rfl | rfl | rfl
      · exact hprints (hentry ▸ handleLine_help pmem csDisasm hw) h
      · exact exec_succeeds pmem csDisasm h
      · exact absurd hword hq
      · cases hargs : argsOf str ['s', 'i'] with
        | none =>
          rw [hargs] at h
          exact exec_succeeds pmem csDisasm h
        | some args =>
          rw [hargs] at h
          cases args with
          | nil => exact exec_succeeds pmem csDisasm h
          | cons c args =>
            have hend : ¬(strtoull (c :: args)).2 ≠ [] :=
              fun hend => hnum ⟨hword, c :: args, hargs, List.cons_ne_nil c args, hend⟩
            have hexec : Cmd.run pmem csDisasm (some (c :: args)) saved .si = (do
                liftCpu (cpuExec pmem csDisasm (strtoull (c :: args)).1.toNat)
                return 0) := by
              show cmdSi pmem csDisasm (some (c :: args)) = _
              unfold cmdSi
              dsimp only
              rw [if_neg hend]
            rw [hexec] at h
            exact exec_succeeds pmem csDisasm h
      · exact hprints (hentry ▸ handleLine_info pmem csDisasm hw) h

theorem handleLine_quit {str : Str} (hq : firstWord str = some ['q']) (s : Session) :
    ∃ s', handleLine pmem csDisasm str s = .ok true s' := by
  obtain ⟨⟨cmd, saved⟩, hw, rfl⟩ := Option.map_eq_some_iff.mp hq
  rw [handleLine_entry pmem csDisasm hw rfl]
  exact ⟨_, rfl⟩

theorem sdbMainloop_next {str : Str} {rest : List Str} {s s₁ : Session}
    (h : handleLine pmem csDisasm str s = .ok false s₁) :
    sdbMainloop pmem csDisasm false (str :: rest) s = sdbMainloop pmem csDisasm false rest s₁ := by
  show (handleLine pmem csDisasm str >>= _) s = _
  rw [bind_of_ok h]
  rfl

theorem sdbMainloop_after {str : Str} {rest : List Str} {s s₁ : Session}
    (h : handleLine pmem csDisasm str s = .ok true s₁) :
    sdbMainloop pmem csDisasm false (str :: rest) s = .ok (.after str rest) s₁ := by
  show (handleLine pmem csDisasm str >>= _) s = _
  rw [bind_of_ok h]
  rfl

theorem returns_of_no_illNumber {lines : List Str}
    (hnum : ∀ str ∈ lines.takeWhile (firstWord · ≠ some ['q']), ¬IllNumber str) {s s' : Session}
    {r : Return} (h : sdbMainloop pmem csDisasm false lines s = .ok r s') :
    r = .endOfInput ∨ ∃ str rest, r = .after str rest ∧ firstWord str = some ['q'] := by
  induction lines generalizing s with
  | nil =>
    cases h
    exact .inl rfl
  | cons str rest ih =>
    cases hline : handleLine pmem csDisasm str s with
    | error e s₁ =>
      have herr : sdbMainloop pmem csDisasm false (str :: rest) s = .error e s₁ :=
        bind_of_error hline
      cases herr.symm.trans h
    | ok b s₁ =>
      by_cases hq : firstWord str = some ['q']
      · obtain ⟨s₂, hquit⟩ := handleLine_quit pmem csDisasm hq s
        rw [sdbMainloop_after pmem csDisasm hquit] at h
        cases h
        exact .inr ⟨str, rest, rfl, hq⟩
      · have hread : (fun t => decide (firstWord t ≠ some ['q'])) str = true := decide_eq_true hq
        rw [List.takeWhile_cons, if_pos hread] at hnum
        obtain rfl := handleLine_goes_on pmem csDisasm hq (hnum str List.mem_cons_self) hline
        rw [sdbMainloop_next pmem csDisasm hline] at h
        exact ih (fun t ht => hnum t (List.mem_cons_of_mem str ht)) h

theorem sdbMainloop_prints {str : Str} (h : Prints (handleLine pmem csDisasm str) false)
    (rest : List Str) (s : Session) : ∃ out, sdbMainloop pmem csDisasm false (str :: rest) s =
      sdbMainloop pmem csDisasm false rest { s with out := out } := by
  obtain ⟨out, hout⟩ := h s
  exact ⟨out, sdbMainloop_next pmem csDisasm hout⟩

/-- The loop goes on until `q` or the end of the input, exactly when no line before `q` gives `si`
an ill-formed number. -/
theorem sdb_keeps_reading_iff (pmem : BitVec 64) (csDisasm : Word → Word → Nat) (lines : List Str) :
    KeepsReading pmem csDisasm lines ↔
      ∀ str ∈ lines.takeWhile (firstWord · ≠ some ['q']), ¬IllNumber str := by
  constructor
  · intro hkeep str hstr hnum
    obtain ⟨out, hout⟩ := handleLine_illNumber pmem csDisasm hnum ⟨startMachine, []⟩
    obtain ⟨out', hrest⟩ := hkeep.errors str hstr (.inr (.inl hnum)) [] _
    cases (sdbMainloop_after pmem csDisasm hout).symm.trans hrest
  · intro hnum
    refine ⟨fun s r s' h => returns_of_no_illNumber pmem csDisasm hnum h,
      fun str hstr hbad rest s => ?_⟩
    rcases hbad with hunknown | hill | ⟨saved, arg, hw, -⟩ | ⟨hword, -⟩
    · exact sdbMainloop_prints pmem csDisasm (handleLine_unknown pmem csDisasm hunknown) rest s
    · exact absurd hill (hnum str hstr)
    · exact sdbMainloop_prints pmem csDisasm (handleLine_help pmem csDisasm hw) rest s
    · obtain ⟨⟨cmd, saved⟩, hw, rfl⟩ := Option.map_eq_some_iff.mp hword
      exact sdbMainloop_prints pmem csDisasm (handleLine_info pmem csDisasm hw) rest s

/-- `si x` ends the session, and the `q` behind it is never read. -/
theorem bad_number_ends_session :
    ¬KeepsReading 0x10000 Monitor.oneInst [['s', 'i', ' ', 'x'], ['q']] := by
  intro hkeep
  have hread := hkeep.returns ⟨startMachine, []⟩ (.after ['s', 'i', ' ', 'x'] [['q']]) _ rfl
  rcases hread with h | ⟨str, rest, h, hq⟩
  · cases h
  · cases h
    cases hq

end Riscv32Cpu.Nemu.Sdb
