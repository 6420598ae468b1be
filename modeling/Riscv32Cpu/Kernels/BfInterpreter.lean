/- module: Riscv32Cpu/Kernels/BfInterpreter
   source: CODE/am-kernels/kernels/demo/src/bf/bf.c
   digest: The Brainfuck interpreter of the demo, which runs every text. -/

import Mathlib.Logic.Function.Basic
import Riscv32Cpu.Lib.LoopCode

set_option autoImplicit false
set_option relaxedAutoImplicit false

namespace Riscv32Cpu.Kernels.BfInterpreter

open Lib.LoopCode

/-- `struct bfi`. The commands are numbered as they are added, each the `next` of the one before
it. -/
structure Bfi where
  cmd : Char
  jmp : Option Nat

/-- The program list, of `len` commands, and `j`. -/
structure Loader where
  pgm : Nat → Bfi
  len : Nat
  j : Option Nat

def mallocFailed : String := "malloc failed! exiting...\n"

section

-- Whether a call of the C library's `malloc` succeeds, by its number. (klib has none.)
variable (malloc : Nat → Bool)

namespace Loader

def isCmd (l : Loader) (ch : Char) : Bool :=
  ch = '<' || ch = '>' || ch = '+' || ch = '-' || ch = ',' || ch = '.' || ch = '[' ||
    (ch = ']' && l.j.isSome)

/-- What is done with the new command. -/
def link (l : Loader) (ch : Char) : Loader :=
  let n := l.len
  if ch = '[' then
    { pgm := Function.update l.pgm n ⟨ch, l.j⟩, len := n + 1, j := some n }
  else if ch = ']' then
    match l.j with
    | some j =>
      let pgm := Function.update l.pgm n ⟨ch, some j⟩
      { pgm := Function.update pgm j ⟨(pgm j).cmd, some n⟩, len := n + 1, j := (pgm j).jmp }
    | none => l
  else { l with pgm := Function.update l.pgm n ⟨ch, none⟩, len := n + 1 }

/-- The first loop. Call 0 of `malloc` was for the first cell of the tape. -/
def addAll : List Char → Loader → Except String Loader
  | [], l => .ok l
  | ch :: s, l =>
    if l.isCmd ch then
      if malloc (l.len + 1) then addAll s (l.link ch) else .error mallocFailed
    else addAll s l

/-- `while(j)`, given fuel: left over opening brackets are ignored. -/
def ignore : Nat → Loader → Option Loader
  | 0, _ => none
  | n + 1, l =>
    match l.j with
    | none => some l
    | some p => ignore n { l with pgm := Function.update l.pgm p ⟨' ', none⟩, j := (l.pgm p).jmp }

end Loader

/-- The program list of a text, or the text that is printed before `halt(1)`. There is no more to
ignore than there are commands. The first cell is cleared without a look at the pointer to it. -/
def load (prog : List Char) : Option (Except String Loader) :=
  if malloc 0 then
    match Loader.addAll malloc prog ⟨fun _ => ⟨'\x00', none⟩, 0, none⟩ with
    | .ok l => (l.ignore (l.len + 1)).map .ok
    | .error e => some (.error e)
  else none

/-- The cells to the left of `m`, `m->val`, those to the right, the characters that follow the
program in memory, what was written, how often `malloc` was called, and what was printed before
`halt(1)`. -/
structure Machine where
  prev : List (BitVec 8)
  val : BitVec 8
  next : List (BitVec 8)
  input : List (BitVec 8)
  output : List (BitVec 8)
  calls : Nat
  halted : Option String

namespace Machine

def left (m : Machine) : Machine :=
  match m.prev with
  | [] => { m with halted := some "Hit start of tape\n" }
  | v :: prev => { m with prev, val := v, next := m.val :: m.next }

def right (m : Machine) : Machine :=
  match m.next with
  | [] =>
    if malloc m.calls then
      { m with prev := m.val :: m.prev, val := 0, calls := m.calls + 1 }
    else { m with calls := m.calls + 1, halted := some mallocFailed }
  | v :: next => { m with prev := m.val :: m.prev, val := v, next }

/-- A character that is 0 leaves the cell as it is. -/
def read (m : Machine) : Option Machine :=
  match m.input with
  | [] => none
  | ch :: input => some (if ch ≠ 0 then { m with val := ch, input } else { m with input })

end Machine

/-- The loop that executes the program, given fuel. -/
def execute (l : Loader) : Nat → Nat → Machine → Option Machine
  | 0, _, _ => none
  | k + 1, n, m =>
    if l.len < n then none
    else if m.halted.isSome then some m
    else if n = l.len then some m
    else
      let again n m := execute l k (n + 1) m
      match (l.pgm n).cmd with
      | '+' => again n { m with val := m.val + 1 }
      | '-' => again n { m with val := m.val - 1 }
      | '.' => again n { m with output := m.output ++ [m.val] }
      | ',' => m.read.bind (again n)
      | '[' => if m.val = 0 then (l.pgm n).jmp.bind fun n => again n m else again n m
      | ']' => if m.val ≠ 0 then (l.pgm n).jmp.bind fun n => again n m else again n m
      | '<' => again n m.left
      | '>' => again n (m.right malloc)
      | _ => again n m

end

inductive Command
  | inc
  | dec
  | out
  | inp
  | left
  | right
  | nop
deriving DecidableEq

def token : Char → Option (Token Command)
  | '+' => some (.act .inc)
  | '-' => some (.act .dec)
  | '.' => some (.act .out)
  | ',' => some (.act .inp)
  | '<' => some (.act .left)
  | '>' => some (.act .right)
  | '[' => some .opening
  | ']' => some .closing
  | _ => none

def tokens (prog : List Char) : List (Token Command) := prog.filterMap token

def basis (malloc : Nat → Bool) : Basis Command Machine where
  act
    | .inc, m => some { m with val := m.val + 1 }
    | .dec, m => some { m with val := m.val - 1 }
    | .out, m => some { m with output := m.output ++ [m.val] }
    | .inp, m => m.read
    | .left, m => some m.left
    | .right, m => some (m.right malloc)
    | .nop, m => some m
  test m := m.val != 0
  live m := m.halted.isNone

def Bfi.instr (n : Bfi) : Option (Instr Command) :=
  match n.cmd with
  | '+' => some (.act .inc)
  | '-' => some (.act .dec)
  | '.' => some (.act .out)
  | ',' => some (.act .inp)
  | '[' => n.jmp.map .fwd
  | ']' => n.jmp.map .bck
  | '<' => some (.act .left)
  | '>' => some (.act .right)
  | _ => some (.act .nop)

def codeOf (l : Loader) (n : Nat) : Option (Instr Command) :=
  if l.len < n then none else if n = l.len then some .stop else (l.pgm n).instr

theorem execute_eq_run (malloc : Nat → Bool) {l : Loader}
    (h : ∀ n < l.len, (l.pgm n).instr.isSome) (k n : Nat) (m : Machine) :
    execute malloc l k n m = run (basis malloc) (codeOf l) k n m := by
  induction k generalizing n m with
  | zero => rfl
  | succ k ih =>
    rw [execute, run_succ, codeOf]
    by_cases hout : l.len < n
    · rw [if_pos hout, if_pos hout, Option.bind_none]
    · rw [if_neg hout, if_neg hout]
      by_cases hend : n = l.len
      · rw [if_pos hend, if_pos hend, Option.bind_some]
        simp
      · have hsome := h n (by omega)
        obtain ⟨i, hi⟩ := Option.isSome_iff_exists.mp hsome
        rw [if_neg hend, if_neg hend, hi, Option.bind_some]
        by_cases hh : m.halted.isSome = true
        · rw [if_pos hh, if_neg (by simpa [basis] using Option.isSome_iff_ne_none.mp hh)]
        · have hlive : (basis malloc).live m = true := by simpa [basis] using hh
          have htest : ((basis malloc).test m = true) = (m.val ≠ 0) := propext bne_iff_ne
          rw [if_neg hh, if_pos hlive]
          unfold Bfi.instr at hi
          split at hi
          case h_5 =>
            obtain ⟨t, hjmp, rfl⟩ := Option.map_eq_some_iff.mp hi
            simp only [hjmp, Option.bind_some, ih, htest]
            by_cases hv : m.val = 0
            · rw [if_pos hv, if_neg (not_not.mpr hv)]
            · rw [if_neg hv, if_pos hv]
          case h_6 =>
            obtain ⟨t, hjmp, rfl⟩ := Option.map_eq_some_iff.mp hi
            simp only [hjmp, Option.bind_some, ih, htest]
            by_cases hv : m.val = 0
            · rw [if_neg (not_not.mpr hv), if_neg (not_not.mpr hv)]
            · rw [if_pos hv, if_pos hv]
          case h_4 =>
            obtain rfl := Option.some.inj hi
            simp only [ih]
            rfl
          all_goals
            obtain rfl := Option.some.inj hi
            exact ih _ _

/-- The list holds a program from `base` on. -/
def Holds (pgm : Nat → Bfi) (base : Nat) (p : Prog Command) : Prop :=
  Placed (fun n => (pgm n).instr) base p

theorem Holds.congr {pgm pgm' : Nat → Bfi} {base : Nat} {p : Prog Command} (h : Holds pgm base p)
    (heq : ∀ k, base ≤ k → k < base + p.size → pgm' k = pgm k) : Holds pgm' base p :=
  Placed.congr h fun k hk hlt => congrArg Bfi.instr (heq k hk hlt)

/-- The first `n` commands are what was read: `p` after the innermost open bracket, `st` before
the open brackets, which `j` chains. -/
def Laid (pgm : Nat → Bfi) : Nat → Prog Command → List (Prog Command) → Option Nat → Prop
  | n, p, [], j => j = none ∧ p.size = n ∧ Holds pgm 0 p
  | n, p, q :: st, j => ∃ o, j = some o ∧ (pgm o).cmd = '[' ∧ o + 1 + p.size = n ∧
      Holds pgm (o + 1) p ∧ Laid pgm o q st (pgm o).jmp

section Laid

variable {pgm pgm' : Nat → Bfi} {n : Nat} {p : Prog Command} {st : List (Prog Command)}
  {j : Option Nat}

theorem Laid.congr (h : Laid pgm n p st j) (heq : ∀ k < n, pgm' k = pgm k) :
    Laid pgm' n p st j := by
  induction st generalizing n p j with
  | nil =>
    obtain ⟨hj, hsize, hp⟩ := h
    exact ⟨hj, hsize, hp.congr fun k _ hk => heq k (by omega)⟩
  | cons q st ih =>
    obtain ⟨o, hj, hcmd, hsize, hp, hrest⟩ := h
    have ho := heq o (by omega)
    refine ⟨o, hj, by rw [ho, hcmd], hsize, hp.congr fun k _ hk => heq k (by omega), ?_⟩
    rw [ho]
    exact ih hrest fun k hk => heq k (by omega)

theorem Laid.append (h : Laid pgm n p st j) {r : Prog Command} (hr : Holds pgm n r) :
    Laid pgm (n + r.size) (p.append r) st j := by
  cases st with
  | nil =>
    obtain ⟨hj, hsize, hp⟩ := h
    refine ⟨hj, by rw [Prog.size_append, hsize], placed_append.mpr ⟨hp, ?_⟩⟩
    rwa [Nat.zero_add, hsize]
  | cons q st =>
    obtain ⟨o, hj, hcmd, hsize, hp, hrest⟩ := h
    refine ⟨o, hj, hcmd, by rw [Prog.size_append, ← Nat.add_assoc, hsize],
      placed_append.mpr ⟨hp, ?_⟩, hrest⟩
    rwa [hsize]

theorem Laid.length_le (h : Laid pgm n p st j) : st.length ≤ n := by
  induction st generalizing n p j with
  | nil => exact Nat.zero_le _
  | cons q st ih =>
    obtain ⟨o, -, -, hsize, -, hrest⟩ := h
    have hle := ih hrest
    rw [List.length_cons]
    omega

end Laid

/-- The list after a character, where there is memory for what it needs. -/
def Loader.next (l : Loader) (ch : Char) : Loader := if l.isCmd ch then l.link ch else l

/-- What the loader has after a reading. -/
def Loaded (l : Loader) (r : Reading Command) : Prop := Laid l.pgm l.len r.cur r.opened l.j

section Loaded

variable {l : Loader} {r : Reading Command}

theorem Loaded.act (h : Loaded l r) {ch : Char} {b : Command}
    (hnext : l.next ch = { l with pgm := Function.update l.pgm l.len ⟨ch, none⟩, len := l.len + 1 })
    (hinstr : Bfi.instr ⟨ch, none⟩ = some (.act b)) : Loaded (l.next ch) (r.read (.act b)) := by
  have hkeep : Laid (Function.update l.pgm l.len ⟨ch, none⟩) l.len r.cur r.opened l.j :=
    Laid.congr h fun k hk => Function.update_of_ne (Nat.ne_of_lt hk) ..
  have hself : Function.update l.pgm l.len ⟨ch, none⟩ l.len = ⟨ch, none⟩ := Function.update_self ..
  have hhere : Holds (Function.update l.pgm l.len ⟨ch, none⟩) l.len (.act b .done) :=
    ⟨(congrArg Bfi.instr hself).trans hinstr, trivial⟩
  rw [hnext]
  exact hkeep.append hhere

theorem Loaded.opening (h : Loaded l r) : Loaded (l.next '[') (r.read .opening) := by
  have hself : Function.update l.pgm l.len ⟨'[', l.j⟩ l.len = ⟨'[', l.j⟩ := Function.update_self ..
  refine ⟨l.len, rfl, congrArg Bfi.cmd hself, rfl, trivial, ?_⟩
  show Laid (Function.update l.pgm l.len ⟨'[', l.j⟩) l.len r.cur r.opened
    (Function.update l.pgm l.len ⟨'[', l.j⟩ l.len).jmp
  rw [hself]
  exact Laid.congr h fun k hk => Function.update_of_ne (Nat.ne_of_lt hk) ..

theorem Loaded.closing (h : Loaded l r) : Loaded (l.next ']') (r.read .closing) := by
  obtain ⟨pgm, len, j⟩ := l
  obtain ⟨p, st⟩ := r
  cases st with
  | nil =>
    obtain rfl : j = none := h.1
    exact h
  | cons q st =>
    obtain ⟨o, hj, hcmd, hsize, hp, hrest⟩ := h
    obtain rfl : j = some o := hj
    dsimp only at hsize hp hrest hcmd
    let pgm₁ := Function.update pgm len ⟨']', some o⟩
    let pgm₂ := Function.update pgm₁ o ⟨(pgm₁ o).cmd, some len⟩
    have hold : ∀ k, k ≠ len → pgm₁ k = pgm k := fun k hk => Function.update_of_ne hk ..
    have hopen : pgm₂ o = ⟨'[', some len⟩ := by
      rw [← hcmd, ← hold o (by omega)]
      exact Function.update_self ..
    have hclose : pgm₂ len = ⟨']', some o⟩ :=
      (Function.update_of_ne (by omega) ..).trans (Function.update_self ..)
    have hkeep : ∀ k, k ≠ o → k ≠ len → pgm₂ k = pgm k := fun k hk hlen =>
      (Function.update_of_ne hk ..).trans (hold k hlen)
    -- the loop stands where its opening bracket was waiting
    have hloop : Holds pgm₂ o (.loop p .done) := by
      refine ⟨?_, hp.congr fun k hk hlt => hkeep k (by omega) (by omega), ?_, trivial⟩
      · rw [hsize]
        exact congrArg Bfi.instr hopen
      · rw [hsize]
        exact congrArg Bfi.instr hclose
    have hlaid := (hrest.congr fun k hk => hkeep k (by omega) (by omega)).append hloop
    have hlen : o + (Prog.loop p .done).size = len + 1 := by
      rw [Prog.size, Prog.size]
      omega
    rw [hlen, ← hold o (by omega)] at hlaid
    exact hlaid

theorem Loaded.token (h : Loaded l r) {ch : Char} {t : Token Command} (ht : token ch = some t) :
    Loaded (l.next ch) (r.read t) := by
  unfold BfInterpreter.token at ht
  split at ht
  case h_7 =>
    obtain rfl := Option.some.inj ht
    exact h.opening
  case h_8 =>
    obtain rfl := Option.some.inj ht
    exact h.closing
  case h_9 => cases ht
  all_goals
    obtain rfl := Option.some.inj ht
    exact h.act rfl rfl

end Loaded

theorem next_comment {l : Loader} {ch : Char} (h : token ch = none) : l.next ch = l := by
  refine if_neg fun hcmd => ?_
  simp only [Loader.isCmd, Bool.or_eq_true, Bool.and_eq_true, decide_eq_true_eq] at hcmd
  rcases hcmd with ((((((rfl | rfl) | rfl) | rfl) | rfl) | rfl) | rfl) | ⟨rfl, -⟩ <;> cases h

theorem loaded_foldl (prog : List Char) {l : Loader} {r : Reading Command} (h : Loaded l r) :
    Loaded (prog.foldl Loader.next l) ((tokens prog).foldl Reading.read r) := by
  induction prog generalizing l r with
  | nil => exact h
  | cons ch prog ih =>
    rw [List.foldl_cons, tokens, List.filterMap_cons]
    cases ht : token ch with
    | none =>
      rw [next_comment ht]
      exact ih h
    | some t => exact ih (h.token ht)

theorem ignore_loaded {n : Nat} {l : Loader} {p : Prog Command} {st : List (Prog Command)}
    (h : Laid l.pgm l.len p st l.j) (hn : st.length < n) :
    ∃ l', l.ignore n = some l' ∧ Holds l'.pgm 0 (Reading.finish .nop p st) ∧
      (Reading.finish .nop p st).size = l'.len := by
  induction st generalizing n l p with
  | nil =>
    obtain ⟨hj, hsize, hp⟩ := h
    cases n with
    | zero => cases hn
    | succ n => exact ⟨l, by rw [Loader.ignore, hj], hp, hsize⟩
  | cons q st ih =>
    obtain ⟨o, hj, -, hsize, hp, hrest⟩ := h
    cases n with
    | zero => cases hn
    | succ n =>
      rw [List.length_cons] at hn
      let pgm := Function.update l.pgm o ⟨' ', none⟩
      have hself : pgm o = ⟨' ', none⟩ := Function.update_self ..
      have hkeep : ∀ k, k ≠ o → pgm k = l.pgm k := fun k hk => Function.update_of_ne hk ..
      have hnop : Holds pgm o (.act .nop p) :=
        ⟨congrArg Bfi.instr hself, hp.congr fun k hk _ => hkeep k (by omega)⟩
      have hlaid := (hrest.congr fun k hk => hkeep k (by omega)).append hnop
      have hlen : o + (Prog.act .nop p).size = l.len := by
        rw [Prog.size]
        omega
      rw [hlen] at hlaid
      obtain ⟨l', hl', hholds, hsize'⟩ :=
        ih (n := n) (l := { l with pgm, j := (l.pgm o).jmp }) hlaid (by omega)
      exact ⟨l', by rw [Loader.ignore, hj]; exact hl', hholds, hsize'⟩

theorem len_link {l : Loader} {ch : Char} (h : l.isCmd ch = true) :
    (l.link ch).len = l.len + 1 := by
  rw [Loader.link]
  split
  · rfl
  · split
    · next hch =>
      subst hch
      cases hj : l.j with
      | some j => rfl
      | none => simp [Loader.isCmd, hj] at h
    · rfl

theorem len_next (l : Loader) (ch : Char) :
    (l.next ch).len = l.len + if l.isCmd ch then 1 else 0 := by
  rw [Loader.next]
  split
  · next h => exact len_link h
  · rfl

theorem len_foldl (prog : List Char) (l : Loader) : l.len ≤ (prog.foldl Loader.next l).len := by
  induction prog generalizing l with
  | nil => exact Nat.le_refl _
  | cons ch prog ih =>
    have hnext := len_next l ch
    exact Nat.le_trans (by omega) (ih (l.next ch))

section

variable {malloc : Nat → Bool}

theorem addAll_cons (ch : Char) (prog : List Char) (l : Loader) :
    Loader.addAll malloc (ch :: prog) l =
      if l.isCmd ch = true ∧ malloc (l.len + 1) = false then .error mallocFailed
      else Loader.addAll malloc prog (l.next ch) := by
  rw [Loader.addAll, Loader.next]
  cases l.isCmd ch with
  | false => rfl
  | true => cases malloc (l.len + 1) <;> rfl

theorem addAll_ok (prog : List Char) {l : Loader}
    (h : ∀ k, l.len < k → k ≤ (prog.foldl Loader.next l).len → malloc k = true) :
    Loader.addAll malloc prog l = .ok (prog.foldl Loader.next l) := by
  induction prog generalizing l with
  | nil => rfl
  | cons ch prog ih =>
    rw [List.foldl_cons] at h ⊢
    have hnext := len_next l ch
    have hgrow := len_foldl prog (l.next ch)
    rw [addAll_cons, if_neg]
    · exact ih fun k hk hle => h k (by omega) hle
    · rintro ⟨hcmd, hfail⟩
      rw [hcmd, if_pos rfl] at hnext
      rw [h _ (Nat.lt_succ_self _) (by omega)] at hfail
      cases hfail

theorem addAll_error (prog : List Char) {l : Loader} {k : Nat} (hk : l.len < k)
    (hle : k ≤ (prog.foldl Loader.next l).len) (h : malloc k = false) :
    Loader.addAll malloc prog l = .error mallocFailed := by
  induction prog generalizing l with
  | nil => exact absurd hk (Nat.not_lt_of_le hle)
  | cons ch prog ih =>
    rw [List.foldl_cons] at hle
    rw [addAll_cons]
    split
    · rfl
    · next hok =>
      refine ih ?_ hle
      have hnext := len_next l ch
      by_cases hcmd : l.isCmd ch = true
      · have hne : l.len + 1 ≠ k := by
          rintro rfl
          exact hok ⟨hcmd, h⟩
        rw [if_pos hcmd] at hnext
        omega
      · rw [if_neg hcmd] at hnext
        omega

end

/-- The list before left over brackets are ignored. -/
def listed (prog : List Char) : Loader :=
  prog.foldl Loader.next ⟨fun _ => ⟨'\x00', none⟩, 0, none⟩

theorem listed_holds (prog : List Char) :
    ∃ l, (listed prog).ignore ((listed prog).len + 1) = some l ∧
      Holds l.pgm 0 (mend .nop (tokens prog)) ∧ (mend .nop (tokens prog)).size = l.len := by
  have hstart : Loaded ⟨fun _ => ⟨'\x00', none⟩, 0, none⟩ ⟨.done, []⟩ := ⟨rfl, rfl, trivial⟩
  have hread := loaded_foldl prog hstart
  exact ignore_loaded hread (Nat.lt_succ_of_le hread.length_le)

theorem len_ignore {n : Nat} {l l' : Loader} (h : l.ignore n = some l') : l'.len = l.len := by
  induction n generalizing l with
  | zero => cases h
  | succ n ih =>
    rw [Loader.ignore] at h
    split at h
    · exact congrArg Loader.len (Option.some.inj h).symm
    · exact (ih h).trans rfl

/-- The interpreter runs every text for which there is memory: it does what the program does that is
left of the text without its unmatched brackets, which is the program itself where they all match.
Where a command finds no memory it says so and halts. -/
theorem runs_every_text (malloc : Nat → Bool) (prog : List Char) :
    ((∀ k ≤ (mend .nop (tokens prog)).size, malloc k = true) →
      ∃ l, load malloc prog = some (.ok l) ∧
        (∀ m m', (∃ k, execute malloc l k 0 m = some m') ↔
          Eval (basis malloc) (mend .nop (tokens prog)) m m') ∧
        ∀ p : Prog Command, p.tokens = tokens prog →
          ∀ m m', (∃ k, execute malloc l k 0 m = some m') ↔ Eval (basis malloc) p m m') ∧
    (malloc 0 = true → (∃ k ≤ (mend .nop (tokens prog)).size, malloc k = false) →
      load malloc prog = some (.error mallocFailed)) := by
  obtain ⟨l, hignore, hholds, hsize⟩ := listed_holds prog
  have hlen : (listed prog).len = (mend .nop (tokens prog)).size :=
    (len_ignore hignore).symm.trans hsize.symm
  constructor
  · intro hmem
    have hadd : Loader.addAll malloc prog _ = .ok (listed prog) :=
      addAll_ok prog fun k _ hk => hmem k (hlen ▸ hk)
    have hload : load malloc prog = some (.ok l) := by
      rw [load, if_pos (hmem 0 (Nat.zero_le _)), hadd]
      exact congrArg (Option.map Except.ok) hignore
    have hcode : ∀ k < l.len, codeOf l k = (l.pgm k).instr := fun k hk => by
      rw [codeOf, if_neg (by omega), if_neg (by omega)]
    have hplaced : Placed (codeOf l) 0 (mend .nop (tokens prog)) :=
      Placed.congr hholds fun k _ hk => hcode k (by omega)
    have hrun : ∀ m m', (∃ k, execute malloc l k 0 m = some m') ↔
        Eval (basis malloc) (mend .nop (tokens prog)) m m' := by
      intro m m'
      have heq := execute_eq_run malloc (l := l) fun n hn =>
        Placed.isSome hholds (Nat.zero_le _) (by omega)
      simp only [heq]
      refine run_iff_eval hplaced ?_
      rw [codeOf, if_neg (by omega), if_pos (by omega)]
    refine ⟨l, hload, hrun, fun p hp m m' => ?_⟩
    rw [hrun, ← hp, mend_tokens]
  · rintro hfirst ⟨k, hk, hfail⟩
    have hpos : 0 < k := by
      refine Nat.pos_of_ne_zero ?_
      rintro rfl
      rw [hfirst] at hfail
      cases hfail
    have hadd : Loader.addAll malloc prog ⟨fun _ => ⟨'\x00', none⟩, 0, none⟩ =
        .error mallocFailed :=
      addAll_error prog hpos (hlen.symm ▸ hk) hfail
    rw [load, if_pos hfirst, hadd]

end Riscv32Cpu.Kernels.BfInterpreter
