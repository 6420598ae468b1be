/- module: Riscv32Cpu/Lib/LoopCode
   digest: Loops in brackets: the programs behind a text, what they compute, and their jumps. -/

import Mathlib.Order.Basic

set_option autoImplicit false
set_option relaxedAutoImplicit false

namespace Riscv32Cpu.Lib.LoopCode

/-- Basic commands one after another, and loops around such programs. -/
inductive Prog (β : Type)
  | done
  | act (b : β) (rest : Prog β)
  | loop (body rest : Prog β)

inductive Token (β : Type)
  | act (b : β)
  | opening
  | closing
deriving DecidableEq

variable {β σ : Type}

namespace Prog

def tokens : Prog β → List (Token β)
  | done => []
  | act b rest => .act b :: rest.tokens
  | loop body rest => .opening :: body.tokens ++ .closing :: rest.tokens

def size : Prog β → Nat
  | done => 0
  | act _ rest => rest.size + 1
  | loop body rest => body.size + rest.size + 2

/-- How many loops are around its innermost command. -/
def depth : Prog β → Nat
  | done => 0
  | act _ rest => rest.depth
  | loop body rest => max (body.depth + 1) rest.depth

theorem length_tokens (p : Prog β) : p.tokens.length = p.size := by
  induction p with
  | done => rfl
  | act b rest ih => simp [tokens, size, ih]
  | loop body rest ihb ihr =>
    simp only [tokens, size, List.cons_append, List.length_cons, List.length_append, ihb, ihr]
    omega

/-- One program after another. -/
def append : Prog β → Prog β → Prog β
  | done, q => q
  | act b rest, q => act b (rest.append q)
  | loop body rest, q => loop body (rest.append q)

@[simp] theorem append_done (p : Prog β) : p.append done = p := by
  induction p with
  | done => rfl
  | act b rest ih => rw [append, ih]
  | loop body rest _ ihr => rw [append, ihr]

theorem append_assoc (p q r : Prog β) : (p.append q).append r = p.append (q.append r) := by
  induction p with
  | done => rfl
  | act b rest ih => rw [append, append, append, ih]
  | loop body rest _ ihr => rw [append, append, append, ihr]

theorem size_append (p q : Prog β) : (p.append q).size = p.size + q.size := by
  induction p with
  | done => simp [append, size]
  | act b rest ih =>
    simp only [append, size, ih]
    omega
  | loop body rest _ ihr =>
    simp only [append, size, ihr]
    omega

end Prog

/-- What has been read: the program inside the innermost open bracket, and the one before each
open bracket, from the inside out. -/
structure Reading (β : Type) where
  cur : Prog β
  opened : List (Prog β)

namespace Reading

/-- A closing bracket without an open one is passed over. -/
def read : Reading β → Token β → Reading β
  | ⟨p, st⟩, .act b => ⟨p.append (.act b .done), st⟩
  | ⟨p, st⟩, .opening => ⟨.done, p :: st⟩
  | ⟨p, q :: st⟩, .closing => ⟨q.append (.loop p .done), st⟩
  | ⟨p, []⟩, .closing => ⟨p, []⟩

/-- The program in the end: a bracket still open is `nop`. -/
def finish (nop : β) : Prog β → List (Prog β) → Prog β
  | p, [] => p
  | p, q :: st => finish nop (q.append (.act nop p)) st

theorem foldl_read (p : Prog β) (q : Prog β) (st : List (Prog β)) (ts : List (Token β)) :
    (p.tokens ++ ts).foldl read ⟨q, st⟩ = ts.foldl read ⟨q.append p, st⟩ := by
  induction p generalizing q st ts with
  | done => simp [Prog.tokens]
  | act b rest ih =>
    rw [Prog.tokens, List.cons_append, List.foldl_cons, read, ih, Prog.append_assoc]
    rfl
  | loop body rest ihb ihr =>
    rw [Prog.tokens, List.cons_append, List.cons_append, List.append_assoc, List.foldl_cons, read,
      ihb, List.cons_append, List.foldl_cons, read, ihr, Prog.append_assoc]
    rfl

end Reading

/-- The program that is left of a text without its unmatched brackets. -/
def mend (nop : β) (ts : List (Token β)) : Prog β :=
  let r := ts.foldl Reading.read ⟨.done, []⟩
  Reading.finish nop r.cur r.opened

theorem mend_tokens (nop : β) (p : Prog β) : mend nop p.tokens = p := by
  have hread := Reading.foldl_read p .done [] []
  rw [List.append_nil, List.foldl_nil] at hread
  rw [mend, hread]
  rfl

/-- The brackets that are open after a text, unless one closes that was never opened. -/
def level : Nat → List (Token β) → Option Nat
  | d, [] => some d
  | d, .act _ :: ts => level d ts
  | d, .opening :: ts => level (d + 1) ts
  | 0, .closing :: _ => none
  | d + 1, .closing :: ts => level d ts

/-- A text that closes all `d` brackets open before it is a program, and one more after each
closing bracket. -/
theorem exists_pieces {d : Nat} {ts : List (Token β)} (h : level d ts = some 0) :
    ∃ (p : Prog β) (ps : List (Prog β)), ps.length = d ∧
      ts = p.tokens ++ ps.flatMap fun q => .closing :: q.tokens := by
  induction ts generalizing d with
  | nil =>
    obtain rfl : d = 0 := Option.some.inj h
    exact ⟨.done, [], rfl, rfl⟩
  | cons t ts ih =>
    cases t with
    | act b =>
      obtain ⟨p, ps, hlen, rfl⟩ := ih h
      exact ⟨.act b p, ps, hlen, rfl⟩
    | opening =>
      obtain ⟨body, ps, hlen, rfl⟩ := ih h
      obtain ⟨rest, ps, rfl⟩ := List.exists_cons_of_length_eq_add_one hlen
      refine ⟨.loop body rest, ps, by simpa using hlen, ?_⟩
      simp [Prog.tokens]
    | closing =>
      cases d with
      | zero => cases h
      | succ d =>
        obtain ⟨p, ps, hlen, rfl⟩ := ih h
        exact ⟨.done, p :: ps, by simp [hlen], by simp [Prog.tokens]⟩

theorem exists_tokens {ts : List (Token β)} (h : level 0 ts = some 0) :
    ∃ p : Prog β, p.tokens = ts := by
  obtain ⟨p, ps, hlen, rfl⟩ := exists_pieces h
  obtain rfl := List.length_eq_zero_iff.mp hlen
  exact ⟨p, by simp⟩

/-- The basic commands' meaning: a command may be stuck, `test` is a loop's condition, and
nothing is done in a state that is not `live`. -/
structure Basis (β σ : Type) where
  act : β → σ → Option σ
  test : σ → Bool
  live : σ → Bool

inductive Eval (m : Basis β σ) : Prog β → σ → σ → Prop
  | dead {p : Prog β} {s : σ} (hs : m.live s = false) : Eval m p s s
  | done {s : σ} : Eval m .done s s
  | act {b : β} {rest : Prog β} {s u t : σ} (hs : m.live s = true) (hu : m.act b s = some u)
      (ht : Eval m rest u t) : Eval m (.act b rest) s t
  | leave {body rest : Prog β} {s t : σ} (hs : m.live s = true) (hb : m.test s = false)
      (ht : Eval m rest s t) : Eval m (.loop body rest) s t
  | again {body rest : Prog β} {s u t : σ} (hs : m.live s = true) (hb : m.test s = true)
      (hu : Eval m body s u) (ht : Eval m (.loop body rest) u t) : Eval m (.loop body rest) s t

inductive Instr (β : Type)
  | act (b : β)
  | fwd (target : Nat)
  | bck (target : Nat)
  | stop

/-- The code holds the program from `base` on: each bracket knows where its partner is. -/
def Placed (code : Nat → Option (Instr β)) : Nat → Prog β → Prop
  | _, .done => True
  | base, .act b rest => code base = some (.act b) ∧ Placed code (base + 1) rest
  | base, .loop body rest =>
    code base = some (.fwd (base + 1 + body.size)) ∧ Placed code (base + 1) body ∧
      code (base + 1 + body.size) = some (.bck base) ∧
      Placed code (base + 1 + body.size + 1) rest

theorem Placed.congr {code code' : Nat → Option (Instr β)} {base : Nat} {p : Prog β}
    (h : Placed code base p) (heq : ∀ k, base ≤ k → k < base + p.size → code' k = code k) :
    Placed code' base p := by
  induction p generalizing base with
  | done => trivial
  | act b rest ih =>
    rw [Prog.size] at heq
    refine ⟨(heq base (Nat.le_refl _) (by omega)).trans h.1, ih h.2 fun k hk hlt => ?_⟩
    exact heq k (by omega) (by omega)
  | loop body rest ihb ihr =>
    rw [Prog.size] at heq
    obtain ⟨hopen, hbody, hclose, hrest⟩ := h
    refine ⟨(heq base (Nat.le_refl _) (by omega)).trans hopen, ihb hbody fun k hk hlt => ?_,
      (heq _ (by omega) (by omega)).trans hclose, ihr hrest fun k hk hlt => ?_⟩
    · exact heq k (by omega) (by omega)
    · exact heq k (by omega) (by omega)

theorem Placed.isSome {code : Nat → Option (Instr β)} {base : Nat} {p : Prog β}
    (h : Placed code base p) {k : Nat} (hk : base ≤ k) (hlt : k < base + p.size) :
    (code k).isSome := by
  induction p generalizing base with
  | done =>
    rw [Prog.size] at hlt
    omega
  | act b rest ih =>
    rw [Prog.size] at hlt
    rcases Nat.eq_or_lt_of_le hk with rfl | hk
    · rw [h.1, Option.isSome_some]
    · exact ih h.2 hk (by omega)
  | loop body rest ihb ihr =>
    rw [Prog.size] at hlt
    obtain ⟨hopen, hbody, hclose, hrest⟩ := h
    rcases Nat.eq_or_lt_of_le hk with rfl | hk
    · rw [hopen, Option.isSome_some]
    · rcases Nat.lt_trichotomy k (base + 1 + body.size) with hin | rfl | hout
      · exact ihb hbody hk hin
      · rw [hclose, Option.isSome_some]
      · exact ihr hrest hout (by omega)

theorem placed_append {code : Nat → Option (Instr β)} {base : Nat} {p q : Prog β} :
    Placed code base (p.append q) ↔ Placed code base p ∧ Placed code (base + p.size) q := by
  induction p generalizing base with
  | done => exact ⟨fun h => ⟨trivial, h⟩, fun h => h.2⟩
  | act b rest ih =>
    have hsize : base + (Prog.act b rest).size = base + 1 + rest.size := by
      rw [Prog.size]
      omega
    rw [Prog.append, Placed, Placed, ih, hsize, and_assoc]
  | loop body rest _ ihr =>
    have hsize : base + (Prog.loop body rest).size = base + 1 + body.size + 1 + rest.size := by
      rw [Prog.size]
      omega
    rw [Prog.append, Placed, Placed, ihr, hsize, and_assoc, and_assoc, and_assoc]

/-- The machine that follows the jumps, given fuel. A jump is taken to the place after its
target. -/
def run (m : Basis β σ) (code : Nat → Option (Instr β)) : Nat → Nat → σ → Option σ
  | 0, _, _ => none
  | n + 1, pc, s =>
    (code pc).bind fun i =>
      if m.live s = true then
        match i with
        | .stop => some s
        | .act b => (m.act b s).bind (run m code n (pc + 1))
        | .fwd target => run m code n ((if m.test s = true then pc else target) + 1) s
        | .bck target => run m code n ((if m.test s = true then target else pc) + 1) s
      else some s

section Runs

variable {m : Basis β σ} {code : Nat → Option (Instr β)} {n pc base : Nat} {p : Prog β}
  {s t r : σ}

theorem run_succ (n pc : Nat) (s : σ) : run m code (n + 1) pc s = (code pc).bind fun i =>
    if m.live s = true then
      match i with
      | .stop => some s
      | .act b => (m.act b s).bind (run m code n (pc + 1))
      | .fwd target => run m code n ((if m.test s = true then pc else target) + 1) s
      | .bck target => run m code n ((if m.test s = true then target else pc) + 1) s
    else some s := rfl

theorem run_dead (hs : m.live s = false) (h : run m code n pc s = some r) : r = s := by
  cases n with
  | zero => cases h
  | succ n =>
    obtain ⟨i, -, hi⟩ := Option.bind_eq_some_iff.mp h
    rw [if_neg (by simp [hs])] at hi
    exact (Option.some.inj hi).symm

theorem run_of_dead {i : Instr β} (hi : code pc = some i) (hs : m.live s = false) (n : Nat) :
    run m code (n + 1) pc s = some s := by
  rw [run_succ, hi, Option.bind_some, if_neg (by simp [hs])]

theorem run_act {b : β} (hi : code pc = some (.act b)) (hs : m.live s = true) (n : Nat) :
    run m code (n + 1) pc s = (m.act b s).bind (run m code n (pc + 1)) := by
  rw [run_succ, hi, Option.bind_some, if_pos hs]

theorem run_fwd {target : Nat} (hi : code pc = some (.fwd target)) (hs : m.live s = true)
    (n : Nat) : run m code (n + 1) pc s =
      run m code n ((if m.test s = true then pc else target) + 1) s := by
  rw [run_succ, hi, Option.bind_some, if_pos hs]

theorem run_bck {close : Nat} (hopen : code base = some (.fwd close))
    (hclose : code close = some (.bck base)) (n : Nat) (s : σ) :
    run m code n close s = run m code n base s := by
  cases n with
  | zero => rfl
  | succ n => rw [run_succ, run_succ, hopen, hclose, Option.bind_some, Option.bind_some]

theorem run_dead_placed (hp : Placed code base p) (hs : m.live s = false)
    (h : run m code n (base + p.size) s = some r) : run m code n base s = some r := by
  obtain rfl := run_dead hs h
  cases n with
  | zero => cases h
  | succ n =>
    cases p with
    | done => exact h
    | act b rest => exact run_of_dead hp.1 hs n
    | loop body rest => exact run_of_dead hp.1 hs n

theorem run_of_eval (h : Eval m p s t) (hp : Placed code base p)
    (hrest : ∃ n, run m code n (base + p.size) t = some r) :
    ∃ n, run m code n base s = some r := by
  induction h generalizing base r with
  | dead hs =>
    obtain ⟨n, hn⟩ := hrest
    exact ⟨n, run_dead_placed hp hs hn⟩
  | done => exact hrest
  | @act b rest s u t hs hu ht ih =>
    rw [Prog.size, Nat.add_comm rest.size, ← Nat.add_assoc] at hrest
    obtain ⟨n, hn⟩ := ih hp.2 hrest
    exact ⟨n + 1, by rw [run_act hp.1 hs, hu, Option.bind_some, hn]⟩
  | @leave body rest s t hs hb ht ih =>
    have hsize : base + (Prog.loop body rest).size = base + 1 + body.size + 1 + rest.size := by
      rw [Prog.size]
      omega
    rw [hsize] at hrest
    obtain ⟨n, hn⟩ := ih hp.2.2.2 hrest
    exact ⟨n + 1, by rw [run_fwd hp.1 hs, if_neg (by simp [hb]), hn]⟩
  | @again body rest s u t hs hb hu ht ihu iht =>
    obtain ⟨n, hn⟩ := iht hp hrest
    rw [← run_bck hp.1 hp.2.2.1] at hn
    obtain ⟨k, hk⟩ := ihu hp.2.1 ⟨n, hn⟩
    exact ⟨k + 1, by rw [run_fwd hp.1 hs, if_pos hb, hk]⟩

theorem eval_of_run (hp : Placed code base p) (hend : (code (base + p.size)).isSome)
    (h : run m code n base s = some r) :
    ∃ t k, k ≤ n ∧ Eval m p s t ∧ run m code k (base + p.size) t = some r := by
  induction n using Nat.strongRecOn generalizing base p s with
  | ind n ih =>
    obtain ⟨i, hi⟩ := Option.isSome_iff_exists.mp hend
    cases n with
    | zero => cases h
    | succ n =>
      cases hs : m.live s with
      | false =>
        obtain rfl := run_dead hs h
        exact ⟨r, n + 1, Nat.le_refl _, .dead hs, run_of_dead hi hs n⟩
      | true =>
        cases p with
        | done => exact ⟨s, n + 1, Nat.le_refl _, .done, h⟩
        | act b rest =>
          have hsize : base + (Prog.act b rest).size = base + 1 + rest.size := by
            rw [Prog.size]
            omega
          rw [hsize] at hend ⊢
          rw [run_act hp.1 hs] at h
          obtain ⟨u, hu, hn⟩ := Option.bind_eq_some_iff.mp h
          obtain ⟨t, k, hk, heval, hrun⟩ := ih n (Nat.lt_succ_self n) hp.2 hend hn
          exact ⟨t, k, by omega, .act hs hu heval, hrun⟩
        | loop body rest =>
          obtain ⟨hopen, hbody, hclose, hrest⟩ := hp
          rw [run_fwd hopen hs] at h
          cases hb : m.test s with
          | false =>
            have hsize : base + (Prog.loop body rest).size =
                base + 1 + body.size + 1 + rest.size := by
              rw [Prog.size]
              omega
            rw [if_neg (by simp [hb])] at h
            rw [hsize] at hend ⊢
            obtain ⟨t, k, hk, heval, hrun⟩ := ih n (Nat.lt_succ_self n) hrest hend h
            exact ⟨t, k, by omega, .leave hs hb heval, hrun⟩
          | true =>
            rw [if_pos hb] at h
            obtain ⟨u, k, hk, hu, hrun⟩ :=
              ih n (Nat.lt_succ_self n) hbody (by rw [hclose]; rfl) h
            -- from the closing bracket the machine goes on as from the opening one
            rw [run_bck hopen hclose] at hrun
            obtain ⟨t, l, hl, ht, hfin⟩ :=
              ih k (by omega) (p := .loop body rest) ⟨hopen, hbody, hclose, hrest⟩ hend hrun
            exact ⟨t, l, by omega, .again hs hb hu ht, hfin⟩

theorem run_iff_eval (hp : Placed code base p) (hend : code (base + p.size) = some .stop) :
    (∃ n, run m code n base s = some r) ↔ Eval m p s r := by
  constructor
  · rintro ⟨n, hn⟩
    obtain ⟨t, k, -, heval, hrun⟩ := eval_of_run hp (by rw [hend]; rfl) hn
    cases k with
    | zero => cases hrun
    | succ k =>
      rw [run_succ, hend, Option.bind_some, ite_self] at hrun
      exact Option.some.inj hrun ▸ heval
  · intro h
    refine run_of_eval h hp ⟨1, ?_⟩
    rw [run_succ, hend, Option.bind_some, ite_self]

end Runs

end Riscv32Cpu.Lib.LoopCode
